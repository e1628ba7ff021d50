import VectorScript.Proofs.Machine.Lockstep
import VectorScript.Proofs.Workspace.Faults
import VectorScript.Proofs.Workspace.Sized

/-!
# Scripts that run independently

Two scripts of which neither imports from the other name different entries where one of them stores:
what a script stores to is its own, and what it imports belongs to the host or to the script that it
names. So if neither dispatches nor draws random numbers, each run does the same before and after the
other, also where it fails half way, and both orders leave the same workspace.

    w.Plays a p → w.Plays b q → p and q import nothing from one another →
      running a then b gives what running b then a gives                            (runs_commute)

The scripts of one table and one map of scripts are changed in different places; what each run reads
is settled by `Program.lockstep`.
-/

namespace VectorScript

/-! ## What a program stores to -/

/-- Some statement of the program stores to the entry. -/
def Program.Writes (p : Program) (id : SharedId) : Prop :=
  ∃ slot, p.StoresTo slot ∧ p.slots[slot]? = some (.shared id)

theorem Program.Writes.mem_slots {p : Program} {id : SharedId} (h : p.Writes id) :
    Slot.shared id ∈ p.slots := by
  obtain ⟨slot, -, hid⟩ := h
  exact List.mem_of_getElem? hid

/-- It is an entry that the script declares. -/
theorem Program.Linked.exported_of_writes {p : Program} {owner : String} {t : SharedTable}
    (h : p.Linked owner t) {id : SharedId} (hwrites : p.Writes id) :
    ∃ x, p.exports.get? x = some id := by
  obtain ⟨slot, hstores, hid⟩ := hwrites
  obtain ⟨x, v, hx, rfl, hown⟩ := h.stores slot hstores
  have hhome := Option.some.inj ((h.placed x v hx).slot.symm.trans hid)
  exact ⟨x, h.exported x v id hx (Variable.shared_eq_of_home hhome) hown⟩

/-- A slot that names an entry is the place of a variable that stands for it. -/
theorem Program.Linked.variable_of_slot {p : Program} {owner : String} {t : SharedTable}
    (h : p.Linked owner t) {id : SharedId} (hid : Slot.shared id ∈ p.slots) :
    ∃ x v, p.symbols.get? x = some (.var v) ∧ v.shared = some id := by
  obtain ⟨n, hn, hslot⟩ := List.mem_iff_getElem.1 hid
  obtain ⟨x, v, hx, rfl⟩ := h.named n hn
  have hhome := (h.placed x v hx).slot
  rw [List.getElem?_eq_getElem hn, hslot] at hhome
  exact ⟨x, v, hx, Variable.shared_eq_of_home (Option.some.inj hhome).symm⟩

namespace Workspace

variable {w w' : Workspace} {name : String}

/-- The script has a current program, which calls only functions of the library, and neither the one
that dispatches nor the one that draws random numbers. -/
structure Plays (w : Workspace) (name : String) (p : Program) : Prop where
  script : ∃ s, w.scripts.get? name = some s ∧ s.program? = some p ∧ s.stale = false
  calls : ∀ f, p.Calls f →
    f ∈ Library.functions ∧ f.name ≠ Library.dispatchName ∧ f.name ≠ Library.random.name

theorem Plays.program? {p : Program} (h : w.Plays name p) : w.scripts.program? name = some p := by
  obtain ⟨s, hs, hp, -⟩ := h.script
  exact Option.bind_eq_some_iff.2 ⟨s, hs, hp⟩

theorem Sound.current_of_plays (hw : w.Sound) {p : Program} (h : w.Plays name p) :
    p.Current name w.globals w.scripts := by
  obtain ⟨s, hs, hp, hstale⟩ := h.script
  obtain ⟨i, hi, rfl⟩ := Option.map_eq_some_iff.1 hp
  exact hw.current name s i hs hi hstale

/-- The program imports nothing from the other script: it does not name it, and if the host's variables
are declared by that script it imports none of those. -/
def Ignores (w : Workspace) (p : Program) (other : String) : Prop :=
  p.imports.contains other = false ∧ (other = hostOwner →
    ∀ q, w.scripts.program? other = some q → ∀ x id, q.exports.get? x = some id → id ∉ p.references)

/-- What a script stores to is not named by one that imports nothing from it. -/
theorem Sound.not_mem_slots (hw : w.Sound) {a b : String} (hab : a ≠ b) {p q : Program}
    (ha : w.Plays a p) (hb : w.Plays b q) (hignores : w.Ignores q a) {id : SharedId}
    (hwrites : p.Writes id) : Slot.shared id ∉ q.slots := by
  intro hslot
  have hlinked := hw.toCounted.linked_program ha.program?
  have hlinked' := hw.toCounted.linked_program hb.program?
  obtain ⟨x, hx⟩ := hlinked.exported_of_writes hwrites
  obtain ⟨-, e, -, he, howner, -⟩ := hlinked.exports x id hx
  obtain ⟨y, v, hy, hv⟩ := hlinked'.variable_of_slot hslot
  by_cases himported : v.imported = true
  · obtain ⟨id', hid', hsource⟩ := hw.current_of_plays hb y v hy himported
    cases hv.symm.trans hid'
    rcases hsource with hhost | ⟨script, exports, -, himports, hexports, hget⟩
    · -- an entry of the host that the script without a name declares as well
      obtain ⟨e', he', howner', -⟩ := hw.shared y id hhost
      cases he.symm.trans he'
      exact hignores.2 (howner.symm.trans howner') p ha.program? x id hx (hlinked'.slots id hslot)
    · obtain ⟨r, hr, rfl⟩ := Option.map_eq_some_iff.1 hexports
      obtain ⟨-, e', -, he', howner', -⟩ := (hw.toCounted.linked_program hr).exports y id hget
      cases he.symm.trans he'
      obtain rfl : script = a := howner'.symm.trans howner
      rw [hignores.1] at himports
      exact himports.elim (fun h => nomatch h) fun h => nomatch h
  · -- an entry of its own
    have hown := hlinked'.exported y v id hy hv (Bool.eq_false_iff.2 himported)
    obtain ⟨-, e', -, he', howner', -⟩ := hlinked'.exports y id hown
    cases he.symm.trans he'
    exact hab (howner.symm.trans howner')

/-! ## Stores of a program -/

/-- The later workspace is the earlier one after stores of the program. -/
structure Stored (p : Program) (w w' : Workspace) : Prop where
  only : w' = { w with table := w'.table }
  sorted : w'.table.Sorted
  refilled : w.table.Refilled w'.table
  kept : ∀ id, ¬p.Writes id → w'.table.get? id = w.table.get? id

theorem Sound.stored_refl (hw : w.Sound) (p : Program) : Stored p w w :=
  ⟨rfl, hw.sorted, .refl _, fun _ _ => rfl⟩

theorem Stored.store {p : Program} (h : Stored p w w') {memory : Memory} (hm : memory.Fits p.slots)
    {slot : Nat} (hslot : p.StoresTo slot) (hlt : slot < p.slots.length) (v : Value)
    (path : List Int32) :
    Stored p w { w' with table := (memory.store w'.table slot v path).2.2 } where
  only := by rw [h.only]
  sorted := (memory.refilled_store h.sorted slot v path).sorted h.sorted
  refilled := h.refilled.trans (memory.refilled_store h.sorted slot v path)
  kept id hid := by
    refine (Memory.get?_store hm w'.table hlt (fun hwrites => ?_) v path).trans (h.kept id hid)
    exact hid ⟨slot, hslot, hwrites⟩

/-- Two workspaces that come from two others by stores of the program, and what its slots name is the
same in both. -/
structure Beside (p : Program) (start start' : Workspace) (memory : Memory) (w w' : Workspace) :
    Prop where
  fits : memory.Fits p.slots
  size : memory.slots.length = p.slots.length
  left : Stored p start w
  right : Stored p start' w'
  same : ∀ id, Slot.shared id ∈ p.slots → w'.table.get? id = w.table.get? id

theorem Beside.shared_mem {p : Program} {start start' : Workspace} {memory : Memory}
    (h : Beside p start start' memory w w') {slot : Nat} {id : SharedId}
    (hid : memory.slots[slot]? = some (.shared id)) : Slot.shared id ∈ p.slots := by
  have hlt := (List.getElem?_eq_some_iff.1 hid).1
  rw [h.size] at hlt
  exact List.mem_of_getElem? (h.fits.shared_eq hlt hid)

theorem reads_beside {p : Program} {owner : String} {t : SharedTable} (hp : p.Linked owner t)
    (start start' : Workspace) : Reads (Beside p start start') p.StoresTo where
  fetch {memory w w'} slot h := by
    unfold Memory.fetch
    split
    · rfl
    · next id hid =>
      unfold SharedTable.value?
      rw [h.same id (h.shared_mem hid)]
    · rfl
  store {memory w w' slot} v path hslot h := by
    obtain ⟨houtcome, hmemory, hentries⟩ := memory.store_agree
      (fun id hid => h.same id (h.shared_mem hid)) v path
    have hlt := (hp.owner_of_storesTo hslot).1
    refine ⟨houtcome, hmemory, Memory.fits_store h.fits w.table slot v path,
      (memory.length_store w.table slot v path).trans h.size, h.left.store h.fits hslot hlt v path,
      h.right.store h.fits hslot hlt v path, fun id hid => hentries id (h.same id hid)⟩

/-! ## Running one script -/

/-- The script has run on its own: stores have been made, its memory is another, and its start has been
noted. -/
structure Played (name : String) (p : Program) (memory : Memory) (w w' : Workspace) : Prop where
  only : w' = { w.modifyInstalled name fun i => { i with runner := some ⟨p, memory⟩ } with
    table := w'.table, journal := ⟨.started, name, w.active⟩ :: w.journal }
  refilled : w.table.Refilled w'.table
  kept : ∀ id, ¬p.Writes id → w'.table.get? id = w.table.get? id

/-- A script that is current runs at once. -/
theorem run_eq {s : Script} (hs : w.scripts.get? name = some s) (hstale : s.stale = false)
    {r : Runner} (hr : s.runner? = some r) :
    w.run name = engage (runWithin Setting.compile w.scripts.size) name r w := by
  have hinstalled : s.installed.isNone = false := by
    obtain ⟨i, hi, -⟩ := Option.bind_eq_some_iff.1 hr
    rw [hi]
    rfl
  have hrefresh : w.refresh Setting.compile name s = (.ok (), w) := by
    unfold refresh
    rw [hstale, hinstalled]
    rfl
  unfold run runWithin
  rw [hs]
  dsimp only
  rw [hrefresh]
  dsimp only
  rw [hs, Option.bind_some, hr]

/-- What has changed when a script has come to its end that has only stored values. -/
theorem leave_enter {after : Workspace} (r : Runner)
    (hafter : after = { w.enter name with table := after.table }) : after.leave name r =
      { w.modifyInstalled name fun i => { i with runner := some r } with
        table := after.table, journal := ⟨.started, name, w.active⟩ :: w.journal } := by
  have hscripts : ((w.enter name).modifyInstalled name (.putBack r)).scripts =
      (w.modifyInstalled name fun i => { i with runner := some r }).scripts := by
    refine NameMap.ext_get? fun other => ?_
    unfold enter modifyInstalled note
    simp only [NameMap.get?_modify]
    split
    · rw [Option.map_map]
      refine congrArg (Option.map · (w.scripts.get? other)) (funext fun s => ?_)
      dsimp only [Function.comp]
      rw [Option.map_map]
      rfl
    · rfl
  have hactive : (w.enter name).active.dropLast = w.active := List.dropLast_concat
  rw [hafter]
  unfold leave
  dsimp only
  rw [hactive]
  show Workspace.mk _ _ ((w.enter name).modifyInstalled name (.putBack r)).scripts _ _ _ = _
  rw [hscripts]
  rfl

/-- In workspaces in which its script is the same and its slots name the same, a program does the
same. -/
theorem Sound.run_beside (hw : w.Sound) (hw' : w'.Sound) (hidle : w.active = []) (hsized : w.Sized)
    {p : Program} (hplays : w.Plays name p)
    (hscript : w'.scripts.get? name = w.scripts.get? name)
    (hsame : ∀ id, Slot.shared id ∈ p.slots → w'.table.get? id = w.table.get? id) :
    (w'.run name).1 = (w.run name).1 ∧ ∃ memory, Played name p memory w (w.run name).2 ∧
      Played name p memory w' (w'.run name).2 ∧ ∀ id, Slot.shared id ∈ p.slots →
        (w'.run name).2.table.get? id = (w.run name).2.table.get? id := by
  obtain ⟨s, hs, hp, hstale⟩ := hplays.script
  obtain ⟨i, hi, rfl⟩ := Option.map_eq_some_iff.1 hp
  have hout : name ∉ w.active := by simp [hidle]
  have hmanned := hw.manned name s i hs hi
  have hr : s.runner? = some ⟨i.program, i.memory⟩ := by
    unfold Script.runner?
    rw [hi]
    exact hmanned.runner_eq hout
  have hsize : i.memory.slots.length = i.program.slots.length :=
    hsized name s i _ hs hi (hmanned.runner_eq hout)
  have hreads := reads_beside (hw.linked name s i hs hi) (w.enter name) (w'.enter name)
  have hstart : Beside i.program (w.enter name) (w'.enter name) i.memory (w.enter name)
      (w'.enter name) :=
    ⟨hmanned.fits hout, hsize, (hw.enter name).stored_refl _, (hw'.enter name).stored_refl _, hsame⟩
  -- No function that it calls asks the workspace for anything, so both runs go in lockstep.
  have hquiet : ∀ f, i.program.Calls f → f.Quiet := fun f hf =>
    Library.quiet f (hplays.calls f hf).1 (hplays.calls f hf).2.1 (hplays.calls f hf).2.2
  obtain ⟨houtcome, hmemory, hbeside⟩ := i.program.lockstep hreads hquiet
    (dispatchBy (runWithin Setting.compile w.scripts.size))
    (dispatchBy (runWithin Setting.compile w'.scripts.size)) hstart
  rw [run_eq hs hstale hr, run_eq (hscript.trans hs) hstale hr, engage_eq, engage_eq, hmemory]
  exact ⟨houtcome, _, ⟨leave_enter _ hbeside.left.only, hbeside.left.refilled, hbeside.left.kept⟩,
    ⟨leave_enter _ hbeside.right.only, hbeside.right.refilled, hbeside.right.kept⟩, hbeside.same⟩

namespace Played

variable {p q : Program} {memory : Memory}

/-- The other scripts are as they were. -/
theorem get?_scripts (h : Played name p memory w w') {other : String} (hne : other ≠ name) :
    w'.scripts.get? other = w.scripts.get? other := by
  rw [h.only]
  exact (NameMap.get?_modify ..).trans (if_neg hne)

/-- The script itself is left the same where it was the same. -/
theorem get?_scripts_self {v v' : Workspace} (h : Played name p memory w w')
    (h' : Played name p memory v v') (heq : v.scripts.get? name = w.scripts.get? name) :
    v'.scripts.get? name = w'.scripts.get? name := by
  rw [h.only, h'.only]
  unfold modifyInstalled
  dsimp only
  rw [NameMap.get?_modify, NameMap.get?_modify, heq]

variable {a b : String} {memory' : Memory} {wa wb wab wba : Workspace}

/-- When two scripts have each run from one workspace and then each after the other, as they did on
their own, the entries are the same in the end: none is stored to by both. -/
theorem table_eq (hw : w.table.Sorted)
    (ha : Played a p memory w wa) (hb : Played b q memory' w wb)
    (hba : Played b q memory' wa wab) (hab : Played a p memory wb wba)
    (hsame : ∀ id, Slot.shared id ∈ p.slots → wba.table.get? id = wa.table.get? id)
    (hsame' : ∀ id, Slot.shared id ∈ q.slots → wab.table.get? id = wb.table.get? id)
    (hapart : ∀ id, p.Writes id → Slot.shared id ∉ q.slots) : wab.table = wba.table := by
  refine (ha.refilled.trans hba.refilled).eq hw (hb.refilled.trans hab.refilled) fun id => ?_
  by_cases hp : p.Writes id
  · rw [hsame id hp.mem_slots, hba.kept id fun hq => hapart id hp hq.mem_slots]
  · by_cases hq : q.Writes id
    · rw [hsame' id hq.mem_slots, hab.kept id hp]
    · rw [hba.kept id hq, ha.kept id hp, hab.kept id hp, hb.kept id hq]

/-- So are the scripts. -/
theorem scripts_eq (hne : a ≠ b) (ha : Played a p memory w wa) (hb : Played b q memory' w wb)
    (hba : Played b q memory' wa wab) (hab : Played a p memory wb wba) :
    wab.scripts = wba.scripts := by
  refine NameMap.ext_get? fun name => ?_
  by_cases hna : name = a
  · subst hna
    rw [hba.get?_scripts hne, ha.get?_scripts_self hab (hb.get?_scripts hne)]
  · rw [hab.get?_scripts hna]
    by_cases hnb : name = b
    · subst hnb
      exact hb.get?_scripts_self hba (ha.get?_scripts hna)
    · rw [hba.get?_scripts hnb, ha.get?_scripts hna, hb.get?_scripts hnb]

/-- Nothing else differs but what has been noted. -/
theorem workspace_eq (ha : Played a p memory w wa) (hb : Played b q memory' w wb)
    (hba : Played b q memory' wa wab) (hab : Played a p memory wb wba)
    (htable : wab.table = wba.table) (hscripts : wab.scripts = wba.scripts) :
    { wab with journal := wba.journal } = wba := by
  have hglobals : wab.globals = wba.globals := by rw [hba.only, ha.only, hab.only, hb.only]; rfl
  have hactive : wab.active = wba.active := by rw [hba.only, ha.only, hab.only, hb.only]; rfl
  have hseed : wab.seed = wba.seed := by rw [hba.only, ha.only, hab.only, hb.only]; rfl
  rw [htable, hscripts, hglobals, hactive, hseed]

end Played

/-- Take two scripts with current programs that call only functions of the library, and neither the one
that dispatches nor the one that draws random numbers. If neither imports from the other, each run ends
in the same way before and after the other, and both orders leave the same workspace, but for the order
in which the runs have been noted. So the variables have the same values. -/
theorem runs_commute (h : Reachable Setting.compile w) {a b : String} (hab : a ≠ b) {p q : Program}
    (ha : w.Plays a p) (hb : w.Plays b q) (hignores : w.Ignores p b) (hignores' : w.Ignores q a) :
    ((w.run b).2.run a).1 = (w.run a).1 ∧ ((w.run a).2.run b).1 = (w.run b).1 ∧
      { ((w.run a).2.run b).2 with journal := ((w.run b).2.run a).2.journal } =
        ((w.run b).2.run a).2 ∧
      (∀ name, ((w.run a).2.run b).2.values name = ((w.run b).2.run a).2.values name) ∧
      ∀ owner x, ((w.run a).2.run b).2.getShared owner x = ((w.run b).2.run a).2.getShared owner x := by
  obtain ⟨hw, hidle⟩ := sound_of_reachable Setting.sound_compile h
  have hsized := sized_of_reachable h
  have hapart : ∀ id, p.Writes id → Slot.shared id ∉ q.slots := fun _ =>
    hw.not_mem_slots hab ha hb hignores'
  have hapart' : ∀ id, q.Writes id → Slot.shared id ∉ p.slots := fun _ =>
    hw.not_mem_slots hab.symm hb ha hignores
  have hsound : ∀ name, (w.run name).2.Sound := fun name =>
    (hw.keeps_runWithin Setting.sound_compile _ (show name ∉ w.active by simp [hidle])).sound
  -- each alone, and then each after the other
  obtain ⟨-, _, haAlone, -, -⟩ := hw.run_beside hw hidle hsized ha rfl fun _ _ => rfl
  obtain ⟨hbOutcome, _, hbAlone, hbAfter, hbSame⟩ := hw.run_beside (hsound a) hidle hsized hb
    (haAlone.get?_scripts hab.symm) fun id hid => haAlone.kept id fun hwrites => hapart id hwrites hid
  obtain ⟨haOutcome, _, haAlone, haAfter, haSame⟩ := hw.run_beside (hsound b) hidle hsized ha
    (hbAlone.get?_scripts hab) fun id hid => hbAlone.kept id fun hwrites => hapart' id hwrites hid
  have htable := haAlone.table_eq hw.sorted hbAlone hbAfter haAfter haSame hbSame hapart
  have hscripts := haAlone.scripts_eq hab hbAlone hbAfter haAfter
  have heq := haAlone.workspace_eq hbAlone hbAfter haAfter htable hscripts
  refine ⟨haOutcome, hbOutcome, heq, fun name => ?_, fun owner x => ?_⟩
  · exact congrArg (fun w' => w'.values name) heq
  · exact congrArg (fun w' => w'.getShared owner x) heq

/-! ## Scripts that share what they read -/

/-- Whether the script's program is current, calls neither of the two functions and does not import from
the other script. -/
def standsAlone (w : Workspace) (name other : String) : Bool :=
  (w.scripts.get? name).any fun s => !s.stale && s.program?.any fun p =>
    !p.imports.contains other && p.statements.all fun s => (Exec.calls s.code).all fun index =>
      p.functions[index]?.all fun f =>
        f.name != Library.dispatchName && f.name != Library.random.name

theorem plays_of_standsAlone (hequipped : w.Equipped (· ∈ Library.functions)) {other : String}
    (h : w.standsAlone name other = true) :
    ∃ p, w.Plays name p ∧ p.imports.contains other = false := by
  obtain ⟨s, hs, h⟩ := (Option.any_eq_true ..).1 h
  rw [Bool.and_eq_true, Bool.not_eq_true'] at h
  obtain ⟨p, hp, hcalls⟩ := (Option.any_eq_true ..).1 h.2
  rw [Bool.and_eq_true, Bool.not_eq_true'] at hcalls
  have hprogram : w.scripts.program? name = some p := Option.bind_eq_some_iff.2 ⟨s, hs, hp⟩
  refine ⟨p, ⟨⟨s, hs, hp, h.1⟩, fun f ⟨statement, hstatement, index, hindex, hf⟩ => ?_⟩, hcalls.1⟩
  have hcall := List.all_eq_true.1 (List.all_eq_true.1 hcalls.2 statement hstatement) index hindex
  rw [hf, Option.all_some, Bool.and_eq_true, bne_iff_ne, bne_iff_ne] at hcall
  exact ⟨hequipped.programs name p hprogram f (List.mem_of_getElem? hf), hcall⟩

/-- Where the host adds no functions there are only those of the library. -/
theorem equipped_perform (h : Reachable Setting.compile w)
    (hequipped : w.Equipped (· ∈ Library.functions)) {action : Action}
    (haction : ∀ f, action ≠ .addFunction f) :
    (w.perform Setting.compile action).Equipped (· ∈ Library.functions) := by
  obtain ⟨hw, hidle⟩ := sound_of_reachable Setting.sound_compile h
  have hlasting := lasting_equipped fun f (hf : f ∈ Library.functions) => hf
  exact hlasting.history.perform Setting.sound_compile hw hidle (fun f h => absurd h (haction f))
    hequipped

theorem equipped_performed {actions : List Action} (h : ∀ f, .addFunction f ∉ actions) :
    (performed actions).Equipped (· ∈ Library.functions) := by
  have hnew : Workspace.new.Equipped (· ∈ Library.functions) := (lasting_equipped fun f hf => hf).new
  refine (List.foldlRecOn (motive := fun w => Reachable Setting.compile w ∧
    w.Equipped (· ∈ Library.functions)) actions _ ⟨.new, hnew⟩ fun w hw action haction => ?_).2
  refine ⟨hw.1.perform action, equipped_perform hw.1 hw.2 fun f hf => h f ?_⟩
  rwa [← hf]

/-- Two scripts that read a variable of the host, each of which stores to its own. The second one fails
half way. -/
def readers : Workspace := performed [.addShared "time" .integer,
  .setSource "a" "import time; shared Natural n; n = n + time; Real r = sqrt(n);",
  .setSource "b" "import time; shared Natural m = 2; m = m / time; m = 5;"]

theorem runs_commute_readers : (readers.run "b").1.toOption = none ∧
    ((readers.run "b").2.run "a").1 = (readers.run "a").1 ∧
    ((readers.run "a").2.run "b").1 = (readers.run "b").1 ∧
    { ((readers.run "a").2.run "b").2 with journal := ((readers.run "b").2.run "a").2.journal } =
      ((readers.run "b").2.run "a").2 ∧
    (∀ name, ((readers.run "a").2.run "b").2.values name =
      ((readers.run "b").2.run "a").2.values name) ∧
    ∀ owner x, ((readers.run "a").2.run "b").2.getShared owner x =
      ((readers.run "b").2.run "a").2.getShared owner x := by
  have hreachable : Reachable Setting.compile readers := reachable_performed _
  have hequipped : readers.Equipped (· ∈ Library.functions) := equipped_performed (by simp)
  obtain ⟨ha, hb, hfails⟩ : readers.standsAlone "a" "b" = true ∧
      readers.standsAlone "b" "a" = true ∧ (readers.run "b").1.toOption = none := by decide +kernel
  obtain ⟨p, hp, himports⟩ := plays_of_standsAlone hequipped ha
  obtain ⟨q, hq, himports'⟩ := plays_of_standsAlone hequipped hb
  exact ⟨hfails, runs_commute hreachable (by decide) hp hq ⟨himports, fun h => nomatch h⟩
    ⟨himports', fun h => nomatch h⟩⟩

/-- The script without a name declares what the host declares as well, and another imports it. -/
def namesakes : Workspace := performed [.setSource "" "shared Natural g; g = g + 1;",
  .addShared "g" .integer, .setSource "v" "import g; Natural n = g;"]

/-- What is held by those variables of a script that hold integers. -/
def integers (w : Workspace) (name : String) : List Int32 := (w.values name).filterMap fun x =>
  match x.2 with
  | .integer n => some n
  | _ => none

/-- Neither imports from the other, and it matters which of them runs first. -/
theorem runs_commute_namesakes : Reachable Setting.compile namesakes ∧
    (∃ p q, namesakes.Plays "" p ∧ namesakes.Plays "v" q ∧ p.imports.contains "v" = false ∧
      q.imports.contains "" = false) ∧
    ((namesakes.run "").2.run "v").2.values "v" ≠ ((namesakes.run "v").2.run "").2.values "v" := by
  have hequipped : namesakes.Equipped (· ∈ Library.functions) := equipped_performed (by simp)
  obtain ⟨ha, hb, hdiffer⟩ : namesakes.standsAlone "" "v" = true ∧
      namesakes.standsAlone "v" "" = true ∧
      ((namesakes.run "").2.run "v").2.integers "v" ≠
        ((namesakes.run "v").2.run "").2.integers "v" := by
    decide +kernel
  obtain ⟨p, hp, himports⟩ := plays_of_standsAlone hequipped ha
  obtain ⟨q, hq, himports'⟩ := plays_of_standsAlone hequipped hb
  refine ⟨reachable_performed _, ⟨p, q, hp, hq, himports, himports'⟩, fun h => hdiffer ?_⟩
  unfold integers
  rw [h]

end Workspace

end VectorScript
