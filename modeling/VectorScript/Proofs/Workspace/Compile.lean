import VectorScript.Proofs.Workspace.Invariant

/-!
# Compiling keeps a workspace in order

Each operation that compiles, replaces or removes programs takes and gives up references so that the
counts stay exact, and marks as stale whoever imports what has moved. A failed compilation leaves
the table as it was.

    w.Sound → compiler.Sound → w.Keeps (w.compile name compiler).2 (· ≠ name)      (keeps_compile)
-/

namespace VectorScript

namespace Workspace

variable {w : Workspace}

/-- The later workspace is in order, ids have kept their meaning, and the given scripts still have
the programs that they had. -/
structure Keeps (w w' : Workspace) (kept : String → Prop) : Prop where
  sound : w'.Sound
  follows : w.table.Follows w'.table
  active : w'.active = w.active
  globals : w'.globals = w.globals
  programs : ∀ name, kept name → w'.scripts.program? name = w.scripts.program? name

theorem Keeps.refl (hw : w.Sound) (kept : String → Prop) : w.Keeps w kept :=
  ⟨hw, .refl _, rfl, rfl, fun _ _ => rfl⟩

theorem Keeps.trans {w' w'' : Workspace} {kept : String → Prop} (h : w.Keeps w' kept)
    (h' : w'.Keeps w'' kept) : w.Keeps w'' kept :=
  ⟨h'.sound, h.follows.trans h'.follows, h'.active.trans h.active, h'.globals.trans h.globals,
    fun name hk => (h'.programs name hk).trans (h.programs name hk)⟩

theorem Keeps.weaken {w' : Workspace} {kept kept' : String → Prop} (h : w.Keeps w' kept)
    (hk : ∀ name, kept' name → kept name) : w.Keeps w' kept' :=
  ⟨h.sound, h.follows, h.active, h.globals, fun name h' => h.programs name (hk name h')⟩

/-- Scripts that age. -/
theorem Sound.keeps_ages (hw : w.Sound) {b : Scripts} (h : Ages w.scripts b)
    (kept : String → Prop) : w.Keeps { w with scripts := b } kept :=
  ⟨hw.ages h, .refl _, rfl, rfl, fun name _ => h.program name⟩

theorem Sound.keeps_note (hw : w.Sound) (deed : Deed) (script : String) (kept : String → Prop) :
    w.Keeps (w.note deed script) kept :=
  ⟨hw.noted deed script, .refl _, rfl, rfl, fun _ _ => rfl⟩

/-! ## Before a compilation -/

/-- The setting of a script in a workspace in order is in order. -/
theorem Counted.setting_ok (hw : w.Counted) (name : String) : (w.setting name).Ok := by
  intro source tokens
  refine ⟨hw.sorted, hw.globals, fun x id hx => ?_, fun script exports x id hscript hx => ?_⟩
  · obtain ⟨e, he, -, hname⟩ := hw.shared x id hx
    exact ⟨e, he, hname⟩
  · obtain ⟨p, hp, rfl⟩ := Option.map_eq_some_iff.1 hscript
    obtain ⟨s, hs, hsp⟩ := Option.bind_eq_some_iff.1 hp
    obtain ⟨i, hi, rfl⟩ := Option.map_eq_some_iff.1 hsp
    have hlinked := hw.linked script s i hs hi
    obtain ⟨-, e, v, he, -, hv, hshared, -⟩ := hlinked.exports x id hx
    obtain ⟨e', he', hname, -⟩ := (hlinked.placed x v hv).entry id hshared
    exact ⟨e', he', hname⟩

/-! ## A compilation that fails -/

/-- Only the entries matter, not which ids have been given out. -/
theorem Sound.retabled (hw : w.Sound) {t : SharedTable} (ht : t.Sorted)
    (h : t.entries = w.table.entries) : { w with table := t }.Sound where
  sorted := ht
  shaped e he := hw.shaped e (h ▸ he)
  refs e he := hw.refs e (h ▸ he)
  globals := hw.globals
  shared x id hx := by
    obtain ⟨e, he, hrest⟩ := hw.shared x id hx
    exact ⟨e, (SharedTable.get?_congr h id).trans he, hrest⟩
  linked name s i hs hi := by
    refine (hw.linked name s i hs hi).mono (fun id _ e he => ⟨e, ?_, rfl, rfl, rfl⟩) ?_
    · exact (SharedTable.get?_congr h id).trans he
    · exact fun _ x id _ hl => (hw.sorted.lookup_congr ht h name x).trans hl
  manned := hw.manned
  current := hw.current
  held e he := hw.held e (h ▸ he)

/-- What a failed compilation has declared leaves no trace. -/
theorem Sound.keeps_failed (hw : w.Sound) {owner : String} {t : SharedTable}
    (ht : SharedTable.Extends owner w.table t) (kept : String → Prop) :
    w.Keeps { w with table := t.sweep } kept :=
  ⟨hw.retabled ht.sorted.sweep (ht.entries_sweep hw.held),
    ht.follows.trans (SharedTable.follows_sweep t), rfl, rfl, fun _ _ => rfl⟩

/-! ## Counting anew -/

/-- A workspace is in order when the references are counted right for its scripts and names, and
each program is linked with the table whose counts these are. -/
theorem counted_recount {g : Globals} {t : SharedTable} {scripts : Scripts} {active : List String}
    {seed : UInt64} {journal : List Event} (refs : SharedEntry → Nat) (hsorted : t.Sorted)
    (hshaped : t.Shaped) (hrefs : ∀ e ∈ t.entries,
      refs e = (⟨g, t, scripts, active, seed, journal⟩ : Workspace).holders e.id)
    (hglobals : g.Ok)
    (hshared : ∀ x id, g.shared.get? x = some id →
      ∃ e, t.get? id = some e ∧ e.owner = hostOwner ∧ e.name = x)
    (hscripts : ∀ name s i, scripts.get? name = some s → s.installed = some i →
      i.program.Linked name t ∧ i.Manned (name ∈ active) ∧
        (s.stale = false → i.program.Current name g scripts)) :
    (⟨g, t.mapEntries fun e => { e with refs := refs e }, scripts, active, seed,
      journal⟩ : Workspace).Counted where
  sorted := hsorted.mapEntries (fun _ => rfl) (fun _ => rfl) fun _ => rfl
  shaped e' he' := by
    obtain ⟨e, he, rfl⟩ := List.mem_map.1 he'
    exact hshaped e he
  refs e' he' := by
    obtain ⟨e, he, rfl⟩ := List.mem_map.1 he'
    exact hrefs e he
  globals := hglobals
  shared x id hx := by
    obtain ⟨e, he, ho, hn⟩ := hshared x id hx
    refine ⟨{ e with refs := refs e }, ?_, ho, hn⟩
    refine (SharedTable.get?_mapEntries ?_ t id).trans ?_
    · exact fun _ => rfl
    · rw [he]
      rfl
  linked name s i hs hi := by
    exact (hscripts name s i hs hi).1.mapEntries (fun _ => rfl) (fun _ => rfl) (fun _ => rfl)
      fun _ => rfl
  manned name s i hs hi := (hscripts name s i hs hi).2.1
  current name s i hs hi := (hscripts name s i hs hi).2.2

/-- What is declared has the shape of its type. -/
theorem Sound.shaped_extends (hw : w.Sound) {owner : String} {t : SharedTable}
    (ht : SharedTable.Extends owner w.table t) : t.Shaped := by
  intro e he
  obtain ⟨fresh, hl, hf⟩ := ht.entries
  rw [hl] at he
  rcases List.mem_append.1 he with he | he
  · exact hw.shaped e he
  · rw [(hf e he).2.2.1]
    exact Cell.conforms_create e.ty

/-! ## A compilation that succeeds -/

/-- Declarations do not disturb the counts: nobody holds what is new. -/
theorem Counted.refs_extends (hw : w.Counted) {owner : String} {t : SharedTable}
    (ht : SharedTable.Extends owner w.table t) : ∀ e ∈ t.entries, e.refs = w.holders e.id := by
  intro e he
  obtain ⟨fresh, hl, hf⟩ := ht.entries
  rw [hl] at he
  rcases List.mem_append.1 he with he | he
  · exact hw.refs e he
  · obtain ⟨-, hrefs, -, hid⟩ := hf e he
    rw [hrefs, hw.holders_eq_zero]
    intro a ha haid
    have := hw.sorted.below a ha
    rw [haid] at this
    omega

/-- The references of the program that a script has, if any. -/
def oldReferences (s : Script) : List SharedId := (s.program?.map (·.references)).getD []

theorem count_references {p : Program} {owner : String} {t : SharedTable} (hp : p.Linked owner t)
    (id : SharedId) : p.references.count id = (p.references.contains id).toNat := by
  rw [hp.nodup.count]
  by_cases h : id ∈ p.references <;> simp [h]

/-- A script holds each shared variable once or not at all. -/
theorem Counted.count_oldReferences (hw : w.Counted) {name : String} {s : Script}
    (hs : w.scripts.get? name = some s) (id : SharedId) :
    (oldReferences s).count id = (s.refersTo id).toNat := by
  unfold oldReferences
  cases hi : s.installed with
  | none =>
    rw [Script.refersTo_of_none hi]
    simp [Script.program?, hi]
  | some i =>
    rw [Script.refersTo_eq hi, Script.program?_eq hi]
    exact count_references (hw.linked name s i hs hi) id

/-- The table when a script has given up its old references for those of a new program. -/
def exchanged (t : SharedTable) (s : Script) (p : Program) : SharedTable :=
  (t.acquire p.references).release (oldReferences s)

theorem exchanged_eq (t : SharedTable) (s : Script) (p : Program) :
    exchanged t s p = t.mapEntries fun e =>
      { e with refs := e.refs + p.references.count e.id - (oldReferences s).count e.id } :=
  SharedTable.release_acquire ..

/-- The script with a new program, on memory that nothing has been stored in. -/
def reinstalled (s : Script) (p : Program) : Script :=
  { s with installed := some (.of p (.fresh p.slots)), error := none, stale := false }

/-- The scripts when one of them has a new program: those that import from it are stale. -/
def rescripted (w : Workspace) (name : String) (s : Script) (p : Program) : Scripts :=
  (w.scripts.insert name (reinstalled s p)).map fun other t =>
    if other ≠ name && t.importsFrom name then { t with stale := true } else t

/-- A script afterwards is the one with the new program, or an old one that is stale if it imports
from it. -/
theorem get?_rescripted {name other : String} {s u : Script} {p : Program}
    (h : (w.rescripted name s p).get? other = some u) :
    (other = name ∧ u = reinstalled s p) ∨ (other ≠ name ∧ ∃ t, w.scripts.get? other = some t ∧
      u.installed = t.installed ∧
        (u.stale = false → t.stale = false ∧ t.importsFrom name = false)) := by
  unfold rescripted at h
  rw [NameMap.get?_map] at h
  obtain ⟨t, ht, rfl⟩ := Option.map_eq_some_iff.1 h
  rw [NameMap.get?_insert] at ht
  split at ht
  · next hname =>
    cases ht
    exact .inl ⟨hname, by simp [hname]⟩
  · next hname =>
    refine .inr ⟨hname, t, ht, ?_⟩
    simp only [hname, ne_eq, not_false_eq_true, decide_true, Bool.true_and]
    by_cases himp : t.importsFrom name = true
    · rw [if_pos himp]
      exact ⟨rfl, fun h => nomatch h⟩
    · rw [if_neg himp]
      exact ⟨rfl, fun h => ⟨h, Bool.eq_false_iff.2 himp⟩⟩

theorem program?_rescripted (w : Workspace) (name other : String) (s : Script) (p : Program) :
    (w.rescripted name s p).program? other =
      if other = name then some p else w.scripts.program? other := by
  unfold rescripted Scripts.program?
  rw [NameMap.get?_map, NameMap.get?_insert]
  by_cases h : other = name
  · simp [h, reinstalled, Script.program?, Installed.of]
  · rw [if_neg h, if_neg h]
    cases w.scripts.get? other with
    | none => rfl
    | some t =>
      simp only [Option.map_some, Option.bind_some]
      split <;> rfl

/-- Imports from scripts other than the one that changes stay current. -/
theorem current_rescripted {p q : Program} {owner name : String} {s : Script} {g : Globals}
    (hq : q.Current owner g w.scripts)
    (hne : ∀ script, script ≠ owner → q.imports.contains script = true → script ≠ name) :
    q.Current owner g (w.rescripted name s p) := by
  intro x v hx himp
  obtain ⟨id, hid, hsource⟩ := hq x v hx himp
  refine ⟨id, hid, hsource.imp_right fun hsource => ?_⟩
  obtain ⟨script, exports, hown, himports, hexports, hget⟩ := hsource
  refine ⟨script, exports, hown, himports, ?_, hget⟩
  have hname := hne script hown (himports.resolve_right fun h => nomatch h)
  unfold Scripts.exports? at hexports ⊢
  rw [program?_rescripted, if_neg hname]
  exact hexports

/-- Marking does not change who refers to what. -/
theorem count_marked (scripts : Scripts) (condition : String → Script → Bool) (id : SharedId) :
    (scripts.map fun name s => if condition name s then { s with stale := true } else s).count
      (·.refersTo id) = scripts.count (·.refersTo id) :=
  (ages_markStale scripts condition).count id

/-- The new counts are exact: the script holds what the new program refers to and no longer what
only the old one did. -/
theorem Sound.refs_exchanged (hw : w.Sound) {name : String} {s : Script} {p : Program}
    {t : SharedTable} (hs : w.scripts.get? name = some s)
    (ht : SharedTable.Extends name w.table t) (hp : p.Linked name t) :
    ∀ e ∈ t.entries, e.refs + p.references.count e.id - (oldReferences s).count e.id =
      (⟨w.globals, t, w.rescripted name s p, w.active, w.seed, w.journal⟩ :
        Workspace).holders e.id := by
  intro e he
  have hrefs := hw.refs_extends ht e he
  unfold holders at hrefs ⊢
  have hinsert := NameMap.count_insert w.scripts name (reinstalled s p) (·.refersTo e.id)
  have hnew : (reinstalled s p).refersTo e.id = p.references.contains e.id :=
    @Script.refersTo_eq (reinstalled s p) (.of p (.fresh p.slots)) rfl e.id
  rw [hs] at hinsert
  simp only [Option.map_some, Option.getD_some, hnew] at hinsert
  simp only [rescripted, count_marked, count_references hp, hw.count_oldReferences hs]
  omega

/-- Everything is in order with the new program, but for the entries that only the old one
referred to. -/
theorem Sound.counted_exchanged (hw : w.Sound) {name : String} {s : Script} {p : Program}
    {t : SharedTable} (hname : name ∉ w.active) (hs : w.scripts.get? name = some s)
    (ht : SharedTable.Extends name w.table t) (hp : p.Linked name t)
    (hc : p.Current name w.globals w.scripts) :
    { w with table := exchanged t s p, scripts := w.rescripted name s p }.Counted := by
  rw [exchanged_eq]
  refine counted_recount _ ht.sorted (hw.shaped_extends ht) (hw.refs_exchanged hs ht hp) hw.globals
    (fun x id hx => ?_) fun other u j hu hj => ?_
  · obtain ⟨e, he, hrest⟩ := hw.shared x id hx
    exact ⟨e, ht.get? hw.sorted he, hrest⟩
  · rcases get?_rescripted hu with ⟨rfl, rfl⟩ | ⟨hne, u', hu', hi, hst⟩
    · cases hj
      exact ⟨hp, .fresh p hname, fun _ => current_rescripted hc fun script hown _ => hown⟩
    · rw [hi] at hj
      refine ⟨(hw.linked other u' j hu' hj).extends hw.sorted ht fun _ => hne,
        hw.manned other u' j hu' hj, fun hstale => ?_⟩
      obtain ⟨hstale', himports⟩ := hst hstale
      refine current_rescripted (hw.current other u' j hu' hj hstale') fun script _ hin => ?_
      rintro rfl
      unfold Script.importsFrom at himports
      rw [Script.program?_eq hj] at himports
      exact absurd (hin.symm.trans himports) (by simp)

theorem install_eq {s : Script} {p : Program} {t : SharedTable} {name : String}
    (h : ∀ id, Slot.shared id ∈ p.slots → ∃ e, (exchanged t s p).sweep.get? id = some e) :
    { w with table := t }.install name s p =
      (.ok (), { w with table := (exchanged t s p).sweep, scripts := w.rescripted name s p }) := by
  unfold install
  cases hprog : s.program? with
  | none =>
    have heq : exchanged t s p = t.acquire p.references := by
      unfold exchanged oldReferences
      rw [hprog]
      rfl
    rw [heq] at h ⊢
    simp only [Memory.create_eq h]
    rfl
  | some old =>
    have heq : exchanged t s p = (t.acquire p.references).release old.references := by
      unfold exchanged oldReferences
      rw [hprog]
      rfl
    rw [heq] at h ⊢
    simp only [Memory.create_eq h]
    rfl

/-- Installing a program takes references and gives references up, and stores nothing. -/
theorem follows_exchanged (t : SharedTable) (s : Script) (p : Program) :
    t.Follows (exchanged t s p).sweep fun _ => False :=
  ((SharedTable.follows_acquire ..).trans (SharedTable.follows_release ..)).trans
    (SharedTable.follows_sweep _)

/-- A workspace with a program that has just been compiled is in order. -/
theorem Sound.keeps_exchanged (hw : w.Sound) {name : String} {s : Script} {p : Program}
    {t : SharedTable} (hname : name ∉ w.active) (hs : w.scripts.get? name = some s)
    (ht : SharedTable.Extends name w.table t) (hp : p.Linked name t)
    (hc : p.Current name w.globals w.scripts) :
    w.Keeps { w with table := (exchanged t s p).sweep, scripts := w.rescripted name s p }
      (· ≠ name) where
  sound := (hw.counted_exchanged hname hs ht hp hc).sweep
  follows := ht.follows.trans ((follows_exchanged t s p).mono fun _ h => h.elim)
  active := rfl
  globals := rfl
  programs other hne := by rw [program?_rescripted, if_neg hne]

/-! ## Compiling -/

theorem compile_eq_none {name : String} (hs : w.scripts.get? name = none) (compiler : Compiler) :
    w.compile name compiler = (.error (.about .scriptNotFound name), w) := by
  unfold compile
  rw [hs]

/-- What a compilation that fails leaves. -/
theorem compile_eq_error {compiler : Compiler} {name : String} {s : Script}
    (hs : w.scripts.get? name = some s) {e : Fault}
    (he : (compiler (w.setting name) s.source).1 = .error e) :
    w.compile name compiler = (.error e, ({ w with
      table := (compiler (w.setting name) s.source).2.sweep }.note .refused name).setScript name
        { s with error := some e }) := by
  unfold compile
  rw [hs]
  dsimp only
  rw [he]

/-- What a compilation that succeeds leaves. -/
theorem Sound.compile_eq_ok (hw : w.Sound) {compiler : Compiler} (hcomp : compiler.Sound)
    {name : String} (hname : name ∉ w.active) {s : Script} (hs : w.scripts.get? name = some s)
    {p : Program} (hp : (compiler (w.setting name) s.source).1 = .ok p) :
    w.compile name compiler = (.ok (), { w.note .compiled name with
      table := (exchanged (compiler (w.setting name) s.source).2 s p).sweep
      scripts := w.rescripted name s p }) := by
  have hok := hw.setting_ok name
  have hsound := (hw.keeps_exchanged hname hs (hcomp.table _ _ hok) (hcomp.linked _ _ p hok hp)
    (hcomp.current _ _ p hok hp)).sound
  have hprogram : (w.rescripted name s p).program? name = some p := by
    rw [program?_rescripted, if_pos rfl]
  -- all that the program refers to is still there after the sweep, so that its memory can be made
  have hlinked := hsound.toCounted.linked_program hprogram
  have hinstall := @install_eq (w.note .compiled name) s p (compiler (w.setting name) s.source).2
    name fun id hid => hlinked.references id (hlinked.slots id hid)
  unfold compile
  rw [hs]
  dsimp only
  rw [hp]
  exact hinstall

/-- Compiling a script that is not running keeps the workspace in order and the programs of the other
scripts. -/
theorem Sound.keeps_compile (hw : w.Sound) {compiler : Compiler} (hcomp : compiler.Sound)
    {name : String} (hname : name ∉ w.active) : w.Keeps (w.compile name compiler).2 (· ≠ name) := by
  have hok := hw.setting_ok name
  cases hs : w.scripts.get? name with
  | none =>
    rw [compile_eq_none hs]
    exact .refl hw _
  | some s =>
    have ht := hcomp.table (w.setting name) s.source hok
    cases hr : (compiler (w.setting name) s.source).1 with
    | ok p =>
      rw [hw.compile_eq_ok hcomp hname hs hr]
      have hnote := hw.keeps_note .compiled name (· ≠ name)
      exact hnote.trans (hnote.sound.keeps_exchanged hname hs ht (hcomp.linked _ _ p hok hr)
        (hcomp.current _ _ p hok hr))
    | error e =>
      rw [compile_eq_error hs hr]
      have hnote := hw.keeps_note .refused name (· ≠ name)
      have h := hnote.trans (hnote.sound.keeps_failed ht (· ≠ name))
      exact h.trans (h.sound.keeps_ages
        (ages_insert (t := { s with error := some e }) hs rfl rfl) _)

/-- Compiling stores nothing: what was shared before and still is has kept its value. -/
theorem Sound.follows_compile (hw : w.Sound) {compiler : Compiler} (hcomp : compiler.Sound)
    {name : String} (hname : name ∉ w.active) :
    w.table.Follows (w.compile name compiler).2.table fun _ => False := by
  cases hs : w.scripts.get? name with
  | none =>
    rw [compile_eq_none hs]
    exact .refl _
  | some s =>
    have ht := hcomp.table (w.setting name) s.source (hw.setting_ok name)
    cases hr : (compiler (w.setting name) s.source).1 with
    | ok p =>
      rw [hw.compile_eq_ok hcomp hname hs hr]
      exact ht.follows.trans (follows_exchanged _ s p)
    | error e =>
      rw [compile_eq_error hs hr]
      exact ht.follows.trans (SharedTable.follows_sweep _)

/-- A compilation that fails has declared shared variables at most, and sweeps them away. -/
theorem Sound.compile_error (hw : w.Sound) {compiler : Compiler} (hcomp : compiler.Sound)
    {name : String} (hname : name ∉ w.active) {s : Script} (hs : w.scripts.get? name = some s)
    {e : Fault} (he : (w.compile name compiler).1 = .error e) :
    ∃ t, SharedTable.Extends name w.table t ∧ (w.compile name compiler).2 =
      ({ w with table := t.sweep }.note .refused name).setScript name { s with error := some e } := by
  have ht := hcomp.table (w.setting name) s.source (hw.setting_ok name)
  cases hr : (compiler (w.setting name) s.source).1 with
  | ok p =>
    rw [hw.compile_eq_ok hcomp hname hs hr] at he
    cases he
  | error e' =>
    rw [compile_eq_error hs hr] at he ⊢
    cases he
    exact ⟨_, ht, rfl⟩

/-- The program of the script afterwards is the one that it had, or what its text compiled to. -/
theorem Sound.program?_compile (hw : w.Sound) {compiler : Compiler} (hcomp : compiler.Sound)
    {name : String} (hname : name ∉ w.active) :
    (w.compile name compiler).2.scripts.program? name = w.scripts.program? name ∨
      ∃ source p, (compiler (w.setting name) source).1 = .ok p ∧
        (compiler (w.setting name) source).2.Follows (w.compile name compiler).2.table ∧
        (w.compile name compiler).2.scripts.program? name = some p := by
  cases hs : w.scripts.get? name with
  | none =>
    rw [compile_eq_none hs]
    exact .inl rfl
  | some s =>
    cases hr : (compiler (w.setting name) s.source).1 with
    | ok p =>
      rw [hw.compile_eq_ok hcomp hname hs hr]
      refine .inr ⟨s.source, p, hr, (follows_exchanged _ s p).mono fun _ h => h.elim, ?_⟩
      exact (program?_rescripted w name name s p).trans (if_pos rfl)
    | error e =>
      rw [compile_eq_error hs hr]
      exact .inl ((ages_insert (t := { s with error := some e }) hs rfl rfl).program name)

/-- A program that there is afterwards has been there, or is what the text has compiled to. -/
theorem Sound.compiled_of_program? (hw : w.Sound) {compiler : Compiler} (hcomp : compiler.Sound)
    {name : String} (hname : name ∉ w.active) {other : String} {p : Program}
    (hp : (w.compile name compiler).2.scripts.program? other = some p) :
    w.scripts.program? other = some p ∨
      other = name ∧ ∃ source, (compiler (w.setting name) source).1 = .ok p := by
  by_cases hother : other = name
  · subst hother
    rcases hw.program?_compile hcomp hname with hold | ⟨source, q, hq, -, hnew⟩
    · exact .inl (hold ▸ hp)
    · cases hnew.symm.trans hp
      exact .inr ⟨rfl, source, hq⟩
  · exact .inl (((hw.keeps_compile hcomp hname).programs other hother).symm.trans hp)

/-- A compilation that succeeds leaves a program. -/
theorem Sound.program?_of_compile (hw : w.Sound) {compiler : Compiler} (hcomp : compiler.Sound)
    {name : String} (hname : name ∉ w.active) (hok : (w.compile name compiler).1 = .ok ()) :
    ∃ p, (w.compile name compiler).2.scripts.program? name = some p := by
  cases hs : w.scripts.get? name with
  | none =>
    rw [compile_eq_none hs] at hok
    cases hok
  | some s =>
    cases hr : (compiler (w.setting name) s.source).1 with
    | ok p =>
      rw [hw.compile_eq_ok hcomp hname hs hr]
      exact ⟨p, (program?_rescripted w name name s p).trans (if_pos rfl)⟩
    | error e =>
      rw [compile_eq_error hs hr] at hok
      cases hok

/-- A script with another text, new or not. -/
theorem ages_source (a : Scripts) (name source : String) :
    Ages a (a.insert name { (a.get? name).getD {} with source := source }) := by
  cases hs : a.get? name with
  | none => exact ages_insert_new hs rfl
  | some s => exact ages_insert hs rfl rfl

/-- Storing a text and compiling it. -/
theorem Sound.keeps_setSource (hw : w.Sound) {compiler : Compiler} (hcomp : compiler.Sound)
    {name : String} (hname : name ∉ w.active) (source : String) :
    w.Keeps (w.setSource name source compiler).2 (· ≠ name) := by
  unfold setSource
  dsimp only
  split
  · exact .refl hw _
  · have h := hw.keeps_ages (ages_source w.scripts name source) (· ≠ name)
    exact h.trans (h.sound.keeps_compile hcomp hname)

theorem Sound.keeps_compileEach (hw : w.Sound) (hidle : w.active = []) {compiler : Compiler}
    (hcomp : compiler.Sound) (names : List String) : w.Keeps (w.compileEach compiler names).2 fun _ => False := by
  induction names generalizing w with
  | nil => exact .refl hw _
  | cons name rest ih =>
    have h : w.Keeps (w.compile name compiler).2 fun _ => False :=
      (hw.keeps_compile hcomp (by simp [hidle])).weaken fun _ h => h.elim
    have h' := h.trans (ih h.sound (h.active.trans hidle))
    unfold compileEach
    dsimp only
    split <;> exact h'

theorem Sound.keeps_retry (hw : w.Sound) (hidle : w.active = []) {compiler : Compiler}
    (hcomp : compiler.Sound) (rounds : Nat) (names : List String) :
    w.Keeps (w.retry compiler rounds names).2 fun _ => False := by
  induction rounds generalizing w names with
  | zero => exact .refl hw _
  | succ rounds ih =>
    have h := hw.keeps_compileEach hidle hcomp names
    unfold retry
    dsimp only
    split
    · exact h
    · exact h.trans (ih h.sound (h.active.trans hidle) _)

/-- Compiling whatever is pending, as often as it helps. -/
theorem Sound.keeps_recompileAll (hw : w.Sound) (hidle : w.active = []) {compiler : Compiler}
    (hcomp : compiler.Sound) :
    w.Keeps (w.recompileAll compiler).2 fun _ => False := by
  unfold recompileAll
  exact hw.keeps_retry hidle hcomp _ _

/-! ## Removing -/

/-- The scripts without one of them: those that import from it are stale. -/
def unscripted (w : Workspace) (name : String) : Scripts :=
  (w.scripts.erase name).map fun _ t => if t.importsFrom name then { t with stale := true } else t

theorem get?_unscripted {name other : String} {u : Script}
    (h : (w.unscripted name).get? other = some u) : other ≠ name ∧
      ∃ t, w.scripts.get? other = some t ∧ u.installed = t.installed ∧
        (u.stale = false → t.stale = false ∧ t.importsFrom name = false) := by
  unfold unscripted at h
  rw [NameMap.get?_map, NameMap.get?_erase] at h
  obtain ⟨t, ht, rfl⟩ := Option.map_eq_some_iff.1 h
  split at ht
  · cases ht
  · next hne =>
    refine ⟨hne, t, ht, ?_⟩
    by_cases himp : t.importsFrom name = true
    · rw [if_pos himp]
      exact ⟨rfl, fun h => nomatch h⟩
    · rw [if_neg himp]
      exact ⟨rfl, fun h => ⟨h, Bool.eq_false_iff.2 himp⟩⟩

theorem program?_unscripted (w : Workspace) (name other : String) :
    (w.unscripted name).program? other =
      if other = name then none else w.scripts.program? other := by
  unfold unscripted Scripts.program?
  rw [NameMap.get?_map, NameMap.get?_erase]
  by_cases h : other = name
  · rw [if_pos h, if_pos h]
    rfl
  · rw [if_neg h, if_neg h]
    cases w.scripts.get? other with
    | none => rfl
    | some t =>
      simp only [Option.map_some, Option.bind_some]
      split <;> rfl

theorem current_unscripted {q : Program} {owner name : String} {g : Globals}
    (hq : q.Current owner g w.scripts) (hne : q.imports.contains name = false) :
    q.Current owner g (w.unscripted name) := by
  intro x v hx himp
  obtain ⟨id, hid, hsource⟩ := hq x v hx himp
  refine ⟨id, hid, hsource.imp_right fun hsource => ?_⟩
  obtain ⟨script, exports, hown, himports, hexports, hget⟩ := hsource
  refine ⟨script, exports, hown, himports, ?_, hget⟩
  have hname : script ≠ name := by
    rintro rfl
    rw [hne] at himports
    simp at himports
  unfold Scripts.exports? at hexports ⊢
  rw [program?_unscripted, if_neg hname]
  exact hexports

theorem Sound.counted_removed (hw : w.Sound) {name : String} {s : Script}
    (hs : w.scripts.get? name = some s) :
    { w with table := w.table.release (oldReferences s), scripts := w.unscripted name }.Counted := by
  rw [SharedTable.release_eq]
  refine counted_recount _ hw.sorted hw.shaped (fun e he => ?_) hw.globals hw.shared
    fun other u j hu hj => ?_
  · have hrefs := hw.refs e he
    have herase := NameMap.count_erase w.scripts name (·.refersTo e.id)
    rw [hs] at herase
    simp only [Option.map_some, Option.getD_some] at herase
    unfold holders at hrefs ⊢
    simp only [unscripted, count_marked _ fun _ t => t.importsFrom name,
      hw.count_oldReferences hs]
    omega
  · obtain ⟨hne, u', hu', hi, hst⟩ := get?_unscripted hu
    rw [hi] at hj
    refine ⟨hw.linked other u' j hu' hj, hw.manned other u' j hu' hj, fun hstale => ?_⟩
    obtain ⟨hstale', himports⟩ := hst hstale
    refine current_unscripted (hw.current other u' j hu' hj hstale') ?_
    unfold Script.importsFrom at himports
    rw [Script.program?_eq hj] at himports
    exact himports

/-- Removing a script gives up its references. -/
theorem Sound.keeps_remove (hw : w.Sound) (name : String) :
    w.Keeps (w.remove name).2 (· ≠ name) := by
  unfold remove
  split
  · exact .refl hw _
  · next s hs =>
    have hsound := (hw.counted_removed hs).sweep
    have hfollows : w.table.Follows (w.table.release (oldReferences s)).sweep :=
      (SharedTable.follows_release ..).trans (SharedTable.follows_sweep _)
    unfold oldReferences at hsound hfollows
    have hprograms : ∀ other, other ≠ name →
        (w.unscripted name).program? other = w.scripts.program? other := by
      intro other hne
      rw [program?_unscripted, if_neg hne]
    cases hp : s.program? <;> rw [hp] at hsound hfollows <;>
      exact ⟨hsound, hfollows, rfl, rfl, hprograms⟩

/-- No script has a program afterwards that it did not have before. -/
theorem program?_remove {name other : String} {p : Program}
    (h : (w.remove name).2.scripts.program? other = some p) :
    w.scripts.program? other = some p := by
  unfold remove at h
  split at h
  · exact h
  · change (w.unscripted name).program? other = some p at h
    rw [program?_unscripted] at h
    split at h
    · cases h
    · exact h

end Workspace

end VectorScript
