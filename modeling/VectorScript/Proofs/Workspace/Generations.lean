import VectorScript.Proofs.Workspace.History
import VectorScript.Proofs.Workspace.Recompile

/-!
# Generations of a shared variable

When a script gives a shared variable another type, a new entry takes the place of the old one, which
stays for those who import it. Whatever happens from then on, an entry whose place another one has taken
keeps its contents as long as that one is there (`Shelters`): scripts and host store to the newest entry
of a name only, and an entry that is gone does not come back. Compiling changes nothing in the entries
that were there but how many refer to them.

    w.Sound → name ∉ w.active → w.table.Recounts (w.compile name).2.table    (recounts_compile)
    owner ≠ "" → w.Leads w' → w.table.Shelters owner w'.table                          (Leads.shelters)
    e.owner ≠ "" → w.LeadsPast e w' → w'.table.get? e.id = some e' → e'.cell = e.cell      (cell_eq)
-/

namespace VectorScript

/-! ## Counting anew -/

/-- The entries differ at most in how many refer to them. -/
structure SharedEntry.Recounted (e e' : SharedEntry) : Prop where
  id : e'.id = e.id
  owner : e'.owner = e.owner
  name : e'.name = e.name
  ty : e'.ty = e.ty
  cell : e'.cell = e.cell

theorem SharedEntry.Recounted.refl (e : SharedEntry) : e.Recounted e := ⟨rfl, rfl, rfl, rfl, rfl⟩

theorem SharedEntry.Recounted.trans {e e' e'' : SharedEntry} (h : e.Recounted e')
    (h' : e'.Recounted e'') : e.Recounted e'' :=
  ⟨h'.id.trans h.id, h'.owner.trans h.owner, h'.name.trans h.name, h'.ty.trans h.ty,
    h'.cell.trans h.cell⟩

namespace SharedTable

/-- What was there and still is differs at most in how many refer to it. -/
structure Recounts (t t' : SharedTable) : Prop where
  next_le : t.next ≤ t'.next
  old : ∀ e' ∈ t'.entries, e'.id.index < t.next → ∃ e ∈ t.entries, e.Recounted e'

variable {t t' : SharedTable}

theorem Recounts.refl (t : SharedTable) : t.Recounts t :=
  ⟨Nat.le_refl _, fun e he _ => ⟨e, he, .refl e⟩⟩

theorem Recounts.trans {t'' : SharedTable} (h : t.Recounts t') (h' : t'.Recounts t'') :
    t.Recounts t'' := by
  refine ⟨Nat.le_trans h.next_le h'.next_le, fun e'' he'' hlt => ?_⟩
  obtain ⟨e', he', hsame'⟩ := h'.old e'' he'' (Nat.lt_of_lt_of_le hlt h.next_le)
  obtain ⟨e, he, hsame⟩ := h.old e' he' (hsame'.id ▸ hlt)
  exact ⟨e, he, hsame.trans hsame'⟩

theorem recounts_mapEntries (t : SharedTable) {f : SharedEntry → SharedEntry}
    (hf : ∀ e : SharedEntry, e.Recounted (f e)) : t.Recounts (t.mapEntries f) := by
  refine ⟨Nat.le_refl _, fun e' he' _ => ?_⟩
  obtain ⟨e, he, rfl⟩ := List.mem_map.1 he'
  exact ⟨e, he, hf e⟩

theorem recounts_acquire (t : SharedTable) (ids : List SharedId) : t.Recounts (t.acquire ids) := by
  rw [acquire_eq]
  exact t.recounts_mapEntries fun _ => ⟨rfl, rfl, rfl, rfl, rfl⟩

theorem recounts_release (t : SharedTable) (ids : List SharedId) : t.Recounts (t.release ids) := by
  rw [release_eq]
  exact t.recounts_mapEntries fun _ => ⟨rfl, rfl, rfl, rfl, rfl⟩

theorem recounts_sweep (t : SharedTable) : t.Recounts t.sweep := by
  unfold sweep
  generalize t.dead = es
  induction es generalizing t with
  | nil => exact .refl t
  | cons e es ih =>
    refine Recounts.trans ⟨Nat.le_of_eq (remove_next t e).symm, fun a ha _ => ?_⟩ (ih (t.remove e))
    rw [remove_entries] at ha
    exact ⟨a, (List.mem_filter.1 ha).1, .refl a⟩

theorem Extends.recounts {owner : String} (h : Extends owner t t') : t.Recounts t' := by
  obtain ⟨fresh, hl, hf⟩ := h.entries
  refine ⟨h.next_le, fun e he hlt => ?_⟩
  rw [hl] at he
  rcases List.mem_append.1 he with he | he
  · exact ⟨e, he, .refl e⟩
  · have := (hf e he).2.2.2
    omega

/-! ## Entries whose place is taken -/

/-- Another entry, one of those with an index below the bound, has taken the place of this one. -/
def Replaced (t : SharedTable) (bound : Nat) (e : SharedEntry) : Prop :=
  ∃ a ∈ t.entries, a.owner = e.owner ∧ a.name = e.name ∧ e.id.index < a.id.index ∧
    a.id.index < bound

instance (t : SharedTable) (bound : Nat) (e : SharedEntry) : Decidable (t.Replaced bound e) :=
  List.decidableBEx _ _

/-- What was there and still is is the same variable. Contents that belong to the owner have not changed
where an entry that was there, and still is, has taken the place. -/
structure Shelters (owner : String) (t t' : SharedTable) : Prop where
  next_le : t.next ≤ t'.next
  old : ∀ e' ∈ t'.entries, e'.id.index < t.next → ∃ e ∈ t.entries, e'.id = e.id ∧
    e'.owner = e.owner ∧ e'.name = e.name ∧ e'.ty = e.ty ∧
    (e'.owner = owner → t'.Replaced t.next e' → e'.cell = e.cell)

variable {owner : String}

theorem Recounts.shelters (h : t.Recounts t') : t.Shelters owner t' := by
  refine ⟨h.next_le, fun e' he' hlt => ?_⟩
  obtain ⟨e, he, hsame⟩ := h.old e' he' hlt
  exact ⟨e, he, hsame.id, hsame.owner, hsame.name, hsame.ty, fun _ _ => hsame.cell⟩

theorem Shelters.refl (t : SharedTable) : t.Shelters owner t := (Recounts.refl t).shelters

theorem Shelters.trans {t'' : SharedTable} (h : t.Shelters owner t') (h' : t'.Shelters owner t'') :
    t.Shelters owner t'' := by
  refine ⟨Nat.le_trans h.next_le h'.next_le, fun e'' he'' hlt => ?_⟩
  obtain ⟨e', he', hid', howner', hname', hty', hcell'⟩ :=
    h'.old e'' he'' (Nat.lt_of_lt_of_le hlt h.next_le)
  obtain ⟨e, he, hid, howner, hname, hty, hcell⟩ := h.old e' he' (hid' ▸ hlt)
  refine ⟨e, he, hid'.trans hid, howner'.trans howner, hname'.trans hname, hty'.trans hty, ?_⟩
  -- what has taken the place now had done so before
  rintro ho ⟨a'', ha'', haowner'', haname'', hyounger, hbound⟩
  have hbound' := Nat.lt_of_lt_of_le hbound h.next_le
  obtain ⟨a', ha', haid, haowner, haname, -⟩ := h'.old a'' ha'' hbound'
  refine (hcell' ho ⟨a'', ha'', haowner'', haname'', hyounger, hbound'⟩).trans
    (hcell (howner' ▸ ho) ⟨a', ha', ?_, ?_, ?_, haid ▸ hbound⟩)
  · rw [← haowner, haowner'', howner']
  · rw [← haname, haname'', hname']
  · rwa [← haid, ← hid']

/-- A store changes no entry but the one that it is to. -/
theorem mem_of_store? {id : SharedId} {v : Value} {path : List Int32}
    {outcome : Except Fault Unit} (h : t.store? id v path = some (outcome, t')) {e' : SharedEntry}
    (he' : e' ∈ t'.entries) : ∃ e ∈ t.entries, e'.id = e.id ∧ e'.owner = e.owner ∧
      e'.name = e.name ∧ e'.ty = e.ty ∧ (e.id ≠ id → e'.cell = e.cell) := by
  obtain ⟨a, -, hr⟩ := Option.map_eq_some_iff.1 h
  cases hr
  obtain ⟨e, he, rfl⟩ := List.mem_map.1 he'
  refine ⟨e, he, ?_⟩
  by_cases hid : e.id = id
  · rw [if_pos hid]
    exact ⟨rfl, rfl, rfl, rfl, fun hne => absurd hid hne⟩
  · rw [if_neg hid]
    exact ⟨rfl, rfl, rfl, rfl, fun _ => rfl⟩

/-- Storing to the newest entry of a name changes none whose place is taken. -/
theorem Sorted.shelters_store? (ht : t.Sorted) {id : SharedId}
    (hnewest : ∀ e, t.get? id = some e → e.owner = owner → t.IsNewest e.owner e.name e) {v : Value}
    {path : List Int32} {outcome : Except Fault Unit}
    (h : t.store? id v path = some (outcome, t')) : t.Shelters owner t' := by
  refine ⟨(refilled_store? ht h).follows.next_le, fun e' he' _ => ?_⟩
  obtain ⟨e, he, hid, howner, hname, hty, hcell⟩ := mem_of_store? h he'
  refine ⟨e, he, hid, howner, hname, hty, ?_⟩
  rintro ho ⟨a', ha', haowner', haname', hyounger, -⟩
  refine hcell ?_
  rintro rfl
  obtain ⟨a, ha, haid, haowner, haname, -⟩ := mem_of_store? h ha'
  have hle := (hnewest e (ht.get?_id he) (howner ▸ ho)).greatest a ha
    (haowner.symm.trans (haowner'.trans howner)) (haname.symm.trans (haname'.trans hname))
  rw [hid, haid] at hyounger
  omega

end SharedTable

/-- Runs scripts, or stores to a shared variable for the host. -/
def Action.Stores : Action → Prop
  | run _ | dispatch _ | setShared _ _ _ => True
  | _ => False

namespace Workspace

variable {w w' : Workspace} {name : String}

/-- Compiling changes no entry that was there. -/
theorem Sound.recounts_compile (hw : w.Sound) (hname : name ∉ w.active) :
    w.table.Recounts (w.compile name).2.table := by
  cases hs : w.scripts.get? name with
  | none =>
    rw [compile_eq_none hs]
    exact .refl _
  | some s =>
    have hext := Setting.sound_compile.table (w.setting name) s.source (hw.setting_ok name)
    cases hr : ((w.setting name).compile s.source).1 with
    | ok p =>
      rw [hw.compile_eq_ok Setting.sound_compile hname hs hr]
      exact ((hext.recounts.trans (SharedTable.recounts_acquire ..)).trans
        (SharedTable.recounts_release ..)).trans (SharedTable.recounts_sweep _)
    | error e =>
      rw [compile_eq_error hs hr]
      exact hext.recounts.trans (SharedTable.recounts_sweep _)

theorem Sound.recounts_addShared (hw : w.Sound) (x : String) (ty : Ty) :
    w.table.Recounts (w.addShared x ty).2.table := by
  have hdeclare := (SharedTable.declare_spec hw.sorted hostOwner x ty).1.recounts
  have hacquire := hdeclare.trans (SharedTable.recounts_acquire _ [(w.table.declare hostOwner x ty).1])
  unfold Workspace.addShared
  dsimp only
  split
  · exact hdeclare
  · unfold replaceShared
    dsimp only
    split
    · exact hacquire
    · exact (hacquire.trans (SharedTable.recounts_release ..)).trans (SharedTable.recounts_sweep _)

theorem recounts_remove (w : Workspace) (name : String) :
    w.table.Recounts (w.remove name).2.table := by
  unfold remove
  split
  · exact .refl _
  · dsimp only
    split
    · exact (SharedTable.recounts_release ..).trans (SharedTable.recounts_sweep _)
    · exact SharedTable.recounts_sweep _

theorem Sound.recounts_compileEach (hw : w.Sound) (hidle : w.active = []) (names : List String) :
    w.table.Recounts (w.compileEach Setting.compile names).2.table := by
  induction names generalizing w with
  | nil => exact .refl w.table
  | cons name rest ih =>
    have hname : name ∉ w.active := by simp [hidle]
    have hk := hw.keeps_compile Setting.sound_compile hname
    have hboth := (hw.recounts_compile hname).trans (ih hk.sound (hk.active.trans hidle))
    unfold compileEach
    dsimp only
    split <;> exact hboth

theorem Sound.recounts_retry (hw : w.Sound) (hidle : w.active = []) (rounds : Nat)
    (names : List String) : w.table.Recounts (w.retry Setting.compile rounds names).2.table := by
  induction rounds generalizing w names with
  | zero => exact .refl w.table
  | succ rounds ih =>
    have hk := hw.keeps_compileEach hidle Setting.sound_compile names
    have hround := hw.recounts_compileEach hidle names
    unfold retry
    dsimp only
    split
    · exact hround
    · exact hround.trans (ih hk.sound (hk.active.trans hidle) _)

/-- Other actions change no entry that was there. -/
theorem Sound.recounts_perform (hw : w.Sound) (hidle : w.active = []) {a : Action}
    (ha : ¬a.Stores) : w.table.Recounts (w.perform Setting.compile a).table := by
  have hnone : ∀ name, name ∉ w.active := by simp [hidle]
  cases a with
  | addFunction _ | addConstant _ _ => exact .refl w.table
  | addShared x ty => exact hw.recounts_addShared x ty
  | setSource name source =>
    show w.table.Recounts (w.setSource name source).2.table
    unfold setSource
    dsimp only
    split
    · exact .refl w.table
    · exact (hw.keeps_withSource name source fun _ => True).sound.recounts_compile (hnone name)
  | compile name => exact hw.recounts_compile (hnone name)
  | recompileAll =>
    show w.table.Recounts (w.recompileAll Setting.compile).2.table
    unfold recompileAll
    exact hw.recounts_retry hidle _ _
  | remove name => exact w.recounts_remove name
  | run _ | dispatch _ | setShared _ _ _ => exact absurd trivial ha

/-! ## Whatever happens -/

/-- What a program stores to is the newest entry of its name. -/
theorem Sound.newest_of_storesTo (hw : w.Sound) {p : Program} (hp : w.scripts.program? name = some p)
    {slot : Nat} (hstores : p.StoresTo slot) {id : SharedId}
    (hslot : p.slots[slot]? = some (.shared id)) {e : SharedEntry} (he : w.table.get? id = some e)
    (howner : e.owner ≠ "") : w.table.IsNewest e.owner e.name e := by
  have hlinked := hw.toCounted.linked_program hp
  obtain ⟨x, v, hx, rfl, hown⟩ := hlinked.stores slot hstores
  have hplaced := hlinked.placed x v hx
  have hv := Variable.shared_eq_of_home (Option.some.inj (hplaced.slot.symm.trans hslot))
  have hexport := hlinked.exported x v id hx hv hown
  obtain ⟨-, a, -, ha, rfl, -⟩ := hlinked.exports x id hexport
  obtain ⟨b, hb, rfl, -⟩ := hplaced.entry id hv
  cases ha.symm.trans he
  cases hb.symm.trans he
  have hlookup := hlinked.newest howner _ id hexport
  rw [hw.sorted.keyed] at hlookup
  obtain ⟨c, hc, rfl⟩ := Option.map_eq_some_iff.1 hlookup
  have hnewest := hw.sorted.newest?_eq_some.1 hc
  cases (hw.sorted.get?_id hnewest.mem).symm.trans he
  exact hnewest

/-- Whatever is done, entries whose place is taken stay as they are. -/
theorem history_shelters {owner : String} (howner : owner ≠ "") :
    History Setting.compile (fun _ _ => True) fun w w' => w.table.Shelters owner w'.table where
  refl w := .refl w.table
  trans _ _ _ := SharedTable.Shelters.trans
  random w := by
    obtain ⟨seed, hseed⟩ := w.random_snd
    rw [hseed]
    exact .refl w.table
  compile hw hname := (hw.recounts_compile hname).shelters
  store {w name p memory slot} v path hw _ hp hm hstores := by
    have hlt := ((hw.toCounted.linked_program hp).owner_of_storesTo hstores).1
    unfold Memory.store
    split
    · exact .refl w.table
    · next id hid =>
      split
      · next h =>
        exact hw.sorted.shelters_store? (fun e he ho =>
          hw.newest_of_storesTo hp hstores (hm.shared_eq hlt hid) he (ho ▸ howner)) h
      · exact .refl w.table
    · exact .refl w.table
  run _ _ _ _ _ _ h := h
  source {w _ _} _ _ := .refl w.table
  addFunction {w _} _ _ := .refl w.table
  addConstant {w _ _} _ _ := .refl w.table
  addShared {w x ty} hw _ := (hw.recounts_addShared x ty).shelters
  setShared {w user x v} hw _ := by
    rcases w.setShared_snd user x v with heq | ⟨a, outcome, t, ha, ht, heq⟩
    · rw [heq]
      exact .refl w.table
    · rw [heq]
      -- the host stores to the newest entry of the name, too
      rw [hw.sorted.current?_eq] at ha
      have hnewest := hw.sorted.newest?_eq_some.1 ha
      refine hw.sorted.shelters_store? (fun e he _ => ?_) ht
      obtain rfl := Option.some.inj ((hw.sorted.get?_id hnewest.mem).symm.trans he)
      obtain ⟨hmem, rfl, rfl, hgreatest⟩ := hnewest
      exact ⟨hmem, rfl, rfl, hgreatest⟩
  remove {w name} _ _ := (w.recounts_remove name).shelters

/-- Whatever the host does, entries whose place is taken stay as they are. -/
theorem Leads.shelters {owner : String} (h : w.Leads w') (hw : w.Sound) (hidle : w.active = [])
    (howner : owner ≠ "") : w.table.Shelters owner w'.table := by
  induction h with
  | refl => exact .refl w.table
  | perform h a ih =>
    obtain ⟨hw', hidle'⟩ := h.sound hw hidle
    exact ih.trans ((history_shelters howner).perform Setting.sound_compile hw' hidle' trivial)

/-- What was there and still is is the same variable. -/
theorem Leads.same (h : w.Leads w') (hw : w.Sound) (hidle : w.active = []) {e e' : SharedEntry}
    (he : e ∈ w.table.entries) (howner : e.owner ≠ "") (he' : w'.table.get? e.id = some e') :
    e'.owner = e.owner ∧ e'.name = e.name ∧ e'.ty = e.ty := by
  obtain ⟨hmem, hid⟩ := (h.sound hw hidle).1.sorted.get?_eq_some.1 he'
  obtain ⟨a, ha, haid, haowner, haname, haty, -⟩ :=
    (h.shelters hw hidle howner).old e' hmem (hid ▸ hw.sorted.below e he)
  obtain rfl := hw.sorted.eq_of_id ha he (haid.symm.trans hid)
  exact ⟨haowner, haname, haty⟩

/-- Actions lead from the one workspace to the other, and each that may store leaves there an entry
that has taken the place of this one. -/
inductive LeadsPast (e : SharedEntry) (w : Workspace) : Workspace → Prop
  | refl : LeadsPast e w w
  | perform {w' : Workspace} {a : Action} (h : LeadsPast e w w')
      (hstores : a.Stores →
        (w'.perform Setting.compile a).table.Replaced w'.table.next e) :
      LeadsPast e w (w'.perform Setting.compile a)

theorem LeadsPast.leads {e : SharedEntry} (h : w.LeadsPast e w') : w.Leads w' := by
  induction h with
  | refl => exact .refl
  | perform _ _ ih => exact ih.perform _

theorem LeadsPast.trans {e : SharedEntry} {w'' : Workspace} (h : w.LeadsPast e w')
    (h' : w'.LeadsPast e w'') : w.LeadsPast e w'' := by
  induction h' with
  | refl => exact h
  | perform _ hstores ih => exact ih.perform hstores

/-- Along the way the entry keeps its contents. -/
theorem LeadsPast.cell_eq {e : SharedEntry} (h : w.LeadsPast e w') (hw : w.Sound)
    (hidle : w.active = []) (he : e ∈ w.table.entries) (howner : e.owner ≠ "") {e' : SharedEntry}
    (he' : w'.table.get? e.id = some e') : e'.cell = e.cell := by
  induction h generalizing e' with
  | refl => exact congrArg _ (Option.some.inj (he'.symm.trans (hw.sorted.get?_id he)))
  | @perform v a h hstores ih =>
    obtain ⟨hv, hvidle⟩ := h.leads.sound hw hidle
    have hnext := (h.leads.shelters hw hidle howner).next_le
    have hsame := (h.leads.perform a).same hw hidle he howner he'
    obtain ⟨hmem, hid⟩ := (hv.perform hvidle Setting.sound_compile a).1.sorted.get?_eq_some.1 he'
    have hlt : e'.id.index < v.table.next :=
      hid ▸ Nat.lt_of_lt_of_le (hw.sorted.below e he) hnext
    by_cases ha : a.Stores
    · have hshelters := (history_shelters howner).perform Setting.sound_compile hv hvidle
        (a := a) trivial
      obtain ⟨b, hb, hbid, -, -, -, hcell⟩ := hshelters.old e' hmem hlt
      refine (hcell hsame.1 ?_).trans (ih ((hbid.symm.trans hid) ▸ hv.sorted.get?_id hb))
      unfold SharedTable.Replaced
      rw [hsame.1, hsame.2.1, hid]
      exact hstores ha
    · obtain ⟨b, hb, hrecounted⟩ := (hv.recounts_perform hvidle ha).old e' hmem hlt
      exact hrecounted.cell.trans (ih ((hrecounted.id.symm.trans hid) ▸ hv.sorted.get?_id hb))

/-! ## Who keeps an entry -/

/-- There is an entry just as long as a script refers to it or a name of the host stands for it. -/
theorem Sound.isSome_get?_iff (hw : w.Sound) (id : SharedId) : (w.table.get? id).isSome = true ↔
    (∃ other s, w.scripts.get? other = some s ∧ s.refersTo id = true) ∨
      ∃ x, w.globals.shared.get? x = some id := by
  constructor
  · intro h
    obtain ⟨e, he⟩ := Option.isSome_iff_exists.1 h
    obtain ⟨hmem, rfl⟩ := hw.sorted.get?_eq_some.1 he
    have hheld := hw.held e hmem
    rw [hw.refs e hmem] at hheld
    unfold holders at hheld
    by_cases hhost : w.globals.shared.values.contains e.id = true
    · exact .inr (mem_values.1 (List.contains_iff_mem.1 hhost))
    -- The entry has been counted for someone: not for a name of the host, so for a script.
    · rw [if_neg hhost, Nat.add_zero] at hheld
      obtain ⟨⟨other, s⟩, hs, hrefers⟩ := List.countP_pos_iff.1 (Nat.pos_of_ne_zero hheld)
      exact .inl ⟨other, s, NameMap.mem_entries.1 hs, hrefers⟩
  · rintro (⟨other, s, hs, hrefers⟩ | ⟨x, hx⟩)
    · cases hi : s.installed with
      | none =>
        rw [Script.refersTo_of_none hi] at hrefers
        cases hrefers
      | some i =>
        rw [Script.refersTo_eq hi, List.contains_iff_mem] at hrefers
        obtain ⟨e, he⟩ := (hw.linked other s i hs hi).references id hrefers
        rw [he]
        rfl
    · obtain ⟨e, he, -⟩ := hw.shared x id hx
      rw [he]
      rfl

end Workspace

end VectorScript
