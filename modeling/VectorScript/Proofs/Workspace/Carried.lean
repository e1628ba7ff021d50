import VectorScript.Proofs.Workspace.Generations

/-!
# Values are carried forward

When a script is compiled anew its shared variables go on with their values, as far as they have kept
their types. One that has another type begins anew; those who import the old one keep it until the last
of them has let it go, with its value as long as the new one stays. When nothing is left of the new one
the name stands for the old one again. Compiled once more, a text gives the same program and leaves the
table as it is.

    p.Declares x ty id → q.Declares x ty' id' → ty' = ty → id' = id               (redeclares)
    w.compile name = (.ok (), w') → (w'.compile name).2.table = w'.table       (compile_again)
-/

namespace VectorScript

/-- The program declares a shared variable of its own, of the type, and the id stands for it. -/
def Program.Declares (p : Program) (x : String) (ty : Ty) (id : SharedId) : Prop :=
  ∃ v, p.symbols.get? x = some (.var v) ∧ v.imported = false ∧ v.shared = some id ∧ v.ty = ty

instance (p : Program) (x : String) (ty : Ty) (id : SharedId) : Decidable (p.Declares x ty id) :=
  decidable_of_iff
    ((p.symbols.get? x).any (fun symbol => symbol.casesOn
      (fun v => v.imported = false ∧ v.shared = some id ∧ v.ty = ty) (fun _ _ => false) (fun _ => false)
        fun _ => false) = true) <| by
    unfold Program.Declares
    cases p.symbols.get? x with
    | none => simp
    | some symbol => cases symbol <;> simp

/-- What a program declares has an entry, which the script's name stands for. -/
theorem Program.Linked.declares {p : Program} {owner : String} {t : SharedTable}
    (h : p.Linked owner t) {x : String} {ty : Ty} {id : SharedId} (hx : p.Declares x ty id) :
    p.exports.get? x = some id ∧ ∃ e, t.get? id = some e ∧ e.owner = owner ∧ e.name = x ∧
      e.ty = ty ∧ (owner ≠ "" → t.current? owner x = some e) := by
  obtain ⟨v, hv, himp, hid, rfl⟩ := hx
  have hexport := h.exported x v id hv hid himp
  obtain ⟨-, e, -, he, howner, -⟩ := h.exports x id hexport
  obtain ⟨e', he', hname, hty⟩ := (h.placed x v hv).entry id hid
  cases he.symm.trans he'
  refine ⟨hexport, e, he, howner, hname, hty, fun hne => ?_⟩
  unfold SharedTable.current?
  rw [h.newest hne x id hexport]
  exact he

namespace Workspace

variable {w w' : Workspace} {name : String} {s : Script} {p q : Program}

/-! ## Compiling anew -/

/-- A compilation that succeeds has made a program of the text. -/
theorem Sound.compile_ok (hw : w.Sound) (hname : name ∉ w.active)
    (hok : w.compile name = (.ok (), w')) : ∃ s q, w.scripts.get? name = some s ∧
      ((w.setting name).compile s.source).1 = .ok q ∧
      w' = { w.note .compiled name with
        table := (exchanged ((w.setting name).compile s.source).2 s q).sweep
        scripts := w.rescripted name s q } := by
  cases hs : w.scripts.get? name with
  | none =>
    rw [compile_eq_none hs] at hok
    cases hok
  | some s =>
    cases hr : ((w.setting name).compile s.source).1 with
    | ok q =>
      rw [hw.compile_eq_ok Setting.sound_compile hname hs hr] at hok
      cases hok
      exact ⟨s, q, rfl, hr, rfl⟩
    | error e =>
      rw [compile_eq_error hs hr] at hok
      cases hok

/-- A shared variable that is declared with its old type goes on, and one with another type is new. -/
theorem Sound.redeclares (hw : w.Sound) (hne : name ≠ "")
    (hq : ((w.setting name).compile s.source).1 = .ok q)
    (hp : w.scripts.program? name = some p) {x : String} {ty ty' : Ty} {id id' : SharedId}
    (hx : p.Declares x ty id) (hx' : q.Declares x ty' id') :
    (ty' = ty → id' = id) ∧ (ty' ≠ ty → w.table.next ≤ id'.index) := by
  obtain ⟨-, e, he, -, -, rfl, hcurrent⟩ := (hw.toCounted.linked_program hp).declares hx
  obtain ⟨v, hv, himp, hid, rfl⟩ := hx'
  obtain ⟨hsame, hother⟩ := Setting.redeclared_of_compile (hw.setting_ok name) hq hv hid himp
    (hcurrent hne)
  exact ⟨fun hty => (hsame hty.symm).trans (SharedTable.id_of_get? he), fun hty => hother hty.symm⟩

/-- Whatever is in the table afterwards was there, or is new and has its initial value. -/
theorem Sound.entries_compile (hw : w.Sound) {e' : SharedEntry}
    (he' : e' ∈ (exchanged ((w.setting name).compile s.source).2 s q).sweep.entries) :
    (∃ e ∈ w.table.entries, e.Recounted e') ∨
      w.table.next ≤ e'.id.index ∧ e'.owner = name ∧ e'.cell = .create e'.ty := by
  have hext := Setting.sound_compile.table (w.setting name) s.source (hw.setting_ok name)
  obtain ⟨fresh, hl, hfresh⟩ := hext.entries
  rw [exchanged_eq] at he'
  have hsorted := hext.sorted.mapEntries (f := fun e =>
    { e with refs := e.refs + q.references.count e.id - (oldReferences s).count e.id })
    (fun _ => rfl) (fun _ => rfl) fun _ => rfl
  obtain ⟨a, ha, rfl⟩ := List.mem_map.1 (hsorted.mem_sweep.1 he').1
  rw [hl] at ha
  rcases List.mem_append.1 ha with ha | ha
  · exact .inl ⟨a, ha, rfl, rfl, rfl, rfl, rfl⟩
  · obtain ⟨howner, -, hcell, hindex⟩ := hfresh a ha
    exact .inr ⟨hindex, howner, hcell⟩

/-! ## Compiling once more -/

/-- Where every entry is held, a sweep finds nothing. -/
theorem Sound.sweep_table (hw : w.Sound) : w.table.sweep = w.table := by
  have hdead : w.table.dead = [] :=
    List.filter_eq_nil_iff.2 fun e he => by simpa using hw.held e he
  unfold SharedTable.sweep
  rw [hdead]
  rfl

/-- Compiled once more, the text gives the same program, and the table stays as it is. -/
theorem Sound.compile_again (hw : w.Sound) (hname : name ∉ w.active) (hne : name ≠ "")
    (hok : w.compile name = (.ok (), w')) (hq : w'.scripts.program? name = some q) :
    ∃ w'', w'.compile name = (.ok (), w'') ∧ w''.scripts.program? name = some q ∧
      w''.table = w'.table := by
  have hk := hw.keeps_compile Setting.sound_compile hname
  have hm := hw.matches_compile Setting.sound_compile hname
  obtain ⟨s, q₀, hs, hr, hw'⟩ := hw.compile_ok hname hok
  rw [hok] at hk hm
  have hscript : w'.scripts.get? name = some (reinstalled s q₀) := by
    rw [hw']
    unfold rescripted
    dsimp only
    rw [NameMap.get?_map, NameMap.get?_insert_self]
    simp
  have hprogram : w'.scripts.program? name = some q₀ := Scripts.program?_eq hscript rfl
  obtain rfl := Option.some.inj (hprogram.symm.trans hq)
  have hname' : name ∉ w'.active := hk.active.symm ▸ hname
  have hok' := hk.sound.setting_ok name
  have hlinked := hk.sound.toCounted.linked_program hprogram
  obtain ⟨q₁, hr', hcounterpart⟩ : ∃ q₁, ((w'.setting name).compile s.source).1 = .ok q₁ ∧
      q₀.Counterpart q₁ := by
    rcases hm.compile (hw.setting_ok name) hok' s.source with ⟨a, b, ha, hb, hab⟩ | ⟨e, he, -⟩
    · cases hr.symm.trans ha
      exact ⟨b, hb, hab⟩
    · cases hr.symm.trans he
  have hlinked' := Setting.sound_compile.linked (w'.setting name) s.source q₁ hok' hr'
  -- what the text declares the name already stands for, with the same type
  have hsame : q₁ = q₀ := by
    refine hcounterpart.eq hlinked hlinked' fun x id id' hx hx' => ?_
    obtain ⟨v, hv, hid, himp⟩ := hlinked.exports_eq_some.1 hx
    obtain ⟨v', hv', hid', himp'⟩ := hlinked'.exports_eq_some.1 hx'
    have hbare := hcounterpart.symbols x
    rw [hv, hv'] at hbare
    obtain ⟨_, heq, hty, -⟩ := Symbol.bare_eq_var (Option.some.inj hbare)
    cases heq
    exact (hk.sound.redeclares hne hr' hprogram ⟨v, hv, himp, hid, rfl⟩
      ⟨v', hv', himp', hid', rfl⟩).1 hty
  subst hsame
  have htable : ((w'.setting name).compile s.source).2 = w'.table := by
    refine (Setting.table_of_compile hok' hr').resolve_right fun ⟨id, hid, hle⟩ => ?_
    obtain ⟨e, he⟩ := hlinked.references id hid
    obtain ⟨hmem, rfl⟩ := hk.sound.sorted.get?_eq_some.1 he
    exact absurd (hk.sound.sorted.below e hmem) (Nat.not_lt.2 hle)
  refine ⟨_, hk.sound.compile_eq_ok Setting.sound_compile hname' hscript hr', ?_, ?_⟩
  · exact (program?_rescripted w' name name _ _).trans (if_pos rfl)
  · show (exchanged ((w'.setting name).compile s.source).2 (reinstalled s q₁) q₁).sweep = w'.table
    have hold : oldReferences (reinstalled s q₁) = q₁.references := rfl
    rw [htable, exchanged_eq, hold]
    simp only [Nat.add_sub_cancel]
    refine Eq.trans ?_ hk.sound.sweep_table
    exact congrArg SharedTable.sweep (by simp [SharedTable.mapEntries])

/-! ## Old generations -/

/-- Whatever the host does, an entry of a script stays as long as a script refers to it, and no
longer. -/
theorem Leads.abides (h : w.Leads w') (hw : w.Sound) (hidle : w.active = []) {e : SharedEntry}
    (he : e ∈ w.table.entries) (howner : e.owner ≠ "") :
    ((∃ other s, w'.scripts.get? other = some s ∧ s.refersTo e.id = true) →
      ∃ e', w'.table.get? e.id = some e' ∧ e'.owner = e.owner ∧ e'.name = e.name ∧ e'.ty = e.ty) ∧
    ((¬∃ other s, w'.scripts.get? other = some s ∧ s.refersTo e.id = true) →
      w'.table.get? e.id = none) := by
  have hw' := (h.sound hw hidle).1
  refine ⟨fun hrefers => ?_, fun hnobody => ?_⟩
  · obtain ⟨e', he'⟩ := Option.isSome_iff_exists.1 ((hw'.isSome_get?_iff e.id).2 (.inl hrefers))
    exact ⟨e', he', h.same hw hidle he howner he'⟩
  · by_contra hsome
    obtain ⟨e', he'⟩ := Option.ne_none_iff_exists'.1 hsome
    have hheld := (hw'.isSome_get?_iff e.id).1 (Option.isSome_iff_exists.2 ⟨e', he'⟩)
    obtain ⟨x, hx⟩ := hheld.resolve_left hnobody
    -- the host holds entries of its own only
    obtain ⟨a, ha, hhost, -⟩ := hw'.shared x e.id hx
    cases ha.symm.trans he'
    exact howner ((h.same hw hidle he howner ha).1.symm.trans hhost)

/-! ## Carrying on -/

/-- A script with two shared variables, which has run, and one that imports the second of them. -/
def sharers : Workspace :=
  ((new.perform Setting.compile (.setSource "a" "shared Natural x = 1; shared Natural y = 2;")).perform
    Setting.compile (.run "a")).perform Setting.compile (.setSource "b" "import y from a;")

theorem reachable_sharers : Reachable Setting.compile sharers :=
  .perform (.perform (.perform .new _) _) _

/-- The second variable has another type. -/
def sharersRetyped : Workspace :=
  ((sharers.withSource "a" "shared Natural x; shared Real y;").compile "a").2

theorem compile_sharersRetyped :
    (sharers.withSource "a" "shared Natural x; shared Real y;").compile "a" =
      (.ok (), sharersRetyped) := by
  have hfst : ((sharers.withSource "a" "shared Natural x; shared Real y;").compile "a").1.toOption =
      some () := by decide +kernel
  refine Prod.ext ?_ rfl
  generalize ((sharers.withSource "a" "shared Natural x; shared Real y;").compile "a").1 = r at hfst ⊢
  cases r with
  | ok u => rfl
  | error e => cases hfst

theorem declares_sharers : ∃ p, sharers.scripts.program? "a" = some p ∧
    p.Declares "x" .integer ⟨0⟩ ∧ p.Declares "y" .integer ⟨1⟩ := by
  obtain ⟨p, hp, hdeclares⟩ : ∃ p, sharers.scripts.program? "a" = some p ∧
      decide (p.Declares "x" .integer ⟨0⟩ ∧ p.Declares "y" .integer ⟨1⟩) = true :=
    (Option.any_eq_true _ _).1 (by decide +kernel)
  exact ⟨p, hp, of_decide_eq_true hdeclares⟩

theorem declares_sharersRetyped : ∃ q, sharersRetyped.scripts.program? "a" = some q ∧
    q.Declares "x" .integer ⟨0⟩ ∧ q.Declares "y" .real ⟨2⟩ := by
  obtain ⟨q, hq, hdeclares⟩ : ∃ q, sharersRetyped.scripts.program? "a" = some q ∧
      decide (q.Declares "x" .integer ⟨0⟩ ∧ q.Declares "y" .real ⟨2⟩) = true :=
    (Option.any_eq_true _ _).1 (by decide +kernel)
  exact ⟨q, hq, of_decide_eq_true hdeclares⟩

/-- The first script has let go of the second variable. -/
def sharersDropped : Workspace :=
  sharersRetyped.perform Setting.compile (.setSource "a" "shared Natural x;")

/-- It has one of that name again, with the type of the old one. -/
def sharersRevived : Workspace :=
  sharersDropped.perform Setting.compile (.setSource "a" "shared Natural x; shared Natural y = 7;")

/-- The first script has run, too. -/
def sharersOverwritten : Workspace := sharersRevived.perform Setting.compile (.run "a")

end Workspace

end VectorScript
