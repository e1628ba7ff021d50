import VectorScript.Proofs.Code.Straight
import VectorScript.Proofs.Grammar.Script
import VectorScript.Workspace.Compile

/-!
# Programs and the table

A program that a text compiles to is linked with the table: it has one reference per shared variable
that it names, all of them to entries that exist, and its exports are the newest entries of the
script. Each slot is the place of one variable, nothing is stored in a variable that is imported, and
the code has its shape. What it imports is what the host or the scripts share at the time.

    s.Ok → (s.compile source).1 = .ok p → p.Linked s.name (s.compile source).2       (sound_compile)
-/

namespace VectorScript

namespace Program

/-- The program's references are to entries that exist, each taken once; its slots, variables and
exports go by them, and its statements have the shape of code. The host's own names may be declared
by a script without a name as well, so only the exports of a script with a name are sure to be the
newest. -/
structure Linked (p : Program) (owner : String) (t : SharedTable) : Prop where
  nodup : p.references.Nodup
  references : ∀ id ∈ p.references, ∃ e, t.get? id = some e
  slots : ∀ id, Slot.shared id ∈ p.slots → id ∈ p.references
  placed : ∀ x v, p.symbols.get? x = some (.var v) → v.Placed x t p.slots
  named : ∀ n < p.slots.length, ∃ x v, p.symbols.get? x = some (.var v) ∧ v.slot = n
  apart : ∀ x y v u, p.symbols.get? x = some (.var v) → p.symbols.get? y = some (.var u) →
    v.slot = u.slot → x = y
  imported : ∀ x v, p.symbols.get? x = some (.var v) → v.imported = true →
    ∃ id, v.shared = some id
  stores : ∀ n, p.StoresTo n → p.symbols.OwnSlot n
  shaped : ∀ s ∈ p.statements, s.Shaped p ∨ ∃ distance, s.kind = .jump distance
  exported : ∀ x v id, p.symbols.get? x = some (.var v) → v.shared = some id →
    v.imported = false → p.exports.get? x = some id
  exports : ∀ x id, p.exports.get? x = some id → id ∈ p.references ∧
    ∃ e v, t.get? id = some e ∧ e.owner = owner ∧
      p.symbols.get? x = some (.var v) ∧ v.shared = some id ∧ v.imported = false
  newest : owner ≠ "" → ∀ x id, p.exports.get? x = some id → t.lookup owner x = some id

section

variable {p : Program} {owner : String} {t : SharedTable} {x y : String} {v u : Variable}

/-- Nothing is stored in a variable that is imported. -/
theorem Linked.not_storesTo (h : p.Linked owner t) (hx : p.symbols.get? x = some (.var v))
    (himp : v.imported = true) : ¬p.StoresTo v.slot := by
  intro hstores
  obtain ⟨y, u, hy, hslot, hown⟩ := h.stores v.slot hstores
  obtain rfl := h.apart y x u v hy hx hslot
  cases hy.symm.trans hx
  rw [himp] at hown
  cases hown

/-- What is stored to belongs to the script. -/
theorem Linked.owner_of_storesTo (h : p.Linked owner t) {slot : Nat} (hstores : p.StoresTo slot) :
    slot < p.slots.length ∧ ∀ id, p.slots[slot]? = some (.shared id) →
      ∃ e, t.get? id = some e ∧ e.owner = owner := by
  obtain ⟨x, v, hx, rfl, hown⟩ := h.stores slot hstores
  have hslot := (h.placed x v hx).slot
  refine ⟨(List.getElem?_eq_some_iff.1 hslot).1, fun id hid => ?_⟩
  have hv := Variable.shared_eq_of_home (Option.some.inj (hslot.symm.trans hid))
  obtain ⟨-, e, -, he, ho, -⟩ := h.exports x id (h.exported x v id hx hv hown)
  exact ⟨e, he, ho⟩

/-- Different variables do not stand for one entry. -/
theorem Linked.eq_of_shared (h : p.Linked owner t) (hx : p.symbols.get? x = some (.var v))
    (hy : p.symbols.get? y = some (.var u)) {id : SharedId} (hv : v.shared = some id)
    (hu : u.shared = some id) : x = y := by
  obtain ⟨e, he, hname, -⟩ := (h.placed x v hx).entry id hv
  obtain ⟨e', he', hname', -⟩ := (h.placed y u hy).entry id hu
  cases he.symm.trans he'
  exact hname.symm.trans hname'

end

/-- What the program imports is what the host or a script shares under that name. -/
def Current (p : Program) (owner : String) (g : Globals) (scripts : Scripts) : Prop :=
  ∀ x v, p.symbols.get? x = some (.var v) → v.Sourced x owner g scripts p.imports none

end Program

/-- What a compilation gives: a table that has only grown and, if it succeeds, a program that is
linked with that table and imports what there is. -/
structure Compiler.Sound (compiler : Compiler) : Prop where
  table : ∀ s source, s.Ok → SharedTable.Extends s.name s.table (compiler s source).2
  linked : ∀ s source p, s.Ok → (compiler s source).1 = .ok p →
    p.Linked s.name (compiler s source).2
  current : ∀ s source p, s.Ok → (compiler s source).1 = .ok p →
    p.Current s.name s.globals s.scripts

namespace Setting

/-- A text that compiles has been read to its end. -/
theorem compile_eq_ok {s : Setting} {source : String} {p : Program}
    (h : (s.compile source).1 = .ok p) : ∃ body d statements,
      s.parse Parse.script source = .ok body d ∧ Stmt.flattenAll body = .ok statements ∧
        p = d.program s.globals statements ∧ (s.compile source).2 = d.table := by
  unfold compile at h ⊢
  split
  · next body d hp =>
    rw [hp] at h
    cases hf : Stmt.flattenAll body with
    | error e =>
      simp only [hf] at h
      cases h
    | ok statements =>
      simp only [hf] at h
      cases h
      exact ⟨body, d, statements, hp, hf, rfl, rfl⟩
  · next e d hp =>
    rw [hp] at h
    cases h

theorem extends_compile {s : Setting} (hs : s.Ok) (source : String) :
    SharedTable.Extends s.name s.table (s.compile source).2 := by
  have h := parse_script hs source
  unfold compile
  split
  · next body d hp =>
    rw [hp] at h
    exact h.1.table
  · next e d hp =>
    rw [hp] at h
    exact h

/-- The program of a draft in order. -/
theorem linked_program {s : Surroundings} {t : SharedTable} {d : Draft} (hd : d.Ok s t none)
    {body : List Stmt} (hbody : Stmt.AllOk (d.scope s) body)
    {statements : List Statement} (hflatten : Stmt.flattenAll body = .ok statements) :
    (d.program s.globals statements).Linked s.name d.table where
  nodup := hd.nodup
  references id hid := by
    obtain ⟨e, _, he, -⟩ := hd.references id hid
    exact ⟨e, he⟩
  slots := hd.slots
  placed := hd.placed
  named := hd.named
  apart := hd.apart
  imported x v hx himp := by
    obtain ⟨id, hid, -⟩ := hd.sources x v hx himp
    exact ⟨id, hid⟩
  stores n hn := by
    obtain ⟨a, ha, _, hkind⟩ := hn
    exact (Stmt.madeOf_flattenAll (Stmt.hereditary_ok _) body (Stmt.allOk_iff.1 hbody) hflatten a
      ha).own hkind
  shaped a ha := (Stmt.madeOf_flattenAll (Stmt.hereditary_ok _) body (Stmt.allOk_iff.1 hbody)
    hflatten a ha).shaped (.ofSlots (d.program s.globals statements) d.table)
  exported := hd.exported
  exports x id hx := by
    obtain ⟨hid, e, v, he, heid, hrest⟩ := hd.exports x id hx
    obtain ⟨hm, ho, -⟩ := hd.table.sorted.newest?_eq_some.1 he
    exact ⟨hid, e, v, heid ▸ hd.table.sorted.get?_id hm, ho, hrest⟩
  newest _ x id hx := by
    obtain ⟨-, e, v, he, heid, -⟩ := hd.exports x id hx
    rw [hd.table.sorted.keyed, he, ← heid]
    rfl

/-- Compilation of texts is sound. -/
theorem sound_compile : Compiler.Sound compile where
  table s source hs := extends_compile hs source
  linked s source p hs hp := by
    obtain ⟨body, d, statements, hparse, hflatten, rfl, htable⟩ := compile_eq_ok hp
    have h := parse_script hs source
    rw [hparse] at h
    rw [htable]
    exact linked_program h.1 h.2 hflatten
  current s source p hs hp := by
    obtain ⟨body, d, statements, hparse, -, rfl, -⟩ := compile_eq_ok hp
    have h := parse_script hs source
    rw [hparse] at h
    exact h.1.sources

end Setting

end VectorScript
