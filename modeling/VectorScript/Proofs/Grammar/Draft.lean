import VectorScript.Proofs.Grammar.Expression
import VectorScript.Proofs.NameMap
import VectorScript.Proofs.Store.Table

/-!
# Drafts in order

The state of a compilation stays in order (`Draft.Ok`): the table has only grown by entries of the
script, every slot is the place of one variable, every shared variable has one entry and one
reference, named as the variable is, and what is imported comes from the host or from an export of a
script. `Leads` says of a step that it keeps
this order, and that variables never lose their types.

    Leads s t from? d p Q → (∀ a d', … → Leads s t from? d' (f a) R) →
      Leads s t from? d (p >>= f) R                                                  (Leads.bind)
-/

namespace VectorScript

/-! ## What a compilation starts from -/

/-- No name of the host is a variable, and a function stands where its name says. -/
structure Globals.Ok (g : Globals) : Prop where
  unplaced : ∀ name v, g.symbols.get? name ≠ some (.var v)
  functions : ∀ name index f, g.symbols.get? name = some (.function index f) →
    g.functions[index]? = some f ∧ f.name = name

/-- What the host and other scripts share has an entry of its name. -/
structure Surroundings.Ok (s : Surroundings) (t : SharedTable) : Prop where
  sorted : t.Sorted
  globals : s.globals.Ok
  shared : ∀ x id, s.globals.shared.get? x = some id → ∃ e, t.get? id = some e ∧ e.name = x
  exports : ∀ script exports x id, s.scripts.exports? script = some exports →
    exports.get? x = some id → ∃ e, t.get? id = some e ∧ e.name = x

/-! ## Drafts -/

/-- The slot is the place of a variable that is not imported. -/
def NameMap.OwnSlot (symbols : NameMap Symbol) (slot : Nat) : Prop :=
  ∃ x v, symbols.get? x = some (.var v) ∧ v.slot = slot ∧ v.imported = false

/-- A new name takes no place from an old one. -/
theorem NameMap.OwnSlot.insert {symbols : NameMap Symbol} {slot : Nat} (h : symbols.OwnSlot slot)
    {name : String} (hname : symbols.get? name = none) (symbol : Symbol) :
    (symbols.insert name symbol).OwnSlot slot := by
  obtain ⟨x, v, hx, hrest⟩ := h
  exact ⟨x, v, NameMap.get?_insert_of_new hname hx, hrest⟩

/-- Where a variable lives. -/
def Variable.home (v : Variable) : Slot :=
  match v.shared with
  | none => .local v.ty
  | some id => .shared id

theorem Variable.shared_eq_of_home {v : Variable} {id : SharedId} (h : v.home = .shared id) :
    v.shared = some id := by
  unfold home at h
  split at h <;> cases h
  assumption

/-- The variable `x` has its slot, and its entry if it is shared. -/
structure Variable.Placed (v : Variable) (x : String) (table : SharedTable) (slots : List Slot) :
    Prop where
  slot : slots[v.slot]? = some v.home
  entry : ∀ id, v.shared = some id → ∃ e, table.get? id = some e ∧ e.name = x ∧ e.ty = v.ty

/-- If the variable `x` is imported it stands for a shared variable of the host or for an export of
a script other than its own, one of `imports` or `from?`. -/
def Variable.Sourced (v : Variable) (x owner : String) (g : Globals) (scripts : Scripts)
    (imports : NameSet) (from? : Option String) : Prop :=
  v.imported = true → ∃ id, v.shared = some id ∧ (g.shared.get? x = some id ∨
    ∃ script exports, script ≠ owner ∧ (imports.contains script = true ∨ from? = some script) ∧
      scripts.exports? script = some exports ∧ exports.get? x = some id)

namespace Draft

/-- The types of the variables declared so far, and the functions of the host. -/
def signature (d : Draft) (s : Surroundings) : Signature :=
  .ofSlots d.slots.toList d.table s.globals.functions

/-- What is declared so far; only variables that are not imported may be stored to. -/
def scope (d : Draft) (s : Surroundings) : Scope := ⟨d.signature s, d.symbols.OwnSlot⟩

/-- The draft is in order, in a compilation that began with the table `t`. -/
structure Ok (s : Surroundings) (t : SharedTable) (from? : Option String) (d : Draft) : Prop where
  table : SharedTable.Extends s.name t d.table
  result : d.symbols.get? resultName =
    some (.var { ty := .integer, slot := 0, shared := none, imported := false })
  nodup : d.references.toList.Nodup
  references : ∀ id ∈ d.references.toList, ∃ e v, d.table.get? id = some e ∧
    d.symbols.get? e.name = some (.var v) ∧ v.shared = some id
  slots : ∀ id, Slot.shared id ∈ d.slots.toList → id ∈ d.references.toList
  placed : ∀ x v, d.symbols.get? x = some (.var v) → v.Placed x d.table d.slots.toList
  named : ∀ n < d.slots.size, ∃ x v, d.symbols.get? x = some (.var v) ∧ v.slot = n
  apart : ∀ x y v u, d.symbols.get? x = some (.var v) → d.symbols.get? y = some (.var u) →
    v.slot = u.slot → x = y
  sources : ∀ x v, d.symbols.get? x = some (.var v) →
    v.Sourced x s.name s.globals s.scripts d.imports from?
  functions : ∀ x index f, d.symbols.get? x ≠ some (.function index f)
  exports : ∀ x id, d.exports.get? x = some id → id ∈ d.references.toList ∧
    ∃ e v, d.table.newest? s.name x = some e ∧ e.id = id ∧
      d.symbols.get? x = some (.var v) ∧ v.shared = some id ∧ v.imported = false
  exported : ∀ x v id, d.symbols.get? x = some (.var v) → v.shared = some id →
    v.imported = false → d.exports.get? x = some id

theorem Same.eq {d e : Draft} (h : d.Same e) :
    e = { d with tokens := e.tokens, subscripts := e.subscripts } := by
  obtain ⟨⟩ := d
  obtain ⟨⟩ := e
  obtain ⟨rfl, rfl, rfl, rfl, rfl, rfl⟩ := h
  rfl

theorem Same.scope {d e : Draft} (h : d.Same e) (s : Surroundings) :
    e.scope s = d.scope s := by
  unfold Draft.scope Draft.signature
  rw [h.slots, h.table, h.symbols]

section

variable {s : Surroundings} {t : SharedTable} {from? : Option String} {d : Draft}

theorem Ok.same (hd : d.Ok s t from?) {e : Draft} (h : d.Same e) : e.Ok s t from? := by
  rw [h.eq]
  exact ⟨hd.table, hd.result, hd.nodup, hd.references, hd.slots, hd.placed, hd.named, hd.apart,
    hd.sources, hd.functions, hd.exports, hd.exported⟩

/-- At first there is only the variable for results. -/
theorem eq_of_get?_start {tokens : List (Token × Position)} {x : String} {symbol : Symbol}
    (h : (Draft.start tokens t).symbols.get? x = some symbol) : x = resultName ∧
      symbol = .var { ty := .integer, slot := 0, shared := none, imported := false } := by
  rcases NameMap.eq_or_get?_of_insert h with h | h
  · exact h
  · cases h

theorem Ok.start (ht : t.Sorted) (tokens : List (Token × Position)) :
    (Draft.start tokens t).Ok s t none where
  table := .refl ht _
  result := NameMap.get?_insert_self
  nodup := .nil
  references _ h := nomatch h
  slots id h := by
    obtain h := List.mem_singleton.1 h
    cases h
  placed x v h := by
    obtain ⟨rfl, hv⟩ := eq_of_get?_start h
    cases hv
    exact ⟨rfl, fun _ h => nomatch h⟩
  named n hn := by
    obtain rfl := Nat.lt_one_iff.1 hn
    exact ⟨_, _, NameMap.get?_insert_self, rfl⟩
  apart x y v u hx hy _ := (eq_of_get?_start hx).1.trans (eq_of_get?_start hy).1.symm
  sources x v h himp := by
    obtain ⟨-, hv⟩ := eq_of_get?_start h
    cases hv
    cases himp
  functions x index f h := nomatch (eq_of_get?_start h).2
  exports _ _ h := nomatch h
  exported x v id h hid := by
    obtain ⟨-, hv⟩ := eq_of_get?_start h
    cases hv
    cases hid

/-- Declared names and names of the host agree with the scope of the draft. -/
theorem Ok.agree (hs : s.Ok t) (hd : d.Ok s t from?) : Parse.Agree s d (d.scope s) := by
  intro name symbol h
  cases symbol with
  | var v =>
    rcases h with h | h
    · obtain ⟨hslot, hentry⟩ := hd.placed name v h
      refine ⟨?_, fun himp => ⟨name, v, h, rfl, himp⟩⟩
      show (d.slots.toList[v.slot]?).bind (Slot.ty? d.table) = some v.ty
      rw [hslot]
      unfold Variable.home
      split
      · rfl
      · next id hid =>
        obtain ⟨e, he, -, hty⟩ := hentry id hid
        show (d.table.get? id).map (·.ty) = some v.ty
        rw [he, ← hty]
        rfl
    · exact absurd h (hs.globals.unplaced name v)
  | function index f =>
    rcases h with h | h
    · exact absurd h (hd.functions name index f)
    · exact (hs.globals.functions name index f h).1
  | typedef ty => trivial
  | constant v => trivial

/-! ## Declaring -/

/-- Slots are only added and entries only appended, so no variable loses its type. -/
theorem signature_le {slots more : List Slot} {table table' : SharedTable}
    (h : ∀ id e, table.get? id = some e → table'.get? id = some e) (fs : List HostFunction) :
    (Signature.ofSlots slots table fs).Le (.ofSlots (slots ++ more) table' fs) := by
  refine ⟨fun n t ht => ?_, rfl⟩
  obtain ⟨slot, hslot, hty⟩ := Option.bind_eq_some_iff.1 ht
  refine Option.bind_eq_some_iff.2 ⟨slot, ?_, ?_⟩
  · obtain ⟨hn, -⟩ := List.getElem?_eq_some_iff.1 hslot
    rw [List.getElem?_append_left hn]
    exact hslot
  · cases slot with
    | «local» ty => exact hty
    | shared id =>
      obtain ⟨e, he, hty⟩ := Option.map_eq_some_iff.1 hty
      exact Option.map_eq_some_iff.2 ⟨e, h id e he, hty⟩

theorem placed_mono {v : Variable} {x : String} {table table' : SharedTable}
    {slots more : List Slot} (h : ∀ id e, table.get? id = some e → table'.get? id = some e)
    (hv : v.Placed x table slots) : v.Placed x table' (slots ++ more) := by
  obtain ⟨hslot, hentry⟩ := hv
  refine ⟨?_, fun id hid => ?_⟩
  · obtain ⟨hn, -⟩ := List.getElem?_eq_some_iff.1 hslot
    rw [List.getElem?_append_left hn]
    exact hslot
  · obtain ⟨e, he, hx⟩ := hentry id hid
    exact ⟨e, h id e he, hx⟩

/-- A name for a type or a constant binds nothing. -/
theorem Ok.declare (hd : d.Ok s t from?) {name : String} (hname : d.symbols.get? name = none)
    {symbol : Symbol} (hv : ∀ v, symbol ≠ .var v) (hf : ∀ index f, symbol ≠ .function index f) :
    { d with symbols := d.symbols.insert name symbol }.Ok s t from? := by
  have hkeep : ∀ {x : String} {other : Symbol}, d.symbols.get? x = some other →
      (d.symbols.insert name symbol).get? x = some other := NameMap.get?_insert_of_new hname
  have hold : ∀ x v, (d.symbols.insert name symbol).get? x = some (.var v) →
      d.symbols.get? x = some (.var v) := by
    intro x v h
    rcases NameMap.eq_or_get?_of_insert h with ⟨-, h⟩ | h
    · exact absurd h.symm (hv v)
    · exact h
  refine ⟨hd.table, hkeep hd.result, hd.nodup, fun id hid => ?_, hd.slots,
    fun x v h => hd.placed x v (hold x v h), fun n hn => ?_,
    fun x y v u hx hy => hd.apart x y v u (hold x v hx) (hold y u hy),
    fun x v h => hd.sources x v (hold x v h), fun x index f h => ?_, fun x id h => ?_,
    fun x v id h => hd.exported x v id (hold x v h)⟩
  · obtain ⟨e, v, he, hx, hsh⟩ := hd.references id hid
    exact ⟨e, v, he, hkeep hx, hsh⟩
  · obtain ⟨x, v, hx, hslot⟩ := hd.named n hn
    exact ⟨x, v, hkeep hx, hslot⟩
  · rcases NameMap.eq_or_get?_of_insert h with ⟨-, h⟩ | h
    · exact hf index f h.symm
    · exact hd.functions x index f h
  · obtain ⟨hid, e, v, he, heid, hx, hrest⟩ := hd.exports x id h
    exact ⟨hid, e, v, he, heid, hkeep hx, hrest⟩

theorem Ok.slot_lt (hd : d.Ok s t from?) {x : String} {v : Variable}
    (h : d.symbols.get? x = some (.var v)) : v.slot < d.slots.size :=
  (List.getElem?_eq_some_iff.1 (hd.placed x v h).slot).1

/-- The draft `d'` has the variable `v` more than `d`, under a new name and in a new slot. -/
structure Adds (s : Surroundings) (from? : Option String) (d d' : Draft) (name : String)
    (v : Variable) : Prop where
  new : d.symbols.get? name = none
  symbols : d'.symbols = d.symbols.insert name (.var v)
  slots : d'.slots = d.slots.push v.home
  slot : v.slot = d.slots.size
  imports : d'.imports = d.imports
  references : d'.references.toList = d.references.toList ++ v.shared.toList
  table : SharedTable.Extends s.name d.table d'.table
  newest : ∀ other e, other ≠ name → d.table.newest? s.name other = some e →
    d'.table.newest? s.name other = some e
  entry : ∀ id, v.shared = some id → ∃ e, d'.table.get? id = some e ∧ e.name = name ∧ e.ty = v.ty
  source : v.Sourced name s.name s.globals s.scripts d.imports from?
  exports : ∀ x id, d'.exports.get? x = some id → d.exports.get? x = some id ∨
    x = name ∧ v.shared = some id ∧ v.imported = false ∧
      ∃ e, d'.table.newest? s.name name = some e ∧ e.id = id
  exports_kept : ∀ x id, x ≠ name → d.exports.get? x = some id → d'.exports.get? x = some id
  exported : ∀ id, v.shared = some id → v.imported = false → d'.exports.get? name = some id

variable {d' : Draft} {name : String} {v : Variable}

theorem Adds.slots_eq (h : d.Adds s from? d' name v) :
    d'.slots.toList = d.slots.toList ++ [v.home] := by
  rw [h.slots, Array.toList_push]

theorem Adds.get? (hd : d.Ok s t from?)
    (h : d.Adds s from? d' name v) {id : SharedId} {e : SharedEntry}
    (he : d.table.get? id = some e) : d'.table.get? id = some e :=
  h.table.get? hd.table.sorted he

theorem Adds.le (hd : d.Ok s t from?)
    (h : d.Adds s from? d' name v) : (d.scope s).Le (d'.scope s) := by
  unfold scope signature
  rw [h.slots_eq, h.symbols]
  exact ⟨signature_le (fun id e he => h.get? hd he) _, fun n hn => hn.insert h.new _⟩

/-- The new variable is the script's own if it is not imported. -/
theorem Adds.own (h : d.Adds s from? d' name v)
    (hv : v.imported = false) : (d'.scope s).own v.slot :=
  ⟨name, v, h.symbols ▸ NameMap.get?_insert_self, rfl, hv⟩

/-- The slot of the new variable has its type. -/
theorem Adds.slot_ty (h : d.Adds s from? d' name v) : (d'.scope s).slot v.slot = some v.ty := by
  show (d'.slots.toList[v.slot]?).bind (Slot.ty? d'.table) = some v.ty
  rw [h.slots_eq, h.slot, ← Array.length_toList, List.getElem?_concat_length]
  unfold Variable.home
  show Slot.ty? d'.table _ = _
  split
  · rfl
  · next id hid =>
    obtain ⟨e, he, -, hty⟩ := h.entry id hid
    show (d'.table.get? id).map (·.ty) = some v.ty
    rw [he, ← hty]
    rfl

/-- A reference to a new variable is a new one: every reference has an entry of its variable's
name. -/
theorem Adds.nodup (hd : d.Ok s t from?)
    (h : d.Adds s from? d' name v) : d'.references.toList.Nodup := by
  rw [h.references]
  refine List.nodup_append.2 ⟨hd.nodup, ?_, ?_⟩
  · cases v.shared <;> simp
  · rintro id hid _ hid' rfl
    obtain ⟨e, he, hename, -⟩ := h.entry id (Option.mem_toList.1 hid')
    obtain ⟨e', w, he', hx, -⟩ := hd.references id hid
    rw [h.get? hd he'] at he
    cases he
    rw [hename, h.new] at hx
    cases hx

/-- What a name stands for is the new variable or what it stood for before. -/
theorem Adds.symbol (h : d.Adds s from? d' name v)
    {x : String} {symbol : Symbol} (hx : d'.symbols.get? x = some symbol) :
    x = name ∧ symbol = .var v ∨ x ≠ name ∧ d.symbols.get? x = some symbol := by
  rw [h.symbols] at hx
  rcases NameMap.eq_or_get?_of_insert hx with hnew | hold
  · exact .inl hnew
  · refine .inr ⟨?_, hold⟩
    rintro rfl
    rw [h.new] at hold
    cases hold

theorem Adds.symbol_kept (h : d.Adds s from? d' name v)
    {x : String} {symbol : Symbol} (hx : d.symbols.get? x = some symbol) :
    d'.symbols.get? x = some symbol :=
  h.symbols ▸ NameMap.get?_insert_of_new h.new hx

theorem Adds.symbol_self (h : d.Adds s from? d' name v) : d'.symbols.get? name = some (.var v) :=
  h.symbols ▸ NameMap.get?_insert_self

theorem Adds.mem_references (h : d.Adds s from? d' name v) {id : SharedId} :
    id ∈ d'.references.toList ↔ id ∈ d.references.toList ∨ v.shared = some id := by
  rw [h.references, List.mem_append, Option.mem_toList]

/-- The new variable is in a slot of its own. -/
theorem Adds.apart (hd : d.Ok s t from?)
    (h : d.Adds s from? d' name v) {x y : String} {w u : Variable}
    (hx : d'.symbols.get? x = some (.var w)) (hy : d'.symbols.get? y = some (.var u))
    (heq : w.slot = u.slot) : x = y := by
  rcases h.symbol hx with ⟨rfl, hw⟩ | ⟨-, hx⟩
  · rcases h.symbol hy with ⟨rfl, -⟩ | ⟨-, hy⟩
    · rfl
    · cases hw
      exact absurd (heq.symm.trans h.slot) (Nat.ne_of_lt (hd.slot_lt hy))
  · rcases h.symbol hy with ⟨rfl, hu⟩ | ⟨-, hy⟩
    · cases hu
      exact absurd (heq.trans h.slot) (Nat.ne_of_lt (hd.slot_lt hx))
    · exact hd.apart x y w u hx hy heq

/-- An export is an old one or the new variable. -/
theorem Adds.exports_ok (hd : d.Ok s t from?)
    (h : d.Adds s from? d' name v) {x : String} {id : SharedId}
    (hx : d'.exports.get? x = some id) : id ∈ d'.references.toList ∧
      ∃ e w, d'.table.newest? s.name x = some e ∧ e.id = id ∧
        d'.symbols.get? x = some (.var w) ∧ w.shared = some id ∧ w.imported = false := by
  rcases h.exports x id hx with hx | ⟨rfl, hsh, himp, e, he, heid⟩
  · obtain ⟨hid, e, w, he, heid, hsym, hrest⟩ := hd.exports x id hx
    have hne : x ≠ name := by
      rintro rfl
      rw [h.new] at hsym
      cases hsym
    exact ⟨h.mem_references.2 (.inl hid), e, w, h.newest x e hne he, heid, h.symbol_kept hsym, hrest⟩
  · exact ⟨h.mem_references.2 (.inr hsh), e, v, he, heid, h.symbol_self, hsh, himp⟩

/-- A new variable leaves a draft in order. -/
theorem Adds.ok (hd : d.Ok s t from?) (h : d.Adds s from? d' name v) : d'.Ok s t from? where
  table := hd.table.trans h.table
  result := h.symbol_kept hd.result
  nodup := h.nodup hd
  references id hid := by
    rcases h.mem_references.1 hid with hid | hid
    · obtain ⟨e, w, he, hx, hsh⟩ := hd.references id hid
      exact ⟨e, w, h.get? hd he, h.symbol_kept hx, hsh⟩
    · obtain ⟨e, he, rfl, -⟩ := h.entry id hid
      exact ⟨e, v, he, h.symbol_self, hid⟩
  slots id hid := by
    rw [h.slots_eq] at hid
    rcases List.mem_append.1 hid with hid | hid
    · exact h.mem_references.2 (.inl (hd.slots id hid))
    · exact h.mem_references.2 (.inr (Variable.shared_eq_of_home (List.mem_singleton.1 hid).symm))
  placed x w hx := by
    rw [h.slots_eq]
    rcases h.symbol hx with ⟨rfl, hw⟩ | ⟨-, hx⟩
    · cases hw
      -- The new variable has the last slot.
      refine ⟨?_, h.entry⟩
      rw [h.slot, ← Array.length_toList, List.getElem?_concat_length]
    · exact placed_mono (fun id e he => h.get? hd he) (hd.placed x w hx)
  named n hn := by
    rw [h.slots, Array.size_push] at hn
    rcases Nat.lt_succ_iff_lt_or_eq.1 hn with hn | rfl
    · obtain ⟨x, w, hx, hslot⟩ := hd.named n hn
      exact ⟨x, w, h.symbol_kept hx, hslot⟩
    · exact ⟨name, v, h.symbol_self, h.slot⟩
  apart _ _ _ _ := h.apart hd
  sources x w hx := by
    rw [h.imports]
    rcases h.symbol hx with ⟨rfl, hw⟩ | ⟨-, hx⟩
    · cases hw
      exact h.source
    · exact hd.sources x w hx
  functions x index f hx := by
    rcases h.symbol hx with ⟨-, hw⟩ | ⟨-, hx⟩
    · cases hw
    · exact hd.functions x index f hx
  exports _ _ := h.exports_ok hd
  exported x w id hx hsh himp := by
    rcases h.symbol hx with ⟨rfl, hw⟩ | ⟨hne, hx⟩
    · cases hw
      exact h.exported id hsh himp
    · exact h.exports_kept x id hne (hd.exported x w id hx hsh himp)

end

end Draft

/-! ## Steps -/

namespace Parse

variable {α β : Type} {s : Surroundings} {t : SharedTable} {from? : Option String} {d : Draft}
  {p : Parse α} {f : α → Parse β} {Q : α → Scope → Prop} {R : β → Scope → Prop}

/-- The step keeps the draft in order, and `Q` holds of its result in the scope then. Variables
keep their types. When it fails, the table has still only grown. -/
def Leads (s : Surroundings) (t : SharedTable) (from? : Option String) (d : Draft) (p : Parse α)
    (Q : α → Scope → Prop) : Prop :=
  ∀ e, d.Same e → match p s e with
    | .ok a d' => d'.Ok s t from? ∧ (d.scope s).Le (d'.scope s) ∧ Q a (d'.scope s)
    | .error _ d' => SharedTable.Extends s.name t d'.table

/-- A step that only reads, and one that goes on with what was read. -/
theorem Reads.lead {P : α → Prop} (hd : d.Ok s t from?) (hp : Reads s d p P)
    (hf : ∀ a, P a → Leads s t from? d (f a) R) : Leads s t from? d (p >>= f) R := by
  intro e he
  show match EStateM.bind (p s) (fun a => f a s) e with
    | .ok b d' => d'.Ok s t from? ∧ (d.scope s).Le (d'.scope s) ∧ R b (d'.scope s)
    | .error _ d' => SharedTable.Extends s.name t d'.table
  unfold EStateM.bind
  have h := hp e he
  unfold ReadsFrom at h
  cases hx : p s e with
  | ok a d' =>
    rw [hx] at h
    exact hf a h.2 d' h.1
  | error x d' =>
    rw [hx] at h
    exact (hd.same h).table

theorem Leads.bind (hp : Leads s t from? d p Q)
    (hf : ∀ a d', d'.Ok s t from? → (d.scope s).Le (d'.scope s) → Q a (d'.scope s) →
      Leads s t from? d' (f a) R) : Leads s t from? d (p >>= f) R := by
  intro e he
  show match EStateM.bind (p s) (fun a => f a s) e with
    | .ok b d' => d'.Ok s t from? ∧ (d.scope s).Le (d'.scope s) ∧ R b (d'.scope s)
    | .error _ d' => SharedTable.Extends s.name t d'.table
  unfold EStateM.bind
  have h := hp e he
  cases hx : p s e with
  | ok a d' =>
    rw [hx] at h
    obtain ⟨hok, hle, hq⟩ := h
    have h' := hf a d' hok hle hq d' (.refl d')
    dsimp only
    cases hy : f a s d' with
    | ok b d'' =>
      rw [hy] at h'
      exact ⟨h'.1, hle.trans h'.2.1, h'.2.2⟩
    | error x d'' =>
      rw [hy] at h'
      exact h'
  | error x d' =>
    rw [hx] at h
    exact h

theorem leads_pure (hd : d.Ok s t from?) {a : α} (h : Q a (d.scope s)) :
    Leads s t from? d (pure a) Q := by
  intro e he
  refine ⟨hd.same he, ?_, ?_⟩
  · rw [he.scope]
    exact .refl _
  · rw [he.scope]
    exact h

theorem leads_throw (hd : d.Ok s t from?) (x : Fault) :
    Leads s t from? d (throw x : Parse α) Q := fun _ he => (hd.same he).table

/-- A step that only reads. -/
theorem Reads.leads {P : α → Prop} (hd : d.Ok s t from?) (hp : Reads s d p P)
    (h : ∀ a, P a → Q a (d.scope s)) : Leads s t from? d p Q := by
  have := hp.lead hd fun a ha => leads_pure hd (h a ha)
  rwa [bind_pure] at this

/-- An invariant of the rounds of a loop, from which each result follows. -/
theorem leads_loop {step : α → Parse (α ⊕ β)} (I : α → Scope → Prop)
    (hstep : ∀ d a, d.Ok s t from? → I a (d.scope s) → Leads s t from? d (step a)
      fun r Γ => Round (I · Γ) (R · Γ) r)
    {a : α} (hd : d.Ok s t from?) (ha : I a (d.scope s)) :
    Leads s t from? d (loop a step) R := by
  refine reads_read.lead hd fun g _ => ?_
  generalize g.rounds = rounds
  induction rounds generalizing d a with
  | zero => exact leads_throw hd _
  | succ rounds ih =>
    refine (hstep d a hd ha).bind fun r d' hd' _ hr => ?_
    split
    · exact ih hd' hr
    · exact leads_pure hd' hr

end Parse

end VectorScript
