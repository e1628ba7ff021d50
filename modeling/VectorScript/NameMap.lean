/-!
# Maps from names

A `NameMap` holds one value per name and keeps its entries in strictly increasing order of the
names, so listing it needs no sorting and two maps with the same look-ups are the same list.
Names are compared by code point, which is also the order of their UTF-8 bytes.

    (m.insert n a).get? k = if k = n then some a else m.get? k        (get?_insert)
    (m.erase n).get? k = if k = n then none else m.get? k             (get?_erase)
    (m.map f).get? k = (m.get? k).map (f k)                           (get?_map)
-/

namespace VectorScript

/-! ## Sorted entries -/

namespace Entries

variable {α : Type}

/-- Puts an entry at its place, replacing the entry of the same name. -/
def insert (name : String) (a : α) : List (String × α) → List (String × α)
  | [] => [(name, a)]
  | (k, b) :: rest =>
    if name < k then (name, a) :: (k, b) :: rest
    else if name = k then (name, a) :: rest
    else (k, b) :: insert name a rest

/-- The value of a name. -/
def find? (name : String) : List (String × α) → Option α
  | [] => none
  | (k, b) :: rest => if name = k then some b else find? name rest

theorem mem_insert {name : String} {a : α} {e : String × α} {l : List (String × α)}
    (h : e ∈ insert name a l) : e = (name, a) ∨ e ∈ l := by
  induction l with
  | nil => simpa [insert] using h
  | cons hd tl ih =>
    obtain ⟨k, b⟩ := hd
    simp only [insert] at h
    split at h
    · simpa using h
    · split at h
      · simp only [List.mem_cons] at h ⊢
        exact h.imp id fun h => Or.inr h
      · simp only [List.mem_cons] at h ⊢
        rcases h with h | h
        · exact Or.inr (Or.inl h)
        · exact (ih h).imp id Or.inr

theorem lt_of_not_lt_of_ne {a b : String} (h : ¬a < b) (hne : a ≠ b) : b < a := by
  exact String.not_le.1 fun hab => hne (String.le_antisymm hab (String.not_lt.1 h))

theorem pairwise_insert {name : String} {a : α} {l : List (String × α)}
    (h : l.Pairwise (·.1 < ·.1)) : (insert name a l).Pairwise (·.1 < ·.1) := by
  induction l with
  | nil => simp [insert]
  | cons hd tl ih =>
    obtain ⟨k, b⟩ := hd
    obtain ⟨hk, htl⟩ := List.pairwise_cons.1 h
    rw [insert]
    split
    · rename_i hlt
      refine List.pairwise_cons.2 ⟨fun e he => ?_, h⟩
      rcases List.mem_cons.1 he with rfl | he
      · exact hlt
      · exact String.lt_trans hlt (hk e he)
    · split
      · rename_i heq
        subst heq
        exact List.pairwise_cons.2 ⟨hk, htl⟩
      · rename_i hlt hne
        refine List.pairwise_cons.2 ⟨fun e he => ?_, ih htl⟩
        rcases mem_insert he with rfl | he
        · exact lt_of_not_lt_of_ne hlt hne
        · exact hk e he

theorem find?_insert (name k : String) (a : α) (l : List (String × α)) :
    find? k (insert name a l) = if k = name then some a else find? k l := by
  induction l with
  | nil => simp [insert, find?]
  | cons hd tl ih =>
    obtain ⟨n, b⟩ := hd
    rw [insert]
    split
    · simp [find?]
    · split
      · rename_i heq
        subst heq
        by_cases hk : k = name <;> simp [find?, hk]
      · rename_i hne
        by_cases hk : k = n
        · subst hk
          simp [find?, Ne.symm hne]
        · simp [find?, hk, ih]

theorem find?_filter (name k : String) (l : List (String × α)) :
    find? k (l.filter fun e => e.1 ≠ name) = if k = name then none else find? k l := by
  induction l with
  | nil => simp [find?]
  | cons hd tl ih =>
    obtain ⟨n, b⟩ := hd
    by_cases hn : n = name
    · subst hn
      by_cases hk : k = n <;> simp [hk, find?] <;> simpa [hk] using ih
    · by_cases hk : k = n
      · subst hk
        simp [find?, hn]
      · simpa [find?, hn, hk] using ih

theorem find?_map {β : Type} (f : String → α → β) (k : String) (l : List (String × α)) :
    find? k (l.map fun e => (e.1, f e.1 e.2)) = (find? k l).map (f k) := by
  induction l with
  | nil => rfl
  | cons hd tl ih =>
    obtain ⟨n, b⟩ := hd
    by_cases hk : k = n
    · subst hk
      simp [find?]
    · simp [find?, hk, ih]

end Entries

/-! ## The map -/

/-- A finite map from names, listed in increasing order of the names. -/
structure NameMap (α : Type) where
  entries : List (String × α)
  sorted : entries.Pairwise (·.1 < ·.1)

/-- A finite set of names. -/
abbrev NameSet := NameMap Unit

namespace NameMap

variable {α β : Type}

def empty : NameMap α := ⟨[], .nil⟩

instance : Inhabited (NameMap α) := ⟨empty⟩

def get? (m : NameMap α) (name : String) : Option α := Entries.find? name m.entries

def contains (m : NameMap α) (name : String) : Bool := (m.get? name).isSome

def insert (m : NameMap α) (name : String) (a : α) : NameMap α :=
  ⟨Entries.insert name a m.entries, Entries.pairwise_insert m.sorted⟩

def erase (m : NameMap α) (name : String) : NameMap α :=
  ⟨m.entries.filter fun e => e.1 ≠ name, m.sorted.filter _⟩

/-- Changes every value, each knowing its name. -/
def map (f : String → α → β) (m : NameMap α) : NameMap β :=
  ⟨m.entries.map fun e => (e.1, f e.1 e.2), List.pairwise_map.2 m.sorted⟩

/-- Changes the value of one name, if the map has it. -/
def modify (m : NameMap α) (name : String) (f : α → α) : NameMap α :=
  m.map fun k a => if k = name then f a else a

/-- The names in increasing order. -/
def names (m : NameMap α) : List String := m.entries.map (·.1)

def values (m : NameMap α) : List α := m.entries.map (·.2)

def size (m : NameMap α) : Nat := m.entries.length

/-- Adds a member to a set of names. -/
def add (s : NameSet) (name : String) : NameSet := s.insert name ()

/-! ## Look-ups -/

@[simp] theorem get?_empty (k : String) : (empty : NameMap α).get? k = none := rfl

theorem get?_insert (m : NameMap α) (name k : String) (a : α) :
    (m.insert name a).get? k = if k = name then some a else m.get? k :=
  Entries.find?_insert name k a m.entries

theorem get?_erase (m : NameMap α) (name k : String) :
    (m.erase name).get? k = if k = name then none else m.get? k :=
  Entries.find?_filter name k m.entries

theorem get?_map (f : String → α → β) (m : NameMap α) (k : String) :
    (m.map f).get? k = (m.get? k).map (f k) :=
  Entries.find?_map f k m.entries

theorem get?_modify (m : NameMap α) (name k : String) (f : α → α) :
    (m.modify name f).get? k = if k = name then (m.get? k).map f else m.get? k := by
  rw [modify, get?_map]
  by_cases hk : k = name <;> simp [hk]

@[simp] theorem names_map (f : String → α → β) (m : NameMap α) : (m.map f).names = m.names := by
  simp [names, map]

end NameMap

end VectorScript
