import VectorScript.Ty

/-!
# Assignability as an order

What a type takes, it takes through any type between: assignability is transitive on all types. It
is reflexive just on the types in which no selector stands, and two types that take each other
differ in the names of record fields only.

    a.assignable b → b.assignable c → a.assignable c                         (assignable_trans)
    a.assignable a = a.selectorFree                                          (assignable_self)
    a.assignable b → b.assignable a → a.unnamed = b.unnamed                  (unnamed_eq)
    a.unnamed.assignable b.unnamed = a.assignable b                          (assignable_unnamed)
-/

namespace VectorScript

namespace Ty

/-! ## Definitions -/

mutual

/-- Whether no selector stands anywhere in the type. -/
def selectorFree : Ty → Bool
  | selector _ => false
  | array elem => selectorFree elem
  | record fields => selectorFreeFields fields
  | _ => true

def selectorFreeFields : List (String × Ty) → Bool
  | [] => true
  | (_, t) :: rest => selectorFree t && selectorFreeFields rest

end

mutual

/-- The type with every field name left out. -/
def unnamed : Ty → Ty
  | array elem => array (unnamed elem)
  | record fields => record (unnamedFields fields)
  | t => t

def unnamedFields : List (String × Ty) → List (String × Ty)
  | [] => []
  | (_, t) :: rest => ("", unnamed t) :: unnamedFields rest

end

/-! ## What a type takes -/

theorem eq_null_of_takes_nothing {a b : Ty} (ha : a = null ∨ ∃ name, a = selector name)
    (h : a.assignable b = true) : b = null := by
  rcases ha with rfl | ⟨name, rfl⟩ <;> cases b <;> first | rfl | simp [assignable] at h

/-- An array takes arrays, and records by their fields. -/
theorem array_assignable_iff {elem b : Ty} :
    (array elem).assignable b = true ↔ b = null ∨
      (∃ other, b = array other ∧ elem.assignable other = true) ∨
      ∃ items, b = record items ∧ ∀ item ∈ items, elem.assignable item.2 = true := by
  cases b <;> simp [assignable]

/-- A record takes records field by field. -/
theorem record_assignable_iff {fields : List (String × Ty)} {b : Ty} :
    (record fields).assignable b = true ↔ b = null ∨
      ∃ items, b = record items ∧ assignableFields fields items = true := by
  cases b <;> simp [assignable]

theorem assignableFields_cons {f : String × Ty} {fields items : List (String × Ty)} :
    assignableFields (f :: fields) items = true ↔ ∃ g others, items = g :: others ∧
      f.2.assignable g.2 = true ∧ assignableFields fields others = true := by
  cases items with
  | nil => simp [assignableFields]
  | cons g others =>
    simp only [assignableFields, Bool.and_eq_true]
    constructor
    · exact fun h => ⟨g, others, rfl, h⟩
    · rintro ⟨_, _, hg, h⟩
      cases hg
      exact h

theorem assignableFields_nil {items : List (String × Ty)} :
    assignableFields [] items = true ↔ items = [] := by
  cases items <;> simp [assignableFields]

/-! ## Transitivity -/

/-- What an array takes field by field, it also takes through a record between. -/
theorem items_through {elem : Ty}
    (ih : ∀ b c, elem.assignable b = true → b.assignable c = true → elem.assignable c = true)
    {items others : List (String × Ty)} (hi : ∀ item ∈ items, elem.assignable item.2 = true)
    (ho : assignableFields items others = true) :
    ∀ other ∈ others, elem.assignable other.2 = true := by
  induction items generalizing others with
  | nil =>
    obtain rfl := assignableFields_nil.1 ho
    exact fun _ h => nomatch h
  | cons item items ihi =>
    obtain ⟨other, others, rfl, h, hrest⟩ := assignableFields_cons.1 ho
    obtain ⟨hitem, hi⟩ := List.forall_mem_cons.1 hi
    exact List.forall_mem_cons.2 ⟨ih _ _ hitem h, ihi hi hrest⟩

mutual

theorem assignable_trans : (a b c : Ty) → a.assignable b = true → b.assignable c = true →
    a.assignable c = true
  | array elem, b, c, hab, hbc => by
    have ih := assignable_trans elem
    rcases array_assignable_iff.1 hab with rfl | ⟨other, rfl, he⟩ | ⟨items, rfl, hi⟩
    -- Null takes nothing but null.
    · obtain rfl := eq_null_of_takes_nothing (.inl rfl) hbc
      exact hab
    · rcases array_assignable_iff.1 hbc with rfl | ⟨third, rfl, ho⟩ | ⟨items, rfl, ho⟩
      · rfl
      · exact array_assignable_iff.2 (.inr (.inl ⟨third, rfl, ih _ _ he ho⟩))
      · exact array_assignable_iff.2
          (.inr (.inr ⟨items, rfl, fun item hm => ih _ _ he (ho item hm)⟩))
    · rcases record_assignable_iff.1 hbc with rfl | ⟨others, rfl, ho⟩
      · rfl
      · exact array_assignable_iff.2 (.inr (.inr ⟨others, rfl, items_through ih hi ho⟩))
  | record fields, b, c, hab, hbc => by
    rcases record_assignable_iff.1 hab with rfl | ⟨items, rfl, hi⟩
    · obtain rfl := eq_null_of_takes_nothing (.inl rfl) hbc
      exact hab
    · rcases record_assignable_iff.1 hbc with rfl | ⟨others, rfl, ho⟩
      · rfl
      · exact record_assignable_iff.2
          (.inr ⟨others, rfl, assignableFields_trans fields items others hi ho⟩)
  | null, b, c, hab, hbc => by
    obtain rfl := eq_null_of_takes_nothing (.inl rfl) hab
    exact hbc
  | selector name, b, c, hab, hbc => by
    obtain rfl := eq_null_of_takes_nothing (.inr ⟨name, rfl⟩) hab
    obtain rfl := eq_null_of_takes_nothing (.inl rfl) hbc
    exact hab
  | integer, b, c, hab, hbc | real, b, c, hab, hbc | vector, b, c, hab, hbc
  | matrix, b, c, hab, hbc | text, b, c, hab, hbc => by
    cases b <;> cases c <;> simp_all [assignable]

theorem assignableFields_trans : (fields items others : List (String × Ty)) →
    assignableFields fields items = true → assignableFields items others = true →
    assignableFields fields others = true
  | [], items, others, hi, ho => by
    obtain rfl := assignableFields_nil.1 hi
    exact ho
  | (n, t) :: fields, items, others, hi, ho => by
    obtain ⟨g, items, rfl, hg, hi⟩ := assignableFields_cons.1 hi
    obtain ⟨k, others, rfl, hk, ho⟩ := assignableFields_cons.1 ho
    exact assignableFields_cons.2 ⟨k, others, rfl, assignable_trans t _ _ hg hk,
      assignableFields_trans fields items others hi ho⟩

end

/-! ## Reflexivity -/

mutual

theorem assignable_self : (a : Ty) → a.assignable a = a.selectorFree
  | integer | real | vector | matrix | text | null | selector _ => rfl
  | array elem => by
    show elem.assignable elem = elem.selectorFree
    exact assignable_self elem
  | record fields => by
    show assignableFields fields fields = selectorFreeFields fields
    exact assignableFields_self fields

theorem assignableFields_self : (fields : List (String × Ty)) →
    assignableFields fields fields = selectorFreeFields fields
  | [] => rfl
  | (n, t) :: fields => by
    rw [assignableFields, selectorFreeFields, assignable_self t, assignableFields_self fields]

end

/-! ## Antisymmetry -/

mutual

/-- Types that take each other are the same but for the names of fields. -/
theorem unnamed_eq : (a b : Ty) → a.assignable b = true → b.assignable a = true →
    a.unnamed = b.unnamed
  | array elem, b, hab, hba => by
    rcases array_assignable_iff.1 hab with rfl | ⟨other, rfl, he⟩ | ⟨items, rfl, -⟩
    · cases hba
    · rw [unnamed, unnamed, unnamed_eq elem other he hba]
    · cases hba
  | record fields, b, hab, hba => by
    rcases record_assignable_iff.1 hab with rfl | ⟨items, rfl, hi⟩
    · cases hba
    · rw [unnamed, unnamed, unnamedFields_eq fields items hi hba]
  | null, b, hab, _ => by rw [eq_null_of_takes_nothing (.inl rfl) hab]
  | selector name, b, hab, hba => by
    obtain rfl := eq_null_of_takes_nothing (.inr ⟨name, rfl⟩) hab
    cases hba
  | integer, b, hab, hba | real, b, hab, hba | vector, b, hab, hba | matrix, b, hab, hba
  | text, b, hab, hba => by
    cases b <;> first | rfl | simp [assignable] at hab hba

theorem unnamedFields_eq : (fields items : List (String × Ty)) →
    assignableFields fields items = true → assignableFields items fields = true →
    unnamedFields fields = unnamedFields items
  | [], items, hi, _ => by rw [assignableFields_nil.1 hi]
  | (n, t) :: fields, items, hi, ho => by
    obtain ⟨⟨m, u⟩, items, rfl, hu, hi⟩ := assignableFields_cons.1 hi
    obtain ⟨ht, ho⟩ := Bool.and_eq_true_iff.1 ho
    rw [unnamedFields, unnamedFields, unnamed_eq t u hu ht, unnamedFields_eq fields items hi ho]

end

/-! ## Names of fields -/

theorem all_unnamedFields (p : Ty → Bool) (fields : List (String × Ty)) :
    ((unnamedFields fields).all fun f => p f.2) = fields.all fun f => p f.2.unnamed := by
  induction fields with
  | nil => rfl
  | cons f fields ih =>
    rw [unnamedFields, List.all_cons, List.all_cons, ih]

mutual

theorem assignable_unnamed : (a b : Ty) → a.unnamed.assignable b.unnamed = a.assignable b
  | array elem, b => by
    cases b with
    | array other => exact assignable_unnamed elem other
    | record items =>
      show ((unnamedFields items).all fun f => elem.unnamed.assignable f.2) = _
      rw [all_unnamedFields]
      exact congrArg items.all (funext fun f => assignable_unnamed elem f.2)
    | _ => rfl
  | record fields, b => by
    cases b with
    | record items => exact assignableFields_unnamed fields items
    | _ => rfl
  | integer, b | real, b | vector, b | matrix, b | text, b | null, b | selector _, b => by
    cases b <;> rfl

theorem assignableFields_unnamed : (fields items : List (String × Ty)) →
    assignableFields (unnamedFields fields) (unnamedFields items) = assignableFields fields items
  | [], items => by cases items <;> rfl
  | (n, t) :: fields, [] => rfl
  | (n, t) :: fields, (m, u) :: items => by
    simp only [unnamedFields, assignableFields]
    rw [assignable_unnamed t u, assignableFields_unnamed fields items]

end

/-- A type without selectors takes whatever differs from it in the names of fields only. -/
theorem assignable_of_unnamed_eq {a b : Ty} (ha : a.selectorFree = true)
    (h : a.unnamed = b.unnamed) : a.assignable b = true := by
  rw [← assignable_unnamed, ← h, assignable_unnamed, assignable_self, ha]

/-! ## The order -/

/-- Assignability is a preorder on the types without selectors, and no type with one takes itself.
Two types take each other just if they have no selectors and are the same up to the names of
fields. -/
theorem assignable_preorder (a b c : Ty) :
    (a.assignable b = true → b.assignable c = true → a.assignable c = true) ∧
    (a.assignable a = true ↔ a.selectorFree = true) ∧
    (a.assignable b = true ∧ b.assignable a = true ↔
      a.selectorFree = true ∧ b.selectorFree = true ∧ a.unnamed = b.unnamed) := by
  refine ⟨assignable_trans a b c, by rw [assignable_self], ?_⟩
  constructor
  · rintro ⟨hab, hba⟩
    have ha : a.assignable a = true := assignable_trans a b a hab hba
    have hb : b.assignable b = true := assignable_trans b a b hba hab
    rw [assignable_self] at ha hb
    exact ⟨ha, hb, unnamed_eq a b hab hba⟩
  · rintro ⟨ha, hb, h⟩
    exact ⟨assignable_of_unnamed_eq ha h, assignable_of_unnamed_eq hb h.symm⟩

/-- Reals in an array, through the literal of an integer and a real, from one of null and an
integer. -/
theorem assignable_preorder_literals :
    (array real).assignable (ofList [integer, real]) = true ∧
      (ofList [integer, real]).assignable (ofList [null, integer]) = true ∧
      (array real).assignable (ofList [null, integer]) = true := by
  have outer : (array real).assignable (ofList [integer, real]) = true := by decide
  have inner : (ofList [integer, real]).assignable (ofList [null, integer]) = true := by decide
  exact ⟨outer, inner, (assignable_preorder _ _ _).1 outer inner⟩

end Ty

end VectorScript
