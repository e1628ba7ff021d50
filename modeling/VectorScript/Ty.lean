/-!
# Types

The static types of the language: five base types, arrays and records of types, the type of the
empty list, and a pseudo-type that names a record field while a member is looked up. `assignable`
says which values may be stored where a type is expected: integers widen to reals, a list literal
(a record of its items) may become an array or a record, and the empty list resets anything.

Equality counts field names, assignability does not.
-/

namespace VectorScript

/-! ## Base types -/

/-- The types that operators work on. -/
inductive Base
  | integer | real | vector | matrix | text
  deriving DecidableEq, Repr

namespace Base

def index : Base → Nat
  | integer => 0
  | real => 1
  | vector => 2
  | matrix => 3
  | text => 4

def letter : Base → String
  | integer => "I"
  | real => "R"
  | vector => "V"
  | matrix => "M"
  | text => "T"

def ofIndex? : Nat → Option Base
  | 0 => some integer
  | 1 => some real
  | 2 => some vector
  | 3 => some matrix
  | 4 => some text
  | _ => none

/-- Every base type, in the order of its index. -/
def all : List Base := [integer, real, vector, matrix, text]

theorem mem_all (b : Base) : b ∈ all := by cases b <;> decide

theorem ofIndex?_index (b : Base) : ofIndex? b.index = some b := by cases b <;> rfl

theorem index_lt (b : Base) : b.index < 5 := by cases b <;> decide

end Base

/-- The base types of a left and a right operand. -/
structure OperandPair where
  left : Base
  right : Base
  deriving DecidableEq, Repr

namespace OperandPair

/-- Place in the five by five table of operand types. -/
def index (p : OperandPair) : Nat := p.left.index * 5 + p.right.index

def ofIndex? (n : Nat) : Option OperandPair :=
  match Base.ofIndex? (n / 5), Base.ofIndex? (n % 5) with
  | some left, some right => some ⟨left, right⟩
  | _, _ => none

def render (p : OperandPair) : String := p.left.letter ++ p.right.letter

theorem ofIndex?_index (p : OperandPair) : ofIndex? p.index = some p := by
  obtain ⟨l, r⟩ := p
  cases l <;> cases r <;> rfl

theorem index_lt (p : OperandPair) : p.index < 25 := by
  have := p.left.index_lt
  have := p.right.index_lt
  unfold index
  omega

end OperandPair

/-! ## Types -/

inductive Ty
  | integer | real | vector | matrix | text
  | array (elem : Ty)
  | record (fields : List (String × Ty))
  /-- The type of the empty list. -/
  | null
  /-- Names a record field. -/
  | selector (name : String)
  deriving Inhabited, Repr

namespace Ty

/-- The base type, if the type is one. -/
def base? : Ty → Option Base
  | integer => some .integer
  | real => some .real
  | vector => some .vector
  | matrix => some .matrix
  | text => some .text
  | _ => none

def isBase (t : Ty) : Bool := t.base?.isSome

def isNumeric : Ty → Bool
  | integer | real => true
  | _ => false

/-- The type reached by an index. -/
def element? : Ty → Option Ty
  | vector => some real
  | matrix => some vector
  | array elem => some elem
  | _ => none

/-- The record of a list literal; its fields are named by their places. -/
def ofList (types : List Ty) : Ty := record (types.zipIdx.map fun (t, i) => (toString i, t))

/-- The place and type of the first field with a name. -/
def findField? (name : String) : List (String × Ty) → Option (Nat × Ty)
  | [] => none
  | (n, t) :: rest =>
    if n = name then some (0, t) else (findField? name rest).map fun (i, t) => (i + 1, t)

/-- The place and type of a record's field. -/
def field? (name : String) : Ty → Option (Nat × Ty)
  | record fields => findField? name fields
  | _ => none

/-- The operand types of an operator, if both operands have a base type. -/
def pair? (left right : Ty) : Option OperandPair :=
  match left.base?, right.base? with
  | some l, some r => some ⟨l, r⟩
  | _, _ => none

/-! ## Equality -/

mutual

def same : Ty → Ty → Bool
  | integer, integer | real, real | vector, vector | matrix, matrix | text, text
  | null, null => true
  | array a, array b => same a b
  | record fs, record gs => sameFields fs gs
  | selector m, selector n => m = n
  | _, _ => false

def sameFields : List (String × Ty) → List (String × Ty) → Bool
  | [], [] => true
  | (m, a) :: fs, (n, b) :: gs => m = n && same a b && sameFields fs gs
  | _, _ => false

end

mutual

theorem eq_of_same : (a b : Ty) → same a b = true → a = b
  | integer, b, h | real, b, h | vector, b, h | matrix, b, h | text, b, h | null, b, h
  | selector n, b, h => by cases b <;> simp_all [same]
  | array a, b, h => by
    cases b <;> simp_all [same]
    exact eq_of_same _ _ h
  | record a, b, h => by
    cases b <;> simp_all [same]
    exact eq_of_sameFields _ _ h

theorem eq_of_sameFields : (a b : List (String × Ty)) → sameFields a b = true → a = b
  | [], b, h => by cases b <;> simp_all [sameFields]
  | (n, t) :: fs, [], h => by simp [sameFields] at h
  | (n, t) :: fs, (m, u) :: gs, h => by
    simp only [sameFields, Bool.and_eq_true, decide_eq_true_eq] at h
    rw [h.1.1, eq_of_same t u h.1.2, eq_of_sameFields fs gs h.2]

end

mutual

theorem same_self : (a : Ty) → same a a = true
  | integer | real | vector | matrix | text | null | selector _ => by simp [same]
  | array a => by simp [same, same_self a]
  | record fs => by simp [same, sameFields_self fs]

theorem sameFields_self : (a : List (String × Ty)) → sameFields a a = true
  | [] => by simp [sameFields]
  | (n, t) :: fs => by simp [sameFields, same_self t, sameFields_self fs]

end

instance : DecidableEq Ty := fun a b =>
  if h : same a b then isTrue (eq_of_same a b h) else isFalse fun e => h (e ▸ same_self a)

/-! ## Assignability -/

mutual

/-- Whether a value of the source type may be stored where the target type is expected. -/
def assignable : (target source : Ty) → Bool
  | _, null => true
  | integer, integer => true
  | real, integer | real, real => true
  | vector, vector => true
  | matrix, matrix => true
  | text, text => true
  | array elem, array other => assignable elem other
  | array elem, record items => items.all fun item => assignable elem item.2
  | record fields, record items => assignableFields fields items
  | _, _ => false

/-- Records are compared place by place. -/
def assignableFields : (fields items : List (String × Ty)) → Bool
  | [], [] => true
  | (_, t) :: fields, (_, s) :: items => assignable t s && assignableFields fields items
  | _, _ => false

end

/-! ## Text -/

mutual

def render : Ty → String
  | integer => "Natural"
  | real => "Real"
  | vector => "Vector"
  | matrix => "Matrix"
  | text => "Text"
  | array elem => render elem ++ "[]"
  | record fields => "record(" ++ ", ".intercalate (renderFields fields) ++ ")"
  | null => "null"
  | selector name => "." ++ name

/-- Every field after its type. -/
def renderFields : List (String × Ty) → List String
  | [] => []
  | (name, t) :: rest => (render t ++ " " ++ name) :: renderFields rest

end

end Ty

end VectorScript
