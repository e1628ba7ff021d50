import VectorScript.Operation.Typing
import VectorScript.Proofs.Store.Cell
import VectorScript.Proofs.Tree.Typing
import VectorScript.Proofs.Tree.Evaluation

/-!
# Operations keep their types

An operation that the type rules accept has a kernel for the operand types, and the kernel gives a
value of the type that the rules say, or fails on the values: a division by zero, an index out of
range. It never meets a value of another type.

    op.check s t = .ok () → a.HasType s → b.HasType t →
      Yields (·.HasType (op.resultType s t)) (Kernel.binary op.opcode … a b)      (yields_binary)
-/

namespace VectorScript

/-! ## Faults of well typed scripts -/

/-- What a well typed script may run into. -/
def Cause.isDynamic : Cause → Bool
  | divisionByZero | outOfRange | noValue | outOfBounds | dispatchNotFound | cyclicDispatch
  | compilationFailed | hostFailure => true
  | _ => false

/-- The result is as it should be, or there is a fault that a well typed script may run into. -/
def Yields {α : Type} (P : α → Prop) : Except Fault α → Prop
  | .ok a => P a
  | .error e => e.cause.isDynamic = true

/-- There is a result, or a fault that a well typed script may run into. -/
abbrev Proceeds {α : Type} (x : Except Fault α) : Prop := Yields (fun _ => True) x

namespace Yields

variable {α β : Type} {P : α → Prop} {Q : β → Prop}

theorem bind {x : Except Fault α} {f : α → Except Fault β} (hx : Yields P x)
    (hf : ∀ a, P a → Yields Q (f a)) : Yields Q (x >>= f) := by
  cases x with
  | ok a => exact hf a hx
  | error e => exact hx

theorem map {x : Except Fault α} {f : α → β} (hx : Yields P x) (hf : ∀ a, P a → Q (f a)) :
    Yields Q (x.map f) := by
  cases x with
  | ok a => exact hf a hx
  | error e => exact hx

end Yields

/-! ## Views -/

namespace Value

theorem asInteger_eq {v : Value} (h : v.HasType .integer) : ∃ n, v.asInteger = .ok n := by
  cases h with
  | integer n => exact ⟨n, rfl⟩

theorem asReal_eq {v : Value} {t : Ty} (h : v.HasType t) (ht : t.isNumeric = true) :
    ∃ x, v.asReal = .ok x := by
  cases h with
  | integer n => exact ⟨_, rfl⟩
  | real x => exact ⟨x, rfl⟩
  | _ => cases ht

theorem asVector_eq {v : Value} (h : v.HasType .vector) : ∃ x, v.asVector = .ok x := by
  cases h with
  | vector x => exact ⟨x, rfl⟩

theorem asMatrix_eq {v : Value} (h : v.HasType .matrix) : ∃ m, v.asMatrix = .ok m := by
  cases h with
  | matrix m => exact ⟨m, rfl⟩

theorem asText_eq {v : Value} (h : v.HasType .text) : ∃ s, v.asText = .ok s := by
  cases h with
  | text s => exact ⟨s, rfl⟩

end Value

namespace Kernel

/-! ## Kernels on two operands -/

/-- On operands of the types the kernel gives a value of the result type. -/
def Accepts (kernel : Value → Value → Except Fault Value) (s t r : Ty) : Prop :=
  ∀ a b : Value, a.HasType s → b.HasType t → Yields (·.HasType r) (kernel a b)

variable {s t r : Ty}

theorem accepts_integers {f : Int32 → Int32 → Value} (hf : ∀ x y, (f x y).HasType r) :
    Accepts (integers f) .integer .integer r := by
  intro a b ha hb
  obtain ⟨x, hx⟩ := Value.asInteger_eq ha
  obtain ⟨y, hy⟩ := Value.asInteger_eq hb
  unfold integers
  rw [hx, hy]
  exact hf x y

theorem accepts_reals {f : Float32 → Float32 → Value} (hf : ∀ x y, (f x y).HasType r)
    (hs : s.isNumeric = true) (ht : t.isNumeric = true) : Accepts (reals f) s t r := by
  intro a b ha hb
  obtain ⟨x, hx⟩ := Value.asReal_eq ha hs
  obtain ⟨y, hy⟩ := Value.asReal_eq hb ht
  unfold reals
  rw [hx, hy]
  exact hf x y

theorem accepts_vectors {f : Vec4 → Vec4 → Value} (hf : ∀ x y, (f x y).HasType r) :
    Accepts (vectors f) .vector .vector r := by
  intro a b ha hb
  obtain ⟨x, hx⟩ := Value.asVector_eq ha
  obtain ⟨y, hy⟩ := Value.asVector_eq hb
  unfold vectors
  rw [hx, hy]
  exact hf x y

theorem accepts_matrices {f : Mat4 → Mat4 → Value} (hf : ∀ x y, (f x y).HasType r) :
    Accepts (matrices f) .matrix .matrix r := by
  intro a b ha hb
  obtain ⟨x, hx⟩ := Value.asMatrix_eq ha
  obtain ⟨y, hy⟩ := Value.asMatrix_eq hb
  unfold matrices
  rw [hx, hy]
  exact hf x y

theorem accepts_texts {f : String → String → Value} (hf : ∀ x y, (f x y).HasType r) :
    Accepts (texts f) .text .text r := by
  intro a b ha hb
  obtain ⟨x, hx⟩ := Value.asText_eq ha
  obtain ⟨y, hy⟩ := Value.asText_eq hb
  unfold texts
  rw [hx, hy]
  exact hf x y

theorem accepts_divideIntegers : Accepts divideIntegers .integer .integer .integer := by
  intro a b ha hb
  obtain ⟨x, hx⟩ := Value.asInteger_eq ha
  obtain ⟨y, hy⟩ := Value.asInteger_eq hb
  unfold divideIntegers
  rw [hx, hy]
  show Yields _ (if y = 0 then _ else _)
  split
  · exact rfl
  · exact .integer _

theorem accepts_divideReals (hs : s.isNumeric = true) (ht : t.isNumeric = true) :
    Accepts divideReals s t .real := by
  intro a b ha hb
  obtain ⟨x, hx⟩ := Value.asReal_eq ha hs
  obtain ⟨y, hy⟩ := Value.asReal_eq hb ht
  unfold divideReals
  rw [hx, hy]
  show Yields _ (if (y == 0) = true then _ else _)
  split
  · exact rfl
  · exact .real _

theorem accepts_scaleVector (hs : s.isNumeric = true) : Accepts scaleVector s .vector .vector := by
  intro a b ha hb
  obtain ⟨x, hx⟩ := Value.asReal_eq ha hs
  obtain ⟨y, hy⟩ := Value.asVector_eq hb
  unfold scaleVector
  rw [hx, hy]
  exact .vector _

theorem accepts_scaleMatrix (hs : s.isNumeric = true) : Accepts scaleMatrix s .matrix .matrix := by
  intro a b ha hb
  obtain ⟨x, hx⟩ := Value.asReal_eq ha hs
  obtain ⟨y, hy⟩ := Value.asMatrix_eq hb
  unfold scaleMatrix
  rw [hx, hy]
  exact .matrix _

theorem accepts_vectorScaled (ht : t.isNumeric = true) :
    Accepts vectorScaled .vector t .vector := by
  intro a b ha hb
  obtain ⟨x, hx⟩ := Value.asVector_eq ha
  obtain ⟨y, hy⟩ := Value.asReal_eq hb ht
  unfold vectorScaled
  rw [hx, hy]
  exact .vector _

theorem accepts_matrixScaled (ht : t.isNumeric = true) :
    Accepts matrixScaled .matrix t .matrix := by
  intro a b ha hb
  obtain ⟨x, hx⟩ := Value.asMatrix_eq ha
  obtain ⟨y, hy⟩ := Value.asReal_eq hb ht
  unfold matrixScaled
  rw [hx, hy]
  exact .matrix _

theorem accepts_transformVector : Accepts transformVector .matrix .vector .vector := by
  intro a b ha hb
  obtain ⟨x, hx⟩ := Value.asMatrix_eq ha
  obtain ⟨y, hy⟩ := Value.asVector_eq hb
  unfold transformVector
  rw [hx, hy]
  exact .vector _

theorem yields_component (i : Int32) : Proceeds (component i) := by
  unfold component
  dsimp only
  split
  · trivial
  · rfl

theorem accepts_takeComponent : Accepts takeComponent .vector .integer .real := by
  intro a b ha hb
  obtain ⟨x, hx⟩ := Value.asVector_eq ha
  obtain ⟨y, hy⟩ := Value.asInteger_eq hb
  unfold takeComponent
  rw [hx, hy]
  exact (yields_component y).bind fun i _ => .real _

theorem accepts_takeColumn : Accepts takeColumn .matrix .integer .vector := by
  intro a b ha hb
  obtain ⟨x, hx⟩ := Value.asMatrix_eq ha
  obtain ⟨y, hy⟩ := Value.asInteger_eq hb
  unfold takeColumn
  rw [hx, hy]
  exact (yields_component y).bind fun i _ => .vector _

/-! ## Operations -/

/-- The opcode has a kernel for the types, and it accepts them. -/
def Offers (op : Opcode) (s t r : Ty) : Prop :=
  ∃ kernel, binary? op (Expr.tag (Ty.pair? s t)) = some kernel ∧ Accepts kernel s t r

theorem hasType_truth (b : Bool) : (truth b).HasType .integer := .integer _

theorem offers_numbers {op : Opcode} {f : Int32 → Int32 → Value} {g : Float32 → Float32 → Value}
    (hop : ∀ pair, binary? op pair = numbers (integers f) (reals g) pair)
    (hf : ∀ x y, (f x y).HasType .integer) (hg : ∀ x y, (g x y).HasType .integer)
    (hs : s.isNumeric = true) (ht : t.isNumeric = true) : Offers op s t .integer := by
  have h := hop (Expr.tag (Ty.pair? s t))
  cases s <;> first
    | (cases hs; done)
    | cases t <;> first
      | (cases ht; done)
      | exact ⟨_, h, accepts_integers hf⟩
      | exact ⟨_, h, accepts_reals hg rfl rfl⟩

theorem offers_add (hc : Operation.add.check s t = .ok ()) :
    Offers .add s t (Operation.add.resultType s t) := by
  cases s <;> cases t <;> first
    | (cases hc; done)
    | exact ⟨_, rfl, accepts_integers fun _ _ => .integer _⟩
    | exact ⟨_, rfl, accepts_reals (fun _ _ => .real _) rfl rfl⟩
    | exact ⟨_, rfl, accepts_vectors fun _ _ => .vector _⟩
    | exact ⟨_, rfl, accepts_matrices fun _ _ => .matrix _⟩
    | exact ⟨_, rfl, accepts_texts fun _ _ => .text _⟩

theorem offers_sub (hc : Operation.sub.check s t = .ok ()) :
    Offers .sub s t (Operation.sub.resultType s t) := by
  cases s <;> cases t <;> first
    | (cases hc; done)
    | exact ⟨_, rfl, accepts_integers fun _ _ => .integer _⟩
    | exact ⟨_, rfl, accepts_reals (fun _ _ => .real _) rfl rfl⟩
    | exact ⟨_, rfl, accepts_vectors fun _ _ => .vector _⟩
    | exact ⟨_, rfl, accepts_matrices fun _ _ => .matrix _⟩

theorem offers_mul (hc : Operation.mul.check s t = .ok ()) :
    Offers .mul s t (Operation.mul.resultType s t) := by
  cases s <;> cases t <;> first
    | (cases hc; done)
    | exact ⟨_, rfl, accepts_integers fun _ _ => .integer _⟩
    | exact ⟨_, rfl, accepts_reals (fun _ _ => .real _) rfl rfl⟩
    | exact ⟨_, rfl, accepts_scaleVector rfl⟩
    | exact ⟨_, rfl, accepts_scaleMatrix rfl⟩
    | exact ⟨_, rfl, accepts_vectorScaled rfl⟩
    | exact ⟨_, rfl, accepts_matrixScaled rfl⟩
    | exact ⟨_, rfl, accepts_transformVector⟩
    | exact ⟨_, rfl, accepts_matrices fun _ _ => .matrix _⟩

theorem offers_div (hc : Operation.div.check s t = .ok ()) :
    Offers .div s t (Operation.div.resultType s t) := by
  cases s <;> cases t <;> first
    | (cases hc; done)
    | exact ⟨_, rfl, accepts_divideIntegers⟩
    | exact ⟨_, rfl, accepts_divideReals rfl rfl⟩

theorem offers_equal {op : Opcode} {wanted : Bool}
    (hop : ∀ pair, binary? op pair = equal? wanted pair) {rule : Operation}
    (hrule : rule = .equal ∨ rule = .notEqual) (hc : rule.check s t = .ok ()) :
    Offers op s t .integer := by
  have h := hop (Expr.tag (Ty.pair? s t))
  rcases hrule with rfl | rfl <;> cases s <;> cases t <;> first
    | (cases hc; done)
    | exact ⟨_, h, accepts_integers fun _ _ => hasType_truth _⟩
    | exact ⟨_, h, accepts_reals (fun _ _ => hasType_truth _) rfl rfl⟩
    | exact ⟨_, h, accepts_vectors fun _ _ => hasType_truth _⟩
    | exact ⟨_, h, accepts_matrices fun _ _ => hasType_truth _⟩
    | exact ⟨_, h, accepts_texts fun _ _ => hasType_truth _⟩

theorem offers_integersOnly {op : Opcode} {f : Int32 → Int32 → Value}
    (hop : ∀ pair, binary? op pair = integersOnly? f pair) (hf : ∀ x y, (f x y).HasType .integer)
    (h : s = .integer ∧ t = .integer) : Offers op s t .integer := by
  obtain ⟨rfl, rfl⟩ := h
  exact ⟨_, hop _, accepts_integers hf⟩

/-- The rule of a comparison asks for two numbers. -/
theorem isNumeric_of_check {op : Operation} (hop : op = .less ∨ op = .greater ∨ op = .lessEq ∨
    op = .greaterEq) (hc : op.check s t = .ok ()) : s.isNumeric = true ∧ t.isNumeric = true := by
  rcases hop with rfl | rfl | rfl | rfl <;> cases s <;> cases t <;> first
    | (cases hc; done)
    | exact ⟨rfl, rfl⟩

/-- The rule of an operation on conditions and bits asks for two integers. -/
theorem integers_of_check {op : Operation} (hop : op = .and ∨ op = .or ∨ op = .bitAnd ∨
    op = .bitOr) (hc : op.check s t = .ok ()) : s = .integer ∧ t = .integer := by
  rcases hop with rfl | rfl | rfl | rfl <;> cases s <;> cases t <;> first
    | (cases hc; done)
    | exact ⟨rfl, rfl⟩

/-- Every infix operation that the rules accept has a kernel that accepts the operands. -/
theorem offers_infix {op : Operation} (hop : op.isInfix = true) (hc : op.check s t = .ok ()) :
    Offers op.opcode s t (op.resultType s t) := by
  cases op with
  | add => exact offers_add hc
  | sub => exact offers_sub hc
  | mul => exact offers_mul hc
  | div => exact offers_div hc
  | less | greater | lessEq | greaterEq =>
    obtain ⟨hs, ht⟩ := isNumeric_of_check (by simp) hc
    exact offers_numbers (fun _ => rfl) (fun _ _ => hasType_truth _) (fun _ _ => hasType_truth _)
      hs ht
  | equal => exact offers_equal (fun _ => rfl) (.inl rfl) hc
  | notEqual => exact offers_equal (fun _ => rfl) (.inr rfl) hc
  | and | or =>
    have h := integers_of_check (by simp) hc
    exact offers_integersOnly (fun _ => rfl) (fun _ _ => hasType_truth _) h
  | bitAnd | bitOr =>
    have h := integers_of_check (by simp) hc
    exact offers_integersOnly (fun _ => rfl) (fun _ _ => .integer _) h
  | negate | sign | not | take | member => cases hop

theorem offers_take (hs : s = .vector ∨ s = .matrix) :
    Offers .take s .integer (Operation.take.resultType s .integer) := by
  rcases hs with rfl | rfl
  · exact ⟨_, rfl, accepts_takeComponent⟩
  · exact ⟨_, rfl, accepts_takeColumn⟩

/-- A kernel that accepts the operands gives a value of the result type. -/
theorem Offers.yields {op : Opcode} (h : Offers op s t r) {a b : Value} (ha : a.HasType s)
    (hb : b.HasType t) :
    Yields (·.HasType r) (binary op (Expr.tag (Ty.pair? s t)) a b) := by
  obtain ⟨kernel, hk, haccepts⟩ := h
  unfold binary
  rw [hk]
  exact haccepts a b ha hb

/-! ## One operand -/

/-- A unary operation that the rules accept gives a value of the result type. -/
theorem yields_unary {op : Operation} (hop : op.isUnary = true) (hc : op.check t t = .ok ())
    {v : Value} (hv : v.HasType t) :
    Yields (·.HasType (op.resultType t t)) (unary op.opcode (Expr.tag (Ty.pair? t t)) v) := by
  cases op with
  | negate =>
    cases hv <;> first
      | (cases hc; done)
      | exact .integer _
      | exact .real _
      | exact .vector _
      | exact .matrix _
  | sign =>
    cases hv <;> first
      | (cases hc; done)
      | exact .integer _
      | exact .real _
      | exact .vector _
      | exact .matrix _
  | not =>
    cases hv <;> first
      | (cases hc; done)
      | exact hasType_truth _
  | _ => cases hop

end Kernel

end VectorScript
