import VectorScript.Proofs.Operation.Kernel
import VectorScript.Proofs.Operation.Widening

/-!
# The rules of operations and their kernels

The rules that the compiler applies to operand types and the tables of kernels that the machine
looks operations up in agree. An operation passes its rule exactly if there is a kernel for the
types of its operands, and the kernel gives a value of the type that the rules say, and fails
exactly on a division by zero and on an index that is not a component.

    op.check l r = .ok () ↔ (table? op l r).isSome = true                            (check_iff)
-/

namespace VectorScript

/-- The integer zero, or one of the two real ones. -/
def Value.IsZero : Value → Prop
  | .integer n => n = 0
  | .real x => x = 0 ∨ x = -0
  | _ => False

namespace Kernel

/-! ## The tables -/

/-- The kernel of an operation; one with a single operand leaves the other operand out. -/
def kernel? (op : Operation) (pair : OperandPair) : Option (Value → Value → Except Fault Value) :=
  if op.isUnary then (unary? op.opcode pair).map fun kernel a _ => kernel a
  else binary? op.opcode pair

/-- The kernel of an operation on operands of these types. -/
def table? (op : Operation) (l r : Ty) : Option (Value → Value → Except Fault Value) :=
  (Ty.pair? l r).bind (kernel? op)

variable {op : Operation} {l r : Ty}

/-- Operands that are not both of a base type have no kernel. -/
theorem table?_eq_none (h : ¬(l.isBase = true ∧ r.isBase = true)) : table? op l r = none := by
  have hpair : Ty.pair? l r = none := by
    unfold Ty.pair?
    split
    · rename_i hl hr
      exact absurd ⟨by rw [Ty.isBase, hl]; rfl, by rw [Ty.isBase, hr]; rfl⟩ h
    · rfl
  rw [table?, hpair]
  rfl

theorem isBase_of_table? {kernel : Value → Value → Except Fault Value}
    (hk : table? op l r = some kernel) : l.isBase = true ∧ r.isBase = true := by
  apply Classical.byContradiction
  intro h
  rw [table?_eq_none h] at hk
  cases hk

/-- Only arrays are indexed that have no base type. -/
theorem isBase_of_check (hop : op ≠ .member) (htake : op = .take → ∀ t, l ≠ .array t)
    (hc : op.check l r = .ok ()) : l.isBase = true ∧ r.isBase = true := by
  by_cases ht : op = .take
  · subst ht
    have harray := htake rfl
    cases l <;> cases r <;> first
      | exact ⟨rfl, rfl⟩
      | exact absurd rfl (harray _)
      | cases hc
  · unfold Operation.check at hc
    split at hc
    · exact absurd rfl ht
    · exact absurd rfl hop
    · split at hc
      · rename_i h
        simpa using h
      · cases hc

theorem base_cases {t : Ty} (h : t.isBase = true) :
    t = .integer ∨ t = .real ∨ t = .vector ∨ t = .matrix ∨ t = .text := by
  cases t <;> first
    | (cases h; done)
    | simp

/-- On base types the rule and the tables agree, entry by entry. -/
theorem isOk_check_base (hop : op ≠ .member) (hunary : op.isUnary = true → r = l)
    (hl : l.isBase = true) (hr : r.isBase = true) :
    (op.check l r).isOk = (table? op l r).isSome := by
  rcases base_cases hl with rfl | rfl | rfl | rfl | rfl <;>
    rcases base_cases hr with rfl | rfl | rfl | rfl | rfl <;> cases op <;> first
      | rfl
      | cases hunary rfl

/-- An operation passes its rule exactly if there is a kernel for its operands. -/
theorem check_iff (hop : op ≠ .member) (hunary : op.isUnary = true → r = l)
    (htake : op = .take → ∀ t, l ≠ .array t) :
    op.check l r = .ok () ↔ (table? op l r).isSome = true := by
  by_cases hb : l.isBase = true ∧ r.isBase = true
  · rw [← isOk_check_base hop hunary hb.1 hb.2]
    cases op.check l r with
    | ok a => exact ⟨fun _ => rfl, fun _ => rfl⟩
    | error e => exact ⟨nofun, nofun⟩
  · rw [table?_eq_none hb]
    constructor
    · intro hc
      exact absurd (isBase_of_check hop htake hc) hb
    · intro h
      cases h

/-! ## Outcomes -/

/-- The integer that an operation gives on two integers, wrapped at 32 bits. -/
def wrapped? (op : Operation) (x y : Int32) : Option Int :=
  match op with
  | .add => some ((x.toInt + y.toInt).bmod (2 ^ 32))
  | .sub => some ((x.toInt - y.toInt).bmod (2 ^ 32))
  | .mul => some ((x.toInt * y.toInt).bmod (2 ^ 32))
  | .negate => some ((-x.toInt).bmod (2 ^ 32))
  | .div => some (if x = Int32.minValue ∧ y = -1 then x.toInt else x.toInt.tdiv y.toInt)
  | _ => none

/-- What the rules of an operation promise of the result of its kernel. -/
structure Agrees (op : Operation) (l r : Ty) (a b : Value) (result : Except Fault Value) :
    Prop where
  typed : ∀ v, result = .ok v → v.HasType (op.resultType l r)
  division : (∃ e, result = .error e ∧ e.cause = .divisionByZero) ↔ op = .div ∧ b.IsZero
  range : (∃ e, result = .error e ∧ e.cause = .outOfRange) ↔
    op = .take ∧ ∃ i, b = .integer i ∧ (i.toInt < 0 ∨ 3 < i.toInt)
  others : ∀ e, result = .error e → e.cause = .divisionByZero ∨ e.cause = .outOfRange
  exact : ∀ x y z n, a = .integer x → b = .integer y → result = .ok (.integer z) →
    wrapped? op x y = some n → z.toInt = n

namespace Agrees

variable {a b v : Value} {e : Fault}

theorem of_ok (hdiv : op = .div → ¬b.IsZero)
    (htake : op = .take → ∀ i, b = .integer i → 0 ≤ i.toInt ∧ i.toInt ≤ 3)
    (hv : v.HasType (op.resultType l r))
    (hn : ∀ x y z n, a = .integer x → b = .integer y → v = .integer z →
      wrapped? op x y = some n → z.toInt = n) : Agrees op l r a b (.ok v) where
  typed := by
    rintro _ ⟨⟩
    exact hv
  division := by
    constructor
    · rintro ⟨_, ⟨⟩, _⟩
    · rintro ⟨h, hb⟩
      exact absurd hb (hdiv h)
  range := by
    constructor
    · rintro ⟨_, ⟨⟩, _⟩
    · rintro ⟨h, i, hb, hi⟩
      have := htake h i hb
      omega
  others := by
    rintro _ ⟨⟩
  exact := by
    rintro x y z n ha hb ⟨⟩ h
    exact hn x y z n ha hb rfl h

theorem of_divisionByZero (hb : b.IsZero) (he : e.cause = .divisionByZero) :
    Agrees .div l r a b (.error e) where
  typed := by
    rintro _ ⟨⟩
  division := ⟨fun _ => ⟨rfl, hb⟩, fun _ => ⟨e, rfl, he⟩⟩
  range := by
    constructor
    · rintro ⟨_, ⟨⟩, h⟩
      rw [he] at h
      cases h
    · rintro ⟨⟨⟩, _⟩
  others := by
    rintro _ ⟨⟩
    exact .inl he
  exact := by
    rintro _ _ _ _ _ _ ⟨⟩

theorem of_outOfRange {i : Int32} (hi : i.toInt < 0 ∨ 3 < i.toInt) (he : e.cause = .outOfRange) :
    Agrees .take l r a (.integer i) (.error e) where
  typed := by
    rintro _ ⟨⟩
  division := by
    constructor
    · rintro ⟨_, ⟨⟩, h⟩
      rw [he] at h
      cases h
    · rintro ⟨⟨⟩, _⟩
  range := ⟨fun _ => ⟨rfl, i, rfl, hi⟩, fun _ => ⟨e, rfl, he⟩⟩
  others := by
    rintro _ ⟨⟩
    exact .inr he
  exact := by
    rintro _ _ _ _ _ _ ⟨⟩

end Agrees

variable {kernel : Value → Value → Except Fault Value} {a b : Value}

/-- The kernel of an operation other than division and indexing gives a value. -/
theorem total_of_table? (hdiv : op ≠ .div) (htake : op ≠ .take)
    (hk : table? op l r = some kernel) (ha : a.HasType l) (hb : b.HasType r) :
    ∃ v, kernel a b = .ok v ∧ v.HasType (op.resultType l r) := by
  obtain ⟨hl, hr⟩ := isBase_of_table? hk
  -- one entry of one table after the other
  rcases base_cases hl with rfl | rfl | rfl | rfl | rfl <;> cases ha <;>
    rcases base_cases hr with rfl | rfl | rfl | rfl | rfl <;> cases hb <;> cases op <;> first
      | (cases hk; done)
      | exact absurd rfl hdiv
      | exact absurd rfl htake
      | (cases hk; exact ⟨_, rfl, .integer _⟩)
      | (cases hk; exact ⟨_, rfl, .real _⟩)
      | (cases hk; exact ⟨_, rfl, .vector _⟩)
      | (cases hk; exact ⟨_, rfl, .matrix _⟩)
      | (cases hk; exact ⟨_, rfl, .text _⟩)

/-- Sums, differences, products and negations of integers are exact modulo two to the 32. -/
theorem wrapped_of_table? {x y z : Int32} {n : Int} (hdiv : op ≠ .div)
    (hk : table? op .integer .integer = some kernel)
    (hz : kernel (.integer x) (.integer y) = .ok (.integer z)) (hn : wrapped? op x y = some n) :
    z.toInt = n := by
  cases op with
  | add =>
    cases hk
    cases hz
    cases hn
    exact Int32.toInt_add x y
  | sub =>
    cases hk
    cases hz
    cases hn
    exact Int32.toInt_sub x y
  | mul =>
    cases hk
    cases hz
    cases hn
    exact Int32.toInt_mul x y
  | negate =>
    cases hk
    cases hz
    cases hn
    exact Int32.toInt_neg x
  | div => exact absurd rfl hdiv
  | _ => cases hn

/-- Division of integers truncates toward zero; its only overflow wraps around. -/
theorem toInt_div_eq (x y : Int32) :
    (x / y).toInt = if x = Int32.minValue ∧ y = -1 then x.toInt else x.toInt.tdiv y.toInt := by
  split
  · rename_i h
    obtain ⟨rfl, rfl⟩ := h
    rfl
  · rename_i h
    by_cases hx : x = Int32.minValue
    · apply Int32.toInt_div_of_ne_right
      intro hy
      exact h ⟨hx, hy⟩
    · exact Int32.toInt_div_of_ne_left x y hx

theorem agrees_divideIntegers (x y : Int32) :
    Agrees .div .integer .integer (.integer x) (.integer y)
      (divideIntegers (.integer x) (.integer y)) := by
  show Agrees _ _ _ _ _ (if y = 0 then _ else _)
  split
  · rename_i hy
    exact .of_divisionByZero hy rfl
  · rename_i hy
    refine .of_ok (fun _ => hy) nofun (.integer _) ?_
    rintro _ _ _ n ⟨⟩ ⟨⟩ ⟨⟩ ⟨⟩
    exact toInt_div_eq x y

/-- Division of two numbers of which one is real, the second one zero as `hz` says. -/
theorem agrees_divideReals {x y : Float32} (ha : a.asReal = .ok x) (hb : b.asReal = .ok y)
    (hz : (y == 0) = true ↔ b.IsZero) (hn : ∀ m n, a = .integer m → b ≠ .integer n)
    (hr : Operation.div.resultType l r = .real) : Agrees .div l r a b (divideReals a b) := by
  unfold divideReals
  rw [ha, hb]
  show Agrees _ _ _ _ _ (if (y == 0) = true then _ else _)
  split
  · rename_i hy
    exact .of_divisionByZero (hz.mp hy) rfl
  · rename_i hy
    refine .of_ok (fun _ h => hy (hz.mpr h)) nofun ?_ ?_
    · rw [hr]
      exact .real _
    · intro m n _ _ hm hn'
      exact absurd hn' (hn m n hm)

/-- The table of division. -/
theorem div_of_table? (hk : table? .div l r = some kernel) :
    (l = .integer ∧ r = .integer ∧ kernel = divideIntegers) ∨
      ((l = .integer ∧ r = .real ∨ l = .real ∧ r = .integer ∨ l = .real ∧ r = .real) ∧
        kernel = divideReals) := by
  obtain ⟨hl, hr⟩ := isBase_of_table? hk
  rcases base_cases hl with rfl | rfl | rfl | rfl | rfl <;>
    rcases base_cases hr with rfl | rfl | rfl | rfl | rfl <;> cases hk <;> simp

theorem agrees_div (hk : table? .div l r = some kernel) (ha : a.HasType l) (hb : b.HasType r) :
    Agrees .div l r a b (kernel a b) := by
  rcases div_of_table? hk with ⟨rfl, rfl, rfl⟩ | ⟨⟨rfl, rfl⟩ | ⟨rfl, rfl⟩ | ⟨rfl, rfl⟩, rfl⟩
  · cases ha with | integer x
    cases hb with | integer y
    exact agrees_divideIntegers x y
  · cases ha with | integer x
    cases hb with | real y
    exact agrees_divideReals rfl rfl (Widening.beq_zero_iff y) (fun _ _ _ => nofun) rfl
  · cases ha with | real x
    cases hb with | integer y
    exact agrees_divideReals rfl rfl (Widening.widen_beq_zero y) (fun _ _ => nofun) rfl
  · cases ha with | real x
    cases hb with | real y
    exact agrees_divideReals rfl rfl (Widening.beq_zero_iff y) (fun _ _ => nofun) rfl

/-! ## Indexing -/

theorem component_cases (i : Int32) :
    (∃ j, component i = .ok j ∧ 0 ≤ i.toInt ∧ i.toInt ≤ 3) ∨
      ∃ e, component i = .error e ∧ e.cause = .outOfRange ∧ (i.toInt < 0 ∨ 3 < i.toInt) := by
  unfold component
  dsimp only
  split
  · rename_i h
    exact .inl ⟨_, rfl, by omega⟩
  · rename_i h
    exact .inr ⟨_, rfl, rfl, by omega⟩

/-- Indexing with the result `part` picks. -/
theorem agrees_component {i : Int32} {part : Fin 4 → Value}
    (ha : ∀ x, a ≠ .integer x) (hpart : ∀ j, (part j).HasType (Operation.take.resultType l r)) :
    Agrees .take l r a (.integer i) (component i >>= fun j => .ok (part j)) := by
  rcases component_cases i with ⟨j, hj, hi⟩ | ⟨e, he, hcause, hi⟩
  · rw [hj]
    refine .of_ok nofun ?_ (hpart j) ?_
    · rintro _ _ ⟨⟩
      exact hi
    · intro x _ _ _ hx
      exact absurd hx (ha x)
  · rw [he]
    exact .of_outOfRange hi hcause

/-- The table of indexing. -/
theorem take_of_table? (hk : table? .take l r = some kernel) :
    r = .integer ∧ (l = .vector ∧ kernel = takeComponent ∨ l = .matrix ∧ kernel = takeColumn) := by
  obtain ⟨hl, hr⟩ := isBase_of_table? hk
  rcases base_cases hl with rfl | rfl | rfl | rfl | rfl <;>
    rcases base_cases hr with rfl | rfl | rfl | rfl | rfl <;> cases hk <;> simp

theorem agrees_take (hk : table? .take l r = some kernel) (ha : a.HasType l) (hb : b.HasType r) :
    Agrees .take l r a b (kernel a b) := by
  obtain ⟨rfl, ⟨rfl, rfl⟩ | ⟨rfl, rfl⟩⟩ := take_of_table? hk
  · cases ha with | vector v
    cases hb with | integer i
    exact agrees_component (fun _ => nofun) fun j => .real (v.get j)
  · cases ha with | matrix m
    cases hb with | integer i
    exact agrees_component (fun _ => nofun) fun j => .vector (m.get j)

/-! ## Every operation -/

theorem agrees_of_table? (hk : table? op l r = some kernel) (ha : a.HasType l) (hb : b.HasType r) :
    Agrees op l r a b (kernel a b) := by
  by_cases hdiv : op = .div
  · subst hdiv
    exact agrees_div hk ha hb
  by_cases htake : op = .take
  · subst htake
    exact agrees_take hk ha hb
  obtain ⟨v, hv, htype⟩ := total_of_table? hdiv htake hk ha hb
  rw [hv]
  refine .of_ok (absurd · hdiv) (absurd · htake) htype ?_
  rintro x y z n rfl rfl rfl hn
  cases ha with | integer
  cases hb with | integer
  exact wrapped_of_table? hdiv hk hv hn

/-- The rules of an operation and its kernels agree: the operand types pass the rule exactly if
there is a kernel for them, and the kernel gives what the rules promise. -/
theorem check_agrees (op : Operation) (l r : Ty) (hop : op ≠ .member)
    (hunary : op.isUnary = true → r = l) (htake : op = .take → ∀ t, l ≠ .array t) :
    (op.check l r = .ok () ↔ ∃ kernel, table? op l r = some kernel) ∧
      ∀ kernel, table? op l r = some kernel → ∀ a b : Value, a.HasType l → b.HasType r →
        Agrees op l r a b (kernel a b) := by
  constructor
  · rw [check_iff hop hunary htake, Option.isSome_iff_exists]
  · intro kernel hk a b ha hb
    exact agrees_of_table? hk ha hb

/-- One divided by the integer zero, as a real. -/
theorem check_agrees_division :
    (Operation.div.check .real .integer = .ok () ↔
        ∃ kernel, table? .div .real .integer = some kernel) ∧
      Agrees .div .real .integer (.real 1) (.integer 0) (divideReals (.real 1) (.integer 0)) :=
  have h := check_agrees .div .real .integer nofun nofun nofun
  ⟨h.1, h.2 divideReals rfl (.real 1) (.integer 0) (.real 1) (.integer 0)⟩

end Kernel

end VectorScript
