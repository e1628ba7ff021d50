import VectorScript.Host.Library
import VectorScript.Operation.Kernel
import VectorScript.Store.Memory

/-!
# Faults that show late

What fails on values fails with a fault that only a running script meets: a value of another kind, a
division by zero, an index out of bounds. That is so of all values, whether or not a compiler would have
let them through.

    FailsLate (Kernel.binary op pair a b)                                     (failsLate_binary)
    FailsLate (c.set v path).1                                                   (failsLate_set)
    ∀ f ∈ Library.functions, f.Late                                               (late_library)
-/

namespace VectorScript

/-- There is a result, or a fault that arises only when a script runs. -/
def FailsLate {α : Type} (x : Except Fault α) : Prop := ∀ e, x = .error e → e.isRuntime = true

namespace FailsLate

variable {α β : Type}

theorem ok (a : α) : FailsLate (.ok a : Except Fault α) := fun _ h => nomatch h

theorem error {e : Fault} (he : e.isRuntime = true) : FailsLate (.error e : Except Fault α) := by
  rintro _ ⟨⟩
  exact he

theorem bind {x : Except Fault α} {f : α → Except Fault β} (hx : FailsLate x)
    (hf : ∀ a, FailsLate (f a)) : FailsLate (x >>= f) := by
  cases x with
  | ok a => exact hf a
  | error e => exact error (hx e rfl)

theorem map {x : Except Fault α} (hx : FailsLate x) (f : α → β) : FailsLate (x.map f) := by
  cases x with
  | ok a => exact ok (f a)
  | error e => exact error (hx e rfl)

theorem mapM {f : α → Except Fault β} (hf : ∀ a, FailsLate (f a)) (as : List α) :
    FailsLate (as.mapM f) := by
  induction as with
  | nil => exact ok []
  | cons a as ih =>
    rw [List.mapM_cons]
    exact (hf a).bind fun b => ih.bind fun bs => ok (b :: bs)

end FailsLate

/-! ## Views -/

namespace Value

variable (v : Value)

theorem failsLate_asInteger : FailsLate v.asInteger := by
  cases v with
  | integer n => exact .ok n
  | _ => exact .error rfl

theorem failsLate_asReal : FailsLate v.asReal := by
  cases v with
  | integer n => exact .ok _
  | real x => exact .ok x
  | _ => exact .error rfl

theorem failsLate_asVector : FailsLate v.asVector := by
  cases v with
  | vector x => exact .ok x
  | _ => exact .error rfl

theorem failsLate_asMatrix : FailsLate v.asMatrix := by
  cases v with
  | matrix m => exact .ok m
  | _ => exact .error rfl

theorem failsLate_asText : FailsLate v.asText := by
  cases v with
  | text s => exact .ok s
  | _ => exact .error rfl

theorem failsLate_asList : FailsLate v.asList := by
  cases v with
  | list items => exact .ok items
  | _ => exact .error rfl

end Value

open Value

/-! ## Kernels -/

namespace Kernel

/-- Whatever it is given, the kernel fails late. -/
def Late (kernel : Value → Value → Except Fault Value) : Prop := ∀ a b, FailsLate (kernel a b)

/-- A kernel that looks at its operands one after the other. -/
theorem late_views {α β : Type} {first : Value → Except Fault α} {second : Value → Except Fault β}
    (hfirst : ∀ v, FailsLate (first v)) (hsecond : ∀ v, FailsLate (second v)) (f : α → β → Value) :
    Late fun a b => do return f (← first a) (← second b) :=
  fun a b => (hfirst a).bind fun _ => (hsecond b).bind fun _ => .ok _

theorem late_integers (f : Int32 → Int32 → Value) : Late (integers f) :=
  late_views failsLate_asInteger failsLate_asInteger f

theorem late_reals (f : Float32 → Float32 → Value) : Late (reals f) :=
  late_views failsLate_asReal failsLate_asReal f

theorem late_vectors (f : Vec4 → Vec4 → Value) : Late (vectors f) :=
  late_views failsLate_asVector failsLate_asVector f

theorem late_matrices (f : Mat4 → Mat4 → Value) : Late (matrices f) :=
  late_views failsLate_asMatrix failsLate_asMatrix f

theorem late_texts (f : String → String → Value) : Late (texts f) :=
  late_views failsLate_asText failsLate_asText f

theorem late_scaleVector : Late scaleVector := late_views failsLate_asReal failsLate_asVector _

theorem late_scaleMatrix : Late scaleMatrix := late_views failsLate_asReal failsLate_asMatrix _

theorem late_vectorScaled : Late vectorScaled := late_views failsLate_asVector failsLate_asReal _

theorem late_matrixScaled : Late matrixScaled := late_views failsLate_asMatrix failsLate_asReal _

theorem late_transformVector : Late transformVector :=
  late_views failsLate_asMatrix failsLate_asVector _

theorem late_divideIntegers : Late divideIntegers := by
  refine fun a b => (failsLate_asInteger a).bind fun x => (failsLate_asInteger b).bind fun y => ?_
  split
  · exact .error rfl
  · exact .ok _

theorem late_divideReals : Late divideReals := by
  refine fun a b => (failsLate_asReal a).bind fun x => (failsLate_asReal b).bind fun y => ?_
  split
  · exact .error rfl
  · exact .ok _

theorem failsLate_component (i : Int32) : FailsLate (component i) := by
  unfold component
  dsimp only
  split
  · exact .ok _
  · exact .error rfl

theorem late_takeComponent : Late takeComponent := fun a b =>
  (failsLate_asVector a).bind fun _ => (failsLate_asInteger b).bind fun i =>
    (failsLate_component i).bind fun _ => .ok _

theorem late_takeColumn : Late takeColumn := fun a b =>
  (failsLate_asMatrix a).bind fun _ => (failsLate_asInteger b).bind fun i =>
    (failsLate_component i).bind fun _ => .ok _

/-- A kernel, if there is one, that fails late. -/
def LateOption (kernel? : Option (Value → Value → Except Fault Value)) : Prop :=
  ∀ kernel, kernel? = some kernel → Late kernel

theorem LateOption.some {kernel : Value → Value → Except Fault Value} (h : Late kernel) :
    LateOption (.some kernel) := by
  rintro _ ⟨⟩
  exact h

theorem LateOption.none : LateOption .none := fun _ h => nomatch h

theorem late_numbers {f g : Value → Value → Except Fault Value} (hf : Late f) (hg : Late g)
    (pair : OperandPair) : LateOption (numbers f g pair) := by
  unfold numbers
  split <;> first
    | exact .some hf
    | exact .some hg
    | exact .none

theorem late_compare? (f : Int32 → Int32 → Bool) (g : Float32 → Float32 → Bool)
    (pair : OperandPair) : LateOption (compare? f g pair) :=
  late_numbers (late_integers _) (late_reals _) pair

theorem late_integersOnly? (f : Int32 → Int32 → Value) (pair : OperandPair) :
    LateOption (integersOnly? f pair) := by
  unfold integersOnly?
  split
  · exact .some (late_integers f)
  · exact .none

theorem late_equal? (wanted : Bool) (pair : OperandPair) : LateOption (equal? wanted pair) := by
  unfold equal?
  split
  · exact .some (late_vectors _)
  · exact .some (late_matrices _)
  · exact .some (late_texts _)
  · exact late_compare? _ _ pair

theorem late_add? (pair : OperandPair) : LateOption (add? pair) := by
  unfold add?
  split
  · exact .some (late_vectors _)
  · exact .some (late_matrices _)
  · exact .some (late_texts _)
  · exact late_numbers (late_integers _) (late_reals _) pair

theorem late_sub? (pair : OperandPair) : LateOption (sub? pair) := by
  unfold sub?
  split
  · exact .some (late_vectors _)
  · exact .some (late_matrices _)
  · exact late_numbers (late_integers _) (late_reals _) pair

theorem late_mul? (pair : OperandPair) : LateOption (mul? pair) := by
  unfold mul?
  split <;> first
    | exact .some late_scaleVector
    | exact .some late_scaleMatrix
    | exact .some late_vectorScaled
    | exact .some late_matrixScaled
    | exact .some late_transformVector
    | exact .some (late_matrices _)
    | exact late_numbers (late_integers _) (late_reals _) pair

theorem late_take? (pair : OperandPair) : LateOption (take? pair) := by
  unfold take?
  split
  · exact .some late_takeComponent
  · exact .some late_takeColumn
  · exact .none

theorem late_binary? (op : Opcode) (pair : OperandPair) : LateOption (binary? op pair) := by
  unfold binary?
  split
  · exact late_add? pair
  · exact late_sub? pair
  · exact late_mul? pair
  · exact late_numbers late_divideIntegers late_divideReals pair
  · exact late_compare? _ _ pair
  · exact late_compare? _ _ pair
  · exact late_compare? _ _ pair
  · exact late_compare? _ _ pair
  · exact late_equal? true pair
  · exact late_equal? false pair
  · exact late_integersOnly? _ pair
  · exact late_integersOnly? _ pair
  · exact late_integersOnly? _ pair
  · exact late_integersOnly? _ pair
  · exact late_take? pair
  · exact .none

/-- An operation on two values of any kind fails late. -/
theorem failsLate_binary (op : Opcode) (pair : OperandPair) (a b : Value) :
    FailsLate (binary op pair a b) := by
  unfold binary
  split
  · next kernel hkernel => exact late_binary? op pair kernel hkernel a b
  · exact .error rfl

theorem failsLate_negate? {base : Base} {kernel : Value → Except Fault Value}
    (h : negate? base = some kernel) (v : Value) : FailsLate (kernel v) := by
  cases base with
  | text => cases h
  | integer =>
    cases h
    exact (failsLate_asInteger v).bind fun _ => .ok _
  | real =>
    cases h
    exact (failsLate_asReal v).bind fun _ => .ok _
  | vector =>
    cases h
    exact (failsLate_asVector v).bind fun _ => .ok _
  | matrix =>
    cases h
    exact (failsLate_asMatrix v).bind fun _ => .ok _

theorem failsLate_unary? {op : Opcode} {pair : OperandPair} {kernel : Value → Except Fault Value}
    (h : unary? op pair = some kernel) (v : Value) : FailsLate (kernel v) := by
  unfold unary? at h
  split at h
  · split at h
    · exact failsLate_negate? h v
    · split at h
      · cases h
      · cases h
        exact .ok v
    · split at h
      · cases h
        exact (failsLate_asInteger v).bind fun _ => .ok _
      · cases h
    · cases h
  · cases h

theorem failsLate_unary (op : Opcode) (pair : OperandPair) (v : Value) :
    FailsLate (unary op pair v) := by
  unfold unary
  split
  · next h => exact failsLate_unary? h v
  · exact .error rfl

end Kernel

/-! ## Cells -/

namespace Cell

theorem failsLate_storing {new : Except Fault Cell} (h : FailsLate new) (old : Cell) :
    FailsLate (storing old new).1 := by
  cases new with
  | ok c => exact .ok ()
  | error e => exact .error (h e rfl)

theorem failsLate_checkIndex (i : Int32) (len : Nat) : FailsLate (checkIndex i len) := by
  unfold checkIndex
  dsimp only
  split
  · exact .ok _
  · exact .error rfl

/-- A value that is not a list. -/
theorem failsLate_assignAtom {v : Value} (hv : ∀ vs, v ≠ .list vs) (c : Cell) :
    FailsLate (assignValue c v).1 := by
  unfold assignValue
  split
  · exact absurd rfl (hv _)
  · exact absurd rfl (hv _)
  · exact .error rfl
  · exact .error rfl
  · exact failsLate_storing ((failsLate_asInteger v).map _) _
  · exact failsLate_storing ((failsLate_asReal v).map _) _
  · exact failsLate_storing ((failsLate_asText v).map _) _
  · exact failsLate_storing ((failsLate_asVector v).map _) _
  · exact failsLate_storing ((failsLate_asMatrix v).map _) _

mutual

theorem failsLate_assignValue : (v : Value) → (c : Cell) → FailsLate (assignValue c v).1
  | .list vs, .list template items => by
    unfold assignValue
    split
    · exact .error rfl
    · exact failsLate_storing ((failsLate_buildItems vs template).map _) _
  | .list vs, .record fields => by
    unfold assignValue
    split
    · exact failsLate_assignFields vs fields
    · exact .error rfl
  | .list _, .integer _ | .list _, .real _ | .list _, .text _ | .list _, .vector _
  | .list _, .matrix _ => by
    unfold assignValue
    exact .error rfl
  | .integer _, c | .real _, c | .vector _, c | .matrix _, c | .text _, c =>
    failsLate_assignAtom (by simp) c

theorem failsLate_buildItems : (vs : List Value) → (template : Cell) →
    FailsLate (buildItems template vs)
  | [], _ => .ok []
  | v :: rest, template => by
    have hitem : FailsLate (if v.isNull then (.ok (), template.clear)
        else assignValue template v : Stored Cell).1 := by
      split
      · exact .ok ()
      · exact failsLate_assignValue v template
    unfold buildItems
    split
    · exact (failsLate_buildItems rest template).map _
    · next e c he =>
      rw [he] at hitem
      exact .error (hitem e rfl)

theorem failsLate_assignFields : (vs : List Value) → (fields : List Cell) →
    FailsLate (assignFields fields vs).1
  | [], fields => by
    unfold assignFields
    exact .ok ()
  | v :: rest, [] => by
    unfold assignFields
    exact .ok ()
  | v :: rest, c :: fields => by
    have hfield : FailsLate (if v.isNull then (.ok (), c.clear)
        else assignValue c v : Stored Cell).1 := by
      split
      · exact .ok ()
      · exact failsLate_assignValue v c
    unfold assignFields
    split
    · exact failsLate_assignFields rest fields
    · next e d he =>
      rw [he] at hfield
      exact .error (hfield e rfl)

end

theorem failsLate_assign (c : Cell) (v : Value) : FailsLate (c.assign v).1 := by
  unfold assign
  split
  · exact .ok ()
  · exact failsLate_assignValue v c

theorem failsLate_setVector (w : Vec4) (v : Value) (i : Int32) (rest : List Int32) :
    FailsLate (setVector w v i rest) := by
  unfold setVector
  split
  · exact (failsLate_asReal v).bind fun _ => (failsLate_checkIndex i 4).bind fun _ => .ok _
  · exact .error rfl

theorem failsLate_setMatrix (m : Mat4) (v : Value) (i : Int32) (rest : List Int32) :
    FailsLate (setMatrix m v i rest) := by
  unfold setMatrix
  refine (failsLate_checkIndex i 4).bind fun col => ?_
  split
  · exact (failsLate_asVector v).bind fun _ => .ok _
  · next row =>
    exact (failsLate_asReal v).bind fun _ => (failsLate_checkIndex row 4).bind fun _ => .ok _
  · exact .error rfl

/-- A store of any value in any cell along any path fails late. -/
theorem failsLate_set (c : Cell) (v : Value) (path : List Int32) : FailsLate (c.set v path).1 := by
  induction path generalizing c with
  | nil => cases c <;> exact failsLate_assign _ v
  | cons i rest ih =>
    cases c with
    | vector w => exact failsLate_storing ((failsLate_setVector w v i rest).map _) _
    | matrix m => exact failsLate_storing ((failsLate_setMatrix m v i rest).map _) _
    | list template items =>
      unfold set
      split
      · next e he => exact .error (failsLate_checkIndex i maxItems e he)
      · exact ih _
    | record fields =>
      unfold set
      split
      · next e he => exact .error (failsLate_checkIndex i fields.length e he)
      · exact ih _
    | _ => exact .error rfl

end Cell

namespace Memory

variable (m : Memory) (table : SharedTable) (slot : Nat)

theorem failsLate_fetch : FailsLate (m.fetch table slot) := by
  unfold fetch
  split
  · exact .ok _
  · split
    · exact .ok _
    · exact .error rfl
  · exact .error rfl

theorem failsLate_store (v : Value) (path : List Int32) :
    FailsLate (m.store table slot v path).1 := by
  unfold store
  split
  · next c _ => exact c.failsLate_set v path
  · split
    · next h =>
      obtain ⟨e, -, hr⟩ := Option.map_eq_some_iff.1 h
      cases hr
      exact e.cell.failsLate_set v path
    · exact .error rfl
  · exact .error rfl

end Memory

/-! ## Functions of the library -/

/-- The call fails late if what it asks of others does. -/
def Call.Late : Call → Prop
  | .done result => FailsLate result
  | .dispatch _ next => ∀ outcome, FailsLate outcome → (next outcome).Late
  | .random next => ∀ x, (next x).Late

/-- Whatever its arguments are, the function fails late. -/
def HostFunction.Late (f : HostFunction) : Prop := ∀ args, (f.body args).Late

theorem HostFunction.Late.execute {f : HostFunction} (hf : f.Late) (values : List Value)
    (offset : Nat) : (f.execute values offset).Late := by
  unfold HostFunction.execute
  split
  · exact hf _
  · exact FailsLate.error rfl

namespace Library

/-- A function of one argument that it takes apart. -/
theorem late_unary {α : Type} {view : Value → Except Fault α} (hview : ∀ v, FailsLate (view v))
    {name : String} {params : List Ty} {ret : Ty} {f : α → Value} :
    (HostFunction.ofResult name params ret fun args => do return f (← view (arg args 0))).Late :=
  fun _ => (hview _).bind fun _ => .ok _

theorem late_binary {α β : Type} {first : Value → Except Fault α} {second : Value → Except Fault β}
    (hfirst : ∀ v, FailsLate (first v)) (hsecond : ∀ v, FailsLate (second v)) {name : String}
    {params : List Ty} {ret : Ty} {f : α → β → Value} :
    (HostFunction.ofResult name params ret fun args => do
      return f (← first (arg args 0)) (← second (arg args 1))).Late :=
  fun _ => (hfirst _).bind fun _ => (hsecond _).bind fun _ => .ok _

theorem failsLate_vec (args : List Value) : FailsLate (vec args) :=
  (failsLate_asReal _).bind fun _ => (failsLate_asReal _).bind fun _ =>
    (failsLate_asReal _).bind fun _ => (failsLate_asReal _).bind fun _ => .ok _

theorem failsLate_mat (args : List Value) : FailsLate (mat args) :=
  (failsLate_asVector _).bind fun _ => (failsLate_asVector _).bind fun _ =>
    (failsLate_asVector _).bind fun _ => (failsLate_asVector _).bind fun _ => .ok _

theorem failsLate_scaling (args : List Value) : FailsLate (scaling args) :=
  (failsLate_asReal _).bind fun _ => (failsLate_asReal _).bind fun _ =>
    (failsLate_asReal _).bind fun _ => .ok _

theorem failsLate_rotation (args : List Value) : FailsLate (rotation args) := by
  refine (failsLate_asReal _).bind fun degrees => (failsLate_asVector _).bind fun axis => ?_
  dsimp only
  split
  · exact .error rfl
  · exact .ok _

theorem failsLate_normalize (args : List Value) : FailsLate (normalize args) := by
  refine (failsLate_asVector _).bind fun v => ?_
  dsimp only
  split
  · exact .error rfl
  · exact .ok _

theorem failsLate_reflection (args : List Value) : FailsLate (reflection args) := by
  refine (failsLate_asVector _).bind fun n => (failsLate_asVector _).bind fun p => ?_
  dsimp only
  split
  · exact .error rfl
  · exact .ok _

theorem failsLate_inverse (args : List Value) : FailsLate (inverse args) := by
  refine (failsLate_asMatrix _).bind fun m => ?_
  split
  · exact .ok _
  · exact .error rfl

theorem late_dispatch : dispatch.Late := by
  intro args
  unfold dispatch
  dsimp only
  split
  · next e he => exact FailsLate.error (failsLate_asText _ e he)
  · exact fun outcome ho => ho.map _

theorem late_random : random.Late := fun _ _ => .ok _

/-- Every function of the library fails late. -/
theorem late_library : ∀ f ∈ functions, f.Late := by
  unfold functions
  simp only [List.forall_mem_cons, List.not_mem_nil, false_imp_iff, implies_true, and_true]
  iterate 16 refine ⟨late_unary failsLate_asReal, ?_⟩
  exact ⟨failsLate_vec, failsLate_mat, failsLate_rotation, late_unary failsLate_asVector,
    failsLate_scaling, failsLate_normalize, late_unary failsLate_asMatrix, failsLate_reflection,
    late_unary failsLate_asVector, late_binary failsLate_asVector failsLate_asVector,
    late_binary failsLate_asVector failsLate_asVector, late_unary failsLate_asMatrix,
    failsLate_inverse, late_random, late_dispatch⟩

end Library

end VectorScript
