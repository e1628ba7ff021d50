import VectorScript.Tree.Stmt

/-!
# The code of an expression

Emission without a builder: the words and the immediates that an expression adds, and how high the
evaluation stack gets meanwhile. Emission adds exactly these, whatever the builder holds already.

    e.emit.run b = .ok () (b.extended e.words e.immediates 1 e.height)             (emits)
-/

namespace VectorScript

/-! ## Steps with a state -/

section

variable {ε σ : Type}

theorem get_apply (s : σ) : (get : EStateM ε σ σ) s = .ok s s := rfl

theorem set_apply (s t : σ) : (set t : EStateM ε σ PUnit) s = .ok ⟨⟩ t := rfl

theorem modify_apply (f : σ → σ) (s : σ) : (modify f : EStateM ε σ PUnit) s = .ok ⟨⟩ (f s) := rfl

end

/-! ## Steps of a builder -/

namespace Builder

/-- The builder after code that leaves `pushes` more values and never stands more than `height`
values above where it began. -/
def extended (b : Builder) (words : List UInt32) (immediates : List Value) (pushes height : Nat) :
    Builder where
  code := b.code ++ words.toArray
  immediates := b.immediates ++ immediates.toArray
  depth := b.depth + pushes
  maxDepth := max b.maxDepth (b.depth + height)
  guards := b.guards

/-- The greatest height so far is no less than the present one. -/
def Level (b : Builder) : Prop := b.depth ≤ b.maxDepth

/-- A step that adds these words and immediates to any builder, and nothing else. -/
def Emits (step : Build Unit) (words : List UInt32) (immediates : List Value)
    (pushes height : Nat) : Prop :=
  pushes ≤ height ∧
    ∀ b : Builder, b.Level → step.run b = .ok () (b.extended words immediates pushes height)

variable {x y : Build Unit} {ws vs : List UInt32} {is js : List Value} {m n h k : Nat}

theorem extended_extended (b : Builder) :
    (b.extended ws is m h).extended vs js n k =
      b.extended (ws ++ vs) (is ++ js) (m + n) (max h (m + k)) := by
  simp only [extended, Builder.mk.injEq, Array.append_assoc, List.append_toArray, and_true]
  refine ⟨trivial, trivial, ?_, ?_⟩ <;> omega

theorem level_extended (b : Builder) (hm : m ≤ h) : (b.extended ws is m h).Level := by
  simp only [Level, extended]
  omega

/-- A step after one that succeeds. -/
theorem run_seq {b c : Builder} (hx : x.run b = .ok () c) : (do x; y : Build Unit).run b = y.run c := by
  simp only [EStateM.run] at hx
  simp only [EStateM.run, bind, EStateM.bind, hx]

theorem run_push (b : Builder) (op : Opcode) (pair : Option OperandPair) (pops pushes : Nat)
    (hp : pops ≤ b.depth) :
    (push op pair pops pushes).run b = .ok () { b with
      code := b.code.push (op.encode pair)
      depth := b.depth - pops + pushes
      maxDepth := max b.maxDepth (b.depth - pops + pushes) } := by
  simp [push, setDepth, addWord, withDepth, EStateM.run, bind, EStateM.bind, modify_apply,
    get_apply, hp]

namespace Emits

theorem nothing : Emits (pure ()) [] [] 0 0 := by
  refine ⟨Nat.le_refl _, fun b hb => ?_⟩
  have hmax : max b.maxDepth b.depth = b.maxDepth := Nat.max_eq_left hb
  simp [extended, EStateM.run, pure, EStateM.pure, hmax]

theorem seq (hx : Emits x ws is m h) (hy : Emits y vs js n k) :
    Emits (do x; y) (ws ++ vs) (is ++ js) (m + n) (max h (m + k)) := by
  refine ⟨by have := hx.1; have := hy.1; omega, fun b hb => ?_⟩
  rw [run_seq (hx.2 b hb), hy.2 _ (level_extended b hx.1), extended_extended]

/-- An instruction that consumes what the code before it has left, and leaves one value. -/
theorem push (hx : Emits x ws is n h) (op : Opcode) (pair : Option OperandPair) :
    Emits (do x; push op pair n 1) (ws ++ [op.encode pair]) is 1 (max h 1) := by
  refine ⟨by omega, fun b hb => ?_⟩
  rw [run_seq (hx.2 b hb), run_push _ _ _ _ _ (by simp [extended])]
  simp only [extended, EStateM.Result.ok.injEq, true_and, Builder.mk.injEq, Array.push_eq_append,
    Array.append_assoc, List.append_toArray, and_true]
  refine ⟨?_, ?_⟩ <;> omega

theorem operand (hx : Emits x ws is n h) (i : Nat) :
    Emits (do x; operand i) (ws ++ [UInt32.ofNat i]) is n h := by
  refine ⟨hx.1, fun b hb => ?_⟩
  rw [run_seq (hx.2 b hb)]
  show EStateM.Result.ok () ((b.extended ws is n h).addWord (UInt32.ofNat i)) = _
  simp only [addWord, extended, Array.push_eq_append, Array.append_assoc, List.append_toArray]

theorem immediate (v : Value) : Emits (immediate v) [Opcode.immed.encode none] [v] 1 1 := by
  refine ⟨Nat.le_refl _, fun b _ => ?_⟩
  show (Builder.push .immed none 0 1).run { b with immediates := b.immediates.push v } = _
  rw [run_push _ _ _ _ _ (Nat.zero_le _)]
  simp only [extended, Array.push_eq_append, Nat.sub_zero]

end Emits

end Builder

/-! ## Words, immediates and height -/

namespace Expr

mutual

/-- The words that an expression adds. -/
def words : Expr → List UInt32
  | literal _ => [Opcode.immed.encode none]
  | var slot => [Opcode.var.encode none, UInt32.ofNat slot]
  | unary op pair e => words e ++ [op.opcode.encode pair]
  | binary op pair l r => words l ++ words r ++ [op.opcode.encode pair]
  | element l i => words l ++ words i ++ [Opcode.index.encode none]
  | field r place => words r ++ [Opcode.member.encode none] ++ [UInt32.ofNat place]
  | list items => wordsAll items ++ [Opcode.list.encode none] ++ [UInt32.ofNat items.length]
  | vector x y z w => words x ++ (words y ++ (words z ++ words w)) ++ [Opcode.vector.encode none]
  | matrix x y z w => words x ++ (words y ++ (words z ++ words w)) ++ [Opcode.matrix.encode none]
  | call function args =>
    wordsAll args ++ [Opcode.fun.encode none] ++ [UInt32.ofNat function] ++
      [UInt32.ofNat args.length]

def wordsAll : List Expr → List UInt32
  | [] => []
  | e :: rest => words e ++ wordsAll rest

end

mutual

/-- The immediates that an expression adds. -/
def immediates : Expr → List Value
  | literal v => [v]
  | var _ => []
  | unary _ _ e => immediates e
  | binary _ _ l r => immediates l ++ immediates r
  | element l i => immediates l ++ immediates i
  | field r _ => immediates r
  | list items => immediatesAll items
  | vector x y z w => immediates x ++ (immediates y ++ (immediates z ++ immediates w))
  | matrix x y z w => immediates x ++ (immediates y ++ (immediates z ++ immediates w))
  | call _ args => immediatesAll args

def immediatesAll : List Expr → List Value
  | [] => []
  | e :: rest => immediates e ++ immediatesAll rest

end

mutual

/-- How many more values the stack holds while an expression is evaluated, at the most. -/
def height : Expr → Nat
  | literal _ | var _ => 1
  | unary _ _ e | field e _ => height e
  | binary _ _ l r | element l r => max (height l) (1 + height r)
  | list items => max (heightAll items) 1
  | vector x y z w | matrix x y z w =>
    max (height x) (1 + max (height y) (1 + max (height z) (1 + height w)))
  | call _ args => max (heightAll args) 1

def heightAll : List Expr → Nat
  | [] => 0
  | e :: rest => max (height e) (1 + heightAll rest)

end

/-! ## Emission -/

open Builder

mutual

/-- Emission adds the words and immediates of the expression and nothing else, and leaves the stack
one value higher. -/
theorem emits : (e : Expr) → Emits e.emit e.words e.immediates 1 e.height
  | literal v => .immediate v
  | var slot => by
    have h := (Emits.nothing.push .var none).operand slot
    simp only [pure_bind] at h
    exact h
  | unary op pair e => by
    have h := e.emits.push op.opcode pair
    rwa [Nat.max_eq_left e.emits.1] at h
  | binary op pair l r => by
    have h := (l.emits.seq r.emits).push op.opcode pair
    rw [Nat.max_eq_left (by omega)] at h
    simp only [bind_assoc] at h
    exact h
  | element l i => by
    have h := (l.emits.seq i.emits).push .index none
    rw [Nat.max_eq_left (by omega)] at h
    simp only [bind_assoc] at h
    exact h
  | field r place => by
    have h := (r.emits.push .member none).operand place
    rw [Nat.max_eq_left r.emits.1] at h
    simp only [bind_assoc] at h
    exact h
  | list items => by
    have h := ((emitsAll items).push .list none).operand items.length
    simp only [bind_assoc] at h
    exact h
  | vector x y z w => by
    have h := (x.emits.seq (y.emits.seq (z.emits.seq w.emits))).push .vector none
    rw [Nat.max_eq_left (by omega)] at h
    simp only [bind_assoc] at h
    exact h
  | matrix x y z w => by
    have h := (x.emits.seq (y.emits.seq (z.emits.seq w.emits))).push .matrix none
    rw [Nat.max_eq_left (by omega)] at h
    simp only [bind_assoc] at h
    exact h
  | call function args => by
    have h := (((emitsAll args).push .fun none).operand function).operand args.length
    simp only [bind_assoc] at h
    exact h

theorem emitsAll : (es : List Expr) →
    Emits (emitAll es) (wordsAll es) (immediatesAll es) es.length (heightAll es)
  | [] => .nothing
  | e :: rest => by
    have h := e.emits.seq (emitsAll rest)
    rwa [Nat.add_comm 1] at h

end

end Expr

/-! ## Guards -/

namespace Builder

/-- Opening a guard adds its instruction and two words that are still empty. -/
theorem run_openGuard {b : Builder} (h : 1 ≤ b.depth) :
    openGuard.run b = .ok () { b with
      code := b.code ++ #[Opcode.guard.encode none, 0, 0]
      depth := b.depth - 1
      maxDepth := max b.maxDepth (b.depth - 1)
      guards := ⟨b.code.size + 1, b.code.size + 3, b.immediates.size⟩ :: b.guards } := by
  rw [openGuard, run_seq (run_push b .guard none 1 0 h)]
  simp only [addWord, EStateM.run, modify_apply, Array.push_eq_append, Array.append_assoc, List.append_toArray, Array.size_append]
  rfl

/-- Closing a guard writes the lengths of what came after it into its words. -/
theorem run_closeGuard {b : Builder} (before after : List UInt32) (k : Nat)
    (guards : List OpenGuard) (hc : b.code = (before ++ 0 :: 0 :: after).toArray)
    (hg : b.guards = ⟨before.length, before.length + 2, k⟩ :: guards) :
    closeGuard.run b = .ok () { b with
      code := (before ++ UInt32.ofNat after.length ::
        UInt32.ofNat (b.immediates.size - k) :: after).toArray
      guards := guards } := by
  have hs : b.code.size - (before.length + 2) = after.length := by
    rw [hc, List.size_toArray, List.length_append]
    simp only [List.length_cons]
    omega
  simp only [closeGuard, EStateM.run, bind, EStateM.bind, get_apply, hg, set_apply, hs]
  simp [hc]

end Builder

namespace Rhs

open Builder

/-- The words of a condition and of the value under its guard. -/
def caseWords (condition value : Expr) : List UInt32 :=
  condition.words ++ Opcode.guard.encode none :: UInt32.ofNat value.words.length ::
    UInt32.ofNat value.immediates.length :: value.words

theorem run_emitCase {b : Builder} (hb : b.Level) (condition value : Expr) :
    (emitCase b.depth condition value).run b = .ok () (b.extended (caseWords condition value)
      (condition.immediates ++ value.immediates) 0 (max condition.height value.height)) := by
  have hc := condition.emits
  have hv := value.emits
  rw [emitCase, run_seq (hc.2 b hb), run_seq (run_openGuard (by simp [extended])),
    run_seq (hv.2 _ ?_), run_seq (run_closeGuard
      (b.code.toList ++ condition.words ++ [Opcode.guard.encode none]) value.words
      (b.immediates.size + condition.immediates.length) b.guards ?_ ?_)]
  · simp [setDepth, EStateM.run, modify_apply, withDepth, extended, caseWords]
    congr 1
    omega
  · simp [extended]
  · simp [extended, Nat.add_assoc]
  · simp only [Level, extended]
    omega

/-- The conditions with their values; a value without a condition counts as one whose condition
holds. -/
def branches (cases : List (Expr × Expr)) (otherwise : Option Expr) : List (Expr × Expr) :=
  cases ++ (otherwise.map fun value => (Expr.literal (.integer 1), value)).toList

def branchWords : List (Expr × Expr) → List UInt32
  | [] => []
  | (condition, value) :: rest => caseWords condition value ++ branchWords rest

def branchImmediates : List (Expr × Expr) → List Value
  | [] => []
  | (condition, value) :: rest =>
    condition.immediates ++ value.immediates ++ branchImmediates rest

/-- The greatest height of any condition or value. -/
def branchHeight : List (Expr × Expr) → Nat
  | [] => 0
  | (condition, value) :: rest => max (max condition.height value.height) (branchHeight rest)

def words : Rhs → List UInt32
  | plain e => e.words
  | guarded cases otherwise => branchWords (branches cases otherwise)

def immediates : Rhs → List Value
  | plain e => e.immediates
  | guarded cases otherwise => branchImmediates (branches cases otherwise)

def height : Rhs → Nat
  | plain e => e.height
  | guarded cases otherwise => max (branchHeight (branches cases otherwise)) 1

theorem run_emitCases (branches : List (Expr × Expr)) {base : Nat} {b : Builder} (hb : b.Level)
    (hd : b.depth = base) :
    (branches.forM fun (condition, value) => emitCase base condition value).run b =
      .ok () (b.extended (branchWords branches) (branchImmediates branches) 0
        (branchHeight branches)) := by
  induction branches generalizing b with
  | nil => exact Emits.nothing.2 b hb
  | cons branch rest ih =>
    obtain ⟨condition, value⟩ := branch
    have h := run_emitCase hb condition value
    rw [hd] at h
    show (do emitCase base condition value; rest.forM _ : Build Unit).run b = _
    rw [run_seq h, ih (level_extended b (Nat.zero_le _)) (by simp [extended, hd]),
      extended_extended, branchHeight]
    simp only [Nat.zero_add]
    rfl

/-- The value without a condition is emitted as one more case. -/
theorem emit_guarded (cases : List (Expr × Expr)) (otherwise : Option Expr) (b : Builder) :
    (guarded cases otherwise).emit.run b = (do
      (branches cases otherwise).forM fun (condition, value) => emitCase b.depth condition value
      setDepth (b.depth + 1) : Build Unit).run b := by
  cases otherwise with
  | none =>
    simp only [branches, Option.map_none, Option.toList_none, List.append_nil]
    rfl
  | some value =>
    simp only [branches, Option.map_some, Option.toList_some, List.forM_eq_forM, List.forM_append,
      bind_assoc]
    simp only [List.forM_cons, List.forM_nil, bind_assoc, pure_bind]
    rfl

/-- Emission adds the words and immediates of a right side and nothing else. -/
theorem emits (r : Rhs) : Emits r.emit r.words r.immediates 1 r.height := by
  cases r with
  | plain e => exact e.emits
  | guarded cases otherwise =>
    refine ⟨Nat.le_max_right _ _, fun b hb => ?_⟩
    rw [emit_guarded, run_seq (run_emitCases _ hb rfl)]
    simp only [setDepth, EStateM.run, modify_apply, withDepth, extended, words, immediates, height]
    congr 2
    omega

end Rhs

/-! ## Statements -/

/-- The statement that is made of code. -/
theorem Stmt.assemble_eq {code : Build Unit} {words : List UInt32} {immediates : List Value}
    {pushes height : Nat} (h : Builder.Emits code words immediates pushes height)
    (kind : StatementKind) (p : Position) :
    assemble kind code p = .ok ⟨kind, words, immediates, height, p⟩ := by
  rw [assemble, h.2 .empty (Nat.le_refl _)]
  simp [Builder.extended, Builder.empty, Statement.ofBuilder, Builder.finish, bind, Except.bind,
    pure, Except.pure]

end VectorScript
