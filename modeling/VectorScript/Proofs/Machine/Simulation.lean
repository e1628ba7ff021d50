import VectorScript.Proofs.Tree.Code
import VectorScript.Proofs.Tree.Evaluation
import VectorScript.Proofs.Tree.Typing

/-!
# The machine carries trees out

Running the code of a tree is evaluating the tree. `Simulates` says so for a piece of code between
any other words and immediates, on any stack with enough room.
-/

namespace VectorScript

/-! ## Stacks -/

namespace Stack

variable {α : Type}

/-- The stack with further values on top, the last one topmost. -/
def pushAll (s : Stack α) (as : List α) : Stack α :=
  { s with room := s.room - as.length, items := as.reverse ++ s.items }

@[simp] theorem pushAll_nil (s : Stack α) : s.pushAll [] = s := rfl

theorem pushAll_append (s : Stack α) (as bs : List α) :
    s.pushAll (as ++ bs) = (s.pushAll as).pushAll bs := by
  simp [pushAll, Nat.sub_sub]

@[simp] theorem room_pushAll (s : Stack α) (as : List α) :
    (s.pushAll as).room = s.room - as.length := rfl

theorem push_eq {s : Stack α} (a : α) (h : 1 ≤ s.room) :
    push a s = .ok () (s.pushAll [a]) := by
  obtain ⟨name, room, items⟩ := s
  cases room with
  | zero => simp at h
  | succ room => rfl

theorem top?_pushAll (s : Stack α) (as : List α) :
    (s.pushAll as).top? as.length = some as := by
  have h : (as.reverse ++ s.items).take as.length = as.reverse :=
    List.take_left' (List.length_reverse ..)
  simp [top?, pushAll, h]

theorem drop_pushAll {s : Stack α} {as : List α} (h : as.length ≤ s.room) :
    (s.pushAll as).drop as.length = s := by
  have hd : (as.reverse ++ s.items).drop as.length = s.items :=
    List.drop_left' (List.length_reverse ..)
  simp [drop, pushAll, hd, Nat.sub_add_cancel h]

theorem popMany_pushAll {s : Stack α} {as : List α} (h : as.length ≤ s.room) :
    popMany as.length (s.pushAll as) = .ok as s := by
  simp [popMany, bind, EStateM.bind, get_apply, top?_pushAll, set_apply, drop_pushAll h,
    pure, EStateM.pure]

theorem pop_pushAll {s : Stack α} (a : α) (h : 1 ≤ s.room) :
    pop (s.pushAll [a]) = .ok a s := by
  obtain ⟨name, room, items⟩ := s
  obtain ⟨room, rfl⟩ := Nat.exists_eq_add_of_le' h
  rfl

theorem popPair_pushAll {s : Stack α} (a b : α) (h : 2 ≤ s.room) :
    popPair (s.pushAll [a, b]) = .ok (a, b) s := by
  obtain ⟨name, room, items⟩ := s
  obtain ⟨room, rfl⟩ := Nat.exists_eq_add_of_le' h
  rfl

theorem size_clear (s : Stack α) : s.clear.size = 0 := by
  unfold clear drop size
  simp

theorem room_clear (s : Stack α) : s.clear.room = s.size + s.room := by
  have h := s.size_add_room_drop s.size
  have hsize := s.size_clear
  unfold clear at hsize ⊢
  omega

end Stack

/-! ## Decoding -/

/-- An instruction without operand types decodes as one on integers. -/
theorem Opcode.decode_encode_tag (op : Opcode) (pair : Option OperandPair) :
    decode (op.encode pair) = some (op, Expr.tag pair) := by
  cases pair with
  | none => exact decode_encode op ⟨.integer, .integer⟩
  | some p => exact decode_encode op p

namespace Instruction

theorem decode_encode (op : Opcode) (pair : Option OperandPair) (rest : List UInt32) :
    decode (op.encode pair) rest = ofOpcode op (Expr.tag pair) rest := by
  simp only [decode, Opcode.decode_encode_tag]

/-- Whether the instruction neither takes an immediate nor is a guard. -/
def isPlain : Instruction → Bool
  | immed | guard _ _ => false
  | _ => true

theorem isPlain_of_ne {i : Instruction} (himmed : i ≠ immed) (hguard : ∀ n k, i ≠ guard n k) :
    i.isPlain = true := by
  cases i with
  | immed => exact absurd rfl himmed
  | guard n k => exact absurd rfl (hguard n k)
  | _ => rfl

end Instruction

/-! ## Steps of a run -/

namespace Exec

variable (callees : Callees)

theorem run_nil (is : List Value) : run callees false is [] = pop := by
  rw [run, if_neg Bool.false_ne_true]

theorem run_nil_guarded (is : List Value) : run callees true is [] = throw (.of .noValue) := by
  rw [run, if_pos rfl]

theorem run_of_decode_error {g : Bool} {is : List Value} {word : UInt32} {rest : List UInt32}
    {e : Fault} (hd : Instruction.decode word rest = .error e) :
    run callees g is (word :: rest) = throw e := by
  rw [run]
  split
  · next e' h =>
    rw [hd] at h
    cases h
    rfl
  · next h => rw [hd] at h; cases h

theorem run_immed_nil {g : Bool} {word : UInt32} {rest after : List UInt32}
    (hd : Instruction.decode word rest = .ok (.immed, after)) :
    run callees g [] (word :: rest) = throw (.internal "missing immediate") := by
  rw [run]
  split
  · next h => rw [hd] at h; cases h
  · next h =>
    rw [hd] at h
    cases h
    rfl

theorem run_immed (g : Bool) (v : Value) (is : List Value) {word : UInt32} {rest after : List UInt32}
    (hd : Instruction.decode word rest = .ok (.immed, after)) :
    run callees g (v :: is) (word :: rest) = (do push v; run callees g is after) := by
  rw [run]
  split
  · next e h => rw [hd] at h; cases h
  · next i after h =>
    rw [hd] at h
    cases h
    rfl

theorem run_plain (g : Bool) (is : List Value) {word : UInt32} {rest after : List UInt32}
    {i : Instruction} (hd : Instruction.decode word rest = .ok (i, after)) (hi : i.isPlain = true) :
    run callees g is (word :: rest) = (do instruction callees i; run callees g is after) := by
  rw [run]
  split
  · next e h => rw [hd] at h; cases h
  · next i after h =>
    rw [hd] at h
    cases h
    cases i <;> first | rfl | cases hi

theorem run_guard (g : Bool) (is : List Value) {word : UInt32} {rest after : List UInt32}
    {codeLength immediateCount : Nat}
    (hd : Instruction.decode word rest = .ok (.guard codeLength immediateCount, after)) :
    run callees g is (word :: rest) = (do
      let condition ← ofExcept (← pop).asInteger
      if condition ≠ 0 then run callees false is (after.take codeLength)
      else run callees true (is.drop immediateCount) (after.drop codeLength)) := by
  rw [run]
  split
  · next e h => rw [hd] at h; cases h
  · next i after h =>
    rw [hd] at h
    cases h
    rfl

/-- Induction on the words that are left: none, a word that cannot be read, or one instruction and the
words after it. A guard goes on with its own code or with what is after that. -/
@[elab_as_elim]
theorem run_induction {motive : Bool → List Value → List UInt32 → Prop}
    (finished : ∀ {is}, motive false is [])
    (noValue : ∀ {is}, motive true is [])
    (unreadable : ∀ {g is word rest e}, Instruction.decode word rest = .error e →
      motive g is (word :: rest))
    (missing : ∀ {g word rest after}, Instruction.decode word rest = .ok (.immed, after) →
      motive g [] (word :: rest))
    (immed : ∀ {g v is word rest after}, Instruction.decode word rest = .ok (.immed, after) →
      motive g is after → motive g (v :: is) (word :: rest))
    (guard : ∀ {g is word rest after codeLength immediateCount},
      Instruction.decode word rest = .ok (.guard codeLength immediateCount, after) →
      motive false is (after.take codeLength) →
      motive true (is.drop immediateCount) (after.drop codeLength) → motive g is (word :: rest))
    (plain : ∀ {g is word rest i after}, Instruction.decode word rest = .ok (i, after) →
      i.isPlain = true → motive g is after → motive g is (word :: rest))
    (g : Bool) (is : List Value) (words : List UInt32) : motive g is words := by
  induction g, is, words using run.induct with
  | case1 => exact noValue
  | case2 g is h =>
    obtain rfl := Bool.eq_false_iff.2 h
    exact finished
  | case3 _ _ _ _ _ hd => exact unreadable hd
  | case4 _ _ _ _ hd => exact missing hd
  | case5 _ _ _ _ hd _ _ _ _ ih => exact immed hd ih
  | case6 _ _ _ _ _ _ _ hd _ _ htaken hpassed => exact guard hd htaken hpassed
  | case7 _ _ _ _ _ i hd himmed hguard _ _ ih =>
    have hplain : i.isPlain = true :=
      Instruction.isPlain_of_ne (by rintro rfl; exact himmed hd rfl .rfl)
        (by rintro n k rfl; exact hguard n k hd rfl .rfl)
    exact plain hd hplain ih

/-! ## Pieces of code -/

/-- Running the words with their immediates amounts to `x`: its values end on top of the stack, its
fault ends the run. The code around the piece, the stack below it and whether a guard has failed
make no difference. -/
def Simulates (words : List UInt32) (immediates : List Value) (count height : Nat)
    (x : Memory → Eval (List Value)) : Prop :=
  count ≤ height ∧ ∀ (g : Bool) (is : List Value) (ws : List UInt32) (m : Machine),
    height ≤ m.stack.room →
      match x m.memory m.workspace with
      | .ok vs w => vs.length = count ∧ run callees g (immediates ++ is) (words ++ ws) m =
          run callees g is ws { m with stack := m.stack.pushAll vs, workspace := w }
      | .error f w => ∃ stack, run callees g (immediates ++ is) (words ++ ws) m =
          .error f { m with stack := stack, workspace := w }

/-- The instruction replaces so many values by the one that `f` makes of them. -/
def Acts (i : Instruction) (count : Nat) (f : Memory → List Value → Eval Value) : Prop :=
  ∀ (vs : List Value) (m : Machine), vs.length = count → max count 1 ≤ m.stack.room →
    match f m.memory vs m.workspace with
    | .ok v w => instruction callees i { m with stack := m.stack.pushAll vs } =
        .ok () { m with stack := m.stack.pushAll [v], workspace := w }
    | .error e w => ∃ stack, instruction callees i { m with stack := m.stack.pushAll vs } =
        .error e { m with stack := stack, workspace := w }

namespace Simulates

variable {callees} {ws vs : List UInt32} {is js : List Value} {m n h k : Nat}
  {x y : Memory → Eval (List Value)}

theorem nothing : Simulates callees [] [] 0 0 fun _ => pure [] :=
  ⟨Nat.le_refl _, fun _ _ _ _ _ => ⟨rfl, rfl⟩⟩

theorem seq (hx : Simulates callees ws is m h x) (hy : Simulates callees vs js n k y) :
    Simulates callees (ws ++ vs) (is ++ js) (m + n) (max h (m + k))
      fun memory => do return (← x memory) ++ (← y memory) := by
  refine ⟨by have := hx.1; have := hy.1; omega, fun g ks us mach hroom => ?_⟩
  have h1 := hx.2 g (js ++ ks) (vs ++ us) mach (by omega)
  simp only [List.append_assoc, bind, EStateM.bind]
  cases hxr : x mach.memory mach.workspace with
  | error f w => simpa only [hxr] using h1
  | ok as w =>
    simp only [hxr] at h1 ⊢
    obtain ⟨hlen, hrun⟩ := h1
    have h2 := hy.2 g ks us { mach with stack := mach.stack.pushAll as, workspace := w }
      (by simp only [Stack.room_pushAll, hlen]; have := hx.1; omega)
    rw [hrun]
    cases hyr : y mach.memory w with
    | error f w => simpa only [hyr] using h2
    | ok bs w =>
      simp only [hyr] at h2 ⊢
      refine ⟨?_, ?_⟩
      · simp only [List.length_append, hlen, h2.1]
      · rw [h2.2, Stack.pushAll_append]

/-- Code followed by an instruction that consumes what it leaves. -/
theorem plain {op : Opcode} {pair : Option OperandPair} {operands : List UInt32} {i : Instruction}
    {f : Memory → List Value → Eval Value} (hx : Simulates callees ws is n h x)
    (hd : ∀ rest, Instruction.decode (op.encode pair) (operands ++ rest) = .ok (i, rest))
    (hi : i.isPlain = true) (ha : Acts callees i n f) :
    Simulates callees (ws ++ op.encode pair :: operands) is 1 (max h 1)
      fun memory => do return [← f memory (← x memory)] := by
  refine ⟨by omega, fun g ks us mach hroom => ?_⟩
  have h1 := hx.2 g ks (op.encode pair :: (operands ++ us)) mach (by omega)
  simp only [List.append_assoc, List.cons_append, bind, EStateM.bind]
  cases hxr : x mach.memory mach.workspace with
  | error f w => simpa only [hxr] using h1
  | ok as w =>
    simp only [hxr] at h1 ⊢
    obtain ⟨hlen, hrun⟩ := h1
    have h2 := ha as { mach with workspace := w } hlen (by have := hx.1; simp only; omega)
    rw [hrun, run_plain callees g ks (hd us) hi]
    cases hfr : f mach.memory as w with
    | error e w =>
      simp only [hfr] at h2 ⊢
      obtain ⟨stack, hstep⟩ := h2
      exact ⟨stack, by simp only [bind, EStateM.bind, hstep]⟩
    | ok v w =>
      simp only [hfr] at h2
      exact ⟨rfl, by simp only [bind, EStateM.bind, h2]⟩

theorem literal (v : Value) :
    Simulates callees [Opcode.immed.encode none] [v] 1 1 fun _ => pure [v] := by
  refine ⟨Nat.le_refl _, fun g ks us mach hroom => ⟨rfl, ?_⟩⟩
  rw [List.cons_append, List.nil_append, List.cons_append, List.nil_append,
    run_immed callees g v ks (Instruction.decode_encode .immed none us)]
  simp only [bind, EStateM.bind, push, onStack, EStateM.run, Stack.push_eq v hroom]

end Simulates

/-! ## Instructions -/

section

variable {callees}

/-- A function of one value, on lists of one. -/
def one (f : Value → Except Fault Value) : List Value → Except Fault Value
  | [v] => f v
  | _ => .error (.internal "one operand expected")

/-- A function of two values, on lists of two. -/
def two (f : Value → Value → Except Fault Value) : List Value → Except Fault Value
  | [a, b] => f a b
  | _ => .error (.internal "two operands expected")

/-- An instruction that takes its operands, computes, and puts the result on the stack. -/
theorem acts_of_pop {i : Instruction} {n : Nat} {f : List Value → Except Fault Value}
    (h : ∀ (vs : List Value) (m : Machine), vs.length = n → n ≤ m.stack.room →
      instruction callees i { m with stack := m.stack.pushAll vs } =
        (do push (← ofExcept (f vs)) : Exec Unit) m) :
    Acts callees i n fun _ vs => Eval.ofExcept (f vs) := by
  intro vs m hlen hroom
  have hs := h vs m hlen (by omega)
  cases hf : f vs with
  | error e =>
    simp only [hf] at hs ⊢
    exact ⟨m.stack, hs⟩
  | ok v =>
    simp only [hf] at hs ⊢
    simp only [Eval.ofExcept, pure, EStateM.pure, hs, ofExcept, push, onStack, EStateM.run, bind,
      EStateM.bind, Stack.push_eq v (by omega : 1 ≤ m.stack.room)]

theorem acts_var (slot : Nat) :
    Acts callees (.var slot) 0 fun memory _ => Eval.fetch memory slot := by
  intro vs m hlen hroom
  obtain rfl := List.length_eq_zero_iff.1 hlen
  simp only [Eval.fetch, instruction, fetch, bind, EStateM.bind, get_apply, Stack.pushAll_nil]
  cases hf : m.memory.fetch m.workspace.table slot with
  | error e => exact ⟨_, rfl⟩
  | ok v =>
    simp only [ofExcept, Eval.ofExcept, pure, EStateM.pure, push, onStack, EStateM.run,
      Stack.push_eq v (by omega : 1 ≤ m.stack.room)]

theorem acts_unary (op : Opcode) (pair : OperandPair) :
    Acts callees (.unary op pair) 1 fun _ vs => Eval.ofExcept (one (Kernel.unary op pair) vs) := by
  refine acts_of_pop fun vs m hlen hroom => ?_
  obtain ⟨v, rfl⟩ := List.length_eq_one_iff.1 hlen
  simp only [instruction, bind, EStateM.bind, pop, onStack, EStateM.run,
    Stack.pop_pushAll v hroom, one]

theorem acts_member (place : Nat) :
    Acts callees (.member place) 1 fun _ vs => Eval.ofExcept (one (fieldOf place) vs) := by
  refine acts_of_pop fun vs m hlen hroom => ?_
  obtain ⟨v, rfl⟩ := List.length_eq_one_iff.1 hlen
  simp only [instruction, bind, EStateM.bind, pop, onStack, EStateM.run,
    Stack.pop_pushAll v hroom, one]

theorem acts_binary (op : Opcode) (pair : OperandPair) :
    Acts callees (.binary op pair) 2 fun _ vs => Eval.ofExcept (two (Kernel.binary op pair) vs) := by
  refine acts_of_pop fun vs m hlen hroom => ?_
  match vs, hlen with
  | [a, b], _ =>
    simp only [instruction, bind, EStateM.bind, popPair, onStack, EStateM.run,
      Stack.popPair_pushAll a b hroom, two]

theorem acts_index : Acts callees .index 2 fun _ vs => Eval.ofExcept (two item vs) := by
  refine acts_of_pop fun vs m hlen hroom => ?_
  match vs, hlen with
  | [a, b], _ =>
    simp only [instruction, bind, EStateM.bind, popPair, onStack, EStateM.run,
      Stack.popPair_pushAll a b hroom, two]

theorem acts_list (n : Nat) :
    Acts callees (.list n) n fun _ vs => Eval.ofExcept (.ok (.list vs)) := by
  refine acts_of_pop fun vs m hlen hroom => ?_
  subst hlen
  simp only [instruction, bind, EStateM.bind, popMany, onStack, EStateM.run,
    Stack.popMany_pushAll hroom, ofExcept, pure, EStateM.pure]

theorem acts_vector : Acts callees .vector 4 fun _ vs => Eval.ofExcept (vectorOf vs) := by
  refine acts_of_pop fun vs m hlen hroom => ?_
  rw [← hlen] at hroom
  simp only [instruction, bind, EStateM.bind, popMany, onStack, EStateM.run, ← hlen,
    Stack.popMany_pushAll hroom]

theorem acts_matrix : Acts callees .matrix 4 fun _ vs => Eval.ofExcept (matrixOf vs) := by
  refine acts_of_pop fun vs m hlen hroom => ?_
  rw [← hlen] at hroom
  simp only [instruction, bind, EStateM.bind, popMany, onStack, EStateM.run, ← hlen,
    Stack.popMany_pushAll hroom]

theorem acts_call (function n : Nat) :
    Acts callees (.call function n) n fun _ vs => Eval.call callees function vs := by
  intro vs m hlen hroom
  subst hlen
  simp only [Eval.call, instruction, call]
  cases hf : callees.functions[function]? with
  | none => exact ⟨_, rfl⟩
  | some f =>
    simp only [bind, EStateM.bind, get_apply, Stack.top?_pushAll, set_apply]
    cases ha : (f.execute vs 0).answer (services callees) m.workspace with
    | mk result w =>
      cases result with
      | error e => exact ⟨_, rfl⟩
      | ok v =>
        simp only [ofExcept, pure, EStateM.pure, modify_apply,
          Stack.drop_pushAll (by omega : vs.length ≤ m.stack.room), push, onStack,
          EStateM.run, Stack.push_eq v (by omega : 1 ≤ m.stack.room)]

end

namespace Simulates

variable {callees} {ws vs : List UInt32} {is js : List Value} {h k : Nat} {x y : Memory → Eval Value}
  {op : Opcode} {pair : Option OperandPair} {operands : List UInt32} {i : Instruction}

/-- Code of a value followed by an instruction that computes with it. -/
theorem compute {f : Value → Except Fault Value}
    (hx : Simulates callees ws is 1 h fun memory => do return [← x memory])
    (hd : ∀ rest, Instruction.decode (op.encode pair) (operands ++ rest) = .ok (i, rest))
    (hi : i.isPlain = true) (ha : Acts callees i 1 fun _ vs => Eval.ofExcept (one f vs)) :
    Simulates callees (ws ++ op.encode pair :: operands) is 1 h fun memory => do
      let v ← x memory
      return [← Eval.ofExcept (f v)] := by
  have hafter := hx.plain hd hi ha
  rw [Nat.max_eq_left hx.1] at hafter
  simp only [bind_assoc, pure_bind, one] at hafter
  exact hafter

/-- Code of two values followed by an instruction that computes with them. -/
theorem computePair {f : Value → Value → Except Fault Value}
    (hx : Simulates callees ws is 1 h fun memory => do return [← x memory])
    (hy : Simulates callees vs js 1 k fun memory => do return [← y memory])
    (hd : ∀ rest, Instruction.decode (op.encode pair) (operands ++ rest) = .ok (i, rest))
    (hi : i.isPlain = true) (ha : Acts callees i 2 fun _ vs => Eval.ofExcept (two f vs)) :
    Simulates callees (ws ++ vs ++ op.encode pair :: operands) (is ++ js) 1 (max h (1 + k))
      fun memory => do
        let a ← x memory
        let b ← y memory
        return [← Eval.ofExcept (f a b)] := by
  have hafter := (hx.seq hy).plain hd hi ha
  rw [Nat.max_eq_left (by omega)] at hafter
  simp only [bind_assoc, pure_bind, List.cons_append, List.nil_append, two] at hafter
  exact hafter

end Simulates

/-! ## Expressions -/

section

variable {Γ : Signature}

/-- An infix operation has an instruction on two operands. -/
theorem decode_binary {op : Operation} (h : op.isInfix = true) (pair : Option OperandPair)
    (rest : List UInt32) :
    Instruction.decode (op.opcode.encode pair) ([] ++ rest) =
      .ok (.binary op.opcode (Expr.tag pair), rest) := by
  rw [Instruction.decode_encode]
  cases op <;> first | rfl | cases h

theorem decode_unary {op : Operation} (h : op.isUnary = true) (pair : Option OperandPair)
    (rest : List UInt32) :
    Instruction.decode (op.opcode.encode pair) ([] ++ rest) =
      .ok (.unary op.opcode (Expr.tag pair), rest) := by
  rw [Instruction.decode_encode]
  cases op <;> first | rfl | cases h

theorem decode_take (pair : Option OperandPair) (rest : List UInt32) :
    Instruction.decode (Operation.take.opcode.encode pair) ([] ++ rest) =
      .ok (.binary Operation.take.opcode (Expr.tag pair), rest) := by
  rw [Instruction.decode_encode]
  rfl

theorem decode_index (rest : List UInt32) :
    Instruction.decode (Opcode.index.encode none) ([] ++ rest) = .ok (.index, rest) := by
  rw [Instruction.decode_encode]
  rfl

theorem decode_vector (rest : List UInt32) :
    Instruction.decode (Opcode.vector.encode none) ([] ++ rest) = .ok (.vector, rest) := by
  rw [Instruction.decode_encode]
  rfl

theorem decode_matrix (rest : List UInt32) :
    Instruction.decode (Opcode.matrix.encode none) ([] ++ rest) = .ok (.matrix, rest) := by
  rw [Instruction.decode_encode]
  rfl

theorem decode_var {slot : Nat} (h : slot < UInt32.size) (rest : List UInt32) :
    Instruction.decode (Opcode.var.encode none) ([UInt32.ofNat slot] ++ rest) =
      .ok (.var slot, rest) := by
  rw [Instruction.decode_encode]
  simp only [Instruction.ofOpcode, List.cons_append, List.nil_append,
    UInt32.toNat_ofNat_of_lt' h]

theorem decode_member {place : Nat} (h : place < UInt32.size) (rest : List UInt32) :
    Instruction.decode (Opcode.member.encode none) ([UInt32.ofNat place] ++ rest) =
      .ok (.member place, rest) := by
  rw [Instruction.decode_encode]
  simp only [Instruction.ofOpcode, List.cons_append, List.nil_append,
    UInt32.toNat_ofNat_of_lt' h]

theorem decode_list {n : Nat} (h : n < UInt32.size) (rest : List UInt32) :
    Instruction.decode (Opcode.list.encode none) ([UInt32.ofNat n] ++ rest) =
      .ok (.list n, rest) := by
  rw [Instruction.decode_encode]
  simp only [Instruction.ofOpcode, List.cons_append, List.nil_append,
    UInt32.toNat_ofNat_of_lt' h]

theorem decode_call {function n : Nat} (hf : function < UInt32.size) (hn : n < UInt32.size)
    (rest : List UInt32) :
    Instruction.decode (Opcode.fun.encode none)
      ([UInt32.ofNat function, UInt32.ofNat n] ++ rest) = .ok (.call function n, rest) := by
  rw [Instruction.decode_encode]
  simp only [Instruction.ofOpcode, List.cons_append, List.nil_append,
    UInt32.toNat_ofNat_of_lt' hf, UInt32.toNat_ofNat_of_lt' hn]

theorem height_four (x y z w : Expr) :
    max (Expr.heightAll [x, y, z, w]) 1 =
      max x.height (1 + max y.height (1 + max z.height (1 + w.height))) := by
  have h : 1 ≤ w.height := w.emits.1
  simp only [Expr.heightAll]
  omega

mutual

/-- Running the code of an expression is evaluating the expression. -/
theorem simulates {e : Expr} {t : Ty} : Expr.HasType Γ e t → e.Fits →
    Simulates callees e.words e.immediates 1 e.height
      fun memory => do return [← e.eval callees memory]
  | .literal v, _ => by
    have h := @Simulates.literal callees v
    simp only [Expr.eval, pure_bind]
    exact h
  | .var _, hf => by
    have h := (@Simulates.nothing callees).plain (decode_var hf) rfl (acts_var _)
    simp only [pure_bind] at h
    simp only [Expr.eval]
    exact h
  | .unary (t := t) he hop _, hf => by
    have h := (simulates he hf).compute (decode_unary hop (Ty.pair? t t)) rfl (acts_unary _ _)
    simp only [Expr.eval, bind_assoc]
    exact h
  | .binary (a := a) (b := b) hl hr hop _, hf => by
    have h := (simulates hl hf.1).computePair (simulates hr hf.2)
      (decode_binary hop (Ty.pair? a b)) rfl (acts_binary _ _)
    simp only [Expr.eval, bind_assoc]
    exact h
  | .part (t := t) hl hi _, hf => by
    have h := (simulates hl hf.1).computePair (simulates hi hf.2)
      (decode_take (Ty.pair? t .integer)) rfl (acts_binary _ _)
    simp only [Expr.eval, bind_assoc]
    exact h
  | .element hl hi, hf => by
    have h := (simulates hl hf.1).computePair (simulates hi hf.2) decode_index rfl acts_index
    simp only [Expr.eval, bind_assoc]
    exact h
  | .field hr _, hf => by
    have h := (simulates hr hf.1).compute (decode_member hf.2) rfl (acts_member _)
    simp only [Expr.eval, Expr.words, bind_assoc, List.append_assoc, List.cons_append,
      List.nil_append]
    exact h
  | .list hes, hf => by
    have h := (simulatesAll hes hf.1).plain (decode_list hf.2) rfl (acts_list _)
    simp only [Eval.ofExcept, pure_bind] at h
    simp only [Expr.eval, Expr.words, bind_assoc, pure_bind, List.append_assoc, List.cons_append,
      List.nil_append]
    exact h
  | .vector hes _, hf => by
    have h := (simulatesAll hes ⟨hf.1, hf.2.1, hf.2.2.1, hf.2.2.2, trivial⟩).plain
      decode_vector rfl acts_vector
    simp only [Expr.wordsAll, Expr.immediatesAll, Expr.evalAll, List.append_nil, bind_assoc,
      pure_bind] at h
    rw [height_four] at h
    simp only [Expr.eval, bind_assoc]
    exact h
  | .matrix hes _, hf => by
    have h := (simulatesAll hes ⟨hf.1, hf.2.1, hf.2.2.1, hf.2.2.2, trivial⟩).plain
      decode_matrix rfl acts_matrix
    simp only [Expr.wordsAll, Expr.immediatesAll, Expr.evalAll, List.append_nil, bind_assoc,
      pure_bind] at h
    rw [height_four] at h
    simp only [Expr.eval, bind_assoc]
    exact h
  | .call _ hes _, hf => by
    have h := (simulatesAll hes hf.1).plain (decode_call hf.2.1 hf.2.2) rfl (acts_call _ _)
    simp only [Expr.eval, Expr.words, bind_assoc, List.append_assoc, List.cons_append,
      List.nil_append]
    exact h

theorem simulatesAll {es : List Expr} {ts : List Ty} : Expr.HaveTypes Γ es ts → Expr.FitAll es →
    Simulates callees (Expr.wordsAll es) (Expr.immediatesAll es) es.length (Expr.heightAll es)
      fun memory => Expr.evalAll callees memory es
  | .nil, _ => by
    simp only [Expr.evalAll]
    exact .nothing
  | .cons he hes, hf => by
    have h := (simulates he hf.1).seq (simulatesAll hes hf.2)
    rw [Nat.add_comm 1] at h
    simp only [bind_assoc, pure_bind, List.cons_append, List.nil_append] at h
    simp only [Expr.evalAll]
    exact h

end

end

/-! ## Statements -/

section

variable (callees : Callees)

/-- Where code that leaves one value ends, the run takes the value. -/
theorem run_alone {words : List UInt32} {immediates : List Value} {height : Nat}
    {x : Memory → Eval Value}
    (h : Simulates callees words immediates 1 height fun memory => do return [← x memory])
    (is : List Value) (m : Machine) (hroom : height ≤ m.stack.room) :
    match x m.memory m.workspace with
    | .ok v w => run callees false (immediates ++ is) words m = .ok v { m with workspace := w }
    | .error f w => ∃ stack, run callees false (immediates ++ is) words m =
        .error f { m with stack := stack, workspace := w } := by
  have h1 := h.2 false is [] m hroom
  have hr : 1 ≤ m.stack.room := Nat.le_trans h.1 hroom
  simp only [bind, EStateM.bind, List.append_nil] at h1
  cases hx : x m.memory m.workspace with
  | error f w => simpa only [hx] using h1
  | ok v w =>
    simp only [hx] at h1 ⊢
    rw [h1.2, run]
    simp only [Bool.false_eq_true, if_false, pop, onStack, EStateM.run, Stack.pop_pushAll v hr]

/-- The machine carries out the expression language. Emission adds the same code and the same
immediates to any builder; wherever they stand, on top of any stack with room, running them does
what evaluating the tree does, to the value or the first fault and to the workspace, and leaves the
stack as it was but for the value. So a statement made of the expression alone evaluates it. -/
theorem run_emit {Γ : Signature} {e : Expr} {t : Ty} (he : e.HasType Γ t) (hf : e.Fits) :
    (∃ words immediates height,
      (∀ b : Builder, b.Level → e.emit.run b = .ok () (b.extended words immediates 1 height)) ∧
      ∀ (guarded : Bool) (is : List Value) (ws : List UInt32) (m : Machine),
        height ≤ m.stack.room →
          match e.eval callees m.memory m.workspace with
          | .ok v w => run callees guarded (immediates ++ is) (words ++ ws) m =
              run callees guarded is ws { m with stack := m.stack.pushAll [v], workspace := w }
          | .error f w => ∃ stack, run callees guarded (immediates ++ is) (words ++ ws) m =
              .error f { m with stack := stack, workspace := w }) ∧
    ∀ (kind : StatementKind) (p : Position), ∃ s, Stmt.assemble kind e.emit p = .ok s ∧
      ∀ m : Machine, s.depth ≤ m.stack.clear.room →
        match e.eval callees m.memory m.workspace with
        | .ok v w => value callees s m = .ok v { m with stack := m.stack.clear, workspace := w }
        | .error f w => ∃ stack, value callees s m =
            .error f { m with stack := stack, workspace := w } := by
  have hs := simulates callees he hf
  refine ⟨⟨e.words, e.immediates, e.height, e.emits.2, fun g is ws m hroom => ?_⟩,
    fun kind p => ⟨_, Stmt.assemble_eq e.emits kind p, fun m hroom => ?_⟩⟩
  · have h := hs.2 g is ws m hroom
    simp only [bind, EStateM.bind] at h
    cases hx : e.eval callees m.memory m.workspace with
    | error f w => simpa only [hx] using h
    | ok v w =>
      simp only [hx] at h ⊢
      exact h.2
  · have h := run_alone callees hs [] { m with stack := m.stack.clear } hroom
    rw [List.append_nil] at h
    exact h

/-- One plus a variable that holds two. -/
theorem run_emit_sum :
    let e : Expr := .binary .add (Ty.pair? .integer .integer) (.literal (.integer 1)) (.var 0)
    let callees : Callees := ⟨[], fun _ w => (.ok (), w)⟩
    let m : Machine := ⟨.empty "evaluation stack" 2, ⟨[.local (.integer 2)]⟩, .new⟩
    e.HasType ⟨fun _ => some .integer, []⟩ .integer ∧ e.Fits ∧
      ∃ s, Stmt.assemble .discard e.emit ⟨1, 1, 0, 5⟩ = .ok s ∧
        value callees s m = .ok (.integer 3) m := by
  intro e callees m
  have he : e.HasType ⟨fun _ => some .integer, []⟩ .integer :=
    .binary (.literal _) (.var rfl) rfl rfl
  have hf : e.Fits := ⟨trivial, (by decide : 0 < UInt32.size)⟩
  obtain ⟨s, hs, hrun⟩ := (run_emit callees he hf).2 .discard ⟨1, 1, 0, 5⟩
  have hd : s.depth = 2 := by
    rw [Stmt.assemble_eq e.emits] at hs
    cases hs
    rfl
  refine ⟨he, hf, s, hs, ?_⟩
  exact hrun m (by rw [hd]; exact Nat.le_refl _)

end

end Exec

end VectorScript
