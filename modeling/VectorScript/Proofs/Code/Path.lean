import VectorScript.Proofs.Code.Straight
import VectorScript.Proofs.Machine.Walk
import Mathlib.Logic.Relation

/-!
# Paths through code

A path goes through the code of a statement from instruction to instruction and, at a guard, either
into what it protects or past it (`Point.Step`). On every path the stack has what each instruction
takes, is never higher than the statement says, and has the indices and one value at the end
(`Point.Level`). `Raises` says so for a piece of code, wherever it stands. A run that gives a value has
gone along a path, with a stack as high as the path says.

    s.Shaped p → s.code.length < UInt32.size → s.start.Safe s.depth (s.kind.pathLength + 1)    (safe)
    run callees a.guarded a.immediates a.words m = .ok v m' → ∃ b, ReflTransGen Step a b ∧ …
                                                                                     (path_of_run)
-/

namespace VectorScript

/-- How many values the instruction takes from the stack. -/
def Instruction.pops : Instruction → Nat
  | immed | var _ => 0
  | member _ | unary _ _ | guard _ _ => 1
  | index | binary _ _ => 2
  | vector | matrix => 4
  | call _ n | list n => n

/-! ## The height of the stack -/

namespace Exec

variable {α β : Type} {callees : Callees}

/-- If the step succeeds, it has put `k` values in place of the topmost `n`. -/
def Replaces (n k : Nat) (x : Exec α) : Prop :=
  ∀ m a m', x m = .ok a m' →
    ∃ below, m.stack.size = below + n ∧ m'.stack.size = below + k

theorem Replaces.bind {n j k : Nat} {x : Exec α} {f : α → Exec β} (hx : Replaces n 0 x)
    (hf : ∀ a, Replaces j k (f a)) : Replaces (n + j) k (x >>= f) := by
  intro m b m' h
  obtain ⟨a, m₁, h₁, h₂⟩ := of_bind_ok h
  obtain ⟨below, hm, hm₁⟩ := hx m a m₁ h₁
  obtain ⟨below', hm₁', hm'⟩ := hf a m₁ b m' h₂
  exact ⟨below', by omega, hm'⟩

theorem replaces_ofExcept (x : Except Fault α) : Replaces 0 0 (ofExcept x) := by
  intro m a m' h
  cases x with
  | error e => cases h
  | ok b =>
    cases h
    exact ⟨_, rfl, rfl⟩

theorem replaces_fetch (slot : Nat) : Replaces 0 0 (fetch slot) := by
  intro m a m' h
  exact replaces_ofExcept (m.memory.fetch m.workspace.table slot) m a m' h

/-- What a step does to the stack alone. -/
theorem replaces_onStack {n k : Nat} {step : StackStep Value α}
    (h : ∀ s a s', step s = .ok a s' → ∃ below, s.size = below + n ∧ s'.size = below + k) :
    Replaces n k (onStack step) := by
  intro m a m' hm
  unfold onStack at hm
  split at hm
  · next a s' hs =>
    cases hm
    exact h _ _ _ hs
  · cases hm

theorem replaces_push (v : Value) : Replaces 0 1 (push v) := by
  refine replaces_onStack fun s a s' h => ?_
  obtain ⟨name, room, items⟩ := s
  cases room with
  | zero => cases h
  | succ room =>
    cases h
    exact ⟨items.length, rfl, rfl⟩

theorem replaces_pop : Replaces 1 0 pop := by
  refine replaces_onStack fun s a s' h => ?_
  obtain ⟨name, room, items⟩ := s
  cases items with
  | nil => cases h
  | cons b items =>
    cases h
    exact ⟨items.length, rfl, rfl⟩

theorem replaces_popPair : Replaces 2 0 popPair := by
  refine replaces_onStack fun s a s' h => ?_
  obtain ⟨name, room, items⟩ := s
  match items, h with
  | b :: c :: items, h =>
    cases h
    exact ⟨items.length, rfl, rfl⟩

theorem size_of_top? {s : Stack α} {n : Nat} {as : List α} (h : s.top? n = some as) :
    ∃ below, s.size = below + n ∧ (s.drop n).size = below := by
  unfold Stack.top? at h
  dsimp only at h
  split at h
  · next hlength =>
    rw [List.length_take] at hlength
    refine ⟨s.size - n, ?_, List.length_drop⟩
    unfold Stack.size
    omega
  · cases h

theorem replaces_popMany (n : Nat) : Replaces n 0 (popMany n) := by
  refine replaces_onStack fun s a s' h => ?_
  unfold Stack.popMany at h
  simp only [bind, EStateM.bind, get_apply] at h
  cases htop : s.top? n with
  | none =>
    simp only [htop] at h
    cases h
  | some items =>
    simp only [htop] at h
    cases h
    exact size_of_top? htop

theorem replaces_call (index arity : Nat) : Replaces arity 1 (call callees index arity) := by
  intro m a m' h
  unfold call at h
  cases hf : callees.functions[index]? with
  | none =>
    simp only [hf] at h
    cases h
  | some f =>
    simp only [hf, bind, EStateM.bind, get_apply] at h
    cases htop : m.stack.top? arity with
    | none =>
      simp only [htop] at h
      cases h
    | some args =>
      obtain ⟨below, hm, hdrop⟩ := size_of_top? htop
      simp only [htop] at h
      cases hr : ((f.execute args 0).answer (services callees) m.workspace).1 with
      | error e =>
        simp only [hr] at h
        cases h
      | ok v =>
        simp only [hr, ofExcept, pure] at h
        obtain ⟨below', hbelow, hm'⟩ := replaces_push v _ _ _ h
        refine ⟨below, hm, ?_⟩
        dsimp only at hbelow
        omega

/-- An instruction takes what it says and leaves one value. -/
theorem replaces_instruction {i : Instruction} (hi : i.isPlain = true) :
    Replaces i.pops 1 (instruction callees i) := by
  cases i with
  | immed => cases hi
  | guard => cases hi
  | var slot => exact (replaces_fetch slot).bind replaces_push
  | call function arity => exact replaces_call function arity
  | member place =>
    exact replaces_pop.bind fun v => (replaces_ofExcept (fieldOf place v)).bind replaces_push
  | index =>
    exact replaces_popPair.bind fun v => (replaces_ofExcept (item v.1 v.2)).bind replaces_push
  | list n => exact (replaces_popMany n).bind fun vs => replaces_push (.list vs)
  | vector =>
    exact (replaces_popMany 4).bind fun vs => (replaces_ofExcept (vectorOf vs)).bind replaces_push
  | matrix =>
    exact (replaces_popMany 4).bind fun vs => (replaces_ofExcept (matrixOf vs)).bind replaces_push
  | unary op pair =>
    exact replaces_pop.bind fun v =>
      (replaces_ofExcept (Kernel.unary op pair v)).bind replaces_push
  | binary op pair =>
    exact replaces_popPair.bind fun v =>
      (replaces_ofExcept (Kernel.binary op pair v.1 v.2)).bind replaces_push

end Exec

/-! ## Paths -/

/-- How far a path has come: whether it has passed a guard by, what is ahead of it, and how high the
stack is. -/
structure Point where
  guarded : Bool
  immediates : List Value
  words : List UInt32
  height : Nat

namespace Point

/-- One instruction further. -/
inductive Step : Point → Point → Prop
  | immed {g : Bool} {v : Value} {is : List Value} {word : UInt32} {rest after : List UInt32}
      {n : Nat} (h : Instruction.decode word rest = .ok (.immed, after)) :
      Step ⟨g, v :: is, word :: rest, n⟩ ⟨g, is, after, n + 1⟩
  | plain {g : Bool} {is : List Value} {word : UInt32} {rest after : List UInt32} {n : Nat}
      {i : Instruction} (h : Instruction.decode word rest = .ok (i, after))
      (hi : i.isPlain = true) : Step ⟨g, is, word :: rest, n⟩ ⟨g, is, after, n - i.pops + 1⟩
  | taken {g : Bool} {is : List Value} {word : UInt32} {rest after : List UInt32}
      {n codeLength count : Nat}
      (h : Instruction.decode word rest = .ok (.guard codeLength count, after)) :
      Step ⟨g, is, word :: rest, n⟩ ⟨false, is, after.take codeLength, n - 1⟩
  | passed {g : Bool} {is : List Value} {word : UInt32} {rest after : List UInt32}
      {n codeLength count : Nat}
      (h : Instruction.decode word rest = .ok (.guard codeLength count, after)) :
      Step ⟨g, is, word :: rest, n⟩ ⟨true, is.drop count, after.drop codeLength, n - 1⟩

/-- The stack is no higher than the limit and has what the next instruction takes. At the end of code
without a guard, or of what a guard protects, it is as high as it should be; past the last guard it
is one lower. -/
structure Level (limit final : Nat) (a : Point) : Prop where
  bound : a.height ≤ limit
  next : ∀ word rest, a.words = word :: rest → ∃ i after,
    Instruction.decode word rest = .ok (i, after) ∧ i.pops ≤ a.height ∧
      (i = .immed → a.immediates ≠ [])
  done : a.words = [] → a.height + a.guarded.toNat = final

/-- So it is all the way from here. -/
def Safe (limit final : Nat) (a : Point) : Prop :=
  ∀ b, Relation.ReflTransGen Step a b → b.Level limit final

section

variable {limit final n : Nat} {g : Bool} {is : List Value} {word : UInt32}
  {rest after : List UInt32}

theorem Safe.of_step {a : Point} (h : a.Level limit final)
    (hnext : ∀ b, Step a b → b.Safe limit final) : a.Safe limit final := by
  intro c hc
  rcases Relation.ReflTransGen.cases_head hc with rfl | ⟨b, hb, hbc⟩
  · exact h
  · exact hnext b hb c hbc

theorem safe_nil (hn : n ≤ limit) (h : n + g.toNat = final) :
    Safe limit final ⟨g, is, [], n⟩ := by
  refine .of_step ⟨hn, fun _ _ h => ?_, fun _ => h⟩ fun b hb => ?_
  · cases h
  · cases hb

/-- The words begin with an instruction for which there is enough on the stack. -/
theorem level_of_decode {i : Instruction} (hd : Instruction.decode word rest = .ok (i, after))
    (hn : n ≤ limit) (hpops : i.pops ≤ n) (hi : i = .immed → is ≠ []) :
    Level limit final ⟨g, is, word :: rest, n⟩ := by
  refine ⟨hn, fun word' rest' h => ?_, fun h => ?_⟩
  · cases h
    exact ⟨i, after, hd, hpops, hi⟩
  · cases h

/-- What a step does is up to the instruction that the words begin with. -/
theorem Step.of_decode {i : Instruction} (hd : Instruction.decode word rest = .ok (i, after))
    {b : Point} (h : Step ⟨g, is, word :: rest, n⟩ b) :
    (i = .immed ∧ ∃ v js, is = v :: js ∧ b = ⟨g, js, after, n + 1⟩) ∨
    (i.isPlain = true ∧ b = ⟨g, is, after, n - i.pops + 1⟩) ∨
    ∃ codeLength count, i = .guard codeLength count ∧
      (b = ⟨false, is, after.take codeLength, n - 1⟩ ∨
        b = ⟨true, is.drop count, after.drop codeLength, n - 1⟩) := by
  cases h with
  | immed hd' =>
    cases hd.symm.trans hd'
    exact .inl ⟨rfl, _, _, rfl, rfl⟩
  | plain hd' hi =>
    cases hd.symm.trans hd'
    exact .inr (.inl ⟨hi, rfl⟩)
  | taken hd' =>
    cases hd.symm.trans hd'
    exact .inr (.inr ⟨_, _, rfl, .inl rfl⟩)
  | passed hd' =>
    cases hd.symm.trans hd'
    exact .inr (.inr ⟨_, _, rfl, .inr rfl⟩)

theorem safe_immed {v : Value} (hd : Instruction.decode word rest = .ok (.immed, after))
    (hn : n ≤ limit) (h : Safe limit final ⟨g, is, after, n + 1⟩) :
    Safe limit final ⟨g, v :: is, word :: rest, n⟩ := by
  refine .of_step (level_of_decode hd hn (Nat.zero_le _) fun _ => List.cons_ne_nil _ _)
    fun b hb => ?_
  rcases hb.of_decode hd with ⟨-, _, _, his, rfl⟩ | ⟨hi, -⟩ | ⟨_, _, hi, -⟩
  · cases his
    exact h
  · cases hi
  · cases hi

theorem safe_plain {i : Instruction} (hd : Instruction.decode word rest = .ok (i, after))
    (hi : i.isPlain = true) (hn : n ≤ limit) (hpops : i.pops ≤ n)
    (h : Safe limit final ⟨g, is, after, n - i.pops + 1⟩) :
    Safe limit final ⟨g, is, word :: rest, n⟩ := by
  have hne : i ≠ .immed := by
    rintro rfl
    cases hi
  refine .of_step (level_of_decode hd hn hpops fun h => absurd h hne) fun b hb => ?_
  rcases hb.of_decode hd with ⟨himmed, -⟩ | ⟨-, rfl⟩ | ⟨_, _, rfl, -⟩
  · exact absurd himmed hne
  · exact h
  · cases hi

theorem safe_guard {codeLength count : Nat}
    (hd : Instruction.decode word rest = .ok (.guard codeLength count, after))
    (hn : n + 1 ≤ limit) (htaken : Safe limit final ⟨false, is, after.take codeLength, n⟩)
    (hpassed : Safe limit final ⟨true, is.drop count, after.drop codeLength, n⟩) :
    Safe limit final ⟨g, is, word :: rest, n + 1⟩ := by
  refine .of_step (level_of_decode hd hn (Nat.succ_pos n) nofun) fun b hb => ?_
  rcases hb.of_decode hd with ⟨hi, -⟩ | ⟨hi, -⟩ | ⟨_, _, hi, rfl | rfl⟩
  · cases hi
  · cases hi
  · cases hi
    exact htaken
  · cases hi
    exact hpassed

end

end Point

/-! ## Pieces of code -/

/-- Ahead of code that is safe with so many values more, the words with their immediates are safe if
there is room for their height. -/
def Raises (words : List UInt32) (immediates : List Value) (count height : Nat) : Prop :=
  ∀ {limit final n : Nat} {g : Bool} {is : List Value} {ws : List UInt32}, n + height ≤ limit →
    Point.Safe limit final ⟨g, is, ws, n + count⟩ →
      Point.Safe limit final ⟨g, immediates ++ is, words ++ ws, n⟩

section

variable {p : Program} {op : Opcode} {operands ws vs us : List UInt32} {is js ks : List Value}
  {m n h k : Nat}

theorem Plain.decodes (hop : Plain p op operands n) (hn : n < UInt32.size)
    (pair : Option OperandPair) : ∃ i, i.isPlain = true ∧ i.pops = n ∧
      ∀ rest, Instruction.decode (op.encode pair) (operands ++ rest) = .ok (i, rest) := by
  cases hop with
  | var h => exact ⟨_, rfl, rfl, fun rest => Instruction.decode_encode .var pair _⟩
  | unary h => exact ⟨_, rfl, rfl, Exec.decode_unary h pair⟩
  | binary h =>
    rcases h with h | rfl
    · exact ⟨_, rfl, rfl, Exec.decode_binary h pair⟩
    · exact ⟨_, rfl, rfl, Exec.decode_take pair⟩
  | index => exact ⟨_, rfl, rfl, fun rest => Instruction.decode_encode .index pair _⟩
  | member place => exact ⟨_, rfl, rfl, fun rest => Instruction.decode_encode .member pair _⟩
  | list n =>
    exact ⟨.list (UInt32.ofNat n).toNat, rfl, UInt32.toNat_ofNat_of_lt' hn,
      fun rest => Instruction.decode_encode .list pair _⟩
  | vector => exact ⟨_, rfl, rfl, fun rest => Instruction.decode_encode .vector pair _⟩
  | matrix => exact ⟨_, rfl, rfl, fun rest => Instruction.decode_encode .matrix pair _⟩
  | @call function f h =>
    exact ⟨.call (UInt32.ofNat function).toNat (UInt32.ofNat f.params.length).toNat, rfl,
      UInt32.toNat_ofNat_of_lt' hn, fun rest => Instruction.decode_encode .fun pair _⟩

theorem Straight.raises (hx : Straight p ws is n h) (hsize : ws.length < UInt32.size) :
    Raises ws is n h := by
  induction hx with
  | nothing => exact fun _ h => h
  | literal v =>
    intro limit final n g is ws hn hsafe
    exact Point.safe_immed (Instruction.decode_encode .immed none ws) (by omega) hsafe
  | seq _ _ ihx ihy =>
    rw [List.length_append] at hsize
    intro limit final n g is ws hn hsafe
    rw [List.append_assoc, List.append_assoc]
    rw [← Nat.add_assoc] at hsafe
    exact ihx (by omega) (by omega) (ihy (by omega) (by omega) hsafe)
  | plain hx pair hop ih =>
    rw [List.length_append, List.length_cons] at hsize
    obtain ⟨hwords, hheight⟩ := hx.count_le
    obtain ⟨i, hi, hpops, hd⟩ := hop.decodes (by omega) pair
    intro limit final n g is ws hn hsafe
    rw [List.append_assoc]
    refine ih (by omega) (by omega) ?_
    refine Point.safe_plain (hd ws) hi (by omega) (by omega) ?_
    rw [hpops, Nat.add_sub_cancel]
    exact hsafe

/-- A guard leaves the stack as it is, and what it protects ends the code. -/
theorem Straight.safe_guard (hvalue : Straight p vs js 1 k) (hsize : vs.length < UInt32.size)
    {limit : Nat} {g : Bool} (hn : n + k ≤ limit)
    (hrest : Point.Safe limit (n + 1) ⟨true, ks, us, n⟩) :
    Point.Safe limit (n + 1) ⟨g, js ++ ks, Opcode.guard.encode none ::
      UInt32.ofNat vs.length :: UInt32.ofNat js.length :: (vs ++ us), n + 1⟩ := by
  have hk := hvalue.count_le.2
  have hjs := Nat.lt_of_le_of_lt hvalue.immediates_le hsize
  refine Point.safe_guard (Instruction.decode_encode .guard none _) (by omega) ?_ ?_
  · have hend : Point.Safe limit (n + 1) ⟨false, ks, [], n + 1⟩ := Point.safe_nil (by omega) rfl
    have hsafe := hvalue.raises hsize hn hend
    rw [List.append_nil] at hsafe
    rw [UInt32.toNat_ofNat_of_lt' hsize, List.take_left]
    exact hsafe
  · rw [UInt32.toNat_ofNat_of_lt' hsize, UInt32.toNat_ofNat_of_lt' hjs, List.drop_left,
      List.drop_left]
    exact hrest

/-- Every value of a chain ends the code, and so does the chain when no guard holds. -/
theorem Chain.safe (hx : Chain p ws is h) (hsize : ws.length < UInt32.size) {limit : Nat}
    (hn : n + max h 1 ≤ limit) {g : Bool} (hg : ws = [] → g = true) :
    Point.Safe limit (n + 1) ⟨g, is, ws, n⟩ := by
  induction hx generalizing g with
  | nil =>
    -- the code has ended past the last guard
    obtain rfl := hg rfl
    exact Point.safe_nil (by omega) rfl
  | cons hcondition hvalue hrest ih =>
    simp only [List.length_append, List.length_cons] at hsize
    have hrest := ih (by omega) (by omega) (g := true) fun _ => rfl
    exact hcondition.raises (by omega) (by omega)
      (hvalue.safe_guard (by omega) (by omega) hrest)

end

/-! ## Statements -/

/-- Where the code of a statement begins. -/
def Statement.start (s : Statement) : Point := ⟨false, s.immediates, s.code, 0⟩

/-- Every path through the code of a statement ends with the indices of its path and one value, and
stays within its depth. -/
theorem Statement.Shaped.safe {p : Program} {s : Statement} (h : s.Shaped p)
    (hsize : s.code.length < UInt32.size) : s.start.Safe s.depth (s.kind.pathLength + 1) := by
  cases h with
  | straight h =>
    have hdepth := h.count_le.2
    have hend : Point.Safe s.depth (s.kind.pathLength + 1)
        ⟨false, [], [], 0 + (s.kind.pathLength + 1)⟩ :=
      Point.safe_nil (by omega) (Nat.zero_add _)
    have hsafe := h.raises hsize (by omega) hend
    rw [List.append_nil, List.append_nil] at hsafe
    exact hsafe
  | @guarded ws vs is js h k hpath hchain hne hcode himmediates hdepth =>
    rw [hcode, List.length_append] at hsize
    have hend : Point.Safe s.depth (s.kind.pathLength + 1)
        ⟨false, js, vs, 0 + s.kind.pathLength⟩ := by
      rw [Nat.zero_add]
      exact hchain.safe (by omega) (by omega) fun h => absurd h hne
    have hsafe := hpath.raises (by omega) (by omega) hend
    rw [← hcode, ← himmediates] at hsafe
    exact hsafe

/-! ## Runs -/

namespace Exec

variable {callees : Callees} {v : Value} {m m' : Machine}

/-- A run that gives a value takes a step of a path, with a stack as high as the path says. -/
theorem step_of_run {g : Bool} {is : List Value} {word : UInt32} {rest : List UInt32}
    (h : run callees g is (word :: rest) m = .ok v m') :
    ∃ (b : Point) (m₁ : Machine), Point.Step ⟨g, is, word :: rest, m.stack.size⟩ b ∧
      m₁.stack.size = b.height ∧ b.words.length ≤ rest.length ∧
      run callees b.guarded b.immediates b.words m₁ = .ok v m' := by
  cases hd : Instruction.decode word rest with
  | error e =>
    rw [run_of_decode_error callees hd] at h
    cases h
  | ok result =>
    obtain ⟨i, after⟩ := result
    have hlength := Instruction.length_decode hd
    by_cases hi : i.isPlain = true
    · rw [run_plain callees g is hd hi] at h
      obtain ⟨_, m₁, hstep, h⟩ := of_bind_ok h
      obtain ⟨below, hsize, hsize₁⟩ := replaces_instruction hi _ _ _ hstep
      exact ⟨_, m₁, .plain hd hi, by dsimp only; omega, hlength, h⟩
    · cases i with
      | immed =>
        cases is with
        | nil =>
          rw [run_immed_nil callees hd] at h
          cases h
        | cons u is =>
          rw [run_immed callees g u is hd] at h
          obtain ⟨_, m₁, hstep, h⟩ := of_bind_ok h
          obtain ⟨below, hsize, hsize₁⟩ := replaces_push _ _ _ _ hstep
          exact ⟨_, m₁, .immed hd, by dsimp only; omega, hlength, h⟩
      | guard codeLength count =>
        rw [run_guard callees g is hd] at h
        obtain ⟨condition, m₁, hpop, h⟩ := of_bind_ok h
        obtain ⟨below, hsize, hsize₁⟩ := replaces_pop _ _ _ hpop
        obtain ⟨n, m₂, hinteger, h⟩ := of_bind_ok h
        obtain ⟨below', hsize₁', hsize₂⟩ := replaces_ofExcept _ _ _ _ hinteger
        split at h
        -- Either way words are dropped, those of the other branch or those after this one.
        · refine ⟨_, m₂, .taken hd, by dsimp only; omega, ?_, h⟩
          rw [List.length_take]
          omega
        · refine ⟨_, m₂, .passed hd, by dsimp only; omega, ?_, h⟩
          rw [List.length_drop]
          omega
      | _ => exact absurd rfl hi

/-- A run that gives a value has gone along a path to its end. -/
theorem path_of_run (a : Point) (hm : m.stack.size = a.height)
    (h : run callees a.guarded a.immediates a.words m = .ok v m') :
    ∃ b : Point, Relation.ReflTransGen Point.Step a b ∧ b.words = [] ∧ b.guarded = false ∧
      b.height = m'.stack.size + 1 := by
  -- on the words ahead, of which an instruction may take several and a guard any number
  induction hk : a.words.length using Nat.strongRecOn generalizing a m with
  | ind k ih =>
  obtain ⟨g, is, words, n⟩ := a
  obtain rfl : m.stack.size = n := hm
  dsimp only at h hk
  cases words with
  | nil =>
    rw [run] at h
    cases g with
    | true => cases h
    | false =>
      obtain ⟨below, hsize, hsize'⟩ := replaces_pop _ _ _ h
      exact ⟨_, .refl, rfl, rfl, by dsimp only; omega⟩
  | cons word rest =>
    obtain ⟨b, m₁, hstep, hsize, hlength, h⟩ := step_of_run h
    obtain ⟨c, hpath, hend⟩ := ih _ (hk ▸ Nat.lt_succ_of_le hlength) b hsize h rfl
    exact ⟨c, .head hstep hpath, hend⟩

/-- What a statement leaves below its value is the indices of its path. -/
theorem size_of_value {p : Program} {s : Statement} (hs : s.Shaped p)
    (hsize : s.code.length < UInt32.size) (h : value callees s m = .ok v m') :
    m'.stack.size = s.kind.pathLength := by
  obtain ⟨b, hpath, hwords, hguarded, hheight⟩ := path_of_run s.start m.stack.size_clear h
  have hdone := (hs.safe hsize b hpath).done hwords
  rw [hguarded, hheight] at hdone
  exact Nat.succ.inj hdone

end Exec

end VectorScript
