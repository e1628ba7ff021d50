import VectorScript.Proofs.Machine.Conduct
import VectorScript.Proofs.Machine.Walk
import Mathlib.Logic.Relation

/-!
# How far an evaluation has come

An evaluation goes from stage to stage, an instruction at a time (`Stage.Step`), and a run from
statement to statement (`Exec.Goes`). What fails at a stage that has been reached fails the evaluation,
and what fails a statement that has been reached fails the run, with the same fault. One such stage is
a call that dispatches a script (`Stage.Dispatches`).

    s.Reaches callees m a → a.run callees = .error e m' → statement callees s m = .error e m'
                                                                              (statement_of_reaches)
-/

namespace VectorScript

/-! ## Stages -/

/-- What an evaluation still has to do, and the machine on which it does it. -/
structure Stage where
  guarded : Bool
  immediates : List Value
  words : List UInt32
  machine : Machine

namespace Stage

/-- What comes of going on from here. -/
def run (a : Stage) (callees : Callees) : EStateM.Result Fault Machine Value :=
  Exec.run callees a.guarded a.immediates a.words a.machine

/-- An instruction is carried out. -/
inductive Step (callees : Callees) : Stage → Stage → Prop
  | immed {g : Bool} {v : Value} {is : List Value} {word : UInt32} {rest after : List UInt32}
      {m m' : Machine} (hd : Instruction.decode word rest = .ok (.immed, after))
      (h : Exec.push v m = .ok () m') : Step callees ⟨g, v :: is, word :: rest, m⟩ ⟨g, is, after, m'⟩
  | plain {g : Bool} {is : List Value} {word : UInt32} {rest after : List UInt32} {m m' : Machine}
      {i : Instruction} (hd : Instruction.decode word rest = .ok (i, after)) (hi : i.isPlain = true)
      (h : Exec.instruction callees i m = .ok () m') :
      Step callees ⟨g, is, word :: rest, m⟩ ⟨g, is, after, m'⟩
  | taken {g : Bool} {is : List Value} {word : UInt32} {rest after : List UInt32} {m m' : Machine}
      {codeLength count : Nat} {v : Value} {n : Int32}
      (hd : Instruction.decode word rest = .ok (.guard codeLength count, after))
      (h : Exec.pop m = .ok v m') (hv : v.asInteger = .ok n) (hn : n ≠ 0) :
      Step callees ⟨g, is, word :: rest, m⟩ ⟨false, is, after.take codeLength, m'⟩
  | passed {g : Bool} {is : List Value} {word : UInt32} {rest after : List UInt32} {m m' : Machine}
      {codeLength count : Nat} {v : Value}
      (hd : Instruction.decode word rest = .ok (.guard codeLength count, after))
      (h : Exec.pop m = .ok v m') (hv : v.asInteger = .ok 0) :
      Step callees ⟨g, is, word :: rest, m⟩ ⟨true, is.drop count, after.drop codeLength, m'⟩

variable {callees : Callees} {a b : Stage}

/-- What comes of an evaluation does not change on the way. -/
theorem Step.run_eq (h : Step callees a b) : a.run callees = b.run callees := by
  unfold run
  cases h with
  | immed hd h =>
    rw [Exec.run_immed callees _ _ _ hd]
    simp only [bind, EStateM.bind, h]
  | plain hd hi h =>
    rw [Exec.run_plain callees _ _ hd hi]
    simp only [bind, EStateM.bind, h]
  | taken hd h hv hn =>
    rw [Exec.run_guard callees _ _ hd]
    simp only [bind, EStateM.bind, h, hv, Exec.ofExcept, pure, EStateM.pure, if_pos hn]
  | passed hd h hv =>
    rw [Exec.run_guard callees _ _ hd]
    simp only [bind, EStateM.bind, h, hv, Exec.ofExcept, pure, EStateM.pure, ne_eq, not_true_eq_false,
      if_false]

theorem run_eq_of_steps (h : Relation.ReflTransGen (Step callees) a b) :
    a.run callees = b.run callees := by
  induction h with
  | refl => rfl
  | tail _ h ih => exact ih.trans h.run_eq

/-! ## Calls of `dispatch` -/

/-- The next instruction calls the library's `dispatch` on the name of a script. -/
structure Dispatches (callees : Callees) (a : Stage) (script : String) : Prop where
  next : ∃ word rest index arity after args, a.words = word :: rest ∧
    Instruction.decode word rest = .ok (.call index arity, after) ∧
    callees.functions[index]? = some Library.dispatch ∧
    a.machine.stack.top? arity = some (.text script :: args)

/-- If the script that is dispatched fails, so does the evaluation. -/
theorem Dispatches.run_eq {script : String} (h : a.Dispatches callees script) {e : Fault}
    (he : (callees.dispatch script a.machine.workspace).1 = .error e) :
    a.run callees = .error e
      { a.machine with workspace := (callees.dispatch script a.machine.workspace).2 } := by
  obtain ⟨g, is, words, m⟩ := a
  obtain ⟨word, rest, index, arity, after, args, hwords, hd, hf, htop⟩ := h.next
  dsimp only at hwords he htop ⊢
  subst hwords
  unfold run
  rw [Exec.run_plain callees _ _ hd rfl]
  have hcall : Exec.call callees index arity m =
      .error e { m with workspace := (callees.dispatch script m.workspace).2 } := by
    have hanswer : (Library.dispatch.execute (.text script :: args) 0).answer
        (Exec.services callees) m.workspace =
          (.error e, (callees.dispatch script m.workspace).2) := by
      show ((callees.dispatch script m.workspace).1.map fun _ => Value.integer 0, _) = _
      rw [he]
      rfl
    rw [Exec.call_eq hf htop, hanswer]
    rfl
  simp only [bind, EStateM.bind, Exec.instruction, hcall]

end Stage

/-! ## Statements -/

/-- The evaluation of a statement, which begins on an empty stack, has come to a stage. -/
structure Statement.Reaches (callees : Callees) (s : Statement) (m : Machine) (a : Stage) : Prop where
  kind : ∀ distance, s.kind ≠ .jump distance
  steps : Relation.ReflTransGen (Stage.Step callees)
    ⟨false, s.immediates, s.code, { m with stack := m.stack.clear }⟩ a

namespace Exec

variable {callees : Callees} {program : List Statement} {s : Statement} {m m' : Machine} {e : Fault}

/-- What fails on the way fails the statement. -/
theorem statement_of_reaches {a : Stage} (h : s.Reaches callees m a)
    (he : a.run callees = .error e m') : statement callees s m = .error e m' := by
  have hvalue : value callees s m = .error e m' := (Stage.run_eq_of_steps h.steps).trans he
  cases hk : s.kind with
  | jump distance => exact absurd hk (h.kind distance)
  | _ =>
    unfold statement
    simp only [hk, bind, EStateM.bind, discard, Functor.discard, Functor.mapConst, Function.comp_apply,
      EStateM.map, hvalue]

/-! ## Runs -/

/-- The statement at the counter runs, and the counter goes forward. -/
inductive Goes (callees : Callees) (program : List Statement) : Nat × Machine → Nat × Machine → Prop
  | step {pc d : Nat} {m m' : Machine} {s : Statement} (hs : program[pc]? = some s)
      (h : statement callees s m = .ok d m') (hd : 0 < d) : Goes callees program (pc, m) (pc + d, m')

theorem drop_of_getElem? {pc : Nat} (hs : program[pc]? = some s) :
    program.drop pc = s :: program.drop (pc + 1) := by
  obtain ⟨hlt, rfl⟩ := List.getElem?_eq_some_iff.1 hs
  exact List.drop_eq_getElem_cons hlt

/-- What comes of a run does not change on the way. -/
theorem Goes.statements_eq {a b : Nat × Machine} (h : Goes callees program a b) :
    statements callees 0 (program.drop a.1) a.2 = statements callees 0 (program.drop b.1) b.2 := by
  cases h with
  | @step pc d m m' s hs h hd =>
    have hnext : pc + 1 + (d - 1) = pc + d := by omega
    dsimp only
    rw [drop_of_getElem? hs, statements]
    simp only [bind, EStateM.bind, placing, h]
    rw [statements_eq_drop, List.drop_drop, hnext]

theorem statements_eq_of_goes {a b : Nat × Machine}
    (h : Relation.ReflTransGen (Goes callees program) a b) :
    statements callees 0 (program.drop a.1) a.2 = statements callees 0 (program.drop b.1) b.2 := by
  induction h with
  | refl => rfl
  | tail _ h ih => exact ih.trans h.statements_eq

/-- A fault is reported where the statement stands that the run has come to. -/
theorem statements_error {pc : Nat} (hs : program[pc]? = some s)
    (he : statement callees s m = .error e m') :
    statements callees 0 (program.drop pc) m = .error (e.located s.position) m' := by
  rw [drop_of_getElem? hs, statements]
  simp only [bind, EStateM.bind, placing, he]

end Exec

/-- A run of the program comes to a statement. -/
def Program.Arrives (p : Program) (callees : Callees) (memory : Memory) (w : Workspace)
    (s : Statement) (m : Machine) : Prop :=
  ∃ pc, Relation.ReflTransGen (Exec.Goes callees p.statements)
    (0, ⟨.empty "evaluation stack" p.maxDepth, memory, w⟩) (pc, m) ∧ p.statements[pc]? = some s

/-- If the statement fails, so does the run. -/
theorem Program.Arrives.run_eq {p : Program} {callees : Callees} {memory : Memory} {w : Workspace}
    {s : Statement} {m m' : Machine} {e : Fault} (h : p.Arrives callees memory w s m)
    (he : Exec.statement callees s m = .error e m') :
    p.run callees memory w = (.error (e.located s.position), m'.memory, m'.workspace) := by
  obtain ⟨pc, hgoes, hs⟩ := h
  have hrun : EStateM.run (Exec.statements callees 0 p.statements)
      ⟨.empty "evaluation stack" p.maxDepth, memory, w⟩ = .error (e.located s.position) m' :=
    (Exec.statements_eq_of_goes hgoes).trans (Exec.statements_error hs he)
  unfold Program.run
  dsimp only
  rw [hrun]

end VectorScript
