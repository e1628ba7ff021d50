import VectorScript.Proofs.Machine.Lockstep

/-!
# What code dispatches

Code shows which scripts it can dispatch where a literal is all that is passed: then the instruction
before the call has pushed it. `Exec.dispatched` reads the arguments of all such calls off the code. If
each of them is a literal, a program cannot tell two ways of dispatching from each other that agree on
these scripts.

    (∀ x ∈ p.dispatched, ∃ script, x = some script ∧ T script) →
      (∀ script, T script → dispatch' script = dispatch script) →
        p.run with dispatch' = p.run with dispatch                        (Program.run_eq_of_dispatched)
-/

namespace VectorScript

/-- The text that a text value has. -/
def Value.text? : Value → Option String
  | .text t => some t
  | _ => none

/-! ## Functions that do not dispatch -/

/-- Whatever is called, two hosts that draw the same numbers answer the same as long as no script is
dispatched. -/
theorem Library.answer_eq {f : HostFunction} (hf : f ∈ functions) (hname : f.name ≠ dispatchName)
    {σ : Type} {services other : Services σ} (hrandom : other.random = services.random)
    (args : List Value) (host : σ) :
    (f.execute args 0).answer other host = (f.execute args 0).answer services host := by
  by_cases hdraws : f.name = random.name
  · obtain rfl := eq_of_name hf (List.mem_of_getElem? (show functions[29]? = some random from rfl))
      hdraws
    unfold HostFunction.execute
    split
    · show Call.answer other (.random _) host = Call.answer services (.random _) host
      unfold Call.answer
      rw [hrandom]
      rfl
    · rfl
  · obtain ⟨result, hresult⟩ := (quiet f hf hname hdraws).execute args 0
    rw [hresult]
    rfl

/-! ## Calls of `dispatch` in code -/

/-- What the instruction passes to `dispatch` if it calls it: the literal before it, if there is one
and it is all. -/
def Instruction.dispatched (functions : List HostFunction) (last : Option String) :
    Instruction → List (Option String)
  | .call function arity =>
    if functions[function]?.any fun f => f.name = Library.dispatchName then
      [if arity = 1 then last else none]
    else []
  | _ => []

/-- What the words pass to `dispatch`, whichever way their guards go. `last` is the text of the literal
right before the words, if there is one. -/
def Exec.dispatched (functions : List HostFunction) (last : Option String) (immediates : List Value)
    (words : List UInt32) : List (Option String) :=
  match words with
  | [] => []
  | word :: rest =>
    match h : Instruction.decode word rest with
    | .error _ => []
    | .ok (i, after) =>
      have : after.length ≤ rest.length := Instruction.length_decode h
      match i with
      | .immed => dispatched functions (immediates.head?.bind Value.text?) immediates.tail after
      | .guard codeLength immediateCount =>
        dispatched functions none immediates (after.take codeLength) ++
          dispatched functions none (immediates.drop immediateCount) (after.drop codeLength)
      | i => i.dispatched functions last ++ dispatched functions none immediates after
termination_by words.length
decreasing_by all_goals (simp; omega)

/-- What the statement passes to `dispatch`. -/
def Statement.dispatched (functions : List HostFunction) (s : Statement) : List (Option String) :=
  Exec.dispatched functions none s.immediates s.code

/-- What the program passes to `dispatch`. -/
def Program.dispatched (p : Program) : List (Option String) :=
  p.statements.flatMap (Statement.dispatched p.functions)

namespace Exec

section

variable (functions : List HostFunction) (last : Option String)

theorem dispatched_nil (immediates : List Value) : dispatched functions last immediates [] = [] := by
  rw [dispatched]

theorem dispatched_immed (immediates : List Value) {word : UInt32} {rest after : List UInt32}
    (hd : Instruction.decode word rest = .ok (.immed, after)) :
    dispatched functions last immediates (word :: rest) =
      dispatched functions (immediates.head?.bind Value.text?) immediates.tail after := by
  rw [dispatched]
  split
  · next h => cases hd.symm.trans h
  · next h =>
    cases hd.symm.trans h
    rfl

theorem dispatched_guard (immediates : List Value) {word : UInt32} {rest after : List UInt32}
    {codeLength count : Nat}
    (hd : Instruction.decode word rest = .ok (.guard codeLength count, after)) :
    dispatched functions last immediates (word :: rest) =
      dispatched functions none immediates (after.take codeLength) ++
        dispatched functions none (immediates.drop count) (after.drop codeLength) := by
  rw [dispatched]
  split
  · next h => cases hd.symm.trans h
  · next h =>
    cases hd.symm.trans h
    rfl

theorem dispatched_plain (immediates : List Value) {word : UInt32} {rest after : List UInt32}
    {i : Instruction} (hd : Instruction.decode word rest = .ok (i, after)) (hi : i.isPlain = true) :
    dispatched functions last immediates (word :: rest) =
      i.dispatched functions last ++ dispatched functions none immediates after := by
  rw [dispatched]
  split
  · next h => cases hd.symm.trans h
  · next h =>
    cases hd.symm.trans h
    cases i <;> first | rfl | cases hi

end

/-! ## Dispatching only these scripts -/

/-- All that is dispatched are literals, and the scripts are among those of `T`. -/
def Literals (T : String → Prop) (dispatched : List (Option String)) : Prop :=
  ∀ x ∈ dispatched, ∃ script, x = some script ∧ T script

section

variable {T : String → Prop} {callees other : Callees} {α β : Type}

theorem Literals.append {xs ys : List (Option String)} :
    Literals T (xs ++ ys) ↔ Literals T xs ∧ Literals T ys := List.forall_mem_append

/-- The others have the same functions of the library, and dispatch the scripts of `T` in the same
way. -/
structure Concur (T : String → Prop) (callees other : Callees) : Prop where
  functions : other.functions = callees.functions
  library : ∀ f ∈ callees.functions, f ∈ Library.functions
  dispatch : ∀ script, T script → other.dispatch script = callees.dispatch script

/-- Steps that begin in the same way go on in the same way. -/
theorem bind_congr_after {x y : Exec α} {f g : α → Exec β} {m : Machine} (hx : y m = x m)
    (hf : ∀ a m', x m = .ok a m' → g a m' = f a m') : (y >>= g) m = (x >>= f) m := by
  simp only [bind, EStateM.bind, hx]
  cases h : x m with
  | ok a m' => exact hf a m' h
  | error e m' => rfl

/-- The literal that was pushed last is on top of the stack. -/
def Topped (last : Option String) (m : Machine) : Prop :=
  ∀ script, last = some script → m.stack.top? 1 = some [.text script]

theorem topped_none (m : Machine) : Topped none m := fun _ h => nomatch h

theorem topped_push {v : Value} {m m' : Machine} (h : push v m = .ok () m') : Topped v.text? m' := by
  intro script hscript
  unfold push onStack Stack.push EStateM.run at h
  simp only [bind, EStateM.bind, get_apply] at h
  cases v with
  | text t =>
    cases hscript
    cases hroom : m.stack.room <;> rw [hroom] at h <;> cases h
    rfl
  | _ => cases hscript

theorem call_congr (hc : Concur T callees other) {index arity : Nat} {last : Option String}
    {m : Machine} (hT : Literals T ((Instruction.call index arity).dispatched callees.functions last))
    (hm : Topped last m) : call other index arity m = call callees index arity m := by
  cases hf : callees.functions[index]? with
  | none =>
    obtain ⟨e, he⟩ := @call_eq_error callees index arity m (.inl hf)
    rw [he other hc.functions, he callees rfl]
  | some f =>
    cases ha : m.stack.top? arity with
    | none =>
      obtain ⟨e, he⟩ := @call_eq_error callees index arity m (.inr ha)
      rw [he other hc.functions, he callees rfl]
    | some args =>
      have hf' : other.functions[index]? = some f := by rw [hc.functions, hf]
      have hlibrary := hc.library f (List.mem_of_getElem? hf)
      rw [call_eq hf' ha, call_eq hf ha]
      by_cases hname : f.name = Library.dispatchName
      · obtain rfl := Library.eq_dispatch hlibrary hname
        have hone : (Instruction.call index arity).dispatched callees.functions last =
            [if arity = 1 then last else none] := by
          simp only [Instruction.dispatched, hf]
          rfl
        rw [hone] at hT
        obtain ⟨script, hscript, hTscript⟩ := hT _ List.mem_cons_self
        split at hscript
        · next harity =>
          subst harity
          obtain rfl : [Value.text script] = args :=
            Option.some.inj ((hm script hscript).symm.trans ha)
          have hanswer : ∀ c : Callees, ((Library.dispatch.execute [.text script] 0).answer (services c)
              m.workspace) = ((c.dispatch script m.workspace).1.map fun _ => Value.integer 0,
                (c.dispatch script m.workspace).2) := fun _ => rfl
          rw [hanswer, hanswer, hc.dispatch script hTscript]
        · cases hscript
      · rw [Library.answer_eq hlibrary hname (show (services other).random = (services callees).random
          from rfl)]

theorem instruction_congr (hc : Concur T callees other) {i : Instruction} {last : Option String}
    {m : Machine} (hT : Literals T (i.dispatched callees.functions last)) (hm : Topped last m) :
    instruction other i m = instruction callees i m := by
  cases i with
  | call index arity => exact call_congr hc hT hm
  | _ => rfl

/-- Working through any words, by induction on how many are left. -/
theorem run_congr (hc : Concur T callees other) (guarded : Bool) (immediates : List Value)
    (words : List UInt32) {last : Option String} {m : Machine}
    (hT : Literals T (dispatched callees.functions last immediates words)) (hm : Topped last m) :
    run other guarded immediates words m = run callees guarded immediates words m := by
  induction guarded, immediates, words using run_induction generalizing last m with
  | finished => rw [run_nil, run_nil]
  | noValue => rw [run_nil_guarded, run_nil_guarded]
  | unreadable hd => rw [run_of_decode_error other hd, run_of_decode_error callees hd]
  | missing hd => rw [run_immed_nil other hd, run_immed_nil callees hd]
  | immed hd ih =>
    rw [run_immed other _ _ _ hd, run_immed callees _ _ _ hd]
    rw [dispatched_immed _ _ _ hd] at hT
    exact bind_congr_after rfl fun _ m' hpush => ih hT (topped_push hpush)
  | guard hd ih ih' =>
    rw [run_guard other _ _ hd, run_guard callees _ _ hd]
    rw [dispatched_guard _ _ _ hd] at hT
    obtain ⟨htaken, hpassed⟩ := Literals.append.1 hT
    refine bind_congr_after rfl fun v m₁ _ => bind_congr_after rfl fun condition m₂ _ => ?_
    split
    · exact ih htaken (topped_none m₂)
    · exact ih' hpassed (topped_none m₂)
  | plain hd hplain ih =>
    rw [run_plain other _ _ hd hplain, run_plain callees _ _ hd hplain]
    rw [dispatched_plain _ _ _ hd hplain] at hT
    obtain ⟨hhere, hafter⟩ := Literals.append.1 hT
    exact bind_congr_after (instruction_congr hc hhere hm) fun _ m' _ => ih hafter (topped_none m')

variable {s : Statement}

theorem value_congr (hc : Concur T callees other) (hT : Literals T (s.dispatched callees.functions)) :
    value other s = value callees s :=
  funext fun _ => bind_congr_after rfl fun _ m' _ => run_congr hc _ _ _ hT (topped_none m')

theorem statement_congr (hc : Concur T callees other)
    (hT : Literals T (s.dispatched callees.functions)) : statement other s = statement callees s := by
  unfold statement
  rw [value_congr hc hT]

/-- Running statements, by induction on the statements that are left. -/
theorem statements_congr (hc : Concur T callees other) (skip : Nat) {body : List Statement}
    (hT : ∀ s ∈ body, Literals T (s.dispatched callees.functions)) :
    statements other skip body = statements callees skip body := by
  induction body generalizing skip with
  | nil => rfl
  | cons s rest ih =>
    obtain ⟨hs, hrest⟩ := List.forall_mem_cons.1 hT
    cases skip with
    | zero =>
      unfold statements
      rw [statement_congr hc hs]
      exact bind_congr fun distance => ih _ hrest
    | succ skip => exact ih skip hrest

end

end Exec

/-- A program that passes nothing to `dispatch` but literals from among `T` does the same, whatever
dispatching other scripts would do. -/
theorem Program.run_eq_of_dispatched {T : String → Prop} {p : Program}
    (hlibrary : ∀ f ∈ p.functions, f ∈ Library.functions) (hT : Exec.Literals T p.dispatched)
    {dispatch dispatch' : String → Workspace → Except Fault Unit × Workspace}
    (h : ∀ script, T script → dispatch' script = dispatch script) (memory : Memory) (w : Workspace) :
    p.run ⟨p.functions, dispatch'⟩ memory w = p.run ⟨p.functions, dispatch⟩ memory w := by
  have hc : Exec.Concur T ⟨p.functions, dispatch⟩ ⟨p.functions, dispatch'⟩ := ⟨rfl, hlibrary, h⟩
  have hstatements : ∀ s ∈ p.statements, Exec.Literals T (s.dispatched p.functions) :=
    fun s hs x hx => hT x (List.mem_flatMap.2 ⟨s, hs, hx⟩)
  unfold run
  rw [Exec.statements_congr hc 0 hstatements]

end VectorScript
