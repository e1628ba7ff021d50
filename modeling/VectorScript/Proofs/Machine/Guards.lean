import VectorScript.Proofs.Machine.Simulation

/-!
# Guarded values on the machine

The code of a chain of guarded values ends in one of them: a guard whose condition holds cuts the
words after the value off, one whose condition fails skips the value with its immediates. So the
run of a right side is its evaluation. Of the chain's words and immediates, only those of the
conditions up to the first that holds and of its value make a difference (`Rhs.Serves`).

    r.Suits Γ target → r.Fits → run callees false r.immediates r.words m = …              (run_rhs)
    Rhs.Serves callees m.memory branches m.workspace words immediates →
      run callees g immediates words m = …                                            (run_serving)
-/

namespace VectorScript

namespace Rhs

variable (callees : Callees) (memory : Memory)

/-- A value without a condition is the value of a case whose condition is one. -/
theorem evalCases_branches (otherwise : Option Expr) (cases : List (Expr × Expr)) :
    evalCases callees memory otherwise cases =
      evalCases callees memory none (branches cases otherwise) := by
  induction cases with
  | nil =>
    cases otherwise with
    | none => rfl
    | some value =>
      show value.eval callees memory = evalCases callees memory none [(.literal (.integer 1), value)]
      simp only [evalCases, Expr.eval, Value.asInteger, Eval.ofExcept, pure_bind]
      rfl
  | cons c rest ih =>
    obtain ⟨condition, value⟩ := c
    simp only [branches, List.cons_append] at ih ⊢
    simp only [evalCases, ih]

/-- The integer that a condition comes to. -/
def test (condition : Expr) : Eval Int32 := do
  Eval.ofExcept (← condition.eval callees memory).asInteger

theorem evalCases_cons (otherwise : Option Expr) (condition value : Expr)
    (rest : List (Expr × Expr)) :
    evalCases callees memory otherwise ((condition, value) :: rest) = (do
      if (← test callees memory condition) ≠ 0 then value.eval callees memory
      else evalCases callees memory otherwise rest) := by
  simp only [evalCases, test, bind_assoc]

/-- The words of a condition and of its guard. -/
def guardWords (condition value : Expr) : List UInt32 :=
  condition.words ++ [Opcode.guard.encode none, UInt32.ofNat value.words.length,
    UInt32.ofNat value.immediates.length]

/-- The words and immediates serve to evaluate the branches: they are those of the conditions up to
the first that holds, and of its value. In place of a value that is passed over stands anything of
the same lengths; after the value, or a condition that fails, stands anything at all. -/
inductive Serves : List (Expr × Expr) → Workspace → List UInt32 → List Value → Prop
  | done (w : Workspace) (is : List Value) : Serves [] w [] is
  | failed {condition value : Expr} {rest : List (Expr × Expr)} {w w₁ : Workspace} {f : Fault}
      (h : test callees memory condition w = .error f w₁) (ws : List UInt32) (is : List Value) :
      Serves ((condition, value) :: rest) w (guardWords condition value ++ ws)
        (condition.immediates ++ is)
  | taken {condition value : Expr} {rest : List (Expr × Expr)} {w w₁ : Workspace} {n : Int32}
      (h : test callees memory condition w = .ok n w₁) (hn : n ≠ 0) (ws : List UInt32)
      (is : List Value) :
      Serves ((condition, value) :: rest) w (guardWords condition value ++ (value.words ++ ws))
        (condition.immediates ++ (value.immediates ++ is))
  | passed {condition value : Expr} {rest : List (Expr × Expr)} {w w₁ : Workspace}
      {ws : List UInt32} {is : List Value} (h : test callees memory condition w = .ok 0 w₁)
      (skipped : List UInt32) (hs : skipped.length = value.words.length) (unused : List Value)
      (hu : unused.length = value.immediates.length) (hrest : Serves rest w₁ ws is) :
      Serves ((condition, value) :: rest) w (guardWords condition value ++ (skipped ++ ws))
        (condition.immediates ++ (unused ++ is))

/-- The code of the branches serves, whichever condition holds. -/
theorem serves_branches (branches : List (Expr × Expr)) (w : Workspace) (is : List Value) :
    Serves callees memory branches w (branchWords branches) (branchImmediates branches ++ is) := by
  induction branches generalizing w with
  | nil => exact .done w is
  | cons b rest ih =>
    obtain ⟨condition, value⟩ := b
    have hwords : branchWords ((condition, value) :: rest) =
        guardWords condition value ++ (value.words ++ branchWords rest) := by
      simp [branchWords, caseWords, guardWords]
    rw [hwords, branchImmediates, List.append_assoc, List.append_assoc]
    cases h : test callees memory condition w with
    | error f w₁ => exact .failed h _ _
    | ok n w₁ =>
      by_cases hn : n = 0
      · subst hn
        exact .passed h _ rfl _ rfl (ih w₁)
      · exact .taken h hn _ _

end Rhs

namespace Exec

variable (callees : Callees)

/-- A condition and its value whose code does what the trees say, with lengths that a guard can
hold. -/
structure Branches (branch : Expr × Expr) : Prop where
  condition : Simulates callees branch.1.words branch.1.immediates 1 branch.1.height
    fun memory => do return [← branch.1.eval callees memory]
  value : Simulates callees branch.2.words branch.2.immediates 1 branch.2.height
    fun memory => do return [← branch.2.eval callees memory]
  words : branch.2.words.length < UInt32.size
  immediates : branch.2.immediates.length < UInt32.size

/-- A condition is evaluated, and its guard keeps to the words that it protects or passes over them
and as many immediates. -/
theorem run_condition {condition value : Expr} (hb : Branches callees (condition, value)) (g : Bool)
    (is : List Value) (ws : List UInt32) (m : Machine) (hroom : condition.height ≤ m.stack.room) :
    match Rhs.test callees m.memory condition m.workspace with
    | .ok n w => run callees g (condition.immediates ++ is)
        (Rhs.guardWords condition value ++ ws) m =
          (if n ≠ 0 then run callees false is (ws.take value.words.length)
            else run callees true (is.drop value.immediates.length)
              (ws.drop value.words.length)) { m with workspace := w }
    | .error f w => ∃ stack, run callees g (condition.immediates ++ is)
        (Rhs.guardWords condition value ++ ws) m =
          .error f { m with stack := stack, workspace := w } := by
  have h := hb.condition.2 g is (Opcode.guard.encode none :: UInt32.ofNat value.words.length ::
    UInt32.ofNat value.immediates.length :: ws) m hroom
  have hroom1 : 1 ≤ m.stack.room := Nat.le_trans hb.condition.1 hroom
  simp only [bind, EStateM.bind] at h
  simp only [Rhs.test, Rhs.guardWords, List.append_assoc, List.cons_append, List.nil_append, bind,
    EStateM.bind]
  cases hx : condition.eval callees m.memory m.workspace with
  | error f w => simpa only [hx] using h
  | ok c w =>
    simp only [hx] at h ⊢
    rw [h.2, run_guard callees g is (Instruction.decode_encode .guard none _),
      UInt32.toNat_ofNat_of_lt' hb.words, UInt32.toNat_ofNat_of_lt' hb.immediates]
    simp only [bind, EStateM.bind, pop, onStack, EStateM.run, Stack.pop_pushAll c hroom1]
    cases hn : c.asInteger with
    | error e => exact ⟨m.stack, rfl⟩
    | ok n => rfl

/-- Code that serves the branches is run to what they come to. -/
theorem run_serving {branches : List (Expr × Expr)} (hb : ∀ b ∈ branches, Branches callees b)
    {m : Machine} {words : List UInt32} {immediates : List Value}
    (hs : Rhs.Serves callees m.memory branches m.workspace words immediates) (g : Bool)
    (hg : branches = [] → g = true) (hroom : Rhs.branchHeight branches ≤ m.stack.room) :
    match Rhs.evalCases callees m.memory none branches m.workspace with
    | .ok v w => run callees g immediates words m = .ok v { m with workspace := w }
    | .error f w => ∃ stack, run callees g immediates words m =
        .error f { m with stack := stack, workspace := w } := by
  induction branches generalizing m g words immediates with
  | nil =>
    cases hs
    refine ⟨m.stack, ?_⟩
    rw [hg rfl, run]
    rfl
  | cons b rest ih =>
    obtain ⟨condition, value⟩ := b
    have hbranch := hb _ List.mem_cons_self
    simp only [Rhs.branchHeight] at hroom
    have hcondition := fun is ws => run_condition callees hbranch g is ws m (by omega)
    rw [Rhs.evalCases_cons]
    simp only [bind, EStateM.bind]
    cases hs with
    | failed h ws is => simpa only [h] using hcondition is ws
    | @taken _ _ _ _ w₁ _ h hn ws is =>
      have hrun := hcondition (value.immediates ++ is) (value.words ++ ws)
      simp only [h, if_pos hn, List.take_left] at hrun ⊢
      rw [hrun]
      exact run_alone callees hbranch.value is { m with workspace := w₁ } (by simp only; omega)
    | @passed _ _ _ _ w₁ ws is h skipped hs unused hu hrest =>
      have hrun := hcondition (unused ++ is) (skipped ++ ws)
      simp only [h, ne_eq, not_true_eq_false, if_false, List.drop_left' hs,
        List.drop_left' hu] at hrun ⊢
      rw [hrun]
      exact @ih (fun b hb' => hb b (List.mem_cons_of_mem _ hb')) { m with workspace := w₁ } ws is
        hrest true (fun _ => rfl) (by simp only; omega)

/-- Conditions and values with types are carried out if their lengths fit. -/
theorem branches_of_typed {Γ : Signature} {cases : List (Expr × Expr)} {otherwise : Option Expr}
    (hc : ∀ c ∈ cases, (∃ t, c.1.HasType Γ t) ∧ ∃ t, c.2.HasType Γ t)
    (ho : ∀ e ∈ otherwise, ∃ t, e.HasType Γ t) (hf : (Rhs.guarded cases otherwise).Fits) :
    ∀ b ∈ Rhs.branches cases otherwise, Branches callees b := by
  intro b h
  rcases List.mem_append.1 h with h | h
  · obtain ⟨⟨_, h1⟩, _, h2⟩ := hc b h
    obtain ⟨f1, f2, f3, f4⟩ := hf.1 b h
    exact ⟨simulates callees h1 f1, simulates callees h2 f2, f3, f4⟩
  · obtain ⟨value, hvalue, rfl⟩ := Option.map_eq_some_iff.1 (Option.mem_toList.1 h)
    obtain ⟨_, h2⟩ := ho value hvalue
    obtain ⟨f2, f3, f4⟩ := hf.2 value hvalue
    exact ⟨simulates callees (.literal (Γ := Γ) (.integer 1)) trivial,
      simulates callees h2 f2, f3, f4⟩

/-- Running the code of a right side is evaluating it. -/
theorem run_rhs {Γ : Signature} {target : Ty} {r : Rhs} (hr : r.Suits Γ target) (hf : r.Fits)
    (is : List Value) (m : Machine) (hroom : r.height ≤ m.stack.room) :
    match r.eval callees m.memory m.workspace with
    | .ok v w => run callees false (r.immediates ++ is) r.words m = .ok v { m with workspace := w }
    | .error f w => ∃ stack, run callees false (r.immediates ++ is) r.words m =
        .error f { m with stack := stack, workspace := w } := by
  cases hr with
  | plain h =>
    obtain ⟨t, he, -⟩ := h
    exact run_alone callees (simulates callees he hf) is m hroom
  | @guarded cases otherwise hne hc ho =>
    have hb : ∀ b ∈ Rhs.branches cases otherwise, Branches callees b := by
      refine branches_of_typed callees (Γ := Γ) (fun c h => ?_) (fun e h => ?_) hf
      · obtain ⟨h1, t, h2, -⟩ := hc c h
        exact ⟨⟨_, h1⟩, t, h2⟩
      · obtain ⟨t, h2, -⟩ := ho e h
        exact ⟨t, h2⟩
    have h := run_serving callees hb (Rhs.serves_branches callees m.memory _ m.workspace is) false
      (fun h => absurd (List.append_eq_nil_iff.1 h).1 hne)
      (Nat.le_trans (Nat.le_max_left _ _) hroom)
    rw [← Rhs.evalCases_branches] at h
    exact h

/-! ## Statements with guarded values -/

/-- The statement has the code of the path, and then words and immediates that serve the branches
when the path has been evaluated. -/
def Serving (memory : Memory) (path : List Expr) (branches : List (Expr × Expr)) (w : Workspace)
    (s : Statement) : Prop :=
  ∃ words immediates, s.code = Expr.wordsAll path ++ words ∧
    s.immediates = Expr.immediatesAll path ++ immediates ∧
    Rhs.Serves callees memory branches w words immediates

/-- The statement that a store is laid out as. -/
theorem flatten_store (slot : Nat) (path : List Expr) (r : Rhs) (p : Position) :
    ∃ s, (Stmt.store slot path r p).flatten = .ok [s] ∧
      s.code = Expr.wordsAll path ++ r.words ∧
      s.immediates = Expr.immediatesAll path ++ r.immediates ∧
      s.depth = max (Expr.heightAll path) (path.length + r.height) := by
  have h := Stmt.assemble_eq ((Expr.emitsAll path).seq r.emits) (.store slot path.length) p
  exact ⟨_, by rw [Stmt.flatten, h]; rfl, rfl, rfl, rfl⟩

/-- A statement with a path and guarded values has the value of the first branch whose condition
holds, and the indices of the path stay on the stack; the fault of a condition or of that value is
the fault of the statement, and so is `noValue` if no condition holds. Nothing else is executed:
whatever stands in place of the code and the immediates of the values that are passed over, and of
all that follows the value taken, the outcome is the same. -/
theorem value_guarded {Γ : Signature} {path : List Expr} {types : List Ty}
    {cases : List (Expr × Expr)} {otherwise : Option Expr} (hpath : Expr.HaveTypes Γ path types)
    (hne : cases ≠ []) (hc : ∀ c ∈ cases, (∃ t, c.1.HasType Γ t) ∧ ∃ t, c.2.HasType Γ t)
    (ho : ∀ e ∈ otherwise, ∃ t, e.HasType Γ t) (hpathFits : Expr.FitAll path)
    (hf : (Rhs.guarded cases otherwise).Fits) (slot : Nat) (p : Position) :
    ∃ s, (Stmt.store slot path (.guarded cases otherwise) p).flatten = .ok [s] ∧
      ∀ m : Machine, s.depth ≤ m.stack.clear.room →
        match Expr.evalAll callees m.memory path m.workspace with
        | .error f w => ∃ stack, value callees s m =
            .error f { m with stack := stack, workspace := w }
        | .ok indices w =>
          Serving callees m.memory path (Rhs.branches cases otherwise) w s ∧
          ∀ s', Serving callees m.memory path (Rhs.branches cases otherwise) w s' →
            match (Rhs.guarded cases otherwise).eval callees m.memory w with
            | .ok v w' => value callees s' m =
                .ok v { m with stack := m.stack.clear.pushAll indices, workspace := w' }
            | .error f w' => ∃ stack, value callees s' m =
                .error f { m with stack := stack, workspace := w' } := by
  obtain ⟨s, hs, hcode, himmediates, hdepth⟩ :=
    flatten_store slot path (.guarded cases otherwise) p
  refine ⟨s, hs, fun m hroom => ?_⟩
  have hindices : Simulates callees (Expr.wordsAll path) (Expr.immediatesAll path) path.length
      (Expr.heightAll path) fun memory => Expr.evalAll callees memory path :=
    simulatesAll callees hpath hpathFits
  rw [hdepth] at hroom
  -- The path comes before the values: its fault leaves them alone, its indices stay below them.
  cases hx : Expr.evalAll callees m.memory path m.workspace with
  | error f w =>
    have h := hindices.2 false (Rhs.guarded cases otherwise).immediates
      (Rhs.guarded cases otherwise).words
      { m with stack := m.stack.clear } (Nat.le_trans (Nat.le_max_left _ _) hroom)
    simp only [hx] at h
    rw [← hcode, ← himmediates] at h
    exact h
  | ok indices w =>
    have hserves := Rhs.serves_branches callees m.memory (Rhs.branches cases otherwise) w []
    rw [List.append_nil] at hserves
    refine ⟨⟨_, _, hcode, himmediates, hserves⟩, ?_⟩
    -- The path runs the same whatever comes after it, so it may be run in front of the other code.
    rintro s' ⟨words, immediates, hcode', himmediates', hserves'⟩
    have h := hindices.2 false immediates words
      { m with stack := m.stack.clear } (Nat.le_trans (Nat.le_max_left _ _) hroom)
    simp only [hx] at h
    obtain ⟨hlength, h⟩ := h
    have hrest := @run_serving callees _ (branches_of_typed callees hc ho hf)
      ⟨m.stack.clear.pushAll indices, m.memory, w⟩ words immediates hserves' false
      (fun h => absurd (List.append_eq_nil_iff.1 h).1 hne) (by
        simp only [Stack.room_pushAll, hlength, Rhs.height] at hroom ⊢
        omega)
    rw [← Rhs.evalCases_branches] at hrest
    have hvalue : value callees s' m = run callees false immediates words
        ⟨m.stack.clear.pushAll indices, m.memory, w⟩ := by
      rw [← h, ← hcode', ← himmediates']
      rfl
    rw [hvalue]
    exact hrest

/-- The first condition is a variable that holds zero, the second holds. In the second statement the
code of the first value is a word of no instruction. -/
theorem value_guarded_second :
    let callees : Callees := ⟨[], fun _ w => (.ok (), w)⟩
    let cases : List (Expr × Expr) := [(.var 0, .literal (.text "first")),
      (.literal (.integer 1), .literal (.text "second"))]
    let m : Machine := ⟨.empty "evaluation stack" 2, ⟨[.local (.integer 0)]⟩, .new⟩
    let after : Machine := { m with stack := m.stack.pushAll [.integer 4] }
    ∃ s, (Stmt.store 0 [.literal (.integer 4)] (.guarded cases none) ⟨1, 1, 0, 5⟩).flatten =
        .ok [s] ∧
      value callees s m = .ok (.text "second") after ∧
      value callees { s with code := s.code.set 6 0xffffffff } m = .ok (.text "second") after := by
  intro callees cases m after
  have hf : (Rhs.guarded cases none).Fits :=
    ⟨List.forall_mem_cons.2 ⟨⟨(by decide : 0 < UInt32.size), trivial, by decide, by decide⟩,
      List.forall_mem_singleton.2 ⟨trivial, trivial, by decide, by decide⟩⟩, nofun⟩
  have htypes : ∀ c ∈ cases, (∃ t, c.1.HasType ⟨fun _ => some .integer, []⟩ t) ∧
      ∃ t, c.2.HasType ⟨fun _ => some .integer, []⟩ t :=
    List.forall_mem_cons.2 ⟨⟨⟨_, .var rfl⟩, _, .literal _⟩,
      List.forall_mem_singleton.2 ⟨⟨_, .literal _⟩, _, .literal _⟩⟩
  have hnone : ∀ e ∈ (none : Option Expr), ∃ t, e.HasType ⟨fun _ => some .integer, []⟩ t := nofun
  obtain ⟨s, hs, hrun⟩ := value_guarded callees (.cons (.literal (.integer 4)) .nil)
    (List.cons_ne_nil _ _) htypes hnone ⟨trivial, trivial⟩ hf 0 ⟨1, 1, 0, 5⟩
  cases hs
  obtain ⟨hserving, hall⟩ := hrun m (by decide)
  refine ⟨_, rfl, hall _ hserving, hall _ ⟨_, _, rfl, rfl, ?_⟩⟩
  exact .passed rfl [0xffffffff] rfl _ rfl (.taken rfl (by decide) [] [])

end Exec

end VectorScript
