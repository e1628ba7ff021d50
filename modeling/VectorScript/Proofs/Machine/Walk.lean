import VectorScript.Machine.Evaluate

/-!
# The program counter

A program is run by a counter: the statement at the counter runs and says how far to advance, until
there is none at the counter or one fails (`Exec.Walk`). Where every jump goes forward and at most to
the end (`Advancing`), the walk comes to an end, meets each statement at most once, and is what the
machine computes.

    Advancing program → ∃ visited, visited.Pairwise (· < ·) ∧
      Walk callees program 0 m visited (statements callees 0 program m)          (walk_of_advancing)
-/

namespace VectorScript

/-! ## Jumps -/

/-- How far a statement may jump. -/
def StatementKind.distance? : StatementKind → Option Nat
  | .unless distance | .jump distance => some distance
  | .store _ _ | .discard => none

/-- Every jump goes forward, and at most to the end. -/
def Advancing (program : List Statement) : Prop :=
  ∀ pc s distance, program[pc]? = some s → s.kind.distance? = some distance →
    1 ≤ distance ∧ pc + distance ≤ program.length

section

variable {program part rest : List Statement} {s : Statement}

theorem Advancing.nil : Advancing [] := by
  intro pc s distance hs
  cases hs

/-- A statement before others may jump as far as behind them. -/
theorem Advancing.cons (h : Advancing rest)
    (hs : ∀ distance, s.kind.distance? = some distance → 1 ≤ distance ∧ distance ≤ rest.length + 1) :
    Advancing (s :: rest) := by
  intro pc a distance ha hd
  rw [List.length_cons]
  cases pc with
  | zero =>
    cases ha
    have := hs distance hd
    omega
  | succ pc =>
    have := h pc a distance ha hd
    omega

/-- What does not jump may stand before others. -/
theorem Advancing.cons_plain (h : Advancing rest) (hs : s.kind.distance? = none) :
    Advancing (s :: rest) :=
  h.cons fun _ hd => nomatch hs.symm.trans hd

theorem Advancing.append (h : Advancing part) (h' : Advancing rest) : Advancing (part ++ rest) := by
  intro pc s distance hs hd
  rw [List.length_append]
  by_cases hpc : pc < part.length
  · rw [List.getElem?_append_left hpc] at hs
    have := h pc s distance hs hd
    omega
  · rw [List.getElem?_append_right (by omega)] at hs
    have := h' _ s distance hs hd
    omega

end

namespace Exec

variable {callees : Callees} {program : List Statement}

/-! ## Statements -/

/-- Whether the condition of a statement holds. -/
def condition (callees : Callees) (s : Statement) : Exec Bool := do
  let c ← ofExcept (← value callees s).asInteger
  return c ≠ 0

/-- A conditional jump goes on with the next statement exactly if its condition holds. -/
theorem statement_unless {s : Statement} {distance : Nat} (h : s.kind = .unless distance) :
    statement callees s = do
      if ← condition callees s then return 1 else return distance := by
  unfold statement condition
  rw [h]
  simp

/-- The two ways to go on from a condition that is evaluated, and none from one that fails. -/
theorem placing_unless {s : Statement} {distance : Nat} (h : s.kind = .unless distance)
    (p : Position) (m : Machine) :
    placing p (statement callees s) m =
      match placing p (condition callees s) m with
      | .ok true m' => .ok 1 m'
      | .ok false m' => .ok distance m'
      | .error e m' => .error e m' := by
  rw [statement_unless h]
  simp only [placing, bind, EStateM.bind]
  cases condition callees s m with
  | error e m' => rfl
  | ok holds m' => cases holds <;> rfl

/-- What a step that succeeded gave to the next. -/
theorem of_bind_ok {α β : Type} {x : Exec α} {f : α → Exec β} {m m' : Machine} {b : β}
    (h : (x >>= f) m = .ok b m') : ∃ a m₁, x m = .ok a m₁ ∧ f a m₁ = .ok b m' := by
  simp only [bind, EStateM.bind] at h
  split at h
  · next a m₁ ha => exact ⟨a, m₁, ha, h⟩
  · cases h

/-- A statement advances to the next one or as far as it may jump. -/
theorem advance_of_statement {s : Statement} {m m' : Machine} {d : Nat}
    (h : statement callees s m = .ok d m') : d = 1 ∨ s.kind.distance? = some d := by
  cases hk : s.kind with
  | store slot pathLength =>
    left
    unfold statement at h
    rw [hk] at h
    obtain ⟨v, m₁, -, h⟩ := of_bind_ok h
    obtain ⟨path, m₂, -, h⟩ := of_bind_ok h
    obtain ⟨is, m₃, -, h⟩ := of_bind_ok h
    obtain ⟨_, m₄, -, h⟩ := of_bind_ok h
    cases h
    rfl
  | discard =>
    left
    unfold statement at h
    rw [hk] at h
    obtain ⟨_, m₁, -, h⟩ := of_bind_ok h
    cases h
    rfl
  | «unless» distance =>
    rw [statement_unless hk] at h
    obtain ⟨holds, m₁, -, h⟩ := of_bind_ok h
    cases holds
    · cases h
      exact .inr rfl
    · cases h
      exact .inl rfl
  | jump distance =>
    right
    unfold statement at h
    rw [hk] at h
    cases h
    rfl

/-- Every step goes forward, and at most to the end. -/
theorem advance_le (h : Advancing program) {pc : Nat} {s : Statement} (hs : program[pc]? = some s)
    {m m' : Machine} {d : Nat} (hstep : statement callees s m = .ok d m') :
    1 ≤ d ∧ pc + d ≤ program.length := by
  have hlt := (List.getElem?_eq_some_iff.1 hs).1
  rcases advance_of_statement hstep with rfl | hd
  · omega
  · exact h pc s d hs hd

theorem placing_ok {α : Type} {p : Position} {step : Exec α} {m m' : Machine} {a : α}
    (h : placing p step m = .ok a m') : step m = .ok a m' := by
  unfold placing at h
  split at h
  · next h' => rw [h', h]
  · cases h

/-! ## Walks -/

/-- From a counter and a machine the run meets the statements at some places, and ends so. -/
inductive Walk (callees : Callees) (program : List Statement) :
    Nat → Machine → List Nat → EStateM.Result Fault Machine Unit → Prop
  | done {pc : Nat} {m : Machine} (h : program.length ≤ pc) :
      Walk callees program pc m [] (.ok () m)
  | fault {pc : Nat} {m m' : Machine} {s : Statement} {e : Fault} (hs : program[pc]? = some s)
      (h : placing s.position (statement callees s) m = .error e m') :
      Walk callees program pc m [pc] (.error e m')
  | step {pc : Nat} {m m' : Machine} {s : Statement} {d : Nat} {visited : List Nat}
      {result : EStateM.Result Fault Machine Unit} (hs : program[pc]? = some s)
      (h : placing s.position (statement callees s) m = .ok d m')
      (hrest : Walk callees program (pc + d) m' visited result) :
      Walk callees program pc m (pc :: visited) result

/-- A fault is reported where its statement stands, and no jump has one. -/
theorem placing_error {s : Statement} {m m' : Machine} {e : Fault}
    (h : placing s.position (statement callees s) m = .error e m') :
    e.position = some s.position ∧ ∀ distance, s.kind ≠ .jump distance := by
  refine ⟨?_, fun distance hkind => ?_⟩
  · unfold placing at h
    split at h <;> cases h
    rfl
  · unfold placing statement at h
    rw [hkind] at h
    cases h

/-- A walk that fails does so at the statement that it meets last. -/
theorem Walk.fault_last {pc : Nat} {m m' : Machine} {visited : List Nat} {e : Fault}
    (h : Walk callees program pc m visited (.error e m')) : ∃ before last s,
      visited = before ++ [last] ∧ program[last]? = some s ∧ e.position = some s.position ∧
        ∀ distance, s.kind ≠ .jump distance := by
  generalize hresult : EStateM.Result.error e m' = result at h
  induction h with
  | done => cases hresult
  | @fault pc _ _ s _ hs hfault =>
    cases hresult
    exact ⟨[], pc, s, rfl, hs, placing_error hfault⟩
  | @step pc _ _ _ _ _ _ _ _ _ ih =>
    obtain ⟨before, last, s, rfl, hlast⟩ := ih hresult
    exact ⟨pc :: before, last, s, rfl, hlast⟩

/-- There is only one way to go. -/
theorem Walk.unique {pc : Nat} {m : Machine} {visited visited' : List Nat}
    {result result' : EStateM.Result Fault Machine Unit}
    (h : Walk callees program pc m visited result)
    (h' : Walk callees program pc m visited' result') : visited' = visited ∧ result' = result := by
  induction h generalizing visited' result' with
  | done hpc =>
    have hnone := List.getElem?_eq_none hpc
    cases h' with
    | done => exact ⟨rfl, rfl⟩
    | fault hs => cases hnone.symm.trans hs
    | step hs => cases hnone.symm.trans hs
  | fault hs he =>
    cases h' with
    | done hpc => cases (List.getElem?_eq_none hpc).symm.trans hs
    | fault hs' he' =>
      cases hs.symm.trans hs'
      cases he.symm.trans he'
      exact ⟨rfl, rfl⟩
    | step hs' ho' _ =>
      cases hs.symm.trans hs'
      cases he.symm.trans ho'
  | step hs ho _ ih =>
    cases h' with
    | done hpc => cases (List.getElem?_eq_none hpc).symm.trans hs
    | fault hs' he' =>
      cases hs.symm.trans hs'
      cases ho.symm.trans he'
    | step hs' ho' hrest' =>
      cases hs.symm.trans hs'
      cases ho.symm.trans ho'
      obtain ⟨rfl, rfl⟩ := ih hrest'
      exact ⟨rfl, rfl⟩

/-- To pass over statements is not to have them. -/
theorem statements_eq_drop (skip : Nat) (program : List Statement) :
    statements callees skip program = statements callees 0 (program.drop skip) := by
  induction program generalizing skip with
  | nil => rw [List.drop_nil, statements, statements]
  | cons s rest ih =>
    cases skip with
    | zero => rw [List.drop_zero]
    | succ skip => rw [List.drop_succ_cons, statements, ih]

/-- The machine walks from any place, always forward. The induction is on how many statements there
are from the counter on. -/
theorem walk_of_advancing (callees : Callees) (h : Advancing program) (pc : Nat) (m : Machine) :
    ∃ visited, Walk callees program pc m visited (statements callees 0 (program.drop pc) m) ∧
      visited.Pairwise (· < ·) ∧ ∀ i ∈ visited, pc ≤ i ∧ i < program.length := by
  generalize hleft : program.length - pc = left
  induction left using Nat.strongRecOn generalizing pc m with
  | ind left ih =>
  cases hs : program[pc]? with
  | none =>
    have hpc := List.getElem?_eq_none_iff.1 hs
    rw [List.drop_eq_nil_of_le hpc, statements]
    exact ⟨[], .done hpc, .nil, fun _ hi => nomatch hi⟩
  | some s =>
    obtain ⟨hlt, hget⟩ := List.getElem?_eq_some_iff.1 hs
    rw [List.drop_eq_getElem_cons hlt, hget, statements]
    cases hstep : placing s.position (statement callees s) m with
    | error e m' =>
      refine ⟨[pc], ?_, List.pairwise_singleton .., fun i hi => ?_⟩
      · simp only [bind, EStateM.bind, hstep]
        exact .fault hs hstep
      · cases List.mem_singleton.1 hi
        exact ⟨Nat.le_refl _, hlt⟩
    | ok d m' =>
      have hd := advance_le h hs (placing_ok hstep)
      obtain ⟨visited, hwalk, hsorted, hrange⟩ := ih _ (by omega) (pc + d) m' rfl
      refine ⟨pc :: visited, ?_, List.pairwise_cons.2 ⟨fun i hi => ?_, hsorted⟩, fun i hi => ?_⟩
      · simp only [bind, EStateM.bind, hstep]
        -- What is passed over is dropped, which leaves the program from the new counter on.
        rw [statements_eq_drop, List.drop_drop]
        have hnext : pc + 1 + (d - 1) = pc + d := by omega
        rw [hnext]
        exact .step hs hstep hwalk
      · have := hrange i hi
        omega
      · rcases List.mem_cons.1 hi with rfl | hi
        · exact ⟨Nat.le_refl _, hlt⟩
        · have := hrange i hi
          omega

end Exec

/-- A program that fails walks up to a statement, and leaves what the machine has there. -/
theorem Program.walk_of_run {p : Program} (h : Advancing p.statements) {callees : Callees}
    {memory : Memory} {w : Workspace} {e : Fault} (he : (p.run callees memory w).1 = .error e) :
    ∃ visited m, Exec.Walk callees p.statements 0 ⟨.empty "evaluation stack" p.maxDepth, memory, w⟩
        visited (.error e m) ∧ (p.run callees memory w).2 = (m.memory, m.workspace) := by
  obtain ⟨visited, hwalk, -⟩ := Exec.walk_of_advancing callees h 0
    ⟨.empty "evaluation stack" p.maxDepth, memory, w⟩
  rw [List.drop_zero] at hwalk
  unfold Program.run EStateM.run at he ⊢
  dsimp only at he ⊢
  split at he
  · cases he
  · next e' m hm =>
    cases he
    rw [hm] at hwalk
    exact ⟨visited, m, hwalk, rfl⟩

end VectorScript
