import VectorScript.Proofs.Machine.Walk
import VectorScript.Proofs.Program.Linked

/-!
# Structured control flow

A script has a structure: statements one after the other, and conditionals with one branch or two.
Run by that structure (`Stmt.execAll`), a conditional runs its branch exactly if its condition holds.
Laid out as a list of statements with jumps and run by the program counter, a script does the same:
the same conditions and assignments in the same order, to the same end.

    Stmt.flatten s = .ok part → PlacedAt program start part →
      Simulates callees program (s.exec callees) start (start + part.length)     (simulates_flatten)
-/

namespace VectorScript

/-! ## The structure, run -/

/-- What a statement does, wherever the run goes on: a jump does nothing, and a condition is the same
however far it jumps. -/
def Statement.act? (s : Statement) : Option Statement :=
  match s.kind with
  | .jump _ => none
  | .unless _ => some { s with kind := .unless 0 }
  | .store _ _ | .discard => some s

/-- A run of the machine with a record of what has been done. -/
abbrev Traced := EStateM Fault (Machine × List Statement)

namespace Traced

def ofExcept {α : Type} : Except Fault α → Traced α
  | .ok a => return a
  | .error e => throw e

/-- A step on behalf of a statement, which is recorded. A fault is put where the statement stands. -/
def recording {α : Type} (s : Statement) (step : Exec α) : Traced α := fun (m, log) =>
  match Exec.placing s.position step m with
  | .ok a m => .ok a (m, log ++ [s])
  | .error e m => .error e (m, log ++ [s])

end Traced

namespace Stmt

/-- Evaluates code, and stores or drops the value. -/
def perform (callees : Callees) (kind : StatementKind) (code : Build Unit) (p : Position) :
    Traced Unit := do
  let s ← Traced.ofExcept (assemble kind code p)
  let _ ← Traced.recording s (Exec.statement callees s)
  return ()

/-- Evaluates a condition. -/
def holds (callees : Callees) (condition : Expr) (p : Position) : Traced Bool := do
  let s ← Traced.ofExcept (assemble (.unless 0) condition.emit p)
  Traced.recording s (Exec.condition callees s)

mutual

/-- Runs a statement by its structure. -/
def exec (callees : Callees) : Stmt → Traced Unit
  | store slot path value p =>
    perform callees (.store slot path.length) (do Expr.emitAll path; value.emit) p
  | discard e p => perform callees .discard e.emit p
  | ifThen condition p body => do
    if ← holds callees condition p then execAll callees body
  | ifElse condition p body _ otherwise => do
    if ← holds callees condition p then execAll callees body else execAll callees otherwise

/-- Runs statements one after the other. -/
def execAll (callees : Callees) : List Stmt → Traced Unit
  | [] => return ()
  | s :: rest => do
    exec callees s
    execAll callees rest

end

/-! ## Jumps of a layout -/

mutual

/-- Every jump of a layout goes forward and stays in the layout or leads to its end. -/
theorem advancing_flatten : (s : Stmt) → {part : List Statement} → s.flatten = .ok part →
    Advancing part
  | store slot path value p, part, h => by
    obtain ⟨a, ha, rfl⟩ := of_flatten_store h
    exact Advancing.nil.cons_plain (by rw [kind_of_assemble ha]; rfl)
  | discard e p, part, h => by
    obtain ⟨a, ha, rfl⟩ := of_flatten_discard h
    exact Advancing.nil.cons_plain (by rw [kind_of_assemble ha]; rfl)
  | ifThen condition p body, part, h => by
    obtain ⟨inner, branch, hinner, hbranch, rfl⟩ := of_flatten_ifThen h
    refine (advancing_flattenAll body hinner).cons fun distance hd => ?_
    rw [kind_of_assemble hbranch] at hd
    cases hd
    omega
  | ifElse condition p body q otherwise, part, h => by
    obtain ⟨inner, other, branch, leap, hinner, hother, hbranch, hleap, rfl⟩ :=
      of_flatten_ifElse h
    have hright : Advancing (leap :: other) := by
      refine (advancing_flattenAll otherwise hother).cons fun distance hd => ?_
      rw [kind_of_assemble hleap] at hd
      cases hd
      omega
    refine ((advancing_flattenAll body hinner).append hright).cons fun distance hd => ?_
    rw [kind_of_assemble hbranch] at hd
    cases hd
    rw [List.length_append, List.length_cons]
    omega

theorem advancing_flattenAll : (body : List Stmt) → {part : List Statement} →
    flattenAll body = .ok part → Advancing part
  | [], part, h => by
    cases h
    exact .nil
  | s :: rest, part, h => by
    obtain ⟨first, others, hfirst, hothers, rfl⟩ := of_flattenAll_cons h
    exact (advancing_flatten s hfirst).append (advancing_flattenAll rest hothers)

end

end Stmt

/-! ## Parts of a program -/

/-- The part stands in the program from that place on. -/
def PlacedAt (program : List Statement) (start : Nat) (part : List Statement) : Prop :=
  ∃ before after, program = before ++ part ++ after ∧ start = before.length

namespace PlacedAt

variable {program part rest : List Statement} {start : Nat} {s : Statement}

theorem self (program : List Statement) : PlacedAt program 0 program :=
  ⟨[], [], by simp, rfl⟩

theorem head (h : PlacedAt program start (s :: rest)) : program[start]? = some s := by
  obtain ⟨before, after, rfl, rfl⟩ := h
  rw [List.append_assoc, List.getElem?_append_right (Nat.le_refl _), Nat.sub_self]
  rfl

theorem tail (h : PlacedAt program start (s :: rest)) : PlacedAt program (start + 1) rest := by
  obtain ⟨before, after, rfl, rfl⟩ := h
  exact ⟨before ++ [s], after, by simp, by simp⟩

theorem left (h : PlacedAt program start (part ++ rest)) : PlacedAt program start part := by
  obtain ⟨before, after, rfl, rfl⟩ := h
  exact ⟨before, rest ++ after, by simp, rfl⟩

theorem right (h : PlacedAt program start (part ++ rest)) :
    PlacedAt program (start + part.length) rest := by
  obtain ⟨before, after, rfl, rfl⟩ := h
  exact ⟨before ++ part, after, by simp, by simp⟩

end PlacedAt

/-! ## Simulation -/

/-- What has been done at places of a program. -/
def acts (program : List Statement) (visited : List Nat) : List Statement :=
  visited.filterMap fun pc => program[pc]?.bind Statement.act?

theorem acts_append (program : List Statement) (visited later : List Nat) :
    acts program (visited ++ later) = acts program visited ++ acts program later :=
  List.filterMap_append ..

theorem acts_singleton {program : List Statement} {pc : Nat} {s : Statement}
    (hs : program[pc]? = some s) : acts program [pc] = s.act?.toList := by
  unfold acts
  rw [List.filterMap_cons, hs, Option.bind_some, List.filterMap_nil]
  cases s.act? <;> rfl

theorem Statement.act?_plain {s : Statement} (h : s.kind.distance? = none) : s.act? = some s := by
  unfold act?
  cases hk : s.kind with
  | store | discard => rfl
  | «unless» | jump =>
    rw [hk] at h
    cases h

theorem Statement.act?_unless {s : Statement} {distance : Nat} (h : s.kind = .unless distance) :
    s.act? = some { s with kind := .unless 0 } := by
  unfold act?
  rw [h]

theorem Statement.act?_jump {s : Statement} {distance : Nat} (h : s.kind = .jump distance) :
    s.act? = none := by
  unfold act?
  rw [h]

/-- The same condition, however far it jumps. -/
theorem Stmt.assemble_unless {distance : Nat} {code : Build Unit} {p : Position} {s : Statement}
    (h : assemble (.unless distance) code p = .ok s) :
    assemble (.unless 0) code p = .ok { s with kind := .unless 0 } := by
  unfold assemble at h ⊢
  split at h
  · obtain ⟨finished, hfinished, h⟩ := of_bind_ok h
    cases h
    unfold Statement.ofBuilder
    rw [hfinished]
    rfl
  · cases h

theorem Stmt.perform_eq {callees : Callees} {kind : StatementKind} {code : Build Unit} {p : Position}
    {s : Statement} (h : assemble kind code p = .ok s) :
    perform callees kind code p =
      (Traced.recording s (Exec.statement callees s) >>= fun _ => pure ()) := by
  unfold perform
  rw [h]
  rfl

theorem Stmt.holds_eq {callees : Callees} {condition : Expr} {p : Position} {s : Statement}
    (h : assemble (.unless 0) condition.emit p = .ok s) :
    holds callees condition p = Traced.recording s (Exec.condition callees s) := by
  unfold holds
  rw [h]
  rfl

/-- What the structured run does, the machine does from one place of the program to the other; where
the structured run fails, the machine fails in the same way. -/
def Simulates (callees : Callees) (program : List Statement) (x : Traced Unit) (start stop : Nat) :
    Prop :=
  ∀ m log, match x (m, log) with
    | .ok _ (m', log') => ∃ visited, log' = log ++ acts program visited ∧
      ∀ later result, Exec.Walk callees program stop m' later result →
        Exec.Walk callees program start m (visited ++ later) result
    | .error e (m', log') => ∃ visited, log' = log ++ acts program visited ∧
      Exec.Walk callees program start m visited (.error e m')

namespace Simulates

variable {callees : Callees} {program : List Statement} {x y : Traced Unit} {start mid stop : Nat}
  {s : Statement}

theorem nothing (start : Nat) : Simulates callees program (pure ()) start start :=
  fun _ _ => ⟨[], by simp [acts], fun _ _ h => h⟩

theorem seq (hx : Simulates callees program x start mid)
    (hy : Simulates callees program y mid stop) :
    Simulates callees program (do x; y) start stop := by
  intro m log
  have h := hx m log
  simp only [bind, EStateM.bind]
  cases hr : x (m, log) with
  | error e state =>
    rw [hr] at h
    exact h
  | ok u state =>
    obtain ⟨m', log'⟩ := state
    rw [hr] at h
    obtain ⟨visited, rfl, hwalk⟩ := h
    have h' := hy m' (log ++ acts program visited)
    dsimp only
    cases hr' : y (m', log ++ acts program visited) with
    | error e state =>
      rw [hr'] at h'
      obtain ⟨visited', hlog, hwalk'⟩ := h'
      exact ⟨visited ++ visited', by rw [hlog, acts_append, List.append_assoc], hwalk _ _ hwalk'⟩
    | ok u state =>
      rw [hr'] at h'
      obtain ⟨visited', hlog, hwalk'⟩ := h'
      refine ⟨visited ++ visited', by rw [hlog, acts_append, List.append_assoc],
        fun later result hlater => ?_⟩
      rw [List.append_assoc]
      exact hwalk _ _ (hwalk' _ _ hlater)

/-- After a jump the run goes on where it leads. -/
theorem leap {distance : Nat} (hx : Simulates callees program x start mid)
    (hs : program[mid]? = some s) (hk : s.kind = .jump distance) :
    Simulates callees program x start (mid + distance) := by
  intro m log
  have h := hx m log
  cases hr : x (m, log) with
  | error e state =>
    rw [hr] at h
    exact h
  | ok u state =>
    rw [hr] at h
    obtain ⟨visited, hlog, hwalk⟩ := h
    refine ⟨visited ++ [mid], ?_, fun later result hlater => ?_⟩
    · rw [acts_append, acts_singleton hs, Statement.act?_jump hk, hlog]
      exact (List.append_nil _).symm ▸ rfl
    · rw [List.append_assoc]
      refine hwalk _ _ (.step hs ?_ hlater)
      simp only [Exec.placing, Exec.statement, hk]
      rfl

/-- An assignment is a step to the next statement. -/
theorem act {kind : StatementKind} {code : Build Unit} {p : Position}
    (ha : Stmt.assemble kind code p = .ok s) (hs : program[start]? = some s)
    (hk : kind.distance? = none) :
    Simulates callees program (Stmt.perform callees kind code p) start (start + 1) := by
  intro m log
  have hkind := Stmt.kind_of_assemble ha
  have hacts : acts program [start] = [s] := by
    rw [acts_singleton hs, Statement.act?_plain (hkind ▸ hk)]
    rfl
  rw [Stmt.perform_eq ha]
  simp only [bind, EStateM.bind, Traced.recording]
  cases hr : Exec.placing s.position (Exec.statement callees s) m with
  | error e m' => exact ⟨[start], by rw [hacts], .fault hs hr⟩
  | ok d m' =>
    refine ⟨[start], by rw [hacts], fun later result hlater => ?_⟩
    have hd : d = 1 := by
      rcases Exec.advance_of_statement (Exec.placing_ok hr) with hd | hd
      · exact hd
      · rw [hkind, hk] at hd
        cases hd
    exact .step hs hr (hd ▸ hlater)

/-- A condition is a step to the next statement if it holds, and else as far as the statement jumps. -/
theorem branch {condition : Expr} {p : Position} {distance : Nat}
    (ha : Stmt.assemble (.unless distance) condition.emit p = .ok s)
    (hs : program[start]? = some s) (hx : Simulates callees program x (start + 1) stop)
    (hy : Simulates callees program y (start + distance) stop) :
    Simulates callees program (do if ← Stmt.holds callees condition p then x else y) start stop := by
  intro m log
  have hkind := Stmt.kind_of_assemble ha
  have hacts : acts program [start] = [{ s with kind := .unless 0 }] := by
    rw [acts_singleton hs, Statement.act?_unless hkind]
    rfl
  have hplacing : Exec.placing s.position (Exec.statement callees s) m = _ :=
    Exec.placing_unless hkind s.position m
  -- the kind of a statement makes no difference to its condition
  have hcondition : Exec.condition callees { s with kind := .unless 0 } =
      Exec.condition callees s := rfl
  rw [Stmt.holds_eq (Stmt.assemble_unless ha), hcondition]
  simp only [bind, EStateM.bind, Traced.recording]
  cases hr : Exec.placing s.position (Exec.condition callees s) m with
  | error e m' =>
    rw [hr] at hplacing
    exact ⟨[start], by rw [hacts], .fault hs hplacing⟩
  | ok holds m' =>
    rw [hr] at hplacing
    have hrest : Simulates callees program (if holds then x else y)
        (start + if holds then 1 else distance) stop := by
      cases holds
      · exact hy
      · exact hx
    have hstep : Exec.placing s.position (Exec.statement callees s) m =
        .ok (if holds then 1 else distance) m' := by
      rw [hplacing]
      cases holds <;> rfl
    have h := hrest m' (log ++ [{ s with kind := .unless 0 }])
    dsimp only
    cases hr' : (if holds then x else y : Traced Unit) (m', log ++ [{ s with kind := .unless 0 }]) with
    | error e state =>
      rw [hr'] at h
      obtain ⟨visited, hlog, hwalk⟩ := h
      refine ⟨start :: visited, ?_, .step hs hstep hwalk⟩
      rw [hlog, ← hacts, List.append_assoc, ← acts_append, List.singleton_append]
    | ok u state =>
      rw [hr'] at h
      obtain ⟨visited, hlog, hwalk⟩ := h
      refine ⟨start :: visited, ?_, fun later result hlater => .step hs hstep (hwalk _ _ hlater)⟩
      rw [hlog, ← hacts, List.append_assoc, ← acts_append, List.singleton_append]

end Simulates

mutual

/-- A statement run by its structure does what its layout does in a program. -/
theorem simulates_flatten (callees : Callees) {program : List Statement} : (s : Stmt) →
    {part : List Statement} → s.flatten = .ok part → {start : Nat} → PlacedAt program start part →
    Simulates callees program (s.exec callees) start (start + part.length)
  | .store slot path value p, part, h, start, hplaced => by
    obtain ⟨a, ha, rfl⟩ := Stmt.of_flatten_store h
    exact .act ha hplaced.head rfl
  | .discard e p, part, h, start, hplaced => by
    obtain ⟨a, ha, rfl⟩ := Stmt.of_flatten_discard h
    exact .act ha hplaced.head rfl
  | .ifThen condition p body, part, h, start, hplaced => by
    obtain ⟨inner, branch, hinner, hbranch, rfl⟩ := Stmt.of_flatten_ifThen h
    have hstop : start + (branch :: inner).length = start + 1 + inner.length := by
      rw [List.length_cons]
      omega
    have hskip : start + (inner.length + 1) = start + 1 + inner.length := by omega
    unfold Stmt.exec
    rw [hstop]
    refine .branch hbranch hplaced.head (simulates_flattenAll callees body hinner hplaced.tail) ?_
    rw [hskip]
    exact .nothing _
  | .ifElse condition p body q otherwise, part, h, start, hplaced => by
    obtain ⟨inner, other, branch, leap, hinner, hother, hbranch, hleap, rfl⟩ :=
      Stmt.of_flatten_ifElse h
    have hright := hplaced.tail.right
    have hstop : start + (branch :: inner ++ leap :: other).length =
        start + 1 + inner.length + (other.length + 1) := by
      rw [List.length_append, List.length_cons, List.length_cons]
      omega
    have hskip : start + (inner.length + 2) = start + 1 + inner.length + 1 := by omega
    unfold Stmt.exec
    rw [hstop]
    refine .branch hbranch hplaced.head ?holds ?fails
    -- The first body ends in a leap over the second one.
    case holds =>
      exact (simulates_flattenAll callees body hinner hplaced.tail.left).leap hright.head
        (Stmt.kind_of_assemble hleap)
    case fails =>
      rw [hskip, Nat.add_comm other.length 1, ← Nat.add_assoc]
      exact simulates_flattenAll callees otherwise hother hright.tail

theorem simulates_flattenAll (callees : Callees) {program : List Statement} :
    (body : List Stmt) → {part : List Statement} → Stmt.flattenAll body = .ok part →
    {start : Nat} → PlacedAt program start part →
    Simulates callees program (Stmt.execAll callees body) start (start + part.length)
  | [], part, h, start, _ => by
    cases h
    exact .nothing start
  | s :: rest, part, h, start, hplaced => by
    obtain ⟨first, others, hfirst, hothers, rfl⟩ := Stmt.of_flattenAll_cons h
    rw [List.length_append, ← Nat.add_assoc]
    exact (simulates_flatten callees s hfirst hplaced.left).seq
      (simulates_flattenAll callees rest hothers hplaced.right)

end

/-! ## Programs -/

/-- A result of the machine, with a record. -/
def Traced.recorded (log : List Statement) :
    EStateM.Result Fault Machine Unit → EStateM.Result Fault (Machine × List Statement) Unit
  | .ok _ m => .ok () (m, log)
  | .error e m => .error e (m, log)

/-- Laid out on its own, a script is run by the machine as by its structure. -/
theorem execAll_eq {body : List Stmt} {program : List Statement}
    (h : Stmt.flattenAll body = .ok program) (callees : Callees) (m : Machine) :
    ∃ visited, Exec.Walk callees program 0 m visited (Exec.statements callees 0 program m) ∧
      Stmt.execAll callees body (m, []) =
        Traced.recorded (acts program visited) (Exec.statements callees 0 program m) := by
  obtain ⟨walked, hwalked, -⟩ := Exec.walk_of_advancing callees (Stmt.advancing_flattenAll body h) 0 m
  have hsim := simulates_flattenAll callees body h (.self program) m []
  cases hr : Stmt.execAll callees body (m, []) with
  | error e state =>
    rw [hr] at hsim
    obtain ⟨visited, hlog, hwalk⟩ := hsim
    obtain ⟨-, hresult⟩ := hwalk.unique hwalked
    rw [List.drop_zero] at hresult
    rw [hresult]
    exact ⟨visited, hwalk, by rw [Traced.recorded, ← List.nil_append (acts program visited), ← hlog]⟩
  | ok u state =>
    rw [hr] at hsim
    obtain ⟨visited, hlog, hwalk⟩ := hsim
    have hend := hwalk [] _ (.done (by omega))
    rw [List.append_nil] at hend
    obtain ⟨-, hresult⟩ := hend.unique hwalked
    rw [List.drop_zero] at hresult
    rw [hresult]
    exact ⟨visited, hend, by rw [Traced.recorded, ← List.nil_append (acts program visited), ← hlog]⟩

namespace Setting

/-- Structured control flow survives the layout. Whatever text compiles, in whatever setting, its
program only jumps forward and at most to its end; and from any machine, with any functions and scripts
to call, there is one walk of the program counter. It is what the machine computes, and it does what
the structure of the text does: the same conditions and assignments in the same order, to the same
machine, with the same fault at the same position if there is one. -/
theorem runs_structured (s : Setting) {source : String} {p : Program}
    (hp : (s.compile source).1 = .ok p) :
    Advancing p.statements ∧ ∃ body d, s.parse Parse.script source = .ok body d ∧
      ∀ callees m, ∃ visited,
        (∀ visited' result, Exec.Walk callees p.statements 0 m visited' result ↔
          visited' = visited ∧ result = Exec.statements callees 0 p.statements m) ∧
        Stmt.execAll callees body (m, []) =
          Traced.recorded (acts p.statements visited) (Exec.statements callees 0 p.statements m) := by
  obtain ⟨body, d, statements, hparse, hflatten, rfl, -⟩ := compile_eq_ok hp
  refine ⟨Stmt.advancing_flattenAll body hflatten, body, d, hparse, fun callees m => ?_⟩
  obtain ⟨visited, hwalk, hexec⟩ := execAll_eq hflatten callees m
  refine ⟨visited, fun visited' result => ⟨fun h => hwalk.unique h, ?_⟩, hexec⟩
  rintro ⟨rfl, rfl⟩
  exact hwalk

/-- A chain of conditionals, one with an empty body and one around a declaration without a value. -/
def chainText : String :=
  "Natural x; if (x) \x7b\x7d else if (x == 0) Natural y; else \x7b x = 1; x = 2; \x7d"

/-- The chain is laid out as two conditions with a jump each. -/
theorem runs_structured_chain : ∃ p,
    ((Workspace.new.setting "a").compile chainText).1 = .ok p ∧ Advancing p.statements ∧
      p.statements.map (·.kind) = [.unless 2, .jump 5, .unless 2, .jump 3, .store 1 0, .store 1 0] := by
  have hok : (((Workspace.new.setting "a").compile chainText).1.toOption.map fun p =>
      p.statements.map (·.kind)) =
        some [.unless 2, .jump 5, .unless 2, .jump 3, .store 1 0, .store 1 0] := by
    decide +kernel
  cases hp : ((Workspace.new.setting "a").compile chainText).1 with
  | error e =>
    rw [hp] at hok
    cases hok
  | ok p =>
    rw [hp] at hok
    exact ⟨p, rfl, (runs_structured _ hp).1, Option.some.inj hok⟩

end Setting

end VectorScript
