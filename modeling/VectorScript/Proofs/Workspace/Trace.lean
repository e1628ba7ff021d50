import VectorScript.Proofs.Machine.Lockstep
import VectorScript.Proofs.Machine.Stage
import VectorScript.Proofs.Workspace.Faults
import VectorScript.Proofs.Workspace.Independence

/-!
# What faults tell of the way they came

A script that fails is named in the detail of the fault with the place where it failed, and so on
outwards: each script that has dispatched the one before it is named in turn, up to the one that was
run, whose own place the fault has. `Traced` says how scripts dispatch one another down to the one
that fails; the trace is what the detail adds for all but the first of them (`Fault.details`).

    w.Traced compiler depth name ((name, p) :: inner) e →
      (runWithin compiler depth name w).1 = .error (e.outermost p inner)        (runWithin_of_traced)
-/

namespace VectorScript

/-! ## Details -/

namespace Fault

/-- What is told of a script that has failed at a place. -/
def entry (failed : String × Position) : String :=
  "in script " ++ failed.1 ++ " at " ++ failed.2.render

/-- The fault's own detail, if there is any, and what is told of the scripts that it has come through,
the innermost first. They are given from the outermost on. -/
def details (e : Fault) (inner : List (String × Position)) : List String :=
  (if e.detail = "" then [] else [e.detail]) ++ inner.reverse.map entry

/-- The fault as it is when it has come out of the inner scripts to a place. -/
def outermost (e : Fault) (p : Position) (inner : List (String × Position)) : Fault :=
  { e with position := some p, detail := "; ".intercalate (e.details inner) }

theorem outermost_nil (e : Fault) (p : Position) : e.outermost p [] = e.located p := by
  unfold outermost details located
  split
  · next h => rw [h]; rfl
  · simp

theorem entry_ne_empty (failed : String × Position) : entry failed ≠ "" := by
  intro h
  have := congrArg String.length h
  simp [entry] at this

theorem intercalate_ne_empty {texts : List String} (hne : texts ≠ [])
    (htexts : ∀ text ∈ texts, text ≠ "") : "; ".intercalate texts ≠ "" := by
  cases texts with
  | nil => exact absurd rfl hne
  | cons text rest =>
    have htext := htexts text List.mem_cons_self
    cases rest with
    | nil => simpa using htext
    | cons other rest => simp [htext]

/-- A detail that is joined to others comes last. -/
theorem joinDetail_intercalate {texts : List String} (htexts : ∀ text ∈ texts, text ≠ "")
    (text : String) :
    joinDetail ("; ".intercalate texts) text = "; ".intercalate (texts ++ [text]) := by
  unfold joinDetail
  cases texts with
  | nil => rfl
  | cons first rest =>
    have hne := intercalate_ne_empty (List.cons_ne_nil first rest) htexts
    rw [if_neg (by simpa using hne), String.intercalate_append_of_ne_nil (List.cons_ne_nil _ _)
      (List.cons_ne_nil _ _), String.intercalate_singleton]

theorem details_ne_empty (e : Fault) (inner : List (String × Position)) :
    ∀ text ∈ e.details inner, text ≠ "" := by
  intro text htext
  rcases List.mem_append.1 htext with hown | htrace
  · split at hown
    · cases hown
    · next h => rwa [List.mem_singleton.1 hown]
  · obtain ⟨failed, -, rfl⟩ := List.mem_map.1 htrace
    exact entry_ne_empty failed

/-- A fault that comes out of one script more tells of it last. -/
theorem inScript_outermost (e : Fault) (script : String) (p q : Position)
    (inner : List (String × Position)) :
    ((e.outermost p inner).inScript script).located q = e.outermost q ((script, p) :: inner) := by
  have hdetails : e.details ((script, p) :: inner) = e.details inner ++ [entry (script, p)] := by
    simp [details]
  unfold outermost inScript located
  dsimp only
  rw [hdetails, ← joinDetail_intercalate (details_ne_empty e inner)]
  rfl

end Fault

namespace Workspace

variable {compiler : Compiler} {w w' : Workspace} {name script : String} {depth : Nat}
  {c : Callees} {st : Statement} {m : Machine} {e : Fault}

/-! ## Scripts that dispatch one another -/

/-- The script runs, where runs may nest so deep below it, and has come to a statement. -/
def Executes (compiler : Compiler) (depth : Nat) (name : String) (w : Workspace) (c : Callees)
    (st : Statement) (m : Machine) : Prop :=
  ∃ s before r, w.scripts.get? name = some s ∧ w.refresh compiler name s = (.ok (), before) ∧
    (before.scripts.get? name).bind Script.runner? = some r ∧
    c = ⟨r.program.functions, dispatchBy (runWithin compiler depth)⟩ ∧
    r.program.Arrives c r.memory (before.enter name) st m

/-- The statement has come to a call that dispatches the script, and so the workspace is then. -/
def Dispatching (c : Callees) (st : Statement) (m : Machine) (script : String) (w : Workspace) : Prop :=
  ∃ a, st.Reaches c m a ∧ a.Dispatches c script ∧ a.machine.workspace = w

/-- The script that is dispatched does not get to run: it runs already, there is none, or it has no
current program and does not compile. -/
inductive Refuses (compiler : Compiler) (w : Workspace) (script : String) : Fault → Prop
  | cyclic (h : script ∈ w.active) : Refuses compiler w script (.about .cyclicDispatch script)
  | missing (hactive : script ∉ w.active) (h : w.scripts.get? script = none) :
      Refuses compiler w script (.about .dispatchNotFound script)
  | uncompiled {s : Script} {e : Fault} {after : Workspace} (hactive : script ∉ w.active)
      (hs : w.scripts.get? script = some s) (h : w.refresh compiler script s = (.error e, after)) :
      Refuses compiler w script ((Fault.about .compilationFailed script).because e.render)

/-- How a run comes to fail: each script of the list but the last is at a statement, at the place given,
that dispatches the next one, and the last one is at a statement that fails with the fault, or
dispatches a script that does not get to run. -/
inductive Traced (compiler : Compiler) :
    Nat → String → Workspace → List (String × Position) → Fault → Prop
  | fails {depth : Nat} {name : String} {w : Workspace} {c : Callees} {st : Statement}
      {m m' : Machine} {e : Fault} (h : Executes compiler depth name w c st m)
      (he : Exec.statement c st m = .error e m') :
      Traced compiler (depth + 1) name w [(name, st.position)] e
  | refused {depth : Nat} {name script : String} {w w' : Workspace} {c : Callees} {st : Statement}
      {m : Machine} {e : Fault} (h : Executes compiler (depth + 1) name w c st m)
      (hdispatch : Dispatching c st m script w') (he : Refuses compiler w' script e) :
      Traced compiler (depth + 2) name w [(name, st.position)] e
  | within {depth : Nat} {name script : String} {w w' : Workspace} {c : Callees} {st : Statement}
      {m : Machine} {inner : List (String × Position)} {e : Fault}
      (h : Executes compiler depth name w c st m) (hdispatch : Dispatching c st m script w')
      (hactive : script ∉ w'.active) (hinner : Traced compiler depth script w' inner e) :
      Traced compiler (depth + 1) name w ((name, st.position) :: inner) e

/-! ## Faults -/

/-- A run fails with the fault of the statement that it has come to. -/
theorem Executes.run_eq (h : Executes compiler depth name w c st m) {m' : Machine}
    (he : Exec.statement c st m = .error e m') :
    (runWithin compiler (depth + 1) name w).1 = .error (e.located st.position) := by
  obtain ⟨s, before, r, hs, hrefresh, hr, rfl, harrives⟩ := h
  rw [runWithin_succ, launch, hs]
  dsimp only
  rw [hrefresh]
  dsimp only
  rw [hr]
  dsimp only
  rw [engage_eq, harrives.run_eq he]

/-- A statement fails with the fault of the script that it dispatches. -/
theorem Dispatching.statement_eq (h : Dispatching c st m script w')
    (he : (c.dispatch script w').1 = .error e) : ∃ m', Exec.statement c st m = .error e m' := by
  obtain ⟨a, hreaches, hdispatches, rfl⟩ := h
  exact ⟨_, Exec.statement_of_reaches hreaches (hdispatches.run_eq he)⟩

/-- A script that does not get to run leaves no trace. -/
theorem Refuses.dispatchBy_eq (h : Refuses compiler w script e) (depth : Nat) :
    (dispatchBy (runWithin compiler (depth + 1)) script w).1 = .error e := by
  unfold dispatchBy
  cases h with
  | cyclic h => rw [if_pos (List.contains_iff_mem.2 h)]
  | missing hactive h =>
    rw [if_neg (fun hc => hactive (List.contains_iff_mem.1 hc)), if_pos]
    rw [Bool.not_eq_true', NameMap.contains, h]
    rfl
  | uncompiled hactive hs h =>
    rw [if_neg (fun hc => hactive (List.contains_iff_mem.1 hc)), if_neg]
    · rw [runWithin_succ, launch, hs]
      dsimp only
      rw [h]
      rfl
    · simp [NameMap.contains, hs]

/-- A script that runs and fails at a place is told of. -/
theorem dispatchBy_eq_inScript {run : String → Workspace → Except Fault Unit × Workspace}
    (hactive : script ∉ w.active) (hscript : w.scripts.contains script = true)
    (he : (run script w).1 = .error e) (hplace : e.position.isSome = true) :
    (dispatchBy run script w).1 = .error (e.inScript script) := by
  unfold dispatchBy
  rw [if_neg (fun hc => hactive (List.contains_iff_mem.1 hc)), if_neg (by rw [hscript]; decide)]
  dsimp only
  rw [he]
  show Except.error (if e.position.isSome then e.inScript script else e) = _
  rw [if_pos hplace]

theorem Traced.contains {trail : List (String × Position)}
    (h : Traced compiler depth name w trail e) : w.scripts.contains name = true := by
  have hexecutes : ∀ {depth c st m}, Executes compiler depth name w c st m →
      w.scripts.contains name = true :=
    fun ⟨s, _, _, hs, _⟩ => NameMap.contains_iff.2 ⟨s, hs⟩
  cases h with
  | fails h => exact hexecutes h
  | refused h => exact hexecutes h
  | within h => exact hexecutes h

/-- The fault of the last script comes out of all the others. The induction is on how they dispatch one
another, from the innermost on. -/
theorem runWithin_of_traced {trail : List (String × Position)}
    (h : Traced compiler depth name w trail e) : ∃ p inner, trail = (name, p) :: inner ∧
      (runWithin compiler depth name w).1 = .error (e.outermost p inner) := by
  induction h with
  | fails h he =>
    refine ⟨_, [], rfl, ?_⟩
    rw [Fault.outermost_nil]
    exact h.run_eq he
  | refused h hdispatch he =>
    obtain ⟨s, before, r, -, -, -, rfl, -⟩ := id h
    obtain ⟨m', hfails⟩ := hdispatch.statement_eq (he.dispatchBy_eq _)
    refine ⟨_, [], rfl, ?_⟩
    rw [Fault.outermost_nil]
    exact h.run_eq hfails
  | @within depth name script w w' c st m trail e h hdispatch hactive hinner ih =>
    obtain ⟨p, inner, rfl, hrun⟩ := ih
    obtain ⟨s, before, r, -, -, -, rfl, -⟩ := id h
    have hdispatched := dispatchBy_eq_inScript hactive hinner.contains hrun rfl
    obtain ⟨m', hfails⟩ := hdispatch.statement_eq hdispatched
    refine ⟨_, _, rfl, ?_⟩
    rw [← Fault.inScript_outermost]
    exact h.run_eq hfails

/-- However deep scripts dispatch one another down to one that fails, or that dispatches a script which
does not get to run: the run of the first of them fails with the cause and the item of that fault and
at the place where the first script is. The detail is the detail of that fault, if it has any, and
then says of each script but the first where it is, the last one first, all joined by semicolons. -/
theorem faults_traced {trail : List (String × Position)}
    (h : Traced compiler (w.scripts.size + 1) name w trail e) :
    ∃ p inner, trail = (name, p) :: inner ∧ ∃ f, (w.run name compiler).1 = .error f ∧
      f.cause = e.cause ∧ f.item = e.item ∧ f.position = some p ∧
      f.detail = "; ".intercalate ((if e.detail = "" then [] else [e.detail]) ++
        inner.reverse.map fun (script, q) => "in script " ++ script ++ " at " ++ q.render) := by
  obtain ⟨p, inner, htrail, hrun⟩ := runWithin_of_traced h
  exact ⟨p, inner, htrail, _, hrun, rfl, rfl, rfl, rfl⟩

/-! ## Scripts that begin by dispatching another -/

/-- A statement that only dispatches a script by a literal comes to the call at once. -/
theorem dispatching_literal {index : UInt32} (hkind : ∀ distance, st.kind ≠ .jump distance)
    (hcode : st.code = [Opcode.immed.encode none, Opcode.fun.encode none, index, 1])
    (himmediates : st.immediates = [.text script])
    (hf : c.functions[index.toNat]? = some Library.dispatch) (hroom : m.stack.clear.room ≠ 0) :
    Dispatching c st m script m.workspace := by
  obtain ⟨room, hroom⟩ := Nat.exists_eq_succ_of_ne_zero hroom
  have himmed : ∀ rest, Instruction.decode (Opcode.immed.encode none) rest = .ok (.immed, rest) :=
    Instruction.decode_encode .immed none
  obtain ⟨m₁, hpush, htop, hworkspace⟩ : ∃ m₁,
      Exec.push (.text script) { m with stack := m.stack.clear } = .ok () m₁ ∧
        m₁.stack.top? (1 : UInt32).toNat = some [.text script] ∧ m₁.workspace = m.workspace := by
    unfold Exec.push Exec.onStack Stack.push EStateM.run
    simp only [bind, EStateM.bind, get_apply, hroom]
    exact ⟨_, rfl, rfl, rfl⟩
  have hstep : Stage.Step c ⟨false, st.immediates, st.code, { m with stack := m.stack.clear }⟩
      ⟨false, [], [Opcode.fun.encode none, index, 1], m₁⟩ := by
    rw [hcode, himmediates]
    exact .immed (himmed _) hpush
  have hcall := Instruction.decode_encode .fun none [index, 1]
  exact ⟨_, ⟨hkind, .single hstep⟩, ⟨⟨_, _, _, _, _, [], rfl, hcall, hf, htop⟩⟩, hworkspace⟩

/-- A script that is current and does not run, with its first statement. -/
def opening? (w : Workspace) (name : String) : Option (Runner × Statement) := do
  let s ← w.scripts.get? name
  let r ← s.runner?
  let st ← r.program.statements[0]?
  if s.stale then none else some (r, st)

/-- The statement only dispatches the script, by a literal. -/
def dispatchesLiteral (functions : List HostFunction) (st : Statement) (script : String) : Bool :=
  match st.kind, st.code, st.immediates with
  | .store _ _, [a, b, index, 1], [.text literal] =>
    a = Opcode.immed.encode none && b = Opcode.fun.encode none && literal = script &&
      functions[index.toNat]?.any fun f => f.name = Library.dispatchName
  | _, _, _ => false

/-- The script begins at a place with a statement that only dispatches another one. -/
def opensWith (w : Workspace) (name script : String) (p : Position) : Bool :=
  (w.opening? name).any fun (r, st) => r.program.maxDepth != 0 && st.position = p &&
    dispatchesLiteral r.program.functions st script

theorem executes_opening (compiler : Compiler) (depth : Nat) {r : Runner}
    (h : w.opening? name = some (r, st)) :
    (w.scripts.get? name).bind Script.runner? = some r ∧
      Executes compiler depth name w ⟨r.program.functions, dispatchBy (runWithin compiler depth)⟩ st
        ⟨.empty "evaluation stack" r.program.maxDepth, r.memory, w.enter name⟩ := by
  obtain ⟨s, hs, h⟩ := Option.bind_eq_some_iff.1 h
  obtain ⟨r', hr, h⟩ := Option.bind_eq_some_iff.1 h
  obtain ⟨st', hst, h⟩ := Option.bind_eq_some_iff.1 h
  split at h
  · cases h
  · next hstale =>
    cases h
    have hrunner : (w.scripts.get? name).bind Script.runner? = some r :=
      Option.bind_eq_some_iff.2 ⟨s, hs, hr⟩
    have hinstalled : s.installed.isNone = false := by
      obtain ⟨i, hi, -⟩ := Option.bind_eq_some_iff.1 hr
      rw [hi]
      rfl
    refine ⟨hrunner, s, w, r, hs, ?_, hrunner, rfl, 0, .refl, hst⟩
    unfold refresh
    rw [if_neg (by simp [hstale, hinstalled])]

/-- A script that begins so comes to dispatch the other. -/
theorem dispatching_opening (compiler : Compiler) (depth : Nat) (hw : w.Sound)
    (hlibrary : w.Equipped (· ∈ Library.functions)) {p : Position}
    (h : w.opensWith name script p = true) : ∃ c st m,
      Executes compiler depth name w c st m ∧ Dispatching c st m script (w.enter name) ∧
        st.position = p := by
  obtain ⟨⟨r, st⟩, hopening, hopens⟩ := (Option.any_eq_true ..).1 h
  simp only [Bool.and_eq_true, decide_eq_true_eq, bne_iff_ne] at hopens
  obtain ⟨⟨hdepth, hplace⟩, hliteral⟩ := hopens
  obtain ⟨hrunner, hexecutes⟩ := executes_opening compiler depth hopening
  unfold dispatchesLiteral at hliteral
  split at hliteral
  · next hkind hcode himmediates =>
    simp only [Bool.and_eq_true, decide_eq_true_eq] at hliteral
    obtain ⟨⟨⟨rfl, rfl⟩, rfl⟩, hf⟩ := hliteral
    obtain ⟨f, hf, hname⟩ := (Option.any_eq_true ..).1 hf
    have hprogram := (hw.runner_of hrunner).1
    obtain rfl := Library.eq_dispatch (hlibrary.programs name _ hprogram f (List.mem_of_getElem? hf))
      (of_decide_eq_true hname)
    refine ⟨_, st, _, hexecutes, ?_, hplace⟩
    exact dispatching_literal (fun d hd => nomatch hkind.symm.trans hd) hcode himmediates hf hdepth
  · cases hliteral

theorem Traced.opensWith (hw : w.Sound) (hlibrary : w.Equipped (· ∈ Library.functions)) {p : Position}
    (h : w.opensWith name script p = true) (hactive : script ∉ (w.enter name).active)
    {inner : List (String × Position)} (hinner : Traced compiler depth script (w.enter name) inner e) :
    Traced compiler (depth + 1) name w ((name, p) :: inner) e := by
  obtain ⟨c, st, m, hexecutes, hdispatch, rfl⟩ := dispatching_opening compiler depth hw hlibrary h
  exact .within hexecutes hdispatch hactive hinner

theorem Refuses.traced (hw : w.Sound) (hlibrary : w.Equipped (· ∈ Library.functions)) {p : Position}
    (h : w.opensWith name script p = true) (he : Refuses compiler (w.enter name) script e) :
    Traced compiler (depth + 2) name w [(name, p)] e := by
  obtain ⟨c, st, m, hexecutes, hdispatch, rfl⟩ := dispatching_opening compiler (depth + 1) hw hlibrary h
  exact .refused hexecutes hdispatch he

/-- What the first statement of a script fails with, and where, when the script is run. -/
def openingFault? (w : Workspace) (name : String) (depth : Nat) : Option (Position × Fault) := do
  let (r, st) ← w.opening? name
  match Exec.statement ⟨r.program.functions, dispatchBy (runWithin Setting.compile depth)⟩ st
    ⟨.empty "evaluation stack" r.program.maxDepth, r.memory, w.enter name⟩ with
  | .ok _ _ => none
  | .error e _ => some (st.position, e)

theorem traced_openingFault {p : Position} (h : w.openingFault? name depth = some (p, e)) :
    Traced Setting.compile (depth + 1) name w [(name, p)] e := by
  obtain ⟨⟨r, st⟩, hopening, h⟩ := Option.bind_eq_some_iff.1 h
  dsimp only at h
  split at h
  · cases h
  · next he =>
    cases h
    exact .fails (executes_opening _ _ hopening).2 he

/-- A script that dispatches another, which dispatches a third one, which divides by zero on its second
line; and a script and another that dispatch each other. -/
def relays : Workspace := performed [.setSource "a" "dispatch(\"b\");",
  .setSource "b" "\n\ndispatch(\"c\");", .setSource "c" "Natural n;\n1 / n;",
  .setSource "x" "dispatch(\"y\");", .setSource "y" " dispatch(\"x\");"]

/-- The fault of the third script tells of it and of the second one. The script that is dispatched while
it runs is not told of. -/
theorem faults_traced_relays :
    (∃ f, (relays.run "a").1 = .error f ∧ f.cause = .divisionByZero ∧
      f.position = some ⟨1, 1, 0, 8⟩ ∧ f.detail = "in script c at 2:1; in script b at 3:1") ∧
    ∃ f, (relays.run "x").1 = .error f ∧ f.cause = .cyclicDispatch ∧ f.item = some "x" ∧
      f.position = some ⟨1, 1, 0, 8⟩ ∧ f.detail = "in script y at 1:2" := by
  have hreachable : Reachable Setting.compile relays := reachable_performed _
  have hw := (sound_of_reachable Setting.sound_compile hreachable).1
  have hlibrary : relays.Equipped (· ∈ Library.functions) := equipped_performed (by simp)
  have hentered (name : String) : (relays.enter name).Equipped (· ∈ Library.functions) :=
    (lasting_equipped fun f hf => hf).enter name hlibrary
  obtain ⟨hsize, ha, hb, hc, hx, hy⟩ : relays.scripts.size = 5 ∧
      relays.opensWith "a" "b" ⟨1, 1, 0, 8⟩ = true ∧
      (relays.enter "a").opensWith "b" "c" ⟨3, 1, 2, 8⟩ = true ∧
      ((relays.enter "a").enter "b").openingFault? "c" 3 =
        some (⟨2, 1, 11, 1⟩, .of .divisionByZero) ∧
      relays.opensWith "x" "y" ⟨1, 1, 0, 8⟩ = true ∧
      (relays.enter "x").opensWith "y" "x" ⟨1, 2, 1, 8⟩ = true := by decide +kernel
  obtain ⟨hba, hcb, hyx, hxy⟩ : "b" ∉ (relays.enter "a").active ∧
      "c" ∉ ((relays.enter "a").enter "b").active ∧ "y" ∉ (relays.enter "x").active ∧
      "x" ∈ ((relays.enter "x").enter "y").active := by decide +kernel
  have habc : Traced Setting.compile (relays.scripts.size + 1) "a" relays
      [("a", ⟨1, 1, 0, 8⟩), ("b", ⟨3, 1, 2, 8⟩), ("c", ⟨2, 1, 11, 1⟩)] (.of .divisionByZero) := by
    rw [hsize]
    exact .opensWith hw hlibrary ha hba (.opensWith (hw.enter "a") (hentered "a") hb hcb
      (traced_openingFault hc))
  have hxyx : Traced Setting.compile (relays.scripts.size + 1) "x" relays
      [("x", ⟨1, 1, 0, 8⟩), ("y", ⟨1, 2, 1, 8⟩)] (.about .cyclicDispatch "x") := by
    rw [hsize]
    exact .opensWith hw hlibrary hx hyx ((Refuses.cyclic hxy).traced (hw.enter "x") (hentered "x") hy)
  constructor
  · obtain ⟨p, inner, htrail, f, hf, hcause, -, hposition, hdetail⟩ := faults_traced habc
    cases htrail
    exact ⟨f, hf, hcause, hposition, hdetail.trans (by decide +kernel)⟩
  · obtain ⟨p, inner, htrail, f, hf, hcause, hitem, hposition, hdetail⟩ := faults_traced hxyx
    cases htrail
    exact ⟨f, hf, hcause, hitem, hposition, hdetail.trans (by decide +kernel)⟩

end Workspace

end VectorScript
