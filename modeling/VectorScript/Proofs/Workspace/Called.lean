import VectorScript.Proofs.Grammar.Calling
import VectorScript.Proofs.Machine.Conduct
import VectorScript.Proofs.Workspace.History

/-!
# Which functions programs call

A call instruction holds the index of a function. A name of the host that stands for a function stands
for the one with its index, and no other name has this index; but a function may be replaced, its name
may be taken by a constant, and when it is registered once more it gets another index. None of this
reaches a program, which has the functions of the host as they were when it was compiled: its call
instructions are the calls of the text one by one, and each calls the function that the name stood for
then, with as many arguments as that function has parameters.

    (s.compile text).1 = .ok p → p.CallsAs s.globals text                          (callsAs_compile)
    Reachable Setting.compile w → w.scripts.program? name = some p →
      p calls what its text called in the workspace in which it was compiled    (calls_as_compiled)
-/

namespace VectorScript

/-! ## Calling -/

namespace Exec

/-- Calls the function on as many of the topmost values as it has parameters. -/
def invoke (callees : Callees) (f : HostFunction) : Exec Unit := do
  let m ← get
  let some args := m.stack.top? f.params.length | throw (.internal "stack underflow")
  let (result, workspace) := (f.execute args 0).answer (services callees) m.workspace
  set { m with workspace := workspace }
  settle f.params.length result

theorem call_eq_invoke {callees : Callees} {index : Nat} {f : HostFunction}
    (h : callees.functions[index]? = some f) :
    call callees index f.params.length = invoke callees f := by
  unfold call
  rw [h]
  rfl

end Exec

/-! ## Programs -/

namespace Program

variable {p : Program} {g : Globals} {x : String} {site : Site}

/-- The calls in the code of the program. -/
def callSites (p : Program) : List Site := p.statements.flatMap Statement.callSites

/-- The instruction calls the function that the name stands for: it holds the index of the function,
which is the same in the program, and the number of its parameters. Wherever it is run, with whatever
comes after it, it calls this function, if both numbers fit into words. -/
def CallsNamed (p : Program) (g : Globals) (x : String) (site : Site) : Prop :=
  ∃ index f, g.symbols.get? x = some (.function index f) ∧ f.name = x ∧
    p.functions[index]? = some f ∧ site.word = Opcode.fun.encode none ∧
    site.operands = [UInt32.ofNat index, UInt32.ofNat f.params.length] ∧
    (index < UInt32.size → f.params.length < UInt32.size → ∀ dispatch guarded immediates rest,
      Exec.run ⟨p.functions, dispatch⟩ guarded immediates (site.word :: (site.operands ++ rest)) = do
        Exec.invoke ⟨p.functions, dispatch⟩ f
        Exec.run ⟨p.functions, dispatch⟩ guarded immediates rest)

/-- The program has the functions of the host, its code is whole instructions, and the calls among
them are the calls of the text, in the order in which these end, each of what its name stands for. -/
structure CallsAs (p : Program) (g : Globals) (text : String) : Prop where
  functions : p.functions = g.functions
  whole : ∀ st ∈ p.statements, ∃ sites, sites? st.code = some sites
  calls : List.Forall₂ (p.CallsNamed g)
    (calledNames none [] ((Lexer.tokens text).map Prod.fst)) p.callSites

theorem callsNamed_of_makes (hg : g.Ok) (hp : p.functions = g.functions) {call : Nat × Nat}
    (hx : Named g.symbols.get? x call) (hsite : site.Makes call) : p.CallsNamed g x site := by
  obtain ⟨index, count⟩ := call
  obtain ⟨f, hx, rfl⟩ := hx
  obtain ⟨hfunction, hname⟩ := hg.functions x index f hx
  have hindex : p.functions[index]? = some f := hp ▸ hfunction
  refine ⟨index, f, hx, hname, hindex, hsite.word, hsite.operands, ?_⟩
  intro hsize hcount dispatch guarded immediates rest
  rw [hsite.word, hsite.operands]
  rw [Exec.run_plain _ guarded immediates (Exec.decode_call hsize hcount rest) rfl]
  rw [Exec.instruction, Exec.call_eq_invoke hindex]

end Program

/-! ## Compilation -/

/-- What is related one by one through items in between. -/
theorem forall₂_through {α β γ : Type} {R : α → β → Prop} {S : β → γ → Prop} {T : α → γ → Prop}
    (h : ∀ a b c, R a b → S b c → T a c) {as : List α} {bs : List β} {cs : List γ}
    (hab : List.Forall₂ R as bs) (hbc : List.Forall₂ S bs cs) : List.Forall₂ T as cs := by
  induction hab generalizing cs with
  | nil =>
    cases hbc
    exact .nil
  | cons hr _ ih =>
    cases hbc with
    | cons hs hbc => exact .cons (h _ _ _ hr hs) (ih hbc)

/-- The program of a text calls what the text calls. -/
theorem Setting.callsAs_compile {s : Setting} (hs : s.Ok) {text : String} {p : Program}
    (h : (s.compile text).1 = .ok p) : p.CallsAs s.globals text := by
  obtain ⟨body, d, statements, hparse, hflatten, rfl, -⟩ := compile_eq_ok h
  have htyped := parse_script hs text
  rw [hparse] at htyped
  have hmake := Stmt.make_flattenAll body htyped.2 hflatten
  have hnamed := Parse.named_script (Nat.lt_succ_self _) hparse
  have hcalls (x : String) (call : Nat × Nat) (site : Site) (hx : Named s.globals.symbols.get? x call)
      (hsite : site.Makes call) : (d.program s.globals statements).CallsNamed s.globals x site :=
    Program.callsNamed_of_makes (hs text (Lexer.tokens text)).globals rfl hx hsite
  exact {
    functions := rfl
    whole := hmake.whole
    calls := forall₂_through hcalls hnamed hmake.makes
  }

/-! ## Histories -/

namespace Workspace

variable {w w' : Workspace}

/-- With these names of the host the program is what the text compiles to under the script's name. -/
def Made (g : Globals) (name text : String) (p : Program) : Prop :=
  ∃ setting : Setting, setting.Ok ∧ setting.name = name ∧ setting.globals = g ∧
    (setting.compile text).1 = .ok p

/-- A program that is new in the later workspace has been made with the names of the earlier one. -/
def MakesNew (w w' : Workspace) : Prop :=
  ∀ name p, w'.scripts.program? name = some p →
    w.scripts.program? name = some p ∨ ∃ text, Made w.globals name text p

theorem MakesNew.of_fewer
    (h : ∀ name p, w'.scripts.program? name = some p → w.scripts.program? name = some p) :
    w.MakesNew w' := fun name p hp => .inl (h name p hp)

theorem MakesNew.of_programs
    (h : ∀ name, w'.scripts.program? name = w.scripts.program? name) : w.MakesNew w' :=
  .of_fewer fun name _ hp => (h name).symm.trans hp

/-- While the names of the host stay what they are. -/
theorem MakesNew.trans {w'' : Workspace} (h : w.MakesNew w') (hglobals : w'.globals = w.globals)
    (h' : w'.MakesNew w'') : w.MakesNew w'' := by
  intro name p hp
  rcases h' name p hp with hold | hmade
  · exact h name p hold
  · exact .inr (hglobals ▸ hmade)

theorem history_makesNew : History Setting.compile (fun _ _ => True) MakesNew where
  refl _ := .of_programs fun _ => rfl
  trans _ hk _ h h' := h.trans hk.globals h'
  random w := by
    obtain ⟨seed, hseed⟩ := w.random_snd
    rw [hseed]
    exact .of_programs fun _ => rfl
  compile {w name} hw hname := by
    intro other p hp
    refine (hw.compiled_of_program? Setting.sound_compile hname hp).imp_right ?_
    rintro ⟨rfl, text, hok⟩
    exact ⟨text, w.setting other, hw.setting_ok other, rfl, rfl, hok⟩
  store _ _ _ _ _ _ _ := .of_programs fun _ => rfl
  run {w w' name r} memory _ _ _ _ hk h := by
    have hstart : w.MakesNew (w.enter name) := .of_programs (program?_enter w name)
    have hend : w'.MakesNew (w'.leave name { r with memory := memory }) :=
      .of_programs (program?_modifyInstalled (program_putBack _))
    exact hstart.trans rfl (h.trans hk.globals hend)
  source {w name source} _ _ := .of_programs (program?_withSource w name source)
  addFunction _ _ := .of_programs fun _ => rfl
  addConstant _ _ := .of_programs fun _ => rfl
  addShared {w name ty} hw _ := .of_programs (hw.addShared_spec name ty).2.2.2
  setShared {w owner name v} hw _ :=
    .of_programs fun other => (hw.keeps_setShared owner name v fun _ => True).programs other trivial
  remove _ _ := .of_fewer fun _ _ hp => program?_remove hp

/-- Every program has been made with the names of the host in some earlier workspace. -/
theorem made_of_reachable (h : Reachable Setting.compile w) {name : String} {p : Program}
    (hp : w.scripts.program? name = some p) : ∃ w₀ text, Reachable Setting.compile w₀ ∧
      w₀.Leads w ∧ Made w₀.globals name text p := by
  induction h with
  | new => exact nomatch hp
  | @perform w h a ih =>
    obtain ⟨hw, hidle⟩ := sound_of_reachable Setting.sound_compile h
    have hnew := history_makesNew.perform Setting.sound_compile hw hidle (a := a) trivial
    rcases hnew name p hp with hold | ⟨text, hmade⟩
    · obtain ⟨w₀, text, hw₀, hleads, hmade⟩ := ih hold
      exact ⟨w₀, text, hw₀, hleads.perform a, hmade⟩
    · exact ⟨w, text, h, .perform .refl a, hmade⟩

/-! ## Functions -/

/-- Whatever the host registers, compiles and runs: a name that stands for a function stands for the one
with its index, which has this name, and no other name has the index. What is compiled calls the
functions that the names of its text stand for. A program that a script has was compiled in an earlier
workspace, if not in this one, and it is what a run of the script runs; it goes on calling the functions
that the names of its text stood for then. -/
theorem calls_as_compiled (h : Reachable Setting.compile w) :
    (∀ x index f, w.globals.symbols.get? x = some (.function index f) →
      w.globals.functions[index]? = some f ∧ f.name = x ∧
        ∀ y f', w.globals.symbols.get? y = some (.function index f') → y = x) ∧
    (∀ (setting : Setting) text p, setting.Ok → setting.globals = w.globals →
      (setting.compile text).1 = .ok p → p.CallsAs w.globals text) ∧
    ∀ name p, w.scripts.program? name = some p →
      (∀ run r, (w.scripts.get? name).bind Script.runner? = some r → (engage run name r w).1 =
        (p.run ⟨p.functions, dispatchBy run⟩ r.memory (w.enter name)).1) ∧
      ∃ w₀ text, Reachable Setting.compile w₀ ∧ w₀.Leads w ∧ Made w₀.globals name text p ∧
        p.CallsAs w₀.globals text := by
  obtain ⟨hw, -⟩ := sound_of_reachable Setting.sound_compile h
  refine ⟨fun x index f hx => ?_, ?_, fun name p hp => ⟨fun run r hr => ?_, ?_⟩⟩
  · obtain ⟨hfunction, hname⟩ := hw.globals.functions x index f hx
    refine ⟨hfunction, hname, fun y f' hy => ?_⟩
    obtain ⟨hfunction', hname'⟩ := hw.globals.functions y index f' hy
    obtain rfl : f = f' := Option.some.inj (hfunction.symm.trans hfunction')
    exact hname'.symm.trans hname
  · rintro setting text p hok hglobals hcompile
    exact hglobals ▸ Setting.callsAs_compile hok hcompile
  · obtain rfl : r.program = p := Option.some.inj ((hw.runner_of hr).1.symm.trans hp)
    rfl
  · obtain ⟨w₀, text, hw₀, hleads, hmade⟩ := made_of_reachable h hp
    obtain ⟨setting, hok, -, hglobals, hcompile⟩ := id hmade
    exact ⟨w₀, text, hw₀, hleads, hmade, hglobals ▸ Setting.callsAs_compile hok hcompile⟩

/-- A script that calls a function whose name a constant takes, and then another function. -/
def takenOver : Workspace := performed [.setSource "a" "random();", .addConstant "random" (.integer 0),
  .addFunction (.ofResult "random" [.integer] .integer fun _ => .ok (.integer 4)),
  .setSource "b" "random(1);"]

/-- The index of the function that the name stands for. -/
def functionIndex? (g : Globals) (x : String) : Option Nat :=
  match g.symbols.get? x with
  | some (.function index _) => some index
  | _ => none

/-- The first script goes on calling the function that the name stood for, the second one calls the
function that it stands for now. -/
theorem calls_as_compiled_takenOver : ∃ p q f, takenOver.scripts.program? "a" = some p ∧
    p.callSites.map (·.operands) = [[29, 0]] ∧ takenOver.scripts.program? "b" = some q ∧
    q.callSites.map (·.operands) = [[31, 1]] ∧
    takenOver.globals.symbols.get? "random" = some (.function 31 f) ∧
    takenOver.globals.functions[31]? = some f ∧
    (∃ (w₀ : Workspace) (text : String), w₀.Leads takenOver ∧ p.CallsAs w₀.globals text) ∧
    ∃ (w₀ : Workspace) (text : String), w₀.Leads takenOver ∧ q.CallsAs w₀.globals text := by
  have hprograms : (takenOver.scripts.program? "a").map (·.callSites.map (·.operands)) =
      some [[29, 0]] ∧ (takenOver.scripts.program? "b").map (·.callSites.map (·.operands)) =
      some [[31, 1]] := by decide +kernel
  have hindex : functionIndex? takenOver.globals "random" = some 31 := by decide +kernel
  obtain ⟨p, hp, hpsites⟩ := Option.map_eq_some_iff.1 hprograms.1
  obtain ⟨q, hq, hqsites⟩ := Option.map_eq_some_iff.1 hprograms.2
  obtain ⟨f, hf⟩ : ∃ f, takenOver.globals.symbols.get? "random" = some (.function 31 f) := by
    unfold functionIndex? at hindex
    split at hindex <;> cases hindex
    exact ⟨_, ‹_›⟩
  obtain ⟨hindices, -, hcalls⟩ := calls_as_compiled (reachable_performed _ : Reachable _ takenOver)
  obtain ⟨-, w₀, text, -, hleads, -, hcallsAs⟩ := hcalls "a" p hp
  obtain ⟨-, w₁, text', -, hleads', -, hcallsAs'⟩ := hcalls "b" q hq
  exact ⟨p, q, f, hp, hpsites, hq, hqsites, hf, (hindices _ _ f hf).1,
    ⟨w₀, text, hleads, hcallsAs⟩, w₁, text', hleads', hcallsAs'⟩

end Workspace

end VectorScript
