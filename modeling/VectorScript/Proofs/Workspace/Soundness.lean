import VectorScript.Proofs.Workspace.Reachable
import VectorScript.Proofs.Workspace.Settled
import VectorScript.Proofs.Workspace.Typed

/-!
# Well typed scripts do not go wrong

A host that only compiles harmless texts and registers no functions of its own keeps a workspace
typed. Runs in such a workspace succeed or end in a fault that a well typed script may run into, and
every expression evaluates to a value of its static type (`runs_proceed`).

    Driven w → (w.CompilesHarmless fun compiler => w.run name compiler) → Proceeds (w.run name).1
-/

namespace VectorScript

/-! ## Harmless texts -/

namespace Setting

/-- Whatever the text says in the setting is harmless. A text that does not parse is. -/
def Harmless (s : Setting) (source : String) : Prop :=
  ∀ body d, s.parse Parse.script source = .ok body d →
    Stmt.AllHarmless (d.signature (s.surroundings source (Lexer.tokens source))) body

/-- Whether the text parses to plain statements, if it parses. -/
def isPlain (s : Setting) (source : String) : Bool :=
  match s.parse Parse.script source with
  | .ok body d => Stmt.allPlain (d.signature (s.surroundings source (Lexer.tokens source))) body
  | .error _ _ => true

theorem harmless_of_isPlain {s : Setting} {source : String} (h : s.isPlain source = true) :
    s.Harmless source := by
  intro body d hparse
  unfold isPlain at h
  rw [hparse] at h
  exact Stmt.harmless_of_allPlain body h

open Classical in
/-- The usual compiler, but that it refuses texts that are not harmless. -/
noncomputable def compileHarmless (s : Setting) (source : String) :
    Except Fault Program × SharedTable :=
  if s.Harmless source then s.compile source else (.error (.of .internalError), s.table)

/-- It is sound, as the usual one is. -/
theorem sound_compileHarmless : Compiler.Sound compileHarmless := by
  refine ⟨fun s source hs => ?_, fun s source p hs hp => ?_, fun s source p hs hp => ?_⟩
  · unfold compileHarmless
    split
    · exact sound_compile.table s source hs
    · exact .refl (hs source []).sorted s.name
  · unfold compileHarmless at hp ⊢
    split at hp
    · next h =>
      rw [if_pos h]
      exact sound_compile.linked s source p hs hp
    · cases hp
  · unfold compileHarmless at hp
    split at hp
    · exact sound_compile.current s source p hs hp
    · cases hp

/-- A text that parses is well typed, so only typed and harmless programs pass. -/
theorem typed_compileHarmless : Compiler.Typed compileHarmless := by
  refine ⟨sound_compileHarmless, fun s source p hs hf hp => ?_⟩
  unfold compileHarmless at hp ⊢
  split at hp
  · next h =>
    rw [if_pos h]
    obtain ⟨body, d, statements, hparse, hflatten, rfl, htable⟩ := compile_eq_ok hp
    have hbody := parse_script hs source
    rw [hparse] at hbody
    refine ⟨hf, fun a ha => ?_⟩
    rw [htable]
    exact Stmt.typed_flattenAll hbody.2 (h body d hparse) hflatten a ha
  · cases hp

end Setting

/-- The compiler does the usual with harmless texts. -/
def Compiler.Usual (compiler : Compiler) : Prop :=
  ∀ (s : Setting) source, s.Harmless source → compiler s source = s.compile source

theorem Setting.usual_compileHarmless : Compiler.Usual compileHarmless := by
  intro s source h
  unfold compileHarmless
  rw [if_pos h]

/-- No text is compiled that is not harmless: it does not matter what a compiler does with such. -/
def CompilesHarmless {α : Type} (x : Compiler → α) : Prop :=
  ∀ compiler : Compiler, compiler.Usual → x compiler = x Setting.compile

namespace Workspace

/-- A script whose text is harmless compiles no other text. -/
theorem compilesHarmless_compile {w : Workspace} {name : String}
    (h : ∀ s, w.scripts.get? name = some s → (w.setting name).Harmless s.source) :
    CompilesHarmless fun compiler => w.compile name compiler := by
  intro compiler hc
  dsimp only
  unfold compile
  split
  · rfl
  · next s hs => rw [hc _ _ (h s hs)]

theorem compilesHarmless_setSource {w : Workspace} {name source : String}
    (h : ((w.setScript name { (w.scripts.get? name).getD {} with source := source }).setting
      name).Harmless source) :
    CompilesHarmless fun compiler => w.setSource name source compiler := by
  intro compiler hc
  dsimp only
  unfold setSource
  dsimp only
  split
  · rfl
  · refine compilesHarmless_compile (fun s hs => ?_) compiler hc
    cases NameMap.get?_insert_self.symm.trans hs
    exact h

/-- A run in a settled workspace compiles nothing. -/
theorem compilesHarmless_run {w : Workspace} (h : w.Settled) (name : String) :
    CompilesHarmless fun compiler => w.run name compiler :=
  fun compiler _ => h.run_eq name Setting.compile compiler

/-! ## Driven workspaces -/

/-- The workspaces that actions lead to from a new one where the host registers no functions and no
text is compiled that is not harmless. -/
inductive Driven : Workspace → Prop
  | new : Driven new
  | perform {w : Workspace} (h : Driven w) (a : Action) (hf : ∀ f, a ≠ .addFunction f)
      (hc : CompilesHarmless fun compiler => w.perform compiler a) :
      Driven (w.perform Setting.compile a)

variable {w : Workspace} {compiler : Compiler}

/-- An action keeps a workspace typed. -/
theorem Typed.perform (hw : w.Typed) (hactive : w.active = []) (hcomp : compiler.Typed) (a : Action)
    (hf : ∀ f, a ≠ .addFunction f) : (w.perform compiler a).Typed := by
  have hnone : ∀ name, name ∉ w.active := by
    rw [hactive]
    exact fun _ => List.not_mem_nil
  cases a with
  | addFunction f => exact absurd rfl (hf f)
  | addConstant name v => exact hw.addConstant name v
  | addShared name ty => exact hw.addShared name ty
  | setSource name source => exact hw.setSource hcomp (hnone name) source
  | compile name => exact hw.compile hcomp (hnone name)
  | recompileAll => exact hw.recompileAll hactive hcomp
  | run name => exact (hw.proceeds_runWithin hcomp _ (hnone name)).2
  | dispatch script => exact (hw.proceeds_dispatch hcomp script).2
  | setShared owner name v => exact hw.setShared owner name v
  | remove name => exact hw.remove name

/-- A driven workspace is typed, and nothing is running in it. -/
theorem typed_of_driven (h : Driven w) : w.Typed ∧ w.active = [] := by
  induction h with
  | new => exact ⟨typed_new, rfl⟩
  | @perform w _ a hf hc ih =>
    obtain ⟨htyped, hactive⟩ := ih
    have heq := hc _ Setting.usual_compileHarmless
    dsimp only at heq
    rw [← heq]
    exact ⟨htyped.perform hactive Setting.typed_compileHarmless a hf,
      (htyped.toSound.perform hactive Setting.sound_compileHarmless a).2⟩

/-! ## In the middle of a run -/

/-- What the program of a script may call while runs may nest so deep. -/
def calleesOf (p : Program) (depth : Nat) (compiler : Compiler) : Callees :=
  ⟨p.functions, dispatchBy (runWithin compiler depth)⟩

/-- What the memory and the workspace may have become while the program of a script is running. -/
structure Midway (w : Workspace) (name : String) (p : Program) (memory : Memory) (w' : Workspace) :
    Prop where
  fits : memory.Fits p.slots
  onward : (w.enter name).Onward w'

/-- The machine on which a program starts. -/
def started (w : Workspace) (name : String) (i : Installed) : Machine :=
  ⟨.empty "evaluation stack" i.program.maxDepth, i.memory, w.enter name⟩

section

variable {name : String} {s : Script} {i : Installed}

theorem Typed.kept_enter (hw : w.Typed) (hs : w.scripts.get? name = some s)
    (hi : s.installed = some i) :
    (i.program.signature w.table).Kept i.program.slots (w.enter name).Onward :=
  (hw.enter name).kept (mem_active_enter w name)
    ((program?_enter w name name).trans (Scripts.program?_eq hs hi))

theorem Typed.callees_enter (hw : w.Typed) (hcomp : compiler.Typed)
    (hs : w.scripts.get? name = some s) (hi : s.installed = some i) (depth : Nat) :
    (calleesOf i.program depth compiler).Sound (w.enter name).Onward :=
  (hw.enter name).callees (fun _ _ hw' h => hw'.keeps_runWithin hcomp.toSound depth h)
    (fun _ _ hw' h => hw'.proceeds_runWithin hcomp depth h)
    ((program?_enter w name name).trans (Scripts.program?_eq hs hi))

/-- The first statements of a program, however many, leave memory that fits and a typed
workspace. -/
theorem Typed.midway_statements (hw : w.Typed) (hidle : w.active = []) (hcomp : compiler.Typed)
    (hs : w.scripts.get? name = some s) (hi : s.installed = some i) (depth k : Nat) :
    w.Midway name i.program
      ((Exec.statements (calleesOf i.program depth compiler) 0
        (i.program.statements.take k)).after (w.started name i)).memory
      ((Exec.statements (calleesOf i.program depth compiler) 0
        (i.program.statements.take k)).after (w.started name i)).workspace := by
  have hstatements : ∀ a ∈ i.program.statements.take k,
      a.Typed (i.program.signature w.table) ∧ a.depth ≤ i.program.maxDepth := by
    intro a ha
    have hmem := List.mem_of_mem_take ha
    exact ⟨(hw.secure name _ (Scripts.program?_eq hs hi)).statements a hmem,
      i.program.depth_le_maxDepth a hmem⟩
  have hready : (w.started name i).Ready (w.enter name).Onward i.program.slots
      i.program.maxDepth := 
    ⟨.refl (hw.enter name), (hw.manned name s i hs hi).fits (by simp [hidle]), Nat.zero_add _⟩
  have h := Exec.gives_statements rfl (hw.callees_enter hcomp hs hi depth)
    (hw.kept_enter hs hi) hstatements 0 _ hready
  unfold Exec.after
  split
  · next m' hr =>
    simp only [hr] at h
    exact ⟨h.2.fits, h.2.kind⟩
  · next m' hr =>
    simp only [hr] at h
    exact ⟨h.2.2, h.2.1⟩

/-- In the middle of a run a typed expression evaluates to a value of its type. -/
theorem Typed.gives_eval (hw : w.Typed) (hcomp : compiler.Typed)
    (hs : w.scripts.get? name = some s) (hi : s.installed = some i) {e : Expr} {t : Ty}
    (he : e.HasType (i.program.signature w.table) t)
    (hn : e.NullFree (i.program.signature w.table)) (depth : Nat) {memory : Memory}
    {w' : Workspace} (h : w.Midway name i.program memory w') :
    (∀ v w'', e.eval (calleesOf i.program depth compiler) memory w' = .ok v w'' →
      v.HasType t ∧ w.Midway name i.program memory w'') ∧
    ∀ f w'', e.eval (calleesOf i.program depth compiler) memory w' = .error f w'' →
      f.cause.isDynamic = true := by
  have hgives := Expr.gives_eval rfl (hw.callees_enter hcomp hs hi depth)
    ((hw.kept_enter hs hi).holds h.fits) he hn w' h.onward
  constructor
  · intro v w'' hv
    rw [hv] at hgives
    exact ⟨hgives.1, h.fits, hgives.2⟩
  · intro f w'' hf
    rw [hf] at hgives
    exact hgives.1

end

/-! ## Soundness -/

/-- Scripts run as their types promise. In a driven workspace a run that compiles no harmful text
succeeds or ends in a fault that a well typed script may run into: it never runs out of stack, lacks
an operand or meets a value of another type. Every program consists of typed statements, and its
variables hold values of their types. Whatever statement a run has come to, memory still fits and the
workspace is typed; then every expression evaluates to a value of just its static type, or fails as a
well typed script may. -/
theorem runs_proceed (h : Driven w) :
    (∀ name, (CompilesHarmless fun compiler => w.run name compiler) → Proceeds (w.run name).1) ∧
    ∀ name s i, w.scripts.get? name = some s → s.installed = some i →
      (∀ a ∈ i.program.statements, a.Typed (i.program.signature w.table)) ∧
      (∀ n t, (i.program.signature w.table).slot n = some t →
        ∃ v, i.memory.fetch w.table n = .ok v ∧ v.HasType t) ∧
      (∀ depth k, (CompilesHarmless fun compiler => Exec.statements
          (calleesOf i.program depth compiler) 0 (i.program.statements.take k) (w.started name i)) →
        w.Midway name i.program
          ((Exec.statements (calleesOf i.program depth Setting.compile) 0
            (i.program.statements.take k)).after (w.started name i)).memory
          ((Exec.statements (calleesOf i.program depth Setting.compile) 0
            (i.program.statements.take k)).after (w.started name i)).workspace) ∧
      ∀ (e : Expr) t, e.HasType (i.program.signature w.table) t →
        e.NullFree (i.program.signature w.table) →
        ∀ depth memory w', w.Midway name i.program memory w' →
          (CompilesHarmless fun compiler =>
            e.eval (calleesOf i.program depth compiler) memory w') →
          (∀ v w'', e.eval (calleesOf i.program depth Setting.compile) memory w' = .ok v w'' →
            v.HasType t ∧ w.Midway name i.program memory w'') ∧
          ∀ f w'', e.eval (calleesOf i.program depth Setting.compile) memory w' = .error f w'' →
            f.cause.isDynamic = true := by
  obtain ⟨hw, hactive⟩ := typed_of_driven h
  refine ⟨fun name hc => ?_, fun name s i hs hi => ⟨?_, ?_, ?_, ?_⟩⟩
  -- The compiler that lets nothing harmful through keeps a workspace typed; by `hc` it would have
  -- done the same as the usual one. So it is in the last two cases.
  · have heq := hc _ Setting.usual_compileHarmless
    dsimp only at heq
    rw [← heq]
    exact (hw.proceeds_runWithin Setting.typed_compileHarmless _
      (by rw [hactive]; exact List.not_mem_nil)).1
  · exact (hw.secure name _ (Scripts.program?_eq hs hi)).statements
  · have hholds := (hw.kept_enter hs hi).holds
      ((hw.manned name s i hs hi).fits (by simp [hactive]))
    exact hholds (w.enter name) (.refl (hw.enter name))
  · intro depth k hc
    have heq := hc _ Setting.usual_compileHarmless
    have hmid := hw.midway_statements hactive Setting.typed_compileHarmless hs hi depth k
    dsimp only at heq
    unfold Exec.after at hmid ⊢
    rw [heq] at hmid
    exact hmid
  · intro e t he hn depth memory w' hmid hc
    have heq := hc _ Setting.usual_compileHarmless
    dsimp only at heq
    rw [← heq]
    exact hw.gives_eval Setting.typed_compileHarmless hs hi he hn depth hmid

/-- A script that divides by what it has counted down to. -/
def countdownText : String := "Natural n = 1; Real x; n = n - 1; x = 6.0 / n;"

def countdown : Workspace := new.perform Setting.compile (.setSource "a" countdownText)

theorem driven_countdown : Driven countdown := by
  refine .perform .new _ (by simp) fun compiler hc => congrArg Prod.snd ?_
  exact compilesHarmless_setSource (Setting.harmless_of_isPlain (by decide +kernel)) compiler hc

/-- The division fails as it may. -/
theorem runs_proceed_countdown :
    (match (countdown.run "a").1 with
      | .ok () => none
      | .error e => some e.cause) = some .divisionByZero ∧
      Proceeds (countdown.run "a").1 :=
  ⟨by decide +kernel,
    (runs_proceed driven_countdown).1 "a" (compilesHarmless_run (by decide +kernel) "a")⟩

end Workspace

end VectorScript
