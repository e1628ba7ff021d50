import Mathlib.Data.List.Chain
import VectorScript.Proofs.Grammar.Subscripts
import VectorScript.Proofs.Workspace.Dependence
import VectorScript.Proofs.Workspace.Faults
import VectorScript.Proofs.Workspace.Independence
import VectorScript.Proofs.Workspace.Provenance
import VectorScript.Proofs.Workspace.Settled

/-!
# Dependence covers what is dispatched

Where nothing has to be compiled and every script that is dispatched is named by a literal, a run
starts only scripts that the one which was run depends on: each script on the chain of those that are
running names the next one in its program (`Workspace.Led`).

    Reachable Setting.compile w → w.Settled → w.Equipped (· ∈ Library.functions) →
      w.Each Program.Literal → … w.scripts.dependsOn top event.script = true               (runs_covered)
-/

namespace VectorScript

/-! ## Programs -/

/-- Every call of `dispatch` has a literal as its only argument, in code whose lengths fit into words. -/
structure Program.Literal (p : Program) : Prop where
  sized : ∀ s ∈ p.statements, s.code.length < UInt32.size
  literal : none ∉ p.dispatched

instance (p : Program) : Decidable p.Literal :=
  decidable_of_iff ((∀ s ∈ p.statements, s.code.length < UInt32.size) ∧ none ∉ p.dispatched)
    ⟨fun h => ⟨h.1, h.2⟩, fun h => ⟨h.sized, h.literal⟩⟩

/-- The program of the script has functions of the library, and dispatches nothing but the script itself
and its subscripts. -/
structure Program.Tells (p : Program) (name : String) : Prop where
  library : ∀ f ∈ p.functions, f ∈ Library.functions
  literals : Exec.Literals (p.Leads name) p.dispatched

/-- The last of a chain can be reached from the first. -/
theorem transGen_of_isChain {α : Type} {r : α → α → Prop} {a b : α} {rest : List α}
    (h : List.IsChain r (a :: rest ++ [b])) : Relation.TransGen r a b := by
  obtain ⟨c, later, heq⟩ := List.exists_cons_of_ne_nil (show rest ++ [b] ≠ [] by simp)
  rw [List.cons_append, heq] at h
  obtain ⟨hac, hlater⟩ := List.isChain_cons_cons.1 h
  exact .head' hac (List.relationReflTransGen_of_exists_isChain_cons later hlater (by simp [← heq]))

namespace Workspace

variable {w₀ w w' : Workspace} {name : String}

/-! ## Workspaces while scripts run -/

/-- Nothing has to be compiled, and the scripts that do not run have the programs of `w₀`. -/
structure RunsAs (w₀ w : Workspace) : Prop where
  settled : w.Settled
  runner : ∀ name r, (w.scripts.get? name).bind Script.runner? = some r →
    w₀.scripts.program? name = some r.program

theorem RunsAs.self (hw : w.Sound) (hsettled : w.Settled) : RunsAs w w :=
  ⟨hsettled, fun _ _ hr => (hw.runner_of hr).1⟩

theorem RunsAs.congr (h : RunsAs w₀ w) (hscripts : w'.scripts = w.scripts) : RunsAs w₀ w' :=
  ⟨h.settled.congr hscripts, fun name r hr => h.runner name r (hscripts ▸ hr)⟩

theorem RunsAs.modifyInstalled (h : RunsAs w₀ w) {f : Installed → Installed}
    (hf : ∀ i r, (f i).runner = some r → i.runner = some r ∨
      w₀.scripts.program? name = some r.program) : RunsAs w₀ (w.modifyInstalled name f) := by
  refine ⟨h.settled.modifyInstalled name f, fun other r hr => ?_⟩
  obtain ⟨t, ht, hr⟩ := Option.bind_eq_some_iff.1 hr
  obtain ⟨j, hj, hr⟩ := Option.bind_eq_some_iff.1 hr
  obtain ⟨s, i, hs, hi, -, hcase⟩ := get?_modifyInstalled ht hj
  have hold : i.runner = some r → w₀.scripts.program? other = some r.program := fun hir =>
    h.runner other r (Option.bind_eq_some_iff.2 ⟨s, hs, Option.bind_eq_some_iff.2 ⟨i, hi, hir⟩⟩)
  rcases hcase with ⟨rfl, rfl⟩ | ⟨-, rfl⟩
  · exact (hf i r hr).elim hold id
  · exact hold hr

theorem RunsAs.enter (h : RunsAs w₀ w) (name : String) : RunsAs w₀ (w.enter name) :=
  RunsAs.congr (RunsAs.modifyInstalled (w := w.note .started name) (f := .withoutRunner)
    (h.congr rfl) fun _ _ hr => nomatch hr) rfl

theorem RunsAs.leave (h : RunsAs w₀ w) {r : Runner} (hr : w₀.scripts.program? name = some r.program) :
    RunsAs w₀ (w.leave name r) := by
  refine RunsAs.congr (h.modifyInstalled (f := .putBack r) fun i r' hr' => ?_) rfl
  unfold Installed.putBack at hr'
  split at hr'
  · cases hr'
    exact .inr hr
  · exact .inl hr'

/-! ## What is started -/

/-- A script has started. With the scripts on whose behalf it runs it makes a chain, from `name` on
behalf of those of `chain`, on which each names the next one in its program. -/
def Led (w₀ : Workspace) (chain : List String) (name : String) (event : Event) : Prop :=
  event.deed = .started ∧ ∃ later, event.chain ++ [event.script] = chain ++ name :: later ∧
    List.IsChain w₀.scripts.Names (name :: later)

theorem Led.dispatched {chain : List String} {script : String} {event : Event}
    (h : Led w₀ (chain ++ [name]) script event) (hnames : w₀.scripts.Names name script) :
    Led w₀ chain name event := by
  obtain ⟨hstarted, later, heq, hchain⟩ := h
  exact ⟨hstarted, script :: later, by rw [heq]; simp, .cons_cons hnames hchain⟩

/-- The same scripts are running, and meanwhile there have been only such events. -/
structure Since (P : Event → Prop) (w w' : Workspace) : Prop where
  active : w'.active = w.active
  journal : ∃ events, w'.journal = events ++ w.journal ∧ ∀ event ∈ events, P event

variable {P Q : Event → Prop}

theorem Since.refl (P : Event → Prop) (w : Workspace) : Since P w w :=
  ⟨rfl, [], rfl, fun _ h => nomatch h⟩

theorem Since.trans {u : Workspace} (h : Since P w w') (h' : Since P w' u) : Since P w u := by
  obtain ⟨events, heq, hevents⟩ := h.journal
  obtain ⟨later, heq', hlater⟩ := h'.journal
  refine ⟨h'.active.trans h.active, later ++ events, ?_, List.forall_mem_append.2 ⟨hlater, hevents⟩⟩
  rw [heq', heq, List.append_assoc]

theorem Since.mono (h : Since P w w') (hP : ∀ event, P event → Q event) : Since Q w w' := by
  obtain ⟨events, heq, hevents⟩ := h.journal
  exact ⟨h.active, events, heq, fun event he => hP event (hevents event he)⟩

/-! ## Runs -/

/-- What is known of a run of each script. -/
def Covers (w₀ : Workspace) (run : String → Workspace → Except Fault Unit × Workspace) : Prop :=
  ∀ script w, RunsAs w₀ w →
    RunsAs w₀ (run script w).2 ∧ Since (Led w₀ w.active script) w (run script w).2

/-- Dispatches scripts of `T`, and does nothing for others. -/
def dispatchOnly (T : String → Prop) [DecidablePred T]
    (dispatch : String → Workspace → Except Fault Unit × Workspace) (script : String) (w : Workspace) :
    Except Fault Unit × Workspace :=
  if T script then dispatch script w else (.ok (), w)

theorem dispatchOnly_of_mem {T : String → Prop} [DecidablePred T]
    (dispatch : String → Workspace → Except Fault Unit × Workspace) {script : String} (h : T script)
    (w : Workspace) : dispatchOnly T dispatch script w = dispatch script w := if_pos h

section

variable {run : String → Workspace → Except Fault Unit × Workspace}

/-- The innermost script dispatches one of its subscripts; itself it cannot dispatch. -/
theorem Covers.dispatchBy (hrun : Covers w₀ run) {chain : List String} {p : Program}
    (hp : w₀.scripts.program? name = some p) {script : String}
    (hscript : p.Leads name script) (hw : RunsAs w₀ w) (hactive : w.active = chain ++ [name]) :
    RunsAs w₀ (dispatchBy run script w).2 ∧ Since (Led w₀ chain name) w (dispatchBy run script w).2 := by
  unfold Workspace.dispatchBy
  split
  · exact ⟨hw, .refl _ w⟩
  · next hidle =>
    split
    · exact ⟨hw, .refl _ w⟩
    · have hne : script ≠ name := by
        rintro rfl
        exact hidle (List.contains_iff_mem.2 (hactive ▸ List.mem_append_right _ List.mem_cons_self))
      have hnames : w₀.scripts.Names name script := by
        unfold Scripts.Names Scripts.subscripts
        rw [hp]
        exact NameMap.mem_names.2 (hscript.resolve_left hne)
      obtain ⟨hafter, hsince⟩ := hrun script w hw
      rw [hactive] at hsince
      exact ⟨hafter, hsince.mono fun _ h => h.dispatched hnames⟩

/-- Drawing numbers, storing and dispatching these scripts keep to what is known of a run. -/
theorem Covers.steady (hrun : Covers w₀ run) {chain : List String} {p : Program}
    (hp : w₀.scripts.program? name = some p) (functions : List HostFunction) (slots : Nat → Prop)
    (hactive : w.active = chain ++ [name]) :
    Callees.Steady ⟨functions, dispatchOnly (p.Leads name) (Workspace.dispatchBy run)⟩
      ⟨functions, dispatchOnly (p.Leads name) (Workspace.dispatchBy run)⟩ slots
      fun _ u => RunsAs w₀ u ∧ Since (Led w₀ chain name) w u where
  functions := rfl
  dispatch script _ u hu := by
    refine ⟨rfl, ?_⟩
    show RunsAs w₀ (dispatchOnly _ _ script u).2 ∧ Since _ w (dispatchOnly _ _ script u).2
    unfold dispatchOnly
    split
    · next hscript =>
      obtain ⟨hafter, hsince⟩ := hrun.dispatchBy hp hscript hu.1 (hu.2.active.trans hactive)
      exact ⟨hafter, hu.2.trans hsince⟩
    · exact hu
  random _ u hu := by
    obtain ⟨seed, hseed⟩ := u.random_snd
    rw [hseed]
    exact ⟨hu.1.congr rfl, hu.2.active, hu.2.journal⟩
  store _ u _ _ _ _ hu := ⟨hu.1.congr rfl, hu.2.active, hu.2.journal⟩

/-- A runner starts, and its program dispatches nothing but subscripts. So what would become of other
scripts does not matter. -/
theorem Covers.engage (hrun : Covers w₀ run) (hw : RunsAs w₀ w) {r : Runner}
    (hp : w₀.scripts.program? name = some r.program) (htells : r.program.Tells name) :
    RunsAs w₀ (engage run name r w).2 ∧ Since (Led w₀ w.active name) w (engage run name r w).2 := by
  have heq := r.program.run_eq_of_dispatched htells.library htells.literals
    (fun script hscript => funext (dispatchOnly_of_mem (Workspace.dispatchBy run) hscript)) r.memory
    (w.enter name)
  have hsteady := hrun.steady hp r.program.functions r.program.StoresTo (w := w.enter name) rfl
  obtain ⟨-, hafter, hsince⟩ := r.program.alike_run hsteady ⟨hw.enter name, Since.refl _ _⟩
  rw [heq] at hafter hsince
  obtain ⟨events, hjournal, hevents⟩ := hsince.journal
  unfold Workspace.engage
  refine ⟨hafter.leave hp, ?_, events ++ [⟨.started, name, w.active⟩], ?_, fun event he => ?_⟩
  · exact (congrArg List.dropLast hsince.active).trans List.dropLast_concat
  · exact hjournal.trans (List.append_assoc events [_] w.journal).symm
  · rcases List.mem_append.1 he with he | he
    · exact hevents event he
    · rw [List.mem_singleton.1 he]
      exact ⟨rfl, [], rfl, .singleton name⟩

end

/-- Whatever is run, in a run only scripts start to which the programs lead. The induction is on how
deep runs may still nest. -/
theorem covers_runWithin (hw₀ : ∀ name p, w₀.scripts.program? name = some p → p.Tells name)
    (depth : Nat) : Covers w₀ (runWithin Setting.compile depth) := by
  induction depth with
  | zero => exact fun _ w hw => ⟨hw, .refl _ w⟩
  | succ depth ih =>
    intro name w hw
    unfold runWithin
    split
    · exact ⟨hw, .refl _ w⟩
    · next s hs =>
      rw [hw.settled.refresh_eq hs]
      dsimp only
      split
      · exact ⟨hw, .refl _ w⟩
      · next r hr =>
        have hp := hw.runner name r hr
        exact ih.engage hw hp (hw₀ name r.program hp)

/-! ## Reachable workspaces -/

/-- Where programs dispatch by literals they dispatch their subscripts. -/
theorem tells_of_reachable (h : Reachable Setting.compile w)
    (hlibrary : w.Equipped (· ∈ Library.functions)) {p : Program}
    (hp : w.scripts.program? name = some p) (hliteral : p.Literal) : p.Tells name := by
  obtain ⟨s, hs, hsp⟩ := Option.bind_eq_some_iff.1 hp
  obtain ⟨setting, text, hok, rfl, hcompile, -⟩ := authored_of_reachable h name s hs p hsp
  have hfunctions := hlibrary.programs setting.name p hp
  refine ⟨hfunctions, fun x hx => ?_⟩
  cases x with
  | none => exact absurd hx hliteral.literal
  | some script =>
    exact ⟨script, rfl, Setting.noted_compile hok hcompile hfunctions hliteral.sized hx⟩

/-- In a workspace in which every script has a current program, with functions of the library only and
with a lone literal in every call of `dispatch`, a run of a script compiles nothing and starts only this
script and scripts that it depends on: each script on the chain of those that run names the next one in
its program. -/
theorem runs_covered (h : Reachable Setting.compile w) (hsettled : w.Settled)
    (hlibrary : w.Equipped (· ∈ Library.functions)) (hliteral : w.Each Program.Literal) (top : String) :
    ∃ events, (w.run top).2.journal = events ++ w.journal ∧ ∀ event ∈ events,
      event.deed = .started ∧
      (∃ later, event.chain ++ [event.script] = top :: later ∧
        List.IsChain w.scripts.Names (top :: later)) ∧
      (event.chain = [] ∧ event.script = top ∨ w.scripts.dependsOn top event.script = true) := by
  obtain ⟨hw, hidle⟩ := sound_of_reachable Setting.sound_compile h
  have htells : ∀ name p, w.scripts.program? name = some p → p.Tells name :=
    fun name p hp => tells_of_reachable h hlibrary hp (hliteral name p hp)
  obtain ⟨-, hsince⟩ := covers_runWithin htells (w.scripts.size + 1) top w (.self hw hsettled)
  obtain ⟨events, hjournal, hevents⟩ := hsince.journal
  refine ⟨events, hjournal, fun event he => ?_⟩
  obtain ⟨hstarted, later, heq, hchain⟩ := hevents event he
  rw [hidle, List.nil_append] at heq
  refine ⟨hstarted, ⟨later, heq, hchain⟩, ?_⟩
  cases hrunning : event.chain with
  | nil =>
    rw [hrunning, List.nil_append] at heq
    exact .inl ⟨rfl, (List.cons.inj heq).1⟩
  | cons first rest =>
    rw [hrunning, List.cons_append] at heq
    obtain ⟨rfl, rfl⟩ := List.cons.inj heq
    exact .inr (Scripts.dependsOn_iff.2 (transGen_of_isChain hchain))

/-- A script dispatches another, which dispatches a third one by a constant. This dispatches the first
one, and fails. -/
def chained : Workspace := performed [.setSource "a" "dispatch(\"b\");",
  .setSource "b" "const Text next = \"c\"; if (1 == 1) dispatch(next);",
  .setSource "c" "dispatch(\"a\");"]

/-- The third script starts, and the first one depends on it. -/
theorem runs_covered_chained :
    (chained.run "a").2.journal.head? = some ⟨.started, "c", ["a", "b"]⟩ ∧
      chained.scripts.dependsOn "a" "c" = true := by
  have hreachable : Reachable Setting.compile chained := reachable_performed _
  have hlibrary : chained.Equipped (· ∈ Library.functions) := equipped_performed (by simp)
  obtain ⟨hsettled, hliteral, hhead⟩ : chained.Settled ∧ chained.Each Program.Literal ∧
      (chained.run "a").2.journal.head? = some ⟨.started, "c", ["a", "b"]⟩ := by decide +kernel
  have hbefore : (⟨.started, "c", ["a", "b"]⟩ : Event) ∉ chained.journal := by decide +kernel
  obtain ⟨events, hjournal, hevents⟩ := runs_covered hreachable hsettled hlibrary hliteral "a"
  have hevent := List.mem_of_head? hhead
  rw [hjournal] at hevent
  obtain ⟨-, -, h | h⟩ := hevents _ ((List.mem_append.1 hevent).resolve_right hbefore)
  · exact nomatch h.1
  · exact ⟨hhead, h⟩

end Workspace

end VectorScript
