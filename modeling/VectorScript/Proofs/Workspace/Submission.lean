import VectorScript.Proofs.Workspace.History
import VectorScript.Proofs.Workspace.Recompile

/-!
# Submitting a text again

A text that a script has already is not compiled again: the outcome is the recorded one. It is the one
that compiling would give (`Faithful`) while nothing is registered with the host, no script comes or
goes and no other script gets a new program (`Undisturbed`); then a submission and a compilation agree.
Where the host has taken a name in the meantime they need not.

    w.Undisturbed name → (w.setSource name source).1 = (the text stored and compiled).1
-/

namespace VectorScript

/-- What the last compilation of the text gave, if there has been one. -/
def Script.outcome? (s : Script) : Option (Except Fault Unit) :=
  match s.error with
  | some e => some (.error e)
  | none => if s.installed.isSome then some (.ok ()) else none

/-- The script has been compiled, whether it has become a program or not. -/
def Event.Compiles (e : Event) (name : String) : Prop := e.deed ≠ .started ∧ e.script = name

/-- Another script has got a new program. -/
def Event.Elsewhere (e : Event) (name : String) : Prop := e.deed = .compiled ∧ e.script ≠ name

/-- Of these events, the latest first, one compiles the script and none after it gives another script
a new program. -/
def CompiledLast (name : String) : List Event → Prop
  | [] => False
  | e :: before => e.Compiles name ∨ ¬e.Elsewhere name ∧ CompiledLast name before

/-- Registers nothing with the host, and adds and removes no script. -/
def Action.Quiet (w : Workspace) : Action → Prop
  | addFunction _ | addConstant _ _ | addShared _ _ | remove _ => False
  | setSource name _ => w.scripts.contains name = true
  | compile _ | recompileAll | run _ | dispatch _ | setShared _ _ _ => True

theorem CompiledLast.of_append {name : String} {later events : List Event}
    (h : CompiledLast name (later ++ events)) : CompiledLast name later ∨
      (∀ e ∈ later, ¬e.Elsewhere name) ∧ CompiledLast name events := by
  induction later with
  | nil => exact .inr ⟨fun _ he => (nomatch he), h⟩
  | cons e later ih =>
    rcases h with h | ⟨he, h⟩
    · exact .inl (.inl h)
    · exact (ih h).imp (fun h => .inr ⟨he, h⟩) fun h => ⟨List.forall_mem_cons.2 ⟨he, h.1⟩, h.2⟩

namespace Workspace

variable {w w' : Workspace} {name : String}

/-! ## Recorded outcomes -/

theorem knownOutcome?_eq (s : Script) (source : String) :
    knownOutcome? s source = if s.source = source && !s.stale then s.outcome? else none := rfl

/-- The recorded outcome is the one that compiling gives. -/
def Faithful (w : Workspace) (name : String) : Prop :=
  ∀ s outcome, w.scripts.get? name = some s → s.outcome? = some outcome →
    (w.setting name).outcome s.source = outcome

/-- The record stays right while the setting stays what it is. -/
theorem Faithful.of_matches (h : w.Faithful name) (hm : (w.setting name).Matches (w'.setting name))
    (hok : (w.setting name).Ok) (hok' : (w'.setting name).Ok)
    (hs : ∀ s', w'.scripts.get? name = some s' → ∃ s, w.scripts.get? name = some s ∧
      s'.source = s.source ∧ s'.outcome? = s.outcome?) : w'.Faithful name := by
  intro s' outcome hs' hout
  obtain ⟨s, hget, hsource, houtcome⟩ := hs s' hs'
  rw [hm.outcome_eq hok hok', hsource]
  exact h s outcome hget (houtcome ▸ hout)

/-- A runner may come or go. -/
theorem Faithful.modifyInstalled (h : w.Faithful name) (hok : (w.setting name).Ok) {other : String}
    {f : Installed → Installed} (hf : ∀ i, (f i).program = i.program) :
    (w.modifyInstalled other f).Faithful name := by
  have hget : ∀ x s', (w.modifyInstalled other f).scripts.get? x = some s' →
      ∃ s, w.scripts.get? x = some s ∧ s'.source = s.source ∧ s'.outcome? = s.outcome? := by
    intro x s' hs'
    unfold Workspace.modifyInstalled at hs'
    dsimp only at hs'
    rw [NameMap.get?_modify] at hs'
    split at hs'
    · obtain ⟨s, hs, rfl⟩ := Option.map_eq_some_iff.1 hs'
      refine ⟨s, hs, rfl, ?_⟩
      unfold Script.outcome?
      rw [Option.isSome_map]
    · exact ⟨s', hs', rfl, rfl⟩
  exact h.of_matches ⟨rfl, rfl, fun x _ => NameMap.contains_congr (NameMap.names_map _ _) x,
    fun x _ => program?_modifyInstalled hf x, .refl _⟩ hok (hok.congr (program?_modifyInstalled hf))
    (hget name)

/-- After a compilation the record is right. -/
theorem Sound.faithful_compile (hw : w.Sound) (hname : name ∉ w.active) {s : Script}
    (hs : w.scripts.get? name = some s) : (w.compile name).2.Faithful name := by
  have hk := hw.keeps_compile Setting.sound_compile hname
  have hscript : ∃ s', (w.compile name).2.scripts.get? name = some s' ∧ s'.source = s.source ∧
      s'.outcome? = some ((w.setting name).outcome s.source) := by
    unfold Setting.outcome
    cases hr : ((w.setting name).compile s.source).1 with
    | ok p =>
      rw [hw.compile_eq_ok Setting.sound_compile hname hs hr]
      refine ⟨reinstalled s p, ?_, rfl, rfl⟩
      unfold rescripted
      dsimp only
      rw [NameMap.get?_map, NameMap.get?_insert_self]
      simp
    | error e =>
      rw [compile_eq_error hs hr]
      exact ⟨_, NameMap.get?_insert_self, rfl, rfl⟩
  intro s' outcome hs' hout
  obtain ⟨s'', hs'', hsource, houtcome⟩ := hscript
  cases hs''.symm.trans hs'
  cases houtcome.symm.trans hout
  rw [hsource]
  exact (hw.matches_compile Setting.sound_compile hname).outcome_eq (hw.setting_ok name)
    (hk.sound.setting_ok name) s.source

/-! ## What happens in the meantime -/

/-- These events have happened. The record is right if it has been and no other script has got a new
program, and also if the script itself has been compiled after that. -/
structure Meanwhile (name : String) (w w' : Workspace) (events : List Event) : Prop where
  journal : w'.journal = events ++ w.journal
  faithful : (∀ e ∈ events, ¬e.Elsewhere name) → w.Faithful name → w'.Faithful name
  compiled : CompiledLast name events → w'.Faithful name

namespace Meanwhile

variable {events : List Event}

theorem nothing (hjournal : w'.journal = w.journal) (h : w.Faithful name → w'.Faithful name) :
    Meanwhile name w w' [] := ⟨hjournal, fun _ => h, False.elim⟩

theorem trans {w'' : Workspace} {later : List Event} (h : Meanwhile name w w' events)
    (h' : Meanwhile name w' w'' later) : Meanwhile name w w'' (later ++ events) where
  journal := by rw [h'.journal, h.journal, List.append_assoc]
  faithful hquiet hw := by
    obtain ⟨hlater, hevents⟩ := List.forall_mem_append.1 hquiet
    exact h'.faithful hlater (h.faithful hevents hw)
  compiled hlast := by
    rcases hlast.of_append with hlast | ⟨hlater, hlast⟩
    · exact h'.compiled hlast
    · exact h'.faithful hlater (h.compiled hlast)

/-- The journal tells what the events are. -/
theorem eq (h : Meanwhile name w w' events) {events' : List Event}
    (hjournal : w'.journal = events' ++ w.journal) : events' = events :=
  List.append_cancel_right (hjournal.symm.trans h.journal)

end Meanwhile

/-- Compiling the script makes the record right; compiling another leaves it right, unless that gets a
new program. -/
theorem Sound.meanwhile_compile (hw : w.Sound) {other : String} (hother : other ∉ w.active) :
    ∃ events, Meanwhile name w (w.compile other).2 events := by
  cases hs : w.scripts.get? other with
  | none =>
    rw [compile_eq_none hs]
    exact ⟨[], .nothing rfl id⟩
  | some s =>
    have hk := hw.keeps_compile Setting.sound_compile hother
    have hown : other = name → (w.compile other).2.Faithful name := by
      rintro rfl
      exact hw.faithful_compile hother hs
    cases hr : ((w.setting other).compile s.source).1 with
    | ok p =>
      refine ⟨[⟨.compiled, other, w.active⟩], ?_, fun hquiet _ => hown ?_, fun hlast => hown ?_⟩
      · rw [hw.compile_eq_ok Setting.sound_compile hother hs hr]
        rfl
      · by_contra hne
        exact hquiet _ List.mem_cons_self ⟨rfl, hne⟩
      · exact hlast.elim And.right fun h => h.2.elim
    | error e =>
      refine ⟨[⟨.refused, other, w.active⟩], ?_, fun _ h => ?_, fun hlast => hown ?_⟩
      · rw [compile_eq_error hs hr]
        rfl
      · by_cases hne : other = name
        · exact hown hne
        -- The refusal of another script shows in its record only, and that is none of the setting.
        · have hage : Ages w.scripts (w.scripts.insert other { s with error := some e }) :=
            ages_insert hs rfl rfl
          refine h.of_matches ⟨rfl, hk.globals, fun x _ => contains_compile w other x _,
            fun x _ => ?_, hk.follows⟩ (hw.setting_ok name) (hk.sound.setting_ok name) ?_
          · rw [compile_eq_error hs hr]
            exact hage.program x
          · rw [compile_eq_error hs hr]
            intro s' hs'
            change (w.scripts.insert other _).get? name = some s' at hs'
            rw [NameMap.get?_insert, if_neg (Ne.symm hne)] at hs'
            exact ⟨s', hs', rfl, rfl⟩
      · exact hlast.elim And.right fun h => h.2.elim

theorem course_meanwhile (name : String) :
    Course Setting.compile fun w w' => ∃ events, Meanwhile name w w' events where
  refl w := ⟨[], .nothing rfl id⟩
  trans := by
    rintro _ _ _ _ _ _ ⟨events, h⟩ ⟨later, h'⟩
    exact ⟨_, h.trans h'⟩
  random w := by
    obtain ⟨seed, hseed⟩ := w.random_snd
    rw [hseed]
    exact ⟨[], .nothing rfl id⟩
  compile hw hother := hw.meanwhile_compile hother
  store {w other p memory slot} v path hw _ _ _ _ := by
    have hrefilled := memory.refilled_store hw.sorted slot v path
    refine ⟨[], .nothing rfl fun h => h.of_matches ?_ (hw.setting_ok name)
      ((hw.keeps_refilled hrefilled fun _ => True).sound.setting_ok name)
      fun s hs => ⟨s, hs, rfl, rfl⟩⟩
    exact ⟨rfl, rfl, fun _ _ => rfl, fun _ _ => rfl, hrefilled.follows⟩
  run {w w' other r} memory hw _ _ _ hk := by
    rintro ⟨events, h⟩
    have henter : Meanwhile name w (w.enter other) [⟨.started, other, w.active⟩] := by
      refine ⟨rfl, fun _ h => ?_, fun hlast => ?_⟩
      · exact h.modifyInstalled (f := .withoutRunner) (hw.setting_ok name) fun _ => rfl
      · exact hlast.elim (fun h => absurd rfl h.1) fun h => h.2.elim
    have hleave : Meanwhile name w' (w'.leave other { r with memory := memory }) [] :=
      .nothing rfl fun h => h.modifyInstalled (hk.sound.setting_ok name) (program_putBack _)
    exact ⟨_, (henter.trans h).trans hleave⟩

/-! ## Actions -/

/-- Storing a text of the script itself, or of another one that is there. -/
theorem Sound.meanwhile_setSource (hw : w.Sound) (hidle : w.active = []) {other : String}
    (hother : other = name ∨ w.scripts.contains other = true) (source : String) :
    ∃ events, Meanwhile name w (w.setSource other source).2 events := by
  unfold setSource
  dsimp only
  split
  · exact ⟨[], .nothing rfl id⟩
  · have hset := (hw.keeps_withSource other source fun _ => True).sound
    have hactive : other ∉ (w.withSource other source).active := by
      show other ∉ w.active
      simp [hidle]
    obtain ⟨events, h⟩ : ∃ events, Meanwhile name _ _ events := hset.meanwhile_compile hactive
    by_cases hname : other = name
    · subst hname
      have hright := hset.faithful_compile hactive NameMap.get?_insert_self
      exact ⟨events, h.journal, fun _ _ => hright, fun _ => hright⟩
    · obtain ⟨s, hs⟩ := NameMap.contains_iff.1 (hother.resolve_left hname)
      have hstored : Meanwhile name w (w.withSource other source) [] := by
        refine .nothing rfl fun hright => hright.of_matches ⟨rfl, rfl, fun x _ => ?_,
          fun x _ => program?_withSource w other source x, .refl _⟩ (hw.setting_ok name) (hset.setting_ok name) ?_
        · exact NameMap.contains_congr (NameMap.names_insert hs) x
        · intro s' hs'
          change (w.scripts.insert other _).get? name = some s' at hs'
          rw [NameMap.get?_insert, if_neg (Ne.symm hname)] at hs'
          exact ⟨s', hs', rfl, rfl⟩
      exact ⟨_, hstored.trans h⟩

/-- What happens in an action that registers nothing and adds and removes no script. -/
theorem Sound.meanwhile_perform (hw : w.Sound) (hidle : w.active = []) {a : Action}
    (hquiet : a.Quiet w) : ∃ events, Meanwhile name w (w.perform Setting.compile a) events := by
  have hcourse := course_meanwhile name
  have hnone : ∀ other, other ∉ w.active := by simp [hidle]
  cases a with
  | addFunction _ | addConstant _ _ | addShared _ _ | remove _ => exact hquiet.elim
  | setSource other source => exact hw.meanwhile_setSource hidle (.inr hquiet) source
  | compile other => exact hw.meanwhile_compile (hnone other)
  | recompileAll =>
    show ∃ events, Meanwhile name w (w.recompileAll Setting.compile).2 events
    unfold recompileAll
    exact hcourse.retry Setting.sound_compile hw hidle _ _
  | run other => exact hcourse.runWithin Setting.sound_compile _ hw (hnone other)
  | dispatch other =>
    exact hcourse.dispatchBy (fun _ _ hw h => hcourse.runWithin Setting.sound_compile _ hw h) hw other
  | setShared owner x v =>
    have hk := hw.keeps_setShared owner x v fun _ => True
    have hsame : (w.setShared owner x v).2 = { w with table := (w.setShared owner x v).2.table } := by
      rcases w.setShared_snd owner x v with heq | ⟨_, _, _, -, -, heq⟩ <;> rw [heq]
    show ∃ events, Meanwhile name w (w.setShared owner x v).2 events
    rw [hsame] at hk ⊢
    exact ⟨[], .nothing rfl fun h => h.of_matches ⟨rfl, rfl, fun _ _ => rfl, fun _ _ => rfl,
      hk.follows⟩ (hw.setting_ok name) (hk.sound.setting_ok name) fun s hs => ⟨s, hs, rfl, rfl⟩⟩

/-- Other actions compile nothing, but that a new script may be compiled. -/
theorem journal_perform {a : Action} (hquiet : ¬a.Quiet w) :
    (w.perform Setting.compile a).journal = w.journal ∨
      ∃ other source, a = .setSource other source := by
  cases a with
  | setSource other source => exact .inr ⟨other, source, rfl⟩
  | addFunction _ | addConstant _ _ => exact .inl rfl
  | addShared x ty => exact .inl (journal_addShared w x ty)
  | remove other => exact .inl (journal_remove w other)
  | _ => exact absurd trivial hquiet

theorem journal_setSource (w : Workspace) (other source : String) :
    (w.setSource other source).2.journal = w.journal ∨
      ∃ deed, (w.setSource other source).2.journal = ⟨deed, other, w.active⟩ :: w.journal := by
  unfold setSource
  dsimp only
  split
  · exact .inl rfl
  · exact (journal_compile _ other _).imp_right fun ⟨deed, _, h⟩ => ⟨deed, h⟩

/-- After an action that compiles the script, and no other one successfully after that, the record is
right. -/
theorem Sound.faithful_perform (hw : w.Sound) (hidle : w.active = []) {a : Action}
    {events : List Event} (hjournal : (w.perform Setting.compile a).journal = events ++ w.journal)
    (hlast : CompiledLast name events) : (w.perform Setting.compile a).Faithful name := by
  by_cases hquiet : a.Quiet w
  · obtain ⟨_, h⟩ : ∃ events, Meanwhile name _ _ events := hw.meanwhile_perform hidle hquiet
    obtain rfl := h.eq hjournal
    exact h.compiled hlast
  rcases journal_perform hquiet with hsame | ⟨other, source, rfl⟩
  · obtain rfl : events = [] := List.append_cancel_right (hjournal.symm.trans hsame)
    exact hlast.elim
  · by_cases hname : other = name
    · obtain ⟨_, h⟩ := hw.meanwhile_setSource hidle (.inl hname) source
      obtain rfl := h.eq hjournal
      exact h.compiled hlast
    · rcases journal_setSource w other source with hsame | ⟨deed, hone⟩
      · obtain rfl : events = [] := List.append_cancel_right (hjournal.symm.trans hsame)
        exact hlast.elim
      · obtain rfl : events = [⟨deed, other, w.active⟩] :=
          List.append_cancel_right (hjournal.symm.trans hone)
        exact hlast.elim (fun h => absurd h.2 hname) fun h => h.2.elim

/-! ## Submissions -/

/-- Since the script was compiled last, nothing has been registered with the host, no script has come
or gone, and no other script has got a new program. -/
inductive Undisturbed (name : String) : Workspace → Prop
  | compiled {w : Workspace} {a : Action} {events : List Event} (h : Reachable Setting.compile w)
      (hjournal : (w.perform Setting.compile a).journal = events ++ w.journal)
      (hlast : CompiledLast name events) : Undisturbed name (w.perform Setting.compile a)
  | perform {w : Workspace} {a : Action} {events : List Event} (h : Undisturbed name w)
      (hquiet : a.Quiet w) (hjournal : (w.perform Setting.compile a).journal = events ++ w.journal)
      (hothers : ∀ e ∈ events, ¬e.Elsewhere name) : Undisturbed name (w.perform Setting.compile a)

theorem Undisturbed.reachable (h : Undisturbed name w) : Reachable Setting.compile w := by
  induction h with
  | compiled h => exact h.perform _
  | perform _ _ _ _ ih => exact ih.perform _

/-- The record stays right while nothing disturbs it. -/
theorem Undisturbed.faithful (h : Undisturbed name w) : w.Faithful name := by
  induction h with
  | compiled h hjournal hlast =>
    obtain ⟨hw, hidle⟩ := sound_of_reachable Setting.sound_compile h
    exact hw.faithful_perform hidle hjournal hlast
  | perform h hquiet hjournal hothers ih =>
    obtain ⟨hw, hidle⟩ := sound_of_reachable Setting.sound_compile h.reachable
    obtain ⟨_, h⟩ : ∃ events, Meanwhile name _ _ events := hw.meanwhile_perform hidle hquiet
    obtain rfl := h.eq hjournal
    exact h.faithful hothers ih

/-- Submitting a text gives what storing and compiling it gives, if the text is another one, the
script is stale or has no recorded outcome, or else if nothing has disturbed the script since it was
compiled last. Where the outcome is known nothing is compiled and nothing changes. -/
theorem setSource_agrees (h : Reachable Setting.compile w) (name source : String) :
    (∀ outcome, knownOutcome? ((w.scripts.get? name).getD {}) source = some outcome →
      w.setSource name source = (outcome, w)) ∧
    (knownOutcome? ((w.scripts.get? name).getD {}) source = none ∨ Undisturbed name w →
      (w.setSource name source).1 = ((w.withSource name source).compile name).1) := by
  obtain ⟨hw, hidle⟩ := sound_of_reachable Setting.sound_compile h
  refine ⟨fun outcome hout => setSource_eq_known hout _, fun hcase => ?_⟩
  cases hout : knownOutcome? ((w.scripts.get? name).getD {}) source with
  | none =>
    rw [setSource_eq_compile hout]
  | some outcome =>
    have hfaithful := (hcase.resolve_left (by simp [hout])).faithful
    rw [setSource_eq_known hout]
    rw [knownOutcome?_eq] at hout
    split at hout
    · next hsame =>
      -- the stored text is the one submitted, so storing it changes nothing
      cases hs : w.scripts.get? name with
      | none =>
        rw [hs] at hout
        cases hout
      | some s =>
        rw [hs] at hout hsame
        have hsource : s.source = source := of_decide_eq_true (Bool.and_eq_true_iff.1 hsame).1
        have hstored : w.withSource name source = w := by
          subst hsource
          unfold withSource setScript
          rw [hs, show w.scripts.insert name { (some s).getD {} with source := s.source } = w.scripts
            from NameMap.insert_self hs]
        rw [hstored, hw.compile_fst (by simp [hidle]) hs]
        exact (hfaithful s outcome hs hout).symm
    · cases hout

/-- A script that compiles, and one that does not. -/
def pairSubmitted : Workspace :=
  (new.perform Setting.compile (.setSource "a" "shared Natural x = 1;")).perform Setting.compile
    (.setSource "b" "import y from a;")

/-- The first one has run since. -/
def pairRun : Workspace := pairSubmitted.perform Setting.compile (.run "a")

theorem undisturbed_pairRun : Undisturbed "b" pairRun := by
  have hjournal : pairSubmitted.journal = [⟨.refused, "b", []⟩] ++
      (new.perform Setting.compile (.setSource "a" "shared Natural x = 1;")).journal := by
    decide +kernel
  have hjournal' : pairRun.journal = [⟨.started, "a", []⟩] ++ pairSubmitted.journal := by
    decide +kernel
  have hsubmitted : Undisturbed "b" pairSubmitted :=
    .compiled (.perform .new _) hjournal (.inl ⟨by decide, rfl⟩)
  refine hsubmitted.perform trivial hjournal' fun e he h => ?_
  cases List.mem_singleton.1 he
  exact absurd h.1 (by decide)

/-- The second submission of the text that does not compile gives the recorded fault, as compiling it
would. -/
theorem setSource_agrees_pair :
    (knownOutcome? ((pairRun.scripts.get? "b").getD {}) "import y from a;").isSome = true ∧
    (match (pairRun.setSource "b" "import y from a;").1 with
      | .ok () => none
      | .error e => some e.cause) = some .notExported ∧
    (pairRun.setSource "b" "import y from a;").1 =
      ((pairRun.withSource "b" "import y from a;").compile "b").1 :=
  ⟨by decide +kernel, by decide +kernel, (setSource_agrees undisturbed_pairRun.reachable "b" _).2
    (.inr undisturbed_pairRun)⟩

/-- A script whose variable has a name that the host has taken since. -/
def nameTaken : Workspace :=
  (new.perform Setting.compile (.setSource "a" "Natural n;")).perform Setting.compile
    (.addConstant "n" (.integer 1))

/-- Submitting its text again succeeds, though the text compiles no more. -/
theorem setSource_outdated : Reachable Setting.compile nameTaken ∧
    (nameTaken.setSource "a" "Natural n;").1.toOption = some () ∧
    (match ((nameTaken.withSource "a" "Natural n;").compile "a").1 with
      | .ok () => none
      | .error e => some (e.cause, e.item)) = some (.alreadyDeclared, some "n") :=
  ⟨.perform (.perform .new _) _, by decide +kernel, by decide +kernel⟩

end Workspace

end VectorScript
