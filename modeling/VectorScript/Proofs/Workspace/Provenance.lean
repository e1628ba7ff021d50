import VectorScript.Proofs.Workspace.History
import VectorScript.Proofs.Workspace.Recompile
import VectorScript.Proofs.Workspace.Termination

/-!
# Which text a program comes from

A text that does not compile takes the place of the text before it, but the program stays. So the
program of a script is what some text compiles to under the script's name, and this is the script's own
text unless another one has taken its place that did not compile (`Superseded`). A run that fails at a
place fails at the statement of the program that it has met last, and this statement stands at that
place in the text which the program comes from.

    Reachable Setting.compile w → (w.run name).1 = .error e → e.position = some p →
      p is where the failing statement is read in the text of the program            (runs_fail_at)
-/

namespace VectorScript

/-- The program of the script, if there is one, is what a text compiles to under the name. This is the
text of the script, where it is not gone and surely where no fault is recorded. -/
def Script.Authored (s : Script) (name : String) (gone : String → Program → Prop) : Prop :=
  ∀ p, s.program? = some p → ∃ (setting : Setting) (text : String), setting.Ok ∧
    setting.name = name ∧ (setting.compile text).1 = .ok p ∧ (s.source = text ∨ gone text p) ∧
    (s.error = none → s.source = text)

namespace Script.Authored

variable {s t : Script} {name : String} {gone gone' : String → Program → Prop}

theorem congr (h : s.Authored name gone) (hprogram : t.program? = s.program?)
    (hsource : t.source = s.source) (hclean : t.error = none → s.error = none) :
    t.Authored name gone := by
  intro p hp
  obtain ⟨setting, text, hok, hname, hcompile, htext, hown⟩ := h p (hprogram.symm.trans hp)
  rw [← hsource] at htext hown
  exact ⟨setting, text, hok, hname, hcompile, htext, hown ∘ hclean⟩

theorem mono (h : s.Authored name gone) (hgone : ∀ text p, gone text p → gone' text p) :
    s.Authored name gone' := by
  intro p hp
  obtain ⟨setting, text, hok, hname, hcompile, htext, hown⟩ := h p hp
  exact ⟨setting, text, hok, hname, hcompile, htext.imp_right (hgone text p), hown⟩

/-- Another text takes the place of the script's, and a fault is recorded. -/
theorem replace (h : s.Authored name gone) (hprogram : t.program? = s.program?)
    (herror : t.error ≠ none)
    (hgone : ∀ text p, s.program? = some p → s.source = text ∨ gone text p → gone' text p) :
    t.Authored name gone' := by
  intro p hp
  rw [hprogram] at hp
  obtain ⟨setting, text, hok, hname, hcompile, htext, -⟩ := h p hp
  exact ⟨setting, text, hok, hname, hcompile, .inr (hgone text p hp htext), fun h => absurd h herror⟩

end Script.Authored

namespace Workspace

variable {w w' : Workspace} {name : String} {gone gone' : String → String → Program → Prop}

/-- So it is with every script. -/
def Authored (w : Workspace) (gone : String → String → Program → Prop) : Prop :=
  ∀ name s, w.scripts.get? name = some s → s.Authored name (gone name)

/-! ## Changes of scripts -/

theorem Authored.of_scripts (h : w.Authored gone) (hscripts : w'.scripts = w.scripts) :
    w'.Authored gone := by
  unfold Authored
  rw [hscripts]
  exact h

theorem Authored.mono (h : w.Authored gone)
    (hgone : ∀ name text p, gone name text p → gone' name text p) : w.Authored gone' :=
  fun name s hs => (h name s hs).mono (hgone name)

theorem Authored.markStale (h : w.Authored gone) (condition : String → Script → Bool) :
    (w.markStale condition).Authored gone := by
  intro name t ht
  obtain ⟨s, hs, rfl⟩ := Option.map_eq_some_iff.1 ((NameMap.get?_map ..).symm.trans ht)
  refine (h name s hs).congr ?_ ?_ ?_ <;> split <;> first | rfl | exact id

theorem Authored.modifyInstalled (h : w.Authored gone) (name : String) {f : Installed → Installed}
    (hf : ∀ i, (f i).program = i.program) : (w.modifyInstalled name f).Authored gone := by
  intro other t ht
  replace ht := (NameMap.get?_modify ..).symm.trans ht
  split at ht
  · obtain ⟨s, hs, rfl⟩ := Option.map_eq_some_iff.1 ht
    refine (h other s hs).congr ?_ rfl id
    unfold Script.program?
    rw [Option.map_map]
    exact congrArg (Option.map · s.installed) (funext hf)
  · exact h other t ht

theorem Authored.enter (h : w.Authored gone) (name : String) : (w.enter name).Authored gone := by
  have hnoted : (w.note .started name).Authored gone := h.of_scripts rfl
  exact hnoted.modifyInstalled name fun _ => rfl

theorem Authored.leave (h : w.Authored gone) (name : String) (r : Runner) :
    (w.leave name r).Authored gone :=
  h.modifyInstalled name (program_putBack r)

/-- One script is another, and its program comes from a text as those of the others do. -/
theorem Authored.of_insert {s : Script} (hs : s.Authored name (gone name))
    (hothers : ∀ other t, w.scripts.get? other = some t → other ≠ name →
      t.Authored other (gone other))
    (hscripts : w'.scripts = w.scripts.insert name s) : w'.Authored gone := by
  intro other t ht
  rw [hscripts, NameMap.get?_insert] at ht
  split at ht
  · next heq =>
    cases ht
    rw [heq]
    exact hs
  · next hne => exact hothers other t ht hne

/-- A script is compiled, whose text need not be that of its program if it is refused. -/
theorem Sound.authored_compile (hw : w.Sound) (hname : name ∉ w.active)
    (hothers : ∀ other t, w.scripts.get? other = some t → other ≠ name →
      t.Authored other (gone other))
    (hself : ∀ s e, w.scripts.get? name = some s → (w.compile name).1 = .error e →
      ({ s with error := some e } : Script).Authored name (gone name)) :
    (w.compile name).2.Authored gone := by
  cases hs : w.scripts.get? name with
  | none =>
    rw [compile_eq_none hs]
    refine fun other t ht => hothers other t ht ?_
    rintro rfl
    cases hs.symm.trans ht
  | some s =>
    cases hr : ((w.setting name).compile s.source).1 with
    | ok p =>
      rw [hw.compile_eq_ok Setting.sound_compile hname hs hr]
      have hinstalled : (reinstalled s p).Authored name (gone name) := by
        intro q hq
        cases hq
        exact ⟨w.setting name, s.source, hw.setting_ok name, rfl, hr, .inl rfl, fun _ => rfl⟩
      have hinserted : { w with scripts := w.scripts.insert name (reinstalled s p) }.Authored gone :=
        .of_insert hinstalled hothers rfl
      exact hinserted.markStale fun other t => other ≠ name && t.importsFrom name
    | error e =>
      have heq := compile_eq_error hs hr
      rw [heq]
      exact .of_insert (hself s e hs (congrArg (·.1) heq)) hothers rfl

theorem Authored.compile (h : w.Authored gone) (hw : w.Sound) (hname : name ∉ w.active) :
    (w.compile name).2.Authored gone :=
  hw.authored_compile hname (fun other t ht _ => h other t ht) fun s _ hs _ =>
    (h name s hs).congr rfl rfl fun h => nomatch h

theorem course_authored (gone : String → String → Program → Prop) :
    Course Setting.compile fun w w' => w.Authored gone → w'.Authored gone where
  refl _ := id
  trans _ _ _ h h' := h' ∘ h
  random w h := by
    obtain ⟨seed, hseed⟩ := w.random_snd
    rw [hseed]
    exact h
  compile hw hname h := h.compile hw hname
  store _ _ _ _ _ _ _ h := h
  run _ _ _ _ _ _ hrun h := (hrun (h.enter _)).leave _ _

/-! ## Histories -/

/-- Once the script had the text and the program, and then another text was submitted that did not
compile. -/
def Superseded (w : Workspace) (name text : String) (p : Program) : Prop :=
  ∃ w₀ s source e, Reachable Setting.compile w₀ ∧ w₀.scripts.get? name = some s ∧
    s.source = text ∧ s.program? = some p ∧ (w₀.setSource name source).1 = .error e ∧
    Leads (w₀.setSource name source).2 w

theorem Superseded.perform {text : String} {p : Program} (h : w.Superseded name text p)
    (a : Action) : (w.perform Setting.compile a).Superseded name text p := by
  obtain ⟨w₀, s, source, e, hw₀, hs, htext, hp, he, hleads⟩ := h
  exact ⟨w₀, s, source, e, hw₀, hs, htext, hp, he, hleads.perform a⟩

/-- A text that is submitted takes the place of the one before it, before it is compiled. -/
theorem Authored.setSource (h : Reachable Setting.compile w) (ha : w.Authored w.Superseded)
    (source : String) :
    (w.setSource name source).2.Authored (w.setSource name source).2.Superseded := by
  obtain ⟨hw, hidle⟩ := sound_of_reachable Setting.sound_compile h
  have hname : name ∉ w.active := by simp [hidle]
  have hlater : ∀ other text p, w.Superseded other text p →
      (w.setSource name source).2.Superseded other text p :=
    fun _ _ _ h => h.perform (.setSource name source)
  have hmono := ha.mono hlater
  cases hknown : knownOutcome? ((w.scripts.get? name).getD {}) source with
  | some outcome =>
    rw [setSource_eq_known hknown] at hmono ⊢
    exact hmono
  | none =>
    have heq := setSource_eq_compile hknown Setting.compile
    have hsound := (hw.keeps_withSource name source fun _ => False).sound
    generalize hgone : (w.setSource name source).2.Superseded = gone at hmono hlater ⊢
    rw [heq]
    -- If the new text is refused, the program of the script is from a text before it.
    refine hsound.authored_compile hname (fun other t ht hne => ?_) fun s e hs he => ?_
    · exact hmono other t (((NameMap.get?_insert ..).trans (if_neg hne)).symm.trans ht)
    · have hsource : s = { (w.scripts.get? name).getD {} with source := source } :=
        Option.some.inj (hs.symm.trans ((NameMap.get?_insert ..).trans (if_pos rfl)))
      rw [hsource]
      cases hold : w.scripts.get? name with
      | none => exact fun _ h => nomatch h
      | some old =>
        refine (ha name old hold).replace rfl (fun h => nomatch h) fun text p hp htext => ?_
        rcases htext with rfl | htext
        · rw [← hgone]
          exact ⟨w, old, source, e, h, hold, rfl, hp, heq ▸ he, .refl⟩
        · exact hlater name text p htext

/-- Nothing else that a host does gives a script another text. -/
theorem history_authored (gone : String → String → Program → Prop) :
    History Setting.compile (fun _ a => ∀ name source, a ≠ .setSource name source) fun w w' =>
      w.Authored gone → w'.Authored gone where
  toCourse := course_authored gone
  source _ ha := absurd rfl (ha _ _)
  addFunction _ _ h := h
  addConstant _ _ h := h
  addShared {w name ty} _ _ h := by
    rcases w.scripts_addShared name ty with heq | ⟨condition, heq⟩
    · exact h.of_scripts heq
    · exact (h.markStale condition).of_scripts heq
  setShared {w owner name v} _ _ h := h.of_scripts (w.scripts_setShared owner name v)
  remove {w name} _ _ h := by
    unfold Workspace.remove
    split
    · exact h
    · refine Authored.markStale (w := { w with scripts := w.scripts.erase name, table := _ })
        (fun other t ht => ?_) _
      replace ht := (NameMap.get?_erase ..).symm.trans ht
      split at ht
      · cases ht
      · exact h other t ht

theorem Authored.perform (h : Reachable Setting.compile w) (ha : w.Authored w.Superseded)
    (a : Action) : (w.perform Setting.compile a).Authored (w.perform Setting.compile a).Superseded := by
  obtain ⟨hw, hidle⟩ := sound_of_reachable Setting.sound_compile h
  by_cases hset : ∃ name source, a = .setSource name source
  · obtain ⟨name, source, rfl⟩ := hset
    exact Authored.setSource h ha source
  · have hother : ∀ name source, a ≠ .setSource name source :=
      fun name source heq => hset ⟨name, source, heq⟩
    have hlater := ha.mono fun _ _ _ hsuperseded => hsuperseded.perform a
    exact (history_authored _).perform Setting.sound_compile hw hidle hother hlater

theorem authored_of_reachable (h : Reachable Setting.compile w) : w.Authored w.Superseded := by
  induction h with
  | new => exact fun _ _ hs => nomatch hs
  | perform h a ih => exact ih.perform h a

/-! ## Where a run fails -/

/-- The run of the script, which was made current first, fails at the statement of the program: it is
the last one that the run meets, the fault is its own, and the runner is put back after it. -/
def FailsAt (w : Workspace) (name : String) (e : Fault) (p : Program) (st : Statement) : Prop :=
  ∃ s before memory visited last m, w.scripts.get? name = some s ∧
    w.refresh Setting.compile name s = (.ok (), before) ∧
    (before.scripts.get? name).bind Script.runner? = some ⟨p, memory⟩ ∧
    Exec.Walk ⟨p.functions, dispatchBy (runWithin Setting.compile w.scripts.size)⟩ p.statements 0
      ⟨.empty "evaluation stack" p.maxDepth, memory, before.enter name⟩ (visited ++ [last])
      (.error e m) ∧
    p.statements[last]? = some st ∧ (w.run name).2 = m.workspace.leave name ⟨p, m.memory⟩

/-- A fault with a place is one of the script's own program. -/
theorem failsAt_of_run (h : Reachable Setting.compile w) {e : Fault} {p : Position}
    (he : (w.run name).1 = .error e) (hp : e.position = some p) :
    ∃ program st, (w.run name).2.scripts.program? name = some program ∧
      w.FailsAt name e program st ∧ st ∈ program.statements ∧ st.position = p ∧
      ∀ distance, st.kind ≠ .jump distance := by
  obtain ⟨hw, hidle⟩ := sound_of_reachable Setting.sound_compile h
  have hattempt := attempt_runWithin Setting.compile w.scripts.size name w
  generalize hrun : runWithin Setting.compile (w.scripts.size + 1) name w = result at hattempt
  replace hrun : w.run name = result := hrun
  rw [hrun] at he
  cases hattempt with
  -- these faults have no place
  | unknown | refused | running =>
    cases he
    cases hp
  | @runs s r hs hrefresh hr =>
    have hk := hw.keeps_refresh Setting.sound_compile (show name ∉ w.active by simp [hidle]) s
    obtain ⟨hprogram, -⟩ := hk.sound.runner_of hr
    -- the program is still there when the run has come to its end
    obtain ⟨_, after, hleave, -, hkept, -⟩ := (course_authored w.Superseded).inside
      (fun _ _ hw h => hw.keeps_runWithin Setting.sound_compile w.scripts.size h)
      (fun _ _ hw h => (course_authored w.Superseded).runWithin Setting.sound_compile
        w.scripts.size hw h)
      hk.sound hr
    have hafter : (w.run name).2.scripts.program? name = some r.program := by
      rw [hrun, hleave]
      refine (program?_modifyInstalled (program_putBack _) name).trans ?_
      refine (hkept.programs name (List.mem_append_right _ List.mem_cons_self)).trans ?_
      exact (program?_enter _ name name).trans hprogram
    have hadvancing := each_of_reachable Setting.sound_compile
      (fun _ _ _ h => Setting.advancing_compile h) (h.perform (.run name)) name _ hafter
    obtain ⟨visited, m, hwalk, hleft⟩ := Program.walk_of_run hadvancing he
    obtain ⟨visited, last, st, rfl, hlast, hposition, hjump⟩ := hwalk.fault_last
    refine ⟨r.program, st, hafter, ?_, List.mem_of_getElem? hlast,
      Option.some.inj (hposition.symm.trans hp), hjump⟩
    refine ⟨s, _, r.memory, visited, last, m, hs, Prod.ext hrefresh rfl, hr, hwalk, hlast, ?_⟩
    rw [hrun, engage_eq, hleft]

/-- A run that fails at a place leaves the script with the program that has run, which comes from a
text, and the place is where the text reads as the statement that fails. It is the script's own text,
unless another one has taken its place that did not compile; then a fault is recorded. -/
theorem runs_fail_at (h : Reachable Setting.compile w) {e : Fault} {p : Position}
    (he : (w.run name).1 = .error e) (hp : e.position = some p) :
    ∃ s program st, (w.run name).2.scripts.get? name = some s ∧ s.program? = some program ∧
      w.FailsAt name e program st ∧
      ∃ (setting : Setting) (text : String), setting.name = name ∧
        (setting.compile text).1 = .ok program ∧
        (∃ a, setting.ReadsAt text p a ∧ a.OpensWith st) ∧
        (s.source = text ∨ (w.run name).2.Superseded name text program) ∧
        (s.error = none → s.source = text) := by
  obtain ⟨program, st, hprogram, hfails, hst, rfl, hjump⟩ := failsAt_of_run h he hp
  obtain ⟨s, hs, hsp⟩ := Option.bind_eq_some_iff.1 hprogram
  obtain ⟨setting, text, hok, hname, hcompile, htext, hown⟩ :=
    authored_of_reachable (h.perform (.run name)) name s hs program hsp
  have hreads := (Setting.readsAt_of_compile hok hcompile st hst).resolve_left
    fun ⟨distance, hdistance⟩ => hjump distance hdistance
  exact ⟨s, program, st, hs, hsp, hfails, setting, text, hname, hcompile, hreads, htext, hown⟩

/-! ## A text that has been replaced -/

/-- Where what has gone wrong is reported. -/
def failedAt? : Except Fault Unit → Option Position
  | .error e => e.position
  | .ok () => none

theorem eq_error_of_failedAt? {outcome : Except Fault Unit} {p : Position}
    (h : failedAt? outcome = some p) : ∃ e, outcome = .error e ∧ e.position = some p := by
  cases outcome with
  | error e => exact ⟨e, rfl, h⟩
  | ok u => cases h

/-- A script that divides by zero on its second line. -/
def secondLine : Workspace := performed [.setSource "a" "Natural n;\nn = 1 / n;"]

/-- The division is read there. -/
theorem runs_fail_at_second_line : ∃ e p s, (secondLine.run "a").1 = .error e ∧
    e.position = some p ∧ (p.row, p.col) = (2, 1) ∧
    (secondLine.run "a").2.scripts.get? "a" = some s ∧
    ∃ setting a, Setting.ReadsAt setting s.source p a := by
  obtain ⟨hfails, hclean⟩ : failedAt? (secondLine.run "a").1 = some ⟨2, 1, 11, 1⟩ ∧
      ((secondLine.run "a").2.scripts.get? "a").all (·.error.isNone) = true := by decide +kernel
  obtain ⟨e, he, hp⟩ := eq_error_of_failedAt? hfails
  have hreachable : Reachable Setting.compile secondLine := reachable_performed _
  obtain ⟨s, _, _, hs, -, -, setting, text, -, -, ⟨a, hreads, -⟩, -, htext⟩ :=
    runs_fail_at hreachable he hp
  rw [hs, Option.all_some, Option.isNone_iff_eq_none] at hclean
  refine ⟨e, _, s, he, hp, rfl, hs, setting, a, ?_⟩
  rw [htext hclean]
  exact hreads

/-- A script with a text that compiles, and one that does not and takes its place. -/
def replaced : Workspace := performed [.setSource "a" "1/0;", .setSource "a" "\n1/0; oops"]

/-- The run fails where the text that the script has by then does not have a token. -/
theorem runs_fail_at_replaced : Reachable Setting.compile replaced ∧
    ∃ e p s, (replaced.run "a").1 = .error e ∧ e.position = some p ∧
      (replaced.run "a").2.scripts.get? "a" = some s ∧
      (∀ t, (t, p) ∉ Lexer.tokens s.source) ∧ ∀ setting a, ¬Setting.ReadsAt setting s.source p a := by
  refine ⟨reachable_performed _, ?_⟩
  obtain ⟨hfails, hplaces⟩ : failedAt? (replaced.run "a").1 = some ⟨1, 1, 0, 1⟩ ∧
      ((replaced.run "a").2.scripts.get? "a").any (fun s =>
        (Lexer.tokens s.source).all fun t => t.2 ≠ ⟨1, 1, 0, 1⟩) = true := by decide +kernel
  obtain ⟨e, he, hp⟩ := eq_error_of_failedAt? hfails
  obtain ⟨s, hs, hplaces⟩ := (Option.any_eq_true ..).1 hplaces
  have hnone : ∀ t, (t, ⟨1, 1, 0, 1⟩) ∉ Lexer.tokens s.source := fun t ht =>
    of_decide_eq_true (List.all_eq_true.1 hplaces _ ht) rfl
  refine ⟨e, _, s, he, hp, hs, hnone, ?_⟩
  rintro setting a ⟨d, d', t, rest, hsuffix, htokens, -⟩
  exact hnone t (hsuffix.mem (htokens ▸ List.mem_cons_self))

end Workspace

end VectorScript
