import VectorScript.Proofs.Workspace.Submission

/-!
# What compiling everything leaves

Compiling everything goes over the pending scripts round by round, until a round makes no progress.
Outside the list that it gives every script has a program and no recorded fault; but what is pending is
settled beforehand, so a script that imports from one compiled on the way stays stale
(`Script.Outdated`). Where none does, what was reached is final: once more finds the same scripts
pending, and each fails as recorded.

    name ∉ the list → the script has a program ∧ no fault ∧ (stale ↔ outdated)
    no other script is stale → compiling everything again gives the same list   (recompileAll_leaves)

`Done` is what each compilation keeps of a round, `Stuck` is what a round without progress leaves.
-/

namespace VectorScript

/-- By these events, the latest first, a script that the program imports from has got a new program
since the script itself was compiled last. -/
def Script.Outdated (s : Script) (name : String) : List Event → Prop
  | [] => False
  | e :: before => (e.Elsewhere name ∧ s.importsFrom e.script = true) ∨
      (¬e.Compiles name ∧ s.Outdated name before)

theorem CompiledLast.of_mem {name : String} {events : List Event}
    (hothers : ∀ e ∈ events, ¬e.Elsewhere name) (h : ∃ e ∈ events, e.Compiles name) :
    CompiledLast name events := by
  induction events with
  | nil =>
    obtain ⟨_, he, _⟩ := h
    cases he
  | cons e events ih =>
    obtain ⟨e', he', hcompiles⟩ := h
    obtain ⟨hhead, htail⟩ := List.forall_mem_cons.1 hothers
    rcases List.mem_cons.1 he' with rfl | he'
    · exact .inl hcompiles
    · exact .inr ⟨hhead, ih htail ⟨e', he', hcompiles⟩⟩

namespace Workspace

variable {w : Workspace} {name : String} {names others : List String} {events : List Event}

/-! ## Scripts that need no compiling -/

/-- Outside these names every script has a program and no recorded fault, and is stale just if it is
outdated. -/
def Done (w : Workspace) (names : List String) (events : List Event) : Prop :=
  ∀ name s, w.scripts.get? name = some s → name ∉ names →
    s.installed.isSome = true ∧ s.error = none ∧ (s.stale = true ↔ s.Outdated name events)

theorem Done.mono {names' : List String} (h : w.Done names events)
    (hsub : ∀ name ∈ names, name ∈ names') : w.Done names' events :=
  fun name s hs hname => h name s hs fun hmem => hname (hsub name hmem)

theorem mem_pending : name ∈ w.pending ↔ ∃ s, w.scripts.get? name = some s ∧
    ¬(s.installed.isSome = true ∧ s.error = none ∧ s.stale = false) := by
  have hbool : ∀ s : Script, (s.installed.isNone || s.error.isSome || s.stale) = true ↔
      ¬(s.installed.isSome = true ∧ s.error = none ∧ s.stale = false) := by
    intro s
    cases s.installed <;> cases s.error <;> cases s.stale <;> simp
  unfold pending
  constructor
  · intro h
    obtain ⟨⟨_, s⟩, he, rfl⟩ := List.mem_map.1 h
    obtain ⟨he, hs⟩ := List.mem_filter.1 he
    exact ⟨s, NameMap.mem_entries.1 he, (hbool s).1 hs⟩
  · rintro ⟨s, hs, hpending⟩
    exact List.mem_map.2 ⟨(name, s),
      List.mem_filter.2 ⟨NameMap.mem_entries.2 hs, (hbool s).2 hpending⟩, rfl⟩

theorem pending_sublist (w : Workspace) : w.pending.Sublist w.scripts.names :=
  List.filter_sublist.map _

/-- At first what is not pending is done. -/
theorem done_pending (w : Workspace) : w.Done w.pending [] := by
  intro name s hs hname
  by_contra hnot
  refine hname (mem_pending.2 ⟨s, hs, fun ⟨hprogram, herror, hstale⟩ => hnot ?_⟩)
  exact ⟨hprogram, herror, by simp [hstale, Script.Outdated]⟩

/-- A script that compiles is done; others that import from it are outdated. -/
theorem Done.rescripted (h : w.Done (name :: names) events) {s : Script} (p : Program)
    {w' : Workspace} (hscripts : w'.scripts = w.rescripted name s p) (chain : List String) :
    w'.Done names (⟨.compiled, name, chain⟩ :: events) := by
  intro other u hu hother
  rw [hscripts] at hu
  unfold Workspace.rescripted at hu
  rw [NameMap.get?_map, NameMap.get?_insert] at hu
  obtain ⟨t, ht, rfl⟩ := Option.map_eq_some_iff.1 hu
  by_cases hname : other = name
  · rw [if_pos hname] at ht
    cases ht
    simp only [hname, ne_eq, not_true_eq_false, decide_false, Bool.false_and]
    refine ⟨rfl, rfl, iff_of_false (by simp [reinstalled]) ?_⟩
    exact fun houtdated => houtdated.elim (fun h => h.1.2 rfl) fun h => h.1 ⟨by simp, rfl⟩
  · rw [if_neg hname] at ht
    obtain ⟨hprogram, herror, hstale⟩ := h other t ht (by simp [hname, hother])
    have hskip : ¬(⟨.compiled, name, chain⟩ : Event).Compiles other := fun h => hname h.2.symm
    have helsewhere : (⟨.compiled, name, chain⟩ : Event).Elsewhere other := ⟨rfl, Ne.symm hname⟩
    by_cases himports : t.importsFrom name = true
    · rw [if_pos (by simp [hname, himports])]
      exact ⟨hprogram, herror, iff_of_true rfl (.inl ⟨helsewhere, himports⟩)⟩
    · rw [if_neg (by simp [himports])]
      refine ⟨hprogram, herror, hstale.trans ⟨fun h => .inr ⟨hskip, h⟩, fun h => ?_⟩⟩
      exact h.elim (fun h => absurd h.2 himports) And.right

/-- A script that does not compile is left for another round. -/
theorem Done.refused (h : w.Done (name :: names) events) {s : Script} {w' : Workspace}
    (hscripts : w'.scripts = w.scripts.insert name s) (chain : List String) :
    w'.Done (name :: names) (⟨.refused, name, chain⟩ :: events) := by
  intro other u hu hother
  have hname : other ≠ name := fun h => hother (h ▸ List.mem_cons_self)
  rw [hscripts, NameMap.get?_insert, if_neg hname] at hu
  obtain ⟨hprogram, herror, hstale⟩ := h other u hu hother
  have hskip : ¬(⟨.refused, name, chain⟩ : Event).Compiles other := fun h => hname h.2.symm
  refine ⟨hprogram, herror, hstale.trans ⟨fun h => .inr ⟨hskip, h⟩, fun h => ?_⟩⟩
  exact h.elim (fun h => nomatch h.1.1) And.right

/-! ## Rounds -/

theorem compileEach_sublist (compiler : Compiler) (w : Workspace) (names : List String) :
    (w.compileEach compiler names).1.Sublist names := by
  induction names generalizing w with
  | nil => exact .slnil
  | cons name rest ih =>
    unfold compileEach
    dsimp only
    split
    · exact (ih _).cons name
    · exact (ih _).cons_cons name

theorem subset_compile (hpresent : name :: names ⊆ w.scripts.names) :
    names ⊆ (w.compile name).2.scripts.names := by
  rw [names_compile]
  exact List.Subset.trans (List.subset_cons_self name names) hpresent

/-- What compiling one script of a round comes to. -/
theorem Sound.compile_cases (hw : w.Sound) (hname : name ∉ w.active)
    (hpresent : name ∈ w.scripts.names) : ∃ s, w.scripts.get? name = some s ∧
      ((∃ p, (w.compile name).1 = .ok () ∧ (w.compile name).2.scripts = w.rescripted name s p ∧
        (w.compile name).2.journal = ⟨.compiled, name, w.active⟩ :: w.journal) ∨
      ∃ e, (w.compile name).1 = .error e ∧
        (w.compile name).2.scripts = w.scripts.insert name { s with error := some e } ∧
        (w.compile name).2.journal = ⟨.refused, name, w.active⟩ :: w.journal) := by
  obtain ⟨s, hs⟩ := NameMap.contains_iff.1 (NameMap.mem_names.1 hpresent)
  refine ⟨s, hs, ?_⟩
  cases hr : ((w.setting name).compile s.source).1 with
  | ok p =>
    rw [hw.compile_eq_ok Setting.sound_compile hname hs hr]
    exact .inl ⟨p, rfl, rfl, rfl⟩
  | error e =>
    rw [compile_eq_error hs hr]
    exact .inr ⟨e, rfl, rfl, rfl⟩

/-- A round is done with what has compiled in it. The scripts that fail join those that are left. -/
theorem Sound.done_compileEach (hw : w.Sound) (hidle : w.active = [])
    (hpresent : names ⊆ w.scripts.names)
    (h : w.Done (names ++ others) events) :
    ∃ later, (w.compileEach Setting.compile names).2.journal = later ++ w.journal ∧
      (w.compileEach Setting.compile names).2.Done
        ((w.compileEach Setting.compile names).1 ++ others) (later ++ events) := by
  induction names generalizing w others events with
  | nil => exact ⟨[], rfl, h⟩
  | cons name rest ih =>
    have hname : name ∉ w.active := by simp [hidle]
    have hk := hw.keeps_compile Setting.sound_compile hname
    have hidle' := hk.active.trans hidle
    have hpresent' := subset_compile hpresent
    unfold compileEach
    dsimp only
    obtain ⟨s, -, ⟨p, houtcome, hscripts, hfirst⟩ | ⟨e, houtcome, hscripts, hfirst⟩⟩ :=
      hw.compile_cases hname (hpresent List.mem_cons_self)
    · obtain ⟨later, hjournal, hlater⟩ :=
        ih hk.sound hidle' hpresent' (h.rescripted p hscripts w.active)
      rw [houtcome]
      refine ⟨later ++ [⟨.compiled, name, w.active⟩], ?_, ?_⟩
      · rw [hjournal, hfirst, List.append_assoc]
        rfl
      · rw [List.append_assoc]
        exact hlater
    · -- the script that fails goes from those still to be compiled to those that are left
      have hleft : (w.compile name).2.Done (rest ++ name :: others)
          (⟨.refused, name, w.active⟩ :: events) :=
        (h.refused hscripts w.active).mono fun n hn => by
          simp only [List.append_eq, List.mem_append, List.mem_cons] at hn ⊢
          tauto
      obtain ⟨later, hjournal, hlater⟩ := ih hk.sound hidle' hpresent' hleft
      rw [houtcome]
      refine ⟨later ++ [⟨.refused, name, w.active⟩], ?_, ?_⟩
      · rw [hjournal, hfirst, List.append_assoc]
        rfl
      · rw [List.append_assoc]
        refine hlater.mono fun n hn => ?_
        simp only [List.cons_append, List.mem_append, List.mem_cons] at hn ⊢
        tauto

/-- What fails in a round is there for the next one. -/
theorem Sound.subset_compileEach (hw : w.Sound) (hidle : w.active = [])
    (hpresent : names ⊆ w.scripts.names) : (w.compileEach Setting.compile names).1 ⊆
      (w.compileEach Setting.compile names).2.scripts.names := by
  rw [(course_names _).compileEach Setting.sound_compile hw hidle names]
  exact List.Subset.trans (compileEach_sublist _ w names).subset hpresent

theorem retry_sublist (compiler : Compiler) (w : Workspace) (rounds : Nat) (names : List String) :
    (w.retry compiler rounds names).1.Sublist names := by
  induction rounds generalizing w names with
  | zero => exact .refl _
  | succ rounds ih =>
    have hround := compileEach_sublist compiler w names
    unfold retry
    dsimp only
    split
    · exact hround
    · exact (ih _ _).trans hround

/-- In the end all is done but what is listed. -/
theorem Sound.done_retry (hw : w.Sound) (hidle : w.active = []) (rounds : Nat)
    (hpresent : names ⊆ w.scripts.names) (h : w.Done names events) :
    ∃ later, (w.retry Setting.compile rounds names).2.journal = later ++ w.journal ∧
      (w.retry Setting.compile rounds names).2.Done (w.retry Setting.compile rounds names).1
        (later ++ events) := by
  induction rounds generalizing w names events with
  | zero => exact ⟨[], rfl, h⟩
  | succ rounds ih =>
    have hk := hw.keeps_compileEach hidle Setting.sound_compile names
    rw [← List.append_nil names] at h
    obtain ⟨first, hfirst, hdone⟩ := hw.done_compileEach hidle hpresent h
    rw [List.append_nil] at hdone
    unfold retry
    dsimp only
    split
    · exact ⟨first, hfirst, hdone⟩
    · have hpresent' := hw.subset_compileEach hidle hpresent
      obtain ⟨later, hlater, hdone⟩ := ih hk.sound (hk.active.trans hidle) hpresent' hdone
      refine ⟨later ++ first, ?_, ?_⟩
      · rw [hlater, hfirst, List.append_assoc]
      · rwa [List.append_assoc]

/-! ## A round without progress -/

/-- The fault of the last compilation is recorded. -/
def Refused (w : Workspace) (name : String) : Prop :=
  ∃ s e, w.scripts.get? name = some s ∧ s.error = some e

/-- The events of a round without progress. -/
def refusals (names : List String) : List Event :=
  (names.map fun name => ⟨.refused, name, []⟩).reverse

theorem refusals_cons (name : String) (names : List String) (events : List Event) :
    refusals (name :: names) ++ events = refusals names ++ ⟨.refused, name, []⟩ :: events := by
  simp [refusals]

theorem compiledLast_refusals (h : name ∈ names) : CompiledLast name (refusals names) := by
  refine .of_mem (fun e he => ?_) ⟨⟨.refused, name, []⟩, by simp [refusals, h], fun h => (nomatch h), rfl⟩
  obtain ⟨other, -, rfl⟩ := List.mem_map.1 (List.mem_reverse.1 he)
  exact fun h => nomatch h.1

/-- Where all fail, all are recorded. -/
theorem Sound.refused_compileEach (hw : w.Sound) (hidle : w.active = [])
    (hpresent : names ⊆ w.scripts.names)
    (hall : (w.compileEach Setting.compile names).1 = names) :
    (w.compileEach Setting.compile names).2.journal = refusals names ++ w.journal ∧
      ∀ name, name ∈ names ∨ w.Refused name →
        (w.compileEach Setting.compile names).2.Refused name := by
  induction names generalizing w with
  | nil => exact ⟨rfl, fun name h => h.resolve_left List.not_mem_nil⟩
  | cons name rest ih =>
    have hname : name ∉ w.active := by simp [hidle]
    have hk := hw.keeps_compile Setting.sound_compile hname
    unfold compileEach at hall ⊢
    dsimp only at hall ⊢
    obtain ⟨s, -, ⟨p, houtcome, -, -⟩ | ⟨e, houtcome, hscripts, hfirst⟩⟩ :=
      hw.compile_cases hname (hpresent List.mem_cons_self)
    · -- one that compiles is not in the list
      rw [houtcome] at hall
      dsimp only at hall
      have hshort := (compileEach_sublist Setting.compile (w.compile name).2 rest).length_le
      rw [hall] at hshort
      exact absurd hshort (Nat.not_succ_le_self _)
    · rw [houtcome] at hall ⊢
      dsimp only at hall ⊢
      obtain ⟨hjournal, hrefused⟩ := ih hk.sound (hk.active.trans hidle) (subset_compile hpresent)
        (List.cons.inj hall).2
      constructor
      · rw [hjournal, refusals_cons, hfirst, hidle]
      · intro other hother
        refine hrefused other ?_
        by_cases hsame : other = name
        · exact .inr ⟨_, e, by rw [hscripts, hsame]; exact NameMap.get?_insert_self, rfl⟩
        · rcases hother with hother | ⟨t, e', ht, he'⟩
          · exact .inl ((List.mem_cons.1 hother).resolve_left hsame)
          · exact .inr ⟨t, e', by rw [hscripts, NameMap.get?_insert, if_neg hsame]; exact ht, he'⟩

/-- The scripts have been refused, and would be again with the same fault. -/
def Stuck (w : Workspace) (names : List String) : Prop :=
  ∀ name ∈ names, ∃ s e, w.scripts.get? name = some s ∧ s.error = some e ∧
    (w.setting name).outcome s.source = .error e

theorem Sound.stuck_compileEach (hw : w.Sound) (hidle : w.active = [])
    (hpresent : names ⊆ w.scripts.names)
    (hall : (w.compileEach Setting.compile names).1 = names) :
    (w.compileEach Setting.compile names).2.Stuck names := by
  obtain ⟨hjournal, hrefused⟩ := hw.refused_compileEach hidle hpresent hall
  intro name hname
  obtain ⟨s, e, hs, he⟩ := hrefused name (.inl hname)
  obtain ⟨events, hmeanwhile⟩ : ∃ events, Meanwhile name w _ events :=
    (course_meanwhile name).compileEach Setting.sound_compile hw hidle names
  obtain rfl := hmeanwhile.eq hjournal
  refine ⟨s, e, hs, he, hmeanwhile.compiled (compiledLast_refusals hname) s _ hs ?_⟩
  unfold Script.outcome?
  rw [he]

/-- What is listed in the end is stuck: the last round made no progress. -/
theorem Sound.stuck_retry (hw : w.Sound) (hidle : w.active = []) {rounds : Nat}
    (hpresent : names ⊆ w.scripts.names) (hrounds : names.length < rounds) :
    (w.retry Setting.compile rounds names).2.Stuck (w.retry Setting.compile rounds names).1 := by
  induction rounds generalizing w names with
  | zero => exact absurd hrounds (Nat.not_lt_zero _)
  | succ rounds ih =>
    have hk := hw.keeps_compileEach hidle Setting.sound_compile names
    have hround := compileEach_sublist Setting.compile w names
    unfold retry
    dsimp only
    split
    · next hend =>
      rcases Bool.or_eq_true_iff.1 hend with hempty | hlength
      · rw [List.isEmpty_iff.1 hempty]
        exact fun _ hname => absurd hname List.not_mem_nil
      · have hall := hround.eq_of_length (of_decide_eq_true hlength)
        have hstuck := hw.stuck_compileEach hidle hpresent hall
        rwa [hall]
    · next hgo =>
      have hfewer : (w.compileEach Setting.compile names).1.length < names.length := by
        refine Nat.lt_of_le_of_ne hround.length_le fun hlength => hgo ?_
        rw [decide_eq_true hlength, Bool.or_true]
      exact ih hk.sound (hk.active.trans hidle) (hw.subset_compileEach hidle hpresent) (by omega)

/-- A script that is stuck is refused again with its recorded fault, and all that this leaves is an
event. -/
theorem Sound.compile_stuck (hw : w.Sound) (hidle : w.active = []) (h : w.Stuck names)
    (hname : name ∈ names) :
    (∃ s e, w.scripts.get? name = some s ∧ s.error = some e ∧ (w.compile name).1 = .error e) ∧
      (w.compile name).2.scripts = w.scripts ∧
      (w.compile name).2.journal = ⟨.refused, name, []⟩ :: w.journal ∧
      (w.compile name).2.Stuck names := by
  have hactive : name ∉ w.active := by simp [hidle]
  have hk := hw.keeps_compile Setting.sound_compile hactive
  obtain ⟨s, e, hs, he, hout⟩ := h name hname
  have hr : ((w.setting name).compile s.source).1 = .error e := by
    unfold Setting.outcome at hout
    cases hc : ((w.setting name).compile s.source).1 with
    | ok p =>
      rw [hc] at hout
      cases hout
    | error e' =>
      rw [hc] at hout
      cases hout
      rfl
  have heq := compile_eq_error hs hr
  have hscripts : (w.compile name).2.scripts = w.scripts := by
    have hsame : ({ s with error := some e } : Script) = s := by rw [← he]
    rw [heq]
    show w.scripts.insert name { s with error := some e } = w.scripts
    rw [hsame, NameMap.insert_self hs]
  refine ⟨⟨s, e, hs, he, congrArg (·.1) heq⟩, hscripts, ?_, fun other hother => ?_⟩
  · rw [heq]
    show ⟨.refused, name, w.active⟩ :: w.journal = _
    rw [hidle]
  · obtain ⟨t, e', ht, he', hout'⟩ := h other hother
    refine ⟨t, e', by rw [hscripts]; exact ht, he', ?_⟩
    -- The refusal changes nothing that a setting shows of other scripts.
    have hmatches : (w.setting other).Matches ((w.compile name).2.setting other) :=
      ⟨rfl, hk.globals, fun x _ => congrArg (·.contains x) hscripts,
        fun x _ => congrArg (·.program? x) hscripts, hk.follows⟩
    rw [hmatches.outcome_eq (hw.setting_ok other) (hk.sound.setting_ok other), hout']

/-- Another round makes no progress either. -/
theorem Sound.compileEach_stuck (hw : w.Sound) (hidle : w.active = []) (h : w.Stuck others)
    (hsub : ∀ name ∈ names, name ∈ others) :
    (w.compileEach Setting.compile names).1 = names ∧
      (w.compileEach Setting.compile names).2.scripts = w.scripts ∧
      (w.compileEach Setting.compile names).2.journal = refusals names ++ w.journal ∧
      (w.compileEach Setting.compile names).2.Stuck others := by
  induction names generalizing w with
  | nil => exact ⟨rfl, rfl, rfl, h⟩
  | cons name rest ih =>
    obtain ⟨⟨-, e, -, -, herror⟩, hscripts, hjournal, hstuck⟩ :=
      hw.compile_stuck hidle h (hsub name List.mem_cons_self)
    have hname : name ∉ w.active := by simp [hidle]
    have hk := hw.keeps_compile Setting.sound_compile hname
    obtain ⟨hall, hscripts', hjournal', hstuck'⟩ := ih hk.sound (hk.active.trans hidle) hstuck
      fun n hn => hsub n (List.mem_cons_of_mem _ hn)
    unfold compileEach
    dsimp only
    rw [herror]
    refine ⟨congrArg _ hall, hscripts'.trans hscripts, ?_, hstuck'⟩
    rw [hjournal', hjournal, refusals_cons]

/-- A round without progress is the last. -/
theorem retry_of_stuck {compiler : Compiler} (h : (w.compileEach compiler names).1 = names)
    (rounds : Nat) : w.retry compiler (rounds + 1) names = w.compileEach compiler names := by
  unfold retry
  dsimp only
  rw [if_pos (by rw [h, decide_eq_true rfl, Bool.or_true])]

/-! ## Compiling everything -/

/-- Two lists of names out of one map are the same if they have the same names. -/
theorem eq_of_sublist_names {m : Scripts} {l l' : List String} (h : l.Sublist m.names)
    (h' : l'.Sublist m.names) (hmem : ∀ name, name ∈ l ↔ name ∈ l') : l = l' := by
  have hsorted : m.names.Pairwise (· < ·) := List.pairwise_map.2 m.sorted
  have hperm := (List.perm_ext_iff_of_nodup (h.nodup m.nodup_names) (h'.nodup m.nodup_names)).2 hmem
  exact hperm.eq_of_pairwise (fun a b _ _ hab hba => absurd hba (String.lt_asymm hab))
    (hsorted.sublist h) (hsorted.sublist h')

/-- Scripts with the faults that are recorded of them. -/
def recorded (scripts : Scripts) (names : List String) : List (String × Fault) :=
  names.filterMap fun name => ((scripts.get? name).bind Script.error).map fun e => (name, e)

theorem recompileAll_eq (w : Workspace) (compiler : Compiler) : w.recompileAll compiler =
    (recorded (w.retry compiler (w.pending.length + 1) w.pending).2.scripts
      (w.retry compiler (w.pending.length + 1) w.pending).1,
      (w.retry compiler (w.pending.length + 1) w.pending).2) := rfl

theorem error_of_mem_recorded {scripts : Scripts} {fault : String × Fault}
    (h : fault ∈ recorded scripts names) :
    ∃ s, scripts.get? fault.1 = some s ∧ s.error = some fault.2 := by
  obtain ⟨name, -, hname⟩ := List.mem_filterMap.1 h
  obtain ⟨e, he, rfl⟩ := Option.map_eq_some_iff.1 hname
  exact Option.bind_eq_some_iff.1 he

/-- Of scripts that are stuck there are faults. -/
theorem Stuck.map_fst (h : w.Stuck names) : (recorded w.scripts names).map (·.1) = names := by
  unfold recorded
  induction names with
  | nil => rfl
  | cons name rest ih =>
    obtain ⟨s, e, hs, he, -⟩ := h name List.mem_cons_self
    rw [List.filterMap_cons_some (b := (name, e)) (by rw [hs, Option.bind_some, he]; rfl),
      List.map_cons, ih fun n hn => h n (List.mem_cons_of_mem _ hn)]

/-- If what is pending is stuck, compiling everything lists just that, and changes no script. -/
theorem Sound.recompileAll_stuck (hw : w.Sound) (hidle : w.active = []) (h : w.Stuck w.pending) :
    w.recompileAll.1 = recorded w.scripts w.pending ∧ w.recompileAll.2.scripts = w.scripts ∧
      w.recompileAll.2.journal = refusals w.pending ++ w.journal := by
  obtain ⟨hall, hscripts, hjournal, -⟩ := hw.compileEach_stuck hidle h fun _ h => h
  rw [recompileAll_eq, retry_of_stuck hall]
  dsimp only
  rw [hall, hscripts]
  exact ⟨rfl, rfl, hjournal⟩

/-- Compiling everything lists scripts with their recorded faults. Every other script has a program and
no recorded fault afterwards. It is stale just if it imports from one that got a new program on the way
and was not compiled itself after that. If there is no such script, doing it all again gives the same
list: each script of the list is refused once more, and nothing else happens. -/
theorem recompileAll_leaves (h : Reachable Setting.compile w) :
    (∀ fault ∈ w.recompileAll.1, ∃ s, w.recompileAll.2.scripts.get? fault.1 = some s ∧
      s.error = some fault.2) ∧
    (∃ events, w.recompileAll.2.journal = events ++ w.journal ∧
      ∀ name s, w.recompileAll.2.scripts.get? name = some s → name ∉ w.recompileAll.1.map (·.1) →
        s.installed.isSome = true ∧ s.error = none ∧ (s.stale = true ↔ s.Outdated name events)) ∧
    ((∀ name s, w.recompileAll.2.scripts.get? name = some s → s.stale = true →
        name ∈ w.recompileAll.1.map (·.1)) →
      w.recompileAll.2.recompileAll.1 = w.recompileAll.1 ∧
      w.recompileAll.2.recompileAll.2.scripts = w.recompileAll.2.scripts ∧
      w.recompileAll.2.recompileAll.2.journal =
        refusals (w.recompileAll.1.map (·.1)) ++ w.recompileAll.2.journal) := by
  obtain ⟨hw, hidle⟩ := sound_of_reachable Setting.sound_compile h
  have hk := hw.keeps_recompileAll hidle Setting.sound_compile
  have hpresent := w.pending_sublist.subset
  have hstuck := hw.stuck_retry hidle hpresent (Nat.lt_succ_self _)
  obtain ⟨events, hjournal, hdone⟩ :=
    hw.done_retry hidle (w.pending.length + 1) hpresent w.done_pending
  rw [List.append_nil] at hdone
  have hlisted := retry_sublist Setting.compile w (w.pending.length + 1) w.pending
  have hsame := (course_names Setting.compile).retry Setting.sound_compile hw hidle
    (w.pending.length + 1) w.pending
  rw [recompileAll_eq] at hk ⊢
  generalize w.retry Setting.compile (w.pending.length + 1) w.pending = reached at *
  obtain ⟨listed, w'⟩ := reached
  dsimp only at *
  rw [hstuck.map_fst]
  refine ⟨fun fault => error_of_mem_recorded, ⟨events, hjournal, hdone⟩, fun hcurrent => ?_⟩
  -- what is pending now is what is listed: all else is done, and not stale
  have hpending : w'.pending = listed := by
    refine eq_of_sublist_names (pending_sublist _) ?_ fun name => mem_pending.trans ⟨?_, ?_⟩
    · rw [hsame]
      exact hlisted.trans w.pending_sublist
    · rintro ⟨s, hs, hopen⟩
      by_contra hname
      obtain ⟨hprogram, herror, -⟩ := hdone name s hs hname
      refine hopen ⟨hprogram, herror, Bool.eq_false_iff.2 fun hstale => hname ?_⟩
      exact hcurrent name s hs hstale
    · intro hname
      obtain ⟨s, e, hs, he, -⟩ := hstuck name hname
      exact ⟨s, hs, fun h => nomatch he.symm.trans h.2.1⟩
  subst hpending
  exact hk.sound.recompileAll_stuck (hk.active.trans hidle) hstuck

/-! ## A script that stays behind -/

/-- A script whose name sorts before that of the one it imports from, and one that never compiles. -/
def importsLate : Workspace := performed [.setSource "a" "import x from b;",
  .setSource "b" "shared Natural x;", .setSource "c" "import y from b;"]

/-- Everything compiles that can, and the second time the same script is listed. -/
theorem recompileAll_leaves_failing :
    importsLate.recompileAll.1.map (·.1) = ["c"] ∧
      importsLate.recompileAll.2.recompileAll.1 = importsLate.recompileAll.1 ∧
      importsLate.recompileAll.2.recompileAll.2.journal =
        refusals ["c"] ++ importsLate.recompileAll.2.journal := by
  obtain ⟨hlisted, hstale⟩ : importsLate.recompileAll.1.map (·.1) = ["c"] ∧
      importsLate.recompileAll.2.scripts.entries.all fun e => !e.2.stale := by decide +kernel
  obtain ⟨-, -, hagain⟩ := recompileAll_leaves (w := importsLate) (reachable_performed _)
  obtain ⟨hsame, -, hjournal⟩ := hagain fun name s hs h => by
    have := List.all_eq_true.1 hstale _ (NameMap.mem_entries.2 hs)
    rw [h] at this
    cases this
  rw [hlisted] at hjournal
  exact ⟨hlisted, hsame, hjournal⟩

/-- The middle one of three scripts is pending, since its text asks for what there was not yet. -/
def middleRefused : Workspace := performed [.setSource "c" "shared Natural y;",
  .setSource "b" "import y from c; shared Natural x;", .setSource "a" "import x from b;",
  .setSource "b" "import z from c; shared Real q;", .setSource "c" "shared Natural z;"]

/-- Compiling everything lists no script, but the one that imports from the middle one is stale and
does not compile any more, which the second time shows. -/
theorem recompileAll_leaves_stale : Reachable Setting.compile middleRefused ∧
    middleRefused.recompileAll.1.map (·.1) = [] ∧
    ((middleRefused.recompileAll.2.scripts.get? "a").map (·.stale)) = some true ∧
    middleRefused.recompileAll.2.recompileAll.1.map (fun fault => (fault.1, fault.2.cause)) =
      [("a", .notExported)] :=
  ⟨reachable_performed _, by decide +kernel⟩

end Workspace

end VectorScript
