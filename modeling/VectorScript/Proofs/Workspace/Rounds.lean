import VectorScript.Proofs.Workspace.Pending

/-!
# The rounds of compiling everything

Compiling everything goes round by round until nothing fails or nothing has compiled. `Rounds` is this
loop as it stands, with no bound on its rounds. It ends, since every round but the last leaves fewer
scripts for the next, and gives up only on scripts that are stuck: the last round has changed nothing
that compiling any of them looks at, so each fails as reported, after any of the others too.
-/

namespace VectorScript.Workspace

variable {w : Workspace} {compiler : Compiler} {names : List String}

/-! ## The loop -/

/-- Nothing has failed in a round, or nothing has compiled. -/
def Final (names failed : List String) : Prop := failed = [] ∨ failed.length = names.length

theorem final_iff {failed : List String} :
    (failed.isEmpty || decide (failed.length = names.length)) = true ↔ Final names failed := by
  simp [Final]

/-- Compiling these scripts takes a number of rounds and leaves those that still fail. -/
inductive Rounds (compiler : Compiler) :
    Workspace → List String → Nat → List String × Workspace → Prop
  | last {w : Workspace} {names : List String}
      (hfinal : Final names (w.compileEach compiler names).1) :
      Rounds compiler w names 1 (w.compileEach compiler names)
  | again {w : Workspace} {names : List String} {n : Nat} {result : List String × Workspace}
      (hgo : ¬Final names (w.compileEach compiler names).1)
      (hrest : Rounds compiler (w.compileEach compiler names).2 (w.compileEach compiler names).1 n
        result) : Rounds compiler w names (n + 1) result

/-- A round after which there is another leaves fewer scripts. -/
theorem fewer_of_not_final (h : ¬Final names (w.compileEach compiler names).1) :
    (w.compileEach compiler names).1.length < names.length :=
  Nat.lt_of_le_of_ne (compileEach_sublist compiler w names).length_le fun hlength => h (.inr hlength)

/-- There is at most one round for each script and one more, so `retry` never comes to its bound. -/
theorem rounds_retry (compiler : Compiler) (w : Workspace) {rounds : Nat}
    (hrounds : names.length < rounds) :
    ∃ n ≤ names.length + 1, Rounds compiler w names n (w.retry compiler rounds names) := by
  induction rounds generalizing w names with
  | zero => exact absurd hrounds (Nat.not_lt_zero _)
  | succ rounds ih =>
    unfold retry
    dsimp only
    split
    · next hend => exact ⟨1, Nat.le_add_left 1 _, .last (final_iff.1 hend)⟩
    · next hend =>
      have hgo : ¬Final names (w.compileEach compiler names).1 := fun h => hend (final_iff.2 h)
      have hfewer := fewer_of_not_final hgo
      obtain ⟨n, hn, hrest⟩ :=
        ih (w.compileEach compiler names).2 (Nat.lt_of_lt_of_le hfewer (by omega))
      exact ⟨n + 1, by omega, .again hgo hrest⟩

/-- The loop has one course. -/
theorem Rounds.unique {n m : Nat} {r r' : List String × Workspace}
    (h : Rounds compiler w names n r) (h' : Rounds compiler w names m r') : m = n ∧ r' = r := by
  induction h generalizing m with
  | last hfinal =>
    cases h' with
    | last => exact ⟨rfl, rfl⟩
    | again hgo => exact absurd hfinal hgo
  | again hgo _ ih =>
    cases h' with
    | last hfinal => exact absurd hfinal hgo
    | again _ hrest =>
      obtain ⟨rfl, rfl⟩ := ih hrest
      exact ⟨rfl, rfl⟩

/-! ## What the loop gives up on -/

/-- Compiling everything ends, at the latest one round after as many as there were scripts pending, and
lists what the last round has left. Every script of the list really fails: in the state that is
reached, and whichever scripts of the list are compiled once more before, compiling it gives the whole
reported fault. So none of them compiles in any other order. -/
theorem recompileAll_gives_up (h : Reachable Setting.compile w) :
    (∃ n ≤ w.pending.length + 1,
      Rounds Setting.compile w w.pending n (w.recompileAll.1.map (·.1), w.recompileAll.2) ∧
      ∀ m r, Rounds Setting.compile w w.pending m r →
        m = n ∧ r = (w.recompileAll.1.map (·.1), w.recompileAll.2)) ∧
    ∀ before ⊆ w.recompileAll.1.map (·.1),
      (w.recompileAll.2.compileEach Setting.compile before).1 = before ∧
      ∀ fault ∈ w.recompileAll.1,
        ((w.recompileAll.2.compileEach Setting.compile before).2.compile fault.1).1 =
          .error fault.2 := by
  obtain ⟨hw, hidle⟩ := sound_of_reachable Setting.sound_compile h
  have hk := hw.keeps_recompileAll hidle Setting.sound_compile
  have hstuck := hw.stuck_retry hidle w.pending_sublist.subset (Nat.lt_succ_self _)
  obtain ⟨n, hn, hrounds⟩ :=
    rounds_retry Setting.compile w (Nat.lt_succ_self w.pending.length)
  rw [recompileAll_eq] at hk ⊢
  generalize w.retry Setting.compile (w.pending.length + 1) w.pending = reached at *
  obtain ⟨listed, w'⟩ := reached
  dsimp only at *
  rw [hstuck.map_fst]
  refine ⟨⟨n, hn, hrounds, fun m r hr => hrounds.unique hr⟩, fun before hbefore => ?_⟩
  have hidle' := hk.active.trans hidle
  -- Compiling stuck scripts again leaves them stuck, with the faults that have been recorded.
  obtain ⟨hall, hscripts, -, hstill⟩ := hk.sound.compileEach_stuck hidle' hstuck fun _ h => hbefore h
  refine ⟨hall, fun fault hfault => ?_⟩
  obtain ⟨s, hs, herror⟩ := error_of_mem_recorded hfault
  have hlisted : fault.1 ∈ listed := by
    rw [← hstuck.map_fst]
    exact List.mem_map_of_mem hfault
  have hk' := hk.sound.keeps_compileEach hidle' Setting.sound_compile before
  obtain ⟨⟨s', e, hs', he, hfails⟩, -⟩ :=
    hk'.sound.compile_stuck (hk'.active.trans hidle') hstill hlisted
  rw [hscripts] at hs'
  cases hs.symm.trans hs'
  cases herror.symm.trans he
  exact hfails

/-- A chain of three scripts that import from each other and sort the wrong way, and one that asks for
what there is not. -/
def againstOrder : Workspace := performed [.setSource "a" "import x from b;",
  .setSource "b" "import y from c; shared Natural x;", .setSource "c" "shared Natural y;",
  .setSource "d" "\nimport z from c;"]

/-- One more script compiles in each round but the last, the third. The script that is left fails as it
did, after it has been compiled once more too. -/
theorem recompileAll_gives_up_third_round : againstOrder.pending = ["a", "b", "d"] ∧
    againstOrder.recompileAll.1.map (·.1) = ["d"] ∧
    (∃ n ≤ 4, Rounds Setting.compile againstOrder ["a", "b", "d"] n
      (["d"], againstOrder.recompileAll.2)) ∧
    ∀ fault ∈ againstOrder.recompileAll.1,
      ((againstOrder.recompileAll.2.compileEach Setting.compile ["d"]).2.compile fault.1).1 =
        .error fault.2 := by
  obtain ⟨hpending, hlisted⟩ : againstOrder.pending = ["a", "b", "d"] ∧
      againstOrder.recompileAll.1.map (·.1) = ["d"] := by decide +kernel
  obtain ⟨⟨n, hn, hrounds, -⟩, hfails⟩ :=
    recompileAll_gives_up (w := againstOrder) (reachable_performed _)
  rw [hlisted] at hrounds hfails
  rw [hpending] at hn hrounds
  exact ⟨hpending, hlisted, ⟨n, hn, hrounds⟩, (hfails ["d"] fun _ h => h).2⟩

end VectorScript.Workspace
