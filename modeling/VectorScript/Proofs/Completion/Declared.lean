import VectorScript.Proofs.Completion.Statement
import VectorScript.Proofs.Compilation.Program
import VectorScript.Proofs.Workspace.Printed

/-!
# Names that a part of a text declares

A script is read statement by statement, and what is read of a part of it declares names of the whole
only (`contains_of_declared`). The drafts between the statements of the whole are, up to the cut, those
between the statements of the part, so nothing is missing that a statement before the cut has
declared (`declared_of_within`).
-/

namespace VectorScript

namespace Cut

open Parse

variable {c : Cut}

theorem tracks_scriptStep (parts : List (List Stmt)) : c.Tracks False 0 0 (scriptStep parts) := by
  refine tracks_peek?.bind fun o => ?_
  split
  · exact tracks_pure _
  · exact ((tracks_statement maxNesting).mono (Nat.zero_le 1) (Nat.zero_le 1)).bind
      fun _ => tracks_pure _

/-- The rounds of a script that are left. -/
theorem tracks_rounds (rounds : Nat) (parts : List (List Stmt)) :
    c.Tracks False 0 0 (iterate scriptStep rounds parts >>= fun parts => return parts.flatten) :=
  (tracks_iterate tracks_scriptStep rounds parts).bind fun _ => tracks_pure _

theorem tracks_script : c.Tracks False 0 0 script :=
  (tracks_loop tracks_scriptStep []).bind fun _ => tracks_pure _

end Cut

namespace Setting

open Parse Lexer

variable {s : Setting} {source part : String} {d e : Draft} {body : List Stmt} {x : String}

/-! ## Reading a text -/

theorem mem_declaredNames :
    x ∈ s.declaredNames source ↔ (final (s.parse script source)).symbols.contains x = true := by
  unfold declaredNames final
  cases s.parse script source <;> exact NameMap.mem_names

/-- A script takes no more rounds than it may. -/
theorem parse_ne_stuck (hs : s.Ok) : s.parse script source ≠ .error (.internal "no progress") d := by
  intro hrun
  have hcompile : (s.compile source).1 = .error (.internal "no progress") := by
    unfold compile
    rw [hrun]
  obtain ⟨-, -, p, -, hp, -⟩ := compile_error hs hcompile
  cases hp

theorem tokens_of_statement {t : Surroundings} (hrun : statement maxNesting t d = .ok body e) :
    ∃ read, d.tokens = read ++ e.tokens ∧ read ≠ [] := by
  obtain ⟨read, htokens, hread⟩ := (Cut.tracks_statement (c := .atEnd t) maxNesting).onward hrun
  exact ⟨read, htokens, List.length_pos_iff.1 hread⟩

theorem scriptStep_run {t : Surroundings} (parts : List (List Stmt))
    (hrun : statement maxNesting t d = .ok body e) :
    scriptStep parts t d = .ok (.inl (body :: parts)) e := by
  obtain ⟨read, htokens, hread⟩ := tokens_of_statement hrun
  obtain ⟨u, k, hd⟩ : ∃ u k, d.tokens = u :: k := by
    cases read with
    | nil => exact absurd rfl hread
    | cons u read => exact ⟨u, read ++ e.tokens, htokens⟩
  unfold scriptStep
  rw [bind_of_ok (peek?_run t d), Draft.ahead, hd]
  exact bind_of_ok hrun _

/-! ## Between statements -/

/-- The drafts between the statements of a text. -/
inductive Between (s : Setting) (source : String) : Draft → Prop
  | start : Between s source (.start (tokens source) s.table)
  | next {d e : Draft} {body : List Stmt} (h : Between s source d)
      (hrun : statement maxNesting (s.surroundings source (tokens source)) d = .ok body e) :
      Between s source e

/-- A statement of the text declares the name, and all its tokens lie within so many bytes. -/
def DeclaresWithin (s : Setting) (source : String) (bytes : Nat) (x : String) : Prop :=
  ∃ d body e read, s.Between source d ∧
    statement maxNesting (s.surroundings source (tokens source)) d = .ok body e ∧
    d.tokens = read ++ e.tokens ∧ (∀ t ∈ read, t.2.offset + t.2.len ≤ bytes) ∧
    d.symbols.contains x = false ∧ e.symbols.contains x = true

theorem Between.suffix (h : s.Between source d) : d.tokens <:+ tokens source := by
  induction h with
  | start => exact List.suffix_refl _
  | next h hrun ih =>
    obtain ⟨read, htokens, -⟩ := tokens_of_statement hrun
    exact .trans ⟨read, htokens.symm⟩ ih

/-- What is left of reading a text between two statements. -/
theorem Between.parse_eq (hs : s.Ok) (h : s.Between source d) : ∃ rounds parts,
    s.parse script source = (iterate scriptStep rounds parts >>= fun parts => return parts.flatten)
      (s.surroundings source (tokens source)) d := by
  induction h with
  | start => exact ⟨_, [], rfl⟩
  | @next d e body h hrun ih =>
    obtain ⟨rounds, parts, hparse⟩ := ih
    cases rounds with
    | zero => exact absurd hparse (parse_ne_stuck hs)
    | succ rounds =>
      refine ⟨rounds, body :: parts, hparse.trans ?_⟩
      rw [bind_run, Cut.iterate_succ, bind_of_ok (scriptStep_run parts hrun), bind_run]
      rfl

/-- What has been declared between two statements is declared in the end. -/
theorem Between.mem_declaredNames (hs : s.Ok) (h : s.Between source d)
    (hx : d.symbols.contains x = true) : x ∈ s.declaredNames source := by
  obtain ⟨rounds, parts, hparse⟩ := h.parse_eq hs
  rw [Setting.mem_declaredNames, hparse]
  have hrounds := Cut.tracks_rounds (c := .atEnd (s.surroundings source (tokens source))) rounds parts
  exact (hrounds.gains _ d).names x hx

theorem statement_nil {t : Surroundings} (hd : d.tokens = []) : statement maxNesting t d =
    .error ((Fault.about .expected "statement").located t.endPosition) d := by
  cases d
  cases hd
  rfl

theorem Between.statement_ne_stuck (hs : s.Ok) (h : s.Between source d) :
    statement maxNesting (s.surroundings source (tokens source)) d ≠
      .error (.internal "no progress") e := by
  intro hrun
  cases hd : d.tokens with
  | nil =>
    rw [statement_nil hd] at hrun
    cases hrun
  | cons u k =>
    obtain ⟨rounds, parts, hparse⟩ := h.parse_eq hs
    cases rounds with
    | zero => exact parse_ne_stuck hs hparse
    | succ rounds =>
      have hstep : scriptStep parts (s.surroundings source (tokens source)) d =
          .error (.internal "no progress") e := by
        unfold scriptStep
        rw [bind_of_ok (peek?_run _ d), Draft.ahead, hd]
        show ((statement maxNesting >>= fun body => _ : Parse _) _ d) = _
        rw [bind_run, hrun]
        rfl
      apply parse_ne_stuck hs (hparse.trans _)
      · exact e
      · rw [bind_run, Cut.iterate_succ, bind_run, hstep]
        rfl

/-! ## A part of a text -/

section

variable {common rest stub : List (Token × Position)} {bytes : Nat}
  (hs : s.Ok) (hwhole : tokens source = common ++ rest) (hpart : tokens part = common ++ stub)
  (hblunt : ∀ t ∈ stub, t.1.Blunt)

/-- Where two texts are read that have the beginning of their tokens in common. -/
def cut (s : Setting) (source part : String) (rest : List (Token × Position))
    {stub : List (Token × Position)} (hblunt : ∀ t ∈ stub, t.1.Blunt) : Cut where
  whole := s.surroundings source (tokens source)
  part := s.surroundings part (tokens part)
  rest := rest
  stub := stub
  alike := ⟨rfl, rfl, rfl⟩
  blunt := hblunt

theorem between_start (hwhole : tokens source = common ++ rest) :
    s.Between source ((Draft.start common s.table).on rest) := by
  have hstart : s.Between source (.start (tokens source) s.table) := .start
  rwa [hwhole] at hstart

theorem parse_eq_on (hwhole : tokens source = common ++ rest) : s.parse script source =
    script (s.surroundings source (tokens source)) ((Draft.start common s.table).on rest) := by
  show script _ (.start (tokens source) s.table) = _
  rw [hwhole]
  rfl

theorem fed_of_between (hblunt : ∀ t ∈ stub, t.1.Blunt) (h : s.Between source (d.on rest))
    (h' : s.Between part (d.on stub)) : (s.cut source part rest hblunt).Fed d :=
  ⟨Nat.lt_succ_of_le h.suffix.length_le, Nat.lt_succ_of_le h'.suffix.length_le⟩

include hs hwhole hpart hblunt

/-- All names that a part declares are names of the whole. -/
theorem contains_of_declared (hrun : s.parse script source = .ok body e)
    (hx : x ∈ s.declaredNames part) : e.symbols.contains x = true := by
  have hfed : (s.cut source part rest hblunt).Fed (.start common s.table) :=
    fed_of_between hblunt (between_start hwhole) (between_start hpart)
  have hbeside : (s.cut source part rest hblunt).Beside 0 body e
      (script (s.surroundings part (tokens part)) ((Draft.start common s.table).on stub)) :=
    Cut.tracks_script.beside hfed ((parse_eq_on hwhole).symm.trans hrun)
  have hparse := parse_eq_on (s := s) hpart
  rw [mem_declaredNames, hparse] at hx
  generalize script (s.surroundings part (tokens part)) ((Draft.start common s.table).on stub) = r
    at hx hparse hbeside
  cases hbeside with
  | inStep d => exact hx
  | astray _ names _ => exact names x hx
  | stuck => exact absurd hparse (parse_ne_stuck hs)

/-- Up to the cut the part is read in the same steps as the whole. -/
theorem Between.inStep (h : s.Between source e) (hlong : rest.length ≤ e.tokens.length) :
    ∃ d : Draft, e = d.on rest ∧ s.Between part (d.on stub) := by
  induction h with
  | start =>
    refine ⟨.start common s.table, ?_, between_start hpart⟩
    rw [hwhole]
    rfl
  | @next d e body h hrun ih =>
    obtain ⟨read, htokens, -⟩ := tokens_of_statement hrun
    obtain ⟨d, rfl, hbetween⟩ := ih (by rw [htokens, List.length_append]; omega)
    have hbeside := (Cut.tracks_statement maxNesting).beside (fed_of_between hblunt h hbetween) hrun
    generalize hr : statement maxNesting (s.cut source part rest hblunt).part
      (d.on (s.cut source part rest hblunt).stub) = r at hbeside
    cases hbeside with
    | inStep d => exact ⟨d, rfl, hbetween.next hr⟩
    | astray past _ _ =>
      have past : e.tokens.length + 1 ≤ rest.length := past
      omega
    | stuck => exact absurd hr (hbetween.statement_ne_stuck hs)

/-- What a statement before the cut declares is declared by the part. -/
theorem declared_of_within (hrest : ∀ t ∈ rest, bytes < t.2.offset + t.2.len)
    (h : s.DeclaresWithin source bytes x) : x ∈ s.declaredNames part := by
  obtain ⟨d, body, e, read, hd, hrun, htokens, hread, -, hx⟩ := h
  have hlong : rest.length ≤ e.tokens.length := by
    obtain ⟨before, hbefore⟩ := hd.suffix
    obtain ⟨read', htokens', hne⟩ := tokens_of_statement hrun
    obtain rfl : read = read' := List.append_cancel_right (htokens.symm.trans htokens')
    apply Classical.byContradiction
    intro hlong
    -- The last token of the statement would stand after the cut.
    rw [hwhole, htokens, ← List.append_assoc] at hbefore
    rcases List.append_eq_append_iff.1 hbefore with ⟨more, -, hmore⟩ | ⟨more, hcommon, hmore⟩
    · rw [hmore, List.length_append] at hlong
      omega
    · have hnil : more ≠ [] := by
        rintro rfl
        exact hlong (Nat.le_of_eq (congrArg List.length hmore))
      have hlast := congrArg List.getLast? hcommon
      rw [List.getLast?_append, List.getLast?_append, List.getLast?_eq_some_getLast hne,
        List.getLast?_eq_some_getLast hnil, Option.some_or, Option.some_or] at hlast
      have hin := hrest (more.getLast hnil) (hmore ▸ List.mem_append_left _ (List.getLast_mem hnil))
      rw [← Option.some.inj hlast] at hin
      have hout := hread _ (List.getLast_mem hne)
      omega
  obtain ⟨d', rfl, hbetween⟩ := (hd.next hrun).inStep hs hwhole hpart hblunt hlong
  exact hbetween.mem_declaredNames hs hx

end

end Setting

end VectorScript
