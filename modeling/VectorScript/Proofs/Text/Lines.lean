import VectorScript.Text.Blank

/-!
# Lines of a text

Line feeds cut a text into its lines, of which there are as many above a place as line feeds before
it. A piece of text without a line feed lies on one line, unless it ends with the carriage return of
the line's end.

    lines (above ++ cs) = init ++ lines cs, with init.length = above.count '\n'       (lines_above)
    (lines (before ++ text ++ after))[before.count '\n']? = some (s ++ text ++ e)       (exists_line)
-/

namespace VectorScript

namespace Text

theorem splitLines_ne_nil (cs : List Char) : splitLines cs ≠ [] := by
  cases cs with
  | nil => nofun
  | cons c cs =>
    rw [splitLines]
    split
    · nofun
    · split <;> nofun

theorem splitLines_append (above cs : List Char) :
    splitLines (above ++ '\n' :: cs) = splitLines above ++ splitLines cs := by
  induction above with
  | nil =>
    show splitLines ('\n' :: cs) = [[]] ++ splitLines cs
    rw [splitLines, if_pos rfl]
    rfl
  | cons c above ih =>
    rw [List.cons_append, splitLines, splitLines, ih]
    split
    · rfl
    · cases h : splitLines above with
      | nil => exact absurd h (splitLines_ne_nil above)
      | cons line more => rfl

theorem splitLines_line {line : List Char} (h : '\n' ∉ line) : splitLines line = [line] := by
  induction line with
  | nil => rfl
  | cons c line ih =>
    rw [List.mem_cons, not_or] at h
    rw [splitLines, if_neg (Ne.symm h.1), ih h.2]

theorem length_splitLines (cs : List Char) : (splitLines cs).length = cs.count '\n' + 1 := by
  induction cs with
  | nil => rfl
  | cons c cs ih =>
    rw [splitLines]
    split
    · next h => rw [h, List.count_cons_self, List.length_cons, ih]
    · next h =>
      rw [List.count_cons_of_ne h]
      cases hs : splitLines cs with
      | nil => exact absurd hs (splitLines_ne_nil cs)
      | cons line more =>
        rw [hs] at ih
        exact ih

theorem getLast?_append_of_ne_nil {α : Type} (s : List α) {text : List α} (h : text ≠ []) :
    (s ++ text).getLast? = text.getLast? := by
  obtain ⟨last, hlast⟩ := Option.isSome_iff_exists.mp (List.getLast?_isSome.mpr h)
  rw [List.getLast?_append, hlast]
  rfl

theorem lines_append (cs more : List Char) :
    lines (cs ++ '\n' :: more) = (splitLines cs).map dropReturn ++ lines more := by
  have hne := splitLines_ne_nil more
  unfold lines
  dsimp only
  rw [splitLines_append, List.dropLast_append_of_ne_nil hne, getLast?_append_of_ne_nil _ hne,
    List.map_append, List.append_assoc]

theorem lines_line {line : List Char} (h : '\n' ∉ line) (hne : line ≠ []) :
    lines line = [line] := by
  unfold lines
  rw [splitLines_line h]
  simp [hne]

/-- What stands above a line: nothing, or a text that ends with a line feed. -/
def Above (above : List Char) : Prop := above = [] ∨ ∃ cs, above = cs ++ ['\n']

theorem lines_above {above : List Char} (h : Above above) :
    ∃ init, init.length = above.count '\n' ∧ ∀ cs, lines (above ++ cs) = init ++ lines cs := by
  rcases h with rfl | ⟨before, rfl⟩
  · exact ⟨[], rfl, fun _ => rfl⟩
  · refine ⟨(splitLines before).map dropReturn, ?_, fun cs => ?_⟩
    · simp [length_splitLines]
    · rw [List.append_assoc, List.singleton_append, lines_append]

/-- Where the last line of a text begins. -/
theorem exists_above (cs : List Char) :
    ∃ above line, cs = above ++ line ∧ Above above ∧ '\n' ∉ line := by
  induction cs with
  | nil => exact ⟨[], [], rfl, .inl rfl, List.not_mem_nil⟩
  | cons c cs ih =>
    obtain ⟨above, line, rfl, habove, hline⟩ := ih
    rcases habove with rfl | ⟨before, rfl⟩
    · by_cases hc : c = '\n'
      · exact ⟨['\n'], line, by rw [hc]; rfl, .inr ⟨[], rfl⟩, hline⟩
      · exact ⟨[], c :: line, rfl, .inl rfl, List.not_mem_cons_of_ne_of_not_mem (Ne.symm hc) hline⟩
    · exact ⟨c :: (before ++ ['\n']), line, rfl, .inr ⟨c :: before, rfl⟩, hline⟩

/-- Where the first line of a text ends. -/
theorem exists_below (cs : List Char) :
    ∃ line below, cs = line ++ below ∧ '\n' ∉ line ∧
      (below = [] ∨ ∃ more, below = '\n' :: more) := by
  induction cs with
  | nil => exact ⟨[], [], rfl, List.not_mem_nil, .inl rfl⟩
  | cons c cs ih =>
    by_cases hc : c = '\n'
    · exact ⟨[], c :: cs, rfl, List.not_mem_nil, .inr ⟨cs, by rw [hc]⟩⟩
    · obtain ⟨line, below, rfl, hline, hbelow⟩ := ih
      exact ⟨c :: line, below, rfl, List.not_mem_cons_of_ne_of_not_mem (Ne.symm hc) hline, hbelow⟩

/-- The characters of the last line are those after the last line feed. -/
theorem takeWhile_above {above line : List Char} (h : Above above) (hline : '\n' ∉ line) :
    (above ++ line).reverse.takeWhile (· ≠ '\n') = line.reverse := by
  have hall : ∀ c ∈ line.reverse, decide (c ≠ '\n') = true := by
    intro c hc
    rw [decide_eq_true_eq]
    rintro rfl
    exact hline (List.mem_reverse.mp hc)
  rw [List.reverse_append, List.takeWhile_append_of_pos hall]
  rcases h with rfl | ⟨before, rfl⟩
  · exact List.append_nil _
  · rw [List.reverse_append, List.reverse_singleton, List.singleton_append,
      List.takeWhile_cons_of_neg (by decide), List.append_nil]

theorem count_above {above line : List Char} (hline : '\n' ∉ line) :
    (above ++ line).count '\n' = above.count '\n' := by
  rw [List.count_append, List.count_eq_zero_of_not_mem hline, Nat.add_zero]

/-- A piece of a line is still there when the carriage return of the line's end is gone. -/
theorem dropReturn_append {line : List Char} (rest : List Char) (h : line.getLast? ≠ some '\r') :
    ∃ rest', dropReturn (line ++ rest) = line ++ rest' := by
  unfold dropReturn
  split
  · next hlast =>
    cases rest with
    | nil =>
      rw [List.append_nil] at hlast
      exact absurd hlast h
    | cons c rest =>
      exact ⟨(c :: rest).dropLast, List.dropLast_append_of_ne_nil (by simp)⟩
  · exact ⟨rest, rfl⟩

/-- A piece of text without a line feed lies on one line. -/
theorem exists_line {before text : List Char} (after : List Char) (htext : text ≠ [])
    (hline : '\n' ∉ text) (hlast : text.getLast? ≠ some '\r' ∨ after = []) :
    ∃ s e, (lines (before ++ text ++ after))[before.count '\n']? = some (s ++ text ++ e) ∧
      s.length = (before.reverse.takeWhile (· ≠ '\n')).length := by
  obtain ⟨above, s, rfl, habove, hs⟩ := exists_above before
  obtain ⟨e, below, rfl, he, hbelow⟩ := exists_below after
  obtain ⟨init, hinit, hlines⟩ := lines_above habove
  have hstay : '\n' ∉ s ++ text ++ e := by simp [hs, hline, he]
  have hne : s ++ text ++ e ≠ [] := by simp [htext]
  have hassoc : above ++ s ++ text ++ (e ++ below) = above ++ ((s ++ text ++ e) ++ below) := by
    simp only [List.append_assoc]
  have hfirst : ∃ e', (lines ((s ++ text ++ e) ++ below)).head? = some (s ++ text ++ e') := by
    rcases hbelow with rfl | ⟨more, rfl⟩
    · rw [List.append_nil, lines_line hstay hne]
      exact ⟨e, rfl⟩
    · have hlast' : (s ++ text).getLast? ≠ some '\r' := by
        rw [getLast?_append_of_ne_nil s htext]
        exact hlast.resolve_right (by simp)
      obtain ⟨e', he'⟩ := dropReturn_append e hlast'
      rw [lines_append, splitLines_line hstay, List.map_singleton, he']
      exact ⟨e', rfl⟩
  obtain ⟨e', he'⟩ := hfirst
  refine ⟨s, e', ?_, ?_⟩
  · rw [hassoc, hlines, count_above hs, ← hinit, List.getElem?_append_right (Nat.le_refl _),
      Nat.sub_self, ← List.head?_eq_getElem?, he']
  · rw [takeWhile_above habove hs, List.length_reverse]

end Text

end VectorScript
