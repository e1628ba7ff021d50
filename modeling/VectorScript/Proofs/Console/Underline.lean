import VectorScript.Console.Report
import VectorScript.Proofs.Compilation.Program
import VectorScript.Proofs.Text.Lines
import VectorScript.Proofs.Token.Slice
import VectorScript.Proofs.Workspace.History

/-!
# What is underlined

The report of a fault shows the line of the source where it stands, with as many characters
underlined from its column on as the text there has bytes. So a token is underlined exactly if all
its characters take one byte, or if it ends its line; otherwise the underlining goes on behind it.
At the end of a text that ends within a line, a blank is underlined after the line.

    sourceLine source (placeOf before text) =
      decorated s ((text ++ e).take (utf8Length text)) … ++ "\n"                      (sourceLine_piece)
    sourceLine source (endPosition source) = decorated line [' '] [] ++ "\n"             (sourceLine_end)
-/

namespace VectorScript

/-! ## The end of a lexeme -/

namespace Lexer

/-- The characters of a number. -/
def isNumeral (c : Char) : Bool := numeral true true c || isSign c

theorem isNumeral_of_mem (p e : Bool) (cs : List Char) :
    ∀ c ∈ (splitNumber p e cs).1, isNumeral c = true := by
  fun_induction splitNumber p e cs <;> simp_all [isNumeral, numeral, isSign]

theorem last_of_textBody (s : List Char) :
    (textBody s).text.getLast? = some '"' ∨ (textBody s).rest = [] := by
  fun_induction textBody s with
  | case1 => exact .inr rfl
  | case2 => exact .inl rfl
  | case3 => exact .inr rfl
  | case4 c rest body ih =>
    refine ih.imp_left fun h => ?_
    rw [List.getLast?_cons, List.getLast?_cons, h]
    rfl
  | case5 c rest _ _ _ body ih =>
    refine ih.imp_left fun h => ?_
    rw [List.getLast?_cons, h]
    rfl

theorem return_notMem_sign {c : Char} {cs : List Char} (hc : c ≠ '\r') : '\r' ∉ (sign c cs).text := by
  unfold sign
  split
  · simpa using Ne.symm hc
  · next d cs =>
    split
    · next hpair =>
      have hd : d ≠ '\r' := by
        rintro rfl
        unfold Token.ofPair? at hpair
        split at hpair <;> contradiction
      simpa using ⟨Ne.symm hc, Ne.symm hd⟩
    · simpa using Ne.symm hc

/-- A lexeme ends with a carriage return only where the text ends. -/
theorem last_of_scan {c : Char} (hc : isSpace c = false) (cs : List Char) :
    (scan c cs).text.getLast? ≠ some '\r' ∨ (scan c cs).rest = [] := by
  have hreturn : c ≠ '\r' := by
    rintro rfl
    cases hc
  rw [scan_eq]
  split
  · refine .inl fun h => ?_
    cases isNumeral_of_mem true true (c :: cs) _ (List.mem_of_getLast? h)
  split
  · refine .inl fun h => ?_
    have hall : (name (c :: cs)).text.all isNameChar = true := List.all_takeWhile
    cases List.all_eq_true.mp hall _ (List.mem_of_getLast? h)
  split
  · refine (last_of_textBody cs).imp_left fun h => ?_
    show ('"' :: (textBody cs).text).getLast? ≠ _
    rw [List.getLast?_cons, h]
    decide
  · exact .inl fun h => return_notMem_sign hreturn (List.mem_of_getLast? h)

end Lexer

/-! ## Reports -/

namespace Report

/-- A line with the part inside underlined. -/
def decorated (before inside after : List Char) : String :=
  String.ofList before ++ underlineOn ++ String.ofList inside ++ off ++ String.ofList after

theorem underlined_append (before : List Char) {rest : List Char} (h : rest ≠ []) (count : Nat) :
    underlined (before ++ rest) before.length count =
      decorated before (rest.take count) (rest.drop count) := by
  unfold underlined
  dsimp only
  rw [if_pos, List.take_left, List.drop_left]
  · rfl
  · have := List.length_pos_iff.mpr h
    rw [List.length_append]
    omega

theorem underlined_end (line : List Char) (count : Nat) :
    underlined line line.length count = decorated line [' '] [] := by
  unfold underlined
  dsimp only
  rw [if_neg (by omega), if_pos rfl, List.take_length]
  simp [decorated]

/-- What is underlined of a piece of text on one line: as many characters as the piece has bytes. -/
theorem sourceLine_piece {source : String} {before text after : List Char}
    (hsource : source.toList = before ++ text ++ after) (htext : text ≠ []) (hline : '\n' ∉ text)
    (hlast : text.getLast? ≠ some '\r' ∨ after = []) :
    ∃ s e, (Text.lines source.toList)[(placeOf before text).row - 1]? = some (s ++ text ++ e) ∧
      (placeOf before text).col = s.length + 1 ∧
      sourceLine source (placeOf before text) =
        decorated s ((text ++ e).take (placeOf before text).len)
          ((text ++ e).drop (placeOf before text).len) ++ "\n" := by
  obtain ⟨s, e, hlines, hs⟩ := Text.exists_line after htext hline hlast
  have hcol : (placeOf before text).col = s.length + 1 := congrArg (· + 1) hs.symm
  have hlen : max (placeOf before text).len 1 = (placeOf before text).len :=
    Nat.max_eq_left (Lexer.utf8Length_pos htext)
  have hrow : (placeOf before text).row - 1 = before.count '\n' := Nat.add_sub_cancel ..
  rw [← hsource] at hlines
  refine ⟨s, e, by rw [hrow, hlines], hcol, ?_⟩
  unfold sourceLine
  rw [hrow, hlines, hcol, hlen, Nat.add_sub_cancel]
  dsimp only
  rw [List.append_assoc, underlined_append s (by simp [htext])]

/-- The end of a text that ends within a line. -/
theorem sourceLine_end {source : String} {line : List Char}
    (hline : (Text.lines source.toList).getLast? = some line)
    (hopen : source.toList.getLast? ≠ some '\n') :
    sourceLine source (Lexer.endPosition source) = decorated line [' '] [] ++ "\n" := by
  obtain ⟨above, line', hsource, habove, hstay⟩ := Text.exists_above source.toList
  have hne : line' ≠ [] := by
    rintro rfl
    rw [List.append_nil] at hsource
    rcases habove with rfl | ⟨cs, rfl⟩
    · rw [hsource] at hline
      cases hline
    · rw [hsource, List.getLast?_concat] at hopen
      exact hopen rfl
  obtain ⟨init, hinit, hlines⟩ := Text.lines_above habove
  have hall : Text.lines source.toList = init ++ [line'] := by
    rw [hsource, hlines, Text.lines_line hstay hne]
  rw [hall, List.getLast?_concat] at hline
  cases hline
  have hrow : (Lexer.endPosition source).row - 1 = init.length := by
    rw [Lexer.endPosition_eq, hinit, hsource]
    exact Text.count_above hstay
  have hcol : (Lexer.endPosition source).col - 1 = line.length := by
    rw [Lexer.endPosition_eq, hsource]
    show (List.takeWhile _ _).length + 1 - 1 = _
    rw [Text.takeWhile_above habove hstay, List.length_reverse, Nat.add_sub_cancel]
  unfold sourceLine
  rw [hrow, hcol, hall, List.getElem?_concat_length]
  dsimp only
  rw [underlined_end]

end Report

/-! ## Faults of a compilation -/

theorem Lexer.length_le_utf8Length (cs : List Char) : cs.length ≤ utf8Length cs := by
  induction cs with
  | nil => exact Nat.le_refl 0
  | cons c cs ih =>
    have hc := c.utf8Size_pos
    show cs.length + 1 ≤ c.utf8Size + utf8Length cs
    omega

theorem take_eq_left_iff {text after : List Char} {n : Nat} (hn : text.length ≤ n) :
    (text ++ after).take n = text ↔ n = text.length ∨ after = [] := by
  constructor
  · intro h
    have hlen := congrArg List.length h
    rw [List.length_take, List.length_append] at hlen
    rcases Nat.eq_or_lt_of_le hn with heq | hlt
    · exact .inl heq.symm
    · exact .inr (List.eq_nil_of_length_eq_zero (by omega))
  · rintro (rfl | rfl)
    · exact List.take_left
    · rw [List.append_nil, List.take_of_length_le hn]

namespace Workspace

open Report

variable {w : Workspace} {name source : String} {e : Fault}

/-- How a script that does not compile is reported. The fault stands at a token of it or at its end.
If the token lies on one line, the line is shown with as many characters underlined from the token on
as the token has bytes, up to the end of the line: the token and nothing else exactly if it has no
more bytes than characters, or ends the line. At the end of a text that ends within a line, that line
is shown with an underlined blank after it. -/
theorem report_underlines (h : Reachable Setting.compile w)
    (he : ((w.setting name).compile source).1 = .error e) :
    ∃ p, e.position = some p ∧
      (((∃ t, (t, p) ∈ Lexer.tokens source) ∧
          ('\n' ∉ (Lexer.slice source p).toList → ∃ before after inside rest,
            (Text.lines source.toList)[p.row - 1]? =
              some (before ++ (Lexer.slice source p).toList ++ after) ∧
            p.col = before.length + 1 ∧
            inside ++ rest = (Lexer.slice source p).toList ++ after ∧
            inside.length = min p.len (inside ++ rest).length ∧
            (inside = (Lexer.slice source p).toList ↔
              p.len = (Lexer.slice source p).toList.length ∨ after = []) ∧
            Report.fault (some source) e =
              message e ++ (decorated before inside rest ++ "\n"))) ∨
        p = Lexer.endPosition source ∧ ∀ line,
          (Text.lines source.toList).getLast? = some line → source.toList.getLast? ≠ some '\n' →
            Report.fault (some source) e = message e ++ (decorated line [' '] [] ++ "\n")) := by
  obtain ⟨hw, -⟩ := sound_of_reachable Setting.sound_compile h
  obtain ⟨-, d, p, -, hp, hplace⟩ := Setting.compile_error (hw.setting_ok name) he
  have hfault : Report.fault (some source) e = message e ++ sourceLine source p := by
    unfold Report.fault
    rw [hp]
  refine ⟨p, hp, ?_⟩
  -- The fault is placed at a token or at the end of the text.
  rcases hplace with ⟨t, ht⟩ | ⟨rfl, -⟩
  · refine .inl ⟨⟨t, ht⟩, fun hline => ?_⟩
    obtain ⟨before, c, r, x, hsource, ⟨hspace, -⟩, hscan, rfl⟩ := Lexer.mem_tokensFrom [] _ rfl ht
    rw [← List.append_assoc] at hsource
    rw [Lexer.slice_placeOf hsource, String.toList_ofList] at hline ⊢
    have hlast := Lexer.last_of_scan hspace (r ++ x)
    rw [hscan] at hlast
    obtain ⟨s, after, hlines, hcol, hshown⟩ :=
      sourceLine_piece hsource (List.cons_ne_nil c r) hline hlast
    have hbytes := Lexer.length_le_utf8Length (c :: r)
    exact ⟨s, after, _, _, hlines, hcol, List.take_append_drop .., by simp,
      take_eq_left_iff hbytes, by rw [hfault, hshown]⟩
  · refine .inr ⟨rfl, fun line hlast hopen => ?_⟩
    rw [hfault, sourceLine_end hlast hopen]

/-- A name that has not been declared is reported at a token of its text. -/
theorem report_underlines_undeclared :
    ∃ e p, ((new.setting "main").compile "oops;").1 = .error e ∧ e.position = some p ∧
      ((∃ t, (t, p) ∈ Lexer.tokens "oops;") ∨ p = Lexer.endPosition "oops;") := by
  cases he : ((new.setting "main").compile "oops;").1 with
  | ok p =>
    have hfails : ((new.setting "main").compile "oops;").1.toOption.isSome = false := by
      decide +kernel
    rw [he] at hfails
    cases hfails
  | error e =>
    obtain ⟨p, hp, hplace⟩ := report_underlines .new he
    exact ⟨e, p, rfl, hp, hplace.imp And.left And.left⟩

/-- A script with a character of four bytes where an expression should be. -/
def wide : String := "Text t = 😀;"

def wideFault : Fault := (Fault.about .unexpected "😀").located ⟨1, 10, 9, 4⟩

/-- Underlining the character alone is not what the report does: the mark behind it is underlined
as well. -/
theorem report_underlines_wide :
    ∃ e p, ((new.setting "main").compile wide).1 = .error e ∧ e.position = some p ∧
      (Text.lines wide.toList)[p.row - 1]? = some ("Text t = ".toList ++ ['😀'] ++ [';']) ∧
      p.col = "Text t = ".toList.length + 1 ∧ (Lexer.slice wide p).toList = ['😀'] ∧
      Report.fault (some wide) e =
        message e ++ (decorated "Text t = ".toList ['😀', ';'] [] ++ "\n") ∧
      Report.fault (some wide) e ≠
        message e ++ (decorated "Text t = ".toList ['😀'] [';'] ++ "\n") := by
  refine ⟨wideFault, ⟨1, 10, 9, 4⟩, ?_, rfl, ?_, ?_, ?_, ?_, ?_⟩
  · have hfails : (match ((new.setting "main").compile wide).1 with
        | .error e => decide (e = wideFault)
        | .ok _ => false) = true := by
      decide +kernel
    split at hfails
    · next e he => rw [he, of_decide_eq_true hfails]
    · cases hfails
  all_goals decide +kernel

end Workspace

end VectorScript
