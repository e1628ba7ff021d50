import Mathlib.Data.String.Basic
import VectorScript.Proofs.Token.Lexeme

/-!
# Tokens one by one

A token can be read again from its own text, and its neighbours do not matter: the texts of the
tokens, with a blank between any two of them, have the same tokens as the text that they were taken
from, whatever blanks and comments stood there.

    kinds (slice source t.2) = [t.1]                                       (kinds_slice, for a token t)
    kinds (spaced source) = kinds source                                                 (kinds_spaced)
-/

namespace VectorScript

namespace Lexer

/-! ## The text at a position -/

/-- The text of a source at a position. -/
def slice (source : String) (p : Position) : String :=
  String.Pos.Raw.extract source ⟨p.offset⟩ ⟨p.offset + p.len⟩

theorem utf8Len_eq (cs : List Char) : String.utf8Len cs = utf8Length cs := by
  induction cs with
  | nil => rfl
  | cons c cs ih =>
    rw [String.utf8Len_cons, ih, Nat.add_comm]
    rfl

/-- A slice is the piece of the text that stands at the place. -/
theorem slice_placeOf {source : String} {before text after : List Char}
    (h : source.toList = before ++ text ++ after) :
    slice source (placeOf before text) = String.ofList text := by
  have hextract := String.extract_of_valid before text after
  rw [← h, String.ofList_toList, utf8Len_eq, utf8Len_eq] at hextract
  exact hextract

/-! ## Lexemes of a text -/

section

variable {source : String} {before cs rest : List Char} {c : Char}

/-- The tokens from a lexeme on. -/
theorem tokensFrom_lexeme (h : (splitTrivia false cs).2 = c :: rest) :
    tokensFrom (Cursor.start.advance before) cs =
      ((scan c rest).token, placeOf (before ++ (splitTrivia false cs).1) (scan c rest).text) ::
        tokensFrom (Cursor.start.advance (before ++ (splitTrivia false cs).1 ++ (scan c rest).text))
          (scan c rest).rest := by
  rw [tokensFrom_of_token h, ← Cursor.advance_append, ← Cursor.advance_append,
    Cursor.position_start]

/-- The text of a lexeme begins with its first character. -/
theorem exists_scan (c : Char) (rest : List Char) :
    ∃ r x, rest = r ++ x ∧ scan c rest = ⟨(scan c rest).token, c :: r, x⟩ := by
  have happ := scan_text_append_rest c rest
  cases htext : (scan c rest).text with
  | nil => exact absurd htext (scan_text_ne_nil c rest)
  | cons d r =>
    rw [htext] at happ
    obtain ⟨rfl, hrest⟩ := List.cons.inj happ
    exact ⟨r, (scan d rest).rest, hrest.symm, by rw [← htext]⟩

/-- A token of a text is a lexeme that stands in it. -/
theorem mem_tokensFrom (before cs : List Char) (h : source.toList = before ++ cs)
    {t : Token × Position} (ht : t ∈ tokensFrom (Cursor.start.advance before) cs) :
    ∃ before c r x, source.toList = before ++ (c :: r ++ x) ∧ Begins c (r ++ x) ∧
      scan c (r ++ x) = ⟨t.1, c :: r, x⟩ ∧ t.2 = placeOf before (c :: r) := by
  cases hsplit : (splitTrivia false cs).2 with
  | nil =>
    rw [tokensFrom_of_end hsplit] at ht
    cases ht
  | cons c rest =>
    have hgap := splitTrivia_append false cs
    rw [hsplit] at hgap
    obtain ⟨r, x, rfl, hscan⟩ := exists_scan c rest
    have hshorter : x.length < cs.length := by
      rw [← hgap]
      simp only [List.length_append, List.length_cons]
      omega
    have hsource : source.toList = before ++ (splitTrivia false cs).1 ++ (c :: r ++ x) := by
      rw [h, List.append_assoc, List.cons_append, hgap]
    rw [tokensFrom_lexeme hsplit, hscan] at ht
    rcases List.mem_cons.mp ht with rfl | ht
    · exact ⟨_, c, r, x, hsource, begins_splitTrivia false cs hsplit, hscan, rfl⟩
    · refine mem_tokensFrom _ x ?_ ht
      rw [hsource, List.append_assoc _ (c :: r)]
termination_by cs.length

end

/-! ## Lexemes on their own -/

section

variable {source : String} {t : Token × Position}

/-- The token of a slice is the token that stands there. -/
theorem kinds_slice (ht : t ∈ tokens source) : kinds (slice source t.2).toList = [t.1] := by
  obtain ⟨before, c, r, x, hsource, hbegins, hscan, hplace⟩ := mem_tokensFrom [] _ rfl ht
  have hfollows : Follows x [] := ⟨.inl rfl, fun _ => rfl⟩
  have halone := scan_append hscan hfollows
  have hbegins' := hbegins.append hscan hfollows
  rw [hplace, slice_placeOf (hsource.trans (List.append_assoc ..).symm), String.toList_ofList]
  rw [List.append_nil] at halone hbegins'
  rw [kinds_of_begins hbegins', halone, kinds_nil]

/-- The texts of tokens with a blank between any two of them. -/
def spaced (source : String) (ts : List (Token × Position)) : String :=
  " ".intercalate (ts.map fun t => slice source t.2)

theorem spaced_cons (t : Token × Position) (ts : List (Token × Position)) :
    (spaced source (t :: ts)).toList =
      (slice source t.2).toList ++ if ts = [] then [] else ' ' :: (spaced source ts).toList := by
  unfold spaced
  cases ts with
  | nil => simp
  | cons u ts => simp [String.intercalate_cons_cons]

theorem kinds_spaced (before cs : List Char) (h : source.toList = before ++ cs) :
    kinds (spaced source (tokensFrom (Cursor.start.advance before) cs)).toList = kinds cs := by
  cases hsplit : (splitTrivia false cs).2 with
  | nil =>
    rw [tokensFrom_of_end hsplit, kinds_of_end hsplit]
    exact kinds_nil
  | cons c rest =>
    have hgap := splitTrivia_append false cs
    rw [hsplit] at hgap
    obtain ⟨r, x, rfl, hscan⟩ := exists_scan c rest
    have hshorter : x.length < cs.length := by
      rw [← hgap]
      simp only [List.length_append, List.length_cons]
      omega
    have hsource : source.toList = before ++ (splitTrivia false cs).1 ++ (c :: r) ++ x := by
      rw [h, List.append_assoc, List.append_assoc, List.cons_append, hgap]
    have htail := kinds_spaced _ x hsource
    have hbegins := begins_splitTrivia false cs hsplit
    rw [tokensFrom_lexeme hsplit, hscan, spaced_cons, slice_placeOf hsource, String.toList_ofList,
      kinds_of_token hsplit, hscan]
    dsimp only
    rw [← htail]
    split
    -- The last token ends the joined text, every other one is followed by a blank.
    · next hnil =>
      have hfollows : Follows x [] := ⟨.inl rfl, fun _ => rfl⟩
      rw [List.cons_append, kinds_of_begins (hbegins.append hscan hfollows),
        scan_append hscan hfollows, hnil]
      rfl
    · next hcons =>
      have hfollows (cs : List Char) : Follows x (' ' :: cs) := by
        refine ⟨.inr (.inl rfl), ?_⟩
        rintro rfl
        exact absurd (tokensFrom_of_end rfl _) hcons
      rw [List.cons_append, kinds_of_begins (hbegins.append hscan (hfollows _)),
        scan_append hscan (hfollows _), kinds_space]
termination_by cs.length

/-- Tokens do not depend on their neighbours: the texts of the tokens, joined by single blanks, have
the same tokens, and each text on its own has its token. -/
theorem tokens_separate (source : String) :
    (tokens (" ".intercalate ((tokens source).map fun t => slice source t.2))).map (·.1) =
        (tokens source).map (·.1) ∧
      ∀ t ∈ tokens source, (tokens (slice source t.2)).map (·.1) = [t.1] :=
  ⟨kinds_spaced [] _ rfl, fun _ ht => kinds_slice ht⟩

end

end Lexer

end VectorScript
