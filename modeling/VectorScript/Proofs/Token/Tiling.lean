import VectorScript.Token.Lexer

/-!
# Tokens tile their text

A text is its tokens and the gaps around them. A gap is made of blanks and comments, no token is
empty, and where a token stands is what counting over all the text before it gives: rows by line
feeds, columns by characters, offsets by bytes.

    splitTrivia false cs = (gap, after) → Gap after gap                          (gap_splitTrivia)
    (start.advance before).position (utf8Length text) = placeOf before text         (position_start)
    Tiles [] source.toList (tokens source) ∧ …                                       (tokens_tile)

The cursor of the lexer goes over each character once; that it agrees with the counts is one
induction on the text before it, so no kind of token or gap needs an argument of its own.
-/

namespace VectorScript

open Lexer

/-! ## Where a piece of text stands -/

/-- Where a piece of text stands, counted over the text before it. -/
def placeOf (before text : List Char) : Position where
  row := before.count '\n' + 1
  col := (before.reverse.takeWhile (· ≠ '\n')).length + 1
  offset := utf8Length before
  len := utf8Length text

theorem Lexer.utf8Length_append (s t : List Char) :
    utf8Length (s ++ t) = utf8Length s + utf8Length t := by
  induction s with
  | nil => exact (Nat.zero_add _).symm
  | cons c s ih =>
    show c.utf8Size + utf8Length (s ++ t) = c.utf8Size + utf8Length s + utf8Length t
    rw [ih, Nat.add_assoc]

theorem Lexer.utf8Length_pos {text : List Char} (h : text ≠ []) : 0 < utf8Length text := by
  cases text with
  | nil => exact absurd rfl h
  | cons c rest => exact Nat.add_pos_left c.utf8Size_pos _

theorem utf8ByteSize_ofList (cs : List Char) :
    (String.ofList cs).utf8ByteSize = utf8Length cs := by
  induction cs with
  | nil => rfl
  | cons c cs ih =>
    rw [String.ofList_cons, String.utf8ByteSize_append, String.utf8ByteSize_singleton, ih]
    rfl

/-- A text moves the offset on by its length. -/
theorem Cursor.offset_advance (cursor : Cursor) (cs : List Char) :
    (cursor.advance cs).offset = cursor.offset + utf8Length cs := by
  induction cs generalizing cursor with
  | nil => rfl
  | cons c cs ih =>
    show ((cursor.step c).advance cs).offset = cursor.offset + (c.utf8Size + utf8Length cs)
    have hstep : (cursor.step c).offset = cursor.offset + c.utf8Size := by
      unfold Cursor.step
      split
      · next h =>
        subst h
        rfl
      · rfl
    rw [ih, hstep, Nat.add_assoc]

/-- Row and column after a text that is given backwards. -/
theorem Cursor.advance_reverse (cs : List Char) :
    (start.advance cs.reverse).row = cs.count '\n' + 1 ∧
      (start.advance cs.reverse).col = (cs.takeWhile (· ≠ '\n')).length + 1 := by
  induction cs with
  | nil => exact ⟨rfl, rfl⟩
  | cons c cs ih =>
    have hstep : start.advance (c :: cs).reverse = (start.advance cs.reverse).step c := by
      rw [List.reverse_cons, advance_append]
      rfl
    rw [hstep]
    unfold Cursor.step
    by_cases hc : c = '\n'
    · subst hc
      rw [if_pos rfl, List.count_cons_self, List.takeWhile_cons_of_neg (by decide)]
      exact ⟨congrArg (· + 1) ih.1, rfl⟩
    · rw [if_neg hc, List.count_cons_of_ne hc, List.takeWhile_cons_of_pos (by simpa using hc)]
      exact ⟨ih.1, congrArg (· + 1) ih.2⟩

/-- The cursor counts what it goes over. -/
theorem Cursor.position_start (before text : List Char) :
    (start.advance before).position (utf8Length text) = placeOf before text := by
  have hplace := Cursor.advance_reverse before.reverse
  rw [List.reverse_reverse, List.count_reverse] at hplace
  have hoffset : (start.advance before).offset = utf8Length before :=
    (Cursor.offset_advance .start before).trans (Nat.zero_add _)
  unfold Cursor.position
  rw [hplace.1, hplace.2, hoffset]
  rfl

/-- The end of a text is counted over all of it. -/
theorem Lexer.endPosition_eq (source : String) : endPosition source =
    { row := source.toList.count '\n' + 1
      col := (source.toList.reverse.takeWhile (· ≠ '\n')).length + 1
      offset := source.utf8ByteSize
      len := 0 } := by
  have hsize := utf8ByteSize_ofList source.toList
  rw [String.ofList_toList] at hsize
  rw [hsize]
  exact Cursor.position_start source.toList []

/-- The bytes before a piece of text end between two characters. -/
theorem isValid_utf8Length {source : String} {before after : List Char}
    (h : source.toList = before ++ after) :
    (⟨utf8Length before⟩ : String.Pos.Raw).IsValid source := by
  refine String.Pos.Raw.isValid_iff_exists_append.2 ⟨.ofList before, .ofList after, ?_, ?_⟩
  · rw [← String.ofList_append, ← h, String.ofList_toList]
  · exact congrArg String.Pos.Raw.mk (utf8ByteSize_ofList before).symm

namespace Lexer

/-! ## Gaps -/

/-- Blanks and comments before a text. A comment runs up to a line feed or to the end of all. -/
inductive Gap (after : List Char) : List Char → Prop
  | nil : Gap after []
  | blank {c : Char} {rest : List Char} :
      c ∈ [' ', '\t', '\r', '\n'] → Gap after rest → Gap after (c :: rest)
  | comment {line rest : List Char} :
      '\n' ∉ line → (rest ++ after).head? ∈ [none, some '\n'] → Gap after rest →
      Gap after ('/' :: '/' :: (line ++ rest))

theorem mem_blanks {c : Char} (h : isSpace c = true) : c ∈ [' ', '\t', '\r', '\n'] := by
  simpa [isSpace, or_assoc] using h

section

variable {c : Char} {cs : List Char}

theorem splitTrivia_blank (h : isSpace c = true) :
    splitTrivia false (c :: cs) = (c :: (splitTrivia false cs).1, (splitTrivia false cs).2) := by
  rw [splitTrivia, if_neg Bool.false_ne_true, if_pos h]

theorem splitTrivia_slash (h : cs.head? = some '/') :
    splitTrivia false ('/' :: cs) = ('/' :: (splitTrivia true cs).1, (splitTrivia true cs).2) := by
  rw [splitTrivia, if_neg Bool.false_ne_true, if_neg (by decide), if_pos (by simp [h])]

theorem splitTrivia_token (hspace : ¬ isSpace c = true) (hslash : ¬ (c = '/' ∧ cs.head? = some '/')) :
    splitTrivia false (c :: cs) = ([], c :: cs) := by
  rw [splitTrivia, if_neg Bool.false_ne_true, if_neg hspace, if_neg (by simpa using hslash)]

theorem splitTrivia_comment (inComment : Bool) (h : (c != '\n') = inComment) :
    splitTrivia true (c :: cs) =
      (c :: (splitTrivia inComment cs).1, (splitTrivia inComment cs).2) := by
  rw [splitTrivia, if_pos rfl, h]

end

/-- Inside a comment, what is split off is the rest of its line and the gap that goes on there. -/
def Commented (after trivia : List Char) : Prop :=
  ∃ line rest, trivia = line ++ rest ∧ '\n' ∉ line ∧
    (rest ++ after).head? ∈ [none, some '\n'] ∧ Gap after rest

/-- What is split off is a gap. Both states of the splitting go through one induction, since a
comment leads from one to the other and its line feed back. -/
theorem splitTrivia_spec (cs : List Char) :
    Gap (splitTrivia false cs).2 (splitTrivia false cs).1 ∧
      Commented (splitTrivia true cs).2 (splitTrivia true cs).1 := by
  induction cs with
  | nil => exact ⟨.nil, [], [], rfl, List.not_mem_nil, List.mem_cons_self, .nil⟩
  | cons c cs ih =>
    obtain ⟨hgap, line, rest, hsplit, hline, hhead, hrest⟩ := ih
    constructor
    · by_cases hspace : isSpace c = true
      · rw [splitTrivia_blank hspace]
        exact .blank (mem_blanks hspace) hgap
      by_cases hslash : c = '/' ∧ cs.head? = some '/'
      · obtain ⟨rfl, hsecond⟩ := hslash
        rw [splitTrivia_slash hsecond, hsplit]
        -- The second slash belongs to the line: nothing else can begin with it.
        rw [← splitTrivia_append true cs, hsplit, List.append_assoc] at hsecond
        cases line with
        | nil =>
          rw [List.nil_append] at hsecond
          rw [hsecond] at hhead
          exact absurd hhead (by decide)
        | cons d line =>
          obtain rfl : d = '/' := Option.some.inj hsecond
          exact .comment (fun h => hline (List.mem_cons_of_mem _ h)) hhead hrest
      · rw [splitTrivia_token hspace hslash]
        exact .nil
    · by_cases hc : c = '\n'
      · rw [splitTrivia_comment false (by simp [hc]), hc]
        exact ⟨[], _, rfl, List.not_mem_nil, by simp, .blank (by simp) hgap⟩
      · rw [splitTrivia_comment true (by simpa using hc), hsplit]
        exact ⟨c :: line, rest, rfl, List.not_mem_cons_of_ne_of_not_mem (Ne.symm hc) hline, hhead,
          hrest⟩

theorem gap_splitTrivia (cs : List Char) :
    Gap (splitTrivia false cs).2 (splitTrivia false cs).1 := (splitTrivia_spec cs).1

/-! ## Tiles -/

/-- What follows the text before is gaps and tokens in turn: each token is some characters, at the
place where they stand. -/
inductive Tiles : List Char → List Char → List (Token × Position) → Prop
  | done {before gap : List Char} : Gap [] gap → Tiles before gap []
  | token {before gap text rest : List Char} {t : Token} {ts : List (Token × Position)} :
      Gap (text ++ rest) gap → text ≠ [] → Tiles (before ++ gap ++ text) rest ts →
      Tiles before (gap ++ text ++ rest) ((t, placeOf (before ++ gap) text) :: ts)

theorem tiles_tokensFrom (before cs : List Char) :
    Tiles before cs (tokensFrom (Cursor.start.advance before) cs) := by
  have hsplit := splitTrivia_append false cs
  have hgap := gap_splitTrivia cs
  rw [tokensFrom]
  split
  · next h =>
    rw [h] at hsplit hgap
    rw [List.append_nil] at hsplit
    exact hsplit ▸ .done hgap
  · next c rest h =>
    rw [h] at hsplit hgap
    have hscan := scan_text_append_rest c rest
    have hshorter : (scan c rest).rest.length < cs.length :=
      Nat.lt_of_lt_of_le (length_scan_rest c rest) (h ▸ length_splitTrivia false cs)
    have htail := tiles_tokensFrom (before ++ (splitTrivia false cs).1 ++ (scan c rest).text)
      (scan c rest).rest
    rw [← hscan] at hgap
    have htiles := Tiles.token (t := (scan c rest).token) hgap (scan_text_ne_nil c rest) htail
    rw [List.append_assoc _ (scan c rest).text, hscan, hsplit] at htiles
    dsimp only
    rw [← Cursor.advance_append, ← Cursor.advance_append, Cursor.position_start]
    exact htiles
termination_by cs.length

section

variable {before rest : List Char} {ts : List (Token × Position)}

/-- Every tile is a piece of the text that is not empty. -/
theorem Tiles.piece (h : Tiles before rest ts) {t : Token × Position} (ht : t ∈ ts) :
    ∃ gap text after, rest = gap ++ text ++ after ∧ text ≠ [] ∧
      t.2 = placeOf (before ++ gap) text := by
  induction h with
  | done => exact absurd ht List.not_mem_nil
  | @token before gap text rest t' ts _ htext _ ih =>
    rcases List.mem_cons.1 ht with rfl | ht
    · exact ⟨gap, text, rest, rfl, htext, rfl⟩
    · obtain ⟨gap', text', after, rfl, htext', hplace⟩ := ih ht
      refine ⟨gap ++ text ++ gap', text', after, ?_, htext', ?_⟩
      · simp only [List.append_assoc]
      · rw [hplace]
        simp only [List.append_assoc]

/-- Tiles follow one another. -/
theorem Tiles.ordered (h : Tiles before rest ts) :
    ts.Pairwise fun s t => s.2.offset + s.2.len ≤ t.2.offset := by
  induction h with
  | done => exact .nil
  | @token before gap text rest t ts _ _ htail ih =>
    refine .cons (fun u hu => ?_) ih
    obtain ⟨gap', text', after, -, -, hplace⟩ := htail.piece hu
    show utf8Length (before ++ gap) + utf8Length text ≤ u.2.offset
    rw [hplace, ← utf8Length_append]
    show _ ≤ utf8Length (before ++ gap ++ text ++ gap')
    rw [utf8Length_append (before ++ gap ++ text) gap']
    exact Nat.le_add_right _ _

end

/-- The tokens of a text and gaps of blanks and comments make up all of it. No token is empty, each
ends before the next begins, and begins and ends between two characters; its row and column count
the line feeds before it, and the characters after the last of them. -/
theorem tokens_tile (source : String) :
    Tiles [] source.toList (tokens source) ∧
      (tokens source).Pairwise (fun s t => s.2.offset + s.2.len ≤ t.2.offset) ∧
      ∀ t ∈ tokens source, 0 < t.2.len ∧
        (⟨t.2.offset⟩ : String.Pos.Raw).IsValid source ∧
        (⟨t.2.offset + t.2.len⟩ : String.Pos.Raw).IsValid source ∧
        ∃ before text after, source.toList = before ++ text ++ after ∧
          t.2 = placeOf before text := by
  have htiles : Tiles [] source.toList (tokens source) := tiles_tokensFrom [] source.toList
  refine ⟨htiles, htiles.ordered, fun t ht => ?_⟩
  obtain ⟨before, text, after, hsource, htext, hplace⟩ := htiles.piece ht
  rw [List.nil_append] at hplace
  refine ⟨?_, ?_, ?_, before, text, after, hsource, hplace⟩
  · rw [hplace]
    exact utf8Length_pos htext
  · rw [hplace]
    exact isValid_utf8Length (hsource.trans (List.append_assoc before text after))
  · rw [hplace]
    show (⟨utf8Length before + utf8Length text⟩ : String.Pos.Raw).IsValid source
    rw [← utf8Length_append]
    exact isValid_utf8Length hsource

end Lexer

end VectorScript
