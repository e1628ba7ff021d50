import VectorScript.Proofs.Token.Tiling

/-!
# Tokens from left to right

Which tokens a text has does not depend on where it stands, so tokens without their places
(`kinds`) can be read off a text piece by piece: a blank goes, and an identifier, a keyword or a
mark gives its token if what follows does not go on with it.

    kinds (cs) = (scan c rest).token :: kinds (scan c rest).rest,
      if a token begins at the head c of cs                                         (kinds_token)
    kinds (' ' :: cs) = kinds cs                                                    (kinds_space)
    kinds (word ++ cs) = nameToken word :: kinds cs                                 (kinds_name)
-/

namespace VectorScript

namespace Lexer

/-- The tokens of a text, without their places. -/
def kinds (cs : List Char) : List Token := (tokensFrom .start cs).map (·.1)

/-- Whether a text is a name that is no keyword. -/
def isIdentifier (s : String) : Bool :=
  (s.toList.head?.map isNameStart).getD false && s.toList.all isNameChar &&
    (Word.ofString? s).isNone

/-- The keyword or the identifier of a spelling. -/
def nameToken (s : String) : Token :=
  match Word.ofString? s with
  | some w => .word w
  | none => .ident s

/-! ## Unfolding -/

theorem tokensFrom_of_end {cs : List Char} (h : (splitTrivia false cs).2 = []) (cursor : Cursor) :
    tokensFrom cursor cs = [] := by
  rw [tokensFrom]
  split
  · rfl
  · next h' =>
    rw [h] at h'
    cases h'

theorem tokensFrom_of_token {cs rest : List Char} {c : Char}
    (h : (splitTrivia false cs).2 = c :: rest) (cursor : Cursor) :
    tokensFrom cursor cs =
      ((scan c rest).token, (cursor.advance (splitTrivia false cs).1).position
        (utf8Length (scan c rest).text)) ::
      tokensFrom ((cursor.advance (splitTrivia false cs).1).advance (scan c rest).text)
        (scan c rest).rest := by
  rw [tokensFrom]
  split
  · next h' =>
    rw [h] at h'
    cases h'
  · next h' =>
    rw [h] at h'
    cases h'
    rfl

/-- Tokens do not depend on where the text stands. -/
theorem map_fst_tokensFrom (cursor other : Cursor) (cs : List Char) :
    (tokensFrom cursor cs).map (·.1) = (tokensFrom other cs).map (·.1) := by
  cases h : (splitTrivia false cs).2 with
  | nil => rw [tokensFrom_of_end h, tokensFrom_of_end h]
  | cons c rest =>
    have hshorter : (scan c rest).rest.length < cs.length :=
      Nat.lt_of_lt_of_le (length_scan_rest c rest) (h ▸ length_splitTrivia false cs)
    rw [tokensFrom_of_token h, tokensFrom_of_token h, List.map_cons, List.map_cons]
    exact congrArg _ (map_fst_tokensFrom _ _ (scan c rest).rest)
termination_by cs.length

theorem kinds_of_end {cs : List Char} (h : (splitTrivia false cs).2 = []) : kinds cs = [] := by
  unfold kinds
  rw [tokensFrom_of_end h]
  rfl

theorem kinds_of_token {cs rest : List Char} {c : Char}
    (h : (splitTrivia false cs).2 = c :: rest) :
    kinds cs = (scan c rest).token :: kinds (scan c rest).rest := by
  unfold kinds
  rw [tokensFrom_of_token h, List.map_cons]
  exact congrArg _ (map_fst_tokensFrom _ _ _)

theorem kinds_nil : kinds [] = [] := kinds_of_end rfl

theorem kinds_blank {c : Char} (hc : isSpace c = true) (cs : List Char) :
    kinds (c :: cs) = kinds cs := by
  have hsplit : (splitTrivia false (c :: cs)).2 = (splitTrivia false cs).2 := by
    rw [splitTrivia_blank hc]
  cases h : (splitTrivia false cs).2 with
  | nil => rw [kinds_of_end h, kinds_of_end (hsplit.trans h)]
  | cons d rest => rw [kinds_of_token h, kinds_of_token (hsplit.trans h)]

theorem kinds_space (cs : List Char) : kinds (' ' :: cs) = kinds cs := kinds_blank rfl cs

theorem kinds_token {c : Char} {rest : List Char} (hspace : isSpace c = false)
    (hslash : c ≠ '/') : kinds (c :: rest) = (scan c rest).token :: kinds (scan c rest).rest := by
  refine kinds_of_token ?_
  rw [splitTrivia_token (by rw [hspace]; decide) fun h => hslash h.1]

/-! ## Names -/

theorem isDigit_of_isAlpha {c : Char} (h : c.isAlpha = true) : c.isDigit = false := by
  have hletter : 65 ≤ c.val := by
    rcases (Bool.or_eq_true _ _).mp h with hupper | hlower
    · exact (of_decide_eq_true hupper).1
    · have ha : 97 ≤ c.val := of_decide_eq_true ((Bool.and_eq_true _ _).mp hlower).1
      exact UInt32.le_trans (by decide) ha
  have hafter : ¬c.val ≤ 57 := fun h => absurd (UInt32.le_trans hletter h) (by decide)
  exact (congrArg _ (decide_eq_false hafter)).trans (Bool.and_false _)

/-- No number, comment or blank begins like a name. -/
theorem isNameStart_spec {c : Char} (h : isNameStart c = true) :
    c.isDigit = false ∧ c ≠ '.' ∧ c ≠ '/' ∧ isSpace c = false := by
  have hclass : c.isAlpha = true ∨ c = '_' := by simpa [isNameStart] using h
  refine ⟨?_, ?_, ?_, ?_⟩
  · rcases hclass with halpha | rfl
    · exact isDigit_of_isAlpha halpha
    · rfl
  · rintro rfl
    cases h
  · rintro rfl
    cases h
  · rw [Bool.eq_false_iff]
    intro hspace
    have hblank := mem_blanks hspace
    simp only [List.mem_cons, List.not_mem_nil, or_false] at hblank
    rcases hblank with rfl | rfl | rfl | rfl <;> cases h

/-- The text does not go on with a name. -/
def NameEnds (cs : List Char) : Prop := ∀ c ∈ cs.head?, isNameChar c = false

theorem name_append {word cs : List Char} (hword : word.all isNameChar = true)
    (hcs : NameEnds cs) : name (word ++ cs) = ⟨nameToken (String.ofList word), word, cs⟩ := by
  have htake : (word ++ cs).takeWhile isNameChar = word := by
    rw [List.takeWhile_append_of_pos (List.all_eq_true.1 hword)]
    cases cs with
    | nil => exact List.append_nil word
    | cons c cs => rw [List.takeWhile_cons_of_neg (by rw [hcs c rfl]; decide), List.append_nil]
  have hdrop : (word ++ cs).dropWhile isNameChar = cs := by
    rw [List.dropWhile_append_of_pos (List.all_eq_true.1 hword)]
    cases cs with
    | nil => rfl
    | cons c cs => rw [List.dropWhile_cons_of_neg (by rw [hcs c rfl]; decide)]
  unfold name
  rw [htake, hdrop]
  rfl

/-- A name, up to where it ends, is one token. -/
theorem kinds_name {c : Char} {word cs : List Char} (hc : isNameStart c = true)
    (hword : word.all isNameChar = true) (hcs : NameEnds cs) :
    kinds (c :: (word ++ cs)) = nameToken (String.ofList (c :: word)) :: kinds cs := by
  obtain ⟨hdigit, hdot, hslash, hspace⟩ := isNameStart_spec hc
  have hall : (c :: word).all isNameChar = true := by
    rw [List.all_cons, isNameChar, hc]
    exact hword
  have hscan : scan c (word ++ cs) = ⟨nameToken (String.ofList (c :: word)), c :: word, cs⟩ := by
    rw [← name_append hall hcs]
    unfold scan
    rw [if_neg (by simp [hdigit, hdot]), if_pos hc]
    rfl
  rw [kinds_token hspace hslash, hscan]

theorem isIdentifier_spec {s : String} (h : isIdentifier s = true) :
    ∃ c word, s.toList = c :: word ∧ isNameStart c = true ∧ word.all isNameChar = true ∧
      nameToken s = .ident s := by
  simp only [isIdentifier, Bool.and_eq_true] at h
  obtain ⟨⟨hstart, hall⟩, hword⟩ := h
  cases hs : s.toList with
  | nil =>
    rw [hs] at hstart
    cases hstart
  | cons c word =>
    rw [hs] at hstart hall
    refine ⟨c, word, rfl, hstart, (Bool.and_eq_true_iff.1 hall).2, ?_⟩
    unfold nameToken
    rw [Option.isNone_iff_eq_none.1 hword]

/-- An identifier is read as such. -/
theorem kinds_identifier {s : String} (hs : isIdentifier s = true) (cs : List Char)
    (hcs : NameEnds cs) : kinds (s.toList ++ cs) = .ident s :: kinds cs := by
  obtain ⟨c, word, hlist, hstart, hword, htoken⟩ := isIdentifier_spec hs
  have hspell : String.ofList (c :: word) = s := by rw [← hlist, String.ofList_toList]
  rw [hlist, List.cons_append, kinds_name hstart hword hcs, hspell, htoken]

/-- A keyword is read as such. -/
theorem kinds_word (w : Word) (cs : List Char) (hcs : NameEnds cs) :
    kinds (w.spelling.toList ++ cs) = .word w :: kinds cs := by
  obtain ⟨c, word, hlist, hstart, hword⟩ : ∃ c word, w.spelling.toList = c :: word ∧
      isNameStart c = true ∧ word.all isNameChar = true := by
    cases w <;> exact ⟨_, _, rfl, by decide, by decide⟩
  have hspell : String.ofList (c :: word) = w.spelling := by rw [← hlist, String.ofList_toList]
  rw [hlist, List.cons_append, kinds_name hstart hword hcs, hspell]
  unfold nameToken
  rw [Word.ofString?_spelling]

/-! ## Marks -/

/-- Only the assignment mark begins an operator of two characters. -/
theorem ofPair?_mark {c : Char} {m : Mark} (hc : Token.ofChar? c = some (.mark m)) {d : Char}
    (h : m = .assign → d ≠ '=') : Token.ofPair? c d = none := by
  unfold Token.ofPair?
  split
  · cases hc
  · cases hc
  · cases hc
    exact absurd rfl (h rfl)
  · cases hc
  · cases hc
  · cases hc
  · rfl

theorem sign_mark {c : Char} {m : Mark} (hc : Token.ofChar? c = some (.mark m)) {cs : List Char}
    (h : m = .assign → cs.head? ≠ some '=') : sign c cs = ⟨.mark m, [c], cs⟩ := by
  unfold sign
  rw [hc]
  cases cs with
  | nil => rfl
  | cons d cs =>
    have hd : m = .assign → d ≠ '=' := fun hm hd => h hm (by rw [hd]; rfl)
    dsimp only
    rw [ofPair?_mark hc hd]
    rfl

/-- A mark is read as such, unless it begins a number or an operator. -/
theorem kinds_mark {m : Mark} (hm : m ≠ .dot) (cs : List Char)
    (h : m = .assign → cs.head? ≠ some '=') :
    kinds (m.spelling.toList ++ cs) = .mark m :: kinds cs := by
  obtain ⟨c, hspell, hc, hclass⟩ : ∃ c, m.spelling.toList = [c] ∧
      Token.ofChar? c = some (.mark m) ∧
      (isSpace c = false ∧ c ≠ '/' ∧ c.isDigit = false ∧ c ≠ '.' ∧ isNameStart c = false ∧
        c ≠ '"') := by
    cases m <;> first | exact absurd rfl hm | exact ⟨_, rfl, rfl, by decide⟩
  obtain ⟨hspace, hslash, hdigit, hdot, hstart, hquote⟩ := hclass
  have hscan : scan c cs = ⟨.mark m, [c], cs⟩ := by
    unfold scan
    rw [if_neg (by simp [hdigit, hdot]), if_neg (by rw [hstart]; decide), if_neg hquote]
    exact sign_mark hc h
  rw [hspell, List.singleton_append, kinds_token hspace hslash, hscan]

end Lexer

end VectorScript
