import VectorScript.Proofs.Token.Spelling

/-!
# Lexemes and what follows them

Where a lexeme ends depends on one character after it at the most, and a blank or the end of the text
may take the place of that character. This is maximal munch, class by class: a number does not go on,
nor does a name, a text literal has been closed or goes up to the end of all, and a sign makes no
operator with what follows.

    scan c (r ++ x) = ⟨t, c :: r, x⟩ → Follows x y → scan c (r ++ y) = ⟨t, c :: r, y⟩   (scan_append)
-/

namespace VectorScript

namespace Lexer

/-! ## What follows a lexeme -/

/-- The second text may take the place of the first one after a lexeme. -/
structure Follows (x y : List Char) : Prop where
  head : y.head? = none ∨ y.head? = some ' ' ∨ y.head? = x.head?
  last : x = [] → y = []

variable {x y : List Char}

/-- A test of the next character that a blank fails has failed as before. -/
theorem Follows.fails (h : Follows x y) {p : Char → Bool} (hp : p ' ' = false)
    (hx : ∀ c ∈ x.head?, p c = false) : ∀ c ∈ y.head?, p c = false := by
  intro c hc
  rcases h.head with hy | hy | hy
  · rw [hy] at hc
    cases hc
  · rw [hy] at hc
    cases hc
    exact hp
  · rw [hy] at hc
    exact hx c hc

/-! ## Numbers -/

/-- The character goes on with a number. -/
def numeral (pointAllowed exponentAllowed : Bool) (c : Char) : Bool :=
  c.isDigit || (c = '.' && pointAllowed) || ((c = 'e' || c = 'E') && exponentAllowed)

theorem splitNumber_of_head {p e : Bool} (hy : ∀ c ∈ y.head?, numeral p e c = false) :
    splitNumber p e y = ([], y) := by
  cases y with
  | nil => rfl
  | cons c y =>
    have hc : numeral p e c = false := hy c rfl
    simp only [numeral, Bool.or_eq_false_iff] at hc
    obtain ⟨⟨hdigit, hpoint⟩, hexponent⟩ := hc
    rw [splitNumber.eq_def]
    simp only [hdigit, hpoint, hexponent]
    rfl

theorem head_of_splitNumber {p e : Bool} (hx : (splitNumber p e x).1 = []) :
    ∀ c ∈ x.head?, numeral p e c = false := by
  cases x with
  | nil => nofun
  | cons c x =>
    rintro _ ⟨⟩
    rw [splitNumber.eq_def] at hx
    dsimp only at hx
    split at hx
    · cases hx
    · split at hx
      · cases hx
      · split at hx
        · split at hx
          · split at hx <;> cases hx
          · cases hx
        · simp_all [numeral]

section

variable {p e : Bool} {c : Char} {s number after : List Char}

theorem splitNumber_digit (hc : c.isDigit = true) (s : List Char) :
    splitNumber p e (c :: s) = (c :: (splitNumber p e s).1, (splitNumber p e s).2) := by
  rw [splitNumber.eq_def]
  dsimp only
  rw [if_pos hc]

theorem splitNumber_point (s : List Char) :
    splitNumber true e ('.' :: s) = ('.' :: (splitNumber false e s).1, (splitNumber false e s).2) := by
  rw [splitNumber.eq_def]
  dsimp only
  rw [if_neg (by decide), if_pos (by decide)]

/-- The sign of an exponent. -/
def isSign (c : Char) : Bool := c = '+' || c = '-'

theorem splitNumber_exponent (hc : c = 'e' ∨ c = 'E') (hs : ∀ d ∈ s.head?, isSign d = false) :
    splitNumber p true (c :: s) = (c :: (splitNumber false false s).1, (splitNumber false false s).2) := by
  rw [splitNumber.eq_def]
  dsimp only
  rw [if_neg (by rcases hc with rfl | rfl <;> decide),
    if_neg (by rcases hc with rfl | rfl <;> simp), if_pos (by simpa using hc)]
  cases s with
  | nil => rfl
  | cons d s =>
    dsimp only
    rw [if_neg (by simpa [isSign] using hs d rfl)]

theorem splitNumber_signed {d : Char} (hc : c = 'e' ∨ c = 'E') (hd : isSign d = true) :
    splitNumber p true (c :: d :: s) =
      (c :: d :: (splitNumber false false s).1, (splitNumber false false s).2) := by
  rw [splitNumber.eq_def]
  dsimp only
  rw [if_neg (by rcases hc with rfl | rfl <;> decide),
    if_neg (by rcases hc with rfl | rfl <;> simp), if_pos (by simpa using hc),
    if_pos (by simpa [isSign] using hd)]

/-- What has been split off behind its first character. -/
theorem split_tail {q : List Char × List Char} (h : (c :: q.1, q.2) = (c :: number, after)) :
    q = (number, after) := by
  cases q
  cases h
  rfl

theorem numeral_cases (h : numeral p e c = true) :
    c.isDigit = true ∨ (c = '.' ∧ p = true) ∨ ((c = 'e' ∨ c = 'E') ∧ e = true) := by
  simpa [numeral, or_assoc] using h

/-- The sign of an exponent belongs to the number. -/
theorem head_of_signed (hc : c = 'e' ∨ c = 'E') (hs : ¬∀ d ∈ (s ++ x).head?, isSign d = false)
    (hx : splitNumber p true (c :: (s ++ x)) = (c :: s, x)) :
    ∃ d t, s = d :: t ∧ isSign d = true := by
  cases s with
  | nil =>
    cases x with
    | nil => exact absurd nofun hs
    | cons d x =>
      have hd : isSign d = true := by simpa using hs
      rw [List.nil_append, splitNumber_signed hc hd] at hx
      cases hx
  | cons d s => exact ⟨d, s, rfl, by simpa using hs⟩

end

/-- A number is split off in the same place whatever takes the place of what followed it. -/
theorem splitNumber_append_of (h : Follows x y) (p e : Bool) (s : List Char)
    (hx : splitNumber p e (s ++ x) = (s, x)) : splitNumber p e (s ++ y) = (s, y) := by
  match s with
  | [] =>
    apply splitNumber_of_head
    refine h.fails (by simp [numeral]) (head_of_splitNumber ?_)
    rw [List.nil_append] at hx
    rw [hx]
  | c :: s =>
    have hc : numeral p e c = true := by
      apply Classical.byContradiction
      intro hc
      rw [splitNumber_of_head (by simpa using hc)] at hx
      cases hx
    rw [List.cons_append] at hx ⊢
    rcases numeral_cases hc with hdigit | ⟨rfl, rfl⟩ | ⟨hexponent, rfl⟩
    · rw [splitNumber_digit hdigit] at hx ⊢
      rw [splitNumber_append_of h p e s (split_tail hx)]
    · rw [splitNumber_point] at hx ⊢
      rw [splitNumber_append_of h false e s (split_tail hx)]
    -- After an exponent a sign belongs to the number, so two characters may go at once.
    · by_cases hsign : ∀ d ∈ (s ++ x).head?, isSign d = false
      · have hsign' : ∀ d ∈ (s ++ y).head?, isSign d = false := by
          cases s with
          | nil => exact h.fails rfl hsign
          | cons d s => exact hsign
        rw [splitNumber_exponent hexponent hsign] at hx
        rw [splitNumber_exponent hexponent hsign',
          splitNumber_append_of h false false s (split_tail hx)]
      · obtain ⟨d, t, hs, hd⟩ := head_of_signed hexponent hsign hx
        rw [hs] at hx ⊢
        rw [List.cons_append, splitNumber_signed hexponent hd] at hx ⊢
        have ht : t.length < (c :: s).length := by
          rw [hs, List.length_cons, List.length_cons]
          omega
        rw [splitNumber_append_of h false false t (split_tail (split_tail (q := (_, _)) hx))]
termination_by s.length

/-! ## Text literals -/

theorem textBody_quote (s : List Char) : textBody ('"' :: s) = ⟨[], true, ['"'], s⟩ := by
  rw [textBody]

theorem textBody_escape (c : Char) (s : List Char) :
    textBody ('\\' :: c :: s) = ⟨unescape c :: (textBody s).content, (textBody s).closed,
      '\\' :: c :: (textBody s).text, (textBody s).rest⟩ := by
  rw [textBody]

theorem textBody_plain {c : Char} (hquote : c ≠ '"') (hescape : c ≠ '\\') (s : List Char) :
    textBody (c :: s) = ⟨c :: (textBody s).content, (textBody s).closed, c :: (textBody s).text,
      (textBody s).rest⟩ := by
  rw [textBody]
  · exact fun h => hquote h
  · exact fun h _ => hescape h
  · exact fun _ _ h _ => hescape h

theorem textBody_text_ne_nil (c : Char) (s : List Char) : (textBody (c :: s)).text ≠ [] := by
  intro h
  have happ := textBody_append (c :: s)
  rw [textBody.eq_def] at h
  split at h
  · next hs => cases hs
  · cases h
  · cases h
  · cases h
  · cases h

/-- In a text literal that is closed a backslash stands before a character of it. -/
theorem exists_escaped {s : List Char} (hclosed : (textBody ('\\' :: (s ++ x))).closed = true)
    (htext : (textBody ('\\' :: (s ++ x))).text = '\\' :: s) : ∃ d t, s = d :: t := by
  cases s with
  | nil =>
    cases x with
    | nil => cases hclosed
    | cons d x =>
      rw [List.nil_append, textBody_escape] at htext
      cases htext
  | cons d t => exact ⟨d, t, rfl⟩

/-- A text literal that is closed ends at its quote, whatever follows. -/
theorem textBody_append_of (s : List Char) (hclosed : (textBody (s ++ x)).closed = true)
    (htext : (textBody (s ++ x)).text = s) :
    textBody (s ++ y) = ⟨(textBody (s ++ x)).content, true, s, y⟩ := by
  match s with
  | [] =>
    cases x with
    | nil => cases hclosed
    | cons c x => exact absurd htext (textBody_text_ne_nil c x)
  | c :: s =>
    rw [List.cons_append] at hclosed htext
    by_cases hquote : c = '"'
    · subst hquote
      rw [textBody_quote] at htext
      cases htext
      rw [List.cons_append, List.cons_append, textBody_quote, textBody_quote]
      rfl
    by_cases hescape : c = '\\'
    · subst hescape
      obtain ⟨d, t, hs⟩ := exists_escaped hclosed htext
      have ht : t.length < ('\\' :: s).length := by
        rw [hs, List.length_cons, List.length_cons]
        omega
      rw [hs, List.cons_append, textBody_escape] at hclosed htext
      rw [hs, List.cons_append, List.cons_append, List.cons_append, List.cons_append,
        textBody_escape, textBody_escape,
        textBody_append_of t hclosed (List.cons.inj (List.cons.inj htext).2).2]
    · rw [textBody_plain hquote hescape] at hclosed htext
      have hs : (textBody (s ++ x)).text = s := (List.cons.inj htext).2
      rw [List.cons_append, List.cons_append, textBody_plain hquote hescape,
        textBody_plain hquote hescape, textBody_append_of s hclosed hs]
termination_by s.length

theorem rest_of_open (s : List Char) (h : (textBody s).closed = false) : (textBody s).rest = [] := by
  fun_induction textBody s with
  | case1 => rfl
  | case2 => cases h
  | case3 => rfl
  | case4 c rest body ih => exact ih h
  | case5 c rest _ _ _ body ih => exact ih h

theorem textLiteral_append_of (h : Follows x y) {r : List Char} {t : Token}
    (hx : textLiteral (r ++ x) = ⟨t, '"' :: r, x⟩) : textLiteral (r ++ y) = ⟨t, '"' :: r, y⟩ := by
  have htext : (textBody (r ++ x)).text = r := (List.cons.inj (congrArg Lexeme.text hx)).2
  have hrest : (textBody (r ++ x)).rest = x := congrArg Lexeme.rest hx
  cases hclosed : (textBody (r ++ x)).closed with
  | true =>
    have htoken : Token.text (String.ofList (textBody (r ++ x)).content) = t := by
      have h := congrArg Lexeme.token hx
      unfold textLiteral at h
      dsimp only at h
      rwa [hclosed] at h
    unfold textLiteral
    rw [textBody_append_of r hclosed htext, ← htoken]
    rfl
  | false =>
    obtain rfl : x = [] := hrest ▸ rest_of_open _ hclosed
    rw [h.last rfl, hx]

/-! ## Names and signs -/

theorem name_append_of (h : Follows x y) {s : List Char} {t : Token}
    (hx : name (s ++ x) = ⟨t, s, x⟩) : name (s ++ y) = ⟨t, s, y⟩ := by
  have htext : (s ++ x).takeWhile isNameChar = s := congrArg Lexeme.text hx
  have hrest : (s ++ x).dropWhile isNameChar = x := congrArg Lexeme.rest hx
  have hall : s.all isNameChar = true := by
    rw [← htext]
    exact List.all_takeWhile
  have hends : NameEnds x := by
    intro c hc
    have hhead := List.head?_dropWhile_not isNameChar (s ++ x)
    rw [hrest, hc] at hhead
    exact hhead
  rw [name_append hall hends] at hx
  rw [name_append hall (h.fails rfl hends)]
  cases hx
  rfl

theorem ofPair?_blank (c : Char) : (Token.ofPair? c ' ').isSome = false := by
  unfold Token.ofPair?
  split <;> first
    | rfl
    | contradiction

/-- What a character stands for that begins no operator of two. -/
theorem sign_alone {c : Char} (hx : ∀ d ∈ x.head?, (Token.ofPair? c d).isSome = false) :
    sign c x = ⟨(Token.ofChar? c).getD (.unknown (String.singleton c)), [c], x⟩ := by
  cases x with
  | nil => rfl
  | cons d x =>
    unfold sign
    dsimp only
    rw [Option.isSome_eq_false_iff.mp (hx d rfl) |> Option.isNone_iff_eq_none.mp]

theorem sign_append_of (h : Follows x y) {c : Char} {r : List Char} {t : Token}
    (hx : sign c (r ++ x) = ⟨t, c :: r, x⟩) : sign c (r ++ y) = ⟨t, c :: r, y⟩ := by
  cases r with
  | nil =>
    -- A sign of one character makes no pair with what followed it.
    have hpair : ∀ d ∈ x.head?, (Token.ofPair? c d).isSome = false := by
      intro d hd
      cases x with
      | nil => cases hd
      | cons d' x =>
        cases hd
        cases hp : Token.ofPair? c d with
        | none => rfl
        | some token =>
          unfold sign at hx
          rw [List.nil_append] at hx
          dsimp only at hx
          rw [hp] at hx
          cases hx
    rw [List.nil_append] at hx ⊢
    rw [sign_alone hpair] at hx
    rw [sign_alone (h.fails (ofPair?_blank c) hpair)]
    cases hx
    rfl
  | cons d r =>
    unfold sign at hx ⊢
    rw [List.cons_append] at hx ⊢
    dsimp only at hx ⊢
    split at hx
    · cases hx
      rfl
    · cases hx

/-! ## Lexemes -/

/-- A number begins at the character. -/
def startsNumber (c : Char) (rest : List Char) : Bool :=
  c.isDigit || (c = '.' && (rest.head?.map Char.isDigit).getD false)

theorem scan_eq (c : Char) (rest : List Char) : scan c rest =
    if startsNumber c rest then number (c :: rest)
    else if isNameStart c then name (c :: rest)
    else if c = '"' then textLiteral rest
    else sign c rest := rfl

/-- Unless it is a digit, the first character of a number is a point before a digit. -/
theorem startsNumber_point {c : Char} (hdigit : c.isDigit = false) (rest : List Char) :
    startsNumber c rest = true ↔ c = '.' ∧ ∃ d ∈ rest.head?, d.isDigit = true := by
  cases rest <;> simp [startsNumber, hdigit]

/-- A number of one character is a digit. -/
theorem isDigit_of_number {c : Char} {t : Token} (hx : number (c :: x) = ⟨t, [c], x⟩)
    (hstart : startsNumber c x = true) : c.isDigit = true := by
  cases hdigit : c.isDigit with
  | true => rfl
  | false =>
    obtain ⟨rfl, d, hd, hdigit⟩ := (startsNumber_point hdigit x).mp hstart
    cases x with
    | nil => cases hd
    | cons d' x =>
      cases hd
      have htext : (splitNumber true true ('.' :: d :: x)).1 = ['.'] := congrArg Lexeme.text hx
      rw [splitNumber_point, splitNumber_digit hdigit] at htext
      cases htext

theorem startsNumber_append {c : Char} {r : List Char} {t : Token} (h : Follows x y)
    (hx : scan c (r ++ x) = ⟨t, c :: r, x⟩) :
    startsNumber c (r ++ y) = startsNumber c (r ++ x) := by
  cases r with
  | cons d r => rfl
  | nil =>
    rw [List.nil_append] at hx ⊢
    rw [List.nil_append]
    cases hdigit : c.isDigit with
    | true => simp [startsNumber, hdigit]
    | false =>
      have hnot : startsNumber c x = false := by
        rw [Bool.eq_false_iff]
        intro hstart
        rw [scan_eq, if_pos hstart] at hx
        rw [isDigit_of_number hx hstart] at hdigit
        cases hdigit
      rw [hnot, Bool.eq_false_iff]
      intro hstart
      obtain ⟨rfl, d, hd, hdigit'⟩ := (startsNumber_point hdigit y).mp hstart
      have hfails : ∀ d ∈ x.head?, d.isDigit = false := by
        intro d hd
        rw [Bool.eq_false_iff]
        intro hdigit'
        rw [(startsNumber_point hdigit x).mpr ⟨rfl, d, hd, hdigit'⟩] at hnot
        cases hnot
      rw [h.fails rfl hfails d hd] at hdigit'
      cases hdigit'

theorem number_append_of (h : Follows x y) {s : List Char} {t : Token}
    (hx : number (s ++ x) = ⟨t, s, x⟩) : number (s ++ y) = ⟨t, s, y⟩ := by
  have hsplit : splitNumber true true (s ++ x) = (s, x) :=
    Prod.ext (congrArg Lexeme.text hx) (congrArg Lexeme.rest hx)
  have htoken : numberToken (splitNumber true true (s ++ x)).1 = t := congrArg Lexeme.token hx
  rw [hsplit] at htoken
  unfold number
  rw [splitNumber_append_of h true true s hsplit, ← htoken]

/-- A lexeme does not depend on the text after it beyond its first character, and a blank or the end
of the text may take the place of it. -/
theorem scan_append {c : Char} {r : List Char} {t : Token} (hx : scan c (r ++ x) = ⟨t, c :: r, x⟩)
    (h : Follows x y) : scan c (r ++ y) = ⟨t, c :: r, y⟩ := by
  have hnumber := startsNumber_append h hx
  rw [scan_eq] at hx ⊢
  rw [hnumber]
  by_cases hstart : startsNumber c (r ++ x) = true
  · rw [if_pos hstart] at hx ⊢
    exact number_append_of h (s := c :: r) hx
  rw [if_neg hstart] at hx ⊢
  by_cases hname : isNameStart c = true
  · rw [if_pos hname] at hx ⊢
    exact name_append_of h (s := c :: r) hx
  rw [if_neg hname] at hx ⊢
  by_cases hquote : c = '"'
  · subst hquote
    exact textLiteral_append_of h hx
  · rw [if_neg hquote] at hx ⊢
    exact sign_append_of h hx

/-! ## Where lexemes begin -/

/-- A lexeme begins at the character: it is no blank and begins no comment. -/
def Begins (c : Char) (rest : List Char) : Prop :=
  isSpace c = false ∧ ¬(c = '/' ∧ rest.head? = some '/')

theorem Begins.splitTrivia {c : Char} {rest : List Char} (h : Begins c rest) :
    splitTrivia false (c :: rest) = ([], c :: rest) :=
  splitTrivia_token (by rw [h.1]; decide) h.2

/-- What trivia leave begins a lexeme. -/
theorem begins_splitTrivia (inComment : Bool) (cs : List Char) {c : Char} {rest : List Char}
    (h : (splitTrivia inComment cs).2 = c :: rest) : Begins c rest := by
  induction cs generalizing inComment with
  | nil => cases h
  | cons d cs ih =>
    rw [splitTrivia.eq_def] at h
    dsimp only at h
    split at h
    · exact ih _ h
    · split at h
      · exact ih _ h
      · split at h
        · exact ih _ h
        · next hspace hslash =>
          cases h
          exact ⟨by simpa using hspace, by simpa using hslash⟩

/-- A slash before another one begins a comment, and it is a lexeme of its own before anything
else, so what follows a lexeme does not make it a comment. -/
theorem Begins.append {c : Char} {r : List Char} {t : Token} (hx : scan c (r ++ x) = ⟨t, c :: r, x⟩)
    (h : Follows x y) (hbegins : Begins c (r ++ x)) : Begins c (r ++ y) := by
  refine ⟨hbegins.1, ?_⟩
  rintro ⟨rfl, hhead⟩
  cases r with
  | cons d r => exact hbegins.2 ⟨rfl, hhead⟩
  | nil =>
    have hslash : ∀ d ∈ x.head?, (d == '/') = false := by
      intro d hd
      rw [beq_eq_false_iff_ne]
      rintro rfl
      exact hbegins.2 ⟨rfl, hd⟩
    have := h.fails (p := (· == '/')) rfl hslash '/' hhead
    cases this

/-- The tokens of a text that begins with a lexeme. -/
theorem kinds_of_begins {c : Char} {rest : List Char} (h : Begins c rest) :
    kinds (c :: rest) = (scan c rest).token :: kinds (scan c rest).rest :=
  kinds_of_token (congrArg Prod.snd h.splitTrivia)

end Lexer

end VectorScript
