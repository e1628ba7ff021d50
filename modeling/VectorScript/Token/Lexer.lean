import VectorScript.Decimal.Reading
import VectorScript.Text.Position
import VectorScript.Token.Basic

/-!
# From text to tokens

A lexeme is the longest text that the first character allows: a number, a text literal, a word, an
operator of two characters before one of a single character, and else one unknown character. Blanks
and line comments between lexemes are trivia. `tokens` tags every token with its position, and
`endPosition` is the place after the last character.

    (scan c cs).text ++ (scan c cs).rest = c :: cs                    (scan_text_append_rest)
    (splitTrivia false cs).1 ++ (splitTrivia false cs).2 = cs         (splitTrivia_append)
-/

namespace VectorScript.Lexer

/-! ## Character classes -/

def isSpace (c : Char) : Bool := c = ' ' || c = '\t' || c = '\r' || c = '\n'

/-- ASCII letters and the underscore. -/
def isNameStart (c : Char) : Bool := c.isAlpha || c = '_'

/-- ASCII letters, digits and the underscore. -/
def isNameChar (c : Char) : Bool := isNameStart c || c.isDigit

/-! ## Trivia -/

/-- Splits off leading blanks and comments; within a comment everything up to and including the
line feed goes. -/
def splitTrivia (inComment : Bool) : List Char → List Char × List Char
  | [] => ([], [])
  | c :: rest =>
    if inComment then
      let (trivia, after) := splitTrivia (c != '\n') rest
      (c :: trivia, after)
    else if isSpace c then
      let (trivia, after) := splitTrivia false rest
      (c :: trivia, after)
    else if c = '/' && rest.head? = some '/' then
      let (trivia, after) := splitTrivia true rest
      (c :: trivia, after)
    else ([], c :: rest)

/-! ## Lexemes -/

/-- A token, the text it was read from, and the text that follows. -/
structure Lexeme where
  token : Token
  text : List Char
  rest : List Char

/-- Splits off the characters of a number: digits, one point before the exponent, one exponent
letter with an optional sign. -/
def splitNumber (pointAllowed exponentAllowed : Bool) : List Char → List Char × List Char
  | [] => ([], [])
  | c :: rest =>
    if c.isDigit then
      let (number, after) := splitNumber pointAllowed exponentAllowed rest
      (c :: number, after)
    else if c = '.' && pointAllowed then
      let (number, after) := splitNumber false exponentAllowed rest
      (c :: number, after)
    else if (c = 'e' || c = 'E') && exponentAllowed then
      match rest with
      | sign :: rest' =>
        if sign = '+' || sign = '-' then
          let (number, after) := splitNumber false false rest'
          (c :: sign :: number, after)
        else
          let (number, after) := splitNumber false false (sign :: rest')
          (c :: number, after)
      | [] => ([c], [])
    else ([], c :: rest)

/-- The largest integer that a token can hold, of 63 bits. -/
def maxInteger : Nat := 9223372036854775807

/-- The token of a number's text: an integer when it is digits only. -/
def numberToken (text : List Char) : Token :=
  if text.all Char.isDigit then
    let n := Decimal.natural text
    if n ≤ maxInteger then .integer n else .unknown (String.ofList text)
  else match Decimal.number? text with
    | some x => .real x
    | none => .unknown (String.ofList text)

def number (cs : List Char) : Lexeme :=
  let (text, rest) := splitNumber true true cs
  ⟨numberToken text, text, rest⟩

/-- The body of a text literal after its opening quote. -/
structure TextBody where
  content : List Char
  closed : Bool
  text : List Char
  rest : List Char

/-- What a character after a backslash stands for. -/
def unescape (c : Char) : Char := if c = 'n' then '\n' else if c = 't' then '\t' else c

def textBody : List Char → TextBody
  | [] => ⟨[], false, [], []⟩
  | '"' :: rest => ⟨[], true, ['"'], rest⟩
  | '\\' :: [] => ⟨[], false, ['\\'], []⟩
  | '\\' :: c :: rest =>
    let body := textBody rest
    ⟨unescape c :: body.content, body.closed, '\\' :: c :: body.text, body.rest⟩
  | c :: rest =>
    let body := textBody rest
    ⟨c :: body.content, body.closed, c :: body.text, body.rest⟩

/-- A text literal; one that is not closed is an unknown token with its quote. -/
def textLiteral (cs : List Char) : Lexeme :=
  let body := textBody cs
  let token := if body.closed then Token.text (String.ofList body.content)
    else .unknown (String.ofList ('"' :: body.content))
  ⟨token, '"' :: body.text, body.rest⟩

/-- A keyword or an identifier. -/
def name (cs : List Char) : Lexeme :=
  let text := cs.takeWhile isNameChar
  let spelling := String.ofList text
  let token := match Word.ofString? spelling with
    | some w => Token.word w
    | none => .ident spelling
  ⟨token, text, cs.dropWhile isNameChar⟩

/-- An operator, a mark or an unknown character. -/
def sign (c : Char) (rest : List Char) : Lexeme :=
  let alone : Lexeme := ⟨(Token.ofChar? c).getD (.unknown (String.singleton c)), [c], rest⟩
  match rest with
  | [] => alone
  | d :: rest' =>
    match Token.ofPair? c d with
    | some token => ⟨token, [c, d], rest'⟩
    | none => alone

/-- The lexeme that starts with the given character. -/
def scan (c : Char) (rest : List Char) : Lexeme :=
  if c.isDigit || (c = '.' && (rest.head?.map Char.isDigit).getD false) then number (c :: rest)
  else if isNameStart c then name (c :: rest)
  else if c = '"' then textLiteral rest
  else sign c rest

/-! ## Nothing is lost -/

theorem splitTrivia_append (inComment : Bool) (cs : List Char) :
    (splitTrivia inComment cs).1 ++ (splitTrivia inComment cs).2 = cs := by
  induction cs generalizing inComment with
  | nil => simp [splitTrivia]
  | cons c rest ih =>
    rw [splitTrivia]
    split
    · simp [ih]
    · split
      · simp [ih]
      · split <;> simp [ih]

theorem splitNumber_append (p e : Bool) (cs : List Char) :
    (splitNumber p e cs).1 ++ (splitNumber p e cs).2 = cs := by
  fun_induction splitNumber p e cs <;> simp_all

theorem splitNumber_ne_nil {c : Char} {rest : List Char} (h : c.isDigit ∨ c = '.') :
    (splitNumber true true (c :: rest)).1 ≠ [] := by
  rw [splitNumber.eq_def]
  rcases h with h | rfl <;> simp [*]

theorem textBody_append (cs : List Char) : (textBody cs).text ++ (textBody cs).rest = cs := by
  fun_induction textBody cs with
  | case1 | case2 | case3 => rfl
  | case4 c rest body ih => simpa using ih
  | case5 c rest _ _ _ body ih => simpa using ih

theorem scan_text_append_rest (c : Char) (rest : List Char) :
    (scan c rest).text ++ (scan c rest).rest = c :: rest := by
  unfold scan
  split
  · exact splitNumber_append true true (c :: rest)
  · split
    · simp [name]
    · split
      · rename_i h
        simp [textLiteral, textBody_append, h]
      · unfold sign
        split
        · simp
        · split <;> simp

theorem scan_text_ne_nil (c : Char) (rest : List Char) : (scan c rest).text ≠ [] := by
  unfold scan
  split
  · rename_i h
    refine splitNumber_ne_nil ?_
    simp only [Bool.or_eq_true, Bool.and_eq_true, decide_eq_true_eq] at h
    exact h.imp id And.left
  · split
    · rename_i h
      simp [name, isNameChar, h]
    · split
      · simp [textLiteral]
      · unfold sign
        split
        · simp
        · split <;> simp

theorem length_scan_rest (c : Char) (rest : List Char) :
    (scan c rest).rest.length < (c :: rest).length := by
  have happ := congrArg List.length (scan_text_append_rest c rest)
  have hne := List.length_pos_iff.2 (scan_text_ne_nil c rest)
  simp only [List.length_append] at happ
  omega

theorem length_splitTrivia (inComment : Bool) (cs : List Char) :
    (splitTrivia inComment cs).2.length ≤ cs.length := by
  have := congrArg List.length (splitTrivia_append inComment cs)
  simp only [List.length_append] at this
  omega

/-! ## Positioned tokens -/

/-- How many bytes a text takes. -/
def utf8Length : List Char → Nat
  | [] => 0
  | c :: rest => c.utf8Size + utf8Length rest

/-- The tokens from a cursor on. -/
def tokensFrom (cursor : Cursor) (cs : List Char) : List (Token × Position) :=
  match h : (splitTrivia false cs).2 with
  | [] => []
  | c :: rest =>
    let start := cursor.advance (splitTrivia false cs).1
    let lexeme := scan c rest
    have : lexeme.rest.length < cs.length :=
      Nat.lt_of_lt_of_le (length_scan_rest c rest) (h ▸ length_splitTrivia false cs)
    (lexeme.token, start.position (utf8Length lexeme.text))
      :: tokensFrom (start.advance lexeme.text) lexeme.rest
termination_by cs.length

/-- The tokens of a text with their positions. -/
def tokens (source : String) : List (Token × Position) := tokensFrom .start source.toList

/-- The place after the last character of a text. -/
def endPosition (source : String) : Position :=
  (Cursor.start.advance source.toList).position 0

end VectorScript.Lexer
