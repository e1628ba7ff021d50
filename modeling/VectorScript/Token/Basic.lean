import VectorScript.Decimal.RealText
import VectorScript.Text.Quoted

/-!
# Tokens

The words of the language, its operators and punctuation, and the tokens that a source text is made
of. Every operator, punctuation mark and keyword has one spelling.

    Word.ofString? w.spelling = some w                                (ofString?_spelling)
-/

namespace VectorScript

/-! ## Keywords -/

inductive Word
  | constWord | elseWord | fromWord | ifWord | importWord | recordWord | sharedWord | typeWord
  | whenWord
  deriving DecidableEq, Repr

namespace Word

/-- Every keyword, in the order of their spellings. -/
def all : List Word :=
  [constWord, elseWord, fromWord, ifWord, importWord, recordWord, sharedWord, typeWord, whenWord]

def spelling : Word → String
  | constWord => "const"
  | elseWord => "else"
  | fromWord => "from"
  | ifWord => "if"
  | importWord => "import"
  | recordWord => "record"
  | sharedWord => "shared"
  | typeWord => "type"
  | whenWord => "when"

def ofString? (s : String) : Option Word := all.find? fun w => w.spelling = s

theorem ofString?_spelling (w : Word) : ofString? w.spelling = some w := by
  cases w <;> decide

end Word

/-! ## Operators and punctuation -/

inductive Operator
  | plus | minus | star | slash | less | greater | lessEqual | greaterEqual | equal | notEqual
  | andAnd | orOr | and | or | bang
  deriving DecidableEq, Repr

def Operator.spelling : Operator → String
  | plus => "+"
  | minus => "-"
  | star => "*"
  | slash => "/"
  | less => "<"
  | greater => ">"
  | lessEqual => "<="
  | greaterEqual => ">="
  | equal => "=="
  | notEqual => "!="
  | andAnd => "&&"
  | orOr => "||"
  | and => "&"
  | or => "|"
  | bang => "!"

inductive Mark
  | leftParen | rightParen | leftBracket | rightBracket | leftBrace | rightBrace
  | comma | colon | semicolon | dot | assign
  deriving DecidableEq, Repr

def Mark.spelling : Mark → String
  | leftParen => "("
  | rightParen => ")"
  | leftBracket => "["
  | rightBracket => "]"
  | leftBrace => "\x7b"
  | rightBrace => "\x7d"
  | comma => ","
  | colon => ":"
  | semicolon => ";"
  | dot => "."
  | assign => "="

/-! ## Tokens -/

inductive Token
  /-- Text that is no token of the language: a bad number, an unclosed text, a foreign character. -/
  | unknown (text : String)
  | ident (name : String)
  /-- A magnitude; a minus before it is a token of its own. -/
  | integer (magnitude : Nat)
  | real (x : Float32)
  | text (content : String)
  | word (w : Word)
  | operator (op : Operator)
  | mark (m : Mark)
  deriving DecidableEq

namespace Token

instance : Inhabited Token := ⟨unknown ""⟩

/-- The token as messages show it. -/
def render : Token → String
  | unknown s => s
  | ident s => s
  | integer n => toString n
  | real x => Decimal.literal.render x
  | text s => Text.quoted s
  | word w => w.spelling
  | operator op => op.spelling
  | mark m => m.spelling

/-- The operator or mark that a character spells alone. -/
def ofChar? : Char → Option Token
  | '(' => some (mark .leftParen)
  | ')' => some (mark .rightParen)
  | '[' => some (mark .leftBracket)
  | ']' => some (mark .rightBracket)
  | '{' => some (mark .leftBrace)
  | '}' => some (mark .rightBrace)
  | ',' => some (mark .comma)
  | ':' => some (mark .colon)
  | ';' => some (mark .semicolon)
  | '.' => some (mark .dot)
  | '=' => some (mark .assign)
  | '+' => some (operator .plus)
  | '-' => some (operator .minus)
  | '*' => some (operator .star)
  | '/' => some (operator .slash)
  | '<' => some (operator .less)
  | '>' => some (operator .greater)
  | '&' => some (operator .and)
  | '|' => some (operator .or)
  | '!' => some (operator .bang)
  | _ => none

/-- The operator that two characters spell together. -/
def ofPair? : Char → Char → Option Token
  | '<', '=' => some (operator .lessEqual)
  | '>', '=' => some (operator .greaterEqual)
  | '=', '=' => some (operator .equal)
  | '!', '=' => some (operator .notEqual)
  | '&', '&' => some (operator .andAnd)
  | '|', '|' => some (operator .orOr)
  | _, _ => none

/-- The operator or mark of a spelling. -/
def ofSpelling? (s : String) : Option Token :=
  match s.toList with
  | [c] => ofChar? c
  | [c, d] => ofPair? c d
  | _ => none

end Token

end VectorScript
