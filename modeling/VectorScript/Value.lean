import VectorScript.Decimal.RealText
import VectorScript.Fault
import VectorScript.Geometry.Matrix
import VectorScript.Text.Quoted
import VectorScript.Ty

/-!
# Values

What expressions evaluate to. Arrays and records are both lists here; the static type says which
one a list is. The empty list is the null value, which resets whatever it is stored in.
-/

namespace VectorScript

inductive Value
  | integer (n : Int32)
  | real (x : Float32)
  | vector (v : Vec4)
  | matrix (m : Mat4)
  | text (s : String)
  | list (items : List Value)
  deriving Inhabited

namespace Value

def isNull : Value → Bool
  | list [] => true
  | _ => false

/-! ## Views -/

def mismatch (expected : String) : Fault := .internal ("expected " ++ expected ++ " value")

def asInteger : Value → Except Fault Int32
  | integer n => .ok n
  | _ => .error (mismatch "integer")

/-- The real nearest to an integer. -/
def widen (n : Int32) : Float32 := Float32.ofInt n.toInt

/-- Integers widen to reals. -/
def asReal : Value → Except Fault Float32
  | integer n => .ok (widen n)
  | real x => .ok x
  | _ => .error (mismatch "real")

def asVector : Value → Except Fault Vec4
  | vector v => .ok v
  | _ => .error (mismatch "vector")

def asMatrix : Value → Except Fault Mat4
  | matrix m => .ok m
  | _ => .error (mismatch "matrix")

def asText : Value → Except Fault String
  | text s => .ok s
  | _ => .error (mismatch "text")

def asList : Value → Except Fault (List Value)
  | list items => .ok items
  | _ => .error (mismatch "list")

/-! ## Static type -/

mutual

/-- The type of a value on its own: a list that is not empty has a record type. -/
def ty : Value → Ty
  | integer _ => .integer
  | real _ => .real
  | vector _ => .vector
  | matrix _ => .matrix
  | text _ => .text
  | list [] => .null
  | list (item :: rest) => .ofList (ty item :: tys rest)

def tys : List Value → List Ty
  | [] => []
  | v :: rest => ty v :: tys rest

end

/-! ## Text -/

def renderVector (v : Vec4) : String :=
  "[" ++ ", ".intercalate (v.toList.map Decimal.plain.render) ++ "]"

mutual

/-- Texts are quoted, vectors and matrices stand in brackets, lists in braces. -/
def render : Value → String
  | integer n => toString n.toInt
  | real x => Decimal.plain.render x
  | vector v => renderVector v
  | matrix m => "[" ++ ", ".intercalate (m.columns.map renderVector) ++ "]"
  | text s => Text.quoted s
  | list items => "\x7b" ++ ", ".intercalate (renderAll items) ++ "\x7d"

def renderAll : List Value → List String
  | [] => []
  | v :: rest => render v :: renderAll rest

end

end Value

end VectorScript
