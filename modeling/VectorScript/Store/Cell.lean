import VectorScript.Value

/-!
# Cells

The storage of a variable. A cell keeps the shape of its type: a list grows up to `maxItems` items
made from its template, a record has a cell per field. Paths of indices lead into list items,
record fields, matrix columns and components. A store that fails part of the way may leave what it
had done, so `set` returns the cell in every case.
-/

namespace VectorScript

inductive Cell
  | integer (n : Int32)
  | real (x : Float32)
  | text (s : String)
  | vector (v : Vec4)
  | matrix (m : Mat4)
  | list (template : Cell) (items : List Cell)
  | record (fields : List Cell)
  deriving Inhabited

namespace Cell

/-- The most items a list may have. -/
def maxItems : Nat := 65536

/-! ## Creation and reading -/

mutual

/-- A fresh cell of a type. A list starts with one item. -/
def create : Ty → Cell
  | .integer => integer 0
  | .real => real 0
  | .text => text ""
  | .vector => vector .zero
  | .matrix => matrix .identity
  | .array elem => list (create elem) [create elem]
  | .record fields => record (createAll fields)
  | .null | .selector _ => record []

def createAll : List (String × Ty) → List Cell
  | [] => []
  | (_, t) :: rest => create t :: createAll rest

end

mutual

/-- The value a cell holds. -/
def value : Cell → Value
  | integer n => .integer n
  | real x => .real x
  | text s => .text s
  | vector v => .vector v
  | matrix m => .matrix m
  | list _ items => .list (values items)
  | record fields => .list (values fields)

def values : List Cell → List Value
  | [] => []
  | c :: rest => value c :: values rest

end

/-- A fault about a place that a variable does not have. -/
def outOfBounds (detail : String) : Fault := (Fault.of .outOfBounds).because detail

/-- An index below a length. -/
def checkIndex (i : Int32) (len : Nat) : Except Fault (Fin len) :=
  let n := i.toInt.toNat
  if h : 0 ≤ i.toInt ∧ n < len then .ok ⟨n, h.2⟩
  else .error (outOfBounds ("index " ++ toString i.toInt ++ " of " ++ toString len))

def pathTooLong : Fault := .of .pathTooLong

/-- Reads a component of a vector along the rest of a path. -/
def getVector (v : Vec4) (i : Int32) (rest : List Int32) : Except Fault Value :=
  match rest with
  | [] => (checkIndex i 4).map fun i => .real (v.get i)
  | _ :: _ => .error pathTooLong

/-- Reads a column or an element of a matrix. -/
def getMatrix (m : Mat4) (i : Int32) (rest : List Int32) : Except Fault Value := do
  let col ← checkIndex i 4
  match rest with
  | [] => return .vector (m.get col)
  | [row] => return .real ((m.get col).get (← checkIndex row 4))
  | _ => throw pathTooLong

/-- The value at a path. -/
def get (c : Cell) (path : List Int32) : Except Fault Value :=
  match path, c with
  | [], c => .ok c.value
  | i :: rest, vector v => getVector v i rest
  | i :: rest, matrix m => getMatrix m i rest
  | i :: rest, list _ items => do (items.get (← checkIndex i items.length)).get rest
  | i :: rest, record fields => do (fields.get (← checkIndex i fields.length)).get rest
  | _ :: _, _ => .error pathTooLong

/-! ## Whole values -/

mutual

/-- Resets a cell: a list becomes empty, a record keeps its fields. -/
def clear : Cell → Cell
  | integer _ => integer 0
  | real _ => real 0
  | text _ => text ""
  | vector _ => vector .zero
  | matrix _ => matrix .identity
  | list template _ => list template []
  | record fields => record (clearAll fields)

def clearAll : List Cell → List Cell
  | [] => []
  | c :: rest => clear c :: clearAll rest

end

/-- A cell after an attempted store, and how the attempt went. -/
abbrev Stored (α : Type) := Except Fault Unit × α

/-- The cell made by a step that may fail and then changes nothing. -/
def storing (old : Cell) (new : Except Fault Cell) : Stored Cell :=
  match new with
  | .ok c => (.ok (), c)
  | .error e => (.error e, old)

mutual

/-- Stores a value that is not null in a cell: integers widen to reals, lists are taken item by
item. The items of a list are built before the old ones go; the fields of a record are stored one
after the other. -/
def assignValue (c : Cell) (v : Value) : Stored Cell :=
  match v, c with
  | .list vs, list template items =>
    if vs.length > maxItems then
      (.error (outOfBounds ("list of " ++ toString vs.length)), list template items)
    else storing (list template items) ((buildItems template vs).map (list template))
  | .list vs, record fields =>
    if vs.length = fields.length then
      let (outcome, fields) := assignFields fields vs
      (outcome, record fields)
    else (.error (.internal "record shape mismatch"), record fields)
  | _, list template items => (.error (.internal "expected list value"), list template items)
  | _, record fields => (.error (.internal "record shape mismatch"), record fields)
  | v, integer n => storing (integer n) (v.asInteger.map integer)
  | v, real x => storing (real x) (v.asReal.map real)
  | v, text s => storing (text s) (v.asText.map text)
  | v, vector w => storing (vector w) (v.asVector.map vector)
  | v, matrix m => storing (matrix m) (v.asMatrix.map matrix)

/-- The items of a list, each stored in a fresh copy of the template. -/
def buildItems (template : Cell) : List Value → Except Fault (List Cell)
  | [] => .ok []
  | v :: rest =>
    match if v.isNull then (.ok (), template.clear) else assignValue template v with
    | (.ok (), c) => (buildItems template rest).map (c :: ·)
    | (.error e, _) => .error e

/-- Stores values in the fields of a record up to the first that fails. -/
def assignFields (fields : List Cell) (vs : List Value) : Stored (List Cell) :=
  match vs, fields with
  | v :: vs, c :: fields =>
    match if v.isNull then (.ok (), c.clear) else assignValue c v with
    | (.ok (), c) =>
      let (outcome, fields) := assignFields fields vs
      (outcome, c :: fields)
    | (.error e, c) => (.error e, c :: fields)
  | _, fields => (.ok (), fields)

end

/-- Stores a whole value; null resets the cell. -/
def assign (c : Cell) (v : Value) : Stored Cell :=
  if v.isNull then (.ok (), c.clear) else c.assignValue v

/-! ## Paths -/

/-- Stores a component of a vector. The value is looked at before the index. -/
def setVector (w : Vec4) (v : Value) (i : Int32) (rest : List Int32) : Except Fault Vec4 :=
  match rest with
  | [] => do
    let x ← v.asReal
    return w.set (← checkIndex i 4) x
  | _ :: _ => .error pathTooLong

/-- Stores a column or an element of a matrix. -/
def setMatrix (m : Mat4) (v : Value) (i : Int32) (rest : List Int32) : Except Fault Mat4 := do
  let col ← checkIndex i 4
  match rest with
  | [] => return m.set col (← v.asVector)
  | [row] => do
    let x ← v.asReal
    return m.set col ((m.get col).set (← checkIndex row 4) x)
  | _ => throw pathTooLong

/-- Lengthens a list with copies of the template until it has an item at an index. -/
def grow (template : Cell) (items : List Cell) (i : Nat) : List Cell :=
  items ++ List.replicate (i + 1 - items.length) template

/-- Stores a value at a path. A list grows to reach the index. -/
def set (c : Cell) (v : Value) (path : List Int32) : Stored Cell :=
  match path, c with
  | [], c => c.assign v
  | i :: rest, vector w => storing (vector w) ((setVector w v i rest).map vector)
  | i :: rest, matrix m => storing (matrix m) ((setMatrix m v i rest).map matrix)
  | i :: rest, list template items =>
    match checkIndex i maxItems with
    | .error e => (.error e, list template items)
    | .ok i =>
      let items := grow template items i
      let (outcome, item) := (items.getD i template).set v rest
      (outcome, list template (items.set i item))
  | i :: rest, record fields =>
    match checkIndex i fields.length with
    | .error e => (.error e, record fields)
    | .ok i =>
      let (outcome, field) := (fields.get i).set v rest
      (outcome, record (fields.set i field))
  | _ :: _, c => (.error pathTooLong, c)

end Cell

end VectorScript
