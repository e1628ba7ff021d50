import VectorScript.Host.Function

/-!
# The function library

The functions that every workspace starts with: real functions, constructors of vectors and
matrices, transforms, products, a source of random numbers, and `dispatch`, which runs another
script.
-/

namespace VectorScript.Library

/-- The argument at a place. -/
def arg (args : List Value) (i : Nat) : Value := args.getD i (.list [])

def failed (name reason : String) : Fault := (Fault.about .hostFailure name).because reason

/-! ## Shapes of functions -/

def realFunction (name : String) (f : Float32 → Float32) : HostFunction :=
  .ofResult name [.real] .real fun args => return .real (f (← (arg args 0).asReal))

/-! ## Functions that can fail -/

def rotation (args : List Value) : Except Fault Value := do
  let degrees ← (arg args 0).asReal
  let axis := (← (arg args 1).asVector).xyz
  if axis.norm == 0 then throw (failed "rotation" "zero length axis")
  return .matrix (.rotation degrees axis)

/-- Divides the first three components by their length and keeps the fourth. -/
def normalize (args : List Value) : Except Fault Value := do
  let v ← (arg args 0).asVector
  let n := v.xyz.norm
  if n == 0 then throw (failed "normalize" "zero length vector")
  return .vector ⟨v.x / n, v.y / n, v.z / n, v.w⟩

def reflection (args : List Value) : Except Fault Value := do
  let n := (← (arg args 0).asVector).xyz
  let p := (← (arg args 1).asVector).xyz
  if n.norm == 0 then throw (failed "reflection" "zero length normal")
  return .matrix (.reflection n p)

def inverse (args : List Value) : Except Fault Value := do
  match (← (arg args 0).asMatrix).inverse? with
  | some m => return .matrix m
  | none => throw (failed "inverse" "singular matrix")

/-! ## Constructors and products -/

def vec (args : List Value) : Except Fault Value := do
  return .vector ⟨← (arg args 0).asReal, ← (arg args 1).asReal, ← (arg args 2).asReal,
    ← (arg args 3).asReal⟩

def mat (args : List Value) : Except Fault Value := do
  return .matrix ⟨← (arg args 0).asVector, ← (arg args 1).asVector, ← (arg args 2).asVector,
    ← (arg args 3).asVector⟩

def shifting (args : List Value) : Except Fault Value := do
  return .matrix (.shifting (← (arg args 0).asVector).xyz)

def scaling (args : List Value) : Except Fault Value := do
  return .matrix (.scaling ⟨← (arg args 0).asReal, ← (arg args 1).asReal, ← (arg args 2).asReal⟩)

def normalTransform (args : List Value) : Except Fault Value := do
  return .matrix (← (arg args 0).asMatrix).normalTransform

def length (args : List Value) : Except Fault Value := do
  return .real (← (arg args 0).asVector).xyz.norm

def dot (args : List Value) : Except Fault Value := do
  return .real ((← (arg args 0).asVector).xyz.dot (← (arg args 1).asVector).xyz)

def cross (args : List Value) : Except Fault Value := do
  let c := (← (arg args 0).asVector).xyz.cross (← (arg args 1).asVector).xyz
  return .vector (.ofDirection c)

def transpose (args : List Value) : Except Fault Value := do
  return .matrix (← (arg args 0).asMatrix).transpose

/-! ## Services -/

/-- The name by which scripts run each other. -/
def dispatchName : String := "dispatch"

/-- Runs the script that the argument names and yields zero. -/
def dispatch : HostFunction where
  name := dispatchName
  params := [.text]
  ret := .integer
  body args :=
    match (arg args 0).asText with
    | .error e => .done (.error e)
    | .ok script => .dispatch script fun outcome => .done (outcome.map fun () => .integer 0)

def random : HostFunction where
  name := "random"
  params := []
  ret := .real
  body _ := .random fun x => .done (.ok (.real x))

/-! ## The list -/

def functions : List HostFunction :=
  [realFunction "sin" Float32.sin,
   realFunction "cos" Float32.cos,
   realFunction "tan" Float32.tan,
   realFunction "asin" Float32.asin,
   realFunction "acos" Float32.acos,
   realFunction "atan" Float32.atan,
   realFunction "exp" Float32.exp,
   realFunction "log" Float32.log,
   realFunction "log10" Float32.log10,
   realFunction "sqrt" Float32.sqrt,
   realFunction "abs" Float32.abs,
   realFunction "ceil" Float32.ceil,
   realFunction "floor" Float32.floor,
   realFunction "sinh" Float32.sinh,
   realFunction "cosh" Float32.cosh,
   realFunction "tanh" Float32.tanh,
   .ofResult "vec" [.real, .real, .real, .real] .vector vec,
   .ofResult "mat" [.vector, .vector, .vector, .vector] .matrix mat,
   .ofResult "rotation" [.real, .vector] .matrix rotation,
   .ofResult "translation" [.vector] .matrix shifting,
   .ofResult "scaling" [.real, .real, .real] .matrix scaling,
   .ofResult "normalize" [.vector] .vector normalize,
   .ofResult "normal_transform" [.matrix] .matrix normalTransform,
   .ofResult "reflection" [.vector, .vector] .matrix reflection,
   .ofResult "length" [.vector] .real length,
   .ofResult "dot" [.vector, .vector] .real dot,
   .ofResult "cross" [.vector, .vector] .vector cross,
   .ofResult "transpose" [.matrix] .matrix transpose,
   .ofResult "inverse" [.matrix] .matrix inverse,
   random,
   dispatch]

end VectorScript.Library
