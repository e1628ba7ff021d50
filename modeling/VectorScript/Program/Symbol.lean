import VectorScript.Host.Function
import VectorScript.NameMap
import VectorScript.Store.Shared

/-!
# Symbols

What a name stands for in a script: a variable in a slot, a host function by its index, a type or a
constant. `Globals` holds the names that the host gives to every script. A function keeps its index
for good; one registered again under its name takes the old one's place.
-/

namespace VectorScript

/-- A variable of a program. -/
structure Variable where
  ty : Ty
  slot : Nat
  /-- The entry of a shared or imported variable. -/
  shared : Option SharedId
  imported : Bool

inductive Symbol
  | var (v : Variable)
  | function (index : Nat) (f : HostFunction)
  | typedef (ty : Ty)
  | constant (v : Value)

/-- The type of what a symbol denotes; of a function, the type of its result. -/
def Symbol.ty : Symbol → Ty
  | var v => v.ty
  | function _ f => f.ret
  | typedef ty => ty
  | constant v => v.ty

/-- A symbol in short: its kind and what identifies it. -/
def Symbol.render : Symbol → String
  | var v => "Variable(" ++ v.ty.render ++ ")"
  | function index f => "Function(" ++ toString index ++ ", " ++ f.name ++ ")"
  | typedef ty => "Typedef(" ++ ty.render ++ ")"
  | constant v => "Constant(" ++ v.render ++ ")"

/-! ## Names of the host -/

structure Globals where
  symbols : NameMap Symbol
  functions : List HostFunction
  shared : NameMap SharedId

namespace Globals

def empty : Globals := ⟨.empty, [], .empty⟩

/-- Every name, those of symbols before those of shared variables. -/
def names (g : Globals) : List String := g.symbols.names ++ g.shared.names

def contains (g : Globals) (name : String) : Bool :=
  g.symbols.contains name || g.shared.contains name

/-- Adds a function, or replaces the one that has its name. -/
def addFunction (g : Globals) (f : HostFunction) : Globals :=
  match g.symbols.get? f.name with
  | some (.function index _) =>
    { g with functions := g.functions.set index f,
             symbols := g.symbols.insert f.name (.function index f) }
  | _ =>
    { g with functions := g.functions ++ [f],
             symbols := g.symbols.insert f.name (.function g.functions.length f) }

def addConstant (g : Globals) (name : String) (v : Value) : Globals :=
  { g with symbols := g.symbols.insert name (.constant v) }

def addTypedef (g : Globals) (name : String) (ty : Ty) : Globals :=
  { g with symbols := g.symbols.insert name (.typedef ty) }

def addShared (g : Globals) (name : String) (id : SharedId) : Globals :=
  { g with shared := g.shared.insert name id }

end Globals

end VectorScript
