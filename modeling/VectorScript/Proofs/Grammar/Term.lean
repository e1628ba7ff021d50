import VectorScript.Grammar.Expression
import VectorScript.Proofs.Tree.Typing

/-!
# Expression trees

An expression as a tree of names, literals and operators, before its names are looked up and its
types are checked. `elaborate?` looks the names up and checks every node: there is a checked
expression exactly if all nodes check.

An integer literal may be negative, since a minus directly before an integer belongs to the literal;
a `signed` negation is one of anything else.
-/

namespace VectorScript

inductive Term
  | integer (n : Int)
  | real (x : Float32)
  | text (s : String)
  | name (name : String)
  /-- An operator before its operand. -/
  | signed (op : Operation) (operand : Term)
  /-- An operator between its operands. -/
  | joined (op : Operation) (left right : Term)
  | index (e i : Term)
  | member (e : Term) (field : String)
  /-- The components of a vector or the columns of a matrix. -/
  | components (items : List Term)
  | list (items : List Term)
  | call (function : String) (args : List Term)

/-! ## Nodes -/

namespace Typed

def literal (v : Value) : Typed := ⟨.literal v, v.ty⟩

/-- An integer of 32 bits. -/
def integer? (n : Int) : Option Typed :=
  if Int32.minValue.toInt ≤ n ∧ n ≤ Int32.maxValue.toInt then
    some (literal (.integer (Int32.ofInt n)))
  else none

/-- What a name stands for: a variable or a constant. -/
def named? : Symbol → Option Typed
  | .var v => some ⟨.var v.slot, v.ty⟩
  | .constant v => some (literal v)
  | _ => none

def signed? (op : Operation) (e : Typed) : Option Typed :=
  (op.check e.ty e.ty).toOption.map fun () =>
    ⟨.unary op (Ty.pair? e.ty e.ty) e.expr, op.resultType e.ty e.ty⟩

def joined? (op : Operation) (l r : Typed) : Option Typed :=
  (op.check l.ty r.ty).toOption.map fun () =>
    ⟨.binary op (Ty.pair? l.ty r.ty) l.expr r.expr, op.resultType l.ty r.ty⟩

/-- Arrays are indexed by an instruction of their own. -/
def index? (e i : Typed) : Option Typed :=
  (Operation.take.check e.ty i.ty).toOption.map fun () =>
    match e.ty with
    | .array elem => ⟨.element e.expr i.expr, elem⟩
    | _ => ⟨.binary .take (Ty.pair? e.ty i.ty) e.expr i.expr, Operation.take.resultType e.ty i.ty⟩

def member? (e : Typed) (field : String) : Option Typed :=
  (e.ty.field? field).map fun (place, ty) => ⟨.field e.expr place, ty⟩

/-- Four numbers make a vector, four vectors a matrix. -/
def components? : List Typed → Option Typed
  | [a, b, c, d] =>
    if [a, b, c, d].all fun e => e.ty.isNumeric then
      some ⟨.vector a.expr b.expr c.expr d.expr, .vector⟩
    else if [a, b, c, d].all fun e => e.ty = .vector then
      some ⟨.matrix a.expr b.expr c.expr d.expr, .matrix⟩
    else none
  | _ => none

def list (items : List Typed) : Typed := ⟨.list (items.map (·.expr)), .ofItems (items.map (·.ty))⟩

/-- A call of a host function with as many arguments as it has parameters, each of them assignable
to its own. -/
def call? (args : List Typed) : Symbol → Option Typed
  | .function index f =>
    if Ty.accepts f.params (args.map (·.ty)) then
      some ⟨.call index (args.map (·.expr)), f.ret⟩
    else none
  | _ => none

end Typed

/-! ## Trees -/

namespace Term

section

variable (symbol? : String → Option Symbol)

mutual

/-- The checked expression of a tree, if every node checks. -/
def elaborate? : Term → Option Typed
  | integer n => Typed.integer? n
  | real x => some (.literal (.real x))
  | text s => some (.literal (.text s))
  | name x => do (← symbol? x) |> Typed.named?
  | signed op t => do Typed.signed? op (← elaborate? t)
  | joined op l r => do Typed.joined? op (← elaborate? l) (← elaborate? r)
  | index e i => do Typed.index? (← elaborate? e) (← elaborate? i)
  | member e field => do Typed.member? (← elaborate? e) field
  | components items => do Typed.components? (← elaborateAll? items)
  | list items => return Typed.list (← elaborateAll? items)
  | call f args => do Typed.call? (← elaborateAll? args) (← symbol? f)

def elaborateAll? : List Term → Option (List Typed)
  | [] => some []
  | t :: rest => return (← elaborate? t) :: (← elaborateAll? rest)

end

end

/-! ### When a node checks -/

variable {symbol? : String → Option Symbol} {e : Typed}

-- The equations are derived here, once for all the proofs below.
attribute [local simp] elaborate? elaborateAll?

theorem elaborate?_name {x : String} :
    elaborate? symbol? (name x) = (symbol? x).bind Typed.named? := by
  rw [elaborate?]
  rfl

theorem elaborate?_signed {op : Operation} {t : Term} :
    elaborate? symbol? (signed op t) = some e ↔
      ∃ a, elaborate? symbol? t = some a ∧ Typed.signed? op a = some e := by
  rw [elaborate?]
  exact Option.bind_eq_some_iff

theorem elaborate?_joined {op : Operation} {l r : Term} :
    elaborate? symbol? (joined op l r) = some e ↔
      ∃ a c, elaborate? symbol? l = some a ∧ elaborate? symbol? r = some c ∧
        Typed.joined? op a c = some e := by
  simp only [elaborate?, bind, Option.bind_eq_some_iff, exists_and_left]

theorem elaborate?_index {l i : Term} :
    elaborate? symbol? (index l i) = some e ↔
      ∃ a c, elaborate? symbol? l = some a ∧ elaborate? symbol? i = some c ∧
        Typed.index? a c = some e := by
  simp only [elaborate?, bind, Option.bind_eq_some_iff, exists_and_left]

theorem elaborate?_member {t : Term} {field : String} :
    elaborate? symbol? (member t field) = some e ↔
      ∃ a, elaborate? symbol? t = some a ∧ Typed.member? a field = some e := by
  rw [elaborate?]
  exact Option.bind_eq_some_iff

theorem elaborate?_components {items : List Term} :
    elaborate? symbol? (components items) = some e ↔
      ∃ as, elaborateAll? symbol? items = some as ∧ Typed.components? as = some e := by
  rw [elaborate?]
  exact Option.bind_eq_some_iff

theorem elaborate?_list {items : List Term} :
    elaborate? symbol? (list items) = some e ↔
      ∃ as, elaborateAll? symbol? items = some as ∧ Typed.list as = e := by
  simp only [elaborate?, bind, pure, Option.bind_eq_some_iff, Option.some.injEq]

theorem elaborate?_call {f : String} {args : List Term} :
    elaborate? symbol? (call f args) = some e ↔
      ∃ as symbol, elaborateAll? symbol? args = some as ∧ symbol? f = some symbol ∧
        Typed.call? as symbol = some e := by
  simp only [elaborate?, bind, Option.bind_eq_some_iff, exists_and_left]

theorem elaborateAll?_cons {t : Term} {rest : List Term} {es : List Typed} :
    elaborateAll? symbol? (t :: rest) = some es ↔
      ∃ a as, elaborate? symbol? t = some a ∧ elaborateAll? symbol? rest = some as ∧
        a :: as = es := by
  simp only [elaborateAll?, bind, pure, Option.bind_eq_some_iff, Option.some.injEq,
    exists_and_left]

end Term

end VectorScript
