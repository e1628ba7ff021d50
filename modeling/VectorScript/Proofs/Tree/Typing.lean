import VectorScript.Host.Function
import VectorScript.Proofs.Tree.Code
import VectorScript.Store.Memory

/-!
# Types of trees

The static type of an expression, as a judgement on trees. A signature gives the types of the
variables by slot and the host functions by index. A tree that has a type carries at each operator
the types of its operands. What has a type in a signature has it in every larger one.
-/

namespace VectorScript

/-- What the expressions of a script may refer to. -/
structure Signature where
  slot : Nat → Option Ty
  functions : List HostFunction

/-- The type of what a slot holds. -/
def Slot.ty? (table : SharedTable) : Slot → Option Ty
  | .local ty => some ty
  | .shared id => (table.get? id).map (·.ty)

namespace Signature

/-- The signature of a script with the given slots. -/
def ofSlots (slots : List Slot) (table : SharedTable) (functions : List HostFunction) :
    Signature where
  slot n := slots[n]?.bind (Slot.ty? table)
  functions := functions

/-- The second signature has what the first one has. -/
structure Le (Γ Δ : Signature) : Prop where
  slot : ∀ n t, Γ.slot n = some t → Δ.slot n = some t
  functions : Δ.functions = Γ.functions

theorem Le.refl (Γ : Signature) : Γ.Le Γ := ⟨fun _ _ h => h, rfl⟩

theorem Le.trans {Γ Δ Θ : Signature} (h : Γ.Le Δ) (h' : Δ.Le Θ) : Γ.Le Θ :=
  ⟨fun n t ht => h'.slot n t (h.slot n t ht), h'.functions.trans h.functions⟩

end Signature

/-- What the statements of a script may refer to: a signature, and the slots that they may store
to. -/
structure Scope extends Signature where
  own : Nat → Prop

namespace Scope

instance : Coe Scope Signature := ⟨Scope.toSignature⟩

/-- The second scope has what the first one has. -/
structure Le (Γ Δ : Scope) : Prop extends Signature.Le Γ Δ where
  own : ∀ n, Γ.own n → Δ.own n

theorem Le.refl (Γ : Scope) : Γ.Le Γ := ⟨.refl Γ.toSignature, fun _ h => h⟩

theorem Le.trans {Γ Δ Θ : Scope} (h : Γ.Le Δ) (h' : Δ.Le Θ) : Γ.Le Θ :=
  ⟨h.toLe.trans h'.toLe, fun n hn => h'.own n (h.own n hn)⟩

end Scope

namespace Ty

/-- The type of a list literal with items of the given types. -/
def ofItems : List Ty → Ty
  | [] => null
  | t :: ts => ofList (t :: ts)

/-- Whether arguments of the given types may be passed for the parameters. -/
def accepts : (params args : List Ty) → Bool
  | [], [] => true
  | p :: params, t :: args => p.assignable t && accepts params args
  | _, _ => false

theorem length_of_accepts {params args : List Ty} (h : accepts params args = true) :
    params.length = args.length := by
  fun_induction accepts params args with
  | case1 => rfl
  | case2 _ _ _ _ ih =>
    rw [List.length_cons, List.length_cons, ih (Bool.and_eq_true_iff.1 h).2]
  | case3 => cases h

end Ty

/-- The operations written between two operands. -/
def Operation.isInfix : Operation → Bool
  | negate | sign | not | take | member => false
  | _ => true

namespace Expr

mutual

/-- The expression has the type. -/
inductive HasType (Γ : Signature) : Expr → Ty → Prop
  | literal (v : Value) : HasType Γ (literal v) v.ty
  | var {slot : Nat} {t : Ty} (h : Γ.slot slot = some t) : HasType Γ (var slot) t
  | unary {op : Operation} {e : Expr} {t : Ty} (he : HasType Γ e t) (hop : op.isUnary = true)
      (hc : op.check t t = .ok ()) : HasType Γ (unary op (Ty.pair? t t) e) (op.resultType t t)
  | binary {op : Operation} {l r : Expr} {a b : Ty} (hl : HasType Γ l a) (hr : HasType Γ r b)
      (hop : op.isInfix = true) (hc : op.check a b = .ok ()) :
      HasType Γ (binary op (Ty.pair? a b) l r) (op.resultType a b)
  /-- A component of a vector or a column of a matrix. -/
  | part {l i : Expr} {t : Ty} (hl : HasType Γ l t) (hi : HasType Γ i .integer)
      (ht : t = .vector ∨ t = .matrix) :
      HasType Γ (binary .take (Ty.pair? t .integer) l i) (Operation.take.resultType t .integer)
  | element {l i : Expr} {t : Ty} (hl : HasType Γ l (.array t)) (hi : HasType Γ i .integer) :
      HasType Γ (element l i) t
  | field {r : Expr} {place : Nat} {fields : List (String × Ty)} {name : String} {t : Ty}
      (hr : HasType Γ r (.record fields)) (hf : fields[place]? = some (name, t)) :
      HasType Γ (field r place) t
  | list {items : List Expr} {ts : List Ty} (h : HaveTypes Γ items ts) :
      HasType Γ (list items) (.ofItems ts)
  | vector {x y z w : Expr} {ts : List Ty} (h : HaveTypes Γ [x, y, z, w] ts)
      (ht : ∀ t ∈ ts, t.isNumeric = true) : HasType Γ (vector x y z w) .vector
  | matrix {x y z w : Expr} {ts : List Ty} (h : HaveTypes Γ [x, y, z, w] ts)
      (ht : ∀ t ∈ ts, t = .vector) : HasType Γ (matrix x y z w) .matrix
  | call {function : Nat} {f : HostFunction} {args : List Expr} {ts : List Ty}
      (hf : Γ.functions[function]? = some f) (h : HaveTypes Γ args ts)
      (ha : Ty.accepts f.params ts = true) : HasType Γ (call function args) f.ret

/-- The expressions have the types, one by one. -/
inductive HaveTypes (Γ : Signature) : List Expr → List Ty → Prop
  | nil : HaveTypes Γ [] []
  | cons {e : Expr} {t : Ty} {es : List Expr} {ts : List Ty} (he : HasType Γ e t)
      (hes : HaveTypes Γ es ts) : HaveTypes Γ (e :: es) (t :: ts)

end

/-! ## Larger signatures -/

mutual

theorem HasType.mono {Γ Δ : Signature} (h : Γ.Le Δ) {e : Expr} {t : Ty} :
    HasType Γ e t → HasType Δ e t
  | .literal v => .literal v
  | .var hs => .var (h.slot _ _ hs)
  | .unary he hop hc => .unary (he.mono h) hop hc
  | .binary hl hr hop hc => .binary (hl.mono h) (hr.mono h) hop hc
  | .part hl hi ht => .part (hl.mono h) (hi.mono h) ht
  | .element hl hi => .element (hl.mono h) (hi.mono h)
  | .field hr hf => .field (hr.mono h) hf
  | .list hes => .list (hes.mono h)
  | .vector hes ht => .vector (hes.mono h) ht
  | .matrix hes ht => .matrix (hes.mono h) ht
  | .call hf hes ha => .call (h.functions ▸ hf) (hes.mono h) ha

theorem HaveTypes.mono {Γ Δ : Signature} (h : Γ.Le Δ) {es : List Expr} {ts : List Ty} :
    HaveTypes Γ es ts → HaveTypes Δ es ts
  | .nil => .nil
  | .cons he hes => .cons (he.mono h) (hes.mono h)

end

/-! ## Sizes -/

mutual

/-- Every number that an operand word has to hold fits into it. -/
def Fits : Expr → Prop
  | literal _ => True
  | var slot => slot < UInt32.size
  | unary _ _ e => Fits e
  | binary _ _ l r | element l r => Fits l ∧ Fits r
  | field r place => Fits r ∧ place < UInt32.size
  | list items => FitAll items ∧ items.length < UInt32.size
  | vector x y z w | matrix x y z w => Fits x ∧ Fits y ∧ Fits z ∧ Fits w
  | call function args => FitAll args ∧ function < UInt32.size ∧ args.length < UInt32.size

def FitAll : List Expr → Prop
  | [] => True
  | e :: rest => Fits e ∧ FitAll rest

end

end Expr

/-! ## Right sides -/

namespace Rhs

/-- The value of the expression may be stored where the target type is expected. -/
def Stores (Γ : Signature) (target : Ty) (e : Expr) : Prop :=
  ∃ t, e.HasType Γ t ∧ target.assignable t = true

/-- Every value of the right side may be stored where the target type is expected, and conditions
are integers. A chain of guarded values has at least one. -/
inductive Suits (Γ : Signature) (target : Ty) : Rhs → Prop
  | plain {e : Expr} (h : Stores Γ target e) : Suits Γ target (plain e)
  | guarded {cases : List (Expr × Expr)} {otherwise : Option Expr} (hne : cases ≠ [])
      (hc : ∀ c ∈ cases, c.1.HasType Γ .integer ∧ Stores Γ target c.2)
      (ho : ∀ e ∈ otherwise, Stores Γ target e) : Suits Γ target (guarded cases otherwise)

theorem Stores.mono {Γ Δ : Signature} (h : Γ.Le Δ) {target : Ty} {e : Expr}
    (he : Stores Γ target e) : Stores Δ target e := by
  obtain ⟨t, ht, ha⟩ := he
  exact ⟨t, ht.mono h, ha⟩

theorem Suits.mono {Γ Δ : Signature} (h : Γ.Le Δ) {target : Ty} {r : Rhs}
    (hr : r.Suits Γ target) : r.Suits Δ target := by
  cases hr with
  | plain he => exact .plain (he.mono h)
  | guarded hne hc ho =>
    exact .guarded hne (fun c hm => ⟨(hc c hm).1.mono h, (hc c hm).2.mono h⟩)
      fun e hm => (ho e hm).mono h

/-- The lengths of guarded code fit into the words of a guard. -/
def FitsGuard (value : Expr) : Prop :=
  value.Fits ∧ value.words.length < UInt32.size ∧ value.immediates.length < UInt32.size

def Fits : Rhs → Prop
  | plain e => e.Fits
  | guarded cases otherwise =>
    (∀ c ∈ cases, c.1.Fits ∧ FitsGuard c.2) ∧ ∀ e ∈ otherwise, FitsGuard e

end Rhs

/-! ## Statements -/

/-- The steps of a path lead from a variable of one type to a place of another. -/
inductive Expr.Path (Γ : Signature) : Ty → List Expr → Ty → Prop
  | here (t : Ty) : Path Γ t [] t
  | index {t u v : Ty} {i : Expr} {rest : List Expr} (hi : i.HasType Γ .integer)
      (ht : t.element? = some u) (h : Path Γ u rest v) : Path Γ t (i :: rest) v
  | field {fields : List (String × Ty)} {place : Nat} {name : String} {u v : Ty}
      {rest : List Expr} (hf : fields[place]? = some (name, u)) (h : Path Γ u rest v) :
      Path Γ (.record fields) (.literal (.integer (Int32.ofNat place)) :: rest) v

namespace Expr.Path

variable {Γ Δ : Signature}

theorem mono (h : Γ.Le Δ) {t v : Ty} {path : List Expr} (hp : Path Γ t path v) :
    Path Δ t path v := by
  induction hp with
  | here t => exact .here t
  | index hi ht _ ih => exact .index (hi.mono h) ht ih
  | field hf _ ih => exact .field hf ih

/-- The steps of a path are integers. -/
theorem integers {t target : Ty} {path : List Expr} (h : Path Γ t path target) :
    ∀ e ∈ path, e.HasType Γ .integer := by
  induction h with
  | here => exact fun _ h => nomatch h
  | index hi _ _ ih => exact List.forall_mem_cons.2 ⟨hi, ih⟩
  | field _ _ ih => exact List.forall_mem_cons.2 ⟨.literal (.integer _), ih⟩

theorem haveTypes {t target : Ty} {path : List Expr} (h : Path Γ t path target) :
    HaveTypes Γ path (path.map fun _ => .integer) := by
  have hall := h.integers
  clear h
  induction path with
  | nil => exact .nil
  | cons e rest ih =>
    obtain ⟨he, hrest⟩ := List.forall_mem_cons.1 hall
    exact .cons he (ih hrest)

theorem append {t u v : Ty} {before after : List Expr} (h : Path Γ t before u)
    (h' : Path Γ u after v) : Path Γ t (before ++ after) v := by
  induction h with
  | here t => exact h'
  | index hi ht _ ih => exact .index hi ht (ih h')
  | field hf _ ih => exact .field hf (ih h')

end Expr.Path

namespace Stmt

mutual

/-- Every expression of the statement has a type, and what is stored suits its place, in a variable
that may be stored to. -/
def Ok (Γ : Scope) : Stmt → Prop
  | store slot path value _ => Γ.own slot ∧
    ∃ t target, Γ.slot slot = some t ∧ Expr.Path Γ t path target ∧ value.Suits Γ target
  | discard e _ => ∃ t, e.HasType Γ t
  | ifThen condition _ body => condition.HasType Γ .integer ∧ AllOk Γ body
  | ifElse condition _ body _ otherwise =>
    condition.HasType Γ .integer ∧ AllOk Γ body ∧ AllOk Γ otherwise

def AllOk (Γ : Scope) : List Stmt → Prop
  | [] => True
  | s :: rest => Ok Γ s ∧ AllOk Γ rest

end

mutual

theorem Ok.mono {Γ Δ : Scope} (h : Γ.Le Δ) : (s : Stmt) → Ok Γ s → Ok Δ s
  | store .., hs => by
    obtain ⟨hown, t, target, hslot, hp, hr⟩ := hs
    exact ⟨h.own _ hown, t, target, h.slot _ _ hslot, hp.mono h.toLe, hr.mono h.toLe⟩
  | discard .., hs => by
    obtain ⟨t, ht⟩ := hs
    exact ⟨t, ht.mono h.toLe⟩
  | ifThen _ _ body, hs => ⟨hs.1.mono h.toLe, AllOk.mono h body hs.2⟩
  | ifElse _ _ body _ otherwise, hs =>
    ⟨hs.1.mono h.toLe, AllOk.mono h body hs.2.1, AllOk.mono h otherwise hs.2.2⟩

theorem AllOk.mono {Γ Δ : Scope} (h : Γ.Le Δ) : (body : List Stmt) → AllOk Γ body → AllOk Δ body
  | [], _ => trivial
  | s :: rest, hs => ⟨Ok.mono h s hs.1, AllOk.mono h rest hs.2⟩

end

theorem allOk_append {Γ : Scope} {a b : List Stmt} :
    AllOk Γ (a ++ b) ↔ AllOk Γ a ∧ AllOk Γ b := by
  induction a with
  | nil => simp [AllOk]
  | cons s rest ih => simp [AllOk, ih, and_assoc]

theorem allOk_flatten {Γ : Scope} {parts : List (List Stmt)}
    (h : ∀ part ∈ parts, AllOk Γ part) : AllOk Γ parts.flatten := by
  induction parts with
  | nil => trivial
  | cons part rest ih =>
    rw [List.flatten_cons, allOk_append]
    exact ⟨h part List.mem_cons_self, ih fun p hp => h p (List.mem_cons_of_mem _ hp)⟩

end Stmt

end VectorScript
