import VectorScript.Grammar.Expression
import VectorScript.Proofs.Grammar.Reader
import VectorScript.Proofs.Tree.Typing

/-!
# Expressions are read with their types

Whatever text an expression is read from, the tree has the type that comes with it, in the scope
that the names of the draft and of the host agree with.

    Agree s d Γ → Reads s d (expression room) fun e => e.expr.HasType Γ e.ty       (reads_expression)
-/

namespace VectorScript

/-- What a symbol says about slots and functions is right, and what is not imported may be stored
to. -/
def Symbol.Agrees (Γ : Scope) : Symbol → Prop
  | var v => Γ.slot v.slot = some v.ty ∧ (v.imported = false → Γ.own v.slot)
  | function index f => Γ.functions[index]? = some f
  | typedef _ | constant _ => True

/-- The tree has the type that comes with it. -/
def Typed.Ok (Γ : Signature) (e : Typed) : Prop := e.expr.HasType Γ e.ty

namespace Expr

theorem haveTypes_map {Γ : Signature} {α : Type} (g : α → Typed) {items : List α}
    (h : ∀ a ∈ items, Typed.Ok Γ (g a)) :
    HaveTypes Γ (items.map fun a => (g a).expr) (items.map fun a => (g a).ty) := by
  induction items with
  | nil => exact .nil
  | cons a rest ih =>
    exact .cons (h a List.mem_cons_self) (ih fun x hx => h x (List.mem_cons_of_mem _ hx))

end Expr

/-! ## Types of indices and fields -/

namespace Ty

/-- A field that is found by its name is at its place. -/
theorem getElem?_of_findField? {name : String} {fields : List (String × Ty)} {place : Nat} {t : Ty}
    (h : findField? name fields = some (place, t)) : fields[place]? = some (name, t) := by
  induction fields generalizing place with
  | nil => cases h
  | cons f rest ih =>
    obtain ⟨n, u⟩ := f
    unfold findField? at h
    split at h
    · next hn =>
      cases h
      rw [hn]
      rfl
    · cases hf : findField? name rest with
      | none => rw [hf] at h; cases h
      | some found =>
        obtain ⟨i, u'⟩ := found
        rw [hf] at h
        cases h
        exact ih hf

/-- A type with a field is a record. -/
theorem eq_record_of_field? {name : String} {t u : Ty} {place : Nat}
    (h : t.field? name = some (place, u)) :
    ∃ fields, t = record fields ∧ fields[place]? = some (name, u) := by
  cases t with
  | record fields => exact ⟨fields, rfl, getElem?_of_findField? h⟩
  | _ => cases h

end Ty

namespace Operation

/-- What may be indexed, and by what. -/
theorem check_take {t u : Ty} (h : take.check t u = .ok ()) :
    u = .integer ∧ (t = .vector ∨ t = .matrix ∨ ∃ elem, t = .array elem) := by
  simp only [check, checkTake] at h
  split at h
  · next hu =>
    refine ⟨hu, ?_⟩
    cases t <;> first
      | exact .inl rfl
      | exact .inr (.inl rfl)
      | exact .inr (.inr ⟨_, rfl⟩)
      | cases h
  · cases h

end Operation

namespace Parse

variable {s : Surroundings} {d : Draft} {Γ : Scope}

/-- The names of the draft and of the host say the same about slots and functions as the scope. -/
def Agree (s : Surroundings) (d : Draft) (Γ : Scope) : Prop :=
  ∀ name symbol, d.symbols.get? name = some symbol ∨ s.globals.symbols.get? name = some symbol →
    symbol.Agrees Γ

/-! ## Operators -/

theorem reads_checkOperation (op : Operation) (t u : Ty) (p : Position) :
    Reads s d (checkOperation op t u p) fun _ => op.check t u = .ok () := by
  unfold checkOperation
  split
  · next h => exact reads_pure h
  · exact reads_throw _

theorem isInfix_of_binaryOperation? {level : Nat} {sign : Operator} {op : Operation}
    (h : binaryOperation? level sign = some op) : op.isInfix = true := by
  unfold binaryOperation? at h
  split at h <;> cases h <;> rfl

theorem isUnary_of_signToken? {t : Token} {op : Operation} (h : signToken? t = some op) :
    op.isUnary = true := by
  unfold signToken? at h
  split at h
  · unfold signOperation? at h
    split at h <;> cases h <;> rfl
  · cases h

theorem reads_chain {operand : Parse Typed} (h : Reads s d operand (Typed.Ok Γ)) (level : Nat) :
    Reads s d (chain level operand) (Typed.Ok Γ) := by
  refine h.bind fun first hfirst => reads_loop (Typed.Ok Γ) (fun left hleft => ?_) hfirst
  refine reads_peek?.bind fun o _ => ?_
  split
  · split
    · next op hop =>
      refine reads_position.bind fun p _ => reads_skip.bind fun _ _ => h.bind fun right hright => ?_
      refine (reads_checkOperation op left.ty right.ty p).bind fun _ hc => reads_pure ?_
      exact .binary hleft hright (isInfix_of_binaryOperation? hop) hc
    · exact reads_pure hleft
  · exact reads_pure hleft

theorem reads_binary {operand : Parse Typed} (h : Reads s d operand (Typed.Ok Γ)) :
    Reads s d (binary operand) (Typed.Ok Γ) := by
  unfold binary
  generalize binaryLevels = levels
  induction levels with
  | zero => exact h
  | succ levels ih => exact reads_chain ih _

theorem reads_signed {inner bare : Parse Typed} (hi : Reads s d inner (Typed.Ok Γ))
    (hb : Reads s d bare (Typed.Ok Γ)) : Reads s d (signed inner bare) (Typed.Ok Γ) := by
  refine reads_peek?.bind fun o _ => ?_
  split
  · exact hb
  · next op hop =>
    obtain ⟨t, -, ht⟩ := Option.bind_eq_some_iff.1 hop
    refine reads_position.bind fun p _ => reads_skip.bind fun _ _ => reads_peek?.bind fun o _ => ?_
    split
    · refine reads_position.bind fun q _ => reads_skip.bind fun _ _ => ?_
      exact (reads_integer _ _).bind fun n _ => reads_pure (.literal (.integer n))
    · refine hi.bind fun e he => (reads_checkOperation op e.ty e.ty p).bind fun _ hc => ?_
      exact reads_pure (.unary he (isUnary_of_signToken? ht) hc)

/-! ## Primary expressions -/

theorem reads_nameValue (h : Agree s d Γ) (name : String) (p : Position) :
    Reads s d (nameValue name p) (Typed.Ok Γ) := by
  refine (reads_lookup? name).bind fun o ho => ?_
  split
  · exact reads_pure (.var (h name _ (ho _ rfl)).1)
  · next v => exact reads_pure (.literal v)
  · exact reads_failAbout _ _ _
  · exact reads_failAbout _ _ _

theorem reads_components {expression : Parse Typed} (h : Reads s d expression (Typed.Ok Γ))
    (p : Position) : Reads s d (components expression p) (Typed.Ok Γ) := by
  refine (reads_separated h).bind fun items hitems => (reads_expectMark _).bind fun _ _ => ?_
  split
  · next a b c e =>
    have hall := Expr.haveTypes_map id hitems.2
    split
    · next ht =>
      refine reads_pure (.vector hall fun t ht' => ?_)
      obtain ⟨x, hx, rfl⟩ := List.mem_map.1 ht'
      exact List.all_eq_true.1 ht x hx
    · split
      · next ht =>
        refine reads_pure (.matrix hall fun t ht' => ?_)
        obtain ⟨x, hx, rfl⟩ := List.mem_map.1 ht'
        exact of_decide_eq_true (List.all_eq_true.1 ht x hx)
      · exact reads_failAbout _ _ _
  · exact reads_failAbout _ _ _

theorem reads_listLiteral {expression : Parse Typed} (h : Reads s d expression (Typed.Ok Γ)) :
    Reads s d (listLiteral expression) (Typed.Ok Γ) := by
  refine (reads_acceptMark _).bind fun b _ => ?_
  split
  · exact reads_pure (.list .nil)
  · refine (reads_separated h).bind fun items hitems => (reads_expectMark _).bind fun _ _ => ?_
    refine reads_pure ?_
    have hl := Expr.HasType.list (Expr.haveTypes_map id hitems.2)
    cases items with
    | nil => exact absurd rfl hitems.1
    | cons e rest => exact hl

theorem reads_arguments {expression : Parse Typed} (h : Reads s d expression (Typed.Ok Γ)) :
    Reads s d (arguments expression) fun args => ∀ a ∈ args, Typed.Ok Γ a.1 := by
  refine (reads_expectMark _).bind fun _ _ => (reads_acceptMark _).bind fun b _ => ?_
  split
  · exact reads_pure (by simp)
  · have hitem : Reads s d (do let p ← position; return (← expression, p))
        fun a : Typed × Position => Typed.Ok Γ a.1 :=
      reads_position.bind fun p _ => h.bind fun e he => reads_pure he
    refine (reads_separated hitem).bind fun args hargs => (reads_expectMark _).bind fun _ _ => ?_
    exact reads_pure hargs.2

theorem reads_checkArguments (name : String) {params : List Ty} {args : List (Typed × Position)}
    (hlen : params.length = args.length) :
    Reads s d (checkArguments name params args) fun _ =>
      Ty.accepts params (args.map fun a => a.1.ty) = true := by
  induction params generalizing args with
  | nil =>
    obtain rfl := List.length_eq_zero_iff.1 hlen.symm
    exact reads_pure rfl
  | cons t params ih =>
    cases args with
    | nil => cases hlen
    | cons a args =>
      obtain ⟨e, p⟩ := a
      unfold checkArguments
      split
      · next ht =>
        refine (ih (Nat.succ.inj hlen)).mono fun _ h => ?_
        simp only [List.map_cons, Ty.accepts, ht, h, Bool.and_self]
      · exact reads_failAbout _ _ _

theorem reads_noteSubscript (f : HostFunction) (args : List (Typed × Position)) :
    Reads s d (noteSubscript f args) fun _ => True := by
  unfold noteSubscript
  split
  · split
    · refine reads_read.bind fun _ _ => ?_
      split
      · exact reads_modify fun _ => ⟨rfl, rfl, rfl, rfl, rfl, rfl⟩
      · exact reads_pure trivial
    · exact reads_pure trivial
  · exact reads_pure trivial

theorem reads_call {expression : Parse Typed} (h : Agree s d Γ)
    (he : Reads s d expression (Typed.Ok Γ)) (name : String) (p : Position) :
    Reads s d (call expression name p) (Typed.Ok Γ) := by
  refine (reads_lookup? name).bind fun o ho => ?_
  split
  · next index f =>
    refine (reads_arguments he).bind fun args hargs => ?_
    split
    · exact (reads_failAbout (Q := fun _ => False) _ _ _).bind fun _ hx => hx.elim
    · next hlen =>
      refine (reads_checkArguments name (Decidable.not_not.1 hlen)).bind fun _ ha => ?_
      refine (reads_noteSubscript f args).bind fun _ _ => reads_pure ?_
      have htypes := Expr.haveTypes_map Prod.fst hargs
      exact .call (h name _ (ho _ rfl)) htypes ha
  · exact reads_failAbout _ _ _
  · exact reads_failAbout _ _ _

theorem reads_primary {expression : Parse Typed} (h : Agree s d Γ)
    (he : Reads s d expression (Typed.Ok Γ)) : Reads s d (primary expression) (Typed.Ok Γ) := by
  refine reads_position.bind fun p _ => reads_next?.bind fun o _ => ?_
  split
  · exact reads_failAbout _ _ _
  · split
    · exact (reads_integer _ _).bind fun n _ => reads_pure (.literal (.integer n))
    · exact reads_pure (.literal (.real _))
    · exact reads_pure (.literal (.text _))
    · exact he.bind fun e hx => (reads_expectMark _).bind fun _ _ => reads_pure hx
    · exact reads_components he p
    · exact reads_listLiteral he
    · refine reads_peek?.bind fun o _ => ?_
      split
      · exact reads_call h he _ p
      · exact reads_nameValue h _ p
    · exact reads_failAbout _ _ _

/-! ## Indices and fields -/

theorem reads_indexed {e index : Typed} (he : Typed.Ok Γ e) (hi : Typed.Ok Γ index) (p : Position) :
    Reads s d (indexed e index p) (Typed.Ok Γ) := by
  refine (reads_checkOperation .take e.ty index.ty p).bind fun _ hc => ?_
  obtain ⟨hint, ht⟩ := Operation.check_take hc
  unfold Typed.Ok at he hi
  rw [hint] at hi ⊢
  rcases ht with ht | ht | ⟨elem, ht⟩
  · rw [ht] at he ⊢
    exact reads_pure (.part he hi (.inl rfl))
  · rw [ht] at he ⊢
    exact reads_pure (.part he hi (.inr rfl))
  · rw [ht] at he ⊢
    exact reads_pure (.element he hi)

theorem reads_selected {e : Typed} (he : Typed.Ok Γ e) (name : String) (p : Position) :
    Reads s d (selected e name p) (Typed.Ok Γ) := by
  refine (reads_checkOperation .member e.ty (.selector name) p).bind fun _ _ => ?_
  split
  · next place ty hf =>
    obtain ⟨fields, hrec, hplace⟩ := Ty.eq_record_of_field? hf
    unfold Typed.Ok at he
    rw [hrec] at he
    exact reads_pure (.field he hplace)
  · exact reads_failAbout _ _ _

theorem reads_suffixed {expression : Parse Typed} (h : Agree s d Γ)
    (he : Reads s d expression (Typed.Ok Γ)) : Reads s d (suffixed expression) (Typed.Ok Γ) := by
  refine (reads_primary h he).bind fun first hfirst =>
    reads_loop (Typed.Ok Γ) (fun e hx => ?_) hfirst
  refine reads_position.bind fun p _ => reads_peek?.bind fun o _ => ?_
  split
  · refine reads_skip.bind fun _ _ => he.bind fun index hi => (reads_expectMark _).bind fun _ _ => ?_
    exact (reads_indexed hx hi p).bind fun r hr => reads_pure hr
  · refine reads_skip.bind fun _ _ => reads_ident.bind fun n _ => ?_
    exact (reads_selected hx n.1 n.2).bind fun r hr => reads_pure hr
  · exact reads_pure hx

/-! ## Nested expressions -/

theorem reads_operandIn (h : Agree s d Γ) (room : Nat) :
    Reads s d (operandIn room) (Typed.Ok Γ) := by
  induction room with
  | zero => exact reads_signed reads_tooDeep (reads_suffixed h reads_tooDeep)
  | succ room ih => exact reads_signed ih (reads_suffixed h (reads_binary ih))

/-- The tree that an expression is read as has the type that comes with it. -/
theorem reads_expression (h : Agree s d Γ) (room : Nat) :
    Reads s d (expression room) (Typed.Ok Γ) := by
  cases room with
  | zero => exact reads_tooDeep
  | succ room => exact reads_binary (reads_operandIn h room)

end Parse

end VectorScript
