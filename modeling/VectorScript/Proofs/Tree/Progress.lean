import VectorScript.Proofs.Host.Library
import VectorScript.Proofs.Tree.Harmless

/-!
# Typed trees evaluate to values of their types

In a workspace where variables hold values of their types and scripts that are dispatched end as well
typed scripts do, a well typed tree without nulls gives a value of its type, or a fault that a well
typed script may run into. The workspace is still of the same kind afterwards; which kind that is
does not matter here.

    e.HasType Γ t → e.NullFree Γ → Eval.Gives I (·.HasType t) (e.eval callees memory)    (gives_eval)
-/

namespace VectorScript

/-! ## Surroundings of an evaluation -/

/-- The functions keep their types, and what is asked of the workspace keeps it of the kind `I`. -/
structure Callees.Sound (callees : Callees) (I : Workspace → Prop) : Prop where
  functions : ∀ f ∈ callees.functions, f.Sound
  dispatch : ∀ script w, I w →
    Proceeds (callees.dispatch script w).1 ∧ I (callees.dispatch script w).2
  random : ∀ w, I w → I w.random.2

/-- In a workspace of the kind `I` every slot holds a value of its type. -/
def Memory.Holds (memory : Memory) (Γ : Signature) (I : Workspace → Prop) : Prop :=
  ∀ w, I w → ∀ n t, Γ.slot n = some t → ∃ v, memory.fetch w.table n = .ok v ∧ v.HasType t

/-! ## Evaluations -/

namespace Eval

variable {α β : Type} {I : Workspace → Prop} {P : α → Prop} {Q : β → Prop}

/-- From a workspace of the kind `I` the evaluation leads to another one, and to a result as it
should be or to a fault that a well typed script may run into. -/
def Gives (I : Workspace → Prop) (P : α → Prop) (x : Eval α) : Prop :=
  ∀ w, I w →
    match x w with
    | .ok a w' => P a ∧ I w'
    | .error e w' => e.cause.isDynamic = true ∧ I w'

theorem Gives.bind {x : Eval α} {f : α → Eval β} (hx : Gives I P x)
    (hf : ∀ a, P a → Gives I Q (f a)) : Gives I Q (x >>= f) := by
  intro w hw
  have h := hx w hw
  simp only [Bind.bind, EStateM.bind]
  cases hr : x w with
  | ok a w' =>
    simp only [hr] at h ⊢
    exact hf a h.1 w' h.2
  | error e w' =>
    simp only [hr] at h ⊢
    exact h

theorem gives_pure {a : α} (h : P a) : Gives I P (pure a) := fun _ hw => ⟨h, hw⟩

theorem gives_ofExcept {x : Except Fault α} (h : Yields P x) : Gives I P (ofExcept x) := by
  cases x with
  | ok a => exact gives_pure h
  | error e => exact fun _ hw => ⟨h, hw⟩

theorem gives_fetch {memory : Memory} {Γ : Signature} (hm : memory.Holds Γ I) {slot : Nat} {t : Ty}
    (h : Γ.slot slot = some t) : Gives I (·.HasType t) (fetch memory slot) := by
  intro w hw
  obtain ⟨v, hv, ht⟩ := hm w hw slot t h
  have h : Yields (·.HasType t) (memory.fetch w.table slot) := by
    rw [hv]
    exact ht
  exact gives_ofExcept h w hw

end Eval

/-- A conversation that keeps its type, held with the workspace. -/
theorem Call.gives_answer {callees : Callees} {I : Workspace → Prop} (hc : callees.Sound I)
    {t : Ty} (call : Call) (h : call.Gives t) {w : Workspace} (hw : I w) :
    Yields (·.HasType t) (call.answer (Exec.services callees) w).1 ∧
      I (call.answer (Exec.services callees) w).2 := by
  induction call generalizing w with
  | done result => exact ⟨h, hw⟩
  | dispatch script next ih =>
    obtain ⟨hproceeds, hw'⟩ := hc.dispatch script w hw
    exact ih _ (h _ hproceeds) hw'
  | random next ih =>
    rw [answer]
    exact ih _ (h _) (hc.random w hw)

/-- A call of a function that keeps its type. -/
theorem Eval.gives_call {callees : Callees} {I : Workspace → Prop} (hc : callees.Sound I)
    {function : Nat} {f : HostFunction} (hf : callees.functions[function]? = some f)
    {args : List Value} (ha : Value.AllSuit args f.params) :
    Gives I (·.HasType f.ret) (call callees function args) := by
  intro w hw
  have hexecute : f.execute args 0 = f.body args := by
    unfold HostFunction.execute
    have hlen := ha.length_eq
    rw [if_pos (by omega), List.drop_zero, ← hlen, List.take_length]
  have hsound := hc.functions f (List.mem_of_getElem? hf) args ha
  obtain ⟨h, hw'⟩ := (f.body args).gives_answer hc hsound hw
  simp only [call, hf, hexecute]
  cases hr : (f.body args).answer (Exec.services callees) w with
  | mk result w' =>
    rw [hr] at h hw'
    cases result with
    | ok v => exact ⟨h, hw'⟩
    | error e => exact ⟨h, hw'⟩

/-! ## Pieces -/

namespace Exec

/-- An array gives its items, or says that there is none at the index. -/
theorem yields_item {a b : Value} {t : Ty} (ha : a.HasType (.array t)) (hb : b.HasType .integer) :
    Yields (·.HasType t) (item a b) := by
  cases ha with
  | @array vs t h =>
    cases hb with
    | integer i =>
      unfold item
      dsimp only [Value.asInteger, Value.asList, bind, Except.bind]
      split
      · next v hv =>
        split at hv
        · exact h v (List.mem_of_getElem? hv)
        · cases hv
      · rfl

/-- A record gives its fields. -/
theorem yields_fieldOf {r : Value} {fields : List (String × Ty)} (hr : r.HasType (.record fields))
    {place : Nat} {name : String} {t : Ty} (hf : fields[place]? = some (name, t)) :
    Yields (·.HasType t) (fieldOf place r) := by
  cases hr with
  | @record vs fields h =>
    have ht : (fields.map (·.2))[place]? = some t := by simp [hf]
    obtain ⟨v, hv, hvt⟩ := h.get ht
    unfold fieldOf
    dsimp only [Value.asList, bind, Except.bind]
    rw [hv]
    exact hvt

theorem yields_vectorOf {a b c d : Value} {ts : List Ty}
    (h : Value.HaveTypes [a, b, c, d] ts) (ht : ∀ t ∈ ts, t.isNumeric = true) :
    Yields (·.HasType .vector) (vectorOf [a, b, c, d]) := by
  cases h with
  | cons ha h => cases h with
    | cons hb h => cases h with
      | cons hc h => cases h with
        | cons hd h =>
          cases h
          simp only [List.forall_mem_cons] at ht
          obtain ⟨x, hx⟩ := Value.asReal_eq ha ht.1
          obtain ⟨y, hy⟩ := Value.asReal_eq hb ht.2.1
          obtain ⟨z, hz⟩ := Value.asReal_eq hc ht.2.2.1
          obtain ⟨w, hw⟩ := Value.asReal_eq hd ht.2.2.2.1
          simp only [vectorOf, List.mapM_cons, List.mapM_nil, hx, hy, hz, hw]
          exact .vector _

theorem yields_matrixOf {a b c d : Value} {ts : List Ty}
    (h : Value.HaveTypes [a, b, c, d] ts) (ht : ∀ t ∈ ts, t = .vector) :
    Yields (·.HasType .matrix) (matrixOf [a, b, c, d]) := by
  cases h with
  | cons ha h => cases h with
    | cons hb h => cases h with
      | cons hc h => cases h with
        | cons hd h =>
          cases h
          simp only [List.forall_mem_cons] at ht
          obtain ⟨rfl, rfl, rfl, rfl, -⟩ := ht
          obtain ⟨x, hx⟩ := Value.asVector_eq ha
          obtain ⟨y, hy⟩ := Value.asVector_eq hb
          obtain ⟨z, hz⟩ := Value.asVector_eq hc
          obtain ⟨w, hw⟩ := Value.asVector_eq hd
          simp only [matrixOf, List.mapM_cons, List.mapM_nil, hx, hy, hz, hw]
          exact .matrix _

end Exec

theorem Value.hasType_ofItems {vs : List Value} {ts : List Ty} (h : HaveTypes vs ts) :
    HasType (.list vs) (.ofItems ts) := by
  cases h with
  | nil => exact .null
  | cons hv hvs => exact hasType_ofList (.cons hv hvs)

/-! ## Trees -/

namespace Expr

variable {Γ : Signature} {callees : Callees} {memory : Memory} {I : Workspace → Prop}

/-- Trees that are not null by their types have other types. -/
theorem ne_null_of_haveTypes {es : List Expr} {ts : List Ty} (h : HaveTypes Γ es ts)
    (hn : ∀ e ∈ es, ¬e.HasType Γ .null) : ∀ t ∈ ts, t ≠ .null := by
  induction es generalizing ts with
  | nil =>
    cases h
    exact fun _ ht => nomatch ht
  | cons e es ih =>
    cases h with
    | cons he hes =>
      obtain ⟨hne, hn⟩ := List.forall_mem_cons.1 hn
      refine List.forall_mem_cons.2 ⟨?_, ih hes hn⟩
      rintro rfl
      exact hne he

mutual

/-- A typed tree without nulls evaluates to a value of its type, or fails as a well typed script
may. -/
theorem gives_eval (hΓ : callees.functions = Γ.functions) (hc : callees.Sound I)
    (hm : memory.Holds Γ I) {e : Expr} {t : Ty} : HasType Γ e t → NullFree Γ e →
    Eval.Gives I (·.HasType t) (e.eval callees memory)
  | .literal v, _ => Eval.gives_pure (Value.hasType_ty v)
  | .var hs, _ => Eval.gives_fetch hm hs
  | .unary he hop hcheck, hn =>
    (gives_eval hΓ hc hm he hn).bind fun _ hv =>
      Eval.gives_ofExcept (Kernel.yields_unary hop hcheck hv)
  | .binary hl hr hop hcheck, hn =>
    (gives_eval hΓ hc hm hl hn.1).bind fun _ ha => (gives_eval hΓ hc hm hr hn.2).bind fun _ hb =>
      Eval.gives_ofExcept ((Kernel.offers_infix hop hcheck).yields ha hb)
  | .part hl hi ht, hn =>
    (gives_eval hΓ hc hm hl hn.1).bind fun _ ha => (gives_eval hΓ hc hm hi hn.2).bind fun _ hb =>
      Eval.gives_ofExcept ((Kernel.offers_take ht).yields ha hb)
  | .element hl hi, hn =>
    (gives_eval hΓ hc hm hl hn.1).bind fun _ ha => (gives_eval hΓ hc hm hi hn.2).bind fun _ hb =>
      Eval.gives_ofExcept (Exec.yields_item ha hb)
  | .field hr hf, hn =>
    (gives_eval hΓ hc hm hr hn).bind fun _ hv => Eval.gives_ofExcept (Exec.yields_fieldOf hv hf)
  | .list hes, hn =>
    (gives_evalAll hΓ hc hm hes hn).bind fun _ hvs => Eval.gives_pure (Value.hasType_ofItems hvs)
  | .vector (.cons hx (.cons hy (.cons hz (.cons hw .nil)))) ht, hn =>
    (gives_eval hΓ hc hm hx hn.1).bind fun _ ha => (gives_eval hΓ hc hm hy hn.2.1).bind fun _ hb =>
      (gives_eval hΓ hc hm hz hn.2.2.1).bind fun _ hc' =>
        (gives_eval hΓ hc hm hw hn.2.2.2).bind fun _ hd => Eval.gives_ofExcept
          (Exec.yields_vectorOf (.cons ha (.cons hb (.cons hc' (.cons hd .nil)))) ht)
  | .matrix (.cons hx (.cons hy (.cons hz (.cons hw .nil)))) ht, hn =>
    (gives_eval hΓ hc hm hx hn.1).bind fun _ ha => (gives_eval hΓ hc hm hy hn.2.1).bind fun _ hb =>
      (gives_eval hΓ hc hm hz hn.2.2.1).bind fun _ hc' =>
        (gives_eval hΓ hc hm hw hn.2.2.2).bind fun _ hd => Eval.gives_ofExcept
          (Exec.yields_matrixOf (.cons ha (.cons hb (.cons hc' (.cons hd .nil)))) ht)
  | .call hf hes ha, hn =>
    (gives_evalAll hΓ hc hm hes hn.1).bind fun _ hvs => Eval.gives_call hc (hΓ ▸ hf)
      (Value.allSuit_of_accepts hvs ha (ne_null_of_haveTypes hes hn.2))

/-- Trees one after the other. -/
theorem gives_evalAll (hΓ : callees.functions = Γ.functions) (hc : callees.Sound I)
    (hm : memory.Holds Γ I) {es : List Expr} {ts : List Ty} : HaveTypes Γ es ts → AllNullFree Γ es →
    Eval.Gives I (Value.HaveTypes · ts) (evalAll callees memory es)
  | .nil, _ => Eval.gives_pure .nil
  | .cons he hes, hn =>
    (gives_eval hΓ hc hm he hn.1).bind fun _ hv =>
      (gives_evalAll hΓ hc hm hes hn.2).bind fun _ hvs => Eval.gives_pure (.cons hv hvs)

end

/-! ## Paths -/

/-- The numbers are those of the path: a literal stands for itself. -/
inductive Traces : List Expr → List Int32 → Prop
  | nil : Traces [] []
  | cons {e : Expr} {i : Int32} {es : List Expr} {is : List Int32}
      (h : ∀ n, e = .literal (.integer n) → i = n) (hs : Traces es is) : Traces (e :: es) (i :: is)

theorem gives_evalPath (hΓ : callees.functions = Γ.functions) (hc : callees.Sound I)
    (hm : memory.Holds Γ I) {path : List Expr} (hp : ∀ e ∈ path, e.HasType Γ .integer)
    (hn : AllNullFree Γ path) :
    Eval.Gives I (fun vs => ∃ is : List Int32, vs = is.map .integer ∧ Traces path is)
      (evalAll callees memory path) := by
  induction path with
  | nil => exact Eval.gives_pure ⟨[], rfl, .nil⟩
  | cons e rest ih =>
    obtain ⟨he, hrest⟩ := List.forall_mem_cons.1 hp
    have hstep : Eval.Gives I (fun v => ∃ i : Int32, v = .integer i ∧
        ∀ n, e = .literal (.integer n) → i = n) (e.eval callees memory) := by
      by_cases hlit : ∃ n, e = .literal (.integer n)
      · obtain ⟨n, rfl⟩ := hlit
        exact Eval.gives_pure ⟨n, rfl, fun m hm => by cases hm; rfl⟩
      · intro w hw
        have h := gives_eval hΓ hc hm he hn.1 w hw
        cases hr : e.eval callees memory w with
        | error f w' => simpa only [hr] using h
        | ok v w' =>
          simp only [hr] at h ⊢
          obtain ⟨hv, hw'⟩ := h
          cases hv with
          | integer i => exact ⟨⟨i, rfl, fun n hn => absurd ⟨n, hn⟩ hlit⟩, hw'⟩
    refine hstep.bind fun v hv => (ih hrest hn.2).bind fun vs hvs => Eval.gives_pure ?_
    obtain ⟨i, rfl, hi⟩ := hv
    obtain ⟨is, rfl, hs⟩ := hvs
    exact ⟨i :: is, rfl, .cons hi hs⟩

end Expr

/-! ## Right sides -/

namespace Rhs

variable {Γ : Signature} {callees : Callees} {memory : Memory} {I : Workspace → Prop}

/-- The value of one of the expressions, which may be stored where the target type is expected. -/
def Delivers (Γ : Signature) (target : Ty) (values : List Expr) (v : Value) : Prop :=
  ∃ t, ∃ e ∈ values, e.HasType Γ t ∧ v.HasType t ∧ target.assignable t = true

theorem gives_stores (hΓ : callees.functions = Γ.functions) (hc : callees.Sound I)
    (hm : memory.Holds Γ I) {target : Ty} {e : Expr} (he : Stores Γ target e) (hn : e.NullFree Γ)
    {values : List Expr} (hmem : e ∈ values) :
    Eval.Gives I (Delivers Γ target values) (e.eval callees memory) := by
  obtain ⟨t, ht, ha⟩ := he
  intro w hw
  have h := Expr.gives_eval hΓ hc hm ht hn w hw
  cases hr : e.eval callees memory w with
  | error f w' => simpa only [hr] using h
  | ok v w' =>
    simp only [hr] at h ⊢
    exact ⟨⟨t, e, hmem, ht, h.1, ha⟩, h.2⟩

/-- Conditions one after the other, by induction on the cases that are left. -/
theorem gives_evalCases (hΓ : callees.functions = Γ.functions) (hc : callees.Sound I)
    (hm : memory.Holds Γ I) {target : Ty} {otherwise : Option Expr} {cases : List (Expr × Expr)}
    (hcases : ∀ c ∈ cases, c.1.HasType Γ .integer ∧ Stores Γ target c.2)
    (hother : ∀ e ∈ otherwise, Stores Γ target e)
    (hn : (guarded cases otherwise).NullFree Γ) {values : List Expr}
    (hmem : ∀ e ∈ (guarded cases otherwise).values, e ∈ values) :
    Eval.Gives I (Delivers Γ target values) (evalCases callees memory otherwise cases) := by
  induction cases with
  | nil =>
    cases otherwise with
    | none => exact fun _ hw => ⟨rfl, hw⟩
    | some e =>
      exact gives_stores hΓ hc hm (hother e rfl) (hn.2 e List.mem_cons_self)
        (hmem e List.mem_cons_self)
  | cons c rest ih =>
    obtain ⟨condition, value⟩ := c
    obtain ⟨⟨hcondition, hvalue⟩, hrest⟩ := List.forall_mem_cons.1 hcases
    obtain ⟨hnc, hncs⟩ := List.forall_mem_cons.1 hn.1
    obtain ⟨hnv, hnvs⟩ := List.forall_mem_cons.1 hn.2
    obtain ⟨hmv, hmvs⟩ := List.forall_mem_cons.1 hmem
    refine (Expr.gives_eval hΓ hc hm hcondition hnc).bind fun v hv => ?_
    obtain ⟨n, hasInteger⟩ := Value.asInteger_eq hv
    rw [hasInteger]
    show Eval.Gives I _ (if n ≠ 0 then _ else _)
    split
    · exact gives_stores hΓ hc hm hvalue hnv hmv
    · exact ih hrest ⟨hncs, hnvs⟩ hmvs

/-- A right side gives one of its values, or says that there is none. -/
theorem gives_eval (hΓ : callees.functions = Γ.functions) (hc : callees.Sound I)
    (hm : memory.Holds Γ I) {target : Ty} {r : Rhs} (hr : r.Suits Γ target) (hn : r.NullFree Γ) :
    Eval.Gives I (Delivers Γ target r.values) (r.eval callees memory) := by
  cases hr with
  | plain he =>
    exact gives_stores hΓ hc hm he (hn.2 _ List.mem_cons_self) List.mem_cons_self
  | guarded _ hcases hother =>
    exact gives_evalCases hΓ hc hm hcases hother hn fun _ h => h

end Rhs

end VectorScript
