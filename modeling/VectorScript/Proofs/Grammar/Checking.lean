import VectorScript.Proofs.Grammar.Outcome
import VectorScript.Proofs.Grammar.Term

/-!
# Checks while reading

The steps that look names up and check the nodes of a tree read nothing. They succeed exactly if the
node checks, with the checked expression that the node has.
-/

namespace VectorScript

namespace Parse

variable {α β : Type} {s : Surroundings} {b : Draft} {p : Parse α} {f : α → Parse β}
  {o : Option α} {g : α → Option β}

/-- The step reads nothing. Its result is the given one; if there is none, it fails. -/
def Computes (s : Surroundings) (b : Draft) (p : Parse α) (o : Option α) : Prop :=
  ∀ fails i, (o = none → fails) → Outcome s b fails p i fun a j => o = some a ∧ j = i

theorem Computes.bind (hp : Computes s b p o) (hf : ∀ a, Computes s b (f a) (g a)) :
    Computes s b (p >>= f) (o.bind g) := by
  intro fails i h
  refine (hp fails i fun ho => h (by rw [ho]; rfl)).bind fun a j ha => ?_
  obtain ⟨rfl, rfl⟩ := ha
  exact hf a fails j h

theorem Computes.map {h : α → β} (hp : Computes s b p o)
    (hf : ∀ a, Computes s b (f a) (some (h a))) : Computes s b (p >>= f) (o.map h) := by
  rw [Option.map_eq_bind]
  exact hp.bind hf

theorem Computes.stop (hp : Computes s b p none) : Computes s b (p >>= f) none :=
  fun fails i h => (hp fails i fun _ => h rfl).bind fun _ _ ha => nomatch ha.1

theorem computes_pure {a : α} : Computes s b (pure a) (some a) :=
  fun _ _ _ => outcome_pure ⟨rfl, rfl⟩

theorem computes_throw (x : Fault) : Computes s b (throw x : Parse α) none :=
  fun _ _ h => outcome_throw _ (h rfl)

theorem computes_failAbout (cause : Cause) (item : String) (place : Position) :
    Computes s b (failAbout cause item place : Parse α) none := computes_throw _

/-! ## Names and operators -/

theorem computes_lookup? {name : String} {f : Option Symbol → Parse β} {o : Option β}
    (h : Computes s b (f (symbol? s b name)) o) : Computes s b (lookup? name >>= f) o := by
  intro fails i ho
  refine (outcome_lookup? name).bind fun _ j hj => ?_
  obtain ⟨rfl, rfl⟩ := hj
  exact h fails j ho

theorem computes_nameValue (name : String) (place : Position) :
    Computes s b (nameValue name place) ((symbol? s b name).bind Typed.named?) := by
  refine computes_lookup? ?_
  cases symbol? s b name with
  | none => exact computes_failAbout _ _ _
  | some symbol =>
    cases symbol with
    | var | constant => exact computes_pure
    | function | typedef => exact computes_failAbout _ _ _

theorem computes_integer (n : Int) (place : Position) :
    Computes s b (do return ⟨.literal (.integer (← integer n place)), .integer⟩)
      (Typed.integer? n) := by
  unfold integer Typed.integer?
  split
  · exact computes_pure
  · exact Computes.bind (computes_failAbout _ _ _) fun _ => computes_pure

theorem computes_checkOperation (op : Operation) (l r : Ty) (place : Position) :
    Computes s b (checkOperation op l r place) (op.check l r).toOption := by
  unfold checkOperation
  split
  · next h =>
    rw [h]
    exact computes_pure
  · next h =>
    rw [h]
    exact computes_throw _

theorem computes_signed (op : Operation) (e : Typed) (place : Position) :
    Computes s b (do
        checkOperation op e.ty e.ty place
        return ⟨.unary op (Ty.pair? e.ty e.ty) e.expr, op.resultType e.ty e.ty⟩)
      (Typed.signed? op e) :=
  (computes_checkOperation _ _ _ place).map fun _ => computes_pure

theorem computes_joined (op : Operation) (l r : Typed) (place : Position) :
    Computes s b (do
        checkOperation op l.ty r.ty place
        return (.inl ⟨.binary op (Ty.pair? l.ty r.ty) l.expr r.expr, op.resultType l.ty r.ty⟩ :
          Typed ⊕ Typed))
      ((Typed.joined? op l r).map Sum.inl) := by
  rw [Typed.joined?, Option.map_map]
  exact (computes_checkOperation _ _ _ place).map fun _ => computes_pure

theorem computes_indexed (e i : Typed) (place : Position) :
    Computes s b (indexed e i place) (Typed.index? e i) := by
  refine (computes_checkOperation _ _ _ place).map fun _ => ?_
  obtain ⟨l, t⟩ := e
  cases t <;> exact computes_pure

theorem toOption_check_member (t : Ty) (name : String) :
    (Operation.member.check t (.selector name)).toOption = (t.field? name).map fun _ => () := by
  simp only [Operation.check, Operation.checkMember]
  cases t.field? name <;> rfl

theorem computes_selected (e : Typed) (name : String) (place : Position) :
    Computes s b (selected e name place) (Typed.member? e name) := by
  have hc : Computes s b (checkOperation .member e.ty (.selector name) place) _ :=
    computes_checkOperation _ _ _ place
  rw [toOption_check_member] at hc
  unfold selected Typed.member?
  cases he : e.ty.field? name with
  | none =>
    rw [he] at hc
    exact hc.stop
  | some field =>
    rw [he] at hc
    exact hc.bind fun _ => computes_pure

/-! ## Components and arguments -/

/-- The vector or matrix of items. -/
def componentsOf (items : List Typed) (place : Position) : Parse Typed :=
  match items with
  | [a, b, c, d] =>
    if items.all fun e => e.ty.isNumeric then
      return ⟨.vector a.expr b.expr c.expr d.expr, .vector⟩
    else if items.all fun e => e.ty = .vector then
      return ⟨.matrix a.expr b.expr c.expr d.expr, .matrix⟩
    else failAbout .expressionMismatch "[]" place
  | _ => failAbout .wrongComponents "[]" place

theorem components_eq (expression : Parse Typed) (place : Position) :
    components expression place = (do
      let items ← separated expression
      expectMark .rightBracket
      componentsOf items place) := rfl

theorem computes_componentsOf (place : Position) : (items : List Typed) →
    Computes s b (componentsOf items place) (Typed.components? items)
  | [_, _, _, _] => by
    simp only [componentsOf, Typed.components?]
    split
    · exact computes_pure
    · split
      · exact computes_pure
      · exact computes_failAbout _ _ _
  | [] | [_] | [_, _] | [_, _, _] | _ :: _ :: _ :: _ :: _ :: _ => computes_failAbout _ _ _

theorem computes_checkArguments (name : String) {params : List Ty} {args : List (Typed × Position)}
    (hlen : params.length = args.length) :
    Computes s b (checkArguments name params args)
      (if Ty.accepts params (args.map fun a => a.1.ty) then some () else none) := by
  induction params generalizing args with
  | nil =>
    cases args with
    | nil => exact computes_pure
    | cons => cases hlen
  | cons param params ih =>
    cases args with
    | nil => cases hlen
    | cons arg args =>
      obtain ⟨e, place⟩ := arg
      unfold checkArguments
      simp only [List.map_cons, Ty.accepts]
      split
      · next ha =>
        rw [ha, Bool.true_and]
        exact ih (Nat.succ.inj hlen)
      · next ha =>
        rw [if_neg fun h => ha (Bool.and_eq_true_iff.1 h).1]
        exact computes_failAbout _ _ _

theorem computes_noteSubscript (f : HostFunction) (args : List (Typed × Position)) :
    Computes s b (noteSubscript f args) (some ()) := by
  have hadd : ∀ script : String, Computes s b
      (modify fun d => { d with subscripts := d.subscripts.add script } : Parse Unit)
      (some ()) := by
    intro script fails i _
    refine Outcome.mono (Q := fun _ j => j = i) ?_ fun _ _ h => ⟨rfl, h⟩
    exact outcome_modify (fun _ => ⟨rfl, rfl, rfl, rfl, rfl, rfl⟩) (fun _ h => h) (Nat.le_refl _)
  unfold noteSubscript
  split
  · split
    · intro fails i _
      refine outcome_read.bind fun _ _ h => ?_
      obtain ⟨-, rfl⟩ := h
      split
      · exact hadd _ fails _ nofun
      · exact outcome_pure ⟨rfl, rfl⟩
    · exact computes_pure
  · exact computes_pure

/-- The call of a function with arguments. -/
def callOf (index : Nat) (f : HostFunction) (args : List (Typed × Position)) (name : String)
    (place : Position) : Parse Typed := do
  if f.params.length ≠ args.length then failAbout .wrongArgumentCount name place
  checkArguments name f.params args
  noteSubscript f args
  return ⟨.call index (args.map fun a => a.1.expr), f.ret⟩

theorem call_eq (expression : Parse Typed) (name : String) (place : Position) :
    call expression name place = (do
      match ← lookup? name with
      | some (.function index f) =>
        let args ← arguments expression
        callOf index f args name place
      | some _ => failAbout .notFunction name place
      | none => failAbout .notDeclared name place) := rfl

theorem computes_callOf (index : Nat) (f : HostFunction) (args : List (Typed × Position))
    (name : String) (place : Position) :
    Computes s b (callOf index f args name place)
      (Typed.call? (args.map (·.1)) (.function index f)) := by
  have htypes : (args.map (·.1)).map (·.ty) = args.map fun a => a.1.ty := List.map_map
  have hexprs : (args.map (·.1)).map (·.expr) = args.map fun a => a.1.expr := List.map_map
  show Computes s b _ (if Ty.accepts f.params ((args.map (·.1)).map (·.ty)) then
    some (⟨.call index ((args.map (·.1)).map (·.expr)), f.ret⟩ : Typed) else none)
  rw [htypes, hexprs]
  unfold callOf
  split
  · next hlen =>
    rw [if_neg fun h => hlen (by simpa using Ty.length_of_accepts h)]
    exact Computes.stop (computes_failAbout _ _ _)
  · next hlen =>
    have hc := computes_checkArguments (s := s) (b := b) name (Decidable.not_not.1 hlen)
    split
    · next ha =>
      rw [if_pos ha] at hc
      exact hc.bind fun _ => (computes_noteSubscript f args).bind fun _ => computes_pure
    · next ha =>
      rw [if_neg ha] at hc
      exact hc.stop

end Parse

end VectorScript
