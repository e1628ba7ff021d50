import VectorScript.Proofs.Grammar.Acceptance

/-!
# Whatever is read is a writing

A step recognizes a language if the tokens that it reads write a tree whose nodes check, and its
result is the checked expression of the tree. Each combinator of the grammar is recognized by the
step that reads it.

    expression room reads e from i and leaves j →
      ∃ t ts, i = ts ++ j ∧ Expression room t ts ∧ t.elaborate? (symbol? s b) = some e
                                                                      (recognizes_expression)
-/

namespace VectorScript

open Grammar

namespace Parse

variable {s : Surroundings} {b : Draft} {L E : Language}

/-- What is read is a writing of a tree whose checked expression is the result. -/
def Recognizes (s : Surroundings) (b : Draft) (p : Parse Typed) (L : Language) : Prop :=
  ∀ i, Outcome s b True p i fun e j =>
    ∃ t ts, i = ts ++ j ∧ L t ts ∧ t.elaborate? (symbol? s b) = some e

/-- What a check finds, if it succeeds. -/
theorem Computes.finds {α : Type} {p : Parse α} {o : Option α} (h : Computes s b p o)
    (i : List Token) : Outcome s b True p i fun a j => o = some a ∧ j = i :=
  h True i fun _ => trivial

/-! ## Binary operators -/

section

variable {level : Nat} {operand : Parse Typed} {operators : Level}

/-- A round of a chain finds nothing, or an operator of the level and its right operand. -/
theorem finds_chainStep (hp : Recognizes s b operand L)
    (hops : ∀ sign, binaryOperation? level sign = operators.lookup sign) (a : Typed)
    (i : List Token) :
    Outcome s b True (chainStep level operand a) i fun r j =>
      (r = .inr a ∧ j = i) ∨ ∃ sign op t ts c e, i = .operator sign :: (ts ++ j) ∧
        operators.lookup sign = some op ∧ L t ts ∧ t.elaborate? (symbol? s b) = some c ∧
        Typed.joined? op a c = some e ∧ r = .inl e := by
  refine outcome_peek?.bind fun o j hj => ?_
  obtain ⟨rfl, rfl⟩ := hj
  split
  · next sign hs =>
    obtain ⟨rest, rfl⟩ := List.head?_eq_some_iff.1 hs
    rw [hops]
    split
    · next op hop =>
      refine outcome_position.bind fun place _ hj => outcome_skip.bind fun _ _ hj' => ?_
      subst hj hj'
      refine (hp _).bind fun c j hc => ?_
      obtain ⟨t, ts, hts, ht, hc⟩ := hc
      refine ((computes_joined op a c place).finds j).mono fun r k hr => ?_
      obtain ⟨hr, rfl⟩ := hr
      obtain ⟨e, he, rfl⟩ := Option.map_eq_some_iff.1 hr
      exact .inr ⟨sign, op, t, ts, c, e, congrArg _ hts, hop, ht, hc, he, rfl⟩
    · exact outcome_pure (.inl ⟨rfl, rfl⟩)
  · exact outcome_pure (.inl ⟨rfl, rfl⟩)

theorem recognizes_further (hp : Recognizes s b operand L)
    (hops : ∀ sign, binaryOperation? level sign = operators.lookup sign) {l : Term} {a : Typed}
    (ha : l.elaborate? (symbol? s b) = some a) (rounds : Nat) (i : List Token) :
    Outcome s b True (iterate (chainStep level operand) rounds a) i fun e j =>
      ∃ t us, i = us ++ j ∧ Further operators L l t us ∧ t.elaborate? (symbol? s b) = some e := by
  induction rounds generalizing l a i with
  | zero => exact outcome_throw _ trivial
  | succ rounds ih =>
    refine outcome_iterate (finds_chainStep hp hops a i) (fun e j h => ?_) fun e j h => ?_
    · obtain ⟨h, -⟩ | ⟨sign, op, r, ts, c, e, rfl, hop, hr, hc, he, h⟩ := h <;> cases h
      refine (ih (Term.elaborate?_joined.2 ⟨a, c, ha, hc, he⟩) j).mono fun e' k h => ?_
      obtain ⟨t, us, rfl, hf, ht⟩ := h
      exact ⟨t, _, by simp, .next hop hr hf, ht⟩
    · obtain ⟨h, rfl⟩ | ⟨_, _, _, _, _, _, -, -, -, -, -, h⟩ := h <;> cases h
      exact ⟨l, [], rfl, .done, ha⟩

theorem recognizes_chain (hp : Recognizes s b operand L)
    (hops : ∀ sign, binaryOperation? level sign = operators.lookup sign) :
    Recognizes s b (chain level operand) (Chain operators L) := by
  intro i
  rw [chain_eq]
  refine (hp i).bind fun a j h => ?_
  obtain ⟨first, ts, rfl, hf, ha⟩ := h
  refine outcome_loop fun _ => (recognizes_further hp hops ha _ j).mono fun e k h => ?_
  obtain ⟨t, us, rfl, hr, ht⟩ := h
  exact ⟨t, ts ++ us, by simp, ⟨hf, hr⟩, ht⟩

theorem recognizes_binary (hp : Recognizes s b operand L) :
    Recognizes s b (binary operand) (Joined L precedence) :=
  binary_induction (P := fun p levels => Recognizes s b p (Joined L levels)) hp
    fun _ _ _ _ hp hops _ => recognizes_chain hp hops

end

/-! ## Signs -/

theorem recognizes_signed {inner bare : Parse Typed} {I : Language}
    (hi : Recognizes s b inner I) (hb : Recognizes s b bare L) :
    Recognizes s b (signed inner bare) (Signed I L) := by
  intro i
  refine outcome_peek?.bind fun o j hj => ?_
  obtain ⟨rfl, rfl⟩ := hj
  split
  · refine (hb _).mono fun e j h => ?_
    obtain ⟨t, ts, hts, ht, he⟩ := h
    exact ⟨t, ts, hts, .bare ht, he⟩
  · next op hop =>
    obtain ⟨first, hfirst, hop⟩ := Option.bind_eq_some_iff.1 hop
    obtain ⟨rest, rfl⟩ := List.head?_eq_some_iff.1 hfirst
    obtain ⟨sign, rfl, hop⟩ := signToken?_eq_some hop
    refine outcome_position.bind fun place _ hj => outcome_skip.bind fun _ _ hj' => ?_
    subst hj hj'
    refine outcome_peek?.bind fun o j hj => ?_
    obtain ⟨rfl, rfl⟩ := hj
    split
    -- A minus sign before an integer is part of the literal.
    · next n hn hlook _ =>
      obtain ⟨us, rfl⟩ := List.head?_eq_some_iff.1 hn
      obtain rfl := eq_minus_of_negate hlook
      refine outcome_position.bind fun place _ hj => outcome_skip.bind fun _ _ hj' => ?_
      subst hj hj'
      refine ((computes_integer (-n) place).finds _).mono fun e j he => ?_
      obtain ⟨he, rfl⟩ := he
      exact ⟨.integer (-n), [.operator .minus, .integer n], rfl, .negative n, by
        rw [Term.elaborate?, he]⟩
    · next op _ _ hlook _ hne =>
      refine (hi _).bind fun a j h => ?_
      obtain ⟨t, ts, rfl, ht, ha⟩ := h
      refine ((computes_signed op a place).finds j).mono fun e k he => ?_
      obtain ⟨he, rfl⟩ := he
      refine ⟨.signed op t, .operator sign :: ts, rfl, .signed hlook ht ?_,
        Term.elaborate?_signed.2 ⟨a, ha, he⟩⟩
      rintro rfl ⟨n, us, rfl⟩
      exact hne n rfl rfl

/-! ## Items -/

section

variable {α : Type} {item : Parse α} {typed : α → Typed}

/-- What an item reads is a writing of a tree whose checked expression it comes with. -/
def RecognizesItem (s : Surroundings) (b : Draft) (item : Parse α) (typed : α → Typed)
    (E : Language) : Prop :=
  ∀ i, Outcome s b True item i fun a j =>
    ∃ t ts, i = ts ++ j ∧ E t ts ∧ t.elaborate? (symbol? s b) = some (typed a)

/-- A round of a list finds an item with a comma after it, or the last item. -/
theorem finds_itemStep (h : RecognizesItem s b item typed E) (before : List α) (i : List Token) :
    Outcome s b True (itemStep item before) i fun r j =>
      ∃ a t ts, E t ts ∧ t.elaborate? (symbol? s b) = some (typed a) ∧
        ((i = ts ++ .mark .comma :: j ∧ r = .inl (a :: before)) ∨
          (i = ts ++ j ∧ r = .inr (a :: before).reverse)) := by
  refine (h i).bind fun a j ha => ?_
  obtain ⟨t, ts, rfl, ht, he⟩ := ha
  refine (outcome_accept _).bind fun r k hr => ?_
  rcases hr with ⟨rfl, rfl⟩ | ⟨rfl, rfl, -⟩
  · exact outcome_pure ⟨a, t, ts, ht, he, .inl ⟨rfl, rfl⟩⟩
  · exact outcome_pure ⟨a, t, ts, ht, he, .inr ⟨rfl, rfl⟩⟩

theorem recognizes_items (h : RecognizesItem s b item typed E) (rounds : Nat) (before : List α)
    (i : List Token) :
    Outcome s b True (iterate (itemStep item) rounds before) i fun as j =>
      ∃ items ts new, i = ts ++ j ∧ Items E items ts ∧ as = before.reverse ++ new ∧
        Term.elaborateAll? (symbol? s b) items = some (new.map typed) := by
  induction rounds generalizing before i with
  | zero => exact outcome_throw _ trivial
  | succ rounds ih =>
    refine outcome_iterate (finds_itemStep h before i) (fun c j hr => ?_) fun as j hr => ?_
    · obtain ⟨a, t, ts, ht, he, ⟨rfl, hc⟩ | ⟨-, hc⟩⟩ := hr <;> cases hc
      refine (ih (a :: before) j).mono fun as k hr => ?_
      obtain ⟨items, us, new, rfl, hi, rfl, hes⟩ := hr
      exact ⟨t :: items, _, a :: new, by simp, .more ht hi, by simp,
        Term.elaborateAll?_cons.2 ⟨_, _, he, hes, rfl⟩⟩
    · obtain ⟨a, t, ts, ht, he, ⟨-, hc⟩ | ⟨rfl, hc⟩⟩ := hr <;> cases hc
      exact ⟨[t], ts, [a], rfl, .one ht, by simp,
        Term.elaborateAll?_cons.2 ⟨_, [], he, rfl, rfl⟩⟩

theorem recognizes_separated (h : RecognizesItem s b item typed E) (i : List Token) :
    Outcome s b True (separated item) i fun as j => ∃ items ts, i = ts ++ j ∧ Items E items ts ∧
      Term.elaborateAll? (symbol? s b) items = some (as.map typed) := by
  rw [separated_eq]
  refine outcome_loop fun _ => (recognizes_items h _ [] i).mono fun as j hr => ?_
  obtain ⟨items, ts, new, hts, hi, rfl, hes⟩ := hr
  exact ⟨items, ts, hts, hi, hes⟩

end

/-! ## Primary expressions -/

section

variable {expression : Parse Typed}

theorem Recognizes.item (h : Recognizes s b expression E) :
    RecognizesItem s b expression id E := h

theorem Recognizes.argument (h : Recognizes s b expression E) :
    RecognizesItem s b (do
      let p ← position
      return (← expression, p)) Prod.fst E := by
  intro i
  refine outcome_position.bind fun p j hj => ?_
  subst hj
  exact Outcome.bind (h j) fun a k ha => outcome_pure ha

/-- A mark that must come next comes next. -/
theorem finds_expect (t : Token) (i : List Token) :
    Outcome s b True (expect t) i fun _ j => i = t :: j := outcome_expect t fun _ => trivial

theorem recognizes_components (h : Recognizes s b expression E) (place : Position)
    (i : List Token) :
    Outcome s b True (components expression place) i fun e j => ∃ items ts,
      i = ts ++ .mark .rightBracket :: j ∧ Items E items ts ∧
        (Term.components items).elaborate? (symbol? s b) = some e := by
  rw [components_eq]
  refine (recognizes_separated h.item i).bind fun as j ha => ?_
  obtain ⟨items, ts, rfl, hi, hes⟩ := ha
  rw [List.map_id] at hes
  refine (finds_expect _ j).bind fun _ k hk => ?_
  subst hk
  refine ((computes_componentsOf place as).finds k).mono fun e j he => ?_
  obtain ⟨he, rfl⟩ := he
  exact ⟨items, ts, rfl, hi, Term.elaborate?_components.2 ⟨as, hes, he⟩⟩

theorem recognizes_listLiteral (h : Recognizes s b expression E) (i : List Token) :
    Outcome s b True (listLiteral expression) i fun e j => ∃ items ts,
      i = ts ++ .mark .rightBrace :: j ∧ Entries E items ts ∧
        (Term.list items).elaborate? (symbol? s b) = some e := by
  refine (outcome_accept _).bind fun r j hr => ?_
  rcases hr with ⟨rfl, rfl⟩ | ⟨rfl, rfl, -⟩
  · exact outcome_pure ⟨[], [], rfl, .none, rfl⟩
  · refine (recognizes_separated h.item j).bind fun as k ha => ?_
    obtain ⟨items, ts, rfl, hi, hes⟩ := ha
    rw [List.map_id] at hes
    refine (finds_expect _ k).bind fun _ l hl => ?_
    subst hl
    refine outcome_pure ⟨items, ts, rfl, .some hi, Term.elaborate?_list.2 ⟨as, hes, ?_⟩⟩
    cases as with
    | nil => exact absurd rfl (hi.elaborated_ne_nil hes)
    | cons => rfl

theorem recognizes_arguments (h : Recognizes s b expression E) (i : List Token) :
    Outcome s b True (arguments expression) i fun as j => ∃ items ts,
      i = .mark .leftParen :: (ts ++ .mark .rightParen :: j) ∧ Entries E items ts ∧
        Term.elaborateAll? (symbol? s b) items = some (as.map (·.1)) := by
  refine (finds_expect _ i).bind fun _ j hj => ?_
  subst hj
  refine (outcome_accept _).bind fun r k hr => ?_
  rcases hr with ⟨rfl, rfl⟩ | ⟨rfl, rfl, -⟩
  · exact outcome_pure ⟨[], [], rfl, .none, rfl⟩
  · refine (recognizes_separated h.argument k).bind fun as l ha => ?_
    obtain ⟨items, ts, rfl, hi, hes⟩ := ha
    refine (finds_expect _ l).bind fun _ m hm => ?_
    subst hm
    exact outcome_pure ⟨items, ts, rfl, .some hi, hes⟩

theorem recognizes_call (h : Recognizes s b expression E) (f : String) (place : Position)
    (i : List Token) :
    Outcome s b True (call expression f place) i fun e j => ∃ args ts,
      i = .mark .leftParen :: (ts ++ .mark .rightParen :: j) ∧ Entries E args ts ∧
        (Term.call f args).elaborate? (symbol? s b) = some e := by
  rw [call_eq]
  refine (outcome_lookup? f).bind fun o j ho => ?_
  obtain ⟨rfl, rfl⟩ := ho
  split
  · next index g hs =>
    refine (recognizes_arguments h j).bind fun as k ha => ?_
    obtain ⟨args, ts, rfl, hi, hes⟩ := ha
    refine ((computes_callOf index g as f place).finds k).mono fun e l he => ?_
    obtain ⟨he, rfl⟩ := he
    exact ⟨args, ts, rfl, hi, Term.elaborate?_call.2 ⟨_, _, hes, hs, he⟩⟩
  · exact outcome_failAbout _ _ _ trivial
  · exact outcome_failAbout _ _ _ trivial

theorem recognizes_primary (h : Recognizes s b expression E) :
    Recognizes s b (primary expression) (Primary E) := by
  intro i
  refine outcome_position.bind fun place _ hj => outcome_next?.bind fun o j ho => ?_
  subst hj
  obtain ⟨ho, rfl⟩ := ho
  split
  · exact outcome_failAbout _ _ _ trivial
  · next token _ =>
    obtain ⟨rest, rfl⟩ := List.head?_eq_some_iff.1 ho.symm
    simp only [List.tail_cons]
    split
    · next n =>
      refine ((computes_integer n place).finds rest).mono fun e j he => ?_
      obtain ⟨he, rfl⟩ := he
      exact ⟨.integer n, _, rfl, .integer n, by rw [Term.elaborate?, he]⟩
    · next x => exact outcome_pure ⟨.real x, _, rfl, .real x, rfl⟩
    · next t => exact outcome_pure ⟨.text t, _, rfl, .text t, rfl⟩
    · refine (h rest).bind fun e j he => ?_
      obtain ⟨t, ts, rfl, ht, he⟩ := he
      refine (finds_expect _ j).bind fun _ k hk => ?_
      subst hk
      exact outcome_pure ⟨t, _, by simp, .parens ht, he⟩
    · refine (recognizes_components h place rest).mono fun e j he => ?_
      obtain ⟨items, ts, rfl, hi, he⟩ := he
      exact ⟨.components items, _, by simp, .components hi, he⟩
    · refine (recognizes_listLiteral h rest).mono fun e j he => ?_
      obtain ⟨items, ts, rfl, hi, he⟩ := he
      exact ⟨.list items, _, by simp, .list hi, he⟩
    · next name =>
      refine outcome_peek?.bind fun o j hj => ?_
      obtain ⟨-, rfl⟩ := hj
      split
      -- The token after a name tells a call from a value.
      · refine (recognizes_call h name place j).mono fun e k he => ?_
        obtain ⟨args, ts, rfl, hi, he⟩ := he
        exact ⟨.call name args, _, by simp, .call name hi, he⟩
      · refine ((computes_nameValue name place).finds j).mono fun e k he => ?_
        obtain ⟨he, rfl⟩ := he
        exact ⟨.name name, _, rfl, .name name, by rw [Term.elaborate?_name, he]⟩
    · exact outcome_failAbout _ _ _ trivial

/-! ## Indices and fields -/

/-- A round after an operand finds nothing, an index or a field. -/
theorem finds_suffixStep (h : Recognizes s b expression E) (a : Typed) (i : List Token) :
    Outcome s b True (suffixStep expression a) i fun r j =>
      (r = .inr a ∧ j = i) ∨
      (∃ t ts c e, i = .mark .leftBracket :: (ts ++ .mark .rightBracket :: j) ∧ E t ts ∧
        t.elaborate? (symbol? s b) = some c ∧ Typed.index? a c = some e ∧ r = .inl e) ∨
      ∃ field e, i = .mark .dot :: .ident field :: j ∧ Typed.member? a field = some e ∧
        r = .inl e := by
  refine outcome_position.bind fun place _ hj => outcome_peek?.bind fun o j hj' => ?_
  subst hj
  obtain ⟨rfl, rfl⟩ := hj'
  split
  · next hi =>
    obtain ⟨rest, rfl⟩ := List.head?_eq_some_iff.1 hi
    refine outcome_skip.bind fun _ _ hj => ?_
    subst hj
    refine (h _).bind fun c j hc => ?_
    obtain ⟨t, ts, hts, ht, hc⟩ := hc
    refine (finds_expect _ j).bind fun _ k hk => ?_
    subst hk
    refine ((computes_indexed a c place).finds k).bind fun e l he => ?_
    obtain ⟨he, rfl⟩ := he
    exact outcome_pure (.inr (.inl ⟨t, ts, c, e, congrArg _ hts, ht, hc, he, rfl⟩))
  · next hi =>
    obtain ⟨rest, rfl⟩ := List.head?_eq_some_iff.1 hi
    refine outcome_skip.bind fun _ _ hj => ?_
    subst hj
    refine (outcome_ident fun _ => trivial).bind fun r j hr => ?_
    obtain ⟨field, fieldPlace⟩ := r
    refine ((computes_selected a field fieldPlace).finds j).bind fun e l he => ?_
    obtain ⟨he, rfl⟩ := he
    exact outcome_pure (.inr (.inr ⟨field, e, congrArg _ hr, he, rfl⟩))
  · exact outcome_pure (.inl ⟨rfl, rfl⟩)

theorem recognizes_suffixes (h : Recognizes s b expression E) {l : Term} {a : Typed}
    (ha : l.elaborate? (symbol? s b) = some a) (rounds : Nat) (i : List Token) :
    Outcome s b True (iterate (suffixStep expression) rounds a) i fun e j =>
      ∃ t us, i = us ++ j ∧ Suffixes E l t us ∧ t.elaborate? (symbol? s b) = some e := by
  induction rounds generalizing l a i with
  | zero => exact outcome_throw _ trivial
  | succ rounds ih =>
    refine outcome_iterate (finds_suffixStep h a i) (fun e j hr => ?_) fun e j hr => ?_
    · obtain ⟨hr, -⟩ | ⟨t, ts, c, e, rfl, ht, hc, he, hr⟩ | ⟨field, e, rfl, he, hr⟩ := hr <;>
        cases hr
      · refine (ih (Term.elaborate?_index.2 ⟨a, c, ha, hc, he⟩) j).mono fun e' k hr => ?_
        obtain ⟨u, us, rfl, hs, hu⟩ := hr
        exact ⟨u, _, by simp, .index ht hs, hu⟩
      · refine (ih (Term.elaborate?_member.2 ⟨a, ha, he⟩) j).mono fun e' k hr => ?_
        obtain ⟨u, us, rfl, hs, hu⟩ := hr
        exact ⟨u, _, rfl, .member hs, hu⟩
    · obtain ⟨hr, rfl⟩ | ⟨_, _, _, _, -, -, -, -, hr⟩ | ⟨_, _, -, -, hr⟩ := hr <;> cases hr
      exact ⟨l, [], rfl, .done, ha⟩

theorem recognizes_suffixed (h : Recognizes s b expression E) :
    Recognizes s b (suffixed expression) (Suffixed E) := by
  intro i
  rw [suffixed_eq]
  refine (recognizes_primary h i).bind fun a j hr => ?_
  obtain ⟨first, ts, rfl, hf, ha⟩ := hr
  refine outcome_loop fun _ => (recognizes_suffixes h ha _ j).mono fun e k hr => ?_
  obtain ⟨t, us, rfl, hs, ht⟩ := hr
  exact ⟨t, ts ++ us, by simp, ⟨hf, hs⟩, ht⟩

end

/-! ## Nested expressions -/

theorem recognizes_tooDeep (L : Language) : Recognizes s b tooDeep L :=
  fun _ => outcome_tooDeep trivial

theorem recognizes_operandIn (room : Nat) : Recognizes s b (operandIn room) (Operand room) := by
  induction room with
  | zero =>
    exact recognizes_signed (recognizes_tooDeep _) (recognizes_suffixed (recognizes_tooDeep _))
  | succ room ih => exact recognizes_signed ih (recognizes_suffixed (recognizes_binary ih))

/-- Whatever an expression is read from writes a tree whose nodes check. -/
theorem recognizes_expression (room : Nat) :
    Recognizes s b (expression room) (Expression room) := by
  cases room with
  | zero => exact recognizes_tooDeep _
  | succ room => exact recognizes_binary (recognizes_operandIn room)

end Parse

end VectorScript
