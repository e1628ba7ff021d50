import VectorScript.Proofs.Grammar.Checking
import VectorScript.Proofs.Grammar.Rounds

/-!
# Every writing is read

A step accepts a language if it reads every writing of a tree whose nodes check, up to the end of
the writing, as the checked expression of the tree. What comes next must not go on with the
expression. Each combinator of the grammar is accepted by the step that reads it.

    Expression room t ts → Ends precedence rest → t.elaborate? (symbol? s b) = some e →
      expression room reads e from ts ++ rest and leaves rest                 (accepts_expression)
-/

namespace VectorScript

open Grammar

namespace Parse

variable {s : Surroundings} {b : Draft} {L E : Language}

/-- With the tokens `i` ahead, the step has this result and leaves the tokens `rest`. -/
def Reaches {α : Type} (s : Surroundings) (b : Draft) (p : Parse α) (i : List Token) (a : α)
    (rest : List Token) : Prop :=
  Outcome s b False p i fun c j => c = a ∧ j = rest

/-- Every writing of a tree whose nodes check is read as the tree's checked expression, if an end
comes next. -/
def Accepts (s : Surroundings) (b : Draft) (p : Parse Typed) (L : Language)
    (ends : List Token → Prop) : Prop :=
  ∀ t ts rest e, L t ts → t.elaborate? (symbol? s b) = some e → ends rest →
    Reaches s b p (ts ++ rest) e rest

section

variable {α β : Type} {p : Parse α} {f : α → Parse β} {a : α} {c : β} {i j k : List Token}

theorem Reaches.bind (hp : Reaches s b p i a j) (hf : Reaches s b (f a) j c k) :
    Reaches s b (p >>= f) i c k := by
  refine Outcome.bind hp fun _ _ h => ?_
  obtain ⟨rfl, rfl⟩ := h
  exact hf

theorem Computes.reaches {o : Option α} (h : Computes s b p o) (ho : o = some a) :
    Reaches s b p i a i := by
  refine (h False i fun hn => by rw [ho] at hn; cases hn).mono fun c j hc => ?_
  exact ⟨Option.some.inj (hc.1.symm.trans ho), hc.2⟩

theorem reaches_pure : Reaches s b (pure a) i a i := outcome_pure ⟨rfl, rfl⟩

/-- A look at the next token. -/
theorem reaches_peek? {f : Option Token → Parse β} (h : Reaches s b (f i.head?) i c k) :
    Reaches s b (peek? >>= f) i c k := Reaches.bind outcome_peek? h

theorem reaches_position {f : Position → Parse β} (h : ∀ place, Reaches s b (f place) i c k) :
    Reaches s b (position >>= f) i c k :=
  Outcome.bind outcome_position fun place _ hj => hj ▸ h place

theorem reaches_skip (t : Token) : Reaches s b skip (t :: i) () i :=
  outcome_skip.mono fun _ _ h => ⟨rfl, h⟩

theorem reaches_expect (t : Token) : Reaches s b (expect t) (t :: i) () i :=
  (outcome_expect t fun h => h rfl).mono fun _ _ h => ⟨rfl, (List.cons.inj h).2.symm⟩

theorem reaches_accept (t : Token) : Reaches s b (accept t) (t :: i) true i := by
  refine (outcome_accept t).mono fun r j h => ?_
  rcases h with ⟨rfl, h⟩ | ⟨-, -, h⟩
  · exact ⟨rfl, (List.cons.inj h).2.symm⟩
  · exact absurd rfl h

theorem reaches_accept_of_ne {t : Token} (h : i.head? ≠ some t) :
    Reaches s b (accept t) i false i := by
  refine (outcome_accept t).mono fun r j hr => ?_
  rcases hr with ⟨-, rfl⟩ | ⟨rfl, rfl, -⟩
  · exact absurd rfl h
  · exact ⟨rfl, rfl⟩

variable {step : α → Parse (α ⊕ β)} {a' : α} {rounds : Nat}

theorem reaches_iterate_more (hstep : Reaches s b (step a) i (.inl a') j)
    (h : Reaches s b (iterate step rounds a') j c k) :
    Reaches s b (iterate step (rounds + 1) a) i c k := Reaches.bind hstep h

theorem reaches_iterate_done (hstep : Reaches s b (step a) i (.inr c) j) :
    Reaches s b (iterate step (rounds + 1) a) i c j := Reaches.bind hstep reaches_pure

end

/-! ## Binary operators -/

section

variable {level : Nat} {operand : Parse Typed} {operators : Level} {tighter : List Level}

theorem reaches_chainStep_more {sign : Operator} {op : Operation} {i j : List Token}
    {a c e : Typed} (hop : binaryOperation? level sign = some op)
    (hr : Reaches s b operand i c j) (he : Typed.joined? op a c = some e) :
    Reaches s b (chainStep level operand a) (.operator sign :: i) (.inl e) j := by
  refine reaches_peek? ?_
  simp only [List.head?_cons, hop]
  refine reaches_position fun place => (reaches_skip _).bind <| hr.bind ?_
  exact (computes_joined op a c place).reaches (by rw [he]; rfl)

theorem reaches_chainStep_done {i : List Token} {a : Typed}
    (hops : ∀ sign, binaryOperation? level sign = operators.lookup sign)
    (h : Ends (operators :: tighter) i) :
    Reaches s b (chainStep level operand a) i (.inr a) i := by
  refine reaches_peek? ?_
  split
  · next sign hs =>
    obtain ⟨rest, rfl⟩ := List.head?_eq_some_iff.1 hs
    rw [hops, h _ List.mem_cons_self]
    exact reaches_pure
  · exact reaches_pure

/-- The rounds of a chain read the operators that go on from a tree, and stop at the end of them. -/
theorem reaches_further (hp : Accepts s b operand L (Ends tighter))
    (hops : ∀ sign, binaryOperation? level sign = operators.lookup sign)
    (hd : ∀ ops ∈ tighter, Apart operators ops) {l t : Term} {us rest : List Token} {a e : Typed}
    (h : Further operators L l t us) (ha : l.elaborate? (symbol? s b) = some a)
    (he : t.elaborate? (symbol? s b) = some e) (hr : Ends (operators :: tighter) rest)
    {rounds : Nat} (hrounds : (us ++ rest).length < rounds) :
    Reaches s b (iterate (chainStep level operand) rounds a) (us ++ rest) e rest := by
  -- Every round reads an operator at least, so the rounds left outnumber the tokens left.
  induction h generalizing a rounds with
  | done =>
    obtain rfl := Option.some.inj (ha.symm.trans he)
    cases rounds with
    | zero => cases hrounds
    | succ rounds => exact reaches_iterate_done (reaches_chainStep_done hops hr)
  | next hop ht hf ih =>
    obtain ⟨a', ha'⟩ := hf.elaborates he
    obtain ⟨c, c', hc, hc', hj⟩ := Term.elaborate?_joined.1 ha'
    obtain rfl := Option.some.inj (ha.symm.trans hc)
    cases rounds with
    | zero => cases hrounds
    | succ rounds =>
      rw [List.cons_append, List.append_assoc] at hrounds ⊢
      have hmore := hp _ _ _ _ ht hc' (hf.ends hd hr)
      refine reaches_iterate_more (reaches_chainStep_more ((hops _).trans hop) hmore hj) ?_
      apply ih ha' he
      simp only [List.length_cons, List.length_append] at hrounds ⊢
      omega

theorem accepts_chain (hp : Accepts s b operand L (Ends tighter))
    (hops : ∀ sign, binaryOperation? level sign = operators.lookup sign)
    (hd : ∀ ops ∈ tighter, Apart operators ops) :
    Accepts s b (chain level operand) (Chain operators L) (Ends (operators :: tighter)) := by
  rintro t _ rest e ⟨ht, hf⟩ he hr
  obtain ⟨a, ha⟩ := hf.elaborates he
  rw [List.append_assoc, chain_eq]
  refine (hp _ _ _ _ ht ha (hf.ends hd hr)).bind ?_
  exact outcome_loop fun hrounds => reaches_further hp hops hd hf ha he hr hrounds

theorem accepts_binary (hp : Accepts s b operand L (Ends [])) :
    Accepts s b (binary operand) (Joined L precedence) (Ends precedence) :=
  binary_induction (P := fun p levels => Accepts s b p (Joined L levels) (Ends levels)) hp
    fun _ _ _ _ => accepts_chain

end

/-! ## Signs -/

theorem accepts_signed {inner bare : Parse Typed} {I : Language}
    (hi : Accepts s b inner I (Ends [])) (hb : Accepts s b bare L (Ends []))
    (hI : I.Begins Opens) (hL : L.Begins OpensPrimary) :
    Accepts s b (signed inner bare) (Signed I L) (Ends []) := by
  intro t ts rest e h he hr
  unfold signed
  refine reaches_peek? ?_
  cases h with
  | negative n =>
    rw [Term.elaborate?] at he
    exact reaches_position fun _ => (reaches_skip _).bind <| reaches_peek? <|
      reaches_position fun place => (reaches_skip _).bind <| (computes_integer _ place).reaches he
  | @signed sign op t ts hop ht hn =>
    obtain ⟨a, ha, hs⟩ := Term.elaborate?_signed.1 he
    obtain ⟨first, us, rfl, -⟩ := hI _ _ ht
    have hsign : (some (Token.operator sign)).bind signToken? = some op := by
      rw [← hop, ← signOperation?_eq]
      rfl
    simp only [List.cons_append, List.head?_cons, hsign]
    refine reaches_position fun place => (reaches_skip _).bind <| reaches_peek? ?_
    simp only [List.head?_cons]
    split
    · next n hfirst =>
      -- A minus and an integer would have been a literal.
      cases hfirst
      exact absurd ⟨n, us, rfl⟩ (hn rfl)
    · have hinner : Reaches s b inner (first :: (us ++ rest)) a rest := hi _ _ _ _ ht ha hr
      exact hinner.bind <| (computes_signed _ a place).reaches hs
  | bare ht =>
    obtain ⟨first, us, rfl, ho⟩ := hL _ _ ht
    have hsign : (some first).bind signToken? = none := signToken?_of_opensPrimary ho
    simp only [List.cons_append, List.head?_cons, hsign]
    exact hb _ _ _ _ ht he hr

/-! ## Items -/

section

variable {α : Type} {item : Parse α} {typed : α → Typed}

/-- Items are read as their checked expressions, which come with other things. -/
def AcceptsItem (s : Surroundings) (b : Draft) (item : Parse α) (typed : α → Typed)
    (E : Language) : Prop :=
  ∀ t ts rest e, E t ts → t.elaborate? (symbol? s b) = some e → Ends precedence rest →
    Outcome s b False item (ts ++ rest) fun a j => typed a = e ∧ j = rest

theorem itemStep_more (h : AcceptsItem s b item typed E) {t : Term} {ts rest : List Token}
    {e : Typed} (ht : E t ts) (he : t.elaborate? (symbol? s b) = some e) (before : List α) :
    Outcome s b False (itemStep item before) (ts ++ .mark .comma :: rest) fun r j =>
      ∃ a, typed a = e ∧ r = .inl (a :: before) ∧ j = rest := by
  refine (h _ _ _ _ ht he ends_comma).bind fun a j ha => ?_
  obtain ⟨rfl, rfl⟩ := ha
  refine Outcome.bind (reaches_accept _) fun r k hr => ?_
  obtain ⟨rfl, rfl⟩ := hr
  exact outcome_pure ⟨a, rfl, rfl, rfl⟩

theorem itemStep_done (h : AcceptsItem s b item typed E) {t : Term} {ts rest : List Token}
    {e : Typed} {m : Mark} (ht : E t ts) (he : t.elaborate? (symbol? s b) = some e) (hm : Closes m)
    (before : List α) :
    Outcome s b False (itemStep item before) (ts ++ .mark m :: rest) fun r j =>
      ∃ a, typed a = e ∧ r = .inr (a :: before).reverse ∧ j = .mark m :: rest := by
  have hcomma : (Token.mark m :: rest).head? ≠ some (.mark .comma) := by
    rcases hm with rfl | rfl | rfl <;> exact fun h => by cases h
  refine (h _ _ _ _ ht he hm.ends).bind fun a j ha => ?_
  obtain ⟨rfl, rfl⟩ := ha
  refine Outcome.bind (reaches_accept_of_ne hcomma) fun r k hr => ?_
  obtain ⟨rfl, rfl⟩ := hr
  exact outcome_pure ⟨a, rfl, rfl, rfl⟩

theorem accepts_items (h : AcceptsItem s b item typed E) {items : List Term} {ts rest : List Token}
    {es : List Typed} {m : Mark} (hi : Items E items ts)
    (he : Term.elaborateAll? (symbol? s b) items = some es) (hm : Closes m) {before : List α}
    {rounds : Nat} (hrounds : (ts ++ .mark m :: rest).length < rounds) :
    Outcome s b False (iterate (itemStep item) rounds before) (ts ++ .mark m :: rest) fun as j =>
      as.map typed = before.reverse.map typed ++ es ∧ j = .mark m :: rest := by
  induction hi generalizing es before rounds with
  | one ht =>
    obtain ⟨e, es, ha, hes, rfl⟩ := Term.elaborateAll?_cons.1 he
    cases hes
    cases rounds with
    | zero => cases hrounds
    | succ rounds =>
      refine outcome_iterate (itemStep_done h ht ha hm before) (fun _ _ hr => ?_) fun as j hr => ?_
      · obtain ⟨_, -, hr, -⟩ := hr
        cases hr
      · obtain ⟨a, rfl, hr, rfl⟩ := hr
        cases hr
        exact ⟨by simp, rfl⟩
  | @more t items ts us ht hi ih =>
    obtain ⟨e, es, ha, hes, rfl⟩ := Term.elaborateAll?_cons.1 he
    cases rounds with
    | zero => cases hrounds
    | succ rounds =>
      rw [List.append_assoc] at hrounds ⊢
      refine outcome_iterate (itemStep_more h ht ha before) (fun c j hr => ?_) fun as j hr => ?_
      · obtain ⟨a, rfl, hr, rfl⟩ := hr
        cases hr
        have hlen : (us ++ .mark m :: rest).length < rounds := by
          simp only [List.cons_append, List.length_append, List.length_cons] at hrounds ⊢
          omega
        refine (ih hes hlen).mono fun as j hr => ⟨?_, hr.2⟩
        rw [hr.1]
        simp
      · obtain ⟨_, -, hr, -⟩ := hr
        cases hr

theorem accepts_separated (h : AcceptsItem s b item typed E) {items : List Term}
    {ts rest : List Token} {es : List Typed} {m : Mark} (hi : Items E items ts)
    (he : Term.elaborateAll? (symbol? s b) items = some es) (hm : Closes m) :
    Outcome s b False (separated item) (ts ++ .mark m :: rest) fun as j =>
      as.map typed = es ∧ j = .mark m :: rest := by
  rw [separated_eq]
  exact outcome_loop fun hrounds => accepts_items h hi he hm hrounds

end

/-! ## Primary expressions -/

section

variable {expression : Parse Typed} {rest : List Token}

theorem Accepts.item (h : Accepts s b expression E (Ends precedence)) :
    AcceptsItem s b expression id E := h

theorem reaches_components (h : Accepts s b expression E (Ends precedence)) (place : Position)
    {items : List Term} {ts : List Token} {es : List Typed} {e : Typed} (hi : Items E items ts)
    (hes : Term.elaborateAll? (symbol? s b) items = some es) (he : Typed.components? es = some e) :
    Reaches s b (components expression place) (ts ++ .mark .rightBracket :: rest) e rest := by
  rw [components_eq]
  refine (accepts_separated h.item hi hes (.inr (.inl rfl))).bind fun as j ha => ?_
  obtain ⟨rfl, rfl⟩ := ha
  rw [List.map_id] at he
  exact (reaches_expect _).bind <| (computes_componentsOf place as).reaches he

theorem reaches_listLiteral (h : Accepts s b expression E (Ends precedence)) (hE : E.Begins Opens)
    {items : List Term} {ts : List Token} {es : List Typed} (hi : Entries E items ts)
    (hes : Term.elaborateAll? (symbol? s b) items = some es) :
    Reaches s b (listLiteral expression) (ts ++ .mark .rightBrace :: rest) (Typed.list es)
      rest := by
  cases hi with
  | none =>
    cases hes
    exact (reaches_accept _).bind reaches_pure
  | some hi =>
    have hhead : (ts ++ .mark .rightBrace :: rest).head? ≠ some (.mark .rightBrace) :=
      hi.head?_ne hE (.inr (.inr rfl))
    refine (reaches_accept_of_ne hhead).bind ?_
    refine (accepts_separated h.item hi hes (.inr (.inr rfl))).bind fun as j ha => ?_
    obtain ⟨rfl, rfl⟩ := ha
    rw [List.map_id] at hes ⊢
    refine (reaches_expect _).bind ?_
    cases as with
    | nil => exact absurd rfl (hi.elaborated_ne_nil hes)
    | cons => exact reaches_pure

/-- An argument comes with its place. -/
theorem Accepts.argument (h : Accepts s b expression E (Ends precedence)) :
    AcceptsItem s b (do
      let p ← position
      return (← expression, p)) Prod.fst E := by
  intro t ts rest e ht he hr
  refine outcome_position.bind fun p j hj => ?_
  subst hj
  exact Outcome.bind (h _ _ _ _ ht he hr) fun a j ha => outcome_pure ha

theorem accepts_arguments (h : Accepts s b expression E (Ends precedence)) (hE : E.Begins Opens)
    {args : List Term} {ts : List Token} {es : List Typed} (hi : Entries E args ts)
    (hes : Term.elaborateAll? (symbol? s b) args = some es) :
    Outcome s b False (arguments expression)
      (.mark .leftParen :: (ts ++ .mark .rightParen :: rest)) fun as j =>
        as.map (·.1) = es ∧ j = rest := by
  refine Outcome.bind (reaches_expect _) fun _ j hj => ?_
  obtain ⟨-, rfl⟩ := hj
  cases hi with
  | none =>
    cases hes
    refine Outcome.bind (reaches_accept _) fun r j hr => ?_
    obtain ⟨rfl, rfl⟩ := hr
    exact outcome_pure ⟨rfl, rfl⟩
  | some hi =>
    have hhead : (ts ++ .mark .rightParen :: rest).head? ≠ some (.mark .rightParen) :=
      hi.head?_ne hE (.inl rfl)
    refine Outcome.bind (reaches_accept_of_ne hhead) fun r j hr => ?_
    obtain ⟨rfl, rfl⟩ := hr
    refine (accepts_separated h.argument hi hes (.inl rfl)).bind fun as j ha => ?_
    obtain ⟨rfl, rfl⟩ := ha
    refine Outcome.bind (reaches_expect _) fun _ j hj => ?_
    obtain ⟨-, rfl⟩ := hj
    exact outcome_pure ⟨rfl, rfl⟩

theorem reaches_call (h : Accepts s b expression E (Ends precedence)) (hE : E.Begins Opens)
    (f : String) (place : Position) {args : List Term} {ts : List Token} {e : Typed}
    (hi : Entries E args ts) (he : (Term.call f args).elaborate? (symbol? s b) = some e) :
    Reaches s b (call expression f place) (.mark .leftParen :: (ts ++ .mark .rightParen :: rest)) e
      rest := by
  obtain ⟨es, symbol, hes, hs, hc⟩ := Term.elaborate?_call.1 he
  rw [call_eq]
  refine (outcome_lookup? f).bind fun o j ho => ?_
  obtain ⟨rfl, rfl⟩ := ho
  rw [hs]
  cases symbol with
  | function index g =>
    refine (accepts_arguments h hE hi hes).bind fun as j ha => ?_
    obtain ⟨rfl, rfl⟩ := ha
    exact (computes_callOf index g as f place).reaches hc
  | var | constant | typedef => cases hc

theorem reaches_next? {β : Type} {t : Token} {i k : List Token} {c : β}
    {f : Option (Token × Position) → Parse β}
    (h : ∀ place, Reaches s b (f (some (t, place))) i c k) :
    Reaches s b (next? >>= f) (t :: i) c k := by
  refine outcome_next?.bind fun o j ho => ?_
  obtain ⟨ho, rfl⟩ := ho
  obtain ⟨⟨_, place⟩, rfl, rfl⟩ := Option.map_eq_some_iff.1 ho
  exact h place

theorem accepts_primary (h : Accepts s b expression E (Ends precedence)) (hE : E.Begins Opens) :
    Accepts s b (primary expression) (Primary E) NoCall := by
  intro t ts rest e ht he hr
  refine reaches_position fun place => ?_
  cases ht with
  | integer n =>
    rw [Term.elaborate?] at he
    exact reaches_next? fun _ => (computes_integer _ place).reaches he
  | real x =>
    cases he
    exact reaches_next? fun _ => reaches_pure
  | text s =>
    cases he
    exact reaches_next? fun _ => reaches_pure
  | name x =>
    rw [Term.elaborate?_name] at he
    refine reaches_next? fun _ => reaches_peek? ?_
    rw [List.append_eq, List.nil_append, if_neg hr]
    exact (computes_nameValue x place).reaches he
  | parens ht =>
    simp only [List.cons_append, List.append_assoc, List.nil_append]
    refine reaches_next? fun _ => (h _ _ _ _ ht he (Closes.ends (.inl rfl))).bind ?_
    exact (reaches_expect _).bind reaches_pure
  | components hi =>
    simp only [List.cons_append, List.append_assoc, List.nil_append]
    obtain ⟨es, hes, he⟩ := Term.elaborate?_components.1 he
    exact reaches_next? fun _ => reaches_components h place hi hes he
  | list hi =>
    simp only [List.cons_append, List.append_assoc, List.nil_append]
    obtain ⟨es, hes, rfl⟩ := Term.elaborate?_list.1 he
    exact reaches_next? fun _ => reaches_listLiteral h hE hi hes
  | call f hi =>
    simp only [List.cons_append, List.append_assoc, List.nil_append]
    refine reaches_next? fun _ => reaches_peek? ?_
    rw [List.head?_cons, if_pos rfl]
    exact reaches_call h hE f place hi he

/-! ## Indices and fields -/

theorem reaches_suffixStep_index {i j : List Token} {a c e : Typed}
    (hr : Reaches s b expression i c (.mark .rightBracket :: j))
    (he : Typed.index? a c = some e) :
    Reaches s b (suffixStep expression a) (.mark .leftBracket :: i) (.inl e) j := by
  refine reaches_position fun place => reaches_peek? ?_
  exact (reaches_skip _).bind <| hr.bind <| (reaches_expect _).bind <|
    ((computes_indexed a c place).reaches he).bind reaches_pure

theorem reaches_suffixStep_member {i : List Token} {field : String} {a e : Typed}
    (he : Typed.member? a field = some e) :
    Reaches s b (suffixStep expression a) (.mark .dot :: .ident field :: i) (.inl e) i := by
  refine reaches_position fun _ => reaches_peek? <| (reaches_skip _).bind ?_
  refine Outcome.bind (outcome_ident fun h => h _ _ rfl) fun r j hr => ?_
  obtain ⟨name, place⟩ := r
  obtain ⟨rfl, rfl⟩ := hr
  exact ((computes_selected a _ place).reaches he).bind reaches_pure

theorem reaches_suffixStep_done {i : List Token} {a : Typed} {levels : List Level}
    (h : Ends levels i) : Reaches s b (suffixStep expression a) i (.inr a) i := by
  refine reaches_position fun _ => reaches_peek? ?_
  split
  · next hi =>
    obtain ⟨us, rfl⟩ := List.head?_eq_some_iff.1 hi
    exact h.elim
  · next hi =>
    obtain ⟨us, rfl⟩ := List.head?_eq_some_iff.1 hi
    exact h.elim
  · exact reaches_pure

theorem reaches_suffixes (h : Accepts s b expression E (Ends precedence)) {l t : Term}
    {us : List Token} {a e : Typed} {levels : List Level}
    (hs : Suffixes E l t us) (ha : l.elaborate? (symbol? s b) = some a)
    (he : t.elaborate? (symbol? s b) = some e) (hr : Ends levels rest) {rounds : Nat}
    (hrounds : (us ++ rest).length < rounds) :
    Reaches s b (iterate (suffixStep expression) rounds a) (us ++ rest) e rest := by
  induction hs generalizing a rounds with
  | done =>
    obtain rfl := Option.some.inj (ha.symm.trans he)
    cases rounds with
    | zero => cases hrounds
    | succ rounds => exact reaches_iterate_done (reaches_suffixStep_done hr)
  | index hi hs ih =>
    obtain ⟨a', ha'⟩ := hs.elaborates he
    obtain ⟨c, c', hc, hc', hj⟩ := Term.elaborate?_index.1 ha'
    obtain rfl := Option.some.inj (ha.symm.trans hc)
    cases rounds with
    | zero => cases hrounds
    | succ rounds =>
      simp only [List.cons_append, List.append_assoc] at hrounds ⊢
      have hindex := fun us => h _ _ (.mark .rightBracket :: us) _ hi hc' trivial
      refine reaches_iterate_more (reaches_suffixStep_index (hindex _) hj) ?_
      apply ih ha' he
      simp only [List.length_cons, List.length_append] at hrounds ⊢
      omega
  | member hs ih =>
    obtain ⟨a', ha'⟩ := hs.elaborates he
    obtain ⟨c, hc, hj⟩ := Term.elaborate?_member.1 ha'
    obtain rfl := Option.some.inj (ha.symm.trans hc)
    cases rounds with
    | zero => cases hrounds
    | succ rounds =>
      refine reaches_iterate_more (reaches_suffixStep_member hj) ?_
      apply ih ha' he
      simp only [List.cons_append, List.length_cons] at hrounds ⊢
      omega

theorem accepts_suffixed (h : Accepts s b expression E (Ends precedence)) (hE : E.Begins Opens) :
    Accepts s b (suffixed expression) (Suffixed E) (Ends []) := by
  rintro t _ rest e ⟨ht, hs⟩ he hr
  obtain ⟨a, ha⟩ := hs.elaborates he
  rw [List.append_assoc, suffixed_eq]
  refine (accepts_primary h hE _ _ _ _ ht ha (hs.noCall hr)).bind ?_
  exact outcome_loop fun hrounds => reaches_suffixes h hs ha he hr hrounds

end

/-! ## Nested expressions -/

theorem accepts_never (p : Parse Typed) (ends : List Token → Prop) : Accepts s b p never ends :=
  fun _ _ _ _ h => h.elim

theorem accepts_operandIn (room : Nat) :
    Accepts s b (operandIn room) (Operand room) (Ends []) := by
  induction room with
  | zero =>
    exact accepts_signed (accepts_never _ _) (accepts_suffixed (accepts_never _ _) (begins_never _))
      (begins_never _) (begins_suffixed _)
  | succ room ih =>
    exact accepts_signed ih (accepts_suffixed (accepts_binary ih) (begins_expression (room + 1)))
      (begins_operand room) (begins_suffixed _)

/-- Every writing of a tree whose nodes check is read as the tree. -/
theorem accepts_expression (room : Nat) :
    Accepts s b (expression room) (Expression room) (Ends precedence) := by
  cases room with
  | zero => exact accepts_never _ _
  | succ room => exact accepts_binary (accepts_operandIn room)

end Parse

end VectorScript
