import VectorScript.Proofs.Grammar.Writing

/-!
# Every writing is of one tree

Two expressions that begin the same tokens, where neither goes on, are the same tree and end at the
same place. Hence the grammar is unambiguous, however deep the nesting.

    Expression n t ts → Expression m t' ts → t = t'                       (expression_unique)
-/

namespace VectorScript

namespace Grammar

variable {L M : Language} {operators : Level} {tighter levels : List Level} {r r' : List Token}

/-- Writings in the two languages that begin the same tokens, with an end after both, are of the
same tree and leave the same tokens. -/
def Sole (L M : Language) (ends : List Token → Prop) : Prop :=
  ∀ t t' ts ts' r r', L t ts → M t' ts' → ends r → ends r' → ts ++ r = ts' ++ r' → t = t' ∧ r = r'

/-! ## Binary operators -/

theorem Further.sole (h : Sole L M (Ends tighter)) (hd : ∀ ops ∈ tighter, Apart operators ops)
    {l t t' : Term} {us us' : List Token} (hf : Further operators L l t us)
    (hf' : Further operators M l t' us') (hr : Ends (operators :: tighter) r)
    (hr' : Ends (operators :: tighter) r') (heq : us ++ r = us' ++ r') : t = t' ∧ r = r' := by
  induction hf generalizing us' with
  | done =>
    cases hf' with
    | done => exact ⟨rfl, heq⟩
    | next hop =>
      rw [List.nil_append] at heq
      subst heq
      rw [hr _ List.mem_cons_self] at hop
      cases hop
  | next hop ht hf ih =>
    cases hf' with
    | done =>
      rw [List.nil_append] at heq
      subst heq
      rw [hr' _ List.mem_cons_self] at hop
      cases hop
    | next hop' ht' hf' =>
      simp only [List.cons_append, List.cons.injEq, Token.operator.injEq, List.append_assoc] at heq
      obtain ⟨rfl, heq⟩ := heq
      obtain rfl := Option.some.inj (hop.symm.trans hop')
      obtain ⟨rfl, heq⟩ := h _ _ _ _ _ _ ht ht' (hf.ends hd hr) (hf'.ends hd hr') heq
      exact ih hf' heq

theorem sole_chain (h : Sole L M (Ends tighter)) (hd : ∀ ops ∈ tighter, Apart operators ops) :
    Sole (Chain operators L) (Chain operators M) (Ends (operators :: tighter)) := by
  rintro t t' _ _ r r' ⟨ht, hf⟩ ⟨ht', hf'⟩ hr hr' heq
  rw [List.append_assoc, List.append_assoc] at heq
  obtain ⟨rfl, heq⟩ := h _ _ _ _ _ _ ht ht' (hf.ends hd hr) (hf'.ends hd hr') heq
  exact hf.sole h hd hf' hr hr' heq

theorem sole_joined (h : Sole L M (Ends [])) (hd : levels.Pairwise Apart) :
    Sole (Joined L levels) (Joined M levels) (Ends levels) := by
  induction hd with
  | nil => exact h
  | cons hd _ ih => exact sole_chain ih hd

/-! ## Operands -/

theorem sole_never_left (ends : List Token → Prop) : Sole never M ends :=
  fun _ _ _ _ _ _ h => h.elim

theorem sole_never_right (ends : List Token → Prop) : Sole L never ends :=
  fun _ _ _ _ _ _ _ h => h.elim

/-- A writing that begins with a primary expression does not begin with a sign. -/
theorem Language.Begins.ne_sign (hL : L.Begins OpensPrimary) {t : Term} {ts us : List Token}
    {sign : Operator} (h : L t ts) : ts ++ r ≠ .operator sign :: us := by
  obtain ⟨first, rest, rfl, ho⟩ := hL _ _ h
  intro heq
  obtain ⟨rfl, -⟩ := List.cons.inj heq
  exact ho

/-- A minus and an integer are a literal, never a negation. -/
theorem Signed.negative_ne {I : Language} (hI : I.Begins Opens) {op : Operation} {t : Term}
    {ts us : List Token} {sign : Operator} {n : Nat} (hop : signs.lookup sign = some op)
    (h : I t ts) (hn : op = .negate → ¬StartsInteger ts) :
    .operator sign :: ts ++ r ≠ .operator .minus :: .integer n :: us := by
  intro heq
  obtain ⟨first, rest, rfl, -⟩ := hI _ _ h
  simp only [List.cons_append, List.cons.injEq, Token.operator.injEq] at heq
  obtain ⟨rfl, rfl, -⟩ := heq
  exact hn (Option.some.inj hop).symm ⟨n, rest, rfl⟩

theorem sole_signed {I J : Language} (hi : Sole I J (Ends [])) (hb : Sole L M (Ends []))
    (hI : I.Begins Opens) (hJ : J.Begins Opens) (hL : L.Begins OpensPrimary)
    (hM : M.Begins OpensPrimary) : Sole (Signed I L) (Signed J M) (Ends []) := by
  intro t t' ts ts' r r' h h' hr hr' heq
  cases h with
  | negative n =>
    cases h' with
    | negative n' =>
      cases heq
      exact ⟨rfl, rfl⟩
    | signed hop' ht' hn' => exact absurd heq.symm (Signed.negative_ne hJ hop' ht' hn')
    | bare ht' => exact absurd heq.symm (hM.ne_sign ht')
  | signed hop ht hn =>
    cases h' with
    | negative n' => exact absurd heq (Signed.negative_ne hI hop ht hn)
    | signed hop' ht' hn' =>
      simp only [List.cons_append, List.cons.injEq, Token.operator.injEq] at heq
      obtain ⟨rfl, heq⟩ := heq
      obtain rfl := Option.some.inj (hop.symm.trans hop')
      obtain ⟨rfl, heq⟩ := hi _ _ _ _ _ _ ht ht' hr hr' heq
      exact ⟨rfl, heq⟩
    | bare ht' => exact absurd heq.symm (hM.ne_sign ht')
  | bare ht =>
    cases h' with
    | negative n' => exact absurd heq (hL.ne_sign ht)
    | signed hop' ht' hn' => exact absurd heq (hL.ne_sign ht)
    | bare ht' => exact hb _ _ _ _ _ _ ht ht' hr hr' heq

/-! ## Primary expressions -/

variable {E F : Language}

theorem Items.sole (h : Sole E F (Ends precedence)) {items items' : List Term}
    {ts ts' : List Token} {m : Mark} (hi : Items E items ts) (hi' : Items F items' ts')
    (hm : Closes m) (heq : ts ++ .mark m :: r = ts' ++ .mark m :: r') :
    items = items' ∧ r = r' := by
  induction hi generalizing items' ts' with
  | one ht =>
    cases hi' with
    | one ht' =>
      obtain ⟨rfl, heq⟩ := h _ _ _ _ _ _ ht ht' hm.ends hm.ends heq
      exact ⟨rfl, (List.cons.inj heq).2⟩
    | more ht' hi' =>
      rw [List.append_assoc] at heq
      obtain ⟨rfl, heq⟩ := h _ _ _ _ _ _ ht ht' hm.ends ends_comma heq
      cases heq
      rcases hm with hm | hm | hm <;> cases hm
  | more ht hi ih =>
    cases hi' with
    | one ht' =>
      rw [List.append_assoc] at heq
      obtain ⟨rfl, heq⟩ := h _ _ _ _ _ _ ht ht' ends_comma hm.ends heq
      cases heq
      rcases hm with hm | hm | hm <;> cases hm
    | more ht' hi' =>
      rw [List.append_assoc, List.append_assoc] at heq
      obtain ⟨rfl, heq⟩ := h _ _ _ _ _ _ ht ht' ends_comma ends_comma heq
      obtain ⟨rfl, hr⟩ := ih hi' (List.cons.inj heq).2
      exact ⟨rfl, hr⟩

theorem Items.ne_closes (hE : E.Begins Opens) {items : List Term} {ts us : List Token} {m : Mark}
    (hi : Items E items ts) (hm : Closes m) : ts ++ r ≠ .mark m :: us :=
  fun heq => hi.head?_ne hE hm (congrArg List.head? heq)

theorem Entries.sole (h : Sole E F (Ends precedence)) (hE : E.Begins Opens) (hF : F.Begins Opens)
    {items items' : List Term} {ts ts' : List Token} {m : Mark} (hi : Entries E items ts)
    (hi' : Entries F items' ts') (hm : Closes m)
    (heq : ts ++ .mark m :: r = ts' ++ .mark m :: r') : items = items' ∧ r = r' := by
  cases hi with
  | none =>
    cases hi' with
    | none => exact ⟨rfl, (List.cons.inj heq).2⟩
    | some hi' => exact absurd heq.symm (hi'.ne_closes hF hm)
  | some hi =>
    cases hi' with
    | none => exact absurd heq (hi.ne_closes hE hm)
    | some hi' => exact hi.sole h hi' hm heq

theorem sole_primary (h : Sole E F (Ends precedence)) (hE : E.Begins Opens) (hF : F.Begins Opens) :
    Sole (Primary E) (Primary F) NoCall := by
  intro t t' ts ts' r r' ht ht' hr hr' heq
  -- Different forms have different first tokens, but for a name and a call.
  cases ht <;> cases ht' <;>
    simp only [List.cons_append, List.nil_append, List.append_assoc, List.cons.injEq,
      Token.integer.injEq, Token.real.injEq, Token.text.injEq, Token.ident.injEq, Token.mark.injEq,
      reduceCtorEq, false_and, true_and] at heq
  case integer.integer | real.real | text.text | name.name =>
    obtain ⟨rfl, heq⟩ := heq
    exact ⟨rfl, heq⟩
  case name.call => exact absurd (congrArg List.head? heq.2) hr
  case call.name => exact absurd (congrArg List.head? heq.2.symm) hr'
  case parens.parens ht _ ht' =>
    obtain ⟨rfl, heq⟩ := h _ _ _ _ _ _ ht ht' (Closes.ends (.inl rfl)) (Closes.ends (.inl rfl)) heq
    exact ⟨rfl, (List.cons.inj heq).2⟩
  case components.components hi _ _ hi' =>
    obtain ⟨rfl, heq⟩ := hi.sole h hi' (.inr (.inl rfl)) heq
    exact ⟨rfl, heq⟩
  case list.list hi _ _ hi' =>
    obtain ⟨rfl, heq⟩ := hi.sole h hE hF hi' (.inr (.inr rfl)) heq
    exact ⟨rfl, heq⟩
  case call.call hi _ _ _ hi' =>
    obtain ⟨rfl, heq⟩ := heq
    obtain ⟨rfl, heq⟩ := hi.sole h hE hF hi' (.inl rfl) heq
    exact ⟨rfl, heq⟩

/-! ## Indices and fields -/

theorem Suffixes.sole (h : Sole E F (Ends precedence)) {l t t' : Term} {us us' : List Token}
    (hs : Suffixes E l t us) (hs' : Suffixes F l t' us') (hr : Ends levels r)
    (hr' : Ends levels r') (heq : us ++ r = us' ++ r') : t = t' ∧ r = r' := by
  have hends : ∀ us, Ends precedence (.mark .rightBracket :: us) := fun _ => trivial
  induction hs generalizing us' with
  | done =>
    cases hs' with
    | done => exact ⟨rfl, heq⟩
    | index | member =>
      rw [List.nil_append] at heq
      subst heq
      exact hr.elim
  | index hi _ ih =>
    cases hs' with
    | done =>
      rw [List.nil_append] at heq
      subst heq
      exact hr'.elim
    | index hi' hs' =>
      simp only [List.cons_append, List.append_assoc, List.cons.injEq, true_and] at heq
      obtain ⟨rfl, heq⟩ := h _ _ _ _ _ _ hi hi' (hends _) (hends _) heq
      exact ih hs' (List.cons.inj heq).2
    | member => cases heq
  | member _ ih =>
    cases hs' with
    | done =>
      rw [List.nil_append] at heq
      subst heq
      exact hr'.elim
    | index => cases heq
    | member hs' =>
      simp only [List.cons_append, List.cons.injEq, Token.ident.injEq, true_and] at heq
      obtain ⟨rfl, heq⟩ := heq
      exact ih hs' heq

theorem sole_suffixed (h : Sole E F (Ends precedence)) (hE : E.Begins Opens)
    (hF : F.Begins Opens) : Sole (Suffixed E) (Suffixed F) (Ends []) := by
  rintro t t' _ _ r r' ⟨ht, hs⟩ ⟨ht', hs'⟩ hr hr' heq
  rw [List.append_assoc, List.append_assoc] at heq
  obtain ⟨rfl, heq⟩ := sole_primary h hE hF _ _ _ _ _ _ ht ht' (hs.noCall hr) (hs'.noCall hr') heq
  exact hs.sole h hs' hr hr' heq

/-! ## Nested expressions -/

theorem sole_operand_of {n m : Nat} (hd : Sole (Deeper n) (Deeper m) (Ends []))
    (he : Sole (Expression n) (Expression m) (Ends precedence)) :
    Sole (Operand n) (Operand m) (Ends []) := by
  rw [operand_eq n, operand_eq m]
  have hs := sole_suffixed he (begins_expression n) (begins_expression m)
  exact sole_signed hd hs (begins_deeper n) (begins_deeper m) (begins_suffixed _)
    (begins_suffixed _)

theorem sole_operand (n m : Nat) : Sole (Operand n) (Operand m) (Ends []) := by
  induction n generalizing m with
  | zero => exact sole_operand_of (sole_never_left _) (sole_never_left _)
  | succ n ih =>
    cases m with
    | zero => exact sole_operand_of (sole_never_right _) (sole_never_right _)
    | succ m => exact sole_operand_of (ih m) (sole_joined (ih m) apart_precedence)

theorem sole_expression (n m : Nat) : Sole (Expression n) (Expression m) (Ends precedence) := by
  cases n with
  | zero => exact sole_never_left _
  | succ n =>
    cases m with
    | zero => exact sole_never_right _
    | succ m => exact sole_joined (sole_operand n m) apart_precedence

/-- The grammar is unambiguous: the same tokens write the same tree, however deep it is nested. -/
theorem expression_unique {n m : Nat} {t t' : Term} {ts : List Token} (h : Expression n t ts)
    (h' : Expression m t' ts) : t = t' :=
  (sole_expression n m t t' ts ts [] [] h h' trivial trivial rfl).1

end Grammar

end VectorScript
