import VectorScript.Proofs.Grammar.Writing

/-!
# The expression reader beside the grammar

The operators that the reader knows are those of the grammar, level by level, and each of its loops
is a first part and rounds of one step.
-/

namespace VectorScript

open Grammar

namespace Parse

/-! ## Operators -/

theorem binaryOperation?_eq : (level : Nat) → (h : level < precedence.length) → (sign : Operator) →
    binaryOperation? level sign = precedence[level].lookup sign
  | 0, _, sign | 1, _, sign | 2, _, sign | 3, _, sign | 4, _, sign | 5, _, sign | 6, _, sign
  | 7, _, sign => by cases sign <;> rfl

/-- The level before the `k` tightest ones. -/
theorem precedence_drop {k : Nat} (hk : k < binaryLevels) :
    ∃ operators, precedence.drop (binaryLevels - (k + 1)) =
        operators :: precedence.drop (binaryLevels - k) ∧
      (∀ ops ∈ precedence.drop (binaryLevels - k), Apart operators ops) ∧
      ∀ sign, binaryOperation? (binaryLevels - (k + 1)) sign = operators.lookup sign := by
  have hlen : binaryLevels - (k + 1) < precedence.length := by
    show 8 - (k + 1) < 8
    omega
  have hdrop := List.drop_eq_getElem_cons hlen
  have hsucc : binaryLevels - (k + 1) + 1 = binaryLevels - k := by omega
  rw [hsucc] at hdrop
  refine ⟨_, hdrop, ?_, binaryOperation?_eq _ hlen⟩
  have hp : (precedence.drop (binaryLevels - (k + 1))).Pairwise Apart := apart_precedence.drop
  rw [hdrop] at hp
  exact (List.pairwise_cons.1 hp).1

/-- What holds of an operand, and passes from operators to those of the next looser level, holds of
all binary operators together. -/
theorem binary_induction {P : Parse Typed → List Level → Prop} {operand : Parse Typed}
    (hoperand : P operand [])
    (hchain : ∀ p level operators tighter, P p tighter →
      (∀ sign, binaryOperation? level sign = operators.lookup sign) →
      (∀ ops ∈ tighter, Apart operators ops) → P (chain level p) (operators :: tighter)) :
    P (binary operand) precedence := by
  have h : ∀ k, k ≤ binaryLevels →
      P (binaryFrom operand k) (precedence.drop (binaryLevels - k)) := by
    intro k hk
    induction k with
    | zero => exact hoperand
    | succ k ih =>
      obtain ⟨operators, hdrop, hapart, hops⟩ := precedence_drop hk
      rw [hdrop]
      exact hchain _ _ _ _ (ih (Nat.le_of_succ_le hk)) hops hapart
  exact h binaryLevels (Nat.le_refl _)

theorem signOperation?_eq (sign : Operator) : signOperation? sign = signs.lookup sign := by
  cases sign <;> rfl

theorem signToken?_eq_some {t : Token} {op : Operation} (h : signToken? t = some op) :
    ∃ sign, t = .operator sign ∧ signs.lookup sign = some op := by
  cases t with
  | operator sign => exact ⟨sign, rfl, signOperation?_eq sign ▸ h⟩
  | _ => cases h

theorem eq_minus_of_negate {sign : Operator} (h : signs.lookup sign = some .negate) :
    sign = .minus := by
  cases sign <;> first | rfl | cases h

theorem signToken?_of_opensPrimary {t : Token} (h : OpensPrimary t) : signToken? t = none := by
  cases t <;> first | rfl | exact h.elim

/-! ## Rounds -/

/-- A round of a chain: an operator of the level and the operand after it. -/
def chainStep (level : Nat) (operand : Parse Typed) (left : Typed) : Parse (Typed ⊕ Typed) := do
  match ← peek? with
  | some (.operator sign) =>
    match binaryOperation? level sign with
    | some op =>
      let p ← position
      skip
      let right ← operand
      checkOperation op left.ty right.ty p
      return .inl ⟨.binary op (Ty.pair? left.ty right.ty) left.expr right.expr,
        op.resultType left.ty right.ty⟩
    | none => return .inr left
  | _ => return .inr left

theorem chain_eq (level : Nat) (operand : Parse Typed) :
    chain level operand = operand >>= fun first => loop first (chainStep level operand) := rfl

/-- A round of a list: an item and the comma after it. -/
def itemStep {α : Type} (item : Parse α) (before : List α) : Parse (List α ⊕ List α) := do
  let a ← item
  if ← acceptMark .comma then return .inl (a :: before) else return .inr (a :: before).reverse

theorem separated_eq {α : Type} (item : Parse α) : separated item = loop [] (itemStep item) := rfl

/-- A round of what follows an operand: an index or a field. -/
def suffixStep (expression : Parse Typed) (e : Typed) : Parse (Typed ⊕ Typed) := do
  let p ← position
  match ← peek? with
  | some (.mark .leftBracket) =>
    skip
    let index ← expression
    expectMark .rightBracket
    return .inl (← indexed e index p)
  | some (.mark .dot) =>
    skip
    let (name, place) ← ident
    return .inl (← selected e name place)
  | _ => return .inr e

theorem suffixed_eq (expression : Parse Typed) :
    suffixed expression = primary expression >>= fun first =>
      loop first (suffixStep expression) := rfl

end Parse

end VectorScript
