import VectorScript.Grammar.Script
import VectorScript.Proofs.Grammar.Expression
import VectorScript.Proofs.Grammar.Recognition
import VectorScript.Proofs.Grammar.Unambiguous
import VectorScript.Proofs.Tree.Code

/-!
# The expression reader inverts the grammar

Every writing of a tree whose nodes check is read as that tree, with its static type and its code,
and whatever is read is the writing of one tree only.
-/

namespace VectorScript

open Grammar

namespace Parse

variable {s : Surroundings} {d : Draft}

theorem Ready.refl (h : d.tokens.length < s.rounds) : Ready s d d :=
  ⟨.refl d, by rwa [Draft.ahead, List.length_map]⟩

/-- Where a step must not fail, it ends in its result. -/
theorem Reaches.run {α : Type} {p : Parse α} {a : α} {rest : List Token}
    (h : Reaches s d p d.ahead a rest) (hd : d.tokens.length < s.rounds) :
    ∃ d', p s d = .ok a d' ∧ d.Same d' ∧ d'.ahead = rest := by
  have h := h d (.refl hd) rfl
  split at h
  · next c d' hp =>
    obtain ⟨hready, rfl, rfl⟩ := h
    exact ⟨d', hp, hready.same, rfl⟩
  · exact h.elim

theorem Recognizes.run {p : Parse Typed} {L : Language} {e : Typed} {d' : Draft}
    (h : Recognizes s d p L) (hd : d.tokens.length < s.rounds) (hp : p s d = .ok e d') :
    ∃ t ts, d.ahead = ts ++ d'.ahead ∧ L t ts ∧ t.elaborate? (symbol? s d) = some e := by
  have h := h d.ahead d (.refl hd) rfl
  rw [hp] at h
  exact h.2

theorem Reads.run {α : Type} {p : Parse α} {Q : α → Prop} {a : α} {d' : Draft}
    (h : Reads s d p Q) (hp : p s d = .ok a d') : Q a := by
  have h := h d (.refl d)
  rw [ReadsFrom, hp] at h
  exact h.2

/-- Reading an expression inverts the grammar, wherever in a text an expression is read: of the 64
levels that may be open, some are open around it already.

Every writing of a tree whose nodes check, before anything that does not go on with it, is read to
its end. The result is the checked expression of the tree. It has its static type in every scope
that the names agree with, and emission adds its code in post-order to any builder.

Conversely, the tokens that an expression is read from are a writing of a tree whose nodes check and
whose checked expression is the result, and not of any other tree, however deep. -/
theorem expression_inverts (hd : d.tokens.length < s.rounds) (around : Nat) :
    (∀ t ts rest e, Expression (64 - around) t ts → t.elaborate? (symbol? s d) = some e →
      d.ahead = ts ++ rest → Ends precedence rest →
      (∃ d', expression (maxNesting - around) s d = .ok e d' ∧ d.Same d' ∧ d'.ahead = rest) ∧
      (∀ Γ : Scope, Agree s d Γ → e.expr.HasType Γ e.ty) ∧
      Builder.Emits e.expr.emit e.expr.words e.expr.immediates 1 e.expr.height) ∧
    (∀ e d', expression (maxNesting - around) s d = .ok e d' →
      ∃ t ts, d.ahead = ts ++ d'.ahead ∧ Expression (64 - around) t ts ∧
        t.elaborate? (symbol? s d) = some e ∧ ∀ n t', Expression n t' ts → t' = t) := by
  have hroom : maxNesting - around = 64 - around := rfl
  rw [hroom]
  generalize 64 - around = room
  refine ⟨fun t ts rest e ht he hts hr => ?_, fun e d' hp => ?_⟩
  · have hreach : Reaches s d (expression room) d.ahead e rest := by
      rw [hts]
      exact accepts_expression room t ts rest e ht he hr
    obtain ⟨d', hp, hsame, hrest⟩ := hreach.run hd
    exact ⟨⟨d', hp, hsame, hrest⟩, fun Γ hΓ => (reads_expression hΓ room).run hp, e.expr.emits⟩
  · obtain ⟨t, ts, hts, ht, he⟩ := (recognizes_expression room).run hd hp
    exact ⟨t, ts, hts, ht, he, fun n t' ht' => expression_unique ht' ht⟩

/-- A difference of a difference and a product, with a literal that takes its minus:
`gl_result - 1 - -2 * 3`. -/
def differenceTokens : List Token :=
  [.ident resultName, .operator .minus, .integer 1, .operator .minus, .operator .minus, .integer 2,
    .operator .star, .integer 3]

def differenceTerm : Term :=
  .joined .sub (.joined .sub (.name resultName) (.integer 1))
    (.joined .mul (.integer (-2)) (.integer 3))

/-- The code of the difference: every operand before its operator. -/
def differenceWords : List UInt32 :=
  let literal := Opcode.immed.encode none
  let operation := fun op : Opcode => op.encode (some ⟨.integer, .integer⟩)
  [Opcode.var.encode none, 0, literal, operation .sub, literal, literal, operation .mul,
    operation .sub]

theorem expression_difference : Expression 64 differenceTerm differenceTokens := by
  let Product : Language := Chain [(.star, .mul), (.slash, .div)] (Operand 63)
  let Difference : Language := Chain [(.plus, .add), (.minus, .sub)] Product
  have hname : Operand 63 (.name resultName) [.ident resultName] := .bare ⟨.name _, .done⟩
  have hone : Operand 63 (.integer 1) [.integer 1] := .bare ⟨.integer 1, .done⟩
  have htwo : Operand 63 (.integer (-2)) [.operator .minus, .integer 2] := .negative 2
  have hthree : Operand 63 (.integer 3) [.integer 3] := .bare ⟨.integer 3, .done⟩
  have hright : Product (.joined .mul (.integer (-2)) (.integer 3))
      [.operator .minus, .integer 2, .operator .star, .integer 3] := by
    refine Chain.join (Chain.single htwo) ?_ hthree
    rfl
  have hleft : Difference (.joined .sub (.name resultName) (.integer 1))
      [.ident resultName, .operator .minus, .integer 1] := by
    refine Chain.join (Chain.single (Chain.single hname)) ?_ (Chain.single hone)
    rfl
  have hwhole : Difference differenceTerm differenceTokens := by
    refine Chain.join hleft ?_ hright
    rfl
  exact .single (.single (.single (.single (.single (.single hwhole)))))

/-- The difference is read as its tree, and its tokens write no other one. -/
theorem expression_inverts_difference :
    let tokens := differenceTokens.map fun t => (t, (default : Position))
    let s := Setting.surroundings ⟨"a", .empty, .empty, .empty⟩ "" tokens
    let d := Draft.start tokens .empty
    (∃ e d', expression maxNesting s d = .ok e d' ∧ d'.ahead = [] ∧ e.ty = .integer ∧
      e.expr.words = differenceWords) ∧
    ∀ n t, Expression n t differenceTokens → t = differenceTerm := by
  intro tokens s d
  have hcheck : (differenceTerm.elaborate? (symbol? s d)).map (fun e => (e.ty, e.expr.words)) =
      some (.integer, differenceWords) := by decide +kernel
  obtain ⟨e, he, hcheck⟩ := Option.map_eq_some_iff.1 hcheck
  obtain ⟨hty, hwords⟩ := Prod.mk.inj hcheck
  obtain ⟨haccepts, hrecognizes⟩ := expression_inverts (s := s) (d := d) (by decide) 0
  obtain ⟨⟨d', hp, -, hrest⟩, -⟩ :=
    haccepts _ _ [] e expression_difference he (by rfl) trivial
  obtain ⟨t, ts, hts, -, -, hsole⟩ := hrecognizes e d' hp
  rw [hrest, List.append_nil] at hts
  have htokens : ts = differenceTokens := hts.symm
  rw [htokens] at hsole
  refine ⟨⟨e, d', hp, hrest, hty, hwords⟩, fun n u hu => ?_⟩
  exact (hsole n u hu).trans (hsole _ _ expression_difference).symm

end Parse

end VectorScript
