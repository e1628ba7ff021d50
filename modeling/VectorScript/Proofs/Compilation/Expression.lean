import VectorScript.Grammar.Expression
import VectorScript.Proofs.Compilation.Tandem

/-!
# Two compilations, expressions

An expression is read in step: nothing in it depends on which shared variables stand for what the
script declares itself. Whatever is wrong with an operation, a call or a literal is the text's fault.

    c.Ok → c.Moves (expression room) fun _ => True                                 (moves_expression)
-/

namespace VectorScript

namespace Operation

/-- What is wrong with the types of operands shows in the text. -/
theorem isRuntime_of_check {op : Operation} {t u : Ty} {e : Fault} (h : op.check t u = .error e) :
    e.isRuntime = false := by
  have hrequire : ∀ {cause : Cause} {condition : Bool}, cause.code < 100 →
      op.require cause condition = .error e → e.isRuntime = false := by
    intro cause condition hc h
    unfold require at h
    split at h
    · cases h
    · cases h
      exact decide_eq_false (Nat.not_le.2 hc)
  unfold check at h
  split at h
  · unfold checkTake at h
    split at h
    · split at h <;> cases h
      rfl
    · cases h
      rfl
  · unfold checkMember at h
    split at h
    · split at h <;> cases h
      rfl
    · cases h
      rfl
  · split at h
    · unfold checkBase at h
      cases op <;> first
        | cases h
        | exact hrequire (by decide) h
    · cases h
      rfl

end Operation

/-- A script that is dispatched too takes nothing from those that are imported. -/
theorem Draft.From.addSubscript {s : Surroundings} {text : List (Token × Position)}
    {t : SharedTable} {d : Draft} (h : d.From s text t) (script : String) :
    Draft.From s text t { d with subscripts := d.subscripts.add script } :=
  { h with imports := fun other hother =>
      ⟨NameMap.contains_insert.2 (.inr (h.imports other hother).1), (h.imports other hother).2⟩ }

namespace Tandem

open Parse

variable {c : Tandem} {i : List (Token × Position)} {expression operand : Parse Typed}

/-! ## Operators -/

theorem inStep_checkOperation {op : Operation} {t u : Ty} {q : Position} (hq : c.Points q i) :
    c.InStep (checkOperation op t u q) i fun _ j => j = i := by
  unfold checkOperation
  split
  · exact inStep_pure rfl
  · next e he =>
    have hstatic : e.isRuntime = false := Operation.isRuntime_of_check he
    exact inStep_throw ⟨hstatic, q, rfl, hq⟩

theorem moves_chain (hc : c.Ok) (h : c.Moves operand fun _ => True) (level : Nat) :
    c.Moves (chain level operand) fun _ => True := by
  refine fun i => h.bind fun first j hj _ =>
    inStep_loop hc (fun _ k => k.length < i.length) (fun left k _ hk => ?_) hj
  refine inStep_peek?.bind fun o l hl _ => ?_
  split
  · split
    · refine inStep_position.bind fun q m hm ⟨hq, _⟩ => inStep_skip.bind fun _ n hn _ => ?_
      refine h.bind fun right r hr _ => ?_
      refine (inStep_checkOperation (hq.of_le (by omega))).bind fun _ s hs _ => inStep_pure ?_
      dsimp only
      omega
    · exact inStep_pure ⟨by omega, trivial⟩
  · exact inStep_pure ⟨by omega, trivial⟩

theorem moves_binary (hc : c.Ok) (h : c.Moves operand fun _ => True) :
    c.Moves (binary operand) fun _ => True := by
  unfold binary
  generalize binaryLevels = levels
  induction levels with
  | zero => exact h
  | succ levels ih => exact moves_chain hc ih _

theorem moves_signed {inner bare : Parse Typed} (hi : c.Moves inner fun _ => True)
    (hb : c.Moves bare fun _ => True) : c.Moves (signed inner bare) fun _ => True := by
  refine fun i => inStep_peek?.bind fun o j _ ⟨ho, hj⟩ => ?_
  subst hj
  split
  · exact hb j
  · next op hop =>
    obtain ⟨t, rfl, -⟩ := Option.bind_eq_some_iff.1 hop
    refine inStep_position.bind fun q k hk ⟨hq, hk'⟩ => inStep_skip.bind fun _ l hl hl' => ?_
    subst hk'
    have hlt := length_tail_lt ho
    refine inStep_peek?.bind fun o' m hm ⟨ho', hm'⟩ => ?_
    subst hm'
    split
    · refine inStep_position.bind fun place n hn ⟨hplace, hn'⟩ => ?_
      refine inStep_skip.bind fun _ r hr ht => ?_
      subst hn'
      have hlt' : r.length < n.length := ht ▸ length_tail_lt ho'
      refine (inStep_integer (hplace.tok hlt').points).bind fun _ s hs _ => inStep_pure ?_
      exact ⟨by omega, trivial⟩
    · refine hi.bind fun e r hr _ => ?_
      refine (inStep_checkOperation (hq.of_le (by omega))).bind fun _ s hs _ => inStep_pure ?_
      exact ⟨by omega, trivial⟩

/-! ## Primary expressions -/

theorem inStep_nameValue {name : String} {q : Position} (hq : c.Points q i) :
    c.InStep (nameValue name q) i fun _ _ => True := by
  refine inStep_lookup? ?_ fun o => ?_
  · rintro (_ | _ | _ | _ | _) <;> rfl
  · split
    · exact inStep_pure trivial
    · exact inStep_pure trivial
    · exact inStep_failAbout (by decide) hq
    · exact inStep_failAbout (by decide) hq

theorem inStep_components (hc : c.Ok) (h : c.Moves expression fun _ => True) {q : Position}
    (hq : c.Points q i) : c.InStep (components expression q) i fun _ _ => True := by
  refine (moves_separated hc h).bind fun items j hj _ => (moves_expectMark _).bind fun _ k hk _ => ?_
  split
  · split
    · exact inStep_pure trivial
    · split
      · exact inStep_pure trivial
      · exact inStep_failAbout (by decide) (hq.of_le (by omega))
  · exact inStep_failAbout (by decide) (hq.of_le (by omega))

theorem inStep_listLiteral (hc : c.Ok) (h : c.Moves expression fun _ => True) :
    c.InStep (listLiteral expression) i fun _ _ => True := by
  refine (inStep_acceptMark _).bind fun r j _ _ => ?_
  split
  · exact inStep_pure trivial
  · refine (moves_separated hc h).bind fun items k _ _ => ?_
    exact (moves_expectMark _).bind fun _ _ _ _ => inStep_pure trivial

theorem inStep_arguments (hc : c.Ok) (h : c.Moves expression fun _ => True) :
    c.InStep (arguments expression) i fun args _ => ∀ a ∈ args, c.Tok a.2 := by
  refine (moves_expectMark _).bind fun _ j _ _ => (inStep_acceptMark _).bind fun r k _ _ => ?_
  split
  · exact inStep_pure (by simp)
  · have hitem : c.Moves (do let p ← position; return (← expression, p))
        fun a : Typed × Position => c.Tok a.2 :=
      fun i => inStep_position.bind fun q l hl ⟨hq, _⟩ => h.bind fun e m hm _ =>
        inStep_pure ⟨by omega, hq.tok (Nat.lt_of_lt_of_le hm hl)⟩
    refine (moves_separated hc hitem).bind fun args l _ ha => ?_
    exact (moves_expectMark _).bind fun _ _ _ _ => inStep_pure ha.2

theorem inStep_checkArguments {name : String} {params : List Ty} {args : List (Typed × Position)}
    (h : ∀ a ∈ args, c.Tok a.2) : c.InStep (checkArguments name params args) i fun _ _ => True := by
  fun_induction checkArguments name params args with
  | case1 _ _ _ _ _ _ ih => exact ih (List.forall_mem_cons.1 h).2
  | case2 =>
    exact inStep_failAbout (by decide) (List.forall_mem_cons.1 h).1.points
  | case3 => exact inStep_pure trivial

theorem Alike.addSubscript {d d' : Draft} (h : c.Alike d d') (script : String) :
    c.Alike { d with subscripts := d.subscripts.add script }
      { d' with subscripts := d'.subscripts.add script } where
  here := h.here.addSubscript script
  there := h.there.addSubscript script
  tokens := h.tokens
  slots := h.slots
  symbols := h.symbols
  imports := h.imports
  subscripts := by
    dsimp only
    rw [h.subscripts]

theorem inStep_noteSubscript (f : HostFunction) (args : List (Typed × Position)) :
    c.InStep (noteSubscript f args) i fun _ _ => True := by
  unfold noteSubscript
  split
  · split
    · next script _ =>
      refine inStep_read rfl ?_
      split
      · have hmodify : c.InStep (modify fun d : Draft =>
            { d with subscripts := d.subscripts.add script } : Parse Unit) i fun _ k => k = i :=
          inStep_modify (fun d d' hd hi => ⟨hd.addSubscript script, hi⟩) (Nat.le_refl _)
        exact hmodify.mono fun _ _ _ _ => trivial
      · exact inStep_pure trivial
    · exact inStep_pure trivial
  · exact inStep_pure trivial

theorem inStep_call (hc : c.Ok) (h : c.Moves expression fun _ => True) {name : String} {q : Position}
    (hq : c.Tok q) : c.InStep (call expression name q) i fun _ _ => True := by
  refine inStep_lookup? ?_ fun o => ?_
  · rintro (_ | _ | _ | _ | _) <;> rfl
  · split
    · next index f =>
      refine (inStep_arguments hc h).bind fun args j _ ha => ?_
      split
      · exact (inStep_failAbout (Q := fun _ _ => False) (by decide) hq.points).bind
          fun _ _ _ hx => hx.elim
      · refine (inStep_checkArguments ha).bind fun _ k _ _ => ?_
        exact (inStep_noteSubscript f args).bind fun _ _ _ _ => inStep_pure trivial
    · exact inStep_failAbout (by decide) hq.points
    · exact inStep_failAbout (by decide) hq.points

theorem moves_primary (hc : c.Ok) (h : c.Moves expression fun _ => True) :
    c.Moves (primary expression) fun _ => True := by
  refine fun i => inStep_position.bind fun q j hj ⟨hq, _⟩ => inStep_next?.bind fun o k hk ho => ?_
  rcases ho with ⟨rfl, rfl⟩ | ⟨⟨token, place⟩, rfl, hplace, hlt⟩
  · exact inStep_failAbout (by decide) (hq.of_le hj)
  · have hread : ∀ {p : Parse Typed}, c.InStep p k (fun _ _ => True) →
        c.InStep p k fun _ l => l.length < i.length ∧ True :=
      fun hp => hp.mono fun _ l hl _ => ⟨by omega, trivial⟩
    have hq : c.Tok q := hq.tok (Nat.lt_of_lt_of_le hlt hj)
    refine hread ?_
    dsimp only
    split
    · exact (inStep_integer hq.points).bind fun _ _ _ _ => inStep_pure trivial
    · exact inStep_pure trivial
    · exact inStep_pure trivial
    · exact h.bind fun e _ _ _ => (moves_expectMark _).bind fun _ _ _ _ => inStep_pure trivial
    · exact inStep_components hc h hq.points
    · exact inStep_listLiteral hc h
    · refine inStep_peek?.bind fun o _ _ _ => ?_
      split
      · exact inStep_call hc h hq
      · exact inStep_nameValue hq.points
    · exact inStep_failAbout (by decide) hq.points

/-! ## Indices and fields -/

theorem inStep_indexed {e index : Typed} {q : Position} (hq : c.Points q i) :
    c.InStep (indexed e index q) i fun _ _ => True := by
  refine (inStep_checkOperation hq).bind fun _ _ _ _ => ?_
  dsimp only
  split
  · exact inStep_pure trivial
  · exact inStep_pure trivial

theorem inStep_selected {e : Typed} {name : String} {q : Position} (hq : c.Tok q) :
    c.InStep (selected e name q) i fun _ _ => True := by
  refine (inStep_checkOperation hq.points).bind fun _ _ _ _ => ?_
  split
  · exact inStep_pure trivial
  · exact inStep_failAbout (by decide) hq.points

theorem moves_suffixed (hc : c.Ok) (h : c.Moves expression fun _ => True) :
    c.Moves (suffixed expression) fun _ => True := by
  refine fun i => (moves_primary hc h).bind fun first j hj _ =>
    inStep_loop hc (fun _ k => k.length < i.length) (fun e k _ hk => ?_) hj
  refine inStep_position.bind fun q l hl ⟨hq, _⟩ => inStep_peek?.bind fun o m hm _ => ?_
  split
  · refine inStep_skip.bind fun _ n hn _ => h.bind fun index r hr _ => ?_
    refine (moves_expectMark _).bind fun _ s hs _ => ?_
    refine (inStep_indexed (hq.of_le (by omega))).bind fun _ t ht _ => inStep_pure ?_
    dsimp only
    omega
  · refine inStep_skip.bind fun _ n hn _ => moves_ident.bind fun name r hr hname => ?_
    refine (inStep_selected hname).bind fun _ t ht _ => inStep_pure ?_
    dsimp only
    omega
  · exact inStep_pure ⟨by omega, trivial⟩

/-! ## Nested expressions -/

theorem moves_operandIn (hc : c.Ok) (room : Nat) : c.Moves (operandIn room) fun _ => True := by
  induction room with
  | zero => exact moves_signed moves_tooDeep (moves_suffixed hc moves_tooDeep)
  | succ room ih => exact moves_signed ih (moves_suffixed hc (moves_binary hc ih))

/-- An expression reads a token, the same in both compilations. -/
theorem moves_expression (hc : c.Ok) (room : Nat) :
    c.Moves (Parse.expression room) fun _ => True := by
  cases room with
  | zero => exact moves_tooDeep
  | succ room => exact moves_binary hc (moves_operandIn hc room)

end Tandem

end VectorScript
