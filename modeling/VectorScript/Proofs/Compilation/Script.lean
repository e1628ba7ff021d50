import VectorScript.Grammar.Script
import VectorScript.Proofs.Compilation.Declaration

/-!
# Two compilations, whole scripts

Every statement reads a token, so a script is read to its end or up to its first fault, the same in
both compilations. Each statement is read from the token on at which it stands.

    c.Ok → c.InStep script i fun body _ => ∀ a ∈ body, c.Placed a                    (inStep_script)
-/

namespace VectorScript

namespace Tandem

open Parse

variable {c : Tandem} {i : List (Token × Position)}

/-! ## Assignments -/

theorem inStep_assignmentPath (hc : c.Ok) (room : Nat) {name : String} (ty : Ty) :
    c.InStep (assignmentPath room name ty) i fun _ _ => True := by
  refine inStep_loop hc (fun _ _ => True) (fun state j _ _ => ?_) trivial
  obtain ⟨path, ty⟩ := state
  refine inStep_position.bind fun q k hk ⟨hq, _⟩ => inStep_peek?.bind fun o l hl _ => ?_
  split
  · refine inStep_skip.bind fun _ m hm _ => (moves_conditionFor hc room _).bind fun index n hn _ => ?_
    refine (moves_expectMark _).bind fun _ r hr _ => ?_
    split
    · exact inStep_pure ⟨by omega, trivial⟩
    · exact inStep_failAbout (by decide) (hq.of_le (by omega))
  · refine inStep_skip.bind fun _ m hm _ => moves_ident.bind fun field n hn hfield => ?_
    obtain ⟨field, place⟩ := field
    dsimp only
    split
    · exact inStep_pure ⟨by omega, trivial⟩
    · exact inStep_failAbout (by decide) hfield.points
  · exact inStep_pure trivial

theorem moves_assignment (hc : c.Ok) (room : Nat) : c.Moves (assignment room) c.Placed := by
  refine Moves.placed (fun i => moves_ident.bind fun n j hj hn => ?_) .assignment
  obtain ⟨name, q⟩ := n
  refine inStep_lookup? ?_ fun o => ?_
  · rintro (_ | _ | _ | _ | _) <;> rfl
  · split
    · next v =>
      dsimp only
      split
      · exact (inStep_failAbout (Q := fun _ _ => False) (by decide) hn.points).bind
          fun _ _ _ hx => hx.elim
      · refine (inStep_assignmentPath hc room v.ty).bind fun path k hk _ => ?_
        refine (moves_expectMark _).bind fun _ l hl _ => ?_
        refine (inStep_rhs hc room path.2 name).bind fun value m hm _ => ?_
        exact (moves_expectMark _).bind fun _ n hn _ => inStep_pure ⟨by omega, fun _ h => nomatch h⟩
    · exact inStep_failAbout (by decide) hn.points
    · exact inStep_failAbout (by decide) hn.points

theorem moves_expressionStatement (hc : c.Ok) (room : Nat) :
    c.Moves (expressionStatement room) c.Placed := by
  refine Moves.placed (fun i => inStep_position.bind fun q j hj _ => (moves_expression hc room).bind
    fun e k hk _ => (moves_expectMark _).bind fun _ l hl _ => ?_) .expression
  split
  · exact inStep_pure ⟨by omega, fun _ h => nomatch h⟩
  · exact inStep_pure ⟨by omega, fun _ h => nomatch h⟩

/-! ## Blocks and conditionals -/

variable {inside : Option (Parse (List Stmt))}

theorem moves_block (hc : c.Ok) (h : ∀ statement, inside = some statement →
    c.Moves statement fun body => ∀ a ∈ body, c.Placed a) :
    c.Moves (block inside) fun body => ∀ a ∈ body, c.Placed a := by
  refine fun i => (moves_expectMark _).bind fun _ j hj _ => ?_
  split
  · exact inStep_tooDeep
  · next statement =>
    refine (inStep_loop (R := fun parts _ => ∀ part ∈ parts, ∀ a ∈ part, c.Placed a) hc
      (fun parts _ => ∀ part ∈ parts, ∀ a ∈ part, c.Placed a) (fun parts k _ hparts => ?_)
      (by simp)).bind fun parts k hk hparts => ?_
    · refine inStep_peek?.bind fun o l hl _ => ?_
      split
      · exact inStep_pure fun part hpart => hparts part (List.mem_reverse.1 hpart)
      · exact inStep_unexpected _
      · refine (h statement rfl).bind fun body m hm hbody => inStep_pure ⟨by omega, ?_⟩
        exact List.forall_mem_cons.2 ⟨hbody, hparts⟩
    · refine (moves_expectMark _).bind fun _ l hl _ => inStep_pure ⟨by omega, fun a ha => ?_⟩
      obtain ⟨part, hpart, ha⟩ := List.mem_flatten.1 ha
      exact hparts part hpart a ha

theorem moves_conditional (hc : c.Ok) (room : Nat) (h : ∀ statement, inner room = some statement →
    c.Moves statement fun body => ∀ a ∈ body, c.Placed a) :
    c.Moves (conditional room (inner room)) c.Placed := by
  refine Moves.placed (fun i => inStep_position.bind fun q j hj _ => ?_) .conditional
  refine inStep_skip.bind fun _ k hk _ => (moves_expectMark _).bind fun _ l hl _ => ?_
  refine (moves_conditionFor hc room _).bind fun condition m hm _ => ?_
  refine (moves_expectMark _).bind fun _ n hn _ => ?_
  split
  · exact inStep_tooDeep
  · next statement hinner =>
    refine (h statement hinner).bind fun body r hr hbody => inStep_position.bind fun p s hs _ => ?_
    refine (inStep_acceptWord _).bind fun b t ht _ => ?_
    split
    · refine (h statement hinner).bind fun other u hu hother => inStep_pure ⟨by omega, ?_⟩
      exact List.forall_mem_append.2 ⟨hbody, hother⟩
    · exact inStep_pure ⟨by omega, hbody⟩

/-! ## Statements -/

theorem moves_namedStatement (hc : c.Ok) (room : Nat) (name : String) :
    c.Moves (namedStatement room name) fun body => ∀ a ∈ body, c.Placed a := by
  have hassignment : c.Moves (do return [← assignment room]) fun body => ∀ a ∈ body, c.Placed a :=
    fun i => (moves_assignment hc room).bind fun s j hj hs =>
      inStep_pure ⟨hj, List.forall_mem_singleton.2 hs⟩
  have hexpression : c.Moves (do return [← expressionStatement room])
      fun body => ∀ a ∈ body, c.Placed a := fun i =>
    (moves_expressionStatement hc room).bind fun s j hj hs =>
      inStep_pure ⟨hj, List.forall_mem_singleton.2 hs⟩
  refine fun i => inStep_get fun d d' hd hi => ⟨by rw [hd.tokens], ?_⟩
  refine inStep_lookup? ?_ fun o => ?_
  · rintro (_ | _ | _ | _ | _) <;> rfl
  · split
    · exact moves_declaration hc room false i
    · split
      · exact hassignment i
      · exact hexpression i
    · split
      · exact hassignment i
      · exact hexpression i
    · exact hexpression i

theorem moves_statementWith (hc : c.Ok) (room : Nat) (h : ∀ statement, inner room = some statement →
    c.Moves statement fun body => ∀ a ∈ body, c.Placed a) :
    c.Moves (statementWith room (inner room)) fun body => ∀ a ∈ body, c.Placed a := by
  have hnone : ∀ a ∈ ([] : List Stmt), c.Placed a := fun _ h => nomatch h
  refine fun i => inStep_peek?.bind fun o j _ ⟨ho, hj⟩ => ?_
  subst hj
  split
  · exact inStep_unexpected _
  · split
    · refine inStep_skip.bind fun _ k _ hk => inStep_pure ⟨?_, hnone⟩
      rw [hk]
      exact length_tail_lt ho
    · exact moves_block hc h j
    · exact inStep_skip.bind fun _ k hk _ => (moves_declaration hc room true k).mono
        fun _ _ _ hl => ⟨by omega, hl.2⟩
    · exact moves_declaration hc room false j
    · exact (moves_typedef hc room).bind fun _ _ hk _ => inStep_pure ⟨hk, hnone⟩
    · exact (moves_constant hc room).bind fun _ _ hk _ => inStep_pure ⟨hk, hnone⟩
    · exact (moves_importNames hc).bind fun _ _ hk _ => inStep_pure ⟨hk, hnone⟩
    · exact (moves_conditional hc room h).bind fun _ _ hk ha =>
        inStep_pure ⟨hk, List.forall_mem_singleton.2 ha⟩
    · exact moves_namedStatement hc room _ j
    · exact (moves_expressionStatement hc room).bind fun _ _ hk ha =>
        inStep_pure ⟨hk, List.forall_mem_singleton.2 ha⟩

theorem moves_statement (hc : c.Ok) (room : Nat) :
    c.Moves (statement room) fun body => ∀ a ∈ body, c.Placed a := by
  induction room with
  | zero => exact moves_statementWith hc 0 fun _ h => nomatch h
  | succ room ih =>
    refine moves_statementWith hc (room + 1) fun statement h => ?_
    cases h
    exact ih

/-- A script is read the same in both compilations, and its statements are placed. -/
theorem inStep_script (hc : c.Ok) : c.InStep script i fun body _ => ∀ a ∈ body, c.Placed a := by
  have hparts : c.InStep (loop [] fun parts => do
      if (← peek?).isNone then return .inr parts.reverse
      else return .inl ((← statement maxNesting) :: parts)) i
      fun parts _ => ∀ part ∈ parts, ∀ a ∈ part, c.Placed a := by
    refine inStep_loop hc (fun parts _ => ∀ part ∈ parts, ∀ a ∈ part, c.Placed a)
      (fun parts j _ hparts => ?_) (by simp)
    refine inStep_peek?.bind fun o k hk _ => ?_
    split
    · exact inStep_pure fun part hpart => hparts part (List.mem_reverse.1 hpart)
    · refine (moves_statement hc maxNesting).bind fun body l hl hbody => inStep_pure ⟨by omega, ?_⟩
      exact List.forall_mem_cons.2 ⟨hbody, hparts⟩
  refine hparts.bind fun parts j _ hparts => inStep_pure fun a ha => ?_
  obtain ⟨part, hpart, ha⟩ := List.mem_flatten.1 ha
  exact hparts part hpart a ha

end Tandem

end VectorScript
