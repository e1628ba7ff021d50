import VectorScript.Grammar.Script
import VectorScript.Proofs.Grammar.Recognition

/-!
# Brackets in statements

What an expression is read from holds no semicolon and closes as many brackets as it opens
(`balances_expression`), and so does an assignment or an expression statement before the semicolon
at its end. So whether an assignment mark follows a name is decided before that semicolon, and what
comes after the statement does not matter.

    expression room reads ts → Balanced ts                              (balances_expression)
    depth ts + k = 0 → assignmentFollows k (ts ++ ; :: x) = assignmentFollows k (ts ++ ; :: y)
                                                                   (assignmentFollows_closed)
-/

namespace VectorScript

namespace Grammar

variable {ts us : List Token} {t : Token}

/-! ## Depth -/

def weight : Token → Int
  | .mark .leftBracket => 1
  | .mark .rightBracket => -1
  | _ => 0

/-- How many brackets are opened and not closed. -/
def depth : List Token → Int
  | [] => 0
  | t :: ts => weight t + depth ts

@[simp] theorem depth_nil : depth [] = 0 := rfl

@[simp] theorem depth_cons (t : Token) (ts : List Token) : depth (t :: ts) = weight t + depth ts := rfl

@[simp] theorem depth_append (ts us : List Token) : depth (ts ++ us) = depth ts + depth us := by
  induction ts with
  | nil => exact (Int.zero_add _).symm
  | cons t ts ih => rw [List.cons_append, depth_cons, depth_cons, ih, Int.add_assoc]

/-- There is no semicolon, and as many brackets are closed as are opened. -/
structure Balanced (ts : List Token) : Prop where
  semicolon : .mark .semicolon ∉ ts
  depth : depth ts = 0

theorem balanced_nil : Balanced [] := ⟨List.not_mem_nil, rfl⟩

theorem Balanced.append (h : Balanced ts) (h' : Balanced us) : Balanced (ts ++ us) where
  semicolon := by
    rw [List.mem_append, not_or]
    exact ⟨h.semicolon, h'.semicolon⟩
  depth := by rw [depth_append, h.depth, h'.depth, Int.add_zero]

/-- Neither a bracket nor a semicolon. -/
def neutral : Token → Bool
  | .mark .leftBracket | .mark .rightBracket | .mark .semicolon => false
  | _ => true

theorem Balanced.cons (h : Balanced ts) (ht : neutral t = true) : Balanced (t :: ts) where
  semicolon := by
    rintro (_ | ⟨_, hmem⟩)
    · cases ht
    · exact h.semicolon hmem
  depth := by
    have hweight : weight t = 0 := by
      unfold neutral at ht
      unfold weight
      split <;> simp_all
    rw [depth_cons, hweight, h.depth, Int.add_zero]

/-- Brackets around what is balanced. -/
theorem Balanced.bracketed (h : Balanced ts) :
    Balanced (.mark .leftBracket :: (ts ++ [.mark .rightBracket])) where
  semicolon := by simpa using h.semicolon
  depth := by
    rw [depth_cons, depth_append, h.depth]
    rfl

/-! ## Writings -/

/-- Every writing is balanced. -/
def Language.Balances (L : Language) : Prop := ∀ t ts, L t ts → Balanced ts

theorem balances_never : never.Balances := fun _ _ h => h.elim

section

variable {L I E : Language} {operators : Level}

theorem Further.balanced (hL : L.Balances) {l t : Term} (h : Further operators L l t ts) :
    Balanced ts := by
  induction h with
  | done => exact balanced_nil
  | next _ hr _ ih => exact ((hL _ _ hr).append ih).cons rfl

theorem balances_chain (hL : L.Balances) : (Chain operators L).Balances := by
  rintro t _ ⟨hf, hr⟩
  exact (hL _ _ hf).append (hr.balanced hL)

theorem balances_joined (hL : L.Balances) : (levels : List Level) → (Joined L levels).Balances
  | [] => hL
  | _ :: levels => balances_chain (balances_joined hL levels)

theorem balances_signed (hI : I.Balances) (hL : L.Balances) : (Signed I L).Balances := by
  intro t ts h
  cases h with
  | negative n => exact (balanced_nil.cons rfl).cons rfl
  | signed _ h => exact (hI _ _ h).cons rfl
  | bare h => exact hL _ _ h

theorem Items.balanced (hE : E.Balances) {items : List Term} (h : Items E items ts) :
    Balanced ts := by
  induction h with
  | one ht => exact hE _ _ ht
  | more ht _ ih => exact (hE _ _ ht).append (ih.cons rfl)

theorem Entries.balanced (hE : E.Balances) {items : List Term} (h : Entries E items ts) :
    Balanced ts := by
  cases h with
  | none => exact balanced_nil
  | some h => exact h.balanced hE

theorem balances_primary (hE : E.Balances) : (Primary E).Balances := by
  intro t ts h
  cases h with
  | integer | real | text | name => exact balanced_nil.cons rfl
  | parens h => exact ((hE _ _ h).append (balanced_nil.cons rfl)).cons rfl
  | components h => exact (h.balanced hE).bracketed
  | list h => exact ((h.balanced hE).append (balanced_nil.cons rfl)).cons rfl
  | call f h =>
    exact (((h.balanced hE).append (balanced_nil.cons rfl)).cons rfl).cons rfl

/-- An index in its brackets, and what comes after it. -/
theorem Balanced.index (h : Balanced ts) (h' : Balanced us) :
    Balanced (.mark .leftBracket :: (ts ++ .mark .rightBracket :: us)) := by
  have hall := h.bracketed.append h'
  rwa [List.cons_append, List.append_assoc] at hall

/-- A field after its point, and what comes after it. -/
theorem Balanced.member (h : Balanced ts) (field : String) :
    Balanced (.mark .dot :: .ident field :: ts) := (h.cons rfl).cons rfl

theorem Suffixes.balanced (hE : E.Balances) {l t : Term} (h : Suffixes E l t ts) :
    Balanced ts := by
  induction h with
  | done => exact balanced_nil
  | index hi _ ih => exact (hE _ _ hi).index ih
  | member _ ih => exact ih.member _

theorem balances_suffixed (hE : E.Balances) : (Suffixed E).Balances := by
  rintro t _ ⟨hf, hs⟩
  exact (balances_primary hE _ _ hf).append (hs.balanced hE)

end

theorem balances_operand (n : Nat) : (Operand n).Balances := by
  induction n with
  | zero => exact balances_signed balances_never (balances_suffixed balances_never)
  | succ n ih => exact balances_signed ih (balances_suffixed (balances_joined ih _))

theorem balances_expression (n : Nat) : (Expression n).Balances := by
  cases n with
  | zero => exact balances_never
  | succ n => exact balances_joined (balances_operand n) _

end Grammar

/-! ## Reading -/

namespace Parse

open Grammar

variable {α : Type} {s : Surroundings} {b : Draft} {p : Parse α} {i : List Token}

/-- What the step reads is balanced. -/
def Balances (s : Surroundings) (b : Draft) (p : Parse α) : Prop :=
  ∀ i, Outcome s b True p i fun _ j => ∃ ts, i = ts ++ j ∧ Balanced ts

theorem balances_expression (room : Nat) : Balances s b (expression room) := by
  intro i
  refine (recognizes_expression room i).mono fun e j h => ?_
  obtain ⟨t, ts, hts, ht, -⟩ := h
  exact ⟨ts, hts, Grammar.balances_expression room t ts ht⟩

/-- An expression, and a check of its type. -/
theorem balances_assigned (room : Nat) (target : Ty) (name : String) :
    Balances s b (assigned room target name) := by
  intro i
  refine outcome_position.bind fun p j hj => ?_
  subst hj
  refine (balances_expression room j).bind fun e k hk => ?_
  split
  · exact outcome_pure hk
  · exact outcome_failAbout _ _ _ trivial

theorem balances_conditionFor (room : Nat) (construct : String) :
    Balances s b (conditionFor room construct) := by
  intro i
  refine outcome_position.bind fun p j hj => ?_
  subst hj
  refine (balances_expression room j).bind fun e k hk => ?_
  split
  · exact outcome_pure hk
  · exact outcome_failAbout _ _ _ trivial

section

variable {β : Type} {step : α → Parse (α ⊕ β)}

theorem balances_iterate (h : ∀ a, Balances s b (step a)) (rounds : Nat) (a : α) :
    Balances s b (iterate step rounds a) := by
  intro i
  induction rounds generalizing a i with
  | zero => exact outcome_throw _ trivial
  | succ rounds ih =>
    refine outcome_iterate (h a i) (fun c j hj => ?_) fun c j hj => hj
    obtain ⟨ts, rfl, hts⟩ := hj
    refine (ih c j).mono fun c k hk => ?_
    obtain ⟨us, rfl, hus⟩ := hk
    exact ⟨ts ++ us, (List.append_assoc ..).symm, hts.append hus⟩

/-- A loop reads what is balanced if every round does. -/
theorem balances_loop (h : ∀ a, Balances s b (step a)) (a : α) : Balances s b (loop a step) :=
  fun i => outcome_loop fun _ => balances_iterate h _ a i

end

theorem balances_rhs (room : Nat) (target : Ty) (name : String) :
    Balances s b (rhs room target name) := by
  have hcases : ∀ cases, Balances s b (do
      if ← acceptWord .whenWord then
        let condition ← conditionFor room "when"
        expectMark .colon
        let value ← assigned room target name
        return .inl ((condition, value) :: cases)
      else return .inr cases.reverse :
        Parse (List (Expr × Expr) ⊕ List (Expr × Expr))) := by
    intro cases i
    refine (outcome_accept _).bind fun r j hr => ?_
    rcases hr with ⟨rfl, rfl⟩ | ⟨rfl, rfl, -⟩
    · refine (balances_conditionFor room _ j).bind fun c k hc => ?_
      obtain ⟨ts, rfl, hts⟩ := hc
      refine (finds_expect _ k).bind fun _ l hl => ?_
      subst hl
      refine (balances_assigned room target name l).bind fun v m hv => ?_
      obtain ⟨us, rfl, hus⟩ := hv
      refine outcome_pure ⟨.word .whenWord :: (ts ++ .mark .colon :: us), by simp, ?_⟩
      exact (hts.append (hus.cons rfl)).cons rfl
    · exact outcome_pure ⟨[], rfl, balanced_nil⟩
  intro i
  refine outcome_peek?.bind fun o j hj => ?_
  obtain ⟨-, rfl⟩ := hj
  split
  · exact (balances_assigned room target name j).bind fun _ _ hk => outcome_pure hk
  · refine (balances_loop hcases [] j).bind fun cases k hk => ?_
    obtain ⟨ts, rfl, hts⟩ := hk
    refine (outcome_accept _).bind fun r l hr => ?_
    rcases hr with ⟨rfl, rfl⟩ | ⟨rfl, rfl, -⟩
    · refine (balances_assigned room target name l).bind fun v m hv => ?_
      obtain ⟨us, rfl, hus⟩ := hv
      exact outcome_pure ⟨ts ++ .word .elseWord :: us, by simp, hts.append (hus.cons rfl)⟩
    · exact outcome_pure ⟨ts, rfl, hts⟩

theorem balances_assignmentPath (room : Nat) (name : String) (ty : Ty) :
    Balances s b (assignmentPath room name ty) := by
  refine balances_loop (fun a i => ?_) _
  obtain ⟨path, ty⟩ := a
  refine outcome_position.bind fun p j hj => outcome_peek?.bind fun o k hk => ?_
  subst hj
  obtain ⟨rfl, rfl⟩ := hk
  split
  · next hi =>
    obtain ⟨rest, rfl⟩ := List.head?_eq_some_iff.1 hi
    refine outcome_skip.bind fun _ _ hj => ?_
    subst hj
    refine (balances_conditionFor room _ _).bind fun index j hj => ?_
    obtain ⟨ts, hts, hb⟩ := hj
    refine (finds_expect _ j).bind fun _ k hk => ?_
    subst hk
    split
    · refine outcome_pure ⟨_, ?_, hb.bracketed⟩
      simpa using hts
    · exact outcome_failAbout _ _ _ trivial
  · next hi =>
    obtain ⟨rest, rfl⟩ := List.head?_eq_some_iff.1 hi
    refine outcome_skip.bind fun _ _ hj => ?_
    subst hj
    refine (outcome_ident fun _ => trivial).bind fun r j hr => ?_
    obtain ⟨field, place⟩ := r
    dsimp only
    split
    · exact outcome_pure ⟨[.mark .dot, .ident field], congrArg _ hr, balanced_nil.member field⟩
    · exact outcome_failAbout _ _ _ trivial
  · exact outcome_pure ⟨[], rfl, balanced_nil⟩

/-- What the step reads is balanced, up to the semicolon at its end. -/
def Closes (s : Surroundings) (b : Draft) (p : Parse α) : Prop :=
  ∀ i, Outcome s b True p i fun _ j => ∃ ts, i = ts ++ .mark .semicolon :: j ∧ Balanced ts

theorem closes_assignment (room : Nat) : Closes s b (assignment room) := by
  intro i
  refine (outcome_ident fun _ => trivial).bind fun n j hj => ?_
  obtain ⟨name, p⟩ := n
  subst hj
  refine (outcome_lookup? name).bind fun o k hk => ?_
  obtain ⟨-, rfl⟩ := hk
  split
  · next v =>
    split
    · exact (outcome_failAbout (Q := fun _ _ => False) _ _ _ trivial).bind fun _ _ h => h.elim
    · refine (balances_assignmentPath room name v.ty k).bind fun r l hl => ?_
      obtain ⟨path, ty⟩ := r
      obtain ⟨ts, rfl, hts⟩ := hl
      refine (finds_expect _ l).bind fun _ m hm => ?_
      subst hm
      refine (balances_rhs room ty name m).bind fun value n hn => ?_
      obtain ⟨us, rfl, hus⟩ := hn
      refine (finds_expect _ n).bind fun _ j hj => ?_
      subst hj
      refine outcome_pure ⟨.ident name :: (ts ++ .mark .assign :: us), by simp, ?_⟩
      exact (hts.append (hus.cons rfl)).cons rfl
  · exact outcome_failAbout _ _ _ trivial
  · exact outcome_failAbout _ _ _ trivial

theorem closes_expressionStatement (room : Nat) : Closes s b (expressionStatement room) := by
  intro i
  refine outcome_position.bind fun p j hj => ?_
  subst hj
  refine (balances_expression room j).bind fun e k hk => ?_
  obtain ⟨ts, rfl, hts⟩ := hk
  refine (finds_expect _ k).bind fun _ l hl => ?_
  subst hl
  split <;> exact outcome_pure ⟨ts, rfl, hts⟩

/-! ## The assignment mark -/

section

variable {t : Token} {q : Position} {rest : List (Token × Position)}

/-- Within brackets only brackets matter. -/
theorem assignmentFollows_inside (ht : weight t = 0) (k : Nat) :
    assignmentFollows (k + 1) ((t, q) :: rest) = assignmentFollows (k + 1) rest := by
  rw [assignmentFollows.eq_def]
  dsimp only
  split <;> simp_all [weight]

/-- Where no bracket is open, the path goes on with a bracket or a field, and else it is decided. -/
theorem assignmentFollows_outside (hopen : t ≠ .mark .leftBracket) (hdot : t ≠ .mark .dot) :
    assignmentFollows 0 ((t, q) :: rest) = (t == .mark .assign) := by
  rw [assignmentFollows.eq_def]
  dsimp only
  split <;> simp_all

end

/-- What comes after the semicolon of a statement does not matter: where no bracket is open, the
semicolon is no part of a path. -/
theorem assignmentFollows_closed (p : Position) (x y : List (Token × Position)) :
    (k : Nat) → (ts : List (Token × Position)) → k + depth (ts.map (·.1)) = 0 →
    assignmentFollows k (ts ++ (.mark .semicolon, p) :: x) =
      assignmentFollows k (ts ++ (.mark .semicolon, p) :: y)
  | k, [], h => by
    obtain rfl : k = 0 := by simpa using h
    rfl
  | k, (t, q) :: ts, h => by
    rw [List.map_cons, depth_cons] at h
    by_cases hopen : t = .mark .leftBracket
    · subst hopen
      apply assignmentFollows_closed p x y (k + 1) ts
      rw [weight] at h
      omega
    by_cases hclose : t = .mark .rightBracket
    · subst hclose
      cases k with
      | zero => rfl
      | succ k =>
        apply assignmentFollows_closed p x y k ts
        rw [weight] at h
        omega
    -- Any other token leaves the brackets as they are.
    have hweight : weight t = 0 := by
      unfold weight
      split
      · exact absurd rfl hopen
      · exact absurd rfl hclose
      · rfl
    rw [hweight, Int.zero_add] at h
    rw [List.cons_append, List.cons_append]
    cases k with
    | succ k =>
      rw [assignmentFollows_inside hweight, assignmentFollows_inside hweight]
      exact assignmentFollows_closed p x y (k + 1) ts h
    | zero =>
      -- Outside brackets only a field goes on with the path, and it takes two tokens.
      by_cases hdot : t = .mark .dot
      · subst hdot
        cases ts with
        | nil => rfl
        | cons field ts =>
          obtain ⟨field, q'⟩ := field
          cases field with
          | ident name =>
            apply assignmentFollows_closed p x y 0 ts
            simpa [weight] using h
          | _ => rfl
      · rw [assignmentFollows_outside hopen hdot, assignmentFollows_outside hopen hdot]

end Parse

end VectorScript
