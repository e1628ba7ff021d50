import VectorScript.Proofs.Grammar.Plain

/-!
# Counting beside reading

The reader that counts does what the reader does where as many levels are left as constructs are not
yet open: it comes to the same result and draft, and its stack is as before; or both fail with the
same fault. That the nesting is too deep is found just where one construct more than the limit is
open. `Counts` says so of a step of each. Steps that open nothing are lifted.

    Counts s opened q p i P → (∀ a j, … → P a j → Counts s opened (g a) (f a) j Q) →
      Counts s opened (q >>= g) (p >>= f) i Q                                         (Counts.bind)
    opened.length + room = maxNesting → (room = k + 1 → Counts s (c :: opened) q (p k) i P) →
      Counts s opened (nested c q) (deeper room p) i P                              (counts_nested)
-/

namespace VectorScript

namespace Parse

/-- What reads one level deeper, if a level is left. -/
def deeper {α : Type} (room : Nat) (p : Nat → Parse α) : Parse α :=
  match room with
  | 0 => tooDeep
  | k + 1 => p k

theorem tooDeep_run {α : Type} (s : Surroundings) (d : Draft) :
    (tooDeep : Parse α) s d =
      .error ((Fault.of .tooDeep).located (place s d.tokens)) d := by
  show EStateM.bind (position s) _ d = _
  unfold EStateM.bind
  rw [position_run]
  rfl

end Parse

namespace Counting

open Parse

variable {α β : Type} {s : Surroundings} {opened : List Construct}
  {i : List (Token × Position)} {q : Counting α} {p : Parse α} {g : α → Counting β}
  {f : α → Parse β} {P : α → List (Token × Position) → Prop}
  {Q : β → List (Token × Position) → Prop}

/-! ## The judgement -/

/-- The fault stands at a place. If it says that the nesting is too deep, it stands at the next
token and one construct more than the limit is open, for the first time; if not, there have never
been more open than the limit. -/
structure Measured (s : Surroundings) (e : Fault) (r : Reading) : Prop where
  located : e.position.isSome = true
  tooDeep : e.cause = .tooDeep → r.opened.length = maxNesting + 1 ∧ r.deepest = maxNesting + 1 ∧
    e = (Fault.of .tooDeep).located (place s r.draft.tokens)
  otherwise : e.cause ≠ .tooDeep → r.deepest ≤ maxNesting

/-- Both readers end with the same result, or both with the same fault. After a result the same
constructs are open as before, and there have never been more open than the limit. -/
inductive Ends (s : Surroundings) (opened : List Construct) (i : List (Token × Position))
    (P : α → List (Token × Position) → Prop) :
    EStateM.Result Stop Reading α → EStateM.Result Fault Draft α → Prop
  | ok {a : α} {r : Reading} (hopened : r.opened = opened) (hdeepest : r.deepest ≤ maxNesting)
      (htokens : r.draft.tokens <:+ i) (ha : P a r.draft.tokens) :
      Ends s opened i P (.ok a r) (.ok a r.draft)
  | error {e : Fault} {r : Reading} (hopened : opened <:+ r.opened) (he : Measured s e r) :
      Ends s opened i P (.error (.fault e) r) (.error e r.draft)

/-- With these tokens ahead and these constructs open, the one step does what the other does. -/
def Counts (s : Surroundings) (opened : List Construct) (q : Counting α) (p : Parse α)
    (i : List (Token × Position)) (P : α → List (Token × Position) → Prop) : Prop :=
  ∀ r : Reading, r.draft.tokens = i → r.opened = opened → r.deepest ≤ maxNesting →
    i.length < s.rounds → Ends s opened i P (q s r) (p s r.draft)

theorem Counts.bind (hp : Counts s opened q p i P)
    (hf : ∀ a j, j.length ≤ i.length → P a j → Counts s opened (g a) (f a) j Q) :
    Counts s opened (q >>= g) (p >>= f) i Q := by
  intro r hi hopened hdeepest hrounds
  have hp := hp r hi hopened hdeepest hrounds
  show Ends s opened i Q (EStateM.bind (q s) (fun a => g a s) r)
    (EStateM.bind (p s) (fun a => f a s) r.draft)
  unfold EStateM.bind
  generalize q s r = x, p s r.draft = y at hp ⊢
  cases hp with
  | error hopened he => exact .error hopened he
  | @ok a r' hopened hdeepest htokens ha =>
    have hlt := Nat.lt_of_le_of_lt htokens.length_le hrounds
    have hf := hf a r'.draft.tokens htokens.length_le ha r' rfl hopened hdeepest hlt
    dsimp only
    generalize g a s r' = x, f a s r'.draft = y at hf ⊢
    cases hf with
    | error hopened he => exact .error hopened he
    | ok hopened hdeepest htokens' hb => exact .ok hopened hdeepest (htokens'.trans htokens) hb

theorem Counts.mono {P' : α → List (Token × Position) → Prop} (hp : Counts s opened q p i P)
    (h : ∀ a j, j.length ≤ i.length → P a j → P' a j) : Counts s opened q p i P' := by
  intro r hi hopened hdeepest hrounds
  have hp := hp r hi hopened hdeepest hrounds
  generalize q s r = x, p s r.draft = y at hp ⊢
  cases hp with
  | error hopened he => exact .error hopened he
  | ok hopened hdeepest htokens ha =>
    exact .ok hopened hdeepest htokens (h _ _ htokens.length_le ha)

theorem counts_pure {a : α} (h : P a i) : Counts s opened (pure a) (pure a) i P := by
  rintro r rfl hopened hdeepest -
  exact .ok hopened hdeepest (List.suffix_refl _) h

/-- A step that opens nothing is done as it is. -/
theorem counts_lift (hp : Plain s p i P) : Counts s opened (lift p) p i P := by
  intro r hi hopened hdeepest _
  have hp := hp r.draft hi
  unfold lift
  cases hx : p s r.draft with
  | ok a d =>
    rw [hx] at hp
    exact .ok (r := { r with draft := d }) hopened hdeepest hp.1 hp.2
  | error e d =>
    rw [hx] at hp
    refine .error (r := { r with draft := d }) ?_ ⟨hp.2, fun h => absurd h hp.1, fun _ => hdeepest⟩
    exact hopened ▸ List.suffix_refl _

/-- A step that opens nothing, and one that goes on with its result. -/
theorem counts_step (hp : Plain s p i P)
    (hf : ∀ a j, j.length ≤ i.length → P a j → Counts s opened (g a) (f a) j Q) :
    Counts s opened (lift p >>= g) (p >>= f) i Q := (counts_lift hp).bind hf

/-- Both look at what they read. -/
theorem counts_get {g : Reading → Counting β} {f : Draft → Parse β}
    (h : ∀ r, r.draft.tokens = i → Counts s opened (g r) (f r.draft) i Q) :
    Counts s opened (get >>= g) (get >>= f) i Q := fun r hi => h r hi r hi

theorem counts_failAbout {cause : Cause} {item : String} {place : Position}
    (h : cause ≠ .tooDeep) :
    Counts s opened (lift (failAbout cause item place)) (failAbout cause item place : Parse α) i
      P :=
  counts_lift (plain_failAbout h)

/-- What comes after a failure does not matter. -/
theorem counts_failAbout_bind {cause : Cause} {item : String} {place : Position}
    (h : cause ≠ .tooDeep) :
    Counts s opened (lift (failAbout cause item place) >>= g)
      (failAbout cause item place >>= f : Parse β) i Q :=
  counts_step (plain_failAbout (P := fun (_ : α) _ => False) h) fun _ _ _ h => h.elim

/-- Both go the same way. -/
theorem counts_ite {c : Prop} [Decidable c] {q' : Counting α} {p' : Parse α}
    (hthen : c → Counts s opened q p i P) (helse : ¬c → Counts s opened q' p' i P) :
    Counts s opened (if c then q else q') (if c then p else p') i P := by
  split
  · next h => exact hthen h
  · next h => exact helse h

/-- The step reads a token. -/
def Reads (s : Surroundings) (opened : List Construct) (q : Counting α) (p : Parse α) : Prop :=
  ∀ i, Counts s opened q p i fun _ j => j.length < i.length

theorem Reads.shorter (h : Reads s opened q p) (hopened : opened.length ≤ maxNesting) {d d' : Draft}
    {a : α} (hrounds : d.tokens.length < s.rounds) (hp : p s d = .ok a d') :
    d'.tokens <:+ d.tokens ∧ d'.tokens.length < d.tokens.length := by
  have h := h d.tokens ⟨d, opened, opened.length, Nat.le_refl _⟩ rfl rfl hopened hrounds
  change Ends s opened d.tokens _ _ (p s d) at h
  rw [hp] at h
  generalize q s _ = x at h
  cases h with
  | ok _ _ htokens hlt => exact ⟨htokens, hlt⟩

/-! ## Nesting -/

theorem lift_run (s : Surroundings) (r : Reading) {e : Fault} {d : Draft}
    (h : p s r.draft = .error e d) : lift p s r = .error (.fault e) { r with draft := d } := by
  unfold lift
  rw [h]

theorem enter_run (c : Construct) (s : Surroundings) (r : Reading) : enter c s r =
    if maxNesting < r.opened.length + 1 then
      .error (.fault ((Fault.of .tooDeep).located (place s r.draft.tokens))) (r.enter c)
    else .ok () (r.enter c) := by
  show (if maxNesting < r.opened.length + 1 then lift tooDeep else pure () : Counting Unit) s
    (r.enter c) = _
  split
  · exact lift_run s (r.enter c) (tooDeep_run s r.draft)
  · rfl

theorem nested_run (c : Construct) (q : Counting α) (s : Surroundings) (r : Reading) :
    nested c q s r = if maxNesting < r.opened.length + 1 then
      .error (.fault ((Fault.of .tooDeep).located (place s r.draft.tokens))) (r.enter c)
    else match q s (r.enter c) with
      | .ok a r => .ok a r.leave
      | .error x r => .error x r := by
  show EStateM.bind (enter c s) (fun _ => EStateM.bind (q s) fun a r => .ok a r.leave) r = _
  unfold EStateM.bind
  rw [enter_run]
  by_cases h : maxNesting < r.opened.length + 1
  · rw [if_pos h, if_pos h]
  · rw [if_neg h, if_neg h]
    dsimp only
    cases q s (r.enter c) <;> rfl

/-- A construct is entered if a level is left, and left again. -/
theorem counts_nested {c : Construct} {room : Nat} {p : Nat → Parse α}
    (hroom : opened.length + room = maxNesting)
    (h : ∀ k, room = k + 1 → Counts s (c :: opened) q (p k) i P) :
    Counts s opened (nested c q) (deeper room p) i P := by
  rintro r rfl rfl hdeepest hrounds
  rw [nested_run]
  cases room with
  | zero =>
    have hfull : r.opened.length = maxNesting := hroom
    rw [if_pos (by omega)]
    show Ends s r.opened r.draft.tokens P _ (tooDeep s r.draft)
    rw [tooDeep_run]
    refine .error (r := r.enter c) (List.suffix_cons _ _) ⟨rfl, fun _ => ⟨?_, ?_, rfl⟩, ?_⟩
    · exact congrArg (· + 1) hfull
    · show max r.deepest (r.opened.length + 1) = maxNesting + 1
      omega
    · exact fun h => absurd rfl h
  | succ k =>
    rw [if_neg (by omega)]
    have hdeepest' : (r.enter c).deepest ≤ maxNesting := by
      show max r.deepest (r.opened.length + 1) ≤ maxNesting
      omega
    have hq := h k rfl (r.enter c) rfl rfl hdeepest' hrounds
    show Ends s r.opened r.draft.tokens P _ (p k s r.draft)
    change Ends s _ _ P (q s (r.enter c)) (p k s r.draft) at hq
    generalize q s (r.enter c) = x, p k s r.draft = y at hq ⊢
    cases hq with
    | @ok a r' hopened hdeepest htokens ha =>
      exact .ok (r := r'.leave) (congrArg List.tail hopened) hdeepest htokens ha
    | error hopened he => exact .error ((List.suffix_cons _ _).trans hopened) he

/-! ## Loops -/

/-- After a round that goes on there are fewer tokens and the invariant holds; after the last one
the property holds of the result. -/
def Round (I : α → List (Token × Position) → Prop) (Q : β → List (Token × Position) → Prop)
    (j : List (Token × Position)) : α ⊕ β → List (Token × Position) → Prop
  | .inl a, k => k.length < j.length ∧ I a k
  | .inr b, k => Q b k

section

variable {I : α → List (Token × Position) → Prop} {j k : List (Token × Position)}

theorem counts_next {a : α} (hlt : k.length < j.length) (ha : I a k) :
    Counts s opened (pure (.inl a)) (pure (.inl a)) k (Round I Q j) := counts_pure ⟨hlt, ha⟩

theorem counts_last {b : β} (hb : Q b k) :
    Counts s opened (pure (.inr b)) (pure (.inr b)) k (Round I Q j) := counts_pure hb

end

/-- A loop whose rounds each read a token comes to its end, within the rounds that it may take. -/
theorem counts_loop {step' : α → Counting (α ⊕ β)} {step : α → Parse (α ⊕ β)}
    (I : α → List (Token × Position) → Prop)
    (hstep : ∀ a j, j.length ≤ i.length → I a j →
      Counts s opened (step' a) (step a) j (Round I Q j))
    {a : α} (ha : I a i) : Counts s opened (loop a step') (Parse.loop a step) i Q := by
  -- The loop has a number of rounds from the start, the counting one goes by the tokens left.
  have hrounds : ∀ n a j, j.length ≤ i.length → j.length < n → I a j →
      Counts s opened (rounds step' j.length a) (iterate step n a) j Q := by
    intro n
    induction n with
    | zero => exact fun _ _ _ hlt => absurd hlt (Nat.not_lt_zero _)
    | succ n ih =>
      intro a j hle hlt ha
      rw [rounds]
      refine (hstep a j hle ha).bind fun r k hk hr => ?_
      cases r with
      | inr b => exact counts_pure hr
      | inl b =>
        obtain ⟨hread, hb⟩ : k.length < j.length ∧ I b k := hr
        rintro r rfl hopened hdeepest hs
        show Ends s opened r.draft.tokens Q ((if _h : r.draft.tokens.length < j.length then
          rounds step' r.draft.tokens.length b else throw .stalled : Counting β) s r) _
        rw [dif_pos hread]
        exact ih b _ (Nat.le_trans hk hle) (by omega) hb r rfl hopened hdeepest hs
  intro r hi hopened hdeepest hs
  show Ends s opened i Q (rounds step' r.draft.tokens.length a s r)
    (iterate step s.rounds a s r.draft)
  rw [hi]
  exact hrounds s.rounds a i (Nat.le_refl _) hs ha r hi hopened hdeepest hs

/-- Every item reads a token. -/
theorem reads_separatedAfter {item' : List α → Counting α} {item : List α → Parse α}
    (h : ∀ before, Reads s opened (item' before) (item before)) :
    Reads s opened (separatedAfter item') (Parse.separatedAfter item) := by
  intro i
  refine counts_loop (fun _ _ => True) (fun before j hj _ => ?_) trivial
  refine (h before j).bind fun a k _ hk => counts_step (plain_acceptMark _) fun r l hl _ => ?_
  exact counts_ite (fun _ => counts_next (Nat.lt_of_le_of_lt hl hk) trivial) fun _ =>
    counts_last (by omega)

theorem reads_separated {item' : Counting α} {item : Parse α} (h : Reads s opened item' item) :
    Reads s opened (separated item') (Parse.separated item) := reads_separatedAfter fun _ => h

end Counting

end VectorScript
