import VectorScript.Proofs.Grammar.Reader

/-!
# What steps of reading do with the tokens ahead

`Outcome` says of a step, with certain tokens ahead, which results it has and what it leaves of the
tokens, and whether it may fail. Steps that may fail are judged by the results they have; of those
that may not, it follows that they have one. A step also leaves the names of the draft alone.

    Outcome s b fails p i Q → (∀ a j, Q a j → Outcome s b fails (f a) j R) →
      Outcome s b fails (p >>= f) i R                                          (Outcome.bind)
-/

namespace VectorScript

/-- The tokens still to read, without their places. -/
def Draft.ahead (d : Draft) : List Token := d.tokens.map (·.1)

namespace Parse

variable {α β : Type} {s : Surroundings} {b : Draft} {fails : Prop} {p : Parse α} {f : α → Parse β}
  {i : List Token} {Q : α → List Token → Prop} {R : β → List Token → Prop}

/-! ## The judgement -/

/-- The draft agrees with `b` on everything but tokens and subscripts, and a loop may take more
rounds than there are tokens ahead. -/
structure Ready (s : Surroundings) (b d : Draft) : Prop where
  same : b.Same d
  rounds : d.ahead.length < s.rounds

/-- With these tokens ahead, the result and the tokens left have the property, unless the step
fails, which it does only if it may. -/
def Outcome (s : Surroundings) (b : Draft) (fails : Prop) (p : Parse α) (i : List Token)
    (Q : α → List Token → Prop) : Prop :=
  ∀ d, Ready s b d → d.ahead = i →
    match p s d with
    | .ok a e => Ready s b e ∧ Q a e.ahead
    | .error _ _ => fails

theorem Outcome.bind (hp : Outcome s b fails p i Q)
    (hf : ∀ a j, Q a j → Outcome s b fails (f a) j R) : Outcome s b fails (p >>= f) i R := by
  intro d hd hi
  have hd := hp d hd hi
  show match EStateM.bind (p s) (fun a => f a s) d with
    | .ok a e => Ready s b e ∧ R a e.ahead
    | .error _ _ => fails
  unfold EStateM.bind
  cases h : p s d with
  | ok a e =>
    rw [h] at hd
    exact hf a _ hd.2 e hd.1 rfl
  | error x e =>
    rw [h] at hd
    exact hd

theorem Outcome.mono {Q' : α → List Token → Prop} (hp : Outcome s b fails p i Q)
    (h : ∀ a j, Q a j → Q' a j) : Outcome s b fails p i Q' := by
  intro d hd hi
  have hd := hp d hd hi
  split at hd
  · exact ⟨hd.1, h _ _ hd.2⟩
  · exact hd

theorem outcome_pure {a : α} (h : Q a i) : Outcome s b fails (pure a) i Q := by
  rintro d hd rfl
  exact ⟨hd, h⟩

theorem outcome_throw (x : Fault) (h : fails) : Outcome s b fails (throw x : Parse α) i Q :=
  fun _ _ _ => h

theorem outcome_fail (cause : Cause) (place : Position) (h : fails) :
    Outcome s b fails (fail cause place : Parse α) i Q := outcome_throw _ h

theorem outcome_failAbout (cause : Cause) (item : String) (place : Position) (h : fails) :
    Outcome s b fails (failAbout cause item place : Parse α) i Q := outcome_throw _ h

theorem outcome_read :
    Outcome s b fails (read : Parse Surroundings) i fun a j => a = s ∧ j = i := by
  rintro d hd rfl
  exact ⟨hd, rfl, rfl⟩

theorem outcome_get : Outcome s b fails (get : Parse Draft) i fun d j =>
    b.Same d ∧ d.ahead = i ∧ j = i := by
  rintro d hd rfl
  exact ⟨hd, hd.same, rfl, rfl⟩

/-- A change of a draft that leaves the names alone and puts no more tokens ahead. -/
theorem outcome_modify {g : Draft → Draft} {j : List Token} (h : ∀ e : Draft, e.Same (g e))
    (hg : ∀ e : Draft, e.ahead = i → (g e).ahead = j) (hj : j.length ≤ i.length) :
    Outcome s b fails (modify g : Parse Unit) i fun _ k => k = j := by
  rintro d hd rfl
  refine ⟨⟨hd.same.trans (h d), ?_⟩, hg d rfl⟩
  rw [hg d rfl]
  exact Nat.lt_of_le_of_lt hj hd.rounds

/-! ## Tokens -/

theorem outcome_peek? : Outcome s b fails peek? i fun o j => o = i.head? ∧ j = i := by
  refine outcome_get.bind fun d j h => outcome_pure ⟨?_, h.2.2⟩
  rw [← h.2.1, Draft.ahead, List.head?_map]

theorem outcome_position : Outcome s b fails position i fun _ j => j = i := by
  refine outcome_get.bind fun d j h => ?_
  split
  · exact outcome_pure h.2.2
  · exact outcome_read.bind fun _ _ h' => outcome_pure (h'.2.trans h.2.2)

theorem outcome_skip : Outcome s b fails skip i fun _ j => j = i.tail := by
  refine outcome_modify (fun _ => ⟨rfl, rfl, rfl, rfl, rfl, rfl⟩) (fun d hd => ?_) (by simp)
  rw [← hd, Draft.ahead, Draft.ahead, List.drop_one, List.map_tail]

theorem outcome_next? :
    Outcome s b fails next? i fun o j => o.map (·.1) = i.head? ∧ j = i.tail := by
  refine outcome_get.bind fun d j h => ?_
  obtain ⟨-, rfl, rfl⟩ := h
  split
  · next t rest ht =>
    have ha : d.ahead = t.1 :: rest.map (·.1) := by rw [Draft.ahead, ht, List.map_cons]
    rw [ha]
    refine Outcome.bind (outcome_modify (fun _ => ⟨rfl, rfl, rfl, rfl, rfl, rfl⟩)
      (fun _ _ => rfl) (Nat.le_succ _)) fun _ k hk => outcome_pure ⟨rfl, hk⟩
  · next ht =>
    refine outcome_pure ?_
    simp [Draft.ahead, ht]

theorem outcome_accept (t : Token) : Outcome s b fails (accept t) i fun r j =>
    (r = true ∧ i = t :: j) ∨ (r = false ∧ j = i ∧ i.head? ≠ some t) := by
  refine outcome_peek?.bind fun o j h => ?_
  obtain ⟨rfl, rfl⟩ := h
  split
  · next ht =>
    obtain ⟨rest, rfl⟩ := List.head?_eq_some_iff.1 ht
    exact outcome_skip.bind fun _ k hk => outcome_pure (.inl ⟨rfl, congrArg _ hk.symm⟩)
  · next ht => exact outcome_pure (.inr ⟨rfl, rfl, ht⟩)

theorem outcome_unexpected (wanted : String) (h : fails) :
    Outcome s b fails (unexpected wanted : Parse α) i Q := by
  refine outcome_position.bind fun _ _ _ => outcome_peek?.bind fun o _ _ => ?_
  split
  · exact outcome_throw _ h
  · exact outcome_failAbout _ _ _ h

theorem outcome_expect (t : Token) (h : i.head? ≠ some t → fails) :
    Outcome s b fails (expect t) i fun _ j => i = t :: j := by
  refine (outcome_accept t).bind fun r j hr => ?_
  rcases hr with ⟨rfl, hi⟩ | ⟨rfl, rfl, hi⟩
  · exact outcome_pure hi
  · exact outcome_unexpected _ (h hi)

theorem outcome_ident (h : (∀ name j, i ≠ .ident name :: j) → fails) :
    Outcome s b fails ident i fun r j => i = .ident r.1 :: j := by
  refine outcome_position.bind fun p j hj => outcome_peek?.bind fun o k hk => ?_
  obtain ⟨rfl, rfl⟩ := hk
  subst hj
  split
  · next name ho =>
    obtain ⟨rest, rfl⟩ := List.head?_eq_some_iff.1 ho
    exact outcome_skip.bind fun _ k hk => outcome_pure (congrArg _ hk.symm)
  · next ho => exact outcome_unexpected _ (h fun name j hj => ho name (by rw [hj]; rfl))

/-! ## Nesting and loops -/

theorem outcome_tooDeep (h : fails) : Outcome s b fails (tooDeep : Parse α) i Q :=
  outcome_position.bind fun _ _ _ => outcome_fail _ _ h

/-- A round of a loop, and the rounds after it. -/
theorem outcome_iterate {step : α → Parse (α ⊕ β)} {a : α} {rounds : Nat}
    {P : α ⊕ β → List Token → Prop} (hstep : Outcome s b fails (step a) i P)
    (hmore : ∀ a j, P (.inl a) j → Outcome s b fails (iterate step rounds a) j R)
    (hdone : ∀ c j, P (.inr c) j → R c j) :
    Outcome s b fails (iterate step (rounds + 1) a) i R := by
  refine hstep.bind fun r j hr => ?_
  split
  · exact hmore _ j hr
  · exact outcome_pure (hdone _ j hr)

/-- There are rounds enough for every token ahead. -/
theorem outcome_loop {step : α → Parse (α ⊕ β)} {a : α}
    (h : i.length < s.rounds → Outcome s b fails (iterate step s.rounds a) i R) :
    Outcome s b fails (loop a step) i R := by
  rintro d hd rfl
  exact h hd.rounds d hd rfl

/-! ## Names -/

/-- What a name stands for where expressions are read. -/
def symbol? (s : Surroundings) (b : Draft) (name : String) : Option Symbol :=
  (b.symbols.get? name).or (s.globals.symbols.get? name)

theorem outcome_lookup? (name : String) : Outcome s b fails (lookup? name) i fun o j =>
    o = symbol? s b name ∧ j = i := by
  refine outcome_get.bind fun d j h => ?_
  obtain ⟨hd, -, rfl⟩ := h
  unfold symbol?
  rw [hd.symbols]
  split
  · next symbol hs => exact outcome_pure ⟨by rw [hs]; rfl, rfl⟩
  · next hs =>
    refine outcome_read.bind fun g k h => outcome_pure ⟨?_, h.2⟩
    rw [hs, h.1]
    rfl

end Parse

end VectorScript
