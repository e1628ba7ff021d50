import VectorScript.Grammar.Reader

/-!
# What reading leaves alone

Most steps of reading only take tokens and note subscripts: `Reads` says so of a step, whether it
succeeds or fails, and that a property holds of every result. It passes through sequences and loops.

    Reads s d p Q → (∀ a, Q a → Reads s d (f a) R) → Reads s d (p >>= f) R          (Reads.bind)
-/

namespace VectorScript

/-- The drafts agree on everything but the tokens to read and the subscripts noted. -/
structure Draft.Same (d e : Draft) : Prop where
  table : e.table = d.table
  slots : e.slots = d.slots
  symbols : e.symbols = d.symbols
  exports : e.exports = d.exports
  imports : e.imports = d.imports
  references : e.references = d.references

theorem Draft.Same.refl (d : Draft) : d.Same d := ⟨rfl, rfl, rfl, rfl, rfl, rfl⟩

theorem Draft.Same.trans {d e f : Draft} (h : d.Same e) (h' : e.Same f) : d.Same f :=
  ⟨h'.table.trans h.table, h'.slots.trans h.slots, h'.symbols.trans h.symbols,
    h'.exports.trans h.exports, h'.imports.trans h.imports, h'.references.trans h.references⟩

namespace Parse

variable {α β : Type} {s : Surroundings} {d : Draft} {p : Parse α} {f : α → Parse β}
  {Q : α → Prop} {R : β → Prop}

/-! ## The judgement -/

/-- Read from the draft `e`, the step ends in a draft that agrees with `d`, with a result that has
the property or with a fault. -/
def ReadsFrom (s : Surroundings) (d e : Draft) (p : Parse α) (Q : α → Prop) : Prop :=
  match p s e with
  | .ok a e => d.Same e ∧ Q a
  | .error _ e => d.Same e

/-- The step reads and changes nothing else; the property holds of its results. -/
def Reads (s : Surroundings) (d : Draft) (p : Parse α) (Q : α → Prop) : Prop :=
  ∀ e, d.Same e → ReadsFrom s d e p Q

theorem ReadsFrom.bind {e : Draft} (hp : ReadsFrom s d e p Q) (hf : ∀ a, Q a → Reads s d (f a) R) :
    ReadsFrom s d e (p >>= f) R := by
  unfold ReadsFrom at hp ⊢
  show match EStateM.bind (p s) (fun a => f a s) e with
    | .ok a e => d.Same e ∧ R a
    | .error _ e => d.Same e
  unfold EStateM.bind
  cases h : p s e with
  | ok a e =>
    rw [h] at hp
    exact hf a hp.2 e hp.1
  | error x e =>
    rw [h] at hp
    exact hp

theorem Reads.bind (hp : Reads s d p Q) (hf : ∀ a, Q a → Reads s d (f a) R) :
    Reads s d (p >>= f) R := fun e he => (hp e he).bind hf

theorem Reads.mono {Q' : α → Prop} (hp : Reads s d p Q) (h : ∀ a, Q a → Q' a) :
    Reads s d p Q' := by
  intro e he
  have := hp e he
  unfold ReadsFrom at this ⊢
  cases hx : p s e with
  | ok a e =>
    rw [hx] at this
    exact ⟨this.1, h a this.2⟩
  | error x e =>
    rw [hx] at this
    exact this

theorem reads_pure {a : α} (h : Q a) : Reads s d (pure a) Q := fun _ he => ⟨he, h⟩

theorem reads_throw (x : Fault) : Reads s d (throw x : Parse α) Q := fun _ he => he

theorem reads_fail (cause : Cause) (place : Position) :
    Reads s d (fail cause place : Parse α) Q := reads_throw _

theorem reads_failAbout (cause : Cause) (item : String) (place : Position) :
    Reads s d (failAbout cause item place : Parse α) Q := reads_throw _

theorem reads_read : Reads s d (read : Parse Surroundings) (· = s) := fun _ he => ⟨he, rfl⟩

theorem reads_get : Reads s d (get : Parse Draft) d.Same := fun _ he => ⟨he, he⟩

theorem reads_modify {g : Draft → Draft} (h : ∀ e : Draft, e.Same (g e)) :
    Reads s d (modify g : Parse Unit) fun _ => True := fun e he => ⟨he.trans (h e), trivial⟩

/-! ## Tokens -/

theorem reads_peek? : Reads s d peek? fun _ => True := fun _ he => ⟨he, trivial⟩

theorem reads_position : Reads s d position fun _ => True := by
  refine reads_get.bind fun e he => ?_
  split
  · exact reads_pure trivial
  · exact reads_read.bind fun _ _ => reads_pure trivial

theorem reads_skip : Reads s d skip fun _ => True :=
  reads_modify fun _ => ⟨rfl, rfl, rfl, rfl, rfl, rfl⟩

theorem reads_next? : Reads s d next? fun _ => True := by
  refine reads_get.bind fun e he => ?_
  split
  · refine Reads.bind (reads_modify fun _ => ⟨rfl, rfl, rfl, rfl, rfl, rfl⟩) fun _ _ => ?_
    exact reads_pure trivial
  · exact reads_pure trivial

theorem reads_accept (t : Token) : Reads s d (accept t) fun _ => True := by
  refine reads_peek?.bind fun o _ => ?_
  split
  · exact reads_skip.bind fun _ _ => reads_pure trivial
  · exact reads_pure trivial

theorem reads_unexpected (wanted : String) : Reads s d (unexpected wanted : Parse α) Q := by
  refine reads_position.bind fun p _ => reads_peek?.bind fun o _ => ?_
  split
  · exact reads_throw _
  · exact reads_failAbout _ _ _

theorem reads_expect (t : Token) : Reads s d (expect t) fun _ => True := by
  refine (reads_accept t).bind fun b _ => ?_
  split
  · exact reads_pure trivial
  · exact reads_unexpected _

theorem reads_expectMark (m : Mark) : Reads s d (expectMark m) fun _ => True := reads_expect _

theorem reads_acceptMark (m : Mark) : Reads s d (acceptMark m) fun _ => True := reads_accept _

theorem reads_acceptWord (w : Word) : Reads s d (acceptWord w) fun _ => True := reads_accept _

theorem reads_ident : Reads s d ident fun _ => True := by
  refine reads_position.bind fun p _ => reads_peek?.bind fun o _ => ?_
  split
  · exact reads_skip.bind fun _ _ => reads_pure trivial
  · exact reads_unexpected _

theorem reads_integer (n : Int) (place : Position) :
    Reads s d (integer n place) fun _ => True := by
  unfold integer
  split
  · exact reads_pure trivial
  · exact reads_failAbout _ _ _

/-! ## Nesting and loops -/

theorem reads_tooDeep : Reads s d (tooDeep : Parse α) Q :=
  reads_position.bind fun _ _ => reads_fail _ _

/-- What holds after a round of a loop: the invariant if it goes on, and else the property of the
result. -/
def Round (I : α → Prop) (R : β → Prop) : α ⊕ β → Prop
  | .inl a => I a
  | .inr b => R b

theorem reads_iterate {I : α → Prop} {step : α → Parse (α ⊕ β)}
    (hstep : ∀ a, I a → Reads s d (step a) (Round I R)) (rounds : Nat) {a : α} (ha : I a) :
    Reads s d (iterate step rounds a) R := by
  induction rounds generalizing a with
  | zero => exact reads_throw _
  | succ rounds ih =>
    refine (hstep a ha).bind fun r hr => ?_
    split
    · exact ih hr
    · exact reads_pure hr

theorem reads_loop {step : α → Parse (α ⊕ β)} (I : α → Prop)
    (hstep : ∀ a, I a → Reads s d (step a) (Round I R)) {a : α} (ha : I a) : Reads s d (loop a step) R :=
  reads_read.bind fun _ _ => reads_iterate hstep _ ha

/-- There is at least one item, and each has the property. -/
theorem reads_separatedAfter {item : List α → Parse α} (h : ∀ before, Reads s d (item before) Q) :
    Reads s d (separatedAfter item) fun items => items ≠ [] ∧ ∀ a ∈ items, Q a := by
  refine reads_loop (fun before => ∀ a ∈ before, Q a) (fun before hb => ?_) (by simp)
  refine (h before).bind fun a ha => ?_
  have hall : ∀ x ∈ a :: before, Q x := by
    intro x hx
    rcases List.mem_cons.1 hx with rfl | hx
    · exact ha
    · exact hb x hx
  refine (reads_acceptMark _).bind fun b _ => ?_
  split
  · exact reads_pure hall
  · refine reads_pure ⟨by simp, fun x hx => hall x (List.mem_reverse.1 hx)⟩

theorem reads_separated {item : Parse α} (h : Reads s d item Q) :
    Reads s d (separated item) fun items => items ≠ [] ∧ ∀ a ∈ items, Q a :=
  reads_separatedAfter fun _ => h

/-! ## Names -/

/-- A name that is found is one of the draft or of the host. -/
theorem reads_lookup? (name : String) : Reads s d (lookup? name) fun o =>
    ∀ symbol, o = some symbol →
      d.symbols.get? name = some symbol ∨ s.globals.symbols.get? name = some symbol := by
  refine reads_get.bind fun e he => ?_
  rw [he.symbols]
  split
  · next symbol h =>
    exact reads_pure fun x hx => .inl (h.trans hx)
  · exact reads_read.bind fun g hg => reads_pure fun x hx => .inr (hg ▸ hx)

theorem reads_checkFresh (name : String) (place : Position) :
    Reads s d (checkFresh name place) fun _ =>
      d.symbols.get? name = none ∧ s.globals.contains name = false := by
  refine reads_get.bind fun e he => reads_read.bind fun g hg => ?_
  rw [he.symbols, hg]
  split
  · exact reads_failAbout _ _ _
  · next h =>
    simp only [Bool.or_eq_true, not_or, Bool.not_eq_true] at h
    refine reads_pure ⟨?_, h.2⟩
    have := h.1
    simpa [NameMap.contains] using this

end Parse

end VectorScript
