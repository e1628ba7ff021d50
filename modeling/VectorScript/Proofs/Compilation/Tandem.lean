import VectorScript.Grammar.Reader
import VectorScript.Proofs.NameMap

/-!
# Two compilations of one text

A text is compiled twice, in surroundings that differ in what the script itself has declared before:
step by step the two compilations read the same tokens and come to the same results, or fail with the
same fault. On the way each loop reads a token in every round, and a fault has a cause that no running
script can have and stands at a token of the text, or at the end of a text that has been read to its
end. `InStep` says so of a step of reading.

    c.InStep p i Q → (∀ a j, … → Q a j → c.InStep (f a) j R) → c.InStep (p >>= f) i R      (InStep.bind)
-/

namespace VectorScript

/-! ## What drafts go by -/

/-- A symbol without the id of a variable that the script declares itself. -/
def Symbol.bare : Symbol → Symbol
  | var v =>
    var { v with shared := if v.imported then v.shared else v.shared.map fun _ => default }
  | symbol => symbol

/-- The shared variable in a slot. -/
def Slot.id? : Slot → Option SharedId
  | .local _ => none
  | .shared id => some id

/-- A script may import the shared variable: from the host, or from a script other than itself. -/
def Surroundings.Offers (s : Surroundings) (id : SharedId) : Prop :=
  (∃ x, s.globals.shared.get? x = some id) ∨ ∃ script exports x, script ≠ s.name ∧
    s.scripts.exports? script = some exports ∧ exports.get? x = some id

/-- What a compilation makes of its draft: it has read from the front of the text and declared new
shared variables only after those of the table. It refers to the shared variables in its slots, and
what it imports from neither is the script itself nor depends on it. Where the declared name already
stood for a shared variable of the type, that one is declared again, and else a new one. -/
structure Draft.From (s : Surroundings) (text : List (Token × Position)) (t : SharedTable)
    (d : Draft) : Prop where
  tokens : d.tokens <:+ text
  imports : ∀ script, d.imports.contains script = true → d.subscripts.contains script = true ∧
    script ≠ s.name ∧ s.scripts.dependsOn script s.name = false
  references : d.references.toList = d.slots.toList.filterMap Slot.id?
  entries : ∀ id e, t.get? id = some e → d.table.get? id = some e
  next_le : t.next ≤ d.table.next
  table : d.table = t ∨ ∃ id ∈ d.references.toList, t.next ≤ id.index
  lookup : ∀ x, d.symbols.get? x = none → d.table.lookup s.name x = t.lookup s.name x
  redeclared : ∀ x v id e, d.symbols.get? x = some (.var v) → v.shared = some id →
    v.imported = false → t.current? s.name x = some e →
      (e.ty = v.ty → id = e.id) ∧ (e.ty ≠ v.ty → t.next ≤ id.index)

/-- Two compilations of one text: the surroundings of one of them, the scripts around the other, and
the tables on which they begin. -/
structure Tandem where
  here : Surroundings
  scripts : Scripts
  text : List (Token × Position)
  table : SharedTable
  table' : SharedTable

namespace Tandem

/-- The surroundings of the other compilation. -/
def there (c : Tandem) : Surroundings := { c.here with scripts := c.scripts }

/-- The surroundings differ only in the script that is compiled. A loop may take more rounds than
there are tokens. -/
structure Ok (c : Tandem) : Prop where
  rounds : c.text.length < c.here.rounds
  contains : ∀ script, script ≠ c.here.name →
    c.scripts.contains script = c.here.scripts.contains script
  exports : ∀ script, script ≠ c.here.name →
    c.scripts.exports? script = c.here.scripts.exports? script
  dependsOn : ∀ script, script ≠ c.here.name →
    c.scripts.dependsOn script c.here.name = c.here.scripts.dependsOn script c.here.name
  offers : ∀ id, c.here.Offers id →
    ∃ e e', c.table.get? id = some e ∧ c.table'.get? id = some e' ∧ e'.ty = e.ty

/-- The drafts of the two compilations at the same place: they differ in which shared variables stand
for what the script declares itself. -/
structure Alike (c : Tandem) (d d' : Draft) : Prop where
  here : d.From c.here c.text c.table
  there : d'.From c.there c.text c.table'
  tokens : d'.tokens = d.tokens
  slots : d'.slots.size = d.slots.size
  symbols : ∀ x, (d'.symbols.get? x).map Symbol.bare = (d.symbols.get? x).map Symbol.bare
  imports : d'.imports = d.imports
  subscripts : d'.subscripts = d.subscripts

/-- The position of a token of the text. -/
def Tok (c : Tandem) (p : Position) : Prop := ∃ t, (t, p) ∈ c.text

/-- A place to point at with these tokens ahead: a token of the text, or its end if there are none. -/
def Points (c : Tandem) (p : Position) (i : List (Token × Position)) : Prop :=
  c.Tok p ∨ p = c.here.endPosition ∧ i = []

/-- The fault is one that a text may have, and says where. -/
def Blames (c : Tandem) (e : Fault) (i : List (Token × Position)) : Prop :=
  e.isRuntime = false ∧ ∃ p, e.position = some p ∧ c.Points p i

/-- From two drafts the compilations make the step with one result, of which `Q` holds with the tokens
then ahead, or both fail with one fault. -/
def StepsFrom {α : Type} (c : Tandem) (d d' : Draft) (p : Parse α) (i : List (Token × Position))
    (Q : α → List (Token × Position) → Prop) : Prop :=
  match p c.here d, p c.there d' with
  | .ok a e, .ok a' e' =>
    a' = a ∧ c.Alike e e' ∧ e.tokens.length ≤ i.length ∧ Q a e.tokens
  | .error x e, .error x' _ => x' = x ∧ c.Blames x e.tokens
  | _, _ => False

/-- With these tokens ahead the compilations make the step from any drafts that are alike. -/
def InStep {α : Type} (c : Tandem) (p : Parse α) (i : List (Token × Position))
    (Q : α → List (Token × Position) → Prop) : Prop :=
  ∀ d d', c.Alike d d' → d.tokens = i → c.StepsFrom d d' p i Q

/-- Wherever the step is made, it reads a token, and `P` holds of its result. -/
def Moves {α : Type} (c : Tandem) (p : Parse α) (P : α → Prop) : Prop :=
  ∀ i, c.InStep p i fun a j => j.length < i.length ∧ P a

variable {α β : Type} {c : Tandem} {p : Parse α} {f : α → Parse β}
  {i : List (Token × Position)} {Q : α → List (Token × Position) → Prop}
  {R : β → List (Token × Position) → Prop} {P : α → Prop}

/-! ## Places -/

theorem Points.tok {q : Position} {j : List (Token × Position)} (h : c.Points q i)
    (hj : j.length < i.length) : c.Tok q := by
  rcases h with h | ⟨-, rfl⟩
  · exact h
  · cases hj

theorem Points.of_le {q : Position} {j : List (Token × Position)} (h : c.Points q i)
    (hj : j.length ≤ i.length) : c.Points q j := by
  refine h.imp_right fun ⟨hq, hi⟩ => ⟨hq, ?_⟩
  subst hi
  exact List.eq_nil_of_length_eq_zero (Nat.le_zero.1 hj)

theorem Tok.points {q : Position} (h : c.Tok q) : c.Points q i := .inl h

/-! ## The judgement -/

theorem StepsFrom.bind {d d' : Draft} (hp : c.StepsFrom d d' p i Q)
    (hf : ∀ a j, j.length ≤ i.length → Q a j → c.InStep (f a) j R) :
    c.StepsFrom d d' (p >>= f) i R := by
  unfold StepsFrom at hp ⊢
  show match EStateM.bind (p c.here) (fun a => f a c.here) d,
      EStateM.bind (p c.there) (fun a => f a c.there) d' with
    | .ok b e, .ok b' e' => b' = b ∧ c.Alike e e' ∧ e.tokens.length ≤ i.length ∧ R b e.tokens
    | .error x e, .error x' _ => x' = x ∧ c.Blames x e.tokens
    | _, _ => False
  unfold EStateM.bind
  cases hx : p c.here d <;> cases hx' : p c.there d' <;> simp only [hx, hx'] at hp
  case ok.ok a e a' e' =>
    obtain ⟨rfl, he, hle, hq⟩ := hp
    have h := hf a' e.tokens hle hq e e' he rfl
    unfold StepsFrom at h
    dsimp only
    cases hy : f a' c.here e <;> cases hy' : f a' c.there e' <;> simp only [hy, hy'] at h ⊢
    case ok.ok => exact ⟨h.1, h.2.1, Nat.le_trans h.2.2.1 hle, h.2.2.2⟩
    case error.error => exact h
  case error.error => exact hp

theorem InStep.bind (hp : c.InStep p i Q)
    (hf : ∀ a j, j.length ≤ i.length → Q a j → c.InStep (f a) j R) :
    c.InStep (p >>= f) i R := fun d d' hd hi => (hp d d' hd hi).bind hf

theorem InStep.mono {Q' : α → List (Token × Position) → Prop} (hp : c.InStep p i Q)
    (h : ∀ a j, j.length ≤ i.length → Q a j → Q' a j) : c.InStep p i Q' := by
  intro d d' hd hi
  have hp := hp d d' hd hi
  unfold StepsFrom at hp ⊢
  split at hp
  · exact ⟨hp.1, hp.2.1, hp.2.2.1, h _ _ hp.2.2.1 hp.2.2.2⟩
  · exact hp
  · exact hp

theorem Moves.bind (hp : c.Moves p P)
    (hf : ∀ a j, j.length < i.length → P a → c.InStep (f a) j R) : c.InStep (p >>= f) i R :=
  (hp i).bind fun a j _ h => hf a j h.1 h.2

theorem Moves.mono {P' : α → Prop} (hp : c.Moves p P) (h : ∀ a, P a → P' a) : c.Moves p P' :=
  fun i => (hp i).mono fun a _ _ ha => ⟨ha.1, h a ha.2⟩

theorem inStep_pure {a : α} (h : Q a i) : c.InStep (pure a) i Q := by
  rintro d d' hd rfl
  exact ⟨rfl, hd, Nat.le_refl _, h⟩

theorem inStep_throw {e : Fault} (h : c.Blames e i) : c.InStep (throw e : Parse α) i Q := by
  rintro d d' hd rfl
  exact ⟨rfl, h⟩

theorem inStep_fail {cause : Cause} {q : Position} (hc : cause.code < 100) (hq : c.Points q i) :
    c.InStep (Parse.fail cause q : Parse α) i Q :=
  inStep_throw ⟨decide_eq_false (Nat.not_le.2 hc), q, rfl, hq⟩

theorem inStep_failAbout {cause : Cause} {item : String} {q : Position} (hc : cause.code < 100)
    (hq : c.Points q i) : c.InStep (Parse.failAbout cause item q : Parse α) i Q :=
  inStep_throw ⟨decide_eq_false (Nat.not_le.2 hc), q, rfl, hq⟩

/-- A step that takes no notice of what is different around the two compilations. -/
theorem StepsFrom.read {f : Surroundings → Parse β} {d d' : Draft} (heq : f c.there = f c.here)
    (h : c.StepsFrom d d' (f c.here) i R) : c.StepsFrom d d' (MonadReader.read >>= f) i R := by
  unfold StepsFrom at h ⊢
  show match f c.here c.here d, f c.there c.there d' with
    | .ok b e, .ok b' e' => b' = b ∧ c.Alike e e' ∧ e.tokens.length ≤ i.length ∧ R b e.tokens
    | .error x e, .error x' _ => x' = x ∧ c.Blames x e.tokens
    | _, _ => False
  rw [heq]
  exact h

theorem inStep_read {f : Surroundings → Parse β} (heq : f c.there = f c.here)
    (h : c.InStep (f c.here) i R) : c.InStep (read >>= f) i R :=
  fun d d' hd hi => (h d d' hd hi).read heq

/-- A step that takes no notice of what is different in the two drafts. -/
theorem StepsFrom.get {f : Draft → Parse β} {d d' : Draft} (heq : f d' = f d)
    (h : c.StepsFrom d d' (f d) i R) : c.StepsFrom d d' (MonadState.get >>= f) i R := by
  unfold StepsFrom at h ⊢
  show match f d c.here d, f d' c.there d' with
    | .ok b e, .ok b' e' => b' = b ∧ c.Alike e e' ∧ e.tokens.length ≤ i.length ∧ R b e.tokens
    | .error x e, .error x' _ => x' = x ∧ c.Blames x e.tokens
    | _, _ => False
  rw [heq]
  exact h

theorem inStep_get {f : Draft → Parse β}
    (h : ∀ d d', c.Alike d d' → d.tokens = i → f d' = f d ∧ c.InStep (f d) i R) :
    c.InStep (get >>= f) i R := fun d d' hd hi =>
  StepsFrom.get (h d d' hd hi).1 ((h d d' hd hi).2 d d' hd hi)

theorem inStep_modify {g : Draft → Draft} {j : List (Token × Position)}
    (h : ∀ d d', c.Alike d d' → d.tokens = i → c.Alike (g d) (g d') ∧ (g d).tokens = j)
    (hj : j.length ≤ i.length) : c.InStep (modify g : Parse Unit) i fun _ k => k = j := by
  intro d d' hd hi
  obtain ⟨halike, htokens⟩ := h d d' hd hi
  exact ⟨rfl, halike, by rw [htokens]; exact hj, htokens⟩

/-! ## Tokens -/

/-- What is read has been ahead. -/
theorem Alike.drop {d d' : Draft} (h : c.Alike d d') {j : List (Token × Position)}
    (hj : j <:+ d.tokens) : c.Alike { d with tokens := j } { d' with tokens := j } where
  here := { h.here with tokens := hj.trans h.here.tokens }
  there := { h.there with tokens := hj.trans h.here.tokens }
  tokens := rfl
  slots := h.slots
  symbols := h.symbols
  imports := h.imports
  subscripts := h.subscripts

theorem inStep_peek? : c.InStep Parse.peek? i fun o j => o = i.head?.map (·.1) ∧ j = i := by
  refine inStep_get fun d d' hd hi => ⟨?_, inStep_pure ?_⟩
  · rw [hd.tokens]
  · rw [hi]
    exact ⟨rfl, rfl⟩

/-- A token that is looked at can be read. -/
theorem length_tail_lt {t : Token} (h : some t = i.head?.map (·.1)) : i.tail.length < i.length := by
  cases i with
  | nil => cases h
  | cons t rest => exact Nat.lt_succ_self _

theorem inStep_position : c.InStep Parse.position i fun q j => c.Points q i ∧ j = i := by
  refine inStep_get fun d d' hd hi => ⟨by rw [hd.tokens], ?_⟩
  have hsuffix := hd.here.tokens
  rw [hi] at hsuffix ⊢
  cases i with
  | nil => exact inStep_read rfl (inStep_pure ⟨.inr ⟨rfl, rfl⟩, rfl⟩)
  | cons t rest => exact inStep_pure ⟨.inl ⟨t.1, hsuffix.mem List.mem_cons_self⟩, rfl⟩

theorem inStep_skip : c.InStep Parse.skip i fun _ j => j = i.tail := by
  refine inStep_modify (fun d d' hd hi => ⟨?_, ?_⟩) (by simp)
  · rw [hd.tokens]
    exact hd.drop (List.drop_suffix 1 d.tokens)
  · rw [← hi, List.drop_one]

theorem inStep_next? : c.InStep Parse.next? i fun o j =>
    (o = none ∧ j = i) ∨ ∃ t, o = some t ∧ c.Tok t.2 ∧ j.length < i.length := by
  refine inStep_get fun d d' hd hi => ⟨by rw [hd.tokens], ?_⟩
  have hsuffix := hd.here.tokens
  rw [hi] at hsuffix ⊢
  cases i with
  | nil => exact inStep_pure (.inl ⟨rfl, rfl⟩)
  | cons t rest =>
    have hread : c.InStep (modify fun d : Draft => { d with tokens := rest } : Parse Unit) (t :: rest)
        fun _ j => j = rest := by
      refine inStep_modify (fun d d' hd hi => ⟨?_, rfl⟩) (Nat.le_succ _)
      exact hd.drop (hi ▸ List.suffix_cons t rest)
    refine hread.bind fun _ j _ hj => inStep_pure (.inr ⟨t, rfl, ?_, ?_⟩)
    · exact ⟨t.1, hsuffix.mem List.mem_cons_self⟩
    · rw [hj]
      exact Nat.lt_succ_self _

theorem inStep_accept (t : Token) : c.InStep (Parse.accept t) i fun r j =>
    r = true ∧ j.length < i.length ∨ r = false ∧ j = i := by
  refine inStep_peek?.bind fun o j _ ⟨ho, hj⟩ => ?_
  subst hj
  split
  · next h =>
    refine inStep_skip.bind fun _ k _ hk => inStep_pure (.inl ⟨rfl, ?_⟩)
    rw [hk]
    exact length_tail_lt (h.symm.trans ho)
  · exact inStep_pure (.inr ⟨rfl, rfl⟩)

theorem inStep_unexpected (wanted : String) :
    c.InStep (Parse.unexpected wanted : Parse α) i Q := by
  refine inStep_position.bind fun q j _ ⟨hq, hj⟩ => inStep_peek?.bind fun o k _ ⟨_, hk⟩ => ?_
  subst hj hk
  split
  · exact inStep_throw ⟨rfl, q, rfl, hq⟩
  · exact inStep_failAbout (by decide) hq

theorem moves_expect (t : Token) : c.Moves (Parse.expect t) fun _ => True := by
  refine fun i => (inStep_accept t).bind fun r j _ hr => ?_
  rcases hr with ⟨rfl, hlt⟩ | ⟨rfl, -⟩
  · exact inStep_pure ⟨hlt, trivial⟩
  · exact inStep_unexpected _

theorem moves_expectMark (m : Mark) : c.Moves (Parse.expectMark m) fun _ => True := moves_expect _

theorem inStep_acceptMark (m : Mark) : c.InStep (Parse.acceptMark m) i fun r j =>
    r = true ∧ j.length < i.length ∨ r = false ∧ j = i := inStep_accept _

theorem inStep_acceptWord (w : Word) : c.InStep (Parse.acceptWord w) i fun r j =>
    r = true ∧ j.length < i.length ∨ r = false ∧ j = i := inStep_accept _

theorem moves_ident : c.Moves Parse.ident fun r => c.Tok r.2 := by
  refine fun i => inStep_position.bind fun q j _ ⟨hq, hj⟩ => inStep_peek?.bind fun o k _ ⟨ho, hk⟩ => ?_
  subst hj hk
  split
  · next name h =>
    refine inStep_skip.bind fun _ l _ hl => ?_
    have hlt : l.length < k.length := hl ▸ length_tail_lt ho
    exact inStep_pure ⟨hlt, hq.tok hlt⟩
  · exact inStep_unexpected _

theorem inStep_integer {n : Int} {q : Position} (hq : c.Points q i) :
    c.InStep (Parse.integer n q) i fun _ j => j = i := by
  unfold Parse.integer
  split
  · exact inStep_pure rfl
  · exact inStep_failAbout (by decide) hq

/-! ## Nesting and loops -/

theorem inStep_tooDeep : c.InStep (Parse.tooDeep : Parse α) i Q :=
  inStep_position.bind fun _ _ hle ⟨hq, _⟩ => inStep_fail (by decide) (hq.of_le hle)

theorem moves_tooDeep : c.Moves (Parse.tooDeep : Parse α) P := fun _ => inStep_tooDeep

/-- A loop whose rounds each read a token does not run out of them. -/
theorem inStep_loop (hc : c.Ok) {step : α → Parse (α ⊕ β)}
    (I : α → List (Token × Position) → Prop)
    (hstep : ∀ a j, j.length ≤ i.length → I a j → c.InStep (step a) j fun r k =>
      match r with
      | .inl b => k.length < j.length ∧ I b k
      | .inr b => R b k)
    {a : α} (ha : I a i) : c.InStep (Parse.loop a step) i R := by
  have hiterate : ∀ rounds a j, j.length ≤ i.length → j.length < rounds → I a j →
      c.InStep (Parse.iterate step rounds a) j R := by
    intro rounds
    induction rounds with
    | zero => exact fun _ _ _ hlt => absurd hlt (Nat.not_lt_zero _)
    | succ rounds ih =>
      intro a j hle hlt ha
      refine (hstep a j hle ha).bind fun r k hk hr => ?_
      cases r with
      | inl b => exact ih b k (Nat.le_trans hk hle) (by omega) hr.2
      | inr b => exact inStep_pure hr
  intro d d' hd hi
  refine inStep_read rfl (hiterate _ a i (Nat.le_refl _) ?_ ha) d d' hd hi
  have := hd.here.tokens.length_le
  have := hc.rounds
  rw [hi] at *
  omega

theorem moves_separatedAfter (hc : c.Ok) {item : List α → Parse α}
    (h : ∀ before, c.Moves (item before) P) :
    c.Moves (Parse.separatedAfter item) fun items => items ≠ [] ∧ ∀ a ∈ items, P a := by
  intro i
  refine inStep_loop hc (fun before _ => ∀ a ∈ before, P a) (fun before j hj hb => ?_) (by simp)
  refine (h before).bind fun a k hk ha => ?_
  have hall : ∀ x ∈ a :: before, P x := List.forall_mem_cons.2 ⟨ha, hb⟩
  refine (inStep_acceptMark _).bind fun r l hl _ => ?_
  split
  · exact inStep_pure ⟨Nat.lt_of_le_of_lt hl hk, hall⟩
  · refine inStep_pure ⟨by omega, by simp, fun x hx => hall x (List.mem_reverse.1 hx)⟩

theorem moves_separated (hc : c.Ok) {item : Parse α} (h : c.Moves item P) :
    c.Moves (Parse.separated item) fun items => items ≠ [] ∧ ∀ a ∈ items, P a :=
  moves_separatedAfter hc fun _ => h

/-! ## Names -/

/-- A step that goes on with what a name stands for, and takes no notice of the ids of the script's own
variables. -/
theorem inStep_lookup? {f : Option Symbol → Parse β} {name : String}
    (heq : ∀ o, f (o.map Symbol.bare) = f o) (h : ∀ o, c.InStep (f o) i R) :
    c.InStep (Parse.lookup? name >>= f) i R := by
  have hget : Parse.lookup? name >>= f = get >>= fun d : Draft => read >>= fun s =>
      f ((d.symbols.get? name).or (s.globals.symbols.get? name)) := by
    unfold Parse.lookup?
    rw [bind_assoc]
    refine bind_congr fun d => ?_
    cases d.symbols.get? name <;> simp
    rfl
  rw [hget]
  refine inStep_get fun d d' hd _ => ⟨bind_congr fun s => ?_, inStep_read rfl (h _)⟩
  rw [← heq, Option.map_or, hd.symbols, ← Option.map_or, heq]

end Tandem

end VectorScript
