import VectorScript.Proofs.Compilation.Placement
import VectorScript.Proofs.Completion.Aside
import VectorScript.Proofs.Token.Stub

/-!
# Reading a text and a beginning of it

A text and a beginning of it have some tokens in common; then the whole goes on with the rest of the
tokens, and the part with a stub at the most, what is left of a token that has been cut in two. As
long as both read the tokens that they have in common they are in step. The other cases are that the
whole has read past the cut, and the part, gone astray, declares nothing more: a stub is no name, no
keyword and no semicolon. `Tracks` says so of a step of reading, and passes through sequences and
loops.

    c.Tracks q 0 0 p → (∀ a, c.Tracks q l l (f a)) → c.Tracks q l l (p >>= f)         (Tracks.bind)
    (∀ a, c.Tracks q 0 0 (step a)) → c.Tracks q 0 0 (loop a step)                     (tracks_loop)
-/

namespace VectorScript

/-- The draft with more tokens ahead. -/
def Draft.on (d : Draft) (more : List (Token × Position)) : Draft :=
  { d with tokens := d.tokens ++ more }

theorem Draft.on_nil {d : Draft} (hd : d.tokens = []) (more : List (Token × Position)) :
    (d.on more).tokens = more := by
  show d.tokens ++ more = more
  rw [hd, List.nil_append]

theorem Draft.on_cons {d : Draft} {t : Token × Position} {k : List (Token × Position)}
    (hd : d.tokens = t :: k) (more : List (Token × Position)) :
    (d.on more).tokens = t :: (k ++ more) := by
  show d.tokens ++ more = _
  rw [hd, List.cons_append]

/-- A text and a part of it, after the tokens that they have in common. -/
structure Cut where
  whole : Surroundings
  part : Surroundings
  /-- What the whole text goes on with. -/
  rest : List (Token × Position)
  /-- What the part has in place of it. -/
  stub : List (Token × Position)
  alike : whole.Alike part
  blunt : ∀ t ∈ stub, t.1.Blunt

namespace Cut

open Parse

/-- A cut after the last token. -/
def atEnd (s : Surroundings) : Cut := ⟨s, s, [], [], .refl s, nofun⟩

variable {α β : Type} {c : Cut} {quiet : Prop} {k l m n : Nat} {p : Parse α} {f : α → Parse β}

/-! ## The judgement -/

/-- A loop may take more rounds than there are tokens. -/
structure Fed (c : Cut) (d : Draft) : Prop where
  whole : (d.on c.rest).tokens.length < c.whole.rounds
  part : (d.on c.stub).tokens.length < c.part.rounds

/-- What the run on the part comes to where the run on the whole gives `a` and ends in a draft: they
are in step; or the whole has read `n` tokens past the cut, and the part has no names but those of
the whole; or a loop of the part has used up its rounds. -/
inductive Beside (c : Cut) (n : Nat) (a : α) : Draft → EStateM.Result Fault Draft α → Prop
  | inStep (d : Draft) : Beside c n a (d.on c.rest) (.ok a (d.on c.stub))
  | astray {e : Draft} {r : EStateM.Result Fault Draft α}
      (past : e.tokens.length + n ≤ c.rest.length)
      (names : ∀ x, (final r).symbols.contains x = true → e.symbols.contains x = true)
      (tokens : ∀ b f, r = .ok b f → f.tokens <:+ c.stub) : Beside c n a e r
  | stuck {e f : Draft} : Beside c n a e (.error (.internal "no progress") f)

/-- The step reads `m` tokens at least and loses no name. Where the whole and the part are in step
they stay so, or the whole reads `n` tokens past the cut. -/
structure Trails (c : Cut) (quiet : Prop) (m n : Nat) (p : Parse α) : Prop where
  onward : ∀ {s d a e}, p s d = .ok a e → ∃ read, d.tokens = read ++ e.tokens ∧ m ≤ read.length
  gains : ∀ (s : Surroundings) (d : Draft), d.Gains quiet (final (p s d))
  beside : ∀ {d a e}, c.Fed d → p c.whole (d.on c.rest) = .ok a e →
    c.Beside n a e (p c.part (d.on c.stub))

/-- The step can also be made where the part has gone astray, and declares nothing there. -/
structure Tracks (c : Cut) (quiet : Prop) (m n : Nat) (p : Parse α) : Prop
    extends c.Trails quiet m n p where
  idle : ∀ (s : Surroundings) (d : Draft), d.tokens <:+ c.stub →
    (final (p s d)).symbols = d.symbols

/-- What is quiet declares nothing anywhere. -/
theorem Trails.tracks (h : c.Trails True m n p) : c.Tracks True m n p :=
  ⟨h, fun s d _ => (h.gains s d).quiet trivial⟩

theorem Trails.suffix (h : c.Trails quiet m n p) {s : Surroundings} {d e : Draft} {a : α}
    (hrun : p s d = .ok a e) : e.tokens <:+ d.tokens := by
  obtain ⟨read, hread, -⟩ := h.onward hrun
  exact ⟨read, hread.symm⟩

theorem Trails.shorter (h : c.Trails quiet m n p) {s : Surroundings} {d e : Draft} {a : α}
    (hrun : p s d = .ok a e) : e.tokens.length + m ≤ d.tokens.length := by
  obtain ⟨read, hread, hm⟩ := h.onward hrun
  rw [hread, List.length_append]
  omega

/-- No name is lost. -/
theorem Trails.names (h : c.Trails quiet m n p) {s : Surroundings} {d e : Draft} {a : α}
    (hrun : p s d = .ok a e) (x : String) (hx : d.symbols.contains x = true) :
    e.symbols.contains x = true := by
  have hnames := (h.gains s d).names x hx
  rw [hrun] at hnames
  exact hnames

/-- The part that has gone astray declares nothing, and stays astray. -/
theorem Tracks.astray (h : c.Tracks quiet m n p) {d : Draft} (hd : d.tokens <:+ c.stub) :
    (final (p c.part d)).symbols = d.symbols ∧
      ∀ a e, p c.part d = .ok a e → e.tokens <:+ c.stub := by
  refine ⟨h.idle _ _ hd, ?_⟩
  intro a e hrun
  exact (h.suffix hrun).trans hd

theorem length_on (d : Draft) (more : List (Token × Position)) :
    (d.on more).tokens.length = d.tokens.length + more.length := List.length_append

/-- Reading leaves rounds enough. -/
theorem Fed.mono {d e : Draft} (h : c.Fed d) (hlen : e.tokens.length ≤ d.tokens.length) :
    c.Fed e := by
  obtain ⟨hwhole, hpart⟩ := h
  rw [length_on] at hwhole hpart
  constructor
  · rw [length_on]
    omega
  · rw [length_on]
    omega

theorem Beside.mono {a : α} {e : Draft} {r : EStateM.Result Fault Draft α} (h : c.Beside n a e r)
    (hln : l ≤ n) : c.Beside l a e r := by
  cases h with
  | inStep d => exact .inStep d
  | astray past names tokens => exact .astray (by omega) names tokens
  | stuck => exact .stuck

theorem Tracks.mono (h : c.Tracks quiet m n p) (hk : k ≤ m) (hl : l ≤ n) :
    c.Tracks quiet k l p where
  onward hrun := by
    obtain ⟨read, hread, hm⟩ := h.onward hrun
    exact ⟨read, hread, by omega⟩
  gains := h.gains
  beside hd hrun := (h.beside hd hrun).mono hl
  idle := h.idle

theorem Tracks.loud (h : c.Tracks True m n p) : c.Tracks quiet m n p where
  onward := h.onward
  gains s d := ⟨(h.gains s d).names, fun _ => (h.gains s d).quiet trivial⟩
  beside := h.beside
  idle := h.idle

/-- Where nothing is in common ahead, the whole is past the cut with the first token that it reads. -/
theorem Tracks.beside_nil {d e : Draft} {a : α} (hd : d.tokens = [])
    (honward : ∀ {s d a e}, p s d = .ok a e → ∃ read, d.tokens = read ++ e.tokens ∧ n ≤ read.length)
    (hgains : ∀ (s : Surroundings) (d : Draft), d.Gains quiet (final (p s d)))
    (hidle : ∀ (s : Surroundings) (d : Draft), d.tokens <:+ c.stub →
      (final (p s d)).symbols = d.symbols)
    (hrun : p c.whole (d.on c.rest) = .ok a e) :
    c.Beside n a e (p c.part (d.on c.stub)) := by
  have htokens := Draft.on_nil hd
  have hnames := (hgains c.whole (d.on c.rest)).names
  rw [hrun] at hnames
  have hsymbols := hidle c.part (d.on c.stub) ⟨[], htokens c.stub⟩
  obtain ⟨read, hread, hn⟩ := honward hrun
  rw [htokens] at hread
  refine .astray ?_ ?_ ?_
  · rw [hread, List.length_append]
    omega
  · intro x hx
    rw [hsymbols] at hx
    exact hnames x hx
  · intro b f hpart
    obtain ⟨read', hread', -⟩ := honward hpart
    rw [htokens] at hread'
    exact ⟨read', hread'.symm⟩

/-! ## Sequences -/

/-- What comes after a step, on the whole and on the part. -/
theorem Beside.bind {k k' : α → Parse β} {a : α} {e e' : Draft} {b : β}
    {r : EStateM.Result Fault Draft α} (h : c.Beside n a e r)
    (hrun : k a c.whole e = .ok b e') (hshorter : e'.tokens.length + m ≤ e.tokens.length)
    (hnames : ∀ x, e.symbols.contains x = true → e'.symbols.contains x = true)
    (hidle : ∀ a' f, r = .ok a' f → f.tokens <:+ c.stub →
      (final (k' a' c.part f)).symbols = f.symbols ∧
        ∀ b' f', k' a' c.part f = .ok b' f' → f'.tokens <:+ c.stub)
    (hstep : ∀ d : Draft, e = d.on c.rest → r = .ok a (d.on c.stub) →
      c.Beside l b e' (k' a c.part (d.on c.stub))) (hl : l ≤ n + m) :
    c.Beside l b e' (andThen r fun a => k' a c.part) := by
  cases h with
  | inStep d => exact hstep d rfl rfl
  | stuck => exact .stuck
  | astray past names tokens =>
    cases r with
    | error x f =>
      refine .astray (by omega) (fun x hx => hnames x (names x hx)) ?_
      intro b f hf
      cases hf
    | ok a' f =>
      obtain ⟨hsymbols, htokens⟩ := hidle a' f rfl (tokens a' f rfl)
      refine .astray (by omega) ?_ htokens
      intro x hx
      have hx : (final (k' a' c.part f)).symbols.contains x = true := hx
      rw [hsymbols] at hx
      exact hnames x (names x hx)

section

variable {m' n' : Nat}

theorem onward_bind (hp : c.Trails quiet m n p) (hf : ∀ a, c.Trails quiet m' n' (f a))
    {s : Surroundings} {d e : Draft} {b : β} (hrun : (p >>= f) s d = .ok b e) :
    ∃ read, d.tokens = read ++ e.tokens ∧ m + m' ≤ read.length := by
  obtain ⟨a, e', hrun, hrun'⟩ := of_bind_ok hrun
  obtain ⟨read, hread, hm⟩ := hp.onward hrun
  obtain ⟨read', hread', hm'⟩ := (hf a).onward hrun'
  refine ⟨read ++ read', ?_, ?_⟩
  · rw [hread, hread', List.append_assoc]
  · rw [List.length_append]
    omega

/-- The whole may read past the cut in the first step or in the second one. -/
theorem Trails.andThen (hp : c.Trails quiet m n p) (hf : ∀ a, c.Tracks quiet m' n' (f a))
    (hk : k ≤ m + m') (hl : l ≤ n + m') (hl' : l ≤ n') : c.Trails quiet k l (p >>= f) where
  onward hrun := by
    obtain ⟨read, hread, hlen⟩ := onward_bind hp (fun a => (hf a).toTrails) hrun
    exact ⟨read, hread, by omega⟩
  gains := gains_bind hp.gains fun a => (hf a).gains
  beside := by
    intro d b e' hd hrun
    obtain ⟨a, e, hrun, hrun'⟩ := of_bind_ok hrun
    rw [bind_run]
    refine (hp.beside hd hrun).bind (k := f) hrun' ((hf a).shorter hrun') ((hf a).names hrun') ?_ ?_ hl
    · intro a' f' _ htokens
      exact (hf a').astray htokens
    · rintro d' rfl _
      refine ((hf a).beside (hd.mono ?_) hrun').mono hl'
      have := hp.shorter hrun
      rw [length_on, length_on] at this
      omega

theorem idle_bind (hp : c.Tracks quiet m n p) (hf : ∀ a, c.Tracks quiet m' n' (f a))
    (s : Surroundings) (d : Draft) (hd : d.tokens <:+ c.stub) :
    (final ((p >>= f) s d)).symbols = d.symbols := by
  have hidle := hp.idle s d hd
  rw [bind_run]
  cases hrun : p s d with
  | error x e =>
    rw [hrun] at hidle
    exact hidle
  | ok a e =>
    rw [hrun] at hidle
    exact ((hf a).idle s e ((hp.suffix hrun).trans hd)).trans hidle

end

/-- Whatever comes first, what comes then decides how much is read at least. -/
theorem Tracks.bind (hp : c.Tracks quiet m n p) (hf : ∀ a, c.Tracks quiet l l (f a)) :
    c.Tracks quiet l l (p >>= f) :=
  ⟨hp.toTrails.andThen hf (by omega) (by omega) (by omega), idle_bind hp hf⟩

/-- What comes then need not read. -/
theorem Tracks.close (hp : c.Tracks quiet m n p) (hf : ∀ a, c.Tracks quiet 0 n (f a)) :
    c.Tracks quiet m n (p >>= f) :=
  ⟨hp.toTrails.andThen hf (by omega) (by omega) (by omega), idle_bind hp hf⟩

/-! ## Steps that look at no token -/

/-- The tokens are as before. -/
theorem tokens_of_aside (h : Aside quiet p) {s : Surroundings} {d e : Draft} {a : α}
    (hrun : p s d = .ok a e) : e.tokens = d.tokens := by
  have hself := h.run (.refl s) d d.tokens
  rw [hrun] at hself
  injection hself with _ he
  have htokens := congrArg Draft.tokens he
  exact htokens

/-- The part does just what the whole does. -/
theorem inStep_of_aside (h : Aside quiet p) {d e : Draft} {a : α}
    (hrun : p c.whole (d.on c.rest) = .ok a e) : ∃ f : Draft, f.tokens = d.tokens ∧
      e = f.on c.rest ∧ p c.part (d.on c.stub) = .ok a (f.on c.stub) := by
  have htokens : e.tokens = d.tokens ++ c.rest := tokens_of_aside h hrun
  have hpart := h.run c.alike (d.on c.rest) (d.tokens ++ c.stub)
  rw [hrun] at hpart
  refine ⟨{ e with tokens := d.tokens }, rfl, ?_, hpart⟩
  show e = { e with tokens := d.tokens ++ c.rest }
  rw [← htokens]

theorem trails_aside (h : Aside quiet p) : c.Trails quiet 0 n p where
  onward hrun := ⟨[], (tokens_of_aside h hrun).symm, Nat.le_refl 0⟩
  gains := h.gains
  beside := by
    intro d a e _ hrun
    obtain ⟨f, -, rfl, hpart⟩ := inStep_of_aside h hrun
    rw [hpart]
    exact .inStep f

/-- What comes after may declare names. -/
theorem Trails.after (hf : ∀ a, c.Trails quiet m n (f a)) (h : Aside quiet p) :
    c.Trails quiet m n (p >>= f) where
  onward hrun := by
    obtain ⟨a, e, hrun, hrun'⟩ := of_bind_ok hrun
    rw [← tokens_of_aside h hrun]
    exact (hf a).onward hrun'
  gains := gains_bind h.gains fun a => (hf a).gains
  beside := by
    intro d b e hfed hrun
    obtain ⟨a, e', hrun, hrun'⟩ := of_bind_ok hrun
    obtain ⟨d', htokens, rfl, hpart⟩ := inStep_of_aside h hrun
    rw [bind_run, hpart]
    exact (hf a).beside (hfed.mono (Nat.le_of_eq (congrArg List.length htokens))) hrun'

theorem tracks_aside (h : Aside True p) : c.Tracks quiet 0 n p := (trails_aside h).tracks.loud

theorem tracks_pure (a : α) : c.Tracks quiet 0 n (pure a : Parse α) := tracks_aside (aside_pure a)

/-- A step that only fails reads as much as one likes. -/
theorem tracks_throw (x : Fault) : c.Tracks quiet m n (throw x : Parse α) where
  onward hrun := nomatch hrun
  gains _ _ := .of_eq rfl
  beside _ hrun := nomatch hrun
  idle _ _ _ := rfl

theorem tracks_failAbout (cause : Cause) (item : String) (q : Position) :
    c.Tracks quiet m n (failAbout cause item q : Parse α) := tracks_throw _

/-! ## Tokens -/

/-- Where something is in common ahead, both see the same token. -/
theorem tracks_of_cons
    (honward : ∀ {s d a e}, p s d = .ok a e → ∃ read, d.tokens = read ++ e.tokens ∧ n ≤ read.length)
    (hgains : ∀ (s : Surroundings) (d : Draft), d.Gains quiet (final (p s d)))
    (hidle : ∀ (s : Surroundings) (d : Draft), d.tokens <:+ c.stub →
      (final (p s d)).symbols = d.symbols)
    (hcons : ∀ {d : Draft} {t k a e}, c.Fed d → d.tokens = t :: k →
      p c.whole (d.on c.rest) = .ok a e → c.Beside n a e (p c.part (d.on c.stub))) :
    c.Tracks quiet n n p where
  onward := honward
  gains := hgains
  idle := hidle
  beside := by
    intro d a e hfed hrun
    cases hd : d.tokens with
    | nil => exact Tracks.beside_nil hd honward hgains hidle hrun
    | cons t k => exact hcons hfed hd hrun

theorem tracks_peek? : c.Tracks quiet 0 0 peek? := by
  apply tracks_of_cons
  · intro s d a e hrun
    cases hrun
    exact ⟨[], rfl, Nat.le_refl 0⟩
  · exact fun _ _ => .of_eq rfl
  · exact fun _ _ _ => rfl
  · intro d t k a e _ hd hrun
    obtain ⟨tokens, _⟩ := d
    cases hd
    cases hrun
    exact .inStep _

theorem tracks_position : c.Tracks quiet 0 0 position := by
  have hrun (s : Surroundings) (d : Draft) : ∃ q, position s d = .ok q d := by
    obtain ⟨tokens, _⟩ := d
    cases tokens <;> exact ⟨_, rfl⟩
  have hsymbols (s : Surroundings) (d : Draft) : (final (position s d)).symbols = d.symbols := by
    obtain ⟨q, hq⟩ := hrun s d
    rw [hq]
    rfl
  apply tracks_of_cons
  · intro s d a e h
    obtain ⟨q, hq⟩ := hrun s d
    cases hq.symm.trans h
    exact ⟨[], rfl, Nat.le_refl 0⟩
  · exact fun s d => .of_eq (hsymbols s d)
  · exact fun s d _ => hsymbols s d
  · intro d t k a e _ hd hrun
    obtain ⟨tokens, _⟩ := d
    cases hd
    cases hrun
    exact .inStep _

theorem tracks_skip : c.Tracks quiet 0 0 skip := by
  apply tracks_of_cons
  · intro s d a e hrun
    cases hrun
    exact ⟨d.tokens.take 1, (List.take_append_drop 1 _).symm, Nat.zero_le _⟩
  · exact fun _ _ => .of_eq rfl
  · exact fun _ _ _ => rfl
  · intro d t k a e _ hd hrun
    obtain ⟨tokens, _⟩ := d
    cases hd
    cases hrun
    exact .inStep ⟨k, _, _, _, _, _, _, _⟩

theorem tracks_next? : c.Tracks quiet 0 0 next? := by
  have hsymbols (s : Surroundings) (d : Draft) : (final (next? s d)).symbols = d.symbols := by
    obtain ⟨tokens, _⟩ := d
    cases tokens <;> rfl
  apply tracks_of_cons
  · intro s d a e hrun
    obtain ⟨tokens, _⟩ := d
    cases tokens with
    | nil =>
      cases hrun
      exact ⟨[], rfl, Nat.le_refl 0⟩
    | cons t k =>
      cases hrun
      exact ⟨[t], rfl, Nat.zero_le _⟩
  · exact fun s d => .of_eq (hsymbols s d)
  · exact fun s d _ => hsymbols s d
  · intro d t k a e _ hd hrun
    obtain ⟨tokens, _⟩ := d
    cases hd
    cases hrun
    exact .inStep ⟨k, _, _, _, _, _, _, _⟩

theorem tracks_accept (t : Token) : c.Tracks quiet 0 0 (accept t) := by
  refine tracks_peek?.bind fun o => ?_
  split
  · exact tracks_skip.bind fun _ => tracks_pure _
  · exact tracks_pure _

theorem tracks_unexpected (wanted : String) :
    c.Tracks quiet n n (unexpected wanted : Parse α) := by
  refine tracks_position.bind fun q => tracks_peek?.bind fun o => ?_
  split
  · exact tracks_throw _
  · exact tracks_failAbout _ _ _

theorem tracks_tooDeep : c.Tracks quiet n n (tooDeep : Parse α) :=
  tracks_position.bind fun _ => tracks_throw _

/-! ### Steps that take the next token -/

/-- The step takes the next token if it is one that it wants, and else it fails. -/
structure Takes (take : Token × Position → Option α) (p : Parse α) : Prop where
  ok : ∀ {s d t k a}, d.tokens = t :: k → take t = some a → p s d = .ok a { d with tokens := k }
  error : ∀ {s d}, (∀ t ∈ d.tokens.head?, take t = none) → ∃ x, p s d = .error x d

section

variable {take : Token × Position → Option α}

theorem Takes.cases (hp : Takes take p) (s : Surroundings) (d : Draft) :
    (∃ t k a, d.tokens = t :: k ∧ take t = some a ∧ p s d = .ok a { d with tokens := k }) ∨
      ∃ x, p s d = .error x d := by
  cases hd : d.tokens with
  | nil => exact .inr (hp.error (by simp [hd]))
  | cons t k =>
    cases ht : take t with
    | none => exact .inr (hp.error (by simp [hd, ht]))
    | some a => exact .inl ⟨t, k, a, rfl, ht, hp.ok hd ht⟩

theorem Takes.inv (hp : Takes take p) {s : Surroundings} {d e : Draft} {a : α}
    (hrun : p s d = .ok a e) : ∃ t k, d.tokens = t :: k ∧ take t = some a ∧
      e = { d with tokens := k } := by
  rcases hp.cases s d with ⟨t, k, b, hd, ht, hb⟩ | ⟨x, hx⟩
  · cases hb.symm.trans hrun
    exact ⟨t, k, hd, ht, rfl⟩
  · cases hx.symm.trans hrun

theorem Takes.symbols_eq (hp : Takes take p) (s : Surroundings) (d : Draft) :
    (final (p s d)).symbols = d.symbols := by
  rcases hp.cases s d with ⟨t, k, a, -, -, h⟩ | ⟨x, h⟩ <;>
  · rw [h]
    rfl

theorem Takes.beside_cons (hp : Takes take p) {d e : Draft} {t : Token × Position}
    {k : List (Token × Position)} {a : α} (hd : d.tokens = t :: k)
    (hrun : p c.whole (d.on c.rest) = .ok a e) :
    e = { d with tokens := k }.on c.rest ∧
      p c.part (d.on c.stub) = .ok a ({ d with tokens := k }.on c.stub) := by
  have htokens := Draft.on_cons hd
  obtain ⟨t', k', hd', ht, rfl⟩ := hp.inv hrun
  rw [htokens] at hd'
  cases hd'
  exact ⟨rfl, hp.ok (htokens c.stub) ht⟩

theorem Takes.tracks (hp : Takes take p) : c.Tracks quiet 1 1 p := by
  apply tracks_of_cons
  · intro s d a e hrun
    obtain ⟨t, k, hd, -, rfl⟩ := hp.inv hrun
    exact ⟨[t], hd, Nat.le_refl 1⟩
  · exact fun s d => .of_eq (hp.symbols_eq s d)
  · exact fun s d _ => hp.symbols_eq s d
  · intro d t k a e _ hd hrun
    obtain ⟨rfl, hpart⟩ := hp.beside_cons hd hrun
    rw [hpart]
    exact .inStep _

/-- A step that takes nothing blunt stops the part that has gone astray: what comes then may declare
names. -/
theorem Takes.bind (hp : Takes take p) (hblunt : ∀ t, t.1.Blunt → take t = none)
    (hf : ∀ a, c.Trails quiet 0 l (f a)) (hl : l ≤ 1) : c.Tracks quiet l l (p >>= f) := by
  have htrails : c.Trails quiet 1 1 p := hp.tracks.toTrails
  apply tracks_of_cons
  · intro s d b e hrun
    obtain ⟨a, e', hrun, hrun'⟩ := of_bind_ok hrun
    obtain ⟨t, k, hd, -, rfl⟩ := hp.inv hrun
    obtain ⟨read, hread, -⟩ := (hf a).onward hrun'
    refine ⟨t :: read, ?_, ?_⟩
    · rw [hd, List.cons_append]
      exact congrArg (t :: ·) hread
    · rw [List.length_cons]
      omega
  · exact gains_bind htrails.gains fun a => (hf a).gains
  -- On the stub the step fails, so nothing after it is reached.
  · intro s d hd
    have hhead : ∀ t ∈ d.tokens.head?, take t = none := by
      intro t ht
      exact hblunt t (c.blunt t (hd.mem (List.mem_of_mem_head? ht)))
    obtain ⟨x, hx⟩ := hp.error (s := s) hhead
    rw [bind_run, hx]
    rfl
  · intro d t k b e hfed hd hrun
    obtain ⟨a, e', hrun, hrun'⟩ := of_bind_ok hrun
    obtain ⟨rfl, hpart⟩ := hp.beside_cons hd hrun
    rw [bind_run, hpart]
    refine (hf a).beside (hfed.mono ?_) hrun'
    rw [hd, List.length_cons]
    exact Nat.le_succ _

end

/-- An identifier and its place. -/
def identAt? : Token × Position → Option (String × Position)
  | (.ident name, p) => some (name, p)
  | _ => none

theorem takes_ident : Takes identAt? ident where
  ok := by
    intro s d t k a hd ht
    obtain ⟨t, q⟩ := t
    obtain ⟨tokens, _⟩ := d
    cases hd
    cases t <;> cases ht
    rfl
  error := by
    intro s d h
    obtain ⟨tokens, _⟩ := d
    cases tokens with
    | nil => exact ⟨_, rfl⟩
    | cons t k =>
      obtain ⟨t, q⟩ := t
      cases t with
      | ident name => cases h _ rfl
      | _ => exact ⟨_, rfl⟩

theorem accept_run (t : Token) (s : Surroundings) (d : Draft) :
    accept t s d = if d.tokens.head?.map (·.1) = some t
      then .ok true { d with tokens := d.tokens.drop 1 } else .ok false d := by
  show (if d.tokens.head?.map (·.1) = some t then _ else _ : Parse Bool) s d = _
  split <;> rfl

theorem unexpected_run (wanted : String) (s : Surroundings) (d : Draft) :
    ∃ x, (unexpected wanted : Parse α) s d = .error x d := by
  obtain ⟨tokens, _⟩ := d
  cases tokens <;> exact ⟨_, rfl⟩

/-- Just the wanted token. -/
def only (t : Token) (u : Token × Position) : Option Unit := if u.1 = t then some () else none

theorem takes_expect (t : Token) : Takes (only t) (expect t) where
  ok := by
    intro s d u k a hd hu
    have hhead : d.tokens.head?.map (·.1) = some t := by
      rw [hd]
      unfold only at hu
      split at hu
      · next h => exact congrArg some h
      · cases hu
    unfold expect
    rw [bind_run, accept_run, if_pos hhead, hd]
    rfl
  error := by
    intro s d h
    have hhead : d.tokens.head?.map (·.1) ≠ some t := by
      intro ht
      obtain ⟨u, hu, rfl⟩ := Option.map_eq_some_iff.1 ht
      have := h u hu
      rw [only, if_pos rfl] at this
      cases this
    unfold expect
    rw [bind_run, accept_run, if_neg hhead]
    exact unexpected_run _ s d

/-! ## Loops -/

section

variable {step : α → Parse (α ⊕ β)}

/-- What a loop does after a round. -/
def goOn (step : α → Parse (α ⊕ β)) (rounds : Nat) : α ⊕ β → Parse β
  | .inl a => iterate step rounds a
  | .inr b => pure b

theorem iterate_succ (rounds : Nat) (a : α) :
    iterate step (rounds + 1) a = step a >>= goOn step rounds := rfl

theorem tracks_iterate (h : ∀ a, c.Tracks quiet 0 0 (step a)) (rounds : Nat) (a : α) :
    c.Tracks quiet 0 0 (iterate step rounds a) := by
  induction rounds generalizing a with
  | zero => exact tracks_throw _
  | succ rounds ih =>
    refine (h a).bind fun r => ?_
    split
    · exact ih _
    · exact tracks_pure _

theorem tracks_goOn (h : ∀ a, c.Tracks quiet 0 0 (step a)) (rounds : Nat) (r : α ⊕ β) :
    c.Tracks quiet 0 0 (goOn step rounds r) := by
  cases r with
  | inl a => exact tracks_iterate h rounds a
  | inr b => exact tracks_pure b

/-- The part may have fewer rounds left, or more. -/
theorem beside_iterate (h : ∀ a, c.Tracks quiet 0 0 (step a)) (rounds rounds' : Nat) {a : α} {b : β}
    {d e : Draft} (hfed : c.Fed d) (hrun : iterate step rounds a c.whole (d.on c.rest) = .ok b e) :
    c.Beside 0 b e (iterate step rounds' a c.part (d.on c.stub)) := by
  induction rounds generalizing rounds' a d with
  | zero => cases hrun
  | succ rounds ih =>
    cases rounds' with
    | zero => exact .stuck
    | succ rounds' =>
      rw [iterate_succ] at hrun
      obtain ⟨r, e', hstep, hrun'⟩ := of_bind_ok hrun
      rw [iterate_succ, bind_run]
      refine ((h a).beside hfed hstep).bind hrun' ((tracks_goOn h rounds r).shorter hrun')
        ((tracks_goOn h rounds r).names hrun') ?_ ?_ (Nat.le_refl 0)
      · intro r' f _ htokens
        exact (tracks_goOn h rounds' r').astray htokens
      · rintro d' rfl _
        have hshorter := (h a).shorter hstep
        rw [length_on, length_on] at hshorter
        have hfed' : c.Fed d' := hfed.mono (by omega)
        cases r with
        | inl a' => exact ih rounds' hfed' hrun'
        | inr b' =>
          cases hrun'
          exact .inStep d'

theorem tracks_loop (h : ∀ a, c.Tracks quiet 0 0 (step a)) (a : α) :
    c.Tracks quiet 0 0 (loop a step) where
  onward {s _ _ _} hrun := (tracks_iterate h s.rounds a).onward hrun
  gains s d := (tracks_iterate h s.rounds a).gains s d
  idle s d hd := (tracks_iterate h s.rounds a).idle s d hd
  beside hfed hrun := beside_iterate h _ _ hfed hrun

theorem tracks_separatedAfter {item : List α → Parse α} (h : ∀ before, c.Tracks quiet 0 0 (item before)) :
    c.Tracks quiet 0 0 (separatedAfter item) := by
  apply tracks_loop
  intro before
  refine (h before).bind fun a => (tracks_accept _).bind fun b => ?_
  split
  · exact tracks_pure _
  · exact tracks_pure _

theorem tracks_separated {item : Parse α} (h : c.Tracks quiet 0 0 item) :
    c.Tracks quiet 0 0 (separated item) := tracks_separatedAfter fun _ => h

end

end Cut

end VectorScript
