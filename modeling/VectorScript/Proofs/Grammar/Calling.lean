import VectorScript.Proofs.Completion.Cut
import VectorScript.Proofs.Grammar.Called
import VectorScript.Proofs.Grammar.Subscripts

/-!
# Calls in statements

What is read from a text calls the functions that its tokens call. Expressions are read one after the
other, and whatever stands between them calls nothing: a name right before a parenthesis stands in
expressions only. `Passes` says of a step, with certain tokens ahead, what it reads and which result it
has, and passes through sequences and loops.

    Passes s p i Q → (∀ a j, Q a j → Passes s (f a) j R) → Passes s (p >>= f) i R      (Passes.bind)
    Passes s script i fun body j => Carried s.globals none none i j (Stmt.callsAll body)
                                                                                    (calls_script)
-/

namespace VectorScript

/-! ## From tokens to tokens -/

/-- From the one to the other the tokens make these calls. -/
def Carried (g : Globals) (before last : Option String) (i j : List Token)
    (calls : List (Nat × Nat)) : Prop :=
  ∃ ts names, i = ts ++ j ∧ Carries ts before last names ∧
    List.Forall₂ (Named g.symbols.get?) names calls

/-- So it is after whatever has been read before. -/
def Free (g : Globals) (i j : List Token) (calls : List (Nat × Nat)) : Prop :=
  ∀ before, ∃ last, Carried g before last i j calls

section

variable {g : Globals} {before mid last : Option String} {i j k : List Token} {t : Token}
  {xs ys : List (Nat × Nat)}

theorem carried_refl (before : Option String) (i : List Token) : Carried g before before i i [] :=
  ⟨[], [], rfl, carries_nil before, .nil⟩

theorem Carried.trans (h : Carried g before mid i j xs) (h' : Carried g mid last j k ys) :
    Carried g before last i k (xs ++ ys) := by
  obtain ⟨ts, names, rfl, hts, hxs⟩ := h
  obtain ⟨us, more, rfl, hus, hys⟩ := h'
  exact ⟨ts ++ us, names ++ more, (List.append_assoc ..).symm, hts.append hus,
    List.rel_append hxs hys⟩

theorem Carried.ident (x : String) (h : Carried g (some x) last i j xs) :
    Carried g before last (.ident x :: i) j xs := by
  obtain ⟨ts, names, rfl, hts, hxs⟩ := h
  exact ⟨.ident x :: ts, names, rfl, hts.ident x, hxs⟩

theorem Carried.silent (ht : t.isSilent = true) (h : Carried g none last i j xs) :
    Carried g before last (t :: i) j xs := by
  obtain ⟨ts, names, rfl, hts, hxs⟩ := h
  exact ⟨t :: ts, names, rfl, hts.silent ht, hxs⟩

/-- A token that ends what has been read. -/
theorem Carried.close (h : Carried g before mid i (t :: j) xs) (ht : t.isSilent = true) :
    Carried g before none i j xs := by
  have hall := h.trans ((carried_refl none j).silent ht)
  rwa [List.append_nil] at hall

/-- Parentheses that no name stands before. -/
theorem Carried.parens (h : Carried g none mid i (.mark .rightParen :: j) xs) :
    Carried g none none (.mark .leftParen :: i) j xs := by
  obtain ⟨ts, names, rfl, hts, hxs⟩ := h
  refine ⟨.mark .leftParen :: (ts ++ [.mark .rightParen]), names, by simp, ?_, hxs⟩
  have hparens : Carries _ none none _ := hts.parens (carries_nil none)
  simpa using hparens

theorem Free.trans (h : Free g i j xs) (h' : Free g j k ys) : Free g i k (xs ++ ys) := by
  intro before
  obtain ⟨mid, h⟩ := h before
  obtain ⟨last, h'⟩ := h' mid
  exact ⟨last, h.trans h'⟩

theorem free_refl (i : List Token) : Free g i i [] := fun before => ⟨before, carried_refl before i⟩

theorem free_ident (x : String) : Free g (.ident x :: i) i [] :=
  fun _ => ⟨some x, (carried_refl _ i).ident x⟩

theorem free_silent (ht : t.isSilent = true) : Free g (t :: i) i [] :=
  fun _ => ⟨none, (carried_refl _ i).silent ht⟩

end

/-! ## The judgement -/

/-- No name of the draft is a function, and a loop may take more rounds than there are tokens. -/
structure Draft.Calm (s : Surroundings) (d : Draft) : Prop where
  functionless : d.Functionless
  rounds : d.ahead.length < s.rounds

namespace Parse

variable {α β : Type} {quiet : Prop} {s : Surroundings} {p : Parse α} {f : α → Parse β}
  {i : List Token} {P Q : α → List Token → Prop} {R : β → List Token → Prop}

/-- If the step succeeds with these tokens ahead, the property holds of its result and of the tokens
that it leaves. -/
def Passes (s : Surroundings) (p : Parse α) (i : List Token) (Q : α → List Token → Prop) : Prop :=
  ∀ d a d', d.Calm s → d.ahead = i → p s d = .ok a d' → d'.Calm s ∧ Q a d'.ahead

theorem Passes.bind (hp : Passes s p i Q) (hf : ∀ a j, Q a j → Passes s (f a) j R) :
    Passes s (p >>= f) i R := by
  intro d b d'' hd hi hrun
  obtain ⟨a, d', hrun, hrun'⟩ := of_bind_ok hrun
  obtain ⟨hd', ha⟩ := hp d a d' hd hi hrun
  exact hf a _ ha d' b d'' hd' rfl hrun'

theorem Passes.mono (hp : Passes s p i P) (h : ∀ a j, P a j → Q a j) : Passes s p i Q := by
  intro d a d' hd hi hrun
  obtain ⟨hd', ha⟩ := hp d a d' hd hi hrun
  exact ⟨hd', h _ _ ha⟩

/-- A step whose outcome is known where no name is a function. -/
theorem Outcome.passes (h : ∀ b : Draft, b.Functionless → Outcome s b True p i Q) :
    Passes s p i Q := by
  intro d a d' hd hi hrun
  have hout := h d hd.functionless d ⟨.refl d, hd.rounds⟩ hi
  rw [hrun] at hout
  obtain ⟨⟨hsame, hrounds⟩, ha⟩ := hout
  refine ⟨⟨?_, hrounds⟩, ha⟩
  unfold Draft.Functionless
  rw [hsame.symbols]
  exact hd.functionless

/-- A step that looks at no token. -/
theorem passes_aside {T : α → Prop} (h : Aside quiet p) (hn : Notes s (fun _ => True) p T) :
    Passes s p i fun _ j => j = i := by
  intro d a d' hd hi hrun
  have hahead : d'.ahead = d.ahead := congrArg (List.map Prod.fst) (Cut.tokens_of_aside h hrun)
  refine ⟨⟨(hn d a d' hd.functionless hrun).1, hahead ▸ hd.rounds⟩, hahead.trans hi⟩

theorem passes_pure {a : α} (h : Q a i) : Passes s (pure a) i Q :=
  Outcome.passes fun _ _ => outcome_pure h

theorem passes_throw (x : Fault) : Passes s (throw x : Parse α) i Q :=
  Outcome.passes fun _ _ => outcome_throw x trivial

theorem passes_failAbout (cause : Cause) (item : String) (place : Position) :
    Passes s (failAbout cause item place : Parse α) i Q := passes_throw _

/-- What comes after a step that fails does not matter. -/
theorem passes_failAbout_bind (cause : Cause) (item : String) (place : Position) :
    Passes s (failAbout cause item place >>= f) i R := by
  rintro d a d' - - ⟨⟩

theorem passes_tooDeep : Passes s (tooDeep : Parse α) i Q :=
  Outcome.passes fun _ _ => outcome_tooDeep trivial

theorem passes_unexpected (wanted : String) : Passes s (unexpected wanted : Parse α) i Q :=
  Outcome.passes fun _ _ => outcome_unexpected wanted trivial

theorem passes_peek? : Passes s peek? i fun o j => o = i.head? ∧ j = i :=
  Outcome.passes fun _ _ => outcome_peek?

theorem passes_read : Passes s (read : Parse Surroundings) i fun _ j => j = i :=
  Outcome.passes fun _ _ => outcome_read.mono fun _ _ h => h.2

theorem passes_position : Passes s position i fun _ j => j = i :=
  Outcome.passes fun _ _ => outcome_position

theorem passes_skip : Passes s skip i fun _ j => j = i.tail :=
  Outcome.passes fun _ _ => outcome_skip

theorem passes_accept (t : Token) : Passes s (accept t) i fun r j =>
    (r = true ∧ i = t :: j) ∨ (r = false ∧ j = i ∧ i.head? ≠ some t) :=
  Outcome.passes fun _ _ => outcome_accept t

theorem passes_expect (t : Token) : Passes s (expect t) i fun _ j => i = t :: j :=
  Outcome.passes fun _ _ => outcome_expect t fun _ => trivial

theorem passes_ident : Passes s ident i fun r j => i = .ident r.1 :: j :=
  Outcome.passes fun _ _ => outcome_ident fun _ => trivial

/-- A token that is read if it comes next. -/
theorem passes_next? : Passes s next? i fun o j =>
    (o = none ∧ j = i) ∨ ∃ t, o = some t ∧ i = t.1 :: j := by
  refine Outcome.passes fun _ _ => outcome_next?.mono fun o j h => ?_
  obtain ⟨ho, rfl⟩ := h
  cases i with
  | nil => exact .inl ⟨Option.map_eq_none_iff.1 ho, rfl⟩
  | cons t i =>
    obtain ⟨a, rfl, rfl⟩ := Option.map_eq_some_iff.1 ho
    exact .inr ⟨a, rfl, rfl⟩

theorem passes_lookup? (name : String) : Passes s (lookup? name) i fun _ j => j = i :=
  passes_aside (aside_lookup? name : Aside True _) (notes_lookup? name)

theorem passes_checkFresh (name : String) (place : Position) :
    Passes s (checkFresh name place) i fun _ j => j = i :=
  passes_aside (aside_checkFresh name place : Aside True _) (notes_checkFresh name place)

theorem passes_declare (name : String) {symbol : Symbol} (h : ∀ index f, symbol ≠ .function index f) :
    Passes s (declare name symbol) i fun _ j => j = i :=
  passes_aside (aside_declare name symbol) (notes_declare name h)

/-! ## Loops -/

section

variable {step : α → Parse (α ⊕ β)} {C : List Token → List Token → List (Nat × Nat) → Prop}
  {sofar : α → List (Nat × Nat)} {calls : β → List (Nat × Nat)}

/-- What each round of a loop adds to the calls so far, its rounds add together. -/
theorem passes_iterate (htrans : ∀ {i j k xs ys}, C i j xs → C j k ys → C i k (xs ++ ys))
    (hstep : ∀ a i, Passes s (step a) i fun r j =>
      ∃ xs, r.elim sofar calls = sofar a ++ xs ∧ C i j xs) (rounds : Nat) (a : α) (i : List Token) :
    Passes s (iterate step rounds a) i fun b j => ∃ xs, calls b = sofar a ++ xs ∧ C i j xs := by
  induction rounds generalizing a i with
  | zero => exact passes_throw _
  | succ rounds ih =>
    refine (hstep a i).bind fun r j hr => ?_
    obtain ⟨xs, hxs, hij⟩ := hr
    split
    · refine (ih _ j).mono fun b k hb => ?_
      obtain ⟨ys, hys, hjk⟩ := hb
      exact ⟨xs ++ ys, by rw [hys, ← List.append_assoc, ← hxs, Sum.elim_inl], htrans hij hjk⟩
    · exact passes_pure ⟨xs, hxs, hij⟩

variable (sofar calls) in
/-- A loop that begins with nothing makes the calls of its rounds. -/
theorem passes_loop (htrans : ∀ {i j k xs ys}, C i j xs → C j k ys → C i k (xs ++ ys))
    (hstep : ∀ a i, Passes s (step a) i fun r j =>
      ∃ xs, r.elim sofar calls = sofar a ++ xs ∧ C i j xs) {a : α} (ha : sofar a = [])
    (i : List Token) : Passes s (loop a step) i fun b j => C i j (calls b) := by
  refine passes_read.bind fun g j hj => (passes_iterate htrans hstep _ a j).mono fun b k hb => ?_
  obtain ⟨xs, hxs, hjk⟩ := hb
  rw [hxs, ha, List.nil_append, ← hj]
  exact hjk

end

/-- A loop ends where its last round has ended. -/
theorem passes_loop_end {step : α → Parse (α ⊕ β)} {E : List Token → Prop}
    (hstep : ∀ a i, Passes s (step a) i fun r j => r.isRight → E j) (a : α) (i : List Token) :
    Passes s (loop a step) i fun _ j => E j := by
  have hrounds (rounds : Nat) (a : α) (i : List Token) :
      Passes s (iterate step rounds a) i fun _ j => E j := by
    induction rounds generalizing a i with
    | zero => exact passes_throw _
    | succ rounds ih =>
      refine (hstep a i).bind fun r j hr => ?_
      split
      · exact ih _ j
      · exact passes_pure (hr rfl)
  exact passes_read.bind fun _ j _ => hrounds _ a j

/-- What is read makes these calls, whatever stands before it. -/
def Frees (s : Surroundings) (p : Parse α) (calls : α → List (Nat × Nat)) : Prop :=
  ∀ i, Passes s p i fun a j => Free s.globals i j (calls a)

/-- Items with commas between them make the calls of them all. -/
theorem frees_separatedAfter {item : List α → Parse α} {calls : α → List (Nat × Nat)}
    (h : ∀ before, Frees s (item before) calls) :
    Frees s (separatedAfter item) fun items => items.flatMap calls := by
  refine passes_loop (fun before : List α => before.reverse.flatMap calls) _ Free.trans
    (fun before i => ?_) rfl
  refine (h before i).bind fun a j ha => (passes_accept _).bind fun r k hr => ?_
  rcases hr with ⟨rfl, rfl⟩ | ⟨rfl, rfl, -⟩
  · have hcomma := ha.trans (free_silent rfl)
    rw [List.append_nil] at hcomma
    exact passes_pure ⟨calls a, by simp, hcomma⟩
  · exact passes_pure ⟨calls a, by simp, ha⟩

/-! ## Types -/

/-- What is read calls nothing. -/
def Idle (s : Surroundings) (p : Parse α) : Prop := Frees s p fun _ => []

theorem Idle.bind (hp : Idle s p) (hf : ∀ a, Idle s (f a)) : Idle s (p >>= f) :=
  fun i => (hp i).bind fun a j hij => (hf a j).mono fun _ _ hjk => hij.trans hjk

theorem idle_pure (a : α) : Idle s (pure a) := fun i => passes_pure (free_refl i)

theorem idle_failAbout (cause : Cause) (item : String) (place : Position) :
    Idle s (failAbout cause item place : Parse α) := fun _ => passes_failAbout _ _ _

theorem idle_failAbout_bind (cause : Cause) (item : String) (place : Position) :
    Idle s (failAbout cause item place >>= f) := fun _ => passes_failAbout_bind _ _ _

theorem idle_same (h : ∀ i, Passes s p i fun _ j => j = i) : Idle s p := by
  refine fun i => (h i).mono fun _ j hj => ?_
  subst hj
  exact free_refl j

theorem idle_accept {t : Token} (ht : t.isSilent = true) : Idle s (accept t) := by
  refine fun i => (passes_accept t).mono fun r j hr => ?_
  rcases hr with ⟨-, rfl⟩ | ⟨-, rfl, -⟩
  · exact free_silent ht
  · exact free_refl j

theorem idle_expect {t : Token} (ht : t.isSilent = true) : Idle s (expect t) := by
  refine fun i => (passes_expect t).mono fun _ j hj => ?_
  subst hj
  exact free_silent ht

theorem idle_ident : Idle s ident := by
  refine fun i => passes_ident.mono fun r j hj => ?_
  subst hj
  exact free_ident r.1

theorem idle_separatedAfter {item : List α → Parse α} (h : ∀ before, Idle s (item before)) :
    Idle s (separatedAfter item) := by
  refine fun i => (frees_separatedAfter h i).mono fun items j hij => ?_
  dsimp only at hij
  rwa [List.flatMap_eq_nil_iff.2 fun _ _ => rfl] at hij

theorem idle_arrayOf (ty : Ty) : Idle s (arrayOf ty) := by
  refine passes_loop (fun _ => []) _ Free.trans (fun ty i => ?_) rfl
  have hstep : Idle s (do
      if ← acceptMark .leftBracket then
        expectMark .rightBracket
        return .inl (.array ty)
      else return .inr ty : Parse (Ty ⊕ Ty)) := by
    refine (idle_accept rfl).bind fun b => ?_
    split
    · exact (idle_expect rfl).bind fun _ => idle_pure _
    · exact idle_pure _
  refine (hstep i).mono fun r j hij => ⟨[], ?_, hij⟩
  cases r <;> rfl

theorem idle_fieldSpec {typeSpec : Parse Ty} (h : Idle s typeSpec) (before : List (String × Ty)) :
    Idle s (fieldSpec typeSpec before) := by
  refine h.bind fun ty => idle_ident.bind fun n => ?_
  dsimp only
  split
  · exact idle_failAbout_bind _ _ _
  · exact idle_pure _

theorem idle_namedType : Idle s namedType := by
  refine idle_ident.bind fun n => (idle_same fun _ => passes_lookup? _).bind fun o => ?_
  split
  · exact idle_pure _
  · exact idle_failAbout _ _ _
  · exact idle_failAbout _ _ _

/-- The parentheses of a record type stand after a keyword. -/
theorem idle_typeSpec (room : Nat) : Idle s (typeSpec room) := by
  have hnamed : Idle s (do arrayOf (← namedType)) := idle_namedType.bind idle_arrayOf
  intro i
  induction room generalizing i with
  | zero =>
    refine (passes_accept _).bind fun r j hr => ?_
    rcases hr with ⟨rfl, rfl⟩ | ⟨rfl, rfl, -⟩
    · exact (passes_expect _).bind fun _ _ _ => passes_tooDeep
    · exact hnamed j
  | succ room ih =>
    refine (passes_accept _).bind fun r j hr => ?_
    rcases hr with ⟨rfl, rfl⟩ | ⟨rfl, rfl, -⟩
    · refine (passes_expect _).bind fun _ k hk => ?_
      refine (idle_separatedAfter (idle_fieldSpec ih) k).bind fun fields l hl => ?_
      refine (passes_expect _).bind fun _ m hm => (idle_arrayOf _ m).mono fun ty j' hj => ?_
      subst hk hm
      obtain ⟨mid, hfields⟩ := hl none
      intro before
      obtain ⟨last, harray⟩ := hj none
      exact ⟨last, (hfields.parens.silent rfl).trans harray⟩
    · exact hnamed j

/-! ## Right sides -/

/-- What is read makes these calls, unless a name stands right before it. -/
def Yields (s : Surroundings) (p : Parse α) (calls : α → List (Nat × Nat)) : Prop :=
  ∀ i, Passes s p i fun a j => ∃ last, Carried s.globals none last i j (calls a)

theorem yields_expression (room : Nat) : Yields s (expression room) fun e => e.expr.calls := by
  refine fun i => Outcome.passes fun b hb => (calls_expression room i).mono fun e j h => ?_
  obtain ⟨ts, last, names, hts, hcarries, hnamed⟩ := h
  refine ⟨last, ts, names, hts, hcarries, hnamed.imp fun x call hcall => ?_⟩
  obtain ⟨f, hsymbol, hcount⟩ := hcall
  refine ⟨f, ?_, hcount⟩
  unfold symbol? at hsymbol
  cases hx : b.symbols.get? x with
  | none => rwa [hx, Option.none_or] at hsymbol
  | some symbol =>
    rw [hx, Option.some_or, Option.some.injEq] at hsymbol
    exact absurd (hsymbol ▸ hx) (hb x _ f)

theorem yields_assigned (room : Nat) (target : Ty) (name : String) :
    Yields s (assigned room target name) Expr.calls := by
  refine fun i => passes_position.bind fun q j hj => (yields_expression room j).bind fun e k hk => ?_
  subst hj
  split
  · exact passes_pure hk
  · exact passes_failAbout _ _ _

theorem yields_conditionFor (room : Nat) (construct : String) :
    Yields s (conditionFor room construct) Expr.calls := by
  refine fun i => passes_position.bind fun q j hj => (yields_expression room j).bind fun e k hk => ?_
  subst hj
  split
  · exact passes_pure hk
  · exact passes_failAbout _ _ _

theorem frees_guardedCases (room : Nat) (target : Ty) (name : String) (i : List Token) :
    Passes s (loop [] (guardedCases room target name)) i fun cases j =>
      Free s.globals i j (Rhs.branchCalls cases) := by
  refine passes_loop (fun cases : List (Expr × Expr) => Rhs.branchCalls cases.reverse) _ Free.trans
    (fun cases i => ?_) (by rfl) i
  refine (passes_accept _).bind fun r j hr => ?_
  rcases hr with ⟨rfl, rfl⟩ | ⟨rfl, rfl, -⟩
  · refine (yields_conditionFor room _ j).bind fun condition k hk => ?_
    refine (passes_expect _).bind fun _ l hl => ?_
    refine (yields_assigned room target name l).bind fun value m hm => ?_
    subst hl
    obtain ⟨_, hcondition⟩ := hk
    obtain ⟨last, hvalue⟩ := hm
    refine passes_pure ⟨condition.calls ++ value.calls, by simp [Rhs.branchCalls], fun before => ?_⟩
    exact ⟨last, ((hcondition.close rfl).trans hvalue).silent rfl⟩
  · exact passes_pure ⟨[], by simp [Rhs.branchCalls], free_refl j⟩

theorem yields_rhs (room : Nat) (target : Ty) (name : String) :
    Yields s (rhs room target name) Rhs.calls := by
  refine fun i => passes_peek?.bind fun o j hj => ?_
  obtain ⟨-, rfl⟩ := hj
  split
  · exact (yields_assigned room target name j).bind fun e k hk => passes_pure hk
  · refine (frees_guardedCases room target name j).bind fun cases k hk => ?_
    obtain ⟨mid, hcases⟩ := hk none
    refine (passes_accept _).bind fun r l hr => ?_
    rcases hr with ⟨rfl, rfl⟩ | ⟨rfl, rfl, -⟩
    · refine (yields_assigned room target name l).bind fun value m hm => passes_pure ?_
      obtain ⟨last, hvalue⟩ := hm
      refine ⟨last, ?_⟩
      have hall := (hcases.close rfl).trans hvalue
      simpa [Rhs.calls, Rhs.branchCalls, Rhs.branches, Expr.calls] using hall
    · refine passes_pure ⟨mid, ?_⟩
      simpa [Rhs.calls, Rhs.branches] using hcases

/-! ## Declarations -/

/-- What is read makes these calls, whatever stands before it, and no name stands at its end. -/
def Shuts (s : Surroundings) (p : Parse α) (calls : α → List (Nat × Nat)) : Prop :=
  ∀ i, Passes s p i fun a j => ∀ before, Carried s.globals before none i j (calls a)

theorem Idle.shuts {calls : β → List (Nat × Nat)} (hp : Idle s p)
    (hf : ∀ a, Shuts s (f a) calls) : Shuts s (p >>= f) calls := by
  refine fun i => (hp i).bind fun a j hij => (hf a j).mono fun b k hjk before => ?_
  obtain ⟨mid, hmid⟩ := hij before
  exact hmid.trans (hjk mid)

theorem shuts_failAbout_bind {calls : β → List (Nat × Nat)} (cause : Cause) (item : String)
    (place : Position) : Shuts s (failAbout cause item place >>= f) calls :=
  fun _ => passes_failAbout_bind _ _ _

/-- A semicolon, and a step that looks at no token. -/
theorem shuts_semicolon (hp : ∀ i, Passes s p i fun _ j => j = i) :
    Shuts s (do expectMark .semicolon; p) fun _ => [] := by
  refine fun i => (passes_expect _).bind fun _ j hj => (hp j).mono fun _ k hk before => ?_
  rw [hj, hk]
  exact (carried_refl none j).silent rfl

/-- A step after a keyword that has been looked at. -/
theorem Shuts.skip {calls : α → List (Nat × Nat)} {t : Token} (ht : t.isSilent = true)
    (hp : Shuts s p calls) (j : List Token) : Passes s (do Parse.skip; p) (t :: j) fun a k =>
      Carried s.globals none none (t :: j) k (calls a) := by
  refine passes_skip.bind fun _ k hk => ?_
  rw [List.tail_cons] at hk
  rw [hk]
  exact (hp j).mono fun _ _ h => (h none).silent ht

theorem frees_declarator (room : Nat) (isShared : Bool) (ty : Ty) :
    Frees s (declarator room isShared ty) Stmt.callsAll := by
  refine fun i => passes_ident.bind fun n j hj => ?_
  obtain ⟨name, place⟩ := n
  subst hj
  refine (passes_checkFresh _ _).bind fun _ k hk => ?_
  subst hk
  have hdeclare : Passes s (declareVariable isShared ty name) k fun _ j => j = k :=
    passes_aside (aside_declareVariable isShared ty name) (notes_declareVariable isShared ty name)
  refine hdeclare.bind fun slot l hl => ?_
  subst hl
  refine (passes_accept _).bind fun r m hr => ?_
  rcases hr with ⟨rfl, rfl⟩ | ⟨rfl, rfl, -⟩
  · refine (yields_rhs room ty name m).bind fun value j hj => passes_pure fun before => ?_
    obtain ⟨last, hvalue⟩ := hj
    refine ⟨last, ?_⟩
    have hall : Carried s.globals before last (.ident name :: .mark .assign :: m) j value.calls :=
      (hvalue.silent rfl).ident name
    simpa [Stmt.callsAll, Stmt.calls, Expr.callsAll] using hall
  · exact passes_pure (free_ident name)

theorem shuts_declaration (room : Nat) (isShared : Bool) :
    Shuts s (declaration room isShared) Stmt.callsAll := by
  refine (idle_typeSpec room).shuts fun ty i => ?_
  refine (frees_separatedAfter (fun _ => frees_declarator room isShared ty) i).bind fun stores j hj => ?_
  refine (passes_expect _).bind fun _ k hk => passes_pure fun before => ?_
  subst hk
  obtain ⟨last, hstores⟩ := hj before
  rw [Stmt.callsAll_flatten]
  exact hstores.close rfl

theorem calls_typedef (room : Nat) (j : List Token) :
    Passes s (typedef room) (.word .typeWord :: j) fun _ k =>
      Carried s.globals none none (.word .typeWord :: j) k [] := by
  refine Shuts.skip rfl (idle_ident.shuts fun n => ?_) j
  refine (idle_same fun _ => passes_checkFresh _ _).shuts fun _ => (idle_expect rfl).shuts fun _ => ?_
  refine (idle_typeSpec room).shuts fun ty => ?_
  exact shuts_semicolon fun _ => passes_declare _ fun _ _ h => nomatch h

/-- The constant that a name stands for, or its negative. -/
theorem idle_namedConstant (start place : Position) (negative : Bool) (x : String) : Idle s (do
    match ← lookup? x with
    | some (.constant v) =>
      if negative then
        match v with
        | .integer n => return .integer (-n)
        | .real x => return .real (-x)
        | v => failAbout .notConstant v.render start
      else return v
    | _ => failAbout .notConstant x place) := by
  refine (idle_same fun _ => passes_lookup? _).bind fun o => ?_
  split
  · split
    · split
      · exact idle_pure _
      · exact idle_pure _
      · exact idle_failAbout _ _ _
    · exact idle_pure _
  · exact idle_failAbout _ _ _

/-- The value of a constant is a literal or a name. -/
theorem idle_constantTerm (start : Position) (negative : Bool) :
    Idle s (constantTerm start negative) := by
  have hinteger (n : Int) (place : Position) : Idle s (integer n place) :=
    idle_same fun _ => passes_aside (aside_integer n place : Aside True _) (notes_integer n place)
  refine fun i => passes_next?.bind fun o j hj => ?_
  rcases hj with ⟨rfl, rfl⟩ | ⟨⟨t, q⟩, rfl, rfl⟩
  · exact passes_failAbout _ _ _
  have hsilent (ht : t.isSilent = true) {p : Parse Value} (hp : Idle s p) : Passes s p j fun _ k =>
      Free s.globals (t :: j) k [] :=
    (hp j).mono fun _ _ hjk => (free_silent ht).trans hjk
  cases t with
  | integer n => exact hsilent rfl ((hinteger _ _).bind fun _ => idle_pure _)
  | real x => exact hsilent rfl (idle_pure _)
  | text x =>
    refine hsilent rfl ?_
    dsimp only
    split
    · exact idle_failAbout _ _ _
    · exact idle_pure _
  | ident x =>
    exact (idle_namedConstant start q negative x j).mono fun _ _ hjk => (free_ident x).trans hjk
  | _ => exact passes_failAbout _ _ _

theorem idle_constantValue : Idle s constantValue :=
  (idle_same fun _ => passes_position).bind fun start => (idle_accept rfl).bind fun negative =>
    idle_constantTerm start negative

theorem calls_constant (room : Nat) (j : List Token) :
    Passes s (constant room) (.word .constWord :: j) fun _ k =>
      Carried s.globals none none (.word .constWord :: j) k [] := by
  refine Shuts.skip rfl ((idle_typeSpec room).shuts fun ty => idle_ident.shuts fun n => ?_) j
  refine (idle_same fun _ => passes_checkFresh _ _).shuts fun _ => (idle_expect rfl).shuts fun _ => ?_
  refine (idle_same fun _ => passes_position).shuts fun place => idle_constantValue.shuts fun v => ?_
  dsimp only
  split
  · exact shuts_failAbout_bind _ _ _
  · exact shuts_semicolon fun _ => passes_declare _ fun _ _ h => nomatch h

theorem idle_importedName (before : List (String × Position)) : Idle s (importedName before) := by
  refine idle_ident.bind fun n => ?_
  dsimp only
  split
  · exact idle_failAbout_bind _ _ _
  · exact idle_pure _

theorem shuts_importAll (names : List (String × Position)) (from? : Option (String × Position)) :
    Shuts s (do
      expectMark .semicolon
      names.forM fun (name, p) => importName from? name p
      match from? with
      | some (script, _) =>
        modify fun d =>
          { d with imports := d.imports.add script, subscripts := d.subscripts.add script }
      | none => return ()) fun _ => [] := by
  refine shuts_semicolon fun _ => passes_aside (T := fun _ => True) (aside_importAll names from?) ?_
  refine (notes_forM_importName from? names).next fun _ => ?_
  split
  · exact notes_modify fun _ hd => ⟨hd, fun _ _ _ => trivial⟩
  · exact notes_pure trivial

theorem calls_importNames (j : List Token) :
    Passes s importNames (.word .importWord :: j) fun _ k =>
      Carried s.globals none none (.word .importWord :: j) k [] := by
  refine Shuts.skip rfl ((idle_separatedAfter idle_importedName).shuts fun names => ?_) j
  refine (idle_accept rfl).shuts fun b => ?_
  split
  · have hfrom : Idle s (some <$> ident) := by
      rw [map_eq_pure_bind]
      exact idle_ident.bind fun _ => idle_pure _
    exact hfrom.shuts fun from? => shuts_importAll names from?
  · exact shuts_importAll names none

/-! ## Assignments -/

/-- What is read makes these calls, and no name stands before it or at its end. -/
def Calls (s : Surroundings) (p : Parse α) (calls : α → List (Nat × Nat)) : Prop :=
  ∀ i, Passes s p i fun a j => Carried s.globals none none i j (calls a)

theorem frees_assignmentPath (room : Nat) (name : String) (ty : Ty) :
    Frees s (assignmentPath room name ty) fun r => Expr.callsAll r.1 := by
  refine fun i => passes_loop (fun r : List Expr × Ty => Expr.callsAll r.1.reverse) _ Free.trans
    (fun r i => ?_) (by rfl) i
  obtain ⟨path, ty⟩ := r
  refine passes_position.bind fun q j hj => passes_peek?.bind fun o k hk => ?_
  subst hj
  obtain ⟨rfl, rfl⟩ := hk
  split
  · next hi =>
    obtain ⟨rest, rfl⟩ := List.head?_eq_some_iff.1 hi
    refine passes_skip.bind fun _ j hj => (yields_conditionFor room _ j).bind fun index k hk => ?_
    refine (passes_expect _).bind fun _ l hl => ?_
    obtain ⟨last, hindex⟩ := hk
    rw [hj, hl] at hindex
    split
    · refine passes_pure ⟨index.calls, ?_, fun before => ⟨none, ?_⟩⟩
      · simp [Expr.callsAll_eq_flatMap]
      · exact (hindex.close rfl).silent rfl
    · exact passes_failAbout _ _ _
  · next hi =>
    obtain ⟨rest, rfl⟩ := List.head?_eq_some_iff.1 hi
    refine passes_skip.bind fun _ j hj => passes_ident.bind fun n k hk => ?_
    obtain ⟨field, place⟩ := n
    rw [hj, List.tail_cons] at hk
    subst hk
    dsimp only
    split
    · refine passes_pure ⟨[], ?_, fun before => ⟨some field, ?_⟩⟩
      · simp [Expr.callsAll_eq_flatMap, Expr.calls]
      · exact ((carried_refl _ k).ident field).silent rfl
    · exact passes_failAbout _ _ _
  · exact passes_pure ⟨[], by simp, free_refl _⟩

theorem calls_assignment (room : Nat) : Calls s (assignment room) Stmt.calls := by
  refine fun i => passes_ident.bind fun n j hj => (passes_lookup? _).bind fun o k hk => ?_
  obtain ⟨name, place⟩ := n
  subst hj hk
  dsimp only
  split
  · split
    · exact passes_failAbout_bind _ _ _
    · refine (frees_assignmentPath room _ _ k).bind fun r l hl => ?_
      refine (passes_expect _).bind fun _ m hm => (yields_rhs room _ _ m).bind fun value n hn => ?_
      refine (passes_expect _).bind fun _ j hj => passes_pure ?_
      subst hm hj
      obtain ⟨mid, hpath⟩ := hl (some name)
      obtain ⟨last, hvalue⟩ := hn
      exact (((hpath.close rfl).trans hvalue).close rfl).ident name
  · exact passes_failAbout _ _ _
  · exact passes_failAbout _ _ _

theorem calls_expressionStatement (room : Nat) : Calls s (expressionStatement room) Stmt.calls := by
  refine fun i => passes_position.bind fun q j hj => (yields_expression room j).bind fun e k hk => ?_
  refine (passes_expect _).bind fun _ l hl => ?_
  subst hj hl
  obtain ⟨last, he⟩ := hk
  split
  · exact passes_pure (he.close rfl)
  · exact passes_pure (he.close rfl)

/-! ## Statements -/

theorem calls_one {p : Parse Stmt} (h : Calls s p Stmt.calls) :
    Calls s (do return [← p]) Stmt.callsAll := by
  refine fun i => (h i).bind fun a j hj => passes_pure ?_
  simpa [Stmt.callsAll] using hj

/-- A loop of statements. -/
theorem calls_parts {step : List (List Stmt) → Parse (List (List Stmt) ⊕ List (List Stmt))}
    (hstep : ∀ parts i, Passes s (step parts) i fun r j =>
      (r = .inr parts.reverse ∧ j = i) ∨ ∃ body, r = .inl (body :: parts) ∧
        Carried s.globals none none i j (Stmt.callsAll body)) :
    Calls s (loop [] step) fun parts => Stmt.callsAll parts.flatten := by
  refine fun i => passes_loop (fun parts : List (List Stmt) => Stmt.callsAll parts.reverse.flatten) _
    Carried.trans (fun parts i => (hstep parts i).mono fun r j hr => ?_) (by rfl) i
  rcases hr with ⟨rfl, rfl⟩ | ⟨body, rfl, hbody⟩
  · exact ⟨[], by simp, carried_refl none j⟩
  · exact ⟨Stmt.callsAll body, by simp [Stmt.callsAll_append], hbody⟩

theorem calls_block {inner : Option (Parse (List Stmt))}
    (hi : ∀ statement ∈ inner, Calls s statement Stmt.callsAll) :
    Calls s (block inner) Stmt.callsAll := by
  refine fun i => (passes_expect _).bind fun _ j hj => ?_
  subst hj
  split
  · exact passes_tooDeep
  · next statement =>
    refine (calls_parts (fun parts i => ?_) j).bind fun parts k hk => ?_
    · refine passes_peek?.bind fun o j hj => ?_
      obtain ⟨-, rfl⟩ := hj
      split
      · exact passes_pure (.inl ⟨rfl, rfl⟩)
      · exact passes_unexpected _
      · exact (hi statement rfl j).bind fun body k hk => passes_pure (.inr ⟨body, rfl, hk⟩)
    · refine (passes_expect _).bind fun _ l hl => passes_pure ?_
      subst hl
      exact (hk.close rfl).silent rfl

theorem calls_conditional (room : Nat) {inner : Option (Parse (List Stmt))}
    (hi : ∀ statement ∈ inner, Calls s statement Stmt.callsAll) (i : List Token) :
    Passes s (conditional room inner) (.word .ifWord :: i) fun a j =>
      Carried s.globals none none (.word .ifWord :: i) j a.calls := by
  refine passes_position.bind fun q _ hfirst => passes_skip.bind fun _ _ hk => ?_
  rw [hfirst, List.tail_cons] at hk
  rw [hk]
  refine (passes_expect _).bind fun _ l hl => (yields_conditionFor room _ l).bind fun condition m hm => ?_
  refine (passes_expect _).bind fun _ j hj => ?_
  obtain ⟨last, hcondition⟩ := hm
  subst hl hj
  split
  · exact passes_tooDeep
  · next statement =>
    refine (hi statement rfl j).bind fun body k hk => passes_position.bind fun q l hl => ?_
    subst hl
    have hbody : Carried s.globals none none (.word .ifWord :: _) _ _ :=
      (hcondition.parens.silent rfl).trans hk
    refine (passes_accept _).bind fun r m hr => ?_
    rcases hr with ⟨rfl, rfl⟩ | ⟨rfl, rfl, -⟩
    · refine (hi statement rfl m).bind fun other n hn => passes_pure ?_
      exact hbody.trans (hn.silent rfl)
    · exact passes_pure hbody

theorem calls_namedStatement (room : Nat) (name : String) :
    Calls s (namedStatement room name) Stmt.callsAll := by
  have hassign : Calls s _ Stmt.callsAll := calls_one (calls_assignment room)
  have hexpr : Calls s _ Stmt.callsAll := calls_one (calls_expressionStatement room)
  have hget (i : List Token) : Passes s (get : Parse Draft) i fun _ j => j = i :=
    Outcome.passes fun _ _ => outcome_get.mono fun _ _ h => h.2.2
  refine fun i => (hget i).bind fun d j hj => (passes_lookup? _).bind fun o k hk => ?_
  subst hj hk
  split
  · exact (shuts_declaration room false k).mono fun _ _ h => h none
  · split
    · exact hassign k
    · exact hexpr k
  · split
    · exact hassign k
    · exact hexpr k
  · exact hexpr k

theorem calls_statementWith (room : Nat) {inner : Option (Parse (List Stmt))}
    (hi : ∀ statement ∈ inner, Calls s statement Stmt.callsAll) :
    Calls s (statementWith room inner) Stmt.callsAll := by
  have hnone {p : Parse Unit} {i : List Token}
      (h : Passes s p i fun _ j => Carried s.globals none none i j []) :
      Passes s (do p; return []) i fun body j => Carried s.globals none none i j (Stmt.callsAll body) :=
    h.bind fun _ j hj => passes_pure hj
  refine fun i => passes_peek?.bind fun o j hj => ?_
  obtain ⟨rfl, rfl⟩ := hj
  split
  · exact passes_unexpected _
  · next token htoken =>
    obtain ⟨rest, rfl⟩ := List.head?_eq_some_iff.1 htoken
    split
    · refine hnone (passes_skip.mono fun _ k hk => ?_)
      rw [hk]
      exact (carried_refl none rest).silent rfl
    · exact calls_block hi _
    · exact (shuts_declaration room true).skip rfl rest
    · exact (shuts_declaration room false _).mono fun _ _ h => h none
    · exact hnone (calls_typedef room rest)
    · exact hnone (calls_constant room rest)
    · exact hnone (calls_importNames rest)
    · refine (calls_conditional room hi rest).bind fun a k hk => passes_pure ?_
      simpa [Stmt.callsAll] using hk
    · exact calls_namedStatement room _ _
    · exact calls_one (calls_expressionStatement room) _

theorem calls_statement (room : Nat) : Calls s (statement room) Stmt.callsAll := by
  induction room with
  | zero => exact calls_statementWith 0 fun _ h => nomatch h
  | succ room ih =>
    refine calls_statementWith (room + 1) fun statement h => ?_
    obtain rfl := Option.mem_some.1 h
    exact ih

/-- The statements of a text end where it ends. -/
theorem passes_script_end (i : List Token) : Passes s script i fun _ j => j = [] := by
  refine (passes_loop_end (E := (· = [])) (fun parts i => ?_) _ i).bind fun _ _ h => passes_pure h
  refine passes_peek?.bind fun o j hj => ?_
  obtain ⟨rfl, rfl⟩ := hj
  split
  · next hnone =>
    exact passes_pure fun _ => List.head?_eq_none_iff.1 (Option.isNone_iff_eq_none.1 hnone)
  · exact (calls_statement maxNesting j).bind fun _ _ _ => passes_pure fun h => nomatch h

/-- The statements of a text make the calls of its tokens. -/
theorem calls_script : Calls s script Stmt.callsAll := by
  refine fun i => (calls_parts (fun parts i => ?_) i).bind fun parts j hj => passes_pure hj
  refine passes_peek?.bind fun o j hj => ?_
  obtain ⟨-, rfl⟩ := hj
  split
  · exact passes_pure (.inl ⟨rfl, rfl⟩)
  · exact (calls_statement maxNesting j).bind fun body k hk => passes_pure (.inr ⟨body, rfl, hk⟩)

/-- A text that is read to its end calls, in each of its calls, what its tokens name. -/
theorem named_script {tokens : List (Token × Position)} {table : SharedTable} {body : List Stmt}
    {d : Draft} (hrounds : tokens.length < s.rounds)
    (h : script s (Draft.start tokens table) = .ok body d) :
    List.Forall₂ (Named s.globals.symbols.get?) (calledNames none [] (tokens.map Prod.fst))
      (Stmt.callsAll body) := by
  have hcalm : (Draft.start tokens table).Calm s := {
    functionless := Draft.functionless_start tokens table
    rounds := by rwa [Draft.ahead, List.length_map]
  }
  have hahead : (Draft.start tokens table).ahead = tokens.map Prod.fst := rfl
  obtain ⟨-, hend⟩ := passes_script_end _ _ _ _ hcalm rfl h
  obtain ⟨-, ts, names, hts, hcarries, hnamed⟩ := calls_script _ _ _ _ hcalm rfl h
  rw [hend, List.append_nil, hahead] at hts
  have hnames := hcarries [] []
  rw [List.append_nil, ← hts] at hnames
  simp only [hnames, calledNames, List.append_nil]
  exact hnamed

end Parse

end VectorScript
