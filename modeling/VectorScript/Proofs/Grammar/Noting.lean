import VectorScript.Proofs.Grammar.Draft
import VectorScript.Proofs.Tree.Noted

/-!
# Which scripts are noted

A compilation notes every script that a call of `dispatch` names by a lone literal, but its own. So in
the end each of them has been noted, whatever has been read after the call. `Notes` says so backwards:
if everything noted after a step is among `T`, then so is everything noted before it, and the
expressions that the step reads name only scripts of `T`.

    Notes s T p P → (∀ a, Notes s T (f a) fun b => P a → R b) → Notes s T (p >>= f) R    (Notes.bind)
-/

namespace VectorScript

namespace Draft

/-- No name of the draft is a function. -/
def Functionless (d : Draft) : Prop := ∀ x index f, d.symbols.get? x ≠ some (.function index f)

/-- The scripts noted so far are among those of `T`. -/
def Within (T : String → Prop) (d : Draft) : Prop :=
  ∀ script, d.subscripts.contains script = true → T script

theorem Functionless.insert {d : Draft} (hd : d.Functionless) (name : String) {symbol : Symbol}
    (h : ∀ index f, symbol ≠ .function index f) :
    { d with symbols := d.symbols.insert name symbol }.Functionless := by
  intro x index f hx
  rcases NameMap.eq_or_get?_of_insert hx with ⟨-, hnew⟩ | hold
  · exact h index f hnew.symm
  · exact hd x index f hold

theorem functionless_start (tokens : List (Token × Position)) (table : SharedTable) :
    (Draft.start tokens table).Functionless :=
  fun _ _ _ hx => nomatch (eq_of_get?_start hx).2

end Draft

/-- The expression names only scripts of `T`. -/
def Typed.Noted (functions : List HostFunction) (T : String → Prop) (e : Typed) : Prop :=
  e.expr.Noted functions T

namespace Parse

variable {α β : Type} {s : Surroundings} {T : String → Prop} {p : Parse α} {f : α → Parse β}
  {P Q : α → Prop} {R : β → Prop}

/-! ## The judgement -/

/-- When the step succeeds where no name is a function, it leaves it so. If the scripts noted then are
among `T`, so are those noted before the step, and the property holds of its result. -/
def Notes (s : Surroundings) (T : String → Prop) (p : Parse α) (Q : α → Prop) : Prop :=
  ∀ d a d', d.Functionless → p s d = .ok a d' →
    d'.Functionless ∧ (d'.Within T → d.Within T ∧ Q a)

theorem Notes.bind (hp : Notes s T p P) (hf : ∀ a, Notes s T (f a) fun b => P a → R b) :
    Notes s T (p >>= f) R := by
  intro d b d'' hd h
  replace h : EStateM.bind (p s) (fun a => f a s) d = .ok b d'' := h
  unfold EStateM.bind at h
  split at h
  · next a d' ha =>
    obtain ⟨hd', hbefore⟩ := hp d a d' hd ha
    obtain ⟨hd'', hafter⟩ := hf a d' b d'' hd' h
    refine ⟨hd'', fun hT => ?_⟩
    obtain ⟨hT, hb⟩ := hafter hT
    exact ⟨(hbefore hT).1, hb (hbefore hT).2⟩
  · cases h

theorem Notes.mono (hp : Notes s T p P) (h : ∀ a, P a → Q a) : Notes s T p Q := by
  intro d a d' hd ha
  obtain ⟨hd', hbefore⟩ := hp d a d' hd ha
  exact ⟨hd', fun hT => ⟨(hbefore hT).1, h a (hbefore hT).2⟩⟩

/-- A step whose result does not matter for what comes after it. -/
theorem Notes.next (hp : Notes s T p P) (hf : ∀ a, Notes s T (f a) R) : Notes s T (p >>= f) R :=
  hp.bind fun a => (hf a).mono fun _ h _ => h

theorem notes_pure {a : α} (h : Q a) : Notes s T (pure a) Q := by
  rintro d a d' hd ⟨⟩
  exact ⟨hd, fun hT => ⟨hT, h⟩⟩

theorem notes_throw (x : Fault) : Notes s T (throw x : Parse α) Q := by
  rintro d a d' - ⟨⟩

theorem notes_fail (cause : Cause) (place : Position) : Notes s T (fail cause place : Parse α) Q :=
  notes_throw _

theorem notes_failAbout (cause : Cause) (item : String) (place : Position) :
    Notes s T (failAbout cause item place : Parse α) Q := notes_throw _

/-- What comes after a step that fails does not matter. -/
theorem notes_failAbout_bind (cause : Cause) (item : String) (place : Position) :
    Notes s T (failAbout cause item place >>= f) R := by
  rintro d a d' - ⟨⟩

theorem notes_read : Notes s T (read : Parse Surroundings) (· = s) := by
  rintro d a d' hd ⟨⟩
  exact ⟨hd, fun hT => ⟨hT, rfl⟩⟩

theorem notes_get : Notes s T (get : Parse Draft) Draft.Functionless := by
  rintro d a d' hd ⟨⟩
  exact ⟨hd, fun hT => ⟨hT, hd⟩⟩

/-- A change of a draft that forgets no subscript. -/
theorem notes_modify {g : Draft → Draft}
    (h : ∀ d : Draft, d.Functionless → (g d).Functionless ∧ ((g d).Within T → d.Within T)) :
    Notes s T (modify g : Parse Unit) fun _ => True := by
  rintro d a d' hd ⟨⟩
  exact ⟨(h d hd).1, fun hT => ⟨(h d hd).2 hT, trivial⟩⟩

/-- A change of a draft that leaves symbols and subscripts alone. -/
theorem notes_modify_other {g : Draft → Draft} (hsymbols : ∀ d, (g d).symbols = d.symbols)
    (hsubscripts : ∀ d, (g d).subscripts = d.subscripts) :
    Notes s T (modify g : Parse Unit) fun _ => True := by
  refine notes_modify fun d hd => ⟨?_, ?_⟩
  · unfold Draft.Functionless
    rw [hsymbols]
    exact hd
  · unfold Draft.Within
    rw [hsubscripts]
    exact id

/-! ## Tokens -/

theorem notes_peek? : Notes s T peek? fun _ => True := notes_get.next fun _ => notes_pure trivial

theorem notes_position : Notes s T position fun _ => True := by
  refine notes_get.next fun d => ?_
  split
  · exact notes_pure trivial
  · exact notes_read.next fun _ => notes_pure trivial

theorem notes_skip : Notes s T skip fun _ => True := notes_modify_other (fun _ => rfl) fun _ => rfl

theorem notes_next? : Notes s T next? fun _ => True := by
  refine notes_get.next fun d => ?_
  split
  · refine Notes.next (notes_modify_other (fun _ => rfl) fun _ => rfl) fun _ => ?_
    exact notes_pure trivial
  · exact notes_pure trivial

theorem notes_accept (t : Token) : Notes s T (accept t) fun _ => True := by
  refine notes_peek?.next fun o => ?_
  split
  · exact notes_skip.next fun _ => notes_pure trivial
  · exact notes_pure trivial

theorem notes_unexpected (wanted : String) : Notes s T (unexpected wanted : Parse α) Q := by
  refine notes_position.next fun p => notes_peek?.next fun o => ?_
  split
  · exact notes_throw _
  · exact notes_failAbout _ _ _

theorem notes_expect (t : Token) : Notes s T (expect t) fun _ => True := by
  refine (notes_accept t).next fun b => ?_
  split
  · exact notes_pure trivial
  · exact notes_unexpected _

theorem notes_expectMark (m : Mark) : Notes s T (expectMark m) fun _ => True := notes_expect _

theorem notes_acceptMark (m : Mark) : Notes s T (acceptMark m) fun _ => True := notes_accept _

theorem notes_acceptWord (w : Word) : Notes s T (acceptWord w) fun _ => True := notes_accept _

theorem notes_ident : Notes s T ident fun _ => True := by
  refine notes_position.next fun p => notes_peek?.next fun o => ?_
  split
  · exact notes_skip.next fun _ => notes_pure trivial
  · exact notes_unexpected _

theorem notes_integer (n : Int) (place : Position) : Notes s T (integer n place) fun _ => True := by
  unfold integer
  split
  · exact notes_pure trivial
  · exact notes_failAbout _ _ _

/-! ## Nesting and loops -/

theorem notes_tooDeep : Notes s T (tooDeep : Parse α) Q :=
  notes_position.next fun _ => notes_fail _ _

/-- An invariant of the rounds of a loop, from which each result follows. -/
theorem notes_loop {step : α → Parse (α ⊕ β)} (I : α → Prop)
    (hstep : ∀ a, Notes s T (step a) fun r => I a → Round I R r) (a : α) :
    Notes s T (loop a step) fun b => I a → R b := by
  refine notes_read.next fun g => ?_
  generalize g.rounds = rounds
  induction rounds generalizing a with
  | zero => exact notes_throw _
  | succ rounds ih =>
    refine (hstep a).bind fun r => ?_
    split
    · exact (ih _).mono fun _ h hr ha => h (hr ha)
    · exact notes_pure fun hr ha => hr ha

theorem notes_separatedAfter {item : List α → Parse α} (h : ∀ before, Notes s T (item before) Q) :
    Notes s T (separatedAfter item) fun items => ∀ a ∈ items, Q a := by
  refine (notes_loop (R := fun items => ∀ a ∈ items, Q a) (fun before => ∀ a ∈ before, Q a)
    (fun before => ?_) []).mono fun _ h => h fun _ h => nomatch h
  refine (h before).bind fun a => (notes_acceptMark _).next fun b => ?_
  split
  · exact notes_pure fun ha hb => List.forall_mem_cons.2 ⟨ha, hb⟩
  · exact notes_pure fun ha hb x hx => List.forall_mem_cons.2 ⟨ha, hb⟩ x (List.mem_reverse.1 hx)

theorem notes_separated {item : Parse α} (h : Notes s T item Q) :
    Notes s T (separated item) fun items => ∀ a ∈ items, Q a := notes_separatedAfter fun _ => h

/-! ## Names -/

/-- A function that is found is one of the host. -/
theorem notes_lookup? (name : String) : Notes s T (lookup? name) fun o => ∀ index f,
    o = some (.function index f) → s.globals.symbols.get? name = some (.function index f) := by
  refine notes_get.bind fun d => ?_
  split
  · next symbol h =>
    refine notes_pure fun hd index f hsymbol => ?_
    exact absurd (h.trans hsymbol) (hd name index f)
  · refine notes_read.bind fun g => notes_pure fun hg _ index f h => ?_
    rw [← hg]
    exact h

theorem notes_checkFresh (name : String) (place : Position) :
    Notes s T (checkFresh name place) fun _ => True := by
  refine notes_get.next fun d => notes_read.next fun g => ?_
  split
  · exact notes_failAbout _ _ _
  · exact notes_pure trivial

theorem notes_declare (name : String) {symbol : Symbol} (h : ∀ index f, symbol ≠ .function index f) :
    Notes s T (declare name symbol) fun _ => True :=
  notes_modify fun _ hd => ⟨hd.insert name h, id⟩

/-! ## Operators -/

theorem notes_checkOperation (op : Operation) (t u : Ty) (place : Position) :
    Notes s T (checkOperation op t u place) fun _ => True := by
  unfold checkOperation
  split
  · exact notes_pure trivial
  · exact notes_throw _

section

variable {functions : List HostFunction} {operand inner bare expression : Parse Typed}

theorem notes_chain (h : Notes s T operand (Typed.Noted functions T)) (level : Nat) :
    Notes s T (chain level operand) (Typed.Noted functions T) := by
  refine h.bind fun first => notes_loop (Typed.Noted functions T) (fun left => ?_) first
  refine notes_peek?.next fun o => ?_
  split
  · split
    · refine notes_position.next fun q => notes_skip.next fun _ => h.bind fun right => ?_
      exact (notes_checkOperation _ _ _ _).next fun _ => notes_pure fun hright hleft => ⟨hleft, hright⟩
    · exact notes_pure id
  · exact notes_pure id

theorem notes_binary (h : Notes s T operand (Typed.Noted functions T)) :
    Notes s T (binary operand) (Typed.Noted functions T) := by
  unfold binary
  generalize binaryLevels = levels
  induction levels with
  | zero => exact h
  | succ levels ih => exact notes_chain ih _

theorem notes_signed (hi : Notes s T inner (Typed.Noted functions T))
    (hb : Notes s T bare (Typed.Noted functions T)) :
    Notes s T (signed inner bare) (Typed.Noted functions T) := by
  refine notes_peek?.next fun o => ?_
  split
  · exact hb
  · refine notes_position.next fun q => notes_skip.next fun _ => notes_peek?.next fun o => ?_
    split
    · refine notes_position.next fun q => notes_skip.next fun _ => ?_
      exact (notes_integer _ _).next fun n => notes_pure trivial
    · refine hi.bind fun e => ?_
      exact (notes_checkOperation _ _ _ _).next fun _ => notes_pure id

/-! ## Primary expressions -/

theorem notes_nameValue (name : String) (place : Position) :
    Notes s T (nameValue name place) (Typed.Noted functions T) := by
  refine (notes_lookup? name).next fun o => ?_
  split
  · exact notes_pure trivial
  · exact notes_pure trivial
  · exact notes_failAbout _ _ _
  · exact notes_failAbout _ _ _

theorem notes_components (h : Notes s T expression (Typed.Noted functions T)) (place : Position) :
    Notes s T (components expression place) (Typed.Noted functions T) := by
  refine (notes_separated h).bind fun items => (notes_expectMark _).next fun _ => ?_
  split
  · next a b c e =>
    have hall (h : ∀ x ∈ [a, b, c, e], Typed.Noted functions T x) :
        a.Noted functions T ∧ b.Noted functions T ∧ c.Noted functions T ∧ e.Noted functions T := by
      simpa using h
    split
    · exact notes_pure hall
    · split
      · exact notes_pure hall
      · exact notes_failAbout _ _ _
  · exact notes_failAbout _ _ _

theorem notes_listLiteral (h : Notes s T expression (Typed.Noted functions T)) :
    Notes s T (listLiteral expression) (Typed.Noted functions T) := by
  refine (notes_acceptMark _).next fun b => ?_
  split
  · exact notes_pure trivial
  · refine (notes_separated h).bind fun items => (notes_expectMark _).next fun _ => ?_
    refine notes_pure fun hitems => Expr.allNoted_iff.2 fun e he => ?_
    obtain ⟨item, hitem, rfl⟩ := List.mem_map.1 he
    exact hitems item hitem

theorem notes_arguments (h : Notes s T expression (Typed.Noted functions T)) :
    Notes s T (arguments expression) fun args => ∀ a ∈ args, a.1.Noted functions T := by
  refine (notes_expectMark _).next fun _ => (notes_acceptMark _).next fun b => ?_
  split
  · exact notes_pure fun _ h => nomatch h
  · have hitem : Notes s T (do let p ← position; return (← expression, p))
        fun a : Typed × Position => a.1.Noted functions T :=
      notes_position.next fun q => h.bind fun e => notes_pure id
    refine (notes_separated hitem).bind fun args => (notes_expectMark _).next fun _ => ?_
    exact notes_pure id

theorem notes_checkArguments (name : String) (params : List Ty) (args : List (Typed × Position)) :
    Notes s T (checkArguments name params args) fun _ => True := by
  induction params generalizing args with
  | nil => exact notes_pure trivial
  | cons t params ih =>
    cases args with
    | nil => exact notes_pure trivial
    | cons a args =>
      unfold checkArguments
      split
      · exact ih args
      · exact notes_failAbout _ _ _

/-- The script that a literal names is noted, if it is not the script's own name. -/
theorem notes_noteSubscript (hself : T s.name) (f : HostFunction) (args : List (Typed × Position)) :
    Notes s T (noteSubscript f args) fun _ => ∀ script, f.name = Library.dispatchName →
      (args.head?.bind fun a => a.1.expr.literalText?) = some script → T script := by
  unfold noteSubscript
  split
  · split
    · next script hscript =>
      refine notes_read.bind fun g => ?_
      split
      · have hadd : Notes s T (modify fun d : Draft =>
            { d with subscripts := d.subscripts.add script } : Parse Unit) fun _ => T script := by
          rintro d _ _ hd ⟨⟩
          exact ⟨hd, fun hT => ⟨fun other hother => hT other (NameMap.contains_insert.2 (.inr hother)),
            hT script (NameMap.contains_insert.2 (.inl rfl))⟩⟩
        refine hadd.mono fun _ hT _ other _ hother => ?_
        obtain rfl := Option.some.inj (hscript.symm.trans hother)
        exact hT
      · next hown =>
        refine notes_pure fun hg other _ hother => ?_
        obtain rfl := Option.some.inj (hscript.symm.trans hother)
        rw [hg] at hown
        rw [Decidable.not_not.1 hown]
        exact hself
    · next hnone => exact notes_pure fun script _ h => nomatch hnone.symm.trans h
  · next hname => exact notes_pure fun script h => absurd h hname

/-- A function stands where its name says. -/
theorem notes_call (hglobals : s.globals.Ok) (hself : T s.name)
    (h : Notes s T expression (Typed.Noted s.globals.functions T)) (name : String) (place : Position) :
    Notes s T (call expression name place) (Typed.Noted s.globals.functions T) := by
  refine (notes_lookup? name).bind fun o => ?_
  split
  · next index f =>
    refine (notes_arguments h).bind fun args => ?_
    split
    · exact notes_failAbout_bind _ _ _
    · refine (notes_checkArguments name f.params args).next fun _ => ?_
      refine (notes_noteSubscript hself f args).bind fun _ => notes_pure fun hscript hargs hf => ?_
      refine ⟨Expr.allNoted_iff.2 fun e he => ?_, fun f' script hf' hname hargs => ?_⟩
      · obtain ⟨a, ha, rfl⟩ := List.mem_map.1 he
        exact hargs a ha
      · obtain rfl := Option.some.inj
          (((hglobals.functions name index f (hf index f rfl)).1).symm.trans hf')
        obtain ⟨a, rest, rfl, ha, -⟩ := List.map_eq_cons_iff.1 hargs
        refine hscript script hname ?_
        show a.1.expr.literalText? = some script
        rw [ha]
        rfl
  · exact notes_failAbout _ _ _
  · exact notes_failAbout _ _ _

section

variable (hglobals : s.globals.Ok) (hself : T s.name)
  (h : Notes s T expression (Typed.Noted s.globals.functions T))

include hglobals hself h in
theorem notes_primary : Notes s T (primary expression) (Typed.Noted s.globals.functions T) := by
  refine notes_position.next fun q => notes_next?.next fun o => ?_
  split
  · exact notes_failAbout _ _ _
  · split
    · exact (notes_integer _ _).next fun n => notes_pure trivial
    · exact notes_pure trivial
    · exact notes_pure trivial
    · exact h.bind fun e => (notes_expectMark _).next fun _ => notes_pure id
    · exact notes_components h q
    · exact notes_listLiteral h
    · refine notes_peek?.next fun o => ?_
      split
      · exact notes_call hglobals hself h _ q
      · exact notes_nameValue _ q
    · exact notes_failAbout _ _ _

end

/-! ## Indices and fields -/

theorem notes_indexed (e index : Typed) (place : Position) : Notes s T (indexed e index place)
    fun r => e.Noted functions T → index.Noted functions T → r.Noted functions T := by
  refine (notes_checkOperation _ _ _ _).next fun _ => ?_
  dsimp only
  split
  · exact notes_pure fun he hindex => ⟨he, hindex⟩
  · exact notes_pure fun he hindex => ⟨he, hindex⟩

theorem notes_selected (e : Typed) (name : String) (place : Position) :
    Notes s T (selected e name place) fun r => e.Noted functions T → r.Noted functions T := by
  refine (notes_checkOperation _ _ _ _).next fun _ => ?_
  split
  · exact notes_pure id
  · exact notes_failAbout _ _ _

end

section

variable (hglobals : s.globals.Ok) (hself : T s.name)

include hglobals hself

theorem notes_suffixed {expression : Parse Typed}
    (h : Notes s T expression (Typed.Noted s.globals.functions T)) :
    Notes s T (suffixed expression) (Typed.Noted s.globals.functions T) := by
  refine (notes_primary hglobals hself h).bind fun first =>
    notes_loop (Typed.Noted s.globals.functions T) (fun e => ?_) first
  refine notes_position.next fun q => notes_peek?.next fun o => ?_
  split
  · refine notes_skip.next fun _ => h.bind fun index => (notes_expectMark _).next fun _ => ?_
    exact (notes_indexed e index q).bind fun r => notes_pure fun hr hindex he => hr he hindex
  · refine notes_skip.next fun _ => notes_ident.next fun n => ?_
    exact (notes_selected e n.1 n.2).bind fun r => notes_pure fun hr he => hr he
  · exact notes_pure id

/-! ## Nested expressions -/

theorem notes_operandIn (room : Nat) :
    Notes s T (operandIn room) (Typed.Noted s.globals.functions T) := by
  induction room with
  | zero => exact notes_signed notes_tooDeep (notes_suffixed hglobals hself notes_tooDeep)
  | succ room ih => exact notes_signed ih (notes_suffixed hglobals hself (notes_binary ih))

/-- The scripts that an expression names are noted when it has been read. -/
theorem notes_expression (room : Nat) :
    Notes s T (expression room) (Typed.Noted s.globals.functions T) := by
  cases room with
  | zero => exact notes_tooDeep
  | succ room => exact notes_binary (notes_operandIn hglobals hself room)

end

end Parse

end VectorScript
