import VectorScript.Grammar.Declaration
import VectorScript.Proofs.NameMap

/-!
# Steps that look at no token

Checks, look-ups and declarations do the same whatever tokens are ahead, and whatever the length of
the text: `Aside` says so of a step, and that no name is lost. A quiet step declares nothing.

    p s' { d with tokens := ts } = retold ts (p s d)                                  (Aside.run)
    Aside quiet p → (∀ a, Aside quiet (f a)) → Aside quiet (p >>= f)                 (Aside.bind)
-/

namespace VectorScript

/-- The surroundings differ at most in the length of the text. -/
structure Surroundings.Alike (s s' : Surroundings) : Prop where
  name : s'.name = s.name
  globals : s'.globals = s.globals
  scripts : s'.scripts = s.scripts

theorem Surroundings.Alike.refl (s : Surroundings) : s.Alike s := ⟨rfl, rfl, rfl⟩

/-- All names of the first draft are names of the second one, and if it is quiet there are no more. -/
structure Draft.Gains (quiet : Prop) (d e : Draft) : Prop where
  names : ∀ x, d.symbols.contains x = true → e.symbols.contains x = true
  quiet : quiet → e.symbols = d.symbols

theorem Draft.Gains.of_eq {quiet : Prop} {d e : Draft} (h : e.symbols = d.symbols) :
    d.Gains quiet e := ⟨fun _ hx => h ▸ hx, fun _ => h⟩

theorem Draft.Gains.trans {quiet : Prop} {d e f : Draft} (h : d.Gains quiet e)
    (h' : e.Gains quiet f) : d.Gains quiet f :=
  ⟨fun x hx => h'.names x (h.names x hx), fun hq => (h'.quiet hq).trans (h.quiet hq)⟩

namespace Parse

variable {α β : Type} {quiet : Prop} {p : Parse α} {f : α → Parse β}

/-- The draft in which a run ends. -/
def final : EStateM.Result Fault Draft α → Draft
  | .ok _ d | .error _ d => d

/-- A run with other tokens ahead in the end. -/
def retold (ts : List (Token × Position)) :
    EStateM.Result Fault Draft α → EStateM.Result Fault Draft α
  | .ok a d => .ok a { d with tokens := ts }
  | .error x d => .error x { d with tokens := ts }

/-- What comes after a run, if it succeeds. -/
def andThen (r : EStateM.Result Fault Draft α) (k : α → Draft → EStateM.Result Fault Draft β) :
    EStateM.Result Fault Draft β :=
  match r with
  | .ok a d => k a d
  | .error x d => .error x d

theorem bind_run (p : Parse α) (f : α → Parse β) (s : Surroundings) (d : Draft) :
    (p >>= f) s d = andThen (p s d) fun a => f a s := by
  show EStateM.bind (p s) (fun a => f a s) d = _
  unfold EStateM.bind andThen
  cases p s d <;> rfl

/-! ## The judgement -/

/-- The step does the same whatever tokens are ahead and however long the text is. -/
structure Aside (quiet : Prop) (p : Parse α) : Prop where
  run : ∀ {s s' : Surroundings}, s.Alike s' → ∀ d ts,
    p s' { d with tokens := ts } = retold ts (p s d)
  gains : ∀ (s : Surroundings) (d : Draft), d.Gains quiet (final (p s d))

theorem gains_bind (hp : ∀ (s : Surroundings) (d : Draft), d.Gains quiet (final (p s d)))
    (hf : ∀ a (s : Surroundings) (d : Draft), d.Gains quiet (final (f a s d))) (s : Surroundings) (d : Draft) :
    d.Gains quiet (final ((p >>= f) s d)) := by
  have hgains := hp s d
  rw [bind_run]
  cases hrun : p s d with
  | ok a e =>
    rw [hrun] at hgains
    exact hgains.trans (hf a s e)
  | error x e =>
    rw [hrun] at hgains
    exact hgains

theorem Aside.bind (hp : Aside quiet p) (hf : ∀ a, Aside quiet (f a)) : Aside quiet (p >>= f) where
  run := by
    intro s s' hs d ts
    rw [bind_run, bind_run, hp.run hs]
    cases p s d with
    | ok a e => exact (hf a).run hs e ts
    | error x e => rfl
  gains := gains_bind hp.gains fun a => (hf a).gains

theorem aside_pure (a : α) : Aside quiet (pure a : Parse α) := ⟨fun _ _ _ => rfl, fun _ _ => .of_eq rfl⟩

theorem aside_throw (x : Fault) : Aside quiet (throw x : Parse α) :=
  ⟨fun _ _ _ => rfl, fun _ _ => .of_eq rfl⟩

theorem aside_failAbout (cause : Cause) (item : String) (p : Position) :
    Aside quiet (failAbout cause item p : Parse α) := aside_throw _

/-- What comes after a failure does not matter. -/
theorem aside_failAbout_bind (cause : Cause) (item : String) (p : Position) :
    Aside quiet (failAbout cause item p >>= f : Parse β) :=
  ⟨fun _ _ _ => rfl, fun _ _ => .of_eq rfl⟩

/-- What the step goes on with does not depend on the tokens. -/
theorem aside_get {f : Draft → Parse β} (hf : ∀ d ts, f { d with tokens := ts } = f d)
    (h : ∀ d, Aside quiet (f d)) : Aside quiet (get >>= f) where
  run := by
    intro s s' hs d ts
    show f { d with tokens := ts } s' _ = retold ts (f d s d)
    rw [hf]
    exact (h d).run hs d ts
  gains s d := (h d).gains s d

/-- What the step goes on with does not depend on the length of the text. -/
theorem aside_read {f : Surroundings → Parse β} (hf : ∀ {s s'}, s.Alike s' → f s' = f s)
    (h : ∀ s, Aside quiet (f s)) : Aside quiet (read >>= f) where
  run := by
    intro s s' hs d ts
    show f s' s' _ = retold ts (f s s d)
    rw [hf hs]
    exact (h s).run hs d ts
  gains s d := (h s).gains s d

theorem aside_modify {g : Draft → Draft}
    (hg : ∀ d ts, g { d with tokens := ts } = { g d with tokens := ts })
    (h : ∀ d : Draft, d.Gains quiet (g d)) : Aside quiet (modify g : Parse Unit) where
  run := by
    intro s s' _ d ts
    exact congrArg (EStateM.Result.ok ()) (hg d ts)
  gains _ d := h d

/-- A step that is not quiet need not be loud. -/
theorem Aside.loud (h : Aside True p) : Aside quiet p :=
  ⟨h.run, fun s d => ⟨(h.gains s d).names, fun _ => (h.gains s d).quiet trivial⟩⟩

/-! ## Names -/

theorem aside_lookup? (name : String) : Aside quiet (lookup? name) := by
  apply aside_get (fun _ _ => rfl)
  intro d
  split
  · exact aside_pure _
  · apply aside_read
    · intro s s' hs
      rw [hs.globals]
    · intro s
      exact aside_pure _

theorem gains_insert {d e : Draft} {name : String} (symbol : Symbol)
    (h : e.symbols = d.symbols.insert name symbol) : d.Gains False e :=
  ⟨fun _ hx => h ▸ NameMap.contains_insert.2 (.inr hx), False.elim⟩

theorem aside_declare (name : String) (symbol : Symbol) : Aside False (declare name symbol) :=
  aside_modify (fun _ _ => rfl) fun _ => gains_insert symbol rfl

theorem aside_checkFresh (name : String) (p : Position) : Aside quiet (checkFresh name p) := by
  apply aside_get (fun _ _ => rfl)
  intro d
  apply aside_read
  · intro s s' hs
    rw [hs.globals]
  · intro s
    split
    · exact aside_failAbout _ _ _
    · exact aside_pure _

theorem aside_addSlot (slot : Slot) : Aside quiet (addSlot slot) := by
  apply aside_get (fun _ _ => rfl)
  intro d
  refine Aside.bind (aside_modify ?_ ?_) fun _ => aside_pure _
  · exact fun _ _ => rfl
  · exact fun _ => .of_eq rfl

theorem aside_addReference (id : SharedId) : Aside quiet (addReference id) :=
  aside_modify (fun _ _ => rfl) fun _ => .of_eq rfl

/-! ## Expressions -/

theorem aside_integer (n : Int) (p : Position) : Aside quiet (integer n p) := by
  unfold integer
  split
  · exact aside_pure _
  · exact aside_failAbout _ _ _

theorem aside_checkOperation (op : Operation) (t u : Ty) (p : Position) :
    Aside quiet (checkOperation op t u p) := by
  unfold checkOperation
  split
  · exact aside_pure _
  · exact aside_throw _

theorem aside_nameValue (name : String) (p : Position) : Aside quiet (nameValue name p) := by
  refine (aside_lookup? name).bind fun o => ?_
  split
  · exact aside_pure _
  · exact aside_pure _
  · exact aside_failAbout _ _ _
  · exact aside_failAbout _ _ _

theorem aside_checkArguments (name : String) (params : List Ty) (args : List (Typed × Position)) :
    Aside quiet (checkArguments name params args) := by
  induction params generalizing args with
  | nil => exact aside_pure _
  | cons param params ih =>
    cases args with
    | nil => exact aside_pure _
    | cons arg args =>
      unfold checkArguments
      split
      · exact ih args
      · exact aside_failAbout _ _ _

theorem aside_noteSubscript (f : HostFunction) (args : List (Typed × Position)) :
    Aside quiet (noteSubscript f args) := by
  unfold noteSubscript
  split
  · split
    · apply aside_read
      · intro s s' hs
        rw [hs.name]
      · intro s
        split
        · exact aside_modify (fun _ _ => rfl) fun _ => .of_eq rfl
        · exact aside_pure _
    · exact aside_pure _
  · exact aside_pure _

theorem aside_indexed (e index : Typed) (p : Position) : Aside quiet (indexed e index p) := by
  refine (aside_checkOperation _ _ _ _).bind fun _ => ?_
  dsimp only
  split
  · exact aside_pure _
  · exact aside_pure _

theorem aside_selected (e : Typed) (name : String) (p : Position) :
    Aside quiet (selected e name p) := by
  refine (aside_checkOperation _ _ _ _).bind fun _ => ?_
  split
  · exact aside_pure _
  · exact aside_failAbout _ _ _

/-! ## Declarations -/

/-- A variable in a slot of its own. -/
theorem aside_newVariable (slot : Slot) (symbol : Nat → Symbol) (name : String) :
    Aside False (do
      let n ← addSlot slot
      declare name (symbol n)
      return n) :=
  (aside_addSlot slot).bind fun _ => (aside_declare name _).bind fun _ => aside_pure _

theorem aside_declareVariable (isShared : Bool) (ty : Ty) (name : String) :
    Aside False (declareVariable isShared ty name) := by
  cases isShared with
  | false => exact aside_newVariable (.local ty) (fun n => .var ⟨ty, n, none, false⟩) name
  | true =>
    constructor
    · intro s s' hs d ts
      cases s
      cases s'
      obtain ⟨rfl, rfl, rfl⟩ := hs
      rfl
    · intro s d
      exact gains_insert _ rfl

theorem aside_exported (script : String) (scriptPosition : Position) (name : String)
    (p : Position) : Aside quiet (exported script scriptPosition name p) := by
  apply aside_read
  · intro s s' hs
    simp only [hs.name, hs.scripts]
  · intro s
    dsimp only
    split
    · exact aside_failAbout_bind _ _ _
    · split
      · exact aside_failAbout_bind _ _ _
      · split
        · exact aside_pure _
        · exact aside_failAbout _ _ _

theorem aside_hostShared (name : String) (p : Position) : Aside quiet (hostShared name p) := by
  apply aside_read
  · intro s s' hs
    simp only [hs.globals]
  · intro s
    dsimp only
    split
    · exact aside_pure _
    · split
      · exact aside_failAbout _ _ _
      · exact aside_failAbout _ _ _

theorem aside_bindEntry (id : SharedId) (name : String) (p : Position) : Aside False (do
    match (← get).table.get? id with
    | none => throw (((Fault.of .internalError).located p).named name)
    | some entry =>
      let slot ← addSlot (.shared id)
      addReference id
      declare name (.var { ty := entry.ty, slot := slot, shared := some id, imported := true })) := by
  apply aside_get (fun _ _ => rfl)
  intro d
  split
  · exact aside_throw _
  · refine (aside_addSlot _).bind fun slot => ?_
    exact (aside_addReference id).bind fun _ => aside_declare _ _

/-- What is imported is declared in any case, or the step fails. -/
theorem aside_importName (from? : Option (String × Position)) (name : String) (p : Position) :
    Aside False (importName from? name p) := by
  cases from? with
  | none =>
    apply aside_get (fun _ _ => rfl)
    intro d
    dsimp only
    split
    · exact aside_failAbout_bind _ _ _
    · exact (aside_hostShared name p).bind fun id => aside_bindEntry id name p
  | some script =>
    apply aside_get (fun _ _ => rfl)
    intro d
    dsimp only
    split
    · exact aside_failAbout_bind _ _ _
    · exact (aside_exported _ _ name p).bind fun id => aside_bindEntry id name p

theorem aside_forM_importName (from? : Option (String × Position))
    (names : List (String × Position)) :
    Aside False (names.forM fun (name, p) => importName from? name p) := by
  induction names with
  | nil => exact aside_pure _
  | cons n rest ih => exact (aside_importName _ _ _).bind fun _ => ih

/-- The names of an import, once it is known where they come from. -/
theorem aside_importAll (names : List (String × Position)) (from? : Option (String × Position)) :
    Aside False (do
      names.forM fun (name, p) => importName from? name p
      match from? with
      | some (script, _) =>
        modify fun d =>
          { d with imports := d.imports.add script, subscripts := d.subscripts.add script }
      | none => return ()) := by
  refine (aside_forM_importName from? names).bind fun _ => ?_
  split
  · exact aside_modify (fun _ _ => rfl) fun _ => .of_eq rfl
  · exact aside_pure _

end Parse

end VectorScript
