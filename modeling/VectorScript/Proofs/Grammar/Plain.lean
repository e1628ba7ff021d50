import VectorScript.Proofs.Grammar.Counting

/-!
# Steps that open nothing

Most steps of reading read some of the tokens ahead, if any, and open nothing: `Plain` says so of a
step. When it fails, its fault stands at a place and does not say that the nesting is too deep.

    Plain s p i P → (∀ a j, … → P a j → Plain s (f a) j Q) → Plain s (p >>= f) i Q     (Plain.bind)
-/

namespace VectorScript

/-! ## Faults -/

/-- The types of operands are not too deep. -/
theorem Operation.not_tooDeep_of_check {op : Operation} {t u : Ty} {e : Fault}
    (h : op.check t u = .error e) : e.cause ≠ .tooDeep := by
  have hrequire : ∀ {cause : Cause} {condition : Bool}, cause ≠ .tooDeep →
      op.require cause condition = .error e → e.cause ≠ .tooDeep := by
    intro cause condition hcause h
    unfold require at h
    split at h <;> cases h
    exact hcause
  unfold check at h
  split at h
  · unfold checkTake at h
    split at h
    · split at h <;> cases h
      exact nofun
    · cases h
      exact nofun
  · unfold checkMember at h
    split at h
    · split at h <;> cases h
      exact nofun
    · cases h
      exact nofun
  · split at h
    · unfold checkBase at h
      split at h <;> first | exact hrequire (by decide) h | cases h
    · cases h
      exact nofun

/-- The fault stands at a place and does not say that the nesting is too deep. -/
def Fault.Plain (e : Fault) : Prop := e.cause ≠ .tooDeep ∧ e.position.isSome = true

namespace Parse

variable {α β : Type} {s : Surroundings} {i : List (Token × Position)} {p : Parse α}
  {f : α → Parse β} {P : α → List (Token × Position) → Prop}
  {Q : β → List (Token × Position) → Prop}

/-! ## The judgement -/

/-- With these tokens ahead the step reads some of them, if any, and the property holds of the
result and of the tokens left; or it fails, and not for the nesting. -/
def Plain (s : Surroundings) (p : Parse α) (i : List (Token × Position))
    (P : α → List (Token × Position) → Prop) : Prop :=
  ∀ d, d.tokens = i → match p s d with
    | .ok a e => e.tokens <:+ i ∧ P a e.tokens
    | .error x _ => x.Plain

theorem Plain.bind (hp : Plain s p i P)
    (hf : ∀ a j, j.length ≤ i.length → P a j → Plain s (f a) j Q) : Plain s (p >>= f) i Q := by
  intro d hd
  have hp := hp d hd
  show match EStateM.bind (p s) (fun a => f a s) d with
    | .ok b e => e.tokens <:+ i ∧ Q b e.tokens
    | .error x _ => x.Plain
  unfold EStateM.bind
  cases hx : p s d with
  | error x e =>
    rw [hx] at hp
    exact hp
  | ok a e =>
    rw [hx] at hp
    obtain ⟨hsuffix, ha⟩ := hp
    have hf := hf a e.tokens hsuffix.length_le ha e rfl
    dsimp only
    cases hy : f a s e with
    | error x e' =>
      rw [hy] at hf
      exact hf
    | ok b e' =>
      rw [hy] at hf
      exact ⟨hf.1.trans hsuffix, hf.2⟩

theorem Plain.mono {P' : α → List (Token × Position) → Prop} (hp : Plain s p i P)
    (h : ∀ a j, j.length ≤ i.length → P a j → P' a j) : Plain s p i P' := by
  intro d hd
  have hp := hp d hd
  split at hp
  · exact ⟨hp.1, h _ _ hp.1.length_le hp.2⟩
  · exact hp

theorem plain_pure {a : α} (h : P a i) : Plain s (pure a) i P := by
  rintro d rfl
  exact ⟨List.suffix_refl _, h⟩

theorem plain_throw {e : Fault} (h : e.Plain) : Plain s (throw e : Parse α) i P := fun _ _ => h

theorem plain_failAbout {cause : Cause} {item : String} {q : Position}
    (h : cause ≠ .tooDeep) : Plain s (failAbout cause item q : Parse α) i P :=
  plain_throw ⟨h, rfl⟩

/-- What comes after a failure does not matter. -/
theorem plain_failAbout_bind {cause : Cause} {item : String} {q : Position}
    (h : cause ≠ .tooDeep) :
    Plain s (failAbout cause item q >>= f : Parse β) i Q :=
  (plain_failAbout (P := fun (_ : α) _ => False) h).bind fun _ _ _ h => h.elim

/-- Either way. -/
theorem plain_ite {c : Prop} [Decidable c] {p' : Parse α} (hthen : c → Plain s p i P)
    (helse : ¬c → Plain s p' i P) : Plain s (if c then p else p') i P := by
  split
  · next h => exact hthen h
  · next h => exact helse h

theorem plain_read : Plain s (read : Parse Surroundings) i fun a j => a = s ∧ j = i := by
  rintro d rfl
  exact ⟨List.suffix_refl _, rfl, rfl⟩

theorem plain_get : Plain s (get : Parse Draft) i fun d j => d.tokens = i ∧ j = i := by
  rintro d rfl
  exact ⟨List.suffix_refl _, rfl, rfl⟩

/-- Some tokens may be dropped. -/
theorem plain_modify {g : Draft → Draft} {j : List (Token × Position)} (hj : j <:+ i)
    (h : ∀ d, d.tokens = i → (g d).tokens = j) :
    Plain s (modify g : Parse Unit) i fun _ k => k = j := by
  intro d hd
  show (g d).tokens <:+ i ∧ (g d).tokens = j
  rw [h d hd]
  exact ⟨hj, rfl⟩

theorem plain_update {g : Draft → Draft} (h : ∀ d, (g d).tokens = d.tokens) :
    Plain s (modify g : Parse Unit) i fun _ _ => True :=
  (plain_modify (List.suffix_refl i) fun d hd => (h d).trans hd).mono fun _ _ _ _ => trivial

/-! ## Tokens -/

theorem plain_peek? : Plain s peek? i fun o j => o = i.head?.map (·.1) ∧ j = i := by
  rintro d rfl
  exact ⟨List.suffix_refl _, rfl, rfl⟩

/-- The place of the next token, or the end of the text. -/
def place (s : Surroundings) (tokens : List (Token × Position)) : Position :=
  (tokens.head?.map (·.2)).getD s.endPosition

theorem position_run (s : Surroundings) (d : Draft) : position s d = .ok (place s d.tokens) d := by
  obtain ⟨tokens, _⟩ := d
  cases tokens <;> rfl

theorem plain_position : Plain s position i fun _ j => j = i := by
  rintro d rfl
  rw [position_run]
  exact ⟨List.suffix_refl _, rfl⟩

theorem plain_skip : Plain s skip i fun _ j => j = i.tail :=
  plain_modify (List.tail_suffix i) fun d hd => by
    show d.tokens.drop 1 = i.tail
    rw [hd, List.drop_one]

theorem plain_next? : Plain s next? i fun o j => o = none ∨ j.length < i.length := by
  refine plain_get.bind fun d j _ h => ?_
  obtain ⟨hd, rfl⟩ := h
  split
  · next t rest ht =>
    have hrest : rest <:+ j := ⟨[t], (ht.symm.trans hd)⟩
    refine (plain_modify (j := rest) hrest fun _ _ => rfl).bind fun _ k _ hk => plain_pure (.inr ?_)
    rw [hk, ← hd, ht]
    exact Nat.lt_succ_self _
  · exact plain_pure (.inl rfl)

/-- A token that is looked at can be read. -/
theorem length_tail_lt_of_head? {t : Token} (h : i.head?.map (·.1) = some t) :
    i.tail.length < i.length := by
  cases i with
  | nil => cases h
  | cons t rest => exact Nat.lt_succ_self _

theorem plain_accept (t : Token) : Plain s (accept t) i fun r j =>
    r = true ∧ j.length < i.length ∨ r = false := by
  refine plain_peek?.bind fun o j _ h => ?_
  obtain ⟨rfl, rfl⟩ := h
  split
  · next ht =>
    refine plain_skip.bind fun _ k _ hk => plain_pure (.inl ⟨rfl, ?_⟩)
    rw [hk]
    exact length_tail_lt_of_head? ht
  · exact plain_pure (.inr rfl)

theorem plain_acceptMark (m : Mark) : Plain s (acceptMark m) i fun r j =>
    r = true ∧ j.length < i.length ∨ r = false := plain_accept _

theorem plain_acceptWord (w : Word) : Plain s (acceptWord w) i fun r j =>
    r = true ∧ j.length < i.length ∨ r = false := plain_accept _

theorem plain_unexpected (wanted : String) : Plain s (unexpected wanted : Parse α) i P := by
  refine plain_position.bind fun q _ _ _ => plain_peek?.bind fun o _ _ _ => ?_
  split
  · exact plain_throw ⟨nofun, rfl⟩
  · exact plain_failAbout (by decide)

theorem plain_expect (t : Token) : Plain s (expect t) i fun _ j => j.length < i.length := by
  refine (plain_accept t).bind fun r j _ hr => ?_
  rcases hr with ⟨rfl, hlt⟩ | rfl
  · exact plain_pure hlt
  · exact plain_unexpected _

theorem plain_expectMark (m : Mark) : Plain s (expectMark m) i fun _ j => j.length < i.length :=
  plain_expect _

theorem plain_ident : Plain s ident i fun _ j => j.length < i.length := by
  refine plain_position.bind fun q j _ hj => plain_peek?.bind fun o k _ h => ?_
  subst hj
  obtain ⟨rfl, rfl⟩ := h
  split
  · next ht =>
    refine plain_skip.bind fun _ l _ hl => plain_pure ?_
    rw [hl]
    exact length_tail_lt_of_head? ht
  · exact plain_unexpected _

theorem plain_integer (n : Int) (q : Position) : Plain s (integer n q) i fun _ _ => True := by
  unfold integer
  split
  · exact plain_pure trivial
  · exact plain_failAbout (by decide)

/-! ## Names -/

theorem plain_lookup? (name : String) : Plain s (lookup? name) i fun _ _ => True := by
  refine plain_get.bind fun d j _ _ => ?_
  split
  · exact plain_pure trivial
  · exact plain_read.bind fun _ _ _ _ => plain_pure trivial

theorem plain_declare (name : String) (symbol : Symbol) :
    Plain s (declare name symbol) i fun _ _ => True :=
  plain_update fun _ => rfl

theorem plain_checkFresh (name : String) (q : Position) :
    Plain s (checkFresh name q) i fun _ _ => True := by
  refine plain_get.bind fun d j _ _ => plain_read.bind fun g k _ _ => ?_
  split
  · exact plain_failAbout (by decide)
  · exact plain_pure trivial

theorem plain_addSlot (slot : Slot) : Plain s (addSlot slot) i fun _ _ => True := by
  refine plain_get.bind fun d j _ _ => ?_
  refine Plain.bind (P := fun _ _ => True) (plain_update fun _ => rfl) fun _ _ _ _ => ?_
  exact plain_pure trivial

theorem plain_addReference (id : SharedId) : Plain s (addReference id) i fun _ _ => True :=
  plain_update fun _ => rfl

/-! ## Expressions -/

theorem plain_checkOperation (op : Operation) (t u : Ty) (q : Position) :
    Plain s (checkOperation op t u q) i fun _ _ => True := by
  unfold checkOperation
  split
  · exact plain_pure trivial
  · next e he =>
    have hcause : e.cause ≠ .tooDeep := Operation.not_tooDeep_of_check he
    exact plain_throw ⟨hcause, rfl⟩

theorem plain_nameValue (name : String) (q : Position) :
    Plain s (nameValue name q) i fun _ _ => True := by
  refine (plain_lookup? name).bind fun o j _ _ => ?_
  split
  · exact plain_pure trivial
  · exact plain_pure trivial
  · exact plain_failAbout (by decide)
  · exact plain_failAbout (by decide)

theorem plain_checkArguments (name : String) (params : List Ty) (args : List (Typed × Position)) :
    Plain s (checkArguments name params args) i fun _ _ => True := by
  induction params generalizing args with
  | nil => exact plain_pure trivial
  | cons param params ih =>
    rcases args with _ | ⟨⟨arg, q⟩, args⟩
    · exact plain_pure trivial
    · unfold checkArguments
      split
      · exact ih args
      · exact plain_failAbout (by decide)

theorem plain_noteSubscript (f : HostFunction) (args : List (Typed × Position)) :
    Plain s (noteSubscript f args) i fun _ _ => True := by
  unfold noteSubscript
  split
  · split
    · refine plain_read.bind fun g j _ _ => ?_
      split
      · exact plain_update fun _ => rfl
      · exact plain_pure trivial
    · exact plain_pure trivial
  · exact plain_pure trivial

theorem plain_indexed (e index : Typed) (q : Position) :
    Plain s (indexed e index q) i fun _ _ => True := by
  refine (plain_checkOperation _ _ _ _).bind fun _ _ _ _ => ?_
  dsimp only
  split
  · exact plain_pure trivial
  · exact plain_pure trivial

theorem plain_selected (e : Typed) (name : String) (q : Position) :
    Plain s (selected e name q) i fun _ _ => True := by
  refine (plain_checkOperation _ _ _ _).bind fun _ _ _ _ => ?_
  split
  · exact plain_pure trivial
  · exact plain_failAbout (by decide)

/-! ## Declarations -/

theorem plain_namedType : Plain s namedType i fun _ j => j.length < i.length := by
  refine plain_ident.bind fun n j _ hj => (plain_lookup? _).bind fun o k hk _ => ?_
  split
  · exact plain_pure (Nat.lt_of_le_of_lt hk hj)
  · exact plain_failAbout (by decide)
  · exact plain_failAbout (by decide)

theorem plain_declareVariable (isShared : Bool) (ty : Ty) (name : String) :
    Plain s (declareVariable isShared ty name) i fun _ _ => True := by
  have hslot : ∀ (slot : Slot) (symbol : Nat → Symbol) j, Plain s (do
      let n ← addSlot slot
      declare name (symbol n)
      return n) j fun _ _ => True := fun slot symbol j =>
    (plain_addSlot slot).bind fun n _ _ _ => (plain_declare name _).bind fun _ _ _ _ =>
      plain_pure trivial
  cases isShared with
  | false =>
    exact hslot (.local ty) (fun n => .var ⟨ty, n, none, false⟩) i
  | true =>
    refine plain_get.bind fun d j _ h => plain_read.bind fun g k _ h' => ?_
    obtain ⟨hd, rfl⟩ := h
    obtain ⟨rfl, rfl⟩ := h'
    have hset : Plain g (set { d with
        table := (d.table.declare g.name name ty).2
        exports := d.exports.insert name (d.table.declare g.name name ty).1
        references := d.references.push (d.table.declare g.name name ty).1 } : Parse Unit) k
        fun _ _ => True := by
      intro e he
      exact ⟨hd ▸ List.suffix_refl _, trivial⟩
    refine hset.bind fun _ l _ _ => ?_
    exact hslot (.shared _) (fun n => .var ⟨ty, n, some _, false⟩) l

theorem plain_constantTerm (start : Position) (negative : Bool) :
    Plain s (constantTerm start negative) i fun _ _ => True := by
  refine plain_next?.bind fun o j _ _ => ?_
  split
  · exact (plain_integer _ _).bind fun _ _ _ _ => plain_pure trivial
  · exact plain_pure trivial
  · split
    · exact plain_failAbout (by decide)
    · exact plain_pure trivial
  · refine (plain_lookup? _).bind fun o k _ _ => ?_
    split
    · split
      · split
        · exact plain_pure trivial
        · exact plain_pure trivial
        · exact plain_failAbout (by decide)
      · exact plain_pure trivial
    · exact plain_failAbout (by decide)
  · exact plain_failAbout (by decide)
  · exact plain_failAbout (by decide)

theorem plain_constantValue : Plain s constantValue i fun _ _ => True :=
  plain_position.bind fun _ _ _ _ => (plain_accept _).bind fun _ _ _ _ => plain_constantTerm _ _

/-! ## Imports -/

theorem plain_importedName (before : List (String × Position)) :
    Plain s (importedName before) i fun _ j => j.length < i.length := by
  refine plain_ident.bind fun n j _ hj => ?_
  obtain ⟨name, q⟩ := n
  dsimp only
  split
  · exact plain_failAbout_bind (by decide)
  · exact plain_pure hj

theorem plain_exported (script : String) (scriptPosition : Position) (name : String)
    (q : Position) : Plain s (exported script scriptPosition name q) i fun _ _ => True := by
  refine plain_read.bind fun g j _ _ => ?_
  refine plain_ite (fun _ => plain_failAbout_bind (by decide)) fun _ => ?_
  refine plain_ite (fun _ => plain_failAbout_bind (by decide)) fun _ => ?_
  cases (g.scripts.exports? script).bind fun exports => exports.get? name with
  | none => exact plain_failAbout (by decide)
  | some id => exact plain_pure trivial

theorem plain_hostShared (name : String) (q : Position) :
    Plain s (hostShared name q) i fun _ _ => True := by
  refine plain_read.bind fun g j _ _ => ?_
  dsimp only
  split
  · exact plain_pure trivial
  · split
    · exact plain_failAbout (by decide)
    · exact plain_failAbout (by decide)

/-- Makes a name stand for a shared variable. -/
def bindShared (name : String) (q : Position) (id : SharedId) : Parse Unit := do
  match (← get).table.get? id with
  | none => throw (((Fault.of .internalError).located q).named name)
  | some entry =>
    let slot ← addSlot (.shared id)
    addReference id
    declare name (.var { ty := entry.ty, slot := slot, shared := some id, imported := true })

theorem plain_bindShared (name : String) (q : Position) (id : SharedId) :
    Plain s (bindShared name q id) i fun _ _ => True := by
  refine plain_get.bind fun d j _ _ => ?_
  cases d.table.get? id with
  | none => exact plain_throw ⟨fun h => Cause.noConfusion h, rfl⟩
  | some entry =>
    refine (plain_addSlot _).bind fun slot _ _ _ => ?_
    exact (plain_addReference _).bind fun _ _ _ _ => plain_declare _ _

theorem plain_importName (from? : Option (String × Position)) (name : String) (q : Position) :
    Plain s (importName from? name q) i fun _ _ => True := by
  cases from? with
  | none =>
    refine plain_get.bind fun d j _ _ => ?_
    refine plain_ite (fun _ => plain_failAbout_bind (by decide)) fun _ => ?_
    exact (plain_hostShared name q).bind fun id _ _ _ => plain_bindShared name q id
  | some script =>
    refine plain_get.bind fun d j _ _ => ?_
    refine plain_ite (fun _ => plain_failAbout_bind (by decide)) fun _ => ?_
    exact (plain_exported _ _ name q).bind fun id _ _ _ => plain_bindShared name q id

theorem plain_forM_importName (from? : Option (String × Position))
    (names : List (String × Position)) :
    Plain s (names.forM fun (name, q) => importName from? name q) i fun _ _ => True := by
  induction names generalizing i with
  | nil => exact plain_pure trivial
  | cons n rest ih =>
    exact (plain_importName _ _ _).bind fun _ _ _ _ => ih

theorem plain_bindImports (names : List (String × Position))
    (from? : Option (String × Position)) :
    Plain s (Counting.bindImports names from?) i fun _ _ => True := by
  refine (plain_forM_importName from? names).bind fun _ j _ _ => ?_
  split
  · exact plain_update fun _ => rfl
  · exact plain_pure trivial

end Parse

end VectorScript
