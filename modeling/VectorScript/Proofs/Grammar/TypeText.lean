import VectorScript.Grammar.Declaration
import VectorScript.Proofs.Grammar.Acceptance
import VectorScript.Proofs.Ty.Spelling

/-!
# A written type is read

Where the base types go by their names, the tokens of a type's text are read as the type, if there
is room for the records in it. Brackets after a type belong to it, so what is read in the end is
settled by the brackets that follow.

    t.spellable → t.recordDepth ≤ room → reading the brackets of rest after t gives u →
      typeSpec room reads u from t.written ++ rest                              (reaches_typeSpec)
-/

namespace VectorScript

open Grammar

namespace Parse

variable {s : Surroundings} {b : Draft} {room rounds : Nat} {i : List Token}

/-- The names of the base types stand for them. -/
def NamesBases (s : Surroundings) (b : Draft) : Prop :=
  ∀ t : Ty, t.isBase = true → symbol? s b t.render = some (.typedef t)

/-! ## Brackets -/

/-- A round of the brackets after a type. -/
def bracketStep (t : Ty) : Parse (Ty ⊕ Ty) := do
  if ← acceptMark .leftBracket then
    expectMark .rightBracket
    return .inl (.array t)
  else return .inr t

theorem arrayOf_eq (t : Ty) : arrayOf t = loop t bracketStep := rfl

theorem reaches_bracketStep_more (t : Ty) (i : List Token) :
    Reaches s b (bracketStep t) (.mark .leftBracket :: .mark .rightBracket :: i) (.inl (.array t))
      i :=
  (reaches_accept _).bind <| (reaches_expect _).bind reaches_pure

theorem reaches_bracketStep_done (t : Ty) (h : i.head? ≠ some (.mark .leftBracket)) :
    Reaches s b (bracketStep t) i (.inr t) i :=
  (reaches_accept_of_ne h).bind reaches_pure

/-- With so many tokens or more to read, the brackets after a type make it another one. -/
def Brackets (s : Surroundings) (b : Draft) (t : Ty) (i : List Token) (u : Ty) (j : List Token) :
    Prop :=
  ∀ rounds, i.length < rounds → Reaches s b (iterate bracketStep rounds t) i u j

theorem brackets_none (t : Ty) (h : i.head? ≠ some (.mark .leftBracket)) :
    Brackets s b t i t i := by
  intro rounds hrounds
  cases rounds with
  | zero => cases hrounds
  | succ rounds => exact reaches_iterate_done (reaches_bracketStep_done t h)

theorem Brackets.array {t u : Ty} {j : List Token} (h : Brackets s b (.array t) i u j) :
    Brackets s b t (.mark .leftBracket :: .mark .rightBracket :: i) u j := by
  intro rounds hrounds
  cases rounds with
  | zero => cases hrounds
  | succ rounds =>
    refine reaches_iterate_more (reaches_bracketStep_more t i) (h rounds ?_)
    simp only [List.length_cons] at hrounds
    omega

theorem Brackets.reaches {t u : Ty} {j : List Token} (h : Brackets s b t i u j) :
    Reaches s b (arrayOf t) i u j := by
  rw [arrayOf_eq]
  exact outcome_loop fun hrounds => h _ hrounds

/-! ## Types -/

theorem reaches_namedType {name : String} {t : Ty} (h : symbol? s b name = some (.typedef t)) :
    Reaches s b namedType (.ident name :: i) t i := by
  refine Outcome.bind (outcome_ident fun h => h _ _ rfl) fun r j hr => ?_
  obtain ⟨x, place⟩ := r
  obtain ⟨rfl, rfl⟩ := hr
  refine (outcome_lookup? x).bind fun o j ho => ?_
  obtain ⟨rfl, rfl⟩ := ho
  rw [h]
  exact reaches_pure

theorem typeSpec_named (room : Nat) (h : i.head? ≠ some (.word .recordWord)) {u : Ty}
    {j : List Token} (hr : Reaches s b (namedType >>= arrayOf) i u j) :
    Reaches s b (typeSpec room) i u j := by
  cases room <;> exact (reaches_accept_of_ne h).bind hr

/-- The field that a round of a record reads. -/
theorem fields_eq (room : Nat) : separatedAfter (fieldSpec (typeSpec room)) =
    loop [] fun before => itemStep (fieldSpec (typeSpec room) before) before := rfl

/-- A field has a name that no field before it has. -/
theorem reaches_fieldSpec {before : List (String × Ty)} {name : String} {t : Ty}
    {typeSpec : Parse Ty} {ts : List Token}
    (ht : Reaches s b typeSpec (ts ++ .ident name :: i) t (.ident name :: i))
    (hnew : ∀ field ∈ before, field.1 ≠ name) :
    Reaches s b (fieldSpec typeSpec before) (ts ++ .ident name :: i) (name, t) i := by
  refine ht.bind <| Outcome.bind (outcome_ident fun h => h _ _ rfl) fun r j hr => ?_
  obtain ⟨x, place⟩ := r
  obtain ⟨rfl, rfl⟩ := hr
  have hany : (before.any fun field => decide (field.1 = x)) = false := by
    rw [List.any_eq_false]
    exact fun field hf => by simpa using hnew field hf
  simp only [hany]
  exact reaches_pure

/-- A round that reads a field and the comma after it. -/
theorem reaches_fieldStep_more {before : List (String × Ty)} {name : String} {t : Ty}
    {typeSpec : Parse Ty} {ts : List Token}
    (ht : Reaches s b typeSpec (ts ++ .ident name :: .mark .comma :: i) t
      (.ident name :: .mark .comma :: i))
    (hnew : ∀ field ∈ before, field.1 ≠ name) :
    Reaches s b (itemStep (fieldSpec typeSpec before) before)
      (ts ++ .ident name :: .mark .comma :: i) (.inl ((name, t) :: before)) i :=
  (reaches_fieldSpec ht hnew).bind <| (reaches_accept _).bind reaches_pure

/-- A round that reads the last field. -/
theorem reaches_fieldStep_done {before : List (String × Ty)} {name : String} {t : Ty}
    {typeSpec : Parse Ty} {ts : List Token}
    (ht : Reaches s b typeSpec (ts ++ .ident name :: i) t (.ident name :: i))
    (hnew : ∀ field ∈ before, field.1 ≠ name) (hi : i.head? ≠ some (.mark .comma)) :
    Reaches s b (itemStep (fieldSpec typeSpec before) before) (ts ++ .ident name :: i)
      (.inr ((name, t) :: before).reverse) i :=
  (reaches_fieldSpec ht hnew).bind <| (reaches_accept_of_ne hi).bind reaches_pure

theorem reaches_base (hs : NamesBases s b) {t u : Ty} (ht : t.isBase = true)
    (hw : t.written = [.ident t.render]) {j : List Token} (hi : Brackets s b t i u j) :
    Reaches s b (typeSpec room) (t.written ++ i) u j := by
  rw [hw]
  exact typeSpec_named room (by simp) ((reaches_namedType (hs t ht)).bind hi.reaches)

mutual

theorem reaches_typeSpec (hs : NamesBases s b) : (t : Ty) → t.spellable = true → {room : Nat} →
    t.recordDepth ≤ room → {i : List Token} → {u : Ty} → {j : List Token} → Brackets s b t i u j →
    Reaches s b (typeSpec room) (t.written ++ i) u j
  | .integer, _, _, _, _, _, _, hi | .real, _, _, _, _, _, _, hi | .vector, _, _, _, _, _, _, hi
  | .matrix, _, _, _, _, _, _, hi | .text, _, _, _, _, _, _, hi => reaches_base hs rfl rfl hi
  | .array elem, ht, room, hroom, i, u, j, hi => by
    rw [Ty.written, List.append_assoc]
    exact reaches_typeSpec hs elem ht hroom hi.array
  | .record fields, ht, room, hroom, i, u, j, hi => by
    obtain ⟨hne, hf⟩ := Bool.and_eq_true_iff.1 ht
    cases room with
    | zero => cases hroom
    | succ room =>
      have hfields : Reaches s b (separatedAfter (fieldSpec (typeSpec room)))
          (Ty.writtenFields fields ++ i) fields (.mark .rightParen :: i) := by
        rw [fields_eq]
        exact outcome_loop fun hrounds => reaches_fields hs fields (by simpa using hne) hf
          (Nat.le_of_succ_le_succ hroom) (fun _ _ _ hg => absurd hg List.not_mem_nil) hrounds
      rw [Ty.written]
      exact (reaches_accept _).bind <| (reaches_expect _).bind <| hfields.bind <|
        (reaches_expect _).bind hi.reaches

/-- The fields of a record after those before them. -/
theorem reaches_fields (hs : NamesBases s b) : (fields : List (String × Ty)) → fields ≠ [] →
    Ty.spellableFields fields = true → {room : Nat} → Ty.recordDepthFields fields ≤ room →
    {before : List (String × Ty)} → (∀ f ∈ fields, ∀ g ∈ before, g.1 ≠ f.1) →
    {i : List Token} → {rounds : Nat} → (Ty.writtenFields fields ++ i).length < rounds →
    Reaches s b (iterate (fun before => itemStep (fieldSpec (typeSpec room) before) before) rounds
      before) (Ty.writtenFields fields ++ i) (before.reverse ++ fields) (.mark .rightParen :: i)
  | [], hne, _, _, _, _, _, _, _, _ => absurd rfl hne
  | [(name, t)], _, hf, room, hroom, before, hnew, i, rounds, hrounds => by
    simp only [Ty.spellableFields, Bool.and_eq_true] at hf
    have ht : Reaches s b (typeSpec room) (t.written ++ .ident name :: .mark .rightParen :: i) t
        (.ident name :: .mark .rightParen :: i) :=
      reaches_typeSpec hs t hf.1.1.2 (Nat.le_trans (Nat.le_max_left ..) hroom)
        (brackets_none t (by simp))
    cases rounds with
    | zero => cases hrounds
    | succ rounds =>
      have hdone := reaches_fieldStep_done ht (hnew _ List.mem_cons_self) (by simp)
      rw [Ty.writtenFields, List.append_assoc]
      rw [List.reverse_cons] at hdone
      exact reaches_iterate_done hdone
  | (name, t) :: next :: rest, _, hf, room, hroom, before, hnew, i, rounds, hrounds => by
    rw [Ty.spellableFields] at hf
    obtain ⟨hf, hrest⟩ := Bool.and_eq_true_iff.1 hf
    simp only [Bool.and_eq_true, List.all_eq_true, decide_eq_true_eq] at hf
    have ht : Reaches s b (typeSpec room)
        (t.written ++ .ident name :: .mark .comma :: (Ty.writtenFields (next :: rest) ++ i)) t
        (.ident name :: .mark .comma :: (Ty.writtenFields (next :: rest) ++ i)) :=
      reaches_typeSpec hs t hf.1.2 (Nat.le_trans (Nat.le_max_left ..) hroom)
        (brackets_none t (by simp))
    have hlater : ∀ f ∈ next :: rest, ∀ g ∈ (name, t) :: before, g.1 ≠ f.1 := by
      intro f hmem g hg
      rcases List.mem_cons.1 hg with rfl | hg
      · exact (hf.2 f hmem).symm
      · exact hnew f (List.mem_cons_of_mem _ hmem) g hg
    cases rounds with
    | zero => cases hrounds
    | succ rounds =>
      have hmore := reaches_fieldStep_more ht (hnew _ List.mem_cons_self)
      have hshorter : (Ty.writtenFields (next :: rest) ++ i).length < rounds := by
        simp only [Ty.writtenFields, List.length_append, List.length_cons] at hrounds ⊢
        omega
      have htail := reaches_fields hs (next :: rest) (List.cons_ne_nil _ _) hrest
        (Nat.le_trans (Nat.le_max_right ..) hroom) hlater hshorter
      rw [Ty.writtenFields, List.append_assoc]
      rw [List.reverse_cons, List.append_assoc] at htail
      exact reaches_iterate_more hmore htail

end

end Parse

end VectorScript
