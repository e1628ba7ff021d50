import VectorScript.Proofs.Store.Cell
import VectorScript.Proofs.Tree.Progress

/-!
# Typed stores succeed

A value of an assignable type finds the cell that it needs. A store of it as a whole fails if some
list in it is longer than lists may be (`Value.overlong`), and only then; so a store fails at most
at the bounds of a list, a vector or a matrix.

    c.Conforms t → v.HasType u → t.assignable u → FailsIf (v.overlong t) (c.assign v).1
                                                                               (failsIf_assign)
    c.Conforms t → v.HasType u → t.assignable u → Proceeds (c.assign v).1     (proceeds_assign)
-/

namespace VectorScript

mutual

/-- Whether some list in the value has more items than a list may have, where the type has an
array. -/
def Value.overlong : Value → Ty → Bool
  | .list vs, .array elem => decide (vs.length > Cell.maxItems) || overlongItems vs elem
  | .list vs, .record fields => overlongFields vs fields
  | _, _ => false

def Value.overlongItems : List Value → Ty → Bool
  | [], _ => false
  | v :: rest, elem => overlong v elem || overlongItems rest elem

def Value.overlongFields : List Value → List (String × Ty) → Bool
  | v :: rest, (_, t) :: fields => overlong v t || overlongFields rest fields
  | _, _ => false

end

namespace Value

theorem isNull_iff {v : Value} : v.isNull = true ↔ v = .list [] := by
  constructor
  · intro h
    cases v with
    | list items =>
      cases items with
      | nil => rfl
      | cons => cases h
    | _ => cases h
  · rintro rfl
    rfl

theorem overlong_null (t : Ty) : (list []).overlong t = false := by
  cases t <;> rfl

end Value

namespace Cell

theorem proceeds_storing {new : Except Fault Cell} (h : Proceeds new) (old : Cell) :
    Proceeds (storing old new).1 := by
  cases new with
  | ok c => trivial
  | error e => exact h

/-- The values may be stored where the types are expected, one by one. -/
inductive AllAssignable : List Value → List Ty → Prop
  | nil : AllAssignable [] []
  | cons {v : Value} {t u : Ty} {vs : List Value} {ts : List Ty} (hv : v.HasType u)
      (ha : t.assignable u = true) (hvs : AllAssignable vs ts) : AllAssignable (v :: vs) (t :: ts)

theorem AllAssignable.of_fields {vs : List Value} {items fields : List (String × Ty)}
    (h : Value.HaveTypes vs (items.map (·.2))) (ha : Ty.assignableFields fields items = true) :
    AllAssignable vs (fields.map (·.2)) := by
  induction items generalizing vs fields with
  | nil =>
    cases h
    cases fields with
    | nil => exact .nil
    | cons f fields => simp [Ty.assignableFields] at ha
  | cons item items ih =>
    cases h with
    | cons hv hvs =>
      cases fields with
      | nil => simp [Ty.assignableFields] at ha
      | cons f fields =>
        simp only [Ty.assignableFields, Bool.and_eq_true] at ha
        exact .cons hv ha.1 (ih hvs ha.2)

theorem AllAssignable.length_eq {vs : List Value} {ts : List Ty} (h : AllAssignable vs ts) :
    vs.length = ts.length := by
  induction h with
  | nil => rfl
  | cons _ _ _ ih => rw [List.length_cons, List.length_cons, ih]

/-- Each item of a typed list has a type of its own. -/
theorem item_types {vs : List Value} {ts : List Ty} (h : Value.HaveTypes vs ts) :
    ∀ v ∈ vs, ∃ t ∈ ts, v.HasType t := by
  induction vs generalizing ts with
  | nil => exact fun _ h => nomatch h
  | cons v vs ih =>
    cases h with
    | cons hv hvs =>
      intro w hw
      rcases List.mem_cons.1 hw with rfl | hw
      · exact ⟨_, List.mem_cons_self, hv⟩
      · obtain ⟨t, ht, hwt⟩ := ih hvs w hw
        exact ⟨t, List.mem_cons_of_mem _ ht, hwt⟩

/-! ## Items and fields -/

/-- The items of a list are stored one after the other, each as a whole. -/
theorem buildItems_cons (template : Cell) (v : Value) (rest : List Value) :
    buildItems template (v :: rest) =
      match template.assign v with
      | (.ok (), c) => (buildItems template rest).map (c :: ·)
      | (.error e, _) => .error e := by
  rw [buildItems]
  rfl

/-- So are the fields of a record, up to the first that fails. -/
theorem assignFields_cons (c : Cell) (cs : List Cell) (v : Value) (vs : List Value) :
    assignFields (c :: cs) (v :: vs) =
      match c.assign v with
      | (.ok (), c) => ((assignFields cs vs).1, c :: (assignFields cs vs).2)
      | (.error e, c) => (.error e, c :: cs) := by
  rw [assignFields]
  rfl

/-! ## Lists that are too long -/

/-- The attempt fails exactly if something is too long, and then at a bound. -/
def FailsIf {α : Type} (long : Bool) : Except Fault α → Prop
  | .ok _ => long = false
  | .error e => long = true ∧ ∃ detail, e = outOfBounds detail

section

variable {α β : Type} {long : Bool}

theorem FailsIf.map {x : Except Fault α} (h : FailsIf long x) (f : α → β) :
    FailsIf long (x.map f) := by
  cases x with
  | ok a => exact h
  | error e => exact h

theorem FailsIf.storing {x : Except Fault Cell} (h : FailsIf long x) (old : Cell) :
    FailsIf long (Cell.storing old x).1 := by
  cases x with
  | ok c => exact h
  | error e => exact h

theorem FailsIf.proceeds {x : Except Fault α} (h : FailsIf long x) : Proceeds x := by
  cases x with
  | ok a => trivial
  | error e =>
    obtain ⟨-, detail, rfl⟩ := h
    rfl

end

/-- A value that is not a list finds a cell of its kind. -/
theorem failsIf_assignAtom {v : Value} (hv : ∀ vs, v ≠ .list vs) {c : Cell} {t u : Ty}
    (hc : c.Conforms t) (hu : v.HasType u) (ha : t.assignable u = true) :
    FailsIf (v.overlong t) (assignValue c v).1 := by
  cases hu <;> cases hc <;> first
    | (simp [Ty.assignable] at ha; done)
    | exact absurd rfl (hv _)
    | (unfold assignValue; exact rfl)

/-- What holds of stores that are not null holds of all stores. -/
theorem failsIf_assign_of {v : Value} {c : Cell} {t : Ty}
    (h : v.isNull = false → FailsIf (v.overlong t) (assignValue c v).1) :
    FailsIf (v.overlong t) (c.assign v).1 := by
  unfold assign
  split
  · next hn =>
    rw [Value.isNull_iff.1 hn, Value.overlong_null]
    rfl
  · next hn => exact h (Bool.eq_false_iff.2 hn)

mutual

/-- Storing a value that is not null fails exactly if a list in it is too long. -/
theorem failsIf_assignValue : (v : Value) → {c : Cell} → {t u : Ty} → c.Conforms t →
    v.HasType u → t.assignable u = true → v.isNull = false →
    FailsIf (v.overlong t) (assignValue c v).1
  | .list vs, _, .array elem, _, .list ht hi hl, hu, ha, hn => by
    unfold assignValue
    -- An array first checks the length, then builds every item anew from its template.
    split
    · next hlong =>
      rw [Value.overlong, decide_eq_true hlong]
      exact ⟨rfl, _, rfl⟩
    · next hlong =>
      rw [Value.overlong, decide_eq_false hlong, Bool.false_or]
      refine FailsIf.storing (FailsIf.map (failsIf_buildItems vs ht ?_) _) _
      cases hu with
      | array h => exact fun v hv => ⟨_, h v hv, ha⟩
      | record h =>
        intro v hv
        obtain ⟨u, hu, hvu⟩ := item_types h v hv
        obtain ⟨item, hitem, rfl⟩ := List.mem_map.1 hu
        simp only [Ty.assignable, List.all_eq_true] at ha
        exact ⟨item.2, hvu, ha item hitem⟩
      | null => cases hn
      | selector => cases hn
  | .list vs, _, .record fields, _, .record h, hu, ha, hn => by
    cases hu with
    | array => simp [Ty.assignable] at ha
    | record hvs =>
      simp only [Ty.assignable] at ha
      have hall := AllAssignable.of_fields hvs ha
      unfold assignValue
      rw [if_pos (hall.length_eq.trans h.length_eq.symm)]
      exact failsIf_assignFields vs h hall
    | null => cases hn
    | selector => cases hn
  -- No other cell takes a list.
  | .list vs, _, _, _, .integer _, hu, ha, hn | .list vs, _, _, _, .real _, hu, ha, hn
  | .list vs, _, _, _, .text _, hu, ha, hn | .list vs, _, _, _, .vector _, hu, ha, hn
  | .list vs, _, _, _, .matrix _, hu, ha, hn | .list vs, _, _, _, .null, hu, ha, hn
  | .list vs, _, _, _, .selector _, hu, ha, hn => by
    cases hu <;> first
      | (cases hn)
      | simp [Ty.assignable] at ha
  | .integer _, _, _, _, hc, hu, ha, _ | .real _, _, _, _, hc, hu, ha, _
  | .vector _, _, _, _, hc, hu, ha, _ | .matrix _, _, _, _, hc, hu, ha, _
  | .text _, _, _, _, hc, hu, ha, _ => failsIf_assignAtom (by simp) hc hu ha

theorem failsIf_buildItems : (vs : List Value) → {template : Cell} → {t : Ty} →
    template.Conforms t → (∀ v ∈ vs, ∃ u, v.HasType u ∧ t.assignable u = true) →
    FailsIf (Value.overlongItems vs t) (buildItems template vs)
  | [], _, _, _, _ => rfl
  | v :: rest, template, t, hc, h => by
    obtain ⟨u, hu, ha⟩ := h v List.mem_cons_self
    have hitem := failsIf_assign_of (failsIf_assignValue v hc hu ha)
    have hrest := failsIf_buildItems rest hc fun w hw => h w (List.mem_cons_of_mem _ hw)
    rw [buildItems_cons, Value.overlongItems]
    split
    · next c hr =>
      rw [hr] at hitem
      rw [hitem, Bool.false_or]
      exact hrest.map _
    · next e c hr =>
      rw [hr] at hitem
      obtain ⟨hlong, hbound⟩ := hitem
      exact ⟨Bool.or_eq_true_iff.2 (.inl hlong), hbound⟩

theorem failsIf_assignFields : (vs : List Value) → {cs : List Cell} →
    {fields : List (String × Ty)} → AllConform cs (fields.map (·.2)) →
    AllAssignable vs (fields.map (·.2)) →
    FailsIf (Value.overlongFields vs fields) (assignFields cs vs).1
  | [], _, [], _, _ => by
    unfold assignFields
    rfl
  | _ :: _, _, [], _, h => nomatch h
  | v :: rest, c :: cs, (_, t) :: fields, .cons hc hcs, .cons hv ha hvs => by
    have hfield := failsIf_assign_of (failsIf_assignValue v hc hv ha)
    have hrest := failsIf_assignFields rest hcs hvs
    rw [assignFields_cons, Value.overlongFields]
    split
    · next d hr =>
      rw [hr] at hfield
      rw [hfield, Bool.false_or]
      exact hrest
    · next e d hr =>
      rw [hr] at hfield
      obtain ⟨hlong, hbound⟩ := hfield
      exact ⟨Bool.or_eq_true_iff.2 (.inl hlong), hbound⟩

end

/-- A store of an assignable value fails exactly if a list in it is too long, and then at a
bound. -/
theorem failsIf_assign {c : Cell} {t u : Ty} (hc : c.Conforms t) {v : Value} (hv : v.HasType u)
    (ha : t.assignable u = true) : FailsIf (v.overlong t) (c.assign v).1 :=
  failsIf_assign_of (failsIf_assignValue v hc hv ha)

theorem proceeds_assign {c : Cell} {t u : Ty} (hc : c.Conforms t) {v : Value} (hv : v.HasType u)
    (ha : t.assignable u = true) : Proceeds (c.assign v).1 :=
  (failsIf_assign hc hv ha).proceeds

/-! ## Places -/

theorem proceeds_checkIndex (i : Int32) (len : Nat) : Proceeds (checkIndex i len) := by
  unfold checkIndex
  dsimp only
  split
  · trivial
  · rfl

/-- A field of a record has the shape of its type. -/
theorem AllConform.get {cs : List Cell} {ts : List Ty} (h : AllConform cs ts) {place : Nat} {t : Ty}
    (ht : ts[place]? = some t) (hlt : place < cs.length) : (cs.get ⟨place, hlt⟩).Conforms t := by
  induction cs generalizing ts place with
  | nil => cases hlt
  | cons c cs ih =>
    cases h with
    | cons hc hcs =>
      cases place with
      | zero =>
        cases ht
        exact hc
      | succ place => exact ih hcs ht (Nat.lt_of_succ_lt_succ hlt)

end Cell

end VectorScript
