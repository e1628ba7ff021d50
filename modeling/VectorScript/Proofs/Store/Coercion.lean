import VectorScript.Proofs.Store.Shape

/-!
# Whole values

What a cell holds after a value has been stored in it as a whole is the value, brought to the cell's
type (`Value.coerce`); what the cell held before leaves no trace. The store fails at the bounds of a
list or not at all, and it fails exactly if a list in the value is too long.

    (c.assign v).1 = .ok () → (c.assign v).2.value = v.coerce t                       (value_assign)
-/

namespace VectorScript

namespace Value

mutual

/-- The value as a cell of the type takes it: integers widen where the type is real, lists are taken
item by item, and the empty list stands for the blank value of the type at its place. -/
def coerce : Value → Ty → Value
  | list [], t => t.blank
  | integer n, .real => real (widen n)
  | list vs, .array elem => list (coerceItems vs elem)
  | list vs, .record fields => list (coerceFields vs fields)
  | v, _ => v

def coerceItems : List Value → Ty → List Value
  | [], _ => []
  | v :: rest, elem => coerce v elem :: coerceItems rest elem

def coerceFields : List Value → List (String × Ty) → List Value
  | v :: rest, (_, t) :: fields => coerce v t :: coerceFields rest fields
  | _, _ => []

end

theorem coerce_null (t : Ty) : (list []).coerce t = t.blank := by
  rw [coerce]

theorem coerce_array (vs : List Value) (elem : Ty) :
    (list vs).coerce (.array elem) = list (coerceItems vs elem) := by
  cases vs <;> rfl

theorem coerce_record {vs : List Value} (hn : (list vs).isNull = false)
    (fields : List (String × Ty)) :
    (list vs).coerce (.record fields) = list (coerceFields vs fields) := by
  cases vs with
  | nil => cases hn
  | cons => rfl

end Value

namespace Cell

/-- What holds of stores that are not null holds of all stores. -/
theorem value_assign_of {v : Value} {c : Cell} {t : Ty} (hc : c.Conforms t)
    (h : v.isNull = false → (assignValue c v).1 = .ok () → (assignValue c v).2.value = v.coerce t)
    (hok : (c.assign v).1 = .ok ()) : (c.assign v).2.value = v.coerce t := by
  unfold assign at hok ⊢
  split
  · next hn =>
    rw [Value.isNull_iff.1 hn, Value.coerce_null]
    exact value_clear c hc
  · next hn =>
    rw [if_neg hn] at hok
    exact h (Bool.eq_false_iff.2 hn) hok

/-- A value that is not a list is taken by a cell of its kind, an integer by a cell for reals
too. -/
theorem value_assignAtom {v : Value} (hv : ∀ vs, v ≠ .list vs) {c : Cell} {t : Ty}
    (hc : c.Conforms t) (hok : (assignValue c v).1 = .ok ()) :
    (assignValue c v).2.value = v.coerce t := by
  cases v with
  | list vs => exact absurd rfl (hv vs)
  | _ =>
    cases hc <;> unfold assignValue at hok ⊢ <;> first
      | rfl
      | cases hok

mutual

theorem value_assignValue : (v : Value) → {c : Cell} → {t : Ty} → c.Conforms t →
    v.isNull = false → (assignValue c v).1 = .ok () → (assignValue c v).2.value = v.coerce t
  | .list vs, _, .array elem, .list ht hi hl, _, hok => by
    unfold assignValue at hok ⊢
    split at hok
    · cases hok
    · next hlong =>
      rw [if_neg hlong, Value.coerce_array]
      cases hb : buildItems _ vs with
      | error e =>
        rw [hb] at hok
        cases hok
      | ok cs => exact congrArg Value.list (values_buildItems vs ht hb)
  | .list vs, _, .record fields, .record h, hn, hok => by
    unfold assignValue at hok ⊢
    split at hok
    · next hlen =>
      rw [if_pos hlen, Value.coerce_record hn]
      exact congrArg Value.list (values_assignFields vs h hlen hok)
    · cases hok
  | .list [], _, _, _, hn, _ => nomatch hn
  -- A list that is not null suits no other cell.
  | .list (v :: vs), _, _, .integer _, _, hok | .list (v :: vs), _, _, .real _, _, hok
  | .list (v :: vs), _, _, .text _, _, hok | .list (v :: vs), _, _, .vector _, _, hok
  | .list (v :: vs), _, _, .matrix _, _, hok | .list (v :: vs), _, _, .null, _, hok
  | .list (v :: vs), _, _, .selector _, _, hok => by
    unfold assignValue at hok
    cases hok
  | .integer _, _, _, hc, _, hok | .real _, _, _, hc, _, hok
  | .vector _, _, _, hc, _, hok | .matrix _, _, _, hc, _, hok
  | .text _, _, _, hc, _, hok => value_assignAtom (by simp) hc hok

theorem values_buildItems : (vs : List Value) → {template : Cell} → {t : Ty} → {cs : List Cell} →
    template.Conforms t → buildItems template vs = .ok cs → values cs = Value.coerceItems vs t
  | [], _, _, _, _, hcs => by
    cases hcs
    rfl
  | v :: rest, template, t, cs, hc, hcs => by
    have hitem := value_assign_of hc (value_assignValue v hc)
    rw [buildItems_cons] at hcs
    split at hcs
    · next c hr =>
      obtain ⟨ds, hds, rfl⟩ := of_map_ok hcs
      rw [hr] at hitem
      rw [values, Value.coerceItems, hitem rfl, values_buildItems rest hc hds]
    · cases hcs

theorem values_assignFields : (vs : List Value) → {cs : List Cell} →
    {fields : List (String × Ty)} → AllConform cs (fields.map (·.2)) → vs.length = cs.length →
    (assignFields cs vs).1 = .ok () → values (assignFields cs vs).2 = Value.coerceFields vs fields
  | [], [], _, _, _, _ => rfl
  | v :: rest, c :: cs, (_, t) :: fields, .cons hc hcs, hlen, hok => by
    have hfield := value_assign_of hc (value_assignValue v hc)
    rw [assignFields_cons] at hok ⊢
    split at hok
    · next d hr =>
      rw [hr] at hfield
      rw [values, Value.coerceFields, hfield rfl,
        values_assignFields rest hcs (Nat.succ.inj hlen) hok]
    · cases hok

end

/-- After a store that succeeds, a cell holds the value, as a cell of its type takes it. -/
theorem value_assign {v : Value} {c : Cell} {t : Ty} (hc : c.Conforms t)
    (hok : (c.assign v).1 = .ok ()) : (c.assign v).2.value = v.coerce t :=
  value_assign_of hc (value_assignValue v hc) hok

/-- A value of an assignable type is stored as a whole unless a list in it is too long, which is the
only failure. Then the cell holds the value brought to its type, whatever it held before. -/
theorem set_exact {c : Cell} {t : Ty} {v : Value} (hc : c.TrueTo t)
    (ha : t.assignable v.ty = true) :
    (v.overlong t = true → ∃ detail, (c.set v []).1 = .error (outOfBounds detail)) ∧
      (v.overlong t = false →
        (c.set v []).1 = .ok () ∧ (c.set v []).2.value = v.coerce t) := by
  have hfails := failsIf_assign hc.conforms (Value.hasType_ty v) ha
  rw [set]
  cases hr : (c.assign v).1 with
  | ok =>
    rw [hr] at hfails
    refine ⟨fun hlong => ?_, fun _ => ⟨rfl, value_assign hc.conforms hr⟩⟩
    rw [FailsIf, hlong] at hfails
    cases hfails
  | error e =>
    rw [hr] at hfails
    obtain ⟨hlong, detail, rfl⟩ := hfails
    refine ⟨fun _ => ⟨detail, rfl⟩, fun hshort => ?_⟩
    rw [hlong] at hshort
    cases hshort

/-- A list literal with nulls goes into a record of a real, a list of reals and a text. -/
theorem set_exact_literal :
    let t : Ty := .record [("x", .real), ("m", .array .real), ("name", .text)]
    let v : Value := .list [.integer 3, .list [.integer 1, .list [], .real 2], .list []]
    let c := create t
    (c.set v []).1 = .ok () ∧
      (c.set v []).2.value =
        .list [.real (Value.widen 3), .list [.real (Value.widen 1), .real 0, .real 2],
          .text ""] := by
  intro t v c
  exact (set_exact (trueTo_create t) (v := v) (by decide)).2 rfl

end Cell

end VectorScript
