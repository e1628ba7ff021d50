import VectorScript.Proofs.Store.Assign

/-!
# Stores at an address

A path of indices leads from a type to the type of the place it names (`Ty.at?`). A store of a value
of an assignable type at such a place succeeds or fails at a bound, and the empty list resets the
place. There is one exception: inside a vector or a matrix (`Ty.inside`) the empty list is refused.

    t.at? path = some u → u.assignable s → Proceeds (c.set v path).1             (proceeds_set_at)
    (c.set .null path).1 = .ok () → (c.set .null path).2.get path = .ok u.blank      (get_set_null)
-/

namespace VectorScript

/-! ## Addresses -/

namespace Ty

/-- The type of the place at a path. Whatever the index, a vector has components, a matrix columns
and an array items; a record has the fields that it has. -/
def at? : Ty → List Int32 → Option Ty
  | t, [] => some t
  | record fields, i :: rest =>
    if 0 ≤ i.toInt then fields[i.toInt.toNat]?.bind fun field => at? field.2 rest else none
  | t, _ :: rest => t.element?.bind fun u => at? u rest

/-- Whether a path ends below a vector or a matrix. -/
def inside : Ty → List Int32 → Bool
  | vector, _ :: _ | matrix, _ :: _ => true
  | array elem, _ :: rest => inside elem rest
  | record fields, i :: rest =>
    match fields[i.toInt.toNat]? with
    | some field => inside field.2 rest
    | none => false
  | _, _ => false

mutual

/-- What the empty list makes of a place: zero, the empty text, the identity matrix, no items, and
the same for every field of a record. -/
def blank : Ty → Value
  | integer => .integer 0
  | real => .real 0
  | text => .text ""
  | vector => .vector .zero
  | matrix => .matrix .identity
  | record fields => .list (blanks fields)
  | array _ | null | selector _ => .list []

def blanks : List (String × Ty) → List Value
  | [] => []
  | (_, t) :: rest => blank t :: blanks rest

end

variable {t u : Ty} {i : Int32} {rest : List Int32}

/-- Only vectors, matrices, arrays and records have places below them. -/
theorem holder_of_at? (h : t.at? (i :: rest) = some u) :
    t = vector ∨ t = matrix ∨ (∃ elem, t = array elem) ∨ ∃ fields, t = record fields := by
  cases t with
  | vector => exact .inl rfl
  | matrix => exact .inr (.inl rfl)
  | array elem => exact .inr (.inr (.inl ⟨elem, rfl⟩))
  | record fields => exact .inr (.inr (.inr ⟨fields, rfl⟩))
  | integer | real | text | null | selector => cases h

theorem at?_record {fields : List (String × Ty)} (h : (record fields).at? (i :: rest) = some u) :
    0 ≤ i.toInt ∧ ∃ name t, fields[i.toInt.toNat]? = some (name, t) ∧ t.at? rest = some u := by
  unfold at? at h
  split at h
  · next hi =>
    obtain ⟨field, hfield, hu⟩ := Option.bind_eq_some_iff.1 h
    exact ⟨hi, field.1, field.2, hfield, hu⟩
  · cases h

/-- There is nothing below a component. -/
theorem at?_vector (h : vector.at? (i :: rest) = some u) : rest = [] ∧ u = real := by
  cases rest with
  | nil =>
    cases h
    exact ⟨rfl, rfl⟩
  | cons => cases h

theorem at?_matrix (h : matrix.at? (i :: rest) = some u) :
    (rest = [] ∧ u = vector) ∨ ∃ row, rest = [row] ∧ u = real := by
  cases rest with
  | nil =>
    cases h
    exact .inl ⟨rfl, rfl⟩
  | cons row rest =>
    have hrow : vector.at? (row :: rest) = some u := h
    obtain ⟨rfl, rfl⟩ := at?_vector hrow
    exact .inr ⟨row, rfl, rfl⟩

end Ty

/-- A value is null by its type only if it is the empty list. -/
theorem Value.HasType.ne_null {v : Value} {s : Ty} (hv : v.HasType s) (hn : v.isNull = false) :
    s ≠ .null := by
  rintro rfl
  cases hv
  cases hn

namespace Cell

/-! ## Reset cells -/

mutual

/-- A cleared cell holds the blank value of its type. -/
theorem value_clear : (c : Cell) → {t : Ty} → c.Conforms t → c.clear.value = t.blank
  | .integer _, _, .integer _ => rfl
  | .real _, _, .real _ => rfl
  | .text _, _, .text _ => rfl
  | .vector _, _, .vector _ => rfl
  | .matrix _, _, .matrix _ => rfl
  | .list _ _, _, .list _ _ _ => rfl
  | .record cells, .record fields, .record h => congrArg Value.list (values_clearAll cells fields h)
  | .record [], _, .null => rfl
  | .record [], _, .selector _ => rfl

theorem values_clearAll : (cs : List Cell) → (fields : List (String × Ty)) →
    AllConform cs (fields.map (·.2)) → values (clearAll cs) = Ty.blanks fields
  | [], [], _ => rfl
  | c :: cs, (_, _) :: fields, .cons hc hcs => by
    rw [clearAll, values, value_clear c hc, values_clearAll cs fields hcs, Ty.blanks]

end

/-! ## One step of a path -/

/-- At the index, both stores and reads go on in the cell `d`. -/
structure Descends (c : Cell) (i : Int32) (d : Cell) : Prop where
  outcome (v : Value) (rest : List Int32) : (c.set v (i :: rest)).1 = (d.set v rest).1
  after (v : Value) (rest : List Int32) :
    (c.set v (i :: rest)).2.get (i :: rest) = (d.set v rest).2.get rest
  before (rest : List Int32) (x : Value) (h : c.get (i :: rest) = .ok x) : d.get rest = .ok x

/-- At the index there is no place. -/
structure Bounded (c : Cell) (i : Int32) : Prop where
  outcome (v : Value) (rest : List Int32) :
    ∃ detail, (c.set v (i :: rest)).1 = .error (outOfBounds detail)
  before (rest : List Int32) (x : Value) : c.get (i :: rest) ≠ .ok x

theorem checkIndex_eq_ok {i : Int32} {len : Nat} {n : Fin len} :
    checkIndex i len = .ok n ↔ 0 ≤ i.toInt ∧ i.toInt.toNat = n := by
  unfold checkIndex
  dsimp only
  constructor
  · intro h
    split at h
    · next hi =>
      cases h
      exact ⟨hi.1, rfl⟩
    · cases h
  · rintro ⟨hi, hn⟩
    rw [dif_pos ⟨hi, hn ▸ n.isLt⟩]
    exact congrArg Except.ok (Fin.ext hn)

theorem checkIndex_cases (i : Int32) (len : Nat) :
    (∃ n, checkIndex i len = .ok n) ∨ ∃ detail, checkIndex i len = .error (outOfBounds detail) := by
  unfold checkIndex
  dsimp only
  split
  · exact .inl ⟨_, rfl⟩
  · exact .inr ⟨_, rfl⟩

/-- An index that is good for a list is good for one that is at least as long. -/
theorem checkIndex_mono {i : Int32} {len len' : Nat} {n : Fin len} (h : checkIndex i len = .ok n)
    (hlt : n < len') : checkIndex i len' = .ok ⟨n, hlt⟩ :=
  let ⟨hi, hn⟩ := checkIndex_eq_ok.1 h
  checkIndex_eq_ok.2 ⟨hi, hn⟩

theorem conforms_getD_grow {template : Cell} {items : List Cell} {t : Ty}
    (ht : template.Conforms t) (hi : ∀ c ∈ items, c.Conforms t) (n : Nat) :
    ((grow template items n).getD n template).Conforms t := by
  rw [List.getD_eq_getElem?_getD]
  cases hget : (grow template items n)[n]? with
  | none => exact ht
  | some c => exact conforms_grow ht hi n c (List.mem_of_getElem? hget)

/-- A list does not grow for an item that it has. -/
theorem getD_grow {template : Cell} {items : List Cell} {n : Nat} (h : n < items.length) :
    (grow template items n).getD n template = items[n] := by
  unfold grow
  rw [List.getD_eq_getElem?_getD, List.getElem?_append_left h, List.getElem?_eq_getElem h,
    Option.getD_some]

/-- A list takes an index up to its greatest length; it grows to reach it. -/
theorem step_list {template : Cell} {items : List Cell} {t : Ty} (ht : template.Conforms t)
    (hi : ∀ c ∈ items, c.Conforms t) (hl : items.length ≤ maxItems) (i : Int32) :
    (list template items).Bounded i ∨ ∃ d, d.Conforms t ∧ (list template items).Descends i d := by
  rcases checkIndex_cases i maxItems with ⟨n, hn⟩ | ⟨detail, herr⟩
  · right
    have hlen : n < (grow template items n).length := by
      rw [length_grow]
      omega
    refine ⟨(grow template items n).getD n template, conforms_getD_grow ht hi n, fun v rest => ?_,
      fun v rest => ?_, fun rest x h => ?_⟩
    · rw [set, hn]
    · rw [set, hn]
      dsimp only
      rw [get, checkIndex_mono hn (by rwa [List.length_set])]
      simp [bind, Except.bind]
    -- A part that can be read is an item of the list before it grows.
    · rw [get] at h
      rcases checkIndex_cases i items.length with ⟨m, hm⟩ | ⟨_, herr⟩
      · have hnm : n.val = m.val := (checkIndex_eq_ok.1 hn).2.symm.trans (checkIndex_eq_ok.1 hm).2
        rw [hm] at h
        rw [hnm, getD_grow m.isLt]
        exact h
      · rw [herr] at h
        cases h
  · left
    refine ⟨fun v rest => ⟨detail, by rw [set, herr]⟩, fun rest x h => ?_⟩
    rw [get] at h
    rcases checkIndex_cases i items.length with ⟨m, hm⟩ | ⟨_, herr'⟩
    · rw [checkIndex_mono hm (by omega)] at herr
      cases herr
    · rw [herr'] at h
      cases h

/-- A record has exactly the fields of its type. -/
theorem step_record {cells : List Cell} {i : Int32} (h : i.toInt.toNat < cells.length)
    (hi : 0 ≤ i.toInt) : (record cells).Descends i cells[i.toInt.toNat] := by
  have hindex : checkIndex i cells.length = .ok ⟨i.toInt.toNat, h⟩ := checkIndex_eq_ok.2 ⟨hi, rfl⟩
  refine ⟨fun v rest => ?_, fun v rest => ?_, fun rest x hx => ?_⟩
  · rw [set, hindex]
    rfl
  · rw [set, hindex]
    dsimp only
    rw [get, checkIndex_mono hindex (by rwa [List.length_set])]
    simp [bind, Except.bind]
  · rw [get, hindex] at hx
    exact hx

variable {c : Cell} {t u : Ty} {i : Int32} {rest : List Int32}

/-- A path goes on in a cell of the next type, unless the index names no place; or it ends in the
components of a vector or a matrix. -/
theorem step_at (hc : c.Conforms t) (hu : t.at? (i :: rest) = some u) :
    (t = .vector ∨ t = .matrix) ∨ c.Bounded i ∨
      ∃ d w, d.Conforms w ∧ w.at? rest = some u ∧ t.inside (i :: rest) = w.inside rest ∧
        c.Descends i d := by
  rcases Ty.holder_of_at? hu with rfl | rfl | ⟨elem, rfl⟩ | ⟨fields, rfl⟩
  · exact .inl (.inl rfl)
  · exact .inl (.inr rfl)
  · right
    cases hc with
    | list ht hi hl =>
      rcases step_list ht hi hl i with hb | ⟨d, hd, hdesc⟩
      · exact .inl hb
      · exact .inr ⟨d, elem, hd, hu, rfl, hdesc⟩
  · right
    right
    obtain ⟨hi, name, w, hfield, hw⟩ := Ty.at?_record hu
    cases hc with
    | record h =>
      have hplace : (fields.map (·.2))[i.toInt.toNat]? = some w := by
        rw [List.getElem?_map, hfield, Option.map_some]
      have hlt := (List.getElem?_eq_some_iff.1 hplace).1
      rw [← h.length_eq] at hlt
      refine ⟨_, w, h.get hplace hlt, hw, ?_, step_record hlt hi⟩
      rw [Ty.inside, hfield]

/-! ## Values that are not null -/

/-- Components of a vector take numbers. -/
theorem proceeds_setVector {v : Value} (hv : v.Suits .real) (w : Vec4) (i : Int32) :
    Proceeds (setVector w v i []) :=
  hv.asReal.bind fun _ _ => (proceeds_checkIndex i 4).bind fun _ _ => trivial

/-- Columns of a matrix take vectors, its elements numbers. -/
theorem proceeds_setMatrix {v : Value} (hu : Ty.matrix.at? (i :: rest) = some u) (hv : v.Suits u)
    (m : Mat4) : Proceeds (setMatrix m v i rest) := by
  rcases Ty.at?_matrix hu with ⟨rfl, rfl⟩ | ⟨row, rfl, rfl⟩
  · exact (proceeds_checkIndex i 4).bind fun _ _ => hv.asVector.bind fun _ _ => trivial
  · exact (proceeds_checkIndex i 4).bind fun _ _ => hv.asReal.bind fun _ _ =>
      (proceeds_checkIndex row 4).bind fun _ _ => trivial

/-- A store of an assignable value succeeds or fails at a bound, unless it puts null inside a vector
or a matrix. -/
theorem proceeds_set_at {path : List Int32} {v : Value} {s : Ty} (hc : c.Conforms t)
    (hu : t.at? path = some u) (hv : v.HasType s) (ha : u.assignable s = true)
    (hn : t.inside path = true → s ≠ .null) : Proceeds (c.set v path).1 := by
  induction path generalizing c t with
  | nil =>
    cases hu
    unfold set
    exact proceeds_assign hc hv ha
  | cons i rest ih =>
    rcases step_at hc hu with ht | hb | ⟨d, w, hd, hw, hin, hdesc⟩
    · have hsuits : v.Suits u := ⟨s, hv, ha, hn (by rcases ht with rfl | rfl <;> rfl)⟩
      rcases ht with rfl | rfl
      · obtain ⟨rfl, rfl⟩ := Ty.at?_vector hu
        cases hc with
        | vector x =>
          unfold set
          exact proceeds_storing ((proceeds_setVector hsuits x i).map fun _ _ => trivial) _
      · cases hc with
        | matrix m =>
          unfold set
          exact proceeds_storing ((proceeds_setMatrix hu hsuits m).map fun _ _ => trivial) _
    · obtain ⟨detail, herr⟩ := hb.outcome v rest
      rw [herr]
      rfl
    · rw [hdesc.outcome]
      exact ih hd hw fun h => hn (hin ▸ h)

/-! ## Paths of a tree -/

/-- The place of a field fits an integer. -/
theorem toInt_place {fields : List (String × Ty)} (hsmall : (Ty.record fields).Small) {place : Nat}
    {name : String} {w : Ty} (hf : fields[place]? = some (name, w)) :
    (Int32.ofNat place).toInt = place := by
  have hlt := (List.getElem?_eq_some_iff.1 hf).1
  have hlen := hsmall.1
  exact Int32.toInt_ofNat_of_lt (by omega)

/-- The path that a well typed target takes leads to a place of the target's type. -/
theorem at?_of_path {Γ : Signature} {target : Ty} {path : List Expr}
    (hp : Expr.Path Γ t path target) (hsmall : t.Small) {is : List Int32}
    (his : Expr.Traces path is) : t.at? is = some target := by
  induction hp generalizing is with
  | here t =>
    cases his
    cases t <;> rfl
  | index he ht hrest ih =>
    rename_i t w _ _ _
    cases his with
    | cons _ his =>
      have hw : w.Small := by
        cases t <;> cases ht
        all_goals exact hsmall
      have := ih hw his
      cases t <;> cases ht <;> exact this
  | @field fields place name w _ _ hf hrest ih =>
    cases his with
    | @cons _ i _ is hlit his =>
      rw [hlit _ rfl, Ty.at?, toInt_place hsmall hf, if_pos (Int.natCast_nonneg place),
        Int.toNat_natCast, hf]
      exact ih (hsmall.2.get hf) his

/-- The path ends below a vector or a matrix if its trace does. -/
theorem inside_of_path {Γ : Signature} {target : Ty} {path : List Expr}
    (hp : Expr.Path Γ t path target) (hsmall : t.Small) {is : List Int32}
    (his : Expr.Traces path is) (hin : t.inside is = true) : Expr.Inside t path := by
  induction hp generalizing is with
  | here t =>
    cases his
    cases t <;> cases hin
  | @index t w target e rest he ht hrest ih =>
    cases his with
    | @cons _ i _ is hlit his =>
      cases t with
      -- A vector ends the path here, a matrix here or at the next step.
      | vector =>
        cases ht
        cases hrest with
        | here => exact .here (.inl rfl)
        | index _ ht _ => cases ht
      | matrix =>
        cases ht
        cases hrest with
        | here => exact .here (.inr rfl)
        | index _ ht hrest =>
          cases ht
          cases hrest with
          | here => exact .index rfl (.here (.inl rfl))
          | index _ ht _ => cases ht
      | array elem =>
        cases ht
        exact .index rfl (ih hsmall his hin)
      | _ => cases ht
  | @field fields place name w _ _ hf hrest ih =>
    cases his with
    | @cons _ i _ is hlit his =>
      rw [hlit _ rfl, Ty.inside, toInt_place hsmall hf, Int.toNat_natCast, hf] at hin
      exact .field hf (ih (hsmall.2.get hf) his hin)

/-- A store along a typed path succeeds or fails at a bound, unless it puts null inside a vector or
a matrix. -/
theorem proceeds_set {Γ : Signature} {target : Ty} {path : List Expr}
    (hp : Expr.Path Γ t path target) (hc : c.Conforms t) (hsmall : t.Small) {is : List Int32}
    (his : Expr.Traces path is) {v : Value} {s : Ty} (hv : v.HasType s)
    (ha : target.assignable s = true) (hn : Expr.Inside t path → s ≠ .null) :
    Proceeds (c.set v is).1 :=
  proceeds_set_at hc (at?_of_path hp hsmall his) hv ha fun h =>
    hn (inside_of_path hp hsmall his h)

end Cell

/-! ## Null -/

/-- There is no result, because a value had the wrong shape. -/
def Refuses {α : Type} (x : Except Fault α) : Prop :=
  ∃ e, x = .error e ∧ e.cause = .internalError

namespace Refuses

variable {α β : Type}

theorem bind {x : Except Fault α} (h : Refuses x) (f : α → Except Fault β) :
    Refuses (x >>= f) := by
  obtain ⟨e, rfl, he⟩ := h
  exact ⟨e, rfl, he⟩

theorem ne_ok {x : Except Fault α} (h : Refuses x) (a : α) : x ≠ .ok a := by
  obtain ⟨e, rfl, -⟩ := h
  intro h
  cases h

end Refuses

namespace Cell

variable {c : Cell} {t u : Ty} {path : List Int32}

theorem assign_null (c : Cell) : c.assign (.list []) = (.ok (), c.clear) :=
  if_pos rfl

/-- Outside vectors and matrices null resets the place, if there is one. -/
theorem get_set_null (hc : c.Conforms t) (hu : t.at? path = some u)
    (hn : t.inside path = false) :
    (∀ x, c.get path = .ok x → (c.set (.list []) path).1 = .ok ()) ∧
      ((c.set (.list []) path).1 = .ok () →
        (c.set (.list []) path).2.get path = .ok u.blank) := by
  induction path generalizing c t with
  | nil =>
    cases hu
    rw [set, assign_null]
    refine ⟨fun _ _ => rfl, fun _ => ?_⟩
    rw [get, value_clear c hc]
  | cons i rest ih =>
    rcases step_at hc hu with ht | hb | ⟨d, w, hd, hw, hin, hdesc⟩
    · rcases ht with rfl | rfl <;> cases hn
    · obtain ⟨detail, herr⟩ := hb.outcome (.list []) rest
      refine ⟨fun x hx => absurd hx (hb.before rest x), fun h => ?_⟩
      rw [herr] at h
      cases h
    · rw [hdesc.outcome, hdesc.after]
      obtain ⟨hok, hget⟩ := ih hd hw (hin ▸ hn)
      exact ⟨fun x hx => hok x (hdesc.before rest x hx), hget⟩

/-- Inside a vector or a matrix null is refused, unless the place is not there at all. -/
theorem refuses_set_null (hc : c.Conforms t) (hu : t.at? path = some u)
    (hn : t.inside path = true) :
    (∀ x, c.get path = .ok x → Refuses (c.set (.list []) path).1) ∧
      (c.set (.list []) path).1 ≠ .ok () := by
  induction path generalizing c t with
  | nil => cases t <;> cases hn
  | cons i rest ih =>
    rcases step_at hc hu with ht | hb | ⟨d, w, hd, hw, hin, hdesc⟩
    · rcases ht with rfl | rfl
      · obtain ⟨rfl, rfl⟩ := Ty.at?_vector hu
        cases hc with
        | vector x =>
          have h : Refuses ((vector x).set (.list []) [i]).1 := ⟨_, rfl, rfl⟩
          exact ⟨fun _ _ => h, h.ne_ok ()⟩
      · cases hc with
        | matrix m =>
          rcases checkIndex_cases i 4 with ⟨n, hi⟩ | ⟨detail, hi⟩
          · have h : Refuses ((matrix m).set (.list []) (i :: rest)).1 := by
              rw [set, setMatrix, hi]
              rcases Ty.at?_matrix hu with ⟨rfl, rfl⟩ | ⟨row, rfl, rfl⟩
              · exact ⟨_, rfl, rfl⟩
              · exact ⟨_, rfl, rfl⟩
            exact ⟨fun _ _ => h, h.ne_ok ()⟩
          · rw [get, getMatrix, set, setMatrix, hi]
            constructor
            · intro x hx
              cases hx
            · intro h
              cases h
    -- The index is out of bounds, so there is nothing at the place.
    · obtain ⟨detail, herr⟩ := hb.outcome (.list []) rest
      refine ⟨fun x hx => absurd hx (hb.before rest x), fun h => ?_⟩
      rw [herr] at h
      cases h
    · rw [hdesc.outcome]
      obtain ⟨hrefuses, hne⟩ := ih hd hw (hin ▸ hn)
      exact ⟨fun x hx => hrefuses x (hdesc.before rest x hx), hne⟩

end Cell

end VectorScript
