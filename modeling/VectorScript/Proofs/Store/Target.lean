import VectorScript.Proofs.Store.Coercion

/-!
# The target of a store

The components of a vector, the columns of a matrix, the items of a list and the fields of a record
are cells below a cell (`Cell.parts`). A path is read part by part, and a store along it goes on in
one part and leaves the others where they are (`Cell.Enters`); only a list may get more of them
first. So a store that succeeds can be read back at its path, places on paths that part from it stay
as they were even if it fails, and a list that grows keeps its items and has fresh ones in between.

    (c.set v path).1 = .ok () → (c.set v path).2.get path = .ok (v.coerce u)               (get_set)
    Apart path q → c.get q = .ok x → (c.set v path).2.get q = .ok x                  (get_set_apart)
-/

namespace VectorScript

namespace Cell

/-! ## Parts -/

/-- The cells that one more index of a path leads to. -/
def parts : Cell → List Cell
  | vector v => v.toList.map real
  | matrix m => m.columns.map vector
  | list _ items => items
  | record fields => fields
  | integer _ | real _ | text _ => []

theorem parts_vector {w : Vec4} {n : Nat} {d : Cell} :
    (vector w).parts[n]? = some d ↔ ∃ h : n < 4, d = real (w.get ⟨n, h⟩) := by
  match n with
  | 0 | 1 | 2 | 3 => simp [parts, Vec4.toList, Vec4.get, eq_comm]
  | k + 4 => exact ⟨nofun, fun ⟨h, _⟩ => absurd h (by omega)⟩

theorem parts_vector_set (w : Vec4) (n : Fin 4) (s : Float32) :
    (vector (w.set n s)).parts = (vector w).parts.set n (real s) := by
  match n with
  | 0 | 1 | 2 | 3 => rfl

theorem parts_matrix {m : Mat4} {n : Nat} {d : Cell} :
    (matrix m).parts[n]? = some d ↔ ∃ h : n < 4, d = vector (m.get ⟨n, h⟩) := by
  match n with
  | 0 | 1 | 2 | 3 => simp [parts, Mat4.columns, Mat4.get, eq_comm]
  | k + 4 => exact ⟨nofun, fun ⟨h, _⟩ => absurd h (by omega)⟩

theorem parts_matrix_set (m : Mat4) (n : Fin 4) (w : Vec4) :
    (matrix (m.set n w)).parts = (matrix m).parts.set n (vector w) := by
  match n with
  | 0 | 1 | 2 | 3 => rfl

/-! ## Reading part by part -/

variable {c d : Cell} {t u : Ty} {i j : Int32} {rest q : List Int32} {v x : Value} {n : Nat}

/-- What a list or a record has at an index. -/
theorem bind_get_eq_ok {cells : List Cell} :
    (checkIndex i cells.length >>= fun n => (cells.get n).get rest) = .ok x ↔
      0 ≤ i.toInt ∧ ∃ d, cells[i.toInt.toNat]? = some d ∧ d.get rest = .ok x := by
  constructor
  · intro hx
    obtain ⟨⟨_, h⟩, hn, hx⟩ := Stmt.of_bind_ok hx
    obtain ⟨hi, rfl⟩ := checkIndex_eq_ok.1 hn
    exact ⟨hi, _, List.getElem?_eq_getElem h, hx⟩
  · rintro ⟨hi, d, hd, hx⟩
    obtain ⟨h, rfl⟩ := List.getElem?_eq_some_iff.1 hd
    have hn : checkIndex i cells.length = .ok ⟨_, h⟩ := checkIndex_eq_ok.2 ⟨hi, rfl⟩
    rw [hn]
    exact hx

theorem getVector_eq_ok {w : Vec4} : getVector w i rest = .ok x ↔
    0 ≤ i.toInt ∧ ∃ d, (vector w).parts[i.toInt.toNat]? = some d ∧ d.get rest = .ok x := by
  cases rest with
  | nil =>
    constructor
    · intro hx
      obtain ⟨⟨_, h⟩, hn, rfl⟩ := of_map_ok hx
      obtain ⟨hi, rfl⟩ := checkIndex_eq_ok.1 hn
      exact ⟨hi, _, parts_vector.2 ⟨h, rfl⟩, by rw [get, value]⟩
    · rintro ⟨hi, d, hd, hx⟩
      obtain ⟨h, rfl⟩ := parts_vector.1 hd
      have hn : checkIndex i 4 = .ok ⟨_, h⟩ := checkIndex_eq_ok.2 ⟨hi, rfl⟩
      rw [getVector, hn]
      exact hx
  | cons =>
    -- there is nothing below a component
    constructor
    · intro hx
      cases hx
    · rintro ⟨-, d, hd, hx⟩
      obtain ⟨_, rfl⟩ := parts_vector.1 hd
      cases hx

theorem getMatrix_eq_ok {m : Mat4} : getMatrix m i rest = .ok x ↔
    0 ≤ i.toInt ∧ ∃ d, (matrix m).parts[i.toInt.toNat]? = some d ∧ d.get rest = .ok x := by
  constructor
  · intro hx
    obtain ⟨⟨_, h⟩, hn, hx⟩ := Stmt.of_bind_ok hx
    obtain ⟨hi, rfl⟩ := checkIndex_eq_ok.1 hn
    refine ⟨hi, _, parts_matrix.2 ⟨h, rfl⟩, ?_⟩
    rcases rest with - | ⟨row, - | ⟨_, _⟩⟩
    · exact hx
    · exact hx
    · cases hx
  · rintro ⟨hi, d, hd, hx⟩
    obtain ⟨h, rfl⟩ := parts_matrix.1 hd
    have hn : checkIndex i 4 = .ok ⟨_, h⟩ := checkIndex_eq_ok.2 ⟨hi, rfl⟩
    rw [getMatrix, hn]
    rcases rest with - | ⟨row, - | ⟨_, _⟩⟩
    · exact hx
    · exact hx
    · cases hx

/-- What is read along a path is read in the part that its first index leads to. -/
theorem get_cons_eq_ok : c.get (i :: rest) = .ok x ↔
    0 ≤ i.toInt ∧ ∃ d, c.parts[i.toInt.toNat]? = some d ∧ d.get rest = .ok x := by
  cases c with
  | vector w =>
    rw [get]
    exact getVector_eq_ok
  | matrix m =>
    rw [get]
    exact getMatrix_eq_ok
  | list template items =>
    rw [get]
    exact bind_get_eq_ok
  | record fields =>
    rw [get]
    exact bind_get_eq_ok
  | integer | real | text =>
    constructor
    · intro hx
      cases hx
    · rintro ⟨-, d, hd, -⟩
      cases hd

/-! ## Storing in one part -/

/-- The parts, with those that a list makes to reach an index. -/
def reach (c : Cell) (n : Nat) : List Cell :=
  match c with
  | list template items => grow template items n
  | c => c.parts

/-- The store goes on in the part `d`, which then takes its place again. -/
structure Enters (c : Cell) (v : Value) (i : Int32) (rest : List Int32) (d : Cell) : Prop where
  index : 0 ≤ i.toInt
  there : (c.reach i.toInt.toNat)[i.toInt.toNat]? = some d
  outcome : (c.set v (i :: rest)).1 = (d.set v rest).1
  later : (c.set v (i :: rest)).2.parts =
    (c.reach i.toInt.toNat).set i.toInt.toNat (d.set v rest).2

theorem set_real {w s : Float32} (hs : v.asReal = .ok s) :
    (real w).set v [] = (.ok (), real s) := by
  cases v <;> cases hs <;> rfl

theorem set_vector {w s : Vec4} (hs : v.asVector = .ok s) :
    (vector w).set v [] = (.ok (), vector s) := by
  cases v <;> cases hs
  rfl

/-- A vector takes a component if it has the place. -/
theorem set_component {w : Vec4} {n : Fin 4} {s : Float32} (hs : v.asReal = .ok s)
    (hn : checkIndex i 4 = .ok n) :
    (vector w).set v [i] = (.ok (), vector (w.set n s)) := by
  rw [set, setVector, hs]
  simp [hn, storing, Except.map, bind, Except.bind, pure, Except.pure]

theorem enters_vector {w w' : Vec4} (h : setVector w v i rest = .ok w') :
    ∃ d, (vector w).Enters v i rest d := by
  cases rest with
  | nil =>
    obtain ⟨s, hs, h⟩ := Stmt.of_bind_ok h
    obtain ⟨⟨_, hlt⟩, hn, -⟩ := Stmt.of_bind_ok h
    have hset := set_component hs hn (w := w)
    obtain ⟨hi, rfl⟩ := checkIndex_eq_ok.1 hn
    refine ⟨real (w.get ⟨_, hlt⟩), hi, parts_vector.2 ⟨hlt, rfl⟩, ?_, ?_⟩
    · rw [hset, set_real hs]
    · rw [hset, set_real hs]
      exact parts_vector_set w ⟨_, hlt⟩ s
  | cons => cases h

theorem enters_matrix {m m' : Mat4} (h : setMatrix m v i rest = .ok m') :
    ∃ d, (matrix m).Enters v i rest d := by
  have hset : (matrix m).set v (i :: rest) = (.ok (), matrix m') := by
    rw [set, h]
    rfl
  obtain ⟨⟨_, hlt⟩, hn, h⟩ := Stmt.of_bind_ok h
  obtain ⟨hi, rfl⟩ := checkIndex_eq_ok.1 hn
  obtain ⟨w, hcolumn, rfl⟩ : ∃ w, (vector (m.get ⟨_, hlt⟩)).set v rest = (.ok (), vector w) ∧
      m' = m.set ⟨_, hlt⟩ w := by
    rcases rest with - | ⟨row, - | ⟨_, _⟩⟩
    · obtain ⟨s, hs, h⟩ := Stmt.of_bind_ok h
      cases h
      exact ⟨s, set_vector hs, rfl⟩
    · obtain ⟨s, hs, h⟩ := Stmt.of_bind_ok h
      obtain ⟨n, hrow, h⟩ := Stmt.of_bind_ok h
      cases h
      exact ⟨_, set_component hs hrow, rfl⟩
    · cases h
  refine ⟨vector (m.get ⟨_, hlt⟩), hi, parts_matrix.2 ⟨hlt, rfl⟩, ?_, ?_⟩
  · rw [hset, hcolumn]
  · rw [hset, hcolumn]
    exact parts_matrix_set m ⟨_, hlt⟩ w

/-- A store below an index fails and changes nothing, or it goes on in one part. -/
theorem set_cons (c : Cell) (v : Value) (i : Int32) (rest : List Int32) :
    (∃ e, c.set v (i :: rest) = (.error e, c)) ∨ ∃ d, c.Enters v i rest d := by
  cases c with
  | integer | real | text => exact .inl ⟨_, rfl⟩
  | vector w =>
    cases h : setVector w v i rest with
    | error e => exact .inl ⟨e, by rw [set, h]; rfl⟩
    | ok w' => exact .inr (enters_vector h)
  | matrix m =>
    cases h : setMatrix m v i rest with
    | error e => exact .inl ⟨e, by rw [set, h]; rfl⟩
    | ok m' => exact .inr (enters_matrix h)
  | list template items =>
    rcases checkIndex_cases i maxItems with ⟨⟨_, hlt⟩, hn⟩ | ⟨_, herr⟩
    · right
      obtain ⟨hi, rfl⟩ := checkIndex_eq_ok.1 hn
      refine ⟨_, hi, getElem?_grow template items _, ?_, ?_⟩
      · rw [set, hn]
      · rw [set, hn]
        rfl
    · exact .inl ⟨_, by rw [set, herr]⟩
  | record fields =>
    rcases checkIndex_cases i fields.length with ⟨⟨_, hlt⟩, hn⟩ | ⟨_, herr⟩
    · right
      obtain ⟨hi, rfl⟩ := checkIndex_eq_ok.1 hn
      refine ⟨fields[i.toInt.toNat], hi, List.getElem?_eq_getElem hlt, ?_, ?_⟩
      · rw [set, hn]
        rfl
      · rw [set, hn]
        rfl
    · exact .inl ⟨_, by rw [set, herr]⟩

/-- A list keeps what it has when it is made longer. -/
theorem reach_of_parts (h : c.parts[n]? = some d) (m : Nat) : (c.reach m)[n]? = some d := by
  cases c with
  | list template items =>
    have hlt := (List.getElem?_eq_some_iff.1 h).1
    exact (List.getElem?_append_left hlt).trans h
  | _ => exact h

namespace Enters

/-- The part that was stored in is read at the index afterwards. -/
theorem get_same (h : c.Enters v i rest d) (q : List Int32) (x : Value) :
    (c.set v (i :: rest)).2.get (i :: q) = .ok x ↔ (d.set v rest).2.get q = .ok x := by
  have hlt := (List.getElem?_eq_some_iff.1 h.there).1
  rw [get_cons_eq_ok, h.later, List.getElem?_set_self hlt]
  simp [h.index]

/-- The other parts are read as before. -/
theorem get_other (h : c.Enters v i rest d) (hij : i ≠ j) (hx : c.get (j :: q) = .ok x) :
    (c.set v (i :: rest)).2.get (j :: q) = .ok x := by
  obtain ⟨hj, p, hp, hx⟩ := get_cons_eq_ok.1 hx
  have hne : i.toInt.toNat ≠ j.toInt.toNat := fun heq => by
    have := h.index
    exact hij (Int32.toInt_inj.1 (by omega))
  rw [get_cons_eq_ok, h.later, List.getElem?_set_ne hne]
  exact ⟨hj, p, reach_of_parts hp _, hx⟩

/-- What is read at the index before is read in the part. -/
theorem get_before (h : c.Enters v i rest d) (hx : c.get (i :: q) = .ok x) : d.get q = .ok x := by
  obtain ⟨-, p, hp, hx⟩ := get_cons_eq_ok.1 hx
  obtain rfl : p = d := Option.some.inj ((reach_of_parts hp _).symm.trans h.there)
  exact hx

end Enters

/-! ## Paths that part -/

/-- The paths part: at a place that both have, their indices differ. -/
def Apart (p q : List Int32) : Prop :=
  ∃ (k : Nat) (i j : Int32), p[k]? = some i ∧ q[k]? = some j ∧ i ≠ j

theorem Apart.cons_left {path : List Int32} (h : Apart (i :: rest) path) :
    ∃ j q, path = j :: q ∧ (i = j → Apart rest q) := by
  obtain ⟨k, a, b, ha, hb, hne⟩ := h
  cases path with
  | nil => cases hb
  | cons j q =>
    refine ⟨j, q, rfl, fun hij => ?_⟩
    cases k with
    | zero =>
      cases ha
      cases hb
      exact absurd hij hne
    | succ k => exact ⟨k, a, b, ha, hb, hne⟩

/-- A place on a path that parts from the path of a store stays as it was, even if the store
fails. -/
theorem get_set_apart {path : List Int32} (h : Apart path q) (hx : c.get q = .ok x) :
    (c.set v path).2.get q = .ok x := by
  induction path generalizing c q with
  | nil =>
    obtain ⟨_, _, _, hi, -⟩ := h
    cases hi
  | cons i rest ih =>
    obtain ⟨j, q, rfl, hrest⟩ := h.cons_left
    rcases set_cons c v i rest with ⟨e, he⟩ | ⟨d, hd⟩
    · rw [he]
      exact hx
    · by_cases hij : i = j
      · subst hij
        exact (hd.get_same q x).2 (ih (hrest rfl) (hd.get_before hx))
      · exact hd.get_other hij hx

/-! ## Parts of typed cells -/

theorem AllTrue.get {cs : List Cell} {ts : List Ty} (h : AllTrue cs ts) (hd : cs[n]? = some d) :
    ∃ t, ts[n]? = some t ∧ d.TrueTo t := by
  induction cs generalizing ts n with
  | nil => cases hd
  | cons c cs ih =>
    cases h with
    | cons hc hcs =>
      cases n with
      | zero =>
        cases hd
        exact ⟨_, rfl, hc⟩
      | succ n =>
        obtain ⟨t, ht, hd⟩ := ih hcs hd
        exact ⟨t, ht, hd⟩

/-- A part that is stored in is true to the type of its place. It was there before, or it is
fresh. -/
theorem Enters.typed (h : c.Enters v i rest d) (hc : c.TrueTo t) :
    ∃ w, d.TrueTo w ∧ (∀ p, t.at? (i :: p) = w.at? p) ∧
      (c.parts[i.toInt.toNat]? = some d ∨ c.parts[i.toInt.toNat]? = none ∧ d = create w) := by
  have hthere := h.there
  cases hc with
  | vector w =>
    obtain ⟨_, rfl⟩ := parts_vector.1 hthere
    exact ⟨.real, .real _, fun p => rfl, .inl hthere⟩
  | matrix m =>
    obtain ⟨_, rfl⟩ := parts_matrix.1 hthere
    exact ⟨.vector, .vector _, fun p => rfl, .inl hthere⟩
  | @list items elem hi hl =>
    refine ⟨elem, ?_, fun p => rfl, ?_⟩
    · rcases mem_grow (List.mem_of_getElem? hthere) with rfl | hmem
      · exact trueTo_create elem
      · exact hi d hmem
    · rw [reach, grow] at hthere
      rcases Nat.lt_or_ge i.toInt.toNat items.length with hlt | hge
      · rw [List.getElem?_append_left hlt] at hthere
        exact .inl hthere
      · rw [List.getElem?_append_right hge] at hthere
        exact .inr ⟨List.getElem?_eq_none hge,
          List.eq_of_mem_replicate (List.mem_of_getElem? hthere)⟩
  | @record cells fields hcs =>
    obtain ⟨w, hw, hd⟩ := hcs.get hthere
    obtain ⟨field, hfield, rfl⟩ := Option.map_eq_some_iff.1 (List.getElem?_map .. ▸ hw)
    refine ⟨field.2, hd, fun p => ?_, .inl hthere⟩
    rw [Ty.at?, if_pos h.index, hfield, Option.bind_some]
  | integer | real | text | null | selector => cases hthere

/-! ## The target -/

/-- After a store that succeeds, there is at its path the value, as the type of the place takes
it. -/
theorem get_set {path : List Int32} (hc : c.TrueTo t) (hok : (c.set v path).1 = .ok ()) :
    ∃ u, t.at? path = some u ∧ (c.set v path).2.get path = .ok (v.coerce u) := by
  induction path generalizing c t with
  | nil =>
    rw [set] at hok ⊢
    exact ⟨t, by cases t <;> rfl, by rw [get, value_assign hc.conforms hok]⟩
  | cons i rest ih =>
    rcases set_cons c v i rest with ⟨e, he⟩ | ⟨d, hd⟩
    · rw [he] at hok
      cases hok
    · obtain ⟨w, hw, hplace, -⟩ := hd.typed hc
      obtain ⟨u, hu, hget⟩ := ih hw (hd.outcome ▸ hok)
      exact ⟨u, (hplace rest).trans hu, (hd.get_same rest _).2 hget⟩

/-! ## Lists that grow -/

/-- What a store at an index of a list, or below it, makes of the items: the others keep their
places, and a list that was too short has fresh ones up to the index. -/
structure Grown (fresh : Value) (n : Nat) (items later : List Value) : Prop where
  kept : ∀ j < items.length, j ≠ n → later[j]? = items[j]?
  filled : ∀ j < later.length, items.length ≤ j → j < n → later[j]? = some fresh
  length : later.length = items.length ∨ items.length ≤ n ∧ later.length = n + 1

theorem Grown.refl (fresh : Value) (n : Nat) (items : List Value) : Grown fresh n items items where
  kept _ _ _ := rfl
  filled _ hlt hge _ := absurd hge (Nat.not_le.2 hlt)
  length := .inl rfl

theorem values_eq_map (cs : List Cell) : values cs = cs.map value := by
  induction cs with
  | nil => rfl
  | cons c cs ih => rw [values, ih, List.map_cons]

theorem grown_values (template : Cell) (items : List Cell) (n : Nat) (d : Cell) :
    Grown template.value n (values items) (values ((grow template items n).set n d)) := by
  simp only [values_eq_map]
  constructor
  · intro j hj hne
    rw [List.length_map] at hj
    rw [List.getElem?_map, List.getElem?_map, List.getElem?_set_ne hne.symm, grow,
      List.getElem?_append_left hj]
  · intro j hlt hge hn
    rw [List.length_map] at hge
    rw [List.getElem?_map, List.getElem?_set_ne (Nat.ne_of_gt hn), grow,
      List.getElem?_append_right hge, List.getElem?_replicate, if_pos (by omega), Option.map_some]
  · rw [List.length_map, List.length_map, List.length_set, length_grow]
    omega

theorem createAll_eq_map (fields : List (String × Ty)) :
    createAll fields = fields.map fun field => create field.2 := by
  induction fields with
  | nil => rfl
  | cons field fields ih => rw [createAll, ih, List.map_cons]

variable {elem : Ty} {before : List Int32}

/-- A list that a fresh cell has at some place holds one fresh item. -/
theorem get_create (ht : t.at? before = some (.array elem)) (hx : (create t).get before = .ok x) :
    x = .list [(create elem).value] := by
  induction before generalizing t with
  | nil =>
    cases ht
    cases hx
    rfl
  | cons i rest ih =>
    obtain ⟨-, d, hd, hx⟩ := get_cons_eq_ok.1 hx
    rcases Ty.holder_of_at? ht with rfl | rfl | ⟨inner, rfl⟩ | ⟨fields, rfl⟩
    · cases (Ty.at?_vector ht).2
    · rcases Ty.at?_matrix ht with ⟨-, h⟩ | ⟨_, -, h⟩ <;> cases h
    · obtain rfl : d = create inner := List.mem_singleton.1 (List.mem_of_getElem? hd)
      exact ih ht hx
    · obtain ⟨-, name, w, hfield, hw⟩ := Ty.at?_record ht
      have hplace : (createAll fields)[i.toInt.toNat]? = some (create w) := by
        rw [createAll_eq_map, List.getElem?_map, hfield, Option.map_some]
      obtain rfl : create w = d := Option.some.inj (hplace.symm.trans hd)
      exact ih hw hx

theorem TrueTo.get_nil (hc : c.TrueTo (.array elem)) : c.get [] = .ok (.list (values c.parts)) := by
  cases hc
  rfl

/-- A list on the path of a store grows at most. One that has come up only with the store has grown
from the one item of a fresh list. -/
theorem grown_set (hc : c.TrueTo t) (ht : t.at? before = some (.array elem)) :
    (∀ items, c.get before = .ok (.list items) →
      ∃ later, (c.set v (before ++ i :: rest)).2.get before = .ok (.list later) ∧
        Grown (create elem).value i.toInt.toNat items later) ∧
    ((∀ x, c.get before ≠ .ok x) →
      ∀ later, (c.set v (before ++ i :: rest)).2.get before = .ok (.list later) →
        Grown (create elem).value i.toInt.toNat [(create elem).value] later) := by
  induction before generalizing c t with
  | nil =>
    cases ht
    have hlater := trueTo_set hc v (i :: rest)
    rw [List.nil_append]
    refine ⟨fun items hitems => ?_, fun hnone => absurd (get.eq_1 c) (hnone _)⟩
    rcases set_cons c v i rest with ⟨e, he⟩ | ⟨d, hd⟩
    · rw [he]
      exact ⟨items, hitems, .refl _ _ _⟩
    · cases hitems.symm.trans (hc.get_nil)
      refine ⟨_, hlater.get_nil, ?_⟩
      rw [hd.later]
      cases hc
      exact grown_values _ _ _ _
  | cons b before ih =>
    rw [List.cons_append]
    rcases set_cons c v b (before ++ i :: rest) with ⟨e, he⟩ | ⟨d, hd⟩
    · rw [he]
      exact ⟨fun items h => ⟨items, h, .refl _ _ _⟩, fun hnone later h => absurd h (hnone _)⟩
    · obtain ⟨w, hw, hplace, horigin⟩ := hd.typed hc
      have hwt := (hplace before).symm.trans ht
      obtain ⟨hold, hnew⟩ := ih hw hwt
      refine ⟨fun items h => ?_, fun hnone later h => ?_⟩
      · obtain ⟨later, hlater, hgrown⟩ := hold items (hd.get_before h)
        exact ⟨later, (hd.get_same before _).2 hlater, hgrown⟩
      · have hlater := (hd.get_same before _).1 h
        cases hx : d.get before with
        | error e =>
          refine hnew (fun x hx' => ?_) later hlater
          rw [hx] at hx'
          cases hx'
        | ok x =>
          -- There is something at the place: not in a part that was there before, by `hnone`, so
          -- in one that the store has created.
          rcases horigin with hthere | ⟨-, rfl⟩
          · exact absurd (get_cons_eq_ok.2 ⟨hd.index, d, hthere, hx⟩) (hnone x)
          · obtain rfl := get_create hwt hx
            obtain ⟨later', hlater', hgrown⟩ := hold _ hx
            cases hlater.symm.trans hlater'
            exact hgrown

/-! ## Stores hit their target -/

/-- A store that succeeds can be read back at its path, as the type of the place takes the value.
Whether it succeeds or fails, every value on a path that parts from its path is read as before, and
a list on its path keeps its items and gets fresh ones up to the index. -/
theorem set_targets (hc : c.TrueTo t) (v : Value) (path : List Int32) :
    ((c.set v path).1 = .ok () →
      ∃ u, t.at? path = some u ∧ (c.set v path).2.get path = .ok (v.coerce u)) ∧
    (∀ q x, Apart path q → c.get q = .ok x → (c.set v path).2.get q = .ok x) ∧
    ∀ before i rest elem, path = before ++ i :: rest → t.at? before = some (.array elem) →
      (∀ items, c.get before = .ok (.list items) →
        ∃ later, (c.set v path).2.get before = .ok (.list later) ∧
          Grown (create elem).value i.toInt.toNat items later) ∧
      ((∀ x, c.get before ≠ .ok x) →
        ∀ later, (c.set v path).2.get before = .ok (.list later) →
          Grown (create elem).value i.toInt.toNat [(create elem).value] later) := by
  refine ⟨get_set hc, fun q x => get_set_apart, ?_⟩
  rintro before i rest elem rfl ht
  exact grown_set hc ht

/-- An integer is stored in a list of lists of integers, both of which grow; a real beside them
stays. -/
theorem set_targets_nested :
    let t : Ty := .record [("a", .array (.array .integer)), ("x", .real)]
    let c := create t
    let after := (c.set (.integer 7) [0, 2, 1]).2
    after.get [0, 2, 1] = .ok (.integer 7) ∧ after.get [1] = .ok (.real 0) ∧
      after.get [0] = .ok (.list
        [.list [.integer 0], .list [.integer 0], .list [.integer 0, .integer 7]]) ∧
      ∃ later, after.get [0] = .ok (.list later) ∧
        Grown (.list [.integer 0]) 2 [.list [.integer 0]] later := by
  intro t c after
  obtain ⟨hhit, hframe, hgrow⟩ := set_targets (trueTo_create t) (.integer 7) [0, 2, 1]
  obtain ⟨u, hu, hget⟩ := hhit rfl
  cases hu
  have hapart : Apart [0, 2, 1] [1] := ⟨0, 0, 1, rfl, rfl, by decide⟩
  exact ⟨hget, hframe [1] _ hapart rfl, rfl, (hgrow [0] 2 [1] (.array .integer) rfl rfl).1 _ rfl⟩

end Cell

end VectorScript
