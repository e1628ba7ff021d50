import VectorScript.Proofs.Store.Address

/-!
# Cells that are true to a type

A cell that has been created for a type has its kind at every place, and each list in it has a fresh
cell of the element type as its template (`Cell.TrueTo`). Stores keep that, whatever is stored
where, also when they fail. So a cell always holds a value of its type, and a path that the type
knows leads to a value of the type it reaches, or out of bounds.

    c.TrueTo t → (c.set v path).2.TrueTo t                                             (trueTo_set)
    c.Conforms t → t.at? path = some u → Finds (c.get path) u                            (finds_get)
-/

namespace VectorScript

mutual

/-- The cell is of the type's kind, with a true cell for every field of a record, and for a list a
fresh cell as the template, true items, and no more of them than a list may have. -/
inductive Cell.TrueTo : Cell → Ty → Prop
  | integer (n : Int32) : TrueTo (.integer n) .integer
  | real (x : Float32) : TrueTo (.real x) .real
  | text (s : String) : TrueTo (.text s) .text
  | vector (v : Vec4) : TrueTo (.vector v) .vector
  | matrix (m : Mat4) : TrueTo (.matrix m) .matrix
  | list {items : List Cell} {t : Ty} (hi : ∀ c ∈ items, TrueTo c t)
      (hl : items.length ≤ maxItems) : TrueTo (.list (create t) items) (.array t)
  | record {cells : List Cell} {fields : List (String × Ty)}
      (h : AllTrue cells (fields.map (·.2))) : TrueTo (.record cells) (.record fields)
  | null : TrueTo (.record []) .null
  | selector (name : String) : TrueTo (.record []) (.selector name)

/-- The cells are true to the types, one by one. -/
inductive Cell.AllTrue : List Cell → List Ty → Prop
  | nil : AllTrue [] []
  | cons {c : Cell} {t : Ty} {cs : List Cell} {ts : List Ty} (hc : TrueTo c t)
      (hcs : AllTrue cs ts) : AllTrue (c :: cs) (t :: ts)

end

namespace Cell

mutual

theorem trueTo_create : (t : Ty) → (create t).TrueTo t
  | .integer => .integer 0
  | .real => .real 0
  | .text => .text ""
  | .vector => .vector .zero
  | .matrix => .matrix .identity
  | .array elem =>
    .list (List.forall_mem_singleton.2 (trueTo_create elem)) (by decide : 1 ≤ maxItems)
  | .record fields => .record (allTrue_create fields)
  | .null => .null
  | .selector name => .selector name

theorem allTrue_create : (fields : List (String × Ty)) →
    AllTrue (createAll fields) (fields.map (·.2))
  | [] => .nil
  | (_, t) :: rest => .cons (trueTo_create t) (allTrue_create rest)

end

mutual

/-- A cell that is true to a type has its shape. -/
theorem TrueTo.conforms : {c : Cell} → {t : Ty} → c.TrueTo t → c.Conforms t
  | _, _, .integer n => .integer n
  | _, _, .real x => .real x
  | _, _, .text s => .text s
  | _, _, .vector v => .vector v
  | _, _, .matrix m => .matrix m
  | _, .array t, .list hi hl => .list (conforms_create t) (fun c hc => (hi c hc).conforms) hl
  | _, _, .record h => .record h.conforms
  | _, _, .null => .null
  | _, _, .selector name => .selector name

theorem AllTrue.conforms : {cs : List Cell} → {ts : List Ty} → AllTrue cs ts → AllConform cs ts
  | _, _, .nil => .nil
  | _, _, .cons hc hcs => .cons hc.conforms hcs.conforms

end

mutual

/-- What stores make of a true cell is true to the type as well: they leave templates alone. -/
theorem TrueTo.becomes : (d : Cell) → {c : Cell} → {t : Ty} → c.TrueTo t → c.Becomes d →
    d.TrueTo t
  | .integer _, _, _, hc, h | .real _, _, _, hc, h | .text _, _, _, hc, h | .vector _, _, _, hc, h
  | .matrix _, _, _, hc, h => by
    cases h
    cases hc
    constructor
  | .list _ later, _, _, hc, h => by
    cases h with
    | list ho h hlen =>
      cases hc with
      | @list items t hi hl =>
        refine .list (trueTo_of_origins later (fun c hc => ?_) h) (by omega)
        rcases ho c hc with rfl | hc
        · exact trueTo_create t
        · exact hi c hc
  | .record ds, _, _, hc, h => by
    cases h with
    | record h =>
      cases hc with
      | record hcs => exact .record (AllTrue.allBecome ds hcs h)
      | null =>
        cases h
        exact .null
      | selector name =>
        cases h
        exact .selector name

theorem trueTo_of_origins : (ds : List Cell) → {cs : List Cell} → {t : Ty} →
    (∀ c ∈ cs, c.TrueTo t) → AllBecome cs ds → ∀ d ∈ ds, d.TrueTo t
  | [], _, _, _, _ => List.forall_mem_nil _
  | d :: ds, _, _, hcs, .cons h hs =>
    List.forall_mem_cons.2 ⟨TrueTo.becomes d (List.forall_mem_cons.1 hcs).1 h,
      trueTo_of_origins ds (List.forall_mem_cons.1 hcs).2 hs⟩

theorem AllTrue.allBecome : (ds : List Cell) → {cs : List Cell} → {ts : List Ty} →
    AllTrue cs ts → AllBecome cs ds → AllTrue ds ts
  | [], _, _, hcs, h => by
    cases h
    exact hcs
  | d :: ds, _, _, hcs, h => by
    cases h with
    | cons h hs =>
      cases hcs with
      | cons hc hcs => exact .cons (TrueTo.becomes d hc h) (AllTrue.allBecome ds hcs hs)

end

/-- Whatever is stored wherever, and whether it succeeds or fails, the cell stays true to its
type. -/
theorem trueTo_set {c : Cell} {t : Ty} (h : c.TrueTo t) (v : Value) (path : List Int32) :
    (c.set v path).2.TrueTo t :=
  TrueTo.becomes _ h (becomes_set path v c)

/-! ## Reading along a path -/

/-- There is a value of the type, or the place is out of bounds. -/
def Finds (x : Except Fault Value) (u : Ty) : Prop :=
  (∃ v, x = .ok v ∧ v.HasType u) ∨ ∃ detail, x = .error (outOfBounds detail)

/-- Behind an index that is in bounds there is what it leads to. -/
theorem finds_bind {i : Int32} {len : Nat} {f : Fin len → Except Fault Value} {u : Ty}
    (h : ∀ n, checkIndex i len = .ok n → Finds (f n) u) : Finds (checkIndex i len >>= f) u := by
  rcases checkIndex_cases i len with ⟨n, hn⟩ | ⟨detail, herr⟩
  · rw [hn]
    exact h n hn
  · rw [herr]
    exact .inr ⟨detail, rfl⟩

/-- A path that the type knows leads to a value of the type it reaches, if it stays in bounds. -/
theorem finds_get {c : Cell} {t u : Ty} {path : List Int32} (hc : c.Conforms t)
    (hu : t.at? path = some u) : Finds (c.get path) u := by
  induction path generalizing c t with
  | nil =>
    cases hu
    rw [get]
    exact .inl ⟨c.value, rfl, hasType_value c hc⟩
  | cons i rest ih =>
    rcases Ty.holder_of_at? hu with rfl | rfl | ⟨elem, rfl⟩ | ⟨fields, rfl⟩
    · obtain ⟨rfl, rfl⟩ := Ty.at?_vector hu
      cases hc with
      | vector v =>
        have h : Finds (checkIndex i 4 >>= fun i => .ok (.real (v.get i))) .real :=
          finds_bind fun n _ => .inl ⟨_, rfl, .real _⟩
        exact h
    · cases hc with
      | matrix m =>
        rw [get, getMatrix]
        refine finds_bind fun col _ => ?_
        rcases Ty.at?_matrix hu with ⟨rfl, rfl⟩ | ⟨row, rfl, rfl⟩
        · exact .inl ⟨_, rfl, .vector _⟩
        · exact finds_bind fun row _ => .inl ⟨_, rfl, .real _⟩
    · cases hc with
      | list ht hi hl =>
        rw [get]
        exact finds_bind fun n _ => ih (hi _ (List.get_mem ..)) hu
    · obtain ⟨-, name, w, hfield, hw⟩ := Ty.at?_record hu
      cases hc with
      | record h =>
        rw [get]
        refine finds_bind fun n hn => ?_
        have hplace : (fields.map (·.2))[n.val]? = some w := by
          rw [← (checkIndex_eq_ok.1 hn).2, List.getElem?_map, hfield, Option.map_some]
        exact ih (h.get hplace n.isLt) hw

/-! ## Shapes last -/

/-- A fresh cell is true to its type. A true cell stays true after every store, successful or not;
it holds a value of the type; and along every path that the type knows there is a value of the type
reached, unless an index is out of bounds. -/
theorem shape_lasts (t : Ty) :
    (create t).TrueTo t ∧ ∀ c : Cell, c.TrueTo t →
      (∀ v path, (c.set v path).2.TrueTo t) ∧ c.value.HasType t ∧
        ∀ path u, t.at? path = some u →
          (∃ x, c.get path = .ok x ∧ x.HasType u) ∨
            ∃ detail, c.get path = .error (outOfBounds detail) :=
  ⟨trueTo_create t, fun _ hc =>
    ⟨trueTo_set hc, hasType_value _ hc.conforms, fun _ _ hu => finds_get hc.conforms hu⟩⟩

/-- A text is refused by a list of integers, which has grown to reach its place; the list is a list
of integers still. -/
theorem shape_lasts_refused :
    let c := create (.array .integer)
    let grown := (c.set (.text "four") [3]).2
    c.TrueTo (.array .integer) ∧ (c.set (.text "four") [3]).1 ≠ .ok () ∧
      grown.TrueTo (.array .integer) ∧
      grown.value = .list [.integer 0, .integer 0, .integer 0, .integer 0] ∧
      grown.value.HasType (.array .integer) := by
  intro c grown
  obtain ⟨hc, hstore⟩ := shape_lasts (.array .integer)
  have hgrown : grown.TrueTo (.array .integer) := (hstore c hc).1 (.text "four") [3]
  exact ⟨hc, nofun, hgrown, rfl, (hstore grown hgrown).2.1⟩

end Cell

end VectorScript
