import VectorScript.Proofs.Store.Contents

/-!
# The shape of cells

A cell keeps the shape of its type (`Cell.Conforms`) whatever is stored in it, along whatever path,
and whether the store succeeds or stops part of the way. So the value that it holds always has the
type (`Value.HasType`).

    c.Conforms t → (c.set v path).2.Conforms t                                    (conforms_set)
    c.Conforms t → c.value.HasType t                                            (hasType_value)
-/

namespace VectorScript

/-! ## Types of values -/

mutual

/-- The value has the type. The empty list is null, and an array or a record without items. -/
inductive Value.HasType : Value → Ty → Prop
  | integer (n : Int32) : HasType (.integer n) .integer
  | real (x : Float32) : HasType (.real x) .real
  | vector (v : Vec4) : HasType (.vector v) .vector
  | matrix (m : Mat4) : HasType (.matrix m) .matrix
  | text (s : String) : HasType (.text s) .text
  | array {vs : List Value} {t : Ty} (h : ∀ v ∈ vs, HasType v t) : HasType (.list vs) (.array t)
  | record {vs : List Value} {fields : List (String × Ty)} (h : HaveTypes vs (fields.map (·.2))) :
      HasType (.list vs) (.record fields)
  | null : HasType (.list []) .null
  | selector (name : String) : HasType (.list []) (.selector name)

/-- The values have the types, one by one. -/
inductive Value.HaveTypes : List Value → List Ty → Prop
  | nil : HaveTypes [] []
  | cons {v : Value} {t : Ty} {vs : List Value} {ts : List Ty} (hv : HasType v t)
      (hvs : HaveTypes vs ts) : HaveTypes (v :: vs) (t :: ts)

end

namespace Value

theorem HaveTypes.length_eq {vs : List Value} {ts : List Ty} (h : HaveTypes vs ts) :
    vs.length = ts.length := by
  induction vs generalizing ts with
  | nil =>
    cases h
    rfl
  | cons v vs ih =>
    cases h with
    | cons _ hvs => rw [List.length_cons, List.length_cons, ih hvs]

theorem HaveTypes.get {vs : List Value} {ts : List Ty} (h : HaveTypes vs ts) {i : Nat} {t : Ty}
    (ht : ts[i]? = some t) : ∃ v, vs[i]? = some v ∧ HasType v t := by
  induction vs generalizing ts i with
  | nil =>
    cases h
    cases ht
  | cons v vs ih =>
    cases h with
    | cons hv hvs =>
      cases i with
      | zero =>
        cases ht
        exact ⟨v, rfl, hv⟩
      | succ i => exact ih hvs ht

theorem map_ofList (types : List Ty) :
    (types.zipIdx.map fun p => ((toString p.2, p.1) : String × Ty)).map (·.2) = types := by
  rw [List.map_map]
  exact List.zipIdx_map_fst ..

/-- A list literal of values with the given types. -/
theorem hasType_ofList {vs : List Value} {ts : List Ty} (h : HaveTypes vs ts) :
    HasType (.list vs) (.ofList ts) := by
  refine .record ?_
  rw [map_ofList]
  exact h

mutual

/-- Every value has the type that it has on its own. -/
theorem hasType_ty : (v : Value) → v.HasType v.ty
  | .integer n => .integer n
  | .real x => .real x
  | .vector v => .vector v
  | .matrix m => .matrix m
  | .text s => .text s
  | .list [] => by
    simp only [ty]
    exact .null
  | .list (v :: rest) => by
    simp only [ty]
    exact hasType_ofList (.cons (hasType_ty v) (haveTypes_tys rest))

theorem haveTypes_tys : (vs : List Value) → HaveTypes vs (tys vs)
  | [] => .nil
  | v :: rest => .cons (hasType_ty v) (haveTypes_tys rest)

end

end Value

/-! ## Shape -/

mutual

/-- The cell has the shape of the type. -/
inductive Cell.Conforms : Cell → Ty → Prop
  | integer (n : Int32) : Conforms (.integer n) .integer
  | real (x : Float32) : Conforms (.real x) .real
  | text (s : String) : Conforms (.text s) .text
  | vector (v : Vec4) : Conforms (.vector v) .vector
  | matrix (m : Mat4) : Conforms (.matrix m) .matrix
  | list {template : Cell} {items : List Cell} {t : Ty} (ht : Conforms template t)
      (hi : ∀ c ∈ items, Conforms c t) (hl : items.length ≤ maxItems) :
      Conforms (.list template items) (.array t)
  | record {cells : List Cell} {fields : List (String × Ty)}
      (h : AllConform cells (fields.map (·.2))) : Conforms (.record cells) (.record fields)
  | null : Conforms (.record []) .null
  | selector (name : String) : Conforms (.record []) (.selector name)

/-- The cells have the shapes of the types, one by one. -/
inductive Cell.AllConform : List Cell → List Ty → Prop
  | nil : AllConform [] []
  | cons {c : Cell} {t : Ty} {cs : List Cell} {ts : List Ty} (hc : Conforms c t)
      (hcs : AllConform cs ts) : AllConform (c :: cs) (t :: ts)

end

namespace Cell

theorem AllConform.length_eq {cs : List Cell} {ts : List Ty} (h : AllConform cs ts) :
    cs.length = ts.length := by
  induction cs generalizing ts with
  | nil =>
    cases h
    rfl
  | cons c cs ih =>
    cases h with
    | cons _ hcs => rw [List.length_cons, List.length_cons, ih hcs]

mutual

theorem conforms_create : (t : Ty) → (create t).Conforms t
  | .integer => .integer 0
  | .real => .real 0
  | .text => .text ""
  | .vector => .vector .zero
  | .matrix => .matrix .identity
  | .array elem => by
    refine .list (conforms_create elem) (fun c hc => ?_) (by decide : 1 ≤ maxItems)
    obtain rfl := List.mem_singleton.1 hc
    exact conforms_create elem
  | .record fields => .record (allConform_create fields)
  | .null => .null
  | .selector name => .selector name

theorem allConform_create : (fields : List (String × Ty)) →
    AllConform (createAll fields) (fields.map (·.2))
  | [] => .nil
  | (_, t) :: rest => .cons (conforms_create t) (allConform_create rest)

end

/-! ## Reading -/

mutual

/-- What a cell holds has the type of its shape. -/
theorem hasType_value : (c : Cell) → {t : Ty} → c.Conforms t → c.value.HasType t
  | .integer n, _, .integer _ => .integer n
  | .real x, _, .real _ => .real x
  | .text s, _, .text _ => .text s
  | .vector v, _, .vector _ => .vector v
  | .matrix m, _, .matrix _ => .matrix m
  | .list _ items, _, .list _ hi _ => .array (hasType_values items hi)
  | .record cells, _, .record h => .record (haveTypes_values cells h)
  | .record [], _, .null => .null
  | .record [], _, .selector name => .selector name

theorem hasType_values : (cs : List Cell) → {t : Ty} → (∀ c ∈ cs, c.Conforms t) →
    ∀ v ∈ values cs, v.HasType t
  | [], _, _, _, hv => nomatch hv
  | c :: rest, t, h, v, hv => by
    rcases List.mem_cons.1 hv with rfl | hv
    · exact hasType_value c (h c List.mem_cons_self)
    · exact hasType_values rest (fun d hd => h d (List.mem_cons_of_mem _ hd)) v hv

theorem haveTypes_values : (cs : List Cell) → {ts : List Ty} → AllConform cs ts →
    Value.HaveTypes (values cs) ts
  | [], _, .nil => .nil
  | c :: rest, _, .cons hc hcs => .cons (hasType_value c hc) (haveTypes_values rest hcs)

end

/-! ## Storing -/

mutual

/-- Stores keep the shape of a cell. -/
theorem Conforms.becomes : (d : Cell) → {c : Cell} → {t : Ty} → c.Conforms t → c.Becomes d →
    d.Conforms t
  | .integer _, _, _, hc, h | .real _, _, _, hc, h | .text _, _, _, hc, h | .vector _, _, _, hc, h
  | .matrix _, _, _, hc, h => by
    cases h
    cases hc
    constructor
  | .list _ later, _, _, hc, h => by
    cases h with
    | list ho h hlen =>
      cases hc with
      | list ht hi hl =>
        refine .list ht (conforms_of_origins later (fun c hc => ?_) h) (by omega)
        rcases ho c hc with rfl | hc
        · exact ht
        · exact hi c hc
  | .record ds, _, _, hc, h => by
    cases h with
    | record h =>
      cases hc with
      | record hcs => exact .record (AllConform.allBecome ds hcs h)
      | null =>
        cases h
        exact .null
      | selector name =>
        cases h
        exact .selector name

theorem conforms_of_origins : (ds : List Cell) → {cs : List Cell} → {t : Ty} →
    (∀ c ∈ cs, c.Conforms t) → AllBecome cs ds → ∀ d ∈ ds, d.Conforms t
  | [], _, _, _, _ => List.forall_mem_nil _
  | d :: ds, _, _, hcs, .cons h hs =>
    List.forall_mem_cons.2 ⟨Conforms.becomes d (List.forall_mem_cons.1 hcs).1 h,
      conforms_of_origins ds (List.forall_mem_cons.1 hcs).2 hs⟩

theorem AllConform.allBecome : (ds : List Cell) → {cs : List Cell} → {ts : List Ty} →
    AllConform cs ts → AllBecome cs ds → AllConform ds ts
  | [], _, _, hcs, h => by
    cases h
    exact hcs
  | d :: ds, _, _, hcs, h => by
    cases h with
    | cons h hs =>
      cases hcs with
      | cons hc hcs => exact .cons (Conforms.becomes d hc h) (AllConform.allBecome ds hcs hs)

end

theorem conforms_grow {template : Cell} {items : List Cell} {t : Ty} (ht : template.Conforms t)
    (hi : ∀ c ∈ items, c.Conforms t) (i : Nat) : ∀ c ∈ grow template items i, c.Conforms t := by
  intro c hc
  rcases mem_grow hc with rfl | hc
  · exact ht
  · exact hi c hc

/-- A store keeps the shape of the cell, whether it succeeds or fails. -/
theorem conforms_set (path : List Int32) (v : Value) {c : Cell} {t : Ty} (h : c.Conforms t) :
    (c.set v path).2.Conforms t :=
  Conforms.becomes _ h (becomes_set path v c)

end Cell

end VectorScript
