import VectorScript.Store.Cell

/-!
# What stores change

A store changes contents, never kinds: an atom stays one of its kind, a record keeps its fields, and
every item of a list comes of an old one or of the list's template (`Cell.Becomes`). So it is
whatever is stored, along whatever path, and whether the store succeeds or stops part of the way.
Nothing is said of types here; what follows for cells that have the shape of a type follows from
this alone.

    c.Becomes (c.set v path).2                                                     (becomes_set)
-/

namespace VectorScript

mutual

/-- Stores can make the later cell of the earlier one: contents change, and every item of a list
comes of an old one or of the template. -/
inductive Cell.Becomes : Cell → Cell → Prop
  | integer (n k : Int32) : Becomes (.integer n) (.integer k)
  | real (x y : Float32) : Becomes (.real x) (.real y)
  | text (s r : String) : Becomes (.text s) (.text r)
  | vector (v w : Vec4) : Becomes (.vector v) (.vector w)
  | matrix (m l : Mat4) : Becomes (.matrix m) (.matrix l)
  | list {template : Cell} {items origins later : List Cell}
      (ho : ∀ c ∈ origins, c = template ∨ c ∈ items) (h : AllBecome origins later)
      (hl : later.length ≤ max items.length maxItems) :
      Becomes (.list template items) (.list template later)
  | record {cs ds : List Cell} (h : AllBecome cs ds) : Becomes (.record cs) (.record ds)

/-- Stores can make the later cells of the earlier ones, one by one. -/
inductive Cell.AllBecome : List Cell → List Cell → Prop
  | nil : AllBecome [] []
  | cons {c d : Cell} {cs ds : List Cell} (h : Becomes c d) (hs : AllBecome cs ds) :
      AllBecome (c :: cs) (d :: ds)

end

namespace Cell

mutual

/-- Nothing need change. -/
theorem Becomes.refl : (c : Cell) → c.Becomes c
  | integer n => .integer n n
  | real x => .real x x
  | text s => .text s s
  | vector v => .vector v v
  | matrix m => .matrix m m
  | list _ items => .list (fun _ => .inr) (AllBecome.refl items) (Nat.le_max_left _ _)
  | record cells => .record (AllBecome.refl cells)

theorem AllBecome.refl : (cs : List Cell) → AllBecome cs cs
  | [] => .nil
  | c :: rest => .cons (Becomes.refl c) (AllBecome.refl rest)

end

theorem AllBecome.length_eq {cs ds : List Cell} (h : AllBecome cs ds) :
    ds.length = cs.length := by
  induction cs generalizing ds with
  | nil =>
    cases h
    rfl
  | cons c cs ih =>
    cases h with
    | cons _ hs => rw [List.length_cons, List.length_cons, ih hs]

/-- What comes of the item at an index may take its place. -/
theorem AllBecome.set {cs : List Cell} {i : Nat} {c d : Cell} (hc : cs[i]? = some c)
    (h : c.Becomes d) : AllBecome cs (cs.set i d) := by
  induction cs generalizing i with
  | nil => cases hc
  | cons e cs ih =>
    cases i with
    | zero =>
      cases hc
      exact .cons h (.refl cs)
    | succ i => exact .cons (.refl e) (ih hc)

/-! ## Whole values -/

mutual

theorem becomes_clear : (c : Cell) → c.Becomes c.clear
  | integer n => .integer n 0
  | real x => .real x 0
  | text s => .text s ""
  | vector v => .vector v .zero
  | matrix m => .matrix m .identity
  | list _ _ => .list (List.forall_mem_nil _) .nil (Nat.zero_le _)
  | record cells => .record (allBecome_clear cells)

theorem allBecome_clear : (cs : List Cell) → AllBecome cs (clearAll cs)
  | [] => .nil
  | c :: rest => .cons (becomes_clear c) (allBecome_clear rest)

end

/-- A step that may fail and then changes nothing. -/
theorem becomes_storing {c : Cell} {new : Except Fault Cell}
    (hnew : ∀ d, new = .ok d → c.Becomes d) : c.Becomes (storing c new).2 := by
  unfold storing
  split
  · next d => exact hnew d rfl
  · exact .refl c

theorem of_map_ok {α β : Type} {x : Except Fault α} {f : α → β} {b : β}
    (h : x.map f = .ok b) : ∃ a, x = .ok a ∧ f a = b := by
  cases x with
  | error e => cases h
  | ok a =>
    cases h
    exact ⟨a, rfl, rfl⟩

/-- A cell without items or fields takes a value of its own kind or stays. -/
theorem becomes_storing_map {α : Type} {c : Cell} {x : Except Fault α} {f : α → Cell}
    (hf : ∀ a, c.Becomes (f a)) : c.Becomes (storing c (x.map f)).2 := by
  refine becomes_storing fun d hd => ?_
  obtain ⟨a, -, rfl⟩ := of_map_ok hd
  exact hf a

/-- A value that is not a list finds a cell of its kind or changes nothing. -/
theorem becomes_assignAtom {v : Value} (hv : ∀ vs, v ≠ .list vs) (c : Cell) :
    c.Becomes (assignValue c v).2 := by
  cases v with
  | list vs => exact absurd rfl (hv vs)
  | _ =>
    cases c <;> unfold assignValue
    case integer n => exact becomes_storing_map (.integer n)
    case real x => exact becomes_storing_map (.real x)
    case text s => exact becomes_storing_map (.text s)
    case vector v => exact becomes_storing_map (.vector v)
    case matrix m => exact becomes_storing_map (.matrix m)
    case list | record => exact .refl _

mutual

/-- Storing a value that is not null, even if it fails. -/
theorem becomes_assignValue : (v : Value) → (c : Cell) → c.Becomes (assignValue c v).2
  | .list vs, c => by
    cases c <;> unfold assignValue
    case integer n => exact becomes_storing_map (.integer n)
    case real x => exact becomes_storing_map (.real x)
    case text s => exact becomes_storing_map (.text s)
    case vector v => exact becomes_storing_map (.vector v)
    case matrix m => exact becomes_storing_map (.matrix m)
    case list template items =>
      split
      · exact .refl _
      · refine becomes_storing fun d hd => ?_
        obtain ⟨cs, hcs, rfl⟩ := of_map_ok hd
        have hbuilt := becomes_buildItems vs hcs
        refine .list (fun c hc => .inl (List.eq_of_mem_replicate hc)) hbuilt ?_
        rw [hbuilt.length_eq, List.length_replicate]
        omega
    case record cells =>
      split
      · exact .record (allBecome_assignFields vs cells)
      · exact .refl _
  | .integer _, c | .real _, c | .text _, c | .vector _, c | .matrix _, c =>
    becomes_assignAtom (by simp) c

theorem becomes_buildItems : (vs : List Value) → {template : Cell} → {cs : List Cell} →
    buildItems template vs = .ok cs → AllBecome (List.replicate vs.length template) cs
  | [], _, _, h => by
    cases h
    exact .nil
  | v :: rest, template, cs, h => by
    have hitem : template.Becomes (if v.isNull then (.ok (), template.clear)
        else assignValue template v : Stored Cell).2 := by
      split
      · exact becomes_clear template
      · exact becomes_assignValue v template
    unfold buildItems at h
    split at h
    · next c hc =>
      rw [hc] at hitem
      obtain ⟨ds, hds, rfl⟩ := of_map_ok h
      exact .cons hitem (becomes_buildItems rest hds)
    · cases h

theorem allBecome_assignFields : (vs : List Value) → (cs : List Cell) →
    AllBecome cs (assignFields cs vs).2
  | [], cs => by
    unfold assignFields
    exact .refl cs
  | v :: rest, [] => .nil
  | v :: rest, c :: cs => by
    have hfield : c.Becomes (if v.isNull then (.ok (), c.clear)
        else assignValue c v : Stored Cell).2 := by
      split
      · exact becomes_clear c
      · exact becomes_assignValue v c
    unfold assignFields
    split
    · next d hd =>
      rw [hd] at hfield
      exact .cons hfield (allBecome_assignFields rest cs)
    · next e d hd =>
      rw [hd] at hfield
      exact .cons hfield (.refl cs)

end

theorem becomes_assign (c : Cell) (v : Value) : c.Becomes (c.assign v).2 := by
  unfold assign
  split
  · exact becomes_clear c
  · exact becomes_assignValue v c

/-! ## Paths -/

theorem length_grow (template : Cell) (items : List Cell) (i : Nat) :
    (grow template items i).length = max items.length (i + 1) := by
  unfold grow
  rw [List.length_append, List.length_replicate]
  omega

theorem mem_grow {template : Cell} {items : List Cell} {i : Nat} {c : Cell}
    (h : c ∈ grow template items i) : c = template ∨ c ∈ items := by
  rcases List.mem_append.1 h with h | h
  · exact .inr h
  · exact .inl (List.eq_of_mem_replicate h)

/-- The list has an item at the index. -/
theorem getElem?_grow (template : Cell) (items : List Cell) (i : Nat) :
    (grow template items i)[i]? = some ((grow template items i).getD i template) := by
  have hlt : i < (grow template items i).length := by
    rw [length_grow]
    omega
  rw [List.getD_eq_getElem?_getD, List.getElem?_eq_getElem hlt, Option.getD_some]

/-- Whatever is stored wherever, and whether it succeeds or fails, only contents change. -/
theorem becomes_set (path : List Int32) (v : Value) (c : Cell) : c.Becomes (c.set v path).2 := by
  induction path generalizing c with
  | nil =>
    unfold set
    exact becomes_assign c v
  | cons i rest ih =>
    cases c <;> unfold set
    case integer | real | text => exact .refl _
    case vector v => exact becomes_storing_map (.vector v)
    case matrix m => exact becomes_storing_map (.matrix m)
    case list template items =>
      split
      · exact .refl _
      · next i _ =>
        refine .list (fun c => mem_grow) (.set (getElem?_grow template items i) (ih _)) ?_
        have := i.isLt
        rw [List.length_set, length_grow]
        omega
    case record cells =>
      split
      · exact .refl _
      · next i _ => exact .record (.set (List.getElem?_eq_getElem i.isLt) (ih _))

end Cell

end VectorScript
