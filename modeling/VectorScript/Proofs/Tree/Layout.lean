import VectorScript.Program.Basic
import VectorScript.Proofs.Tree.Typing

/-!
# What statements are made of

Laying a tree out gives statements that are each the code of one store, one dropped value or one
condition, and jumps. So what passes from a tree to its parts holds of what every statement of a
program is made of. All statements but the jumps open some tree, that is they come first of it, and
stand where the tree stands.

    Hereditary P → (∀ s ∈ body, P s) → flattenAll body = .ok statements →
      ∀ a ∈ statements, a.MadeOf P                                           (madeOf_flattenAll)
    (∀ s ∈ body, s.Throughout P) → flattenAll body = .ok statements →
      each of the statements is a jump or opens a tree with P               (opening_flattenAll)
-/

namespace VectorScript

/-- The statement is a jump or is assembled from a tree with the property. A condition stands for
the conditional with an empty body. -/
inductive Statement.MadeOf (P : Stmt → Prop) : Statement → Prop
  | store {slot : Nat} {path : List Expr} {value : Rhs} {p : Position} {s : Statement}
      (hs : Stmt.assemble (.store slot path.length) (do Expr.emitAll path; value.emit) p = .ok s)
      (h : P (.store slot path value p)) : MadeOf P s
  | discard {e : Expr} {p : Position} {s : Statement}
      (hs : Stmt.assemble .discard e.emit p = .ok s) (h : P (.discard e p)) : MadeOf P s
  | branch {distance : Nat} {e : Expr} {p : Position} {s : Statement}
      (hs : Stmt.assemble (.unless distance) e.emit p = .ok s) (h : P (.ifThen e p [])) : MadeOf P s
  | jump {distance : Nat} {p : Position} {s : Statement}
      (hs : Stmt.assemble (.jump distance) (pure ()) p = .ok s) : MadeOf P s

namespace Stmt

/-- A conditional passes the property on to its condition and its branches. -/
structure Hereditary (P : Stmt → Prop) : Prop where
  ifThen : ∀ {condition p body}, P (ifThen condition p body) →
    P (.ifThen condition p []) ∧ ∀ s ∈ body, P s
  ifElse : ∀ {condition p body q otherwise}, P (ifElse condition p body q otherwise) →
    P (.ifThen condition p []) ∧ (∀ s ∈ body, P s) ∧ ∀ s ∈ otherwise, P s

theorem Hereditary.and {P Q : Stmt → Prop} (hP : Hereditary P) (hQ : Hereditary Q) :
    Hereditary fun s => P s ∧ Q s where
  ifThen h := by
    obtain ⟨hc, hb⟩ := hP.ifThen h.1
    obtain ⟨hc', hb'⟩ := hQ.ifThen h.2
    exact ⟨⟨hc, hc'⟩, fun s hs => ⟨hb s hs, hb' s hs⟩⟩
  ifElse h := by
    obtain ⟨hc, hb, ho⟩ := hP.ifElse h.1
    obtain ⟨hc', hb', ho'⟩ := hQ.ifElse h.2
    exact ⟨⟨hc, hc'⟩, fun s hs => ⟨hb s hs, hb' s hs⟩, fun s hs => ⟨ho s hs, ho' s hs⟩⟩

/-- What a step that succeeded gave to the next. -/
theorem of_bind_ok {α β : Type} {x : Except Fault α} {f : α → Except Fault β} {b : β}
    (h : x >>= f = .ok b) : ∃ a, x = .ok a ∧ f a = .ok b := by
  cases x with
  | error e => cases h
  | ok a => exact ⟨a, rfl, h⟩

/-- A statement has the kind that it is assembled with. -/
theorem kind_of_assemble {kind : StatementKind} {code : Build Unit} {p : Position} {s : Statement}
    (h : assemble kind code p = .ok s) : s.kind = kind := by
  unfold assemble at h
  split at h
  · obtain ⟨_, -, h⟩ := of_bind_ok h
    cases h
    rfl
  · cases h

/-! ## What a tree is laid out as -/

section Layout

variable {body otherwise : List Stmt} {part : List Statement} {p q : Position}

theorem of_flatten_store {slot : Nat} {path : List Expr} {value : Rhs}
    (h : (store slot path value p).flatten = .ok part) :
    ∃ s, assemble (.store slot path.length) (do Expr.emitAll path; value.emit) p = .ok s ∧
      part = [s] := by
  unfold flatten at h
  obtain ⟨s, hs, h⟩ := of_bind_ok h
  cases h
  exact ⟨s, hs, rfl⟩

theorem of_flatten_discard {e : Expr} (h : (discard e p).flatten = .ok part) :
    ∃ s, assemble .discard e.emit p = .ok s ∧ part = [s] := by
  unfold flatten at h
  obtain ⟨s, hs, h⟩ := of_bind_ok h
  cases h
  exact ⟨s, hs, rfl⟩

/-- A condition that fails jumps to the first statement after the body. -/
theorem of_flatten_ifThen {condition : Expr} (h : (ifThen condition p body).flatten = .ok part) :
    ∃ inner branch, flattenAll body = .ok inner ∧
      assemble (.unless (inner.length + 1)) condition.emit p = .ok branch ∧
      part = branch :: inner := by
  unfold flatten at h
  obtain ⟨inner, hinner, h⟩ := of_bind_ok h
  obtain ⟨branch, hbranch, h⟩ := of_bind_ok h
  cases h
  exact ⟨inner, branch, hinner, hbranch, rfl⟩

/-- A condition that fails jumps to the other branch, and the first branch ends with a jump over
it. -/
theorem of_flatten_ifElse {condition : Expr}
    (h : (ifElse condition p body q otherwise).flatten = .ok part) :
    ∃ inner other branch leap, flattenAll body = .ok inner ∧ flattenAll otherwise = .ok other ∧
      assemble (.unless (inner.length + 2)) condition.emit p = .ok branch ∧
      assemble (.jump (other.length + 1)) (pure ()) q = .ok leap ∧
      part = branch :: inner ++ leap :: other := by
  unfold flatten at h
  obtain ⟨inner, hinner, h⟩ := of_bind_ok h
  obtain ⟨other, hother, h⟩ := of_bind_ok h
  obtain ⟨branch, hbranch, h⟩ := of_bind_ok h
  obtain ⟨leap, hleap, h⟩ := of_bind_ok h
  cases h
  exact ⟨inner, other, branch, leap, hinner, hother, hbranch, hleap, rfl⟩

theorem of_flattenAll_cons {s : Stmt} (h : flattenAll (s :: body) = .ok part) :
    ∃ first others, s.flatten = .ok first ∧ flattenAll body = .ok others ∧
      part = first ++ others := by
  unfold flattenAll at h
  obtain ⟨first, hfirst, h⟩ := of_bind_ok h
  obtain ⟨others, hothers, h⟩ := of_bind_ok h
  cases h
  exact ⟨first, others, hfirst, hothers, rfl⟩

end Layout

/-! ## What the statements are made of -/

mutual

/-- Laying a statement out gives statements made of its trees. -/
theorem madeOf_flatten {P : Stmt → Prop} (hP : Hereditary P) : (s : Stmt) → P s →
    {statements : List Statement} → s.flatten = .ok statements → ∀ a ∈ statements, a.MadeOf P
  | store slot path value p, hs, statements, h, a, ha => by
    obtain ⟨s, hassemble, rfl⟩ := of_flatten_store h
    obtain rfl := List.mem_singleton.1 ha
    exact .store hassemble hs
  | discard e p, hs, statements, h, a, ha => by
    obtain ⟨s, hassemble, rfl⟩ := of_flatten_discard h
    obtain rfl := List.mem_singleton.1 ha
    exact .discard hassemble hs
  | ifThen condition p body, hs, statements, h, a, ha => by
    obtain ⟨hcondition, hbody⟩ := hP.ifThen hs
    obtain ⟨inner, s, hinner, hassemble, rfl⟩ := of_flatten_ifThen h
    rcases List.mem_cons.1 ha with rfl | ha
    · exact .branch hassemble hcondition
    · exact madeOf_flattenAll hP body hbody hinner a ha
  | ifElse condition p body elsePosition otherwise, hs, statements, h, a, ha => by
    obtain ⟨hcondition, hbody, hotherwise⟩ := hP.ifElse hs
    obtain ⟨inner, other, branch, leap, hinner, hother, hbranch, hleap, rfl⟩ :=
      of_flatten_ifElse h
    rcases List.mem_append.1 ha with ha | ha
    · rcases List.mem_cons.1 ha with rfl | ha
      · exact .branch hbranch hcondition
      · exact madeOf_flattenAll hP body hbody hinner a ha
    · rcases List.mem_cons.1 ha with rfl | ha
      · exact .jump hleap
      · exact madeOf_flattenAll hP otherwise hotherwise hother a ha

theorem madeOf_flattenAll {P : Stmt → Prop} (hP : Hereditary P) : (body : List Stmt) →
    (∀ s ∈ body, P s) → {statements : List Statement} → flattenAll body = .ok statements →
    ∀ a ∈ statements, a.MadeOf P
  | [], _, statements, h, a, ha => by
    cases h
    cases ha
  | s :: rest, hs, statements, h, a, ha => by
    obtain ⟨first, others, hfirst, hothers, rfl⟩ := of_flattenAll_cons h
    rcases List.mem_append.1 ha with ha | ha
    · exact madeOf_flatten hP s (hs s List.mem_cons_self) hfirst a ha
    · exact madeOf_flattenAll hP rest (fun s h => hs s (List.mem_cons_of_mem _ h)) hothers a ha

end

/-! ## Where statements come from -/

/-- The statements directly inside a statement. -/
def inside : Stmt → List Stmt
  | store _ _ _ _ | discard _ _ => []
  | ifThen _ _ body => body
  | ifElse _ _ body _ otherwise => body ++ otherwise

/-- The property holds of the statement and of all that are inside it. -/
inductive Throughout (P : Stmt → Prop) : Stmt → Prop
  | intro {s : Stmt} (here : P s) (inside : ∀ a ∈ s.inside, a.Throughout P) : s.Throughout P

/-- Laying the tree out begins with the statement; what comes after it is inside the tree. -/
def OpensWith (s : Stmt) (st : Statement) : Prop := ∃ rest, s.flatten = .ok (st :: rest)

/-- The statement only jumps, or a tree with the property is laid out as it and what is inside. -/
def Opening (P : Stmt → Prop) (st : Statement) : Prop :=
  (∃ distance, st.kind = .jump distance) ∨ ∃ a, P a ∧ a.OpensWith st

mutual

/-- Every statement but the jumps opens one of the trees. -/
theorem opening_flatten {P : Stmt → Prop} : (s : Stmt) → s.Throughout P →
    {statements : List Statement} → s.flatten = .ok statements → ∀ st ∈ statements, Opening P st
  | store slot path value p, ⟨hs, _⟩, statements, h, st, hst => by
    obtain ⟨s, hassemble, rfl⟩ := of_flatten_store h
    obtain rfl := List.mem_singleton.1 hst
    exact .inr ⟨_, hs, [], h⟩
  | discard e p, ⟨hs, _⟩, statements, h, st, hst => by
    obtain ⟨s, hassemble, rfl⟩ := of_flatten_discard h
    obtain rfl := List.mem_singleton.1 hst
    exact .inr ⟨_, hs, [], h⟩
  | ifThen condition p body, ⟨hs, hinside⟩, statements, h, st, hst => by
    obtain ⟨inner, s, hinner, hassemble, rfl⟩ := of_flatten_ifThen h
    rcases List.mem_cons.1 hst with rfl | hst
    · exact .inr ⟨_, hs, inner, h⟩
    · exact opening_flattenAll body hinside hinner st hst
  | ifElse condition p body elsePosition otherwise, ⟨hs, hinside⟩, statements, h, st, hst => by
    obtain ⟨hbody, hotherwise⟩ := List.forall_mem_append.1 hinside
    obtain ⟨inner, other, branch, leap, hinner, hother, hbranch, hleap, rfl⟩ :=
      of_flatten_ifElse h
    rcases List.mem_append.1 hst with hst | hst
    · rcases List.mem_cons.1 hst with rfl | hst
      · exact .inr ⟨_, hs, inner ++ leap :: other, h⟩
      · exact opening_flattenAll body hbody hinner st hst
    · rcases List.mem_cons.1 hst with rfl | hst
      · exact .inl ⟨_, kind_of_assemble hleap⟩
      · exact opening_flattenAll otherwise hotherwise hother st hst

theorem opening_flattenAll {P : Stmt → Prop} : (body : List Stmt) →
    (∀ s ∈ body, s.Throughout P) → {statements : List Statement} →
    flattenAll body = .ok statements → ∀ st ∈ statements, Opening P st
  | [], _, statements, h, st, hst => by
    cases h
    cases hst
  | s :: rest, hs, statements, h, st, hst => by
    obtain ⟨hfirst, hrest⟩ := List.forall_mem_cons.1 hs
    obtain ⟨first, others, hflatten, hothers, rfl⟩ := of_flattenAll_cons h
    rcases List.mem_append.1 hst with hst | hst
    · exact opening_flatten s hfirst hflatten st hst
    · exact opening_flattenAll rest hrest hothers st hst

end

/-- The position that faults of the statement are reported at. -/
def position : Stmt → Position
  | store _ _ _ p | discard _ p | ifThen _ p _ | ifElse _ p _ _ _ => p

theorem position_of_assemble {kind : StatementKind} {code : Build Unit} {p : Position}
    {st : Statement} (h : assemble kind code p = .ok st) : st.position = p := by
  unfold assemble at h
  split at h
  · obtain ⟨_, -, h⟩ := of_bind_ok h
    cases h
    rfl
  · cases h

/-- The statement that a tree opens with stands where the tree does. -/
theorem OpensWith.position_eq {s : Stmt} {st : Statement} (h : s.OpensWith st) :
    st.position = s.position := by
  obtain ⟨rest, h⟩ := h
  cases s with
  | store =>
    obtain ⟨_, hassemble, hst⟩ := of_flatten_store h
    cases hst
    exact position_of_assemble hassemble
  | discard =>
    obtain ⟨_, hassemble, hst⟩ := of_flatten_discard h
    cases hst
    exact position_of_assemble hassemble
  | ifThen =>
    obtain ⟨_, _, -, hbranch, hst⟩ := of_flatten_ifThen h
    cases hst
    exact position_of_assemble hbranch
  | ifElse =>
    obtain ⟨_, _, _, _, -, -, hbranch, -, hst⟩ := of_flatten_ifElse h
    cases hst
    exact position_of_assemble hbranch

/-! ## Well typed trees -/

theorem allOk_iff {Γ : Scope} {body : List Stmt} : AllOk Γ body ↔ ∀ s ∈ body, Ok Γ s := by
  induction body with
  | nil => simp [AllOk]
  | cons s rest ih => simp [AllOk, ih]

theorem hereditary_ok (Γ : Scope) : Hereditary (Ok Γ) where
  ifThen h := ⟨⟨h.1, trivial⟩, allOk_iff.1 h.2⟩
  ifElse h := ⟨⟨h.1, trivial⟩, allOk_iff.1 h.2.1, allOk_iff.1 h.2.2⟩

end Stmt

/-! ## Stores -/

/-- A statement of the program stores to the slot, or to a place within its variable. -/
def Program.StoresTo (p : Program) (slot : Nat) : Prop :=
  ∃ s ∈ p.statements, ∃ pathLength, s.kind = .store slot pathLength

/-- A store is to a slot that may be stored to. -/
theorem Statement.MadeOf.own {Γ : Scope} {s : Statement} (h : s.MadeOf (Stmt.Ok Γ))
    {slot pathLength : Nat} (hkind : s.kind = .store slot pathLength) : Γ.own slot := by
  cases h with
  | store hs h =>
    cases (Stmt.kind_of_assemble hs).symm.trans hkind
    exact h.1
  | discard hs => cases (Stmt.kind_of_assemble hs).symm.trans hkind
  | branch hs => cases (Stmt.kind_of_assemble hs).symm.trans hkind
  | jump hs => cases (Stmt.kind_of_assemble hs).symm.trans hkind

end VectorScript
