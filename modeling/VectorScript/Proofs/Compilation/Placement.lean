import VectorScript.Grammar.Script
import VectorScript.Proofs.Compilation.Tandem
import VectorScript.Proofs.Tree.Layout

/-!
# Where statements stand

An assignment, an expression on its own and a conditional stand where their first token does, and the
first value of a variable stands where the name of the variable does: that is the position which the
tree has. `Tandem.Placed` says of a tree that it and all trees inside it have been read from the place
where they stand.

    ReadsOne s d d' a → d.tokens = (t, q) :: rest → a.position = q           (ReadsOne.position_eq)
-/

namespace VectorScript

namespace Parse

variable {α β : Type} {s : Surroundings} {d d' : Draft}

/-- What reads the statements inside one for which so many levels are left. -/
def inner : Nat → Option (Parse (List Stmt))
  | 0 => none
  | room + 1 => some (statement room)

/-- One statement is read. -/
inductive ReadsOne (s : Surroundings) (d d' : Draft) : Stmt → Prop
  | assignment {room : Nat} {a : Stmt} (h : Parse.assignment room s d = .ok a d') : ReadsOne s d d' a
  | expression {room : Nat} {a : Stmt} (h : expressionStatement room s d = .ok a d') :
      ReadsOne s d d' a
  | conditional {room : Nat} {a : Stmt} (h : Parse.conditional room (inner room) s d = .ok a d') :
      ReadsOne s d d' a
  | declarator {room : Nat} {isShared : Bool} {ty : Ty} {a : Stmt}
      (h : Parse.declarator room isShared ty s d = .ok [a] d') : ReadsOne s d d' a

/-! ## The first token -/

section

variable {t : Token} {q : Position} {rest : List (Token × Position)}

/-- What a step that succeeded gave to the next. -/
theorem of_bind_ok {p : Parse α} {f : α → Parse β} {b : β} (h : (p >>= f) s d = .ok b d') :
    ∃ a e, p s d = .ok a e ∧ f a s e = .ok b d' := by
  replace h : EStateM.bind (p s) (fun a => f a s) d = .ok b d' := h
  unfold EStateM.bind at h
  split at h
  · next a e ha => exact ⟨a, e, ha, h⟩
  · cases h

theorem position_eq (ht : d.tokens = (t, q) :: rest) : position s d = .ok q d := by
  cases d
  cases ht
  rfl

theorem unexpected_ne {wanted : String} {b : β} : unexpected wanted s d ≠ .ok b d' := by
  intro h
  obtain ⟨p, e, -, h⟩ := of_bind_ok h
  obtain ⟨o, e', -, h⟩ := of_bind_ok h
  split at h <;> cases h

theorem ident_ok {n : String × Position} (ht : d.tokens = (t, q) :: rest)
    (h : ident s d = .ok n d') : n.2 = q := by
  obtain ⟨p, e, hp, h⟩ := of_bind_ok h
  cases (position_eq ht).symm.trans hp
  obtain ⟨o, e', -, h⟩ := of_bind_ok h
  split at h
  · obtain ⟨_, _, -, h⟩ := of_bind_ok h
    cases h
    rfl
  · exact absurd h unexpected_ne

theorem assignment_ok {room : Nat} {a : Stmt} (ht : d.tokens = (t, q) :: rest)
    (h : assignment room s d = .ok a d') : a.position = q := by
  obtain ⟨n, e, hn, h⟩ := of_bind_ok h
  obtain rfl := ident_ok ht hn
  obtain ⟨o, e', -, h⟩ := of_bind_ok h
  split at h
  · dsimp only at h
    split at h
    · obtain ⟨_, _, hx, -⟩ := of_bind_ok h
      cases hx
    · obtain ⟨path, _, -, h⟩ := of_bind_ok h
      obtain ⟨_, _, -, h⟩ := of_bind_ok h
      obtain ⟨value, _, -, h⟩ := of_bind_ok h
      obtain ⟨_, _, -, h⟩ := of_bind_ok h
      cases h
      rfl
  · cases h
  · cases h

theorem expressionStatement_ok {room : Nat} {a : Stmt} (ht : d.tokens = (t, q) :: rest)
    (h : expressionStatement room s d = .ok a d') : a.position = q := by
  obtain ⟨p, e, hp, h⟩ := of_bind_ok h
  cases (position_eq ht).symm.trans hp
  obtain ⟨value, _, -, h⟩ := of_bind_ok h
  obtain ⟨_, _, -, h⟩ := of_bind_ok h
  split at h <;> · cases h; rfl

theorem conditional_ok {room : Nat} {inner : Option (Parse (List Stmt))} {a : Stmt}
    (ht : d.tokens = (t, q) :: rest) (h : conditional room inner s d = .ok a d') :
    a.position = q := by
  obtain ⟨p, e, hp, h⟩ := of_bind_ok h
  cases (position_eq ht).symm.trans hp
  obtain ⟨_, _, -, h⟩ := of_bind_ok h
  obtain ⟨_, _, -, h⟩ := of_bind_ok h
  obtain ⟨condition, _, -, h⟩ := of_bind_ok h
  obtain ⟨_, _, -, h⟩ := of_bind_ok h
  split at h
  · obtain ⟨_, _, -, h⟩ := of_bind_ok h
    cases h
  · obtain ⟨body, _, -, h⟩ := of_bind_ok h
    obtain ⟨elsePosition, _, -, h⟩ := of_bind_ok h
    obtain ⟨more, _, -, h⟩ := of_bind_ok h
    split at h
    · obtain ⟨otherwise, _, -, h⟩ := of_bind_ok h
      cases h
      rfl
    · cases h
      rfl

/-- A name in a declaration leaves no more than the store of its first value. -/
theorem declarator_ok {room : Nat} {isShared : Bool} {ty : Ty} {stores : List Stmt}
    (h : declarator room isShared ty s d = .ok stores d') :
    ∀ a ∈ stores, stores = [a] ∧ a.inside = [] ∧
      ∀ {t q rest}, d.tokens = (t, q) :: rest → a.position = q := by
  obtain ⟨n, e, hn, h⟩ := of_bind_ok h
  obtain ⟨_, _, -, h⟩ := of_bind_ok h
  obtain ⟨slot, _, -, h⟩ := of_bind_ok h
  obtain ⟨more, _, -, h⟩ := of_bind_ok h
  intro a ha
  split at h
  · obtain ⟨value, _, -, h⟩ := of_bind_ok h
    cases h
    obtain rfl := List.mem_singleton.1 ha
    exact ⟨rfl, rfl, fun ht => ident_ok ht hn⟩
  · cases h
    cases ha

/-- A statement that has been read from a token on stands at this token. -/
theorem ReadsOne.position_eq {a : Stmt} (h : ReadsOne s d d' a) (ht : d.tokens = (t, q) :: rest) :
    a.position = q := by
  cases h with
  | assignment h => exact assignment_ok ht h
  | expression h => exact expressionStatement_ok ht h
  | conditional h => exact conditional_ok ht h
  | declarator h => exact (declarator_ok h a List.mem_cons_self).2.2 ht

end

end Parse

/-! ## Places in the text -/

namespace Tandem

open Parse

variable {c : Tandem} {α : Type} {p : Parse α} {P : α → Prop}

/-- The step has been made somewhere in the text and has read a token. -/
def Made (c : Tandem) (p : Parse α) (a : α) : Prop :=
  ∃ d d', d.tokens <:+ c.text ∧ d'.tokens.length < d.tokens.length ∧ p c.here d = .ok a d'

theorem Moves.made (h : c.Moves p P) : c.Moves p fun a => P a ∧ c.Made p a := by
  intro i d d' hd hi
  have h := h i d d' hd hi
  unfold StepsFrom at h ⊢
  split at h
  · next a e _ _ hx _ =>
    obtain ⟨heq, halike, hle, hlt, ha⟩ := h
    exact ⟨heq, halike, hle, hlt, ha, d, e, hd.here.tokens, hi ▸ hlt, hx⟩
  · exact h
  · exact h

/-- The statement has been read from the token on at which it stands. -/
def Stands (c : Tandem) (a : Stmt) : Prop :=
  ∃ d d' t rest, d.tokens <:+ c.text ∧ d.tokens = (t, a.position) :: rest ∧ ReadsOne c.here d d' a

/-- So has every statement inside it. -/
def Placed (c : Tandem) (a : Stmt) : Prop := a.Throughout c.Stands

theorem Made.stands {a : α} (h : c.Made p a) {s : Stmt}
    (hone : ∀ {d d'}, p c.here d = .ok a d' → ReadsOne c.here d d' s) : c.Stands s := by
  obtain ⟨d, d', hsuffix, hlt, hp⟩ := h
  cases ht : d.tokens with
  | nil =>
    rw [ht] at hlt
    cases hlt
  | cons first rest =>
    refine ⟨d, d', first.1, rest, hsuffix, ?_, hone hp⟩
    rw [(hone hp).position_eq ht, ht]

/-- A name in a declaration leaves a store where the name stands. -/
theorem Made.placed {room : Nat} {isShared : Bool} {ty : Ty} {stores : List Stmt}
    (h : c.Made (declarator room isShared ty) stores) : ∀ a ∈ stores, c.Placed a := by
  intro a ha
  have hone : ∀ {d d'}, declarator room isShared ty c.here d = .ok stores d' →
      ReadsOne c.here d d' a := fun h => .declarator ((declarator_ok h a ha).1 ▸ h)
  obtain ⟨d, d', -, -, hp⟩ := id h
  refine .intro (h.stands hone) fun b hb => ?_
  rw [(declarator_ok hp a ha).2.1] at hb
  cases hb

/-- What reads one statement gives a placed one if what is inside is placed. -/
theorem Moves.placed {p : Parse Stmt} (h : c.Moves p fun a => ∀ b ∈ a.inside, c.Placed b)
    (hone : ∀ {d d' a}, p c.here d = .ok a d' → ReadsOne c.here d d' a) : c.Moves p c.Placed :=
  h.made.mono fun _ ⟨hinside, hmade⟩ => .intro (hmade.stands hone) hinside

end Tandem

end VectorScript
