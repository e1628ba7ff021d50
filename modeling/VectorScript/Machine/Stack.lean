import VectorScript.Fault

/-!
# The evaluation stack

A stack that refuses to grow past a limit. Its items stand with the top first; `contents` lists them
from the bottom up. The room left and the items always make up the limit.

    (s.drop n).size + (s.drop n).room = s.size + s.room                (size_add_room_drop)
-/

namespace VectorScript

structure Stack (α : Type) where
  name : String
  /-- How many more items the stack can take. -/
  room : Nat
  items : List α

/-- A step on a stack; a step that fails keeps what it has done. -/
abbrev StackStep (α : Type) := EStateM Fault (Stack α)

namespace Stack

variable {α : Type}

def empty (name : String) (limit : Nat) : Stack α := ⟨name, limit, []⟩

def size (s : Stack α) : Nat := s.items.length

def contents (s : Stack α) : List α := s.items.reverse

/-- The name and the items from the bottom up. -/
def render (item : α → String) (s : Stack α) : String :=
  s.name ++ " [" ++ ", ".intercalate (s.contents.map item) ++ "]"

def underflow (s : Stack α) : Fault := .internal (s.name ++ " underflow")

/-- The topmost items from the bottom up, if there are so many. -/
def top? (s : Stack α) (n : Nat) : Option (List α) :=
  let items := s.items.take n
  if items.length = n then some items.reverse else none

/-- Drops the topmost items. -/
def drop (s : Stack α) (n : Nat) : Stack α :=
  { s with room := s.room + min n s.items.length, items := s.items.drop n }

/-- Keeps the given number of items at the bottom. -/
def truncate (s : Stack α) (size : Nat) : Stack α := s.drop (s.size - size)

def clear (s : Stack α) : Stack α := s.drop s.size

def push (a : α) : StackStep α Unit := do
  let s ← get
  match s.room with
  | 0 => throw ((Fault.of .stackOverflow).because s.name)
  | room + 1 => set { s with room := room, items := a :: s.items }

def pop : StackStep α α := do
  let s ← get
  match s.items with
  | [] => throw s.underflow
  | a :: items =>
    set { s with room := s.room + 1, items := items }
    return a

/-- Takes the right operand and then the left, and gives the left first. -/
def popPair : StackStep α (α × α) := do
  let right ← pop
  let left ← pop
  return (left, right)

/-- Takes a number of items at once and gives them from the bottom up. -/
def popMany (n : Nat) : StackStep α (List α) := do
  let s ← get
  match s.top? n with
  | some items =>
    set (s.drop n)
    return items
  | none => throw s.underflow

theorem size_add_room_drop (s : Stack α) (n : Nat) :
    (s.drop n).size + (s.drop n).room = s.size + s.room := by
  simp only [drop, size, List.length_drop]
  omega

end Stack

end VectorScript
