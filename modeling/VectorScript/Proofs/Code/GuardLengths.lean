import VectorScript.Proofs.Tree.Code
import Mathlib.Data.List.Induction
import Mathlib.Data.Nat.Find
import Mathlib.Order.Bounds.Basic

/-!
# The lengths that guards have

Code is built by steps: instructions, operand words and immediate values are added, and guards are
opened and closed. The guard that a step opens is closed by the first step before which as many guards
have been closed as opened since. Its two words are empty until then, and code goes on growing behind
them. When all steps have succeeded, the code can be finished if every guard has been closed; then each
guard has the lengths of what was added while it was open, and nothing else has been written over.

    (performAll steps).run empty = .ok () b → b.finish = .ok (code, immediates, depth) →
      each guard's words are the lengths of what its two steps enclose,
      all other words are as they were added, and depth is the greatest one       (lengths_filled)
-/

namespace VectorScript.Builder

/-! ## Steps -/

/-- What a builder can be told to do. -/
inductive Step
  | push (op : Opcode) (pair : Option OperandPair) (pops pushes : Nat)
  | operand (n : Nat)
  | immediate (v : Value)
  | setDepth (depth : Nat)
  | openGuard
  | closeGuard

namespace Step

def perform : Step → Build Unit
  | push op pair pops pushes => Builder.push op pair pops pushes
  | operand n => Builder.operand n
  | immediate v => Builder.immediate v
  | setDepth depth => Builder.setDepth depth
  | openGuard => Builder.openGuard
  | closeGuard => Builder.closeGuard

/-- The words that a step adds; the two words of a guard are empty. -/
def words : Step → List UInt32
  | push op pair _ _ => [op.encode pair]
  | operand n => [UInt32.ofNat n]
  | immediate _ => [Opcode.immed.encode none]
  | setDepth _ => []
  | openGuard => [Opcode.guard.encode none, 0, 0]
  | closeGuard => []

/-- The immediate values that a step adds. -/
def immediates : Step → List Value
  | immediate v => [v]
  | _ => []

def opens : Step → Bool
  | openGuard => true
  | _ => false

def closes : Step → Bool
  | closeGuard => true
  | _ => false

end Step

/-- All steps, one after the other. -/
def performAll (steps : List Step) : Build Unit := steps.forM Step.perform

/-- The words that steps add. -/
def added (steps : List Step) : List UInt32 := steps.flatMap Step.words

/-- The immediate values that steps add. -/
def addedImmediates (steps : List Step) : List Value := steps.flatMap Step.immediates

/-- How many guards steps open. -/
def opened (steps : List Step) : Nat := steps.countP Step.opens

/-- How many guards steps close. -/
def closed (steps : List Step) : Nat := steps.countP Step.closes

/-- Every guard that is opened is closed, and no other one is. -/
structure Matched (steps : List Step) : Prop where
  level : closed steps = opened steps
  never : ∀ n, closed (steps.take n) ≤ opened (steps.take n)

/-- The guard that is opened after the first steps is closed after the steps inside. -/
def Encloses (steps before inside : List Step) : Prop :=
  Matched inside ∧ ∃ after, steps = before ++ .openGuard :: (inside ++ .closeGuard :: after)

/-- The guards that steps have left open, innermost first, as the builder remembers them. -/
inductive Opened : List Step → List OpenGuard → Prop
  | none {steps : List Step} (h : Matched steps) : Opened steps []
  | guard {before inside : List Step} {guards : List OpenGuard} (outside : Opened before guards)
      (h : Matched inside) :
      Opened (before ++ .openGuard :: inside)
        (⟨(added before).length + 1, (added before).length + 3,
          (addedImmediates before).length⟩ :: guards)

/-- In the code there is a guard at the place, with the lengths of what the steps add. In code whose
length fits into a word, so do they. -/
structure HasLengths (code : List UInt32) (place : Nat) (inside : List Step) : Prop where
  guard : code[place]? = some (Opcode.guard.encode none)
  words : code[place + 1]? = some (UInt32.ofNat (added inside).length)
  immediates : code[place + 2]? = some (UInt32.ofNat (addedImmediates inside).length)
  exact : code.length < UInt32.size →
    (UInt32.ofNat (added inside).length).toNat = (added inside).length ∧
    (UInt32.ofNat (addedImmediates inside).length).toNat = (addedImmediates inside).length

section

variable {s : Step} {steps xs ys before inside after : List Step} {b c : Builder}

@[simp] theorem added_nil : added [] = [] := rfl

@[simp] theorem added_cons : added (s :: xs) = s.words ++ added xs := List.flatMap_cons

@[simp] theorem added_append : added (xs ++ ys) = added xs ++ added ys := List.flatMap_append

@[simp] theorem addedImmediates_nil : addedImmediates [] = [] := rfl

@[simp] theorem addedImmediates_cons :
    addedImmediates (s :: xs) = s.immediates ++ addedImmediates xs := List.flatMap_cons

@[simp] theorem addedImmediates_append :
    addedImmediates (xs ++ ys) = addedImmediates xs ++ addedImmediates ys := List.flatMap_append

@[simp] theorem opened_append : opened (xs ++ ys) = opened xs + opened ys := List.countP_append

@[simp] theorem closed_append : closed (xs ++ ys) = closed xs + closed ys := List.countP_append

@[simp] theorem opened_cons : opened (s :: xs) = opened xs + if s.opens then 1 else 0 :=
  List.countP_cons

@[simp] theorem closed_cons : closed (s :: xs) = closed xs + if s.closes then 1 else 0 :=
  List.countP_cons

@[simp] theorem opened_openGuard : opened (.openGuard :: xs) = opened xs + 1 := opened_cons

@[simp] theorem closed_openGuard : closed (.openGuard :: xs) = closed xs := closed_cons

/-- Each immediate value comes with an instruction. -/
theorem length_addedImmediates_le (steps : List Step) :
    (addedImmediates steps).length ≤ (added steps).length := by
  induction steps with
  | nil => exact Nat.le_refl _
  | cons s steps ih =>
    have hs : s.immediates.length ≤ s.words.length := by
      cases s <;> simp [Step.immediates, Step.words]
    rw [added_cons, addedImmediates_cons, List.length_append, List.length_append]
    exact Nat.add_le_add hs ih

/-! ## What a step does -/

theorem performAll_concat : (performAll (steps ++ [s])).run b = .ok () c ↔
    ∃ d, (performAll steps).run b = .ok () d ∧ s.perform.run d = .ok () c := by
  have hseq : performAll (steps ++ [s]) = (do performAll steps; s.perform) := by
    simp [performAll]
  rw [hseq]
  cases h : (performAll steps).run b with
  | ok u d =>
    rw [run_seq h]
    simp
  | error e d =>
    simp only [EStateM.run] at h
    simp [EStateM.run, bind, EStateM.bind, h]

/-- A push that succeeds takes no more from the stack than there is. -/
theorem push_ok {op : Opcode} {pair : Option OperandPair} {pops pushes : Nat}
    (h : (push op pair pops pushes).run b = .ok () c) :
    c = { b with
      code := b.code.push (op.encode pair)
      depth := b.depth - pops + pushes
      maxDepth := max b.maxDepth (b.depth - pops + pushes) } := by
  by_cases hp : pops ≤ b.depth
  · rw [run_push b op pair pops pushes hp] at h
    cases h
    rfl
  · have hfail : (push op pair pops pushes).run b =
        .error (.internal "stack depth underflow") (b.addWord (op.encode pair)) := by
      simp [push, addWord, EStateM.run, bind, EStateM.bind, modify_apply, get_apply, hp]
      rfl
    rw [hfail] at h
    cases h

theorem openGuard_ok (h : openGuard.run b = .ok () c) :
    c = { b with
      code := b.code ++ #[Opcode.guard.encode none, 0, 0]
      depth := b.depth - 1
      maxDepth := max b.maxDepth (b.depth - 1)
      guards := ⟨b.code.size + 1, b.code.size + 3, b.immediates.size⟩ :: b.guards } := by
  by_cases hdepth : 1 ≤ b.depth
  · rw [run_openGuard hdepth] at h
    cases h
    rfl
  · have hfail : openGuard.run b =
        .error (.internal "stack depth underflow") (b.addWord (Opcode.guard.encode none)) := by
      simp [openGuard, push, addWord, EStateM.run, bind, EStateM.bind, modify_apply, get_apply,
        hdepth]
      rfl
    rw [hfail] at h
    cases h

/-- Without an open guard there is nothing to close. -/
theorem run_closeGuard_nil (h : b.guards = []) :
    closeGuard.run b = .error (.internal "no open guard") b := by
  simp only [closeGuard, EStateM.run, bind, EStateM.bind, get_apply, h]
  rfl

/-- The innermost guard gets the lengths of what has been added since it was opened. -/
theorem run_closeGuard_cons {g : OpenGuard} {guards : List OpenGuard} (h : b.guards = g :: guards) :
    closeGuard.run b = .ok () { b with
      code := (b.code.setIfInBounds g.words (UInt32.ofNat (b.code.size - g.code))).setIfInBounds
        (g.words + 1) (UInt32.ofNat (b.immediates.size - g.immediates))
      guards := guards } := by
  simp only [closeGuard, EStateM.run, bind, EStateM.bind, get_apply, h, set_apply]

theorem closeGuard_ok (h : closeGuard.run b = .ok () c) : ∃ g guards, b.guards = g :: guards ∧
    c = { b with
      code := (b.code.setIfInBounds g.words (UInt32.ofNat (b.code.size - g.code))).setIfInBounds
        (g.words + 1) (UInt32.ofNat (b.immediates.size - g.immediates))
      guards := guards } := by
  cases hg : b.guards with
  | nil =>
    rw [run_closeGuard_nil hg] at h
    cases h
  | cons g guards =>
    rw [run_closeGuard_cons hg] at h
    cases h
    exact ⟨g, guards, rfl, rfl⟩

theorem closeGuard_error_iff {e : Fault} : closeGuard.run b = .error e c ↔
    b.guards = [] ∧ e = .internal "no open guard" ∧ c = b := by
  cases h : b.guards with
  | nil =>
    rw [run_closeGuard_nil h, EStateM.Result.error.injEq]
    simp only [true_and]
    exact and_congr eq_comm eq_comm
  | cons g guards =>
    rw [run_closeGuard_cons h]
    simp

/-- A step that closes no guard adds its words and immediates and nothing else. -/
theorem Step.adds (hs : s.closes = false) (h : s.perform.run b = .ok () c) :
    c.code = b.code ++ s.words.toArray ∧ c.immediates = b.immediates ++ s.immediates.toArray ∧
      c.guards = if s.opens then
        ⟨b.code.size + 1, b.code.size + 3, b.immediates.size⟩ :: b.guards else b.guards := by
  cases s with
  | push op pair pops pushes =>
    obtain rfl := push_ok h
    simp [words, immediates, opens]
  | operand n =>
    cases h
    simp [words, immediates, opens, addWord]
  | immediate v =>
    have hpush : (Builder.push .immed none 0 1).run { b with immediates := b.immediates.push v } =
        .ok () c := h
    obtain rfl := push_ok hpush
    simp [words, immediates, opens]
  | setDepth depth =>
    cases h
    simp [words, immediates, opens, withDepth]
  | openGuard =>
    obtain rfl := openGuard_ok h
    simp [words, immediates, opens]
  | closeGuard => cases hs

/-- The greatest depth so far takes the new depth into account. -/
theorem Step.maxDepth_eq (hb : b.Level) (h : s.perform.run b = .ok () c) :
    c.maxDepth = max b.maxDepth c.depth := by
  unfold Level at hb
  cases s with
  | push op pair pops pushes =>
    obtain rfl := push_ok h
    rfl
  | operand n =>
    cases h
    exact (Nat.max_eq_left hb).symm
  | immediate v =>
    have hpush : (Builder.push .immed none 0 1).run { b with immediates := b.immediates.push v } =
        .ok () c := h
    obtain rfl := push_ok hpush
    rfl
  | setDepth depth =>
    cases h
    rfl
  | openGuard =>
    obtain rfl := openGuard_ok h
    rfl
  | closeGuard =>
    obtain ⟨g, guards, -, rfl⟩ := closeGuard_ok h
    exact (Nat.max_eq_left hb).symm

/-! ## Matched steps -/

theorem matched_nil : Matched [] := ⟨rfl, fun n => by rw [List.take_nil]; exact Nat.le_refl _⟩

theorem Matched.append (hx : Matched xs) (hy : Matched ys) : Matched (xs ++ ys) where
  level := by
    rw [closed_append, opened_append, hx.level, hy.level]
  never n := by
    rw [List.take_append, closed_append, opened_append]
    exact Nat.add_le_add (hx.never n) (hy.never _)

/-- A step that has nothing to do with guards. -/
theorem matched_single (hopens : s.opens = false) (hcloses : s.closes = false) : Matched [s] where
  level := by simp [closed, opened, hopens, hcloses]
  never n := by
    cases n with
    | zero => exact Nat.le_refl _
    | succ n => simp [closed, opened, hopens, hcloses]

/-- A guard around matched steps. -/
theorem Matched.guarded (h : Matched inside) :
    Matched (.openGuard :: (inside ++ [.closeGuard])) where
  level := by
    rw [closed_openGuard, opened_openGuard, closed_append, opened_append, h.level]
    rfl
  never n := by
    cases n with
    | zero => exact Nat.le_refl _
    | succ n =>
      rw [List.take_succ_cons, closed_openGuard, opened_openGuard, List.take_append, closed_append,
        opened_append]
      have hinside := h.never n
      have hlast : closed ([Step.closeGuard].take (n - inside.length)) ≤ 1 :=
        Nat.le_trans List.countP_le_length (List.length_take_le' _ _)
      omega

theorem Matched.closed_le (h : Matched (xs ++ ys)) : closed xs ≤ opened xs := by
  have hx := h.never xs.length
  rwa [List.take_left] at hx

/-- Where more guards are closed than opened, the first that is one too many has matched steps before
it. -/
theorem exists_close (h : opened steps < closed steps) :
    ∃ inside after, steps = inside ++ .closeGuard :: after ∧ Matched inside := by
  have hmore : ∃ n, opened (steps.take n) < closed (steps.take n) :=
    ⟨steps.length, by rwa [List.take_length]⟩
  obtain ⟨n, hn, hleast⟩ : ∃ n, opened (steps.take n) < closed (steps.take n) ∧
      ∀ m < n, closed (steps.take m) ≤ opened (steps.take m) :=
    ⟨Nat.find hmore, Nat.find_spec hmore, fun m hm => Nat.le_of_not_lt (Nat.find_min hmore hm)⟩
  cases n with
  | zero => exact absurd hn (Nat.lt_irrefl 0)
  | succ n =>
    have hbefore := hleast n (Nat.lt_succ_self n)
    have hlength : n < steps.length := by
      by_contra hlong
      rw [List.take_of_length_le (by omega)] at hn hbefore
      omega
    rw [List.take_succ_eq_append_getElem hlength, opened_append, closed_append] at hn
    have hclose : steps[n] = .closeGuard := by
      cases hs : steps[n] <;> simp [hs, opened, closed, Step.opens, Step.closes] at hn hbefore ⊢ <;>
        omega
    refine ⟨steps.take n, steps.drop (n + 1), ?_, ?_, fun m => ?_⟩
    · rw [← hclose, List.getElem_cons_drop, List.take_append_drop]
    · have hone : opened [steps[n]] + 1 = closed [steps[n]] := by rw [hclose]; rfl
      have hclosed : closed [steps[n]] ≤ 1 := List.countP_le_length
      omega
    · rw [List.take_take]
      exact hleast _ (by omega)

/-- Two places where a list is split are the same or one comes first. -/
theorem split_cases {t : Step} {us vs : List Step} (h : xs ++ s :: us = ys ++ t :: vs) :
    (xs = ys ∧ s = t ∧ us = vs) ∨
    (∃ m, ys = xs ++ s :: m ∧ us = m ++ t :: vs) ∨
    (∃ m, xs = ys ++ t :: m ∧ vs = m ++ s :: us) := by
  obtain ⟨m, hm, hs⟩ | ⟨m, hm, hs⟩ := List.append_eq_append_iff.1 h <;> cases m <;> simp_all

/-- Matched steps after an open guard have no other guard in them that they leave open. -/
theorem same_guard {before' inside' : List Step}
    (h : before ++ .openGuard :: inside = before' ++ .openGuard :: inside')
    (hinside : Matched inside) (hinside' : Matched inside') : before = before' ∧ inside = inside' := by
  have hnot {m rest : List Step} (hm : Matched (m ++ .openGuard :: rest)) (hrest : Matched rest) :
      False := by
    have hlevel := hm.level
    have hle := hm.closed_le
    rw [closed_append, opened_append, closed_openGuard, opened_openGuard, hrest.level] at hlevel
    omega
  obtain ⟨rfl, -, rfl⟩ | ⟨m, rfl, rfl⟩ | ⟨m, rfl, rfl⟩ := split_cases h
  · exact ⟨rfl, rfl⟩
  · exact (hnot hinside hinside').elim
  · exact (hnot hinside' hinside).elim

/-- Two guards of the same steps are the same or have their words apart. -/
theorem guards_apart {before' rest rest' : List Step}
    (h : before ++ .openGuard :: rest = before' ++ .openGuard :: rest') :
    before = before' ∨ (added before).length + 3 ≤ (added before').length ∨
      (added before').length + 3 ≤ (added before).length := by
  obtain ⟨rfl, -, -⟩ | ⟨m, rfl, -⟩ | ⟨m, rfl, -⟩ := split_cases h
  · exact .inl rfl
  · simp [Step.words]
  · simp [Step.words]

theorem encloses_concat : Encloses (steps ++ [s]) before inside ↔
    Encloses steps before inside ∨
      Matched inside ∧ s = .closeGuard ∧ steps = before ++ .openGuard :: inside := by
  constructor
  · rintro ⟨hinside, after, hsteps⟩
    rcases List.eq_nil_or_concat after with rfl | ⟨after, t, rfl⟩
    · rw [← List.cons_append, ← List.append_assoc] at hsteps
      obtain ⟨hsteps, hs⟩ := List.append_inj' hsteps rfl
      exact .inr ⟨hinside, List.head_eq_of_cons_eq hs, hsteps⟩
    · rw [List.concat_eq_append, ← List.cons_append, ← List.append_assoc, ← List.cons_append,
        ← List.append_assoc] at hsteps
      exact .inl ⟨hinside, after, by simpa using (List.append_inj' hsteps rfl).1⟩
  · rintro (⟨hinside, after, rfl⟩ | ⟨hinside, rfl, rfl⟩)
    · exact ⟨hinside, after ++ [s], by simp⟩
    · exact ⟨hinside, [], by simp⟩

/-- In matched steps every guard is closed. -/
theorem Matched.encloses {rest : List Step} (h : Matched (before ++ .openGuard :: rest)) :
    ∃ inside, Encloses (before ++ .openGuard :: rest) before inside := by
  have hlevel := h.level
  have hle := h.closed_le
  rw [closed_append, opened_append, closed_openGuard, opened_openGuard] at hlevel
  have hclose : opened rest < closed rest := by omega
  obtain ⟨inside, after, rfl, hinside⟩ := exists_close hclose
  exact ⟨inside, hinside, after, rfl⟩

/-! ## Open guards -/

theorem Opened.append {guards : List OpenGuard} (h : Opened xs guards) (hy : Matched ys) :
    Opened (xs ++ ys) guards := by
  cases h with
  | none hx => exact .none (hx.append hy)
  | guard outside hinside =>
    rw [List.append_assoc, List.cons_append]
    exact .guard outside (hinside.append hy)

theorem Opened.level {guards : List OpenGuard} (h : Opened steps guards) :
    opened steps = closed steps + guards.length := by
  induction h with
  | none h => exact h.level.symm
  | guard _ h ih =>
    rw [opened_append, closed_append, opened_openGuard, closed_openGuard, ih, h.level,
      List.length_cons]
    omega

/-! ## What all steps do -/

/-- The builder has the words of the steps. Those of a closed guard are filled in, all others are as
they were added. -/
structure Laid (steps : List Step) (b : Builder) : Prop where
  immediates : b.immediates.toList = addedImmediates steps
  size : b.code.size = (added steps).length
  guards : Opened steps b.guards
  filled : ∀ before inside, Encloses steps before inside →
    b.code[(added before).length + 1]? = some (UInt32.ofNat (added inside).length) ∧
    b.code[(added before).length + 2]? = some (UInt32.ofNat (addedImmediates inside).length)
  other : ∀ i, (∀ before inside, Encloses steps before inside →
      i ≠ (added before).length + 1 ∧ i ≠ (added before).length + 2) →
    b.code[i]? = (added steps)[i]?

theorem laid_empty : Laid [] empty where
  immediates := rfl
  size := rfl
  guards := .none matched_nil
  filled _ _ h := by simp [Encloses] at h
  other _ _ := rfl

theorem Laid.immediates_size (h : Laid steps b) :
    b.immediates.size = (addedImmediates steps).length := by
  rw [← h.immediates, Array.length_toList]

/-- A step that closes no guard leaves all words as they are. -/
theorem Laid.adds (h : Laid steps b) (hs : s.closes = false) (hrun : s.perform.run b = .ok () c) :
    Laid (steps ++ [s]) c := by
  obtain ⟨hcode, himmediates, hguards⟩ := s.adds hs hrun
  have hencloses {before inside} : Encloses (steps ++ [s]) before inside ↔
      Encloses steps before inside := by
    rw [encloses_concat, or_iff_left]
    rintro ⟨-, rfl, -⟩
    cases hs
  have hkeep {i : Nat} {w : UInt32} (hw : b.code[i]? = some w) : c.code[i]? = some w := by
    rw [hcode, Array.getElem?_append_left (Array.getElem?_eq_some_iff.1 hw).1, hw]
  refine ⟨?_, ?_, ?_, fun before inside hin => ?_, fun i hi => ?_⟩
  · simp [himmediates, h.immediates]
  · simp [hcode, h.size]
  · rw [hguards]
    cases hopens : s.opens with
    | true =>
      have hopen : s = .openGuard := by cases s <;> simp_all [Step.opens]
      subst hopen
      rw [if_pos rfl, h.size, h.immediates_size]
      exact .guard h.guards matched_nil
    | false => exact h.guards.append (matched_single hopens hs)
  · exact (h.filled before inside (hencloses.1 hin)).imp hkeep hkeep
  · have hold := h.other i fun before inside hin => hi before inside (hencloses.2 hin)
    rw [hcode, Array.getElem?_append, added_append, List.getElem?_append, h.size, hold]
    simp

/-- The guard that is closed next is the one that has not been closed yet. -/
theorem encloses_closeGuard {before' inside' : List Step} (hinside : Matched inside) :
    Encloses (before ++ .openGuard :: inside ++ [.closeGuard]) before' inside' ↔
      Encloses (before ++ .openGuard :: inside) before' inside' ∨ before' = before ∧ inside' = inside := by
  rw [encloses_concat]
  refine or_congr_right ⟨fun ⟨hinside', _, h⟩ => ?_, ?_⟩
  · exact same_guard h.symm hinside' hinside
  · rintro ⟨rfl, rfl⟩
    exact ⟨hinside, rfl, rfl⟩

/-- A guard that has been closed is another one than the innermost open guard. -/
theorem Encloses.apart {before' inside' : List Step} (hinside : Matched inside)
    (h : Encloses (before ++ .openGuard :: inside) before' inside') :
    (added before).length + 3 ≤ (added before').length ∨
      (added before').length + 3 ≤ (added before).length := by
  obtain ⟨hinside', after, hsteps⟩ := h
  obtain rfl | hapart := guards_apart hsteps
  · obtain rfl := List.tail_eq_of_cons_eq (List.append_cancel_left hsteps)
    rw [← List.singleton_append, ← List.append_assoc] at hinside
    have hle := hinside.closed_le
    rw [closed_append, opened_append, hinside'.level] at hle
    exact absurd (Nat.le_of_add_le_add_left hle) (by decide)
  · exact hapart

/-- Two words next to each other are filled in, and no other one. -/
theorem getElem?_filled {code : Array UInt32} {place : Nat} (h : place + 2 < code.size)
    (length count : UInt32) (i : Nat) :
    ((code.setIfInBounds (place + 1) length).setIfInBounds (place + 1 + 1) count)[i]? =
      if i = place + 1 then some length else if i = place + 2 then some count else code[i]? := by
  rw [Array.getElem?_setIfInBounds, Array.getElem?_setIfInBounds, Array.size_setIfInBounds]
  grind

/-- Closing a guard fills in its two words. -/
theorem Laid.closes (h : Laid steps b) (hrun : closeGuard.run b = .ok () c) :
    Laid (steps ++ [.closeGuard]) c := by
  obtain ⟨g, guards, hg, rfl⟩ := closeGuard_ok hrun
  have hopened := h.guards
  rw [hg] at hopened
  cases hopened with | @guard before inside _ outside hinside =>
  have hsize : b.code.size - ((added before).length + 3) = (added inside).length := by
    rw [h.size]
    simp [Step.words]
    omega
  have himmediates :
      b.immediates.size - (addedImmediates before).length = (addedImmediates inside).length := by
    rw [h.immediates_size]
    simp [Step.immediates]
  have hroom : (added before).length + 2 < b.code.size := by
    rw [h.size]
    simp [Step.words]
  rw [hsize, himmediates]
  have hcode := getElem?_filled hroom (UInt32.ofNat (added inside).length)
    (UInt32.ofNat (addedImmediates inside).length)
  refine ⟨?_, ?_, ?_, fun before' inside' hin => ?_, fun i hi => ?_⟩
  · simp [h.immediates, Step.immediates]
  · simp [h.size, Step.words]
  · rw [List.append_assoc, List.cons_append]
    exact outside.append hinside.guarded
  -- A guard that was closed before has its words elsewhere, any other is this one.
  · rw [hcode, hcode]
    obtain hin | ⟨rfl, rfl⟩ := (encloses_closeGuard hinside).1 hin
    · have hapart := hin.apart hinside
      rw [if_neg (by omega), if_neg (by omega), if_neg (by omega), if_neg (by omega)]
      exact h.filled before' inside' hin
    · simp
  · have hhere := hi before inside ((encloses_closeGuard hinside).2 (.inr ⟨rfl, rfl⟩))
    rw [hcode, if_neg hhere.1, if_neg hhere.2, h.other i fun before' inside' hin =>
      hi before' inside' ((encloses_closeGuard hinside).2 (.inl hin))]
    simp [Step.words]

/-- The depths that the builder has had before, between and after the steps. -/
def depths (steps : List Step) : Set Nat :=
  {d | ∃ before c, before <+: steps ∧ (performAll before).run empty = .ok () c ∧ c.depth = d}

theorem depths_concat (h : (performAll (steps ++ [s])).run empty = .ok () c) :
    depths (steps ++ [s]) = insert c.depth (depths steps) := by
  ext d
  constructor
  · rintro ⟨before, e, hprefix, hrun, rfl⟩
    obtain rfl | hprefix := List.prefix_concat_iff.1 hprefix
    · rw [h] at hrun
      cases hrun
      exact Set.mem_insert _ _
    · exact Set.mem_insert_of_mem _ ⟨before, e, hprefix, hrun, rfl⟩
  · rintro (rfl | ⟨before, e, hprefix, hrun, rfl⟩)
    · exact ⟨_, c, List.prefix_rfl, h, rfl⟩
    · exact ⟨before, e, hprefix.trans (List.prefix_append _ _), hrun, rfl⟩

/-- Whatever has been performed, the builder has the words of the steps and has noted the greatest
depth. -/
theorem laid_performAll (h : (performAll steps).run empty = .ok () b) :
    Laid steps b ∧ IsGreatest (depths steps) b.maxDepth := by
  induction steps using List.reverseRecOn generalizing b with
  | nil =>
    cases h
    refine ⟨laid_empty, ⟨[], empty, List.prefix_rfl, rfl, rfl⟩, ?_⟩
    rintro d ⟨before, c, hprefix, hrun, rfl⟩
    obtain rfl := List.prefix_nil.1 hprefix
    cases hrun
    exact Nat.le_refl _
  | append_singleton steps s ih =>
    obtain ⟨c, hsteps, hs⟩ := performAll_concat.1 h
    obtain ⟨hlaid, hgreatest⟩ := ih hsteps
    refine ⟨?_, ?_⟩
    · cases hclose : s.closes with
      | false => exact hlaid.adds hclose hs
      | true =>
        have hs' : s = .closeGuard := by cases s <;> simp_all [Step.closes]
        subst hs'
        exact hlaid.closes hs
    · have hlevel : c.Level := hgreatest.2 ⟨steps, c, List.prefix_rfl, hsteps, rfl⟩
      rw [depths_concat h, s.maxDepth_eq hlevel hs, max_comm]
      exact hgreatest.insert _

theorem finish_ok {code : List UInt32} {immediates : List Value} {depth : Nat}
    (h : b.finish = .ok (code, immediates, depth)) :
    b.guards = [] ∧ b.code.toList = code ∧ b.immediates.toList = immediates ∧ b.maxDepth = depth := by
  cases hempty : b.guards.isEmpty with
  | false => simp [finish, hempty] at h
  | true => simpa [finish, List.isEmpty_iff.1 hempty] using h

/-- A closed guard has the lengths of what it encloses. -/
theorem Laid.hasLengths (h : Laid steps b) (hin : Encloses steps before inside) :
    HasLengths b.code.toList (added before).length inside := by
  obtain ⟨hwords, himmediates⟩ := h.filled before inside hin
  obtain ⟨-, after, hsteps⟩ := hin
  have hlength : (added inside).length ≤ b.code.size := by
    rw [h.size, hsteps]
    simp
    omega
  refine ⟨?_, ?_, ?_, fun hfits => ?_⟩
  · rw [Array.getElem?_toList, h.other _ fun before' inside' hin' => ?_, hsteps]
    · simp [Step.words]
    · obtain ⟨-, after', hsteps'⟩ := hin'
      obtain rfl | hapart := guards_apart (hsteps.symm.trans hsteps') <;> omega
  · rw [Array.getElem?_toList, hwords]
  · rw [Array.getElem?_toList, himmediates]
  · have hle := length_addedImmediates_le inside
    rw [Array.length_toList] at hfits
    exact ⟨UInt32.toNat_ofNat_of_lt (by omega), UInt32.toNat_ofNat_of_lt (by omega)⟩

/-- Guards have the lengths of what they enclose.

When steps succeed on an empty builder, the code can be finished exactly if as many guards have been
closed as opened. In finished code each guard has been closed, and has the lengths of what has been
added between; every word that is not one of a guard's lengths is as it was added; and the depth is the
greatest that the builder has had. A guard can be closed unless none is open, and then nothing
changes. -/
theorem lengths_filled (h : (performAll steps).run empty = .ok () b) :
    ((∃ result, b.finish = .ok result) ↔ closed steps = opened steps) ∧
    (∀ code immediates depth, b.finish = .ok (code, immediates, depth) →
      (∀ before rest, steps = before ++ .openGuard :: rest →
        ∃ inside, Encloses steps before inside ∧ HasLengths code (added before).length inside) ∧
      (code.length = (added steps).length ∧ ∀ i, (∀ before rest, steps = before ++ .openGuard :: rest →
          i ≠ (added before).length + 1 ∧ i ≠ (added before).length + 2) →
        code[i]? = (added steps)[i]?) ∧
      immediates = addedImmediates steps ∧
      IsGreatest (depths steps) depth) ∧
    (∀ e c, closeGuard.run b = .error e c ↔
      closed steps = opened steps ∧ e = .internal "no open guard" ∧ c = b) := by
  obtain ⟨hlaid, hgreatest⟩ := laid_performAll h
  have hnone : b.guards = [] ↔ closed steps = opened steps := by
    rw [← List.length_eq_zero_iff, hlaid.guards.level]
    omega
  refine ⟨?_, fun code immediates depth hfinish => ?_, fun e c => ?_⟩
  · rw [← hnone, ← List.isEmpty_iff]
    cases hempty : b.guards.isEmpty <;> simp [finish, hempty]
  · obtain ⟨hg, rfl, rfl, rfl⟩ := finish_ok hfinish
    have hopened := hlaid.guards
    rw [hg] at hopened
    cases hopened with | none hmatched =>
    refine ⟨fun before rest hsteps => ?_, ⟨?_, fun i hi => ?_⟩, hlaid.immediates, hgreatest⟩
    · subst hsteps
      obtain ⟨inside, hin⟩ := hmatched.encloses
      exact ⟨inside, hin, hlaid.hasLengths hin⟩
    · rw [Array.length_toList, hlaid.size]
    · rw [Array.getElem?_toList]
      refine hlaid.other i fun before inside hin => ?_
      obtain ⟨-, after, hsteps⟩ := hin
      exact hi before _ hsteps
  · rw [closeGuard_error_iff, hnone]

/-- Two guards, one inside the other. -/
def nestedGuards : List Step := [.immediate (.integer 1), .openGuard, .immediate (.integer 2),
  .openGuard, .immediate (.integer 3), .closeGuard, .closeGuard]

/-- The inner one is closed first. -/
theorem lengths_filled_nested :
    ∃ b code immediates, (performAll nestedGuards).run empty = .ok () b ∧
      b.finish = .ok (code, immediates, 1) ∧
      (∃ inside, HasLengths code 1 inside ∧ (added inside).length = 5) ∧
      (∃ inside, HasLengths code 5 inside ∧ (added inside).length = 1) := by
  have hrun : (performAll nestedGuards).run empty = .ok () _ := rfl
  obtain ⟨-, hfinish, -⟩ := lengths_filled hrun
  obtain ⟨hguards, -⟩ := hfinish _ _ _ rfl
  obtain ⟨outer, -, houter⟩ := hguards [.immediate (.integer 1)] _ rfl
  obtain ⟨inner, -, hinner⟩ :=
    hguards [.immediate (.integer 1), .openGuard, .immediate (.integer 2)] _ rfl
  refine ⟨_, _, _, hrun, rfl, ⟨outer, houter, ?_⟩, ⟨inner, hinner, ?_⟩⟩
  · rw [← (houter.exact (by decide)).1, ← Option.some_inj.1 houter.words]
    rfl
  · rw [← (hinner.exact (by decide)).1, ← Option.some_inj.1 hinner.words]
    rfl

end

end VectorScript.Builder
