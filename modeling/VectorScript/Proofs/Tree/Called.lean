import VectorScript.Proofs.Code.Scan
import Mathlib.Data.List.Forall2

/-!
# The functions that trees call

An expression calls functions, a call after those in its arguments, and a statement calls what its
expressions do, in the order in which they are written. The code of a tree has one instruction for each
of these calls, in the same order, with the index of the function and the number of the arguments; no
other instruction of it is a call.

    flattenAll body = .ok statements → Statement.Make statements (callsAll body)   (make_flattenAll)
-/

namespace VectorScript

/-! ## Trees -/

namespace Expr

mutual

/-- The functions that an expression calls, each with the number of its arguments. -/
def calls : Expr → List (Nat × Nat)
  | literal _ | var _ => []
  | unary _ _ e | field e _ => calls e
  | binary _ _ l r | element l r => calls l ++ calls r
  | list items => callsAll items
  | vector x y z w | matrix x y z w => calls x ++ (calls y ++ (calls z ++ calls w))
  | call function args => callsAll args ++ [(function, args.length)]

def callsAll : List Expr → List (Nat × Nat)
  | [] => []
  | e :: rest => calls e ++ callsAll rest

end

theorem callsAll_eq_flatMap (es : List Expr) : callsAll es = es.flatMap calls := by
  induction es with
  | nil => rfl
  | cons e rest ih => rw [callsAll, ih, List.flatMap_cons]

end Expr

namespace Rhs

/-- The calls of conditions, each with those of the value that it guards. -/
def branchCalls (branches : List (Expr × Expr)) : List (Nat × Nat) :=
  branches.flatMap fun b => b.1.calls ++ b.2.calls

def calls : Rhs → List (Nat × Nat)
  | plain e => e.calls
  | guarded cases otherwise => branchCalls (branches cases otherwise)

end Rhs

namespace Stmt

mutual

/-- The functions that a statement calls, in the order of the text. -/
def calls : Stmt → List (Nat × Nat)
  | store _ path value _ => Expr.callsAll path ++ value.calls
  | discard e _ => e.calls
  | ifThen condition _ body => condition.calls ++ callsAll body
  | ifElse condition _ body _ otherwise => condition.calls ++ callsAll body ++ callsAll otherwise

def callsAll : List Stmt → List (Nat × Nat)
  | [] => []
  | s :: rest => calls s ++ callsAll rest

end

theorem callsAll_append (xs ys : List Stmt) : callsAll (xs ++ ys) = callsAll xs ++ callsAll ys := by
  induction xs with
  | nil => rfl
  | cons s rest ih => rw [List.cons_append, callsAll, callsAll, ih, List.append_assoc]

theorem callsAll_flatten (parts : List (List Stmt)) :
    callsAll parts.flatten = parts.flatMap callsAll := by
  induction parts with
  | nil => rfl
  | cons part rest ih => rw [List.flatten_cons, callsAll_append, ih, List.flatMap_cons]

end Stmt

/-! ## Instructions -/

/-- The calls among instructions. -/
def callSites (sites : List Site) : List Site := sites.filter fun site => site.op = .fun

theorem callSites_append (xs ys : List Site) : callSites (xs ++ ys) = callSites xs ++ callSites ys :=
  List.filter_append ..

/-- The instruction is the call, as far as its numbers fit into words. -/
structure Site.Makes (call : Nat × Nat) (site : Site) : Prop where
  word : site.word = Opcode.fun.encode none
  operands : site.operands = [UInt32.ofNat call.1, UInt32.ofNat call.2]

/-- The calls in the code of the statement. -/
def Statement.callSites (s : Statement) : List Site :=
  VectorScript.callSites ((sites? s.code).getD [])

/-- The code of every statement is whole instructions, and together they make these calls. -/
structure Statement.Make (statements : List Statement) (calls : List (Nat × Nat)) : Prop where
  whole : ∀ s ∈ statements, ∃ sites, sites? s.code = some sites
  makes : List.Forall₂ Site.Makes calls (statements.flatMap callSites)

theorem Statement.Make.append {xs ys : List Statement} {calls more : List (Nat × Nat)}
    (hx : Make xs calls) (hy : Make ys more) : Make (xs ++ ys) (calls ++ more) where
  whole := List.forall_mem_append.2 ⟨hx.whole, hy.whole⟩
  makes := by
    rw [List.flatMap_append]
    exact List.rel_append hx.makes hy.makes

/-- Before any whole instructions, the words are whole instructions that make these calls. -/
def Called (words : List UInt32) (calls : List (Nat × Nat)) : Prop :=
  ∀ rest sites, sites? rest = some sites → ∃ more, sites? (words ++ rest) = some (more ++ sites) ∧
    List.Forall₂ Site.Makes calls (callSites more)

section

variable {ws vs operands : List UInt32} {xs ys : List (Nat × Nat)} {op : Opcode}

theorem called_nil : Called [] [] := fun _ _ h => ⟨[], h, .nil⟩

theorem Called.append (hx : Called ws xs) (hy : Called vs ys) : Called (ws ++ vs) (xs ++ ys) := by
  intro rest sites h
  obtain ⟨later, hlater, hys⟩ := hy rest sites h
  obtain ⟨more, hmore, hxs⟩ := hx _ _ hlater
  refine ⟨more ++ later, ?_, ?_⟩
  · rw [List.append_assoc, List.append_assoc]
    exact hmore
  · rw [callSites_append]
    exact List.rel_append hxs hys

/-- One instruction with its operands. -/
theorem called_single (pair : Option OperandPair) (hlength : operands.length = op.operands)
    (hcalls : ∀ rest, List.Forall₂ Site.Makes xs
      (callSites [⟨op.encode pair, op, Expr.tag pair, operands, rest⟩])) :
    Called (op.encode pair :: operands) xs := by
  intro rest sites h
  refine ⟨_, ?_, hcalls rest⟩
  rw [List.cons_append, sites?_encode op pair hlength, h]
  rfl

/-- After the words an instruction that is no call. -/
theorem Called.step (hx : Called ws xs) (pair : Option OperandPair)
    (hlength : operands.length = op.operands) (hop : op ≠ .fun) :
    Called (ws ++ op.encode pair :: operands) xs := by
  have hone : Called (op.encode pair :: operands) [] :=
    called_single pair hlength fun rest => by simp [callSites, hop]
  simpa using hx.append hone

/-- After the words a call. -/
theorem Called.call (hx : Called ws xs) (function count : Nat) :
    Called (ws ++ Opcode.fun.encode none :: [UInt32.ofNat function, UInt32.ofNat count])
      (xs ++ [(function, count)]) :=
  hx.append (called_single none rfl fun _ => .cons ⟨rfl, rfl⟩ .nil)

/-- The words on their own. -/
theorem Called.alone (hx : Called ws xs) : ∃ sites, sites? ws = some sites ∧
    List.Forall₂ Site.Makes xs (callSites sites) := by
  have h := hx [] [] sites?_nil
  simpa only [List.append_nil] using h

end

/-! ## Expressions -/

namespace Expr

variable {Γ : Signature}

mutual

/-- The code of an expression makes its calls. -/
theorem HasType.called {e : Expr} {t : Ty} : e.HasType Γ t → Called e.words e.calls
  | .literal v => called_nil.step none rfl nofun
  | .var _ => called_nil.step none rfl nofun
  | @HasType.unary _ op _ _ he hop _ => by
    have hne : op ≠ .member := by
      rintro rfl
      cases hop
    exact (HasType.called he).step _ (Operation.operands_opcode hne).symm op.opcode_ne.2
  | @HasType.binary _ op _ _ _ _ hl hr hop _ => by
    have hne : op ≠ .member := by
      rintro rfl
      cases hop
    exact ((HasType.called hl).append (HasType.called hr)).step _
      (Operation.operands_opcode hne).symm op.opcode_ne.2
  | .part hl hi _ => ((HasType.called hl).append (HasType.called hi)).step _ rfl nofun
  | .element hl hi => ((HasType.called hl).append (HasType.called hi)).step none rfl nofun
  | .field hr _ => by
    simp only [words, List.append_assoc, List.cons_append, List.nil_append]
    exact (HasType.called hr).step none rfl nofun
  | .list hes => by
    simp only [words, List.append_assoc, List.cons_append, List.nil_append]
    exact (HaveTypes.called hes).step none rfl nofun
  | .vector hes _ => by
    have h := HaveTypes.called hes
    simp only [wordsAll, callsAll, List.append_nil] at h
    exact h.step none rfl nofun
  | .matrix hes _ => by
    have h := HaveTypes.called hes
    simp only [wordsAll, callsAll, List.append_nil] at h
    exact h.step none rfl nofun
  | .call _ hes _ => by
    simp only [words, List.append_assoc, List.cons_append, List.nil_append]
    exact (HaveTypes.called hes).call _ _

theorem HaveTypes.called {es : List Expr} {ts : List Ty} :
    HaveTypes Γ es ts → Called (wordsAll es) (callsAll es)
  | .nil => called_nil
  | .cons he hes => (HasType.called he).append (HaveTypes.called hes)

end

end Expr

/-! ## Right sides and statements -/

section

variable {Γ : Signature}

/-- A guard between a condition and its value is no call. -/
theorem Rhs.called_branches {branches : List (Expr × Expr)}
    (h : ∀ b ∈ branches, (∃ t, b.1.HasType Γ t) ∧ ∃ t, b.2.HasType Γ t) :
    Called (branchWords branches) (branchCalls branches) := by
  induction branches with
  | nil => exact called_nil
  | cons branch rest ih =>
    obtain ⟨condition, value⟩ := branch
    obtain ⟨⟨⟨_, hcondition⟩, _, hvalue⟩, hrest⟩ := List.forall_mem_cons.1 h
    have hguard : Called (condition.words ++ Opcode.guard.encode none ::
        [UInt32.ofNat value.words.length, UInt32.ofNat value.immediates.length]) condition.calls :=
      hcondition.called.step none rfl nofun
    have hcase := (hguard.append hvalue.called).append (ih hrest)
    simp only [branchWords, caseWords, branchCalls, List.flatMap_cons, List.append_assoc,
      List.cons_append, List.nil_append] at hcase ⊢
    exact hcase

theorem Rhs.Suits.called {target : Ty} {r : Rhs} (h : r.Suits Γ target) :
    Called r.words r.calls := by
  cases r with
  | plain e =>
    cases h with
    | plain h =>
      obtain ⟨_, h, -⟩ := h
      exact h.called
  | guarded cases otherwise => exact called_branches h.hasTypes.2

end

namespace Stmt

variable {Γ : Scope}

/-- The statement that is made of code makes the calls of the code. -/
theorem make_assemble {kind : StatementKind} {code : Build Unit} {p : Position} {st : Statement}
    {words : List UInt32} {immediates : List Value} {pushes height : Nat} {xs : List (Nat × Nat)}
    (hst : assemble kind code p = .ok st) (hcode : Builder.Emits code words immediates pushes height)
    (hcalled : Called words xs) : Statement.Make [st] xs := by
  rw [assemble_eq hcode] at hst
  cases hst
  obtain ⟨sites, hsites, hmakes⟩ := hcalled.alone
  refine ⟨List.forall_mem_singleton.2 ⟨sites, hsites⟩, ?_⟩
  rw [List.flatMap_singleton, Statement.callSites, hsites]
  exact hmakes

mutual

/-- Laying a statement out gives statements that make its calls. -/
theorem make_flatten : (s : Stmt) → s.Ok Γ → {statements : List Statement} →
    s.flatten = .ok statements → Statement.Make statements s.calls
  | store slot path value p, hs, statements, h => by
    obtain ⟨-, t, target, -, hpath, hvalue⟩ := hs
    obtain ⟨st, hst, rfl⟩ := of_flatten_store h
    exact make_assemble hst ((Expr.emitsAll path).seq value.emits)
      (hpath.haveTypes.called.append hvalue.called)
  | discard e p, hs, statements, h => by
    obtain ⟨t, he⟩ := hs
    obtain ⟨st, hst, rfl⟩ := of_flatten_discard h
    exact make_assemble hst e.emits he.called
  | ifThen condition p body, hs, statements, h => by
    obtain ⟨hcondition, hbody⟩ := hs
    obtain ⟨inner, st, hinner, hst, rfl⟩ := of_flatten_ifThen h
    exact (make_assemble hst condition.emits hcondition.called).append
      (make_flattenAll body hbody hinner)
  | ifElse condition p body elsePosition otherwise, hs, statements, h => by
    obtain ⟨hcondition, hbody, hotherwise⟩ := hs
    obtain ⟨inner, other, branch, leap, hinner, hother, hbranch, hleap, rfl⟩ :=
      of_flatten_ifElse h
    have hleap : Statement.Make [leap] [] := make_assemble hleap .nothing called_nil
    exact ((make_assemble hbranch condition.emits hcondition.called).append
      (make_flattenAll body hbody hinner)).append
        (hleap.append (make_flattenAll otherwise hotherwise hother))

theorem make_flattenAll : (body : List Stmt) → AllOk Γ body → {statements : List Statement} →
    flattenAll body = .ok statements → Statement.Make statements (callsAll body)
  | [], _, statements, h => by
    cases h
    exact ⟨List.forall_mem_nil _, .nil⟩
  | s :: rest, hs, statements, h => by
    obtain ⟨first, others, hfirst, hothers, rfl⟩ := of_flattenAll_cons h
    exact (make_flatten s hs.1 hfirst).append (make_flattenAll rest hs.2 hothers)

end

end Stmt

end VectorScript
