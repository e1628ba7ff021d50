import VectorScript.Proofs.Machine.Simulation
import VectorScript.Proofs.Tree.Layout

/-!
# The shape of code

Code without guards pushes literals and has instructions that put one value in place of those on top
of the stack (`Straight`); what they name is the program's. A chain of guarded values is a sequence of
such pieces, each value behind a guard with its lengths (`Chain`). The code of every well typed
statement is of that shape, so what is true of any such code need not look at trees.

    s.MadeOf (Stmt.Ok Γ) → s.Shaped p ∨ ∃ distance, s.kind = .jump distance              (shaped)
-/

namespace VectorScript

/-! ## Instructions -/

/-- The instruction, with its operand words, puts one value in place of so many; what it names is
the program's. -/
inductive Plain (p : Program) : Opcode → List UInt32 → Nat → Prop
  | var {slot : Nat} (h : slot < p.slots.length) : Plain p .var [UInt32.ofNat slot] 0
  | unary {op : Operation} (h : op.isUnary = true) : Plain p op.opcode [] 1
  | binary {op : Operation} (h : op.isInfix = true ∨ op = .take) : Plain p op.opcode [] 2
  | index : Plain p .index [] 2
  | member (place : Nat) : Plain p .member [UInt32.ofNat place] 1
  | list (n : Nat) : Plain p .list [UInt32.ofNat n] n
  | vector : Plain p .vector [] 4
  | matrix : Plain p .matrix [] 4
  | call {function : Nat} {f : HostFunction} (h : p.functions[function]? = some f) :
      Plain p .fun [UInt32.ofNat function, UInt32.ofNat f.params.length] f.params.length

section

variable {p : Program} {op : Opcode} {operands : List UInt32} {n : Nat}

theorem Operation.operands_opcode {op : Operation} (h : op ≠ .member) : op.opcode.operands = 0 := by
  cases op <;> first | rfl | contradiction

theorem Plain.length_operands (h : Plain p op operands n) : operands.length = op.operands := by
  cases h with
  | unary h => exact (Operation.operands_opcode (by rintro rfl; cases h)).symm
  | binary h => exact (Operation.operands_opcode (by rintro rfl; rcases h with h | h <;> cases h)).symm
  | _ => rfl

/-- It is not one of the two instructions that need more than the stack. -/
theorem Plain.ne (h : Plain p op operands n) : op ≠ .immed ∧ op ≠ .guard := by
  cases h with
  | @unary op => cases op <;> exact ⟨nofun, nofun⟩
  | @binary op => cases op <;> exact ⟨nofun, nofun⟩
  | _ => exact ⟨nofun, nofun⟩

/-- An operation is neither a variable nor a call. -/
theorem Operation.opcode_ne (op : Operation) : op.opcode ≠ .var ∧ op.opcode ≠ .fun := by
  cases op <;> exact ⟨nofun, nofun⟩

theorem Plain.slot_of_var (h : Plain p .var operands n) :
    ∃ slot < p.slots.length, operands = [UInt32.ofNat slot] := by
  generalize hop : Opcode.var = op at h
  cases h with
  | var h => exact ⟨_, h, rfl⟩
  | @unary op => exact absurd hop.symm op.opcode_ne.1
  | @binary op => exact absurd hop.symm op.opcode_ne.1
  | _ => cases hop

theorem Plain.function_of_call (h : Plain p .fun operands n) : ∃ function f,
    p.functions[function]? = some f ∧ f.params.length = n ∧
      operands = [UInt32.ofNat function, UInt32.ofNat n] := by
  generalize hop : Opcode.fun = op at h
  cases h with
  | call h => exact ⟨_, _, h, rfl, rfl⟩
  | @unary op => exact absurd hop.symm op.opcode_ne.2
  | @binary op => exact absurd hop.symm op.opcode_ne.2
  | _ => cases hop

end

/-! ## Pieces of code -/

/-- Code without guards: its words, its immediates, how many values it leaves and how high the stack
gets. -/
inductive Straight (p : Program) : List UInt32 → List Value → Nat → Nat → Prop
  | nothing : Straight p [] [] 0 0
  | literal (v : Value) : Straight p [Opcode.immed.encode none] [v] 1 1
  | seq {ws vs : List UInt32} {is js : List Value} {m n h k : Nat} (hx : Straight p ws is m h)
      (hy : Straight p vs js n k) : Straight p (ws ++ vs) (is ++ js) (m + n) (max h (m + k))
  /-- Code with an instruction that consumes what it leaves. -/
  | plain {ws operands : List UInt32} {is : List Value} {n h : Nat} {op : Opcode}
      (hx : Straight p ws is n h) (pair : Option OperandPair) (hop : Plain p op operands n) :
      Straight p (ws ++ op.encode pair :: operands) is 1 (max h 1)

/-- Values behind guards that have their lengths, one after the other. -/
inductive Chain (p : Program) : List UInt32 → List Value → Nat → Prop
  | nil : Chain p [] [] 0
  | cons {ws vs us : List UInt32} {is js ks : List Value} {h k l : Nat}
      (hcondition : Straight p ws is 1 h) (hvalue : Straight p vs js 1 k) (hrest : Chain p us ks l) :
      Chain p
        (ws ++ (Opcode.guard.encode none :: UInt32.ofNat vs.length :: UInt32.ofNat js.length ::
          (vs ++ us)))
        (is ++ (js ++ ks)) (max (max h k) l)

/-- How many indices a statement leaves on the stack below its value. -/
def StatementKind.pathLength : StatementKind → Nat
  | store _ n => n
  | _ => 0

/-- The code of a path, and then a value or a chain of guarded values. -/
inductive Statement.Shaped (p : Program) (s : Statement) : Prop
  | straight (h : Straight p s.code s.immediates (s.kind.pathLength + 1) s.depth)
  | guarded {ws vs : List UInt32} {is js : List Value} {h k : Nat}
      (hpath : Straight p ws is s.kind.pathLength h) (hchain : Chain p vs js k) (hne : vs ≠ [])
      (hcode : s.code = ws ++ vs) (himmediates : s.immediates = is ++ js)
      (hdepth : s.depth = max h (s.kind.pathLength + max k 1))

/-- Every value comes from an instruction of its own, and is on the stack at the end. -/
theorem Straight.count_le {p : Program} {ws : List UInt32} {is : List Value} {n h : Nat}
    (hx : Straight p ws is n h) : n ≤ ws.length ∧ n ≤ h := by
  induction hx with
  | nothing => exact ⟨Nat.le_refl _, Nat.le_refl _⟩
  | literal v => exact ⟨Nat.le_refl _, Nat.le_refl _⟩
  | seq _ _ hx hy =>
    rw [List.length_append]
    omega
  | plain _ _ _ hx =>
    rw [List.length_append, List.length_cons]
    omega

theorem Straight.immediates_le {p : Program} {ws : List UInt32} {is : List Value} {n h : Nat}
    (hx : Straight p ws is n h) : is.length ≤ ws.length := by
  induction hx with
  | nothing => exact Nat.le_refl _
  | literal v => exact Nat.le_refl _
  | seq _ _ hx hy =>
    rw [List.length_append, List.length_append]
    omega
  | plain _ _ _ hx =>
    rw [List.length_append]
    omega

/-! ## Trees -/

/-- What the signature has is the program's. -/
structure Signature.Within (Γ : Signature) (p : Program) : Prop where
  slot : ∀ n t, Γ.slot n = some t → n < p.slots.length
  functions : Γ.functions = p.functions

/-- A signature of slots is within every program with these slots. -/
theorem Signature.Within.ofSlots (p : Program) (table : SharedTable) :
    (Signature.ofSlots p.slots table p.functions).Within p where
  slot n t hn := by
    obtain ⟨slot, hslot, -⟩ := Option.bind_eq_some_iff.1 hn
    exact (List.getElem?_eq_some_iff.1 hslot).1
  functions := rfl

section

variable {Γ : Signature} {p : Program}

theorem Expr.HaveTypes.length_eq {es : List Expr} {ts : List Ty} (h : HaveTypes Γ es ts) :
    es.length = ts.length := by
  induction es generalizing ts with
  | nil =>
    cases h
    rfl
  | cons e es ih =>
    cases h with
    | cons _ hes => rw [List.length_cons, List.length_cons, ih hes]

mutual

/-- The code of an expression is straight. -/
theorem Expr.HasType.straight (hp : Γ.Within p) {e : Expr} {t : Ty} :
    e.HasType Γ t → Straight p e.words e.immediates 1 e.height
  | .literal v => .literal v
  | .var h => Straight.plain .nothing none (.var (hp.slot _ _ h))
  | .unary (t := t) he hop _ => by
    have hx := HasType.straight hp he
    have h := hx.plain (Ty.pair? t t) (.unary hop)
    rwa [Nat.max_eq_left hx.count_le.2] at h
  | .binary (a := a) (b := b) hl hr hop _ => by
    have hx := (HasType.straight hp hl).seq (HasType.straight hp hr)
    have h := hx.plain (Ty.pair? a b) (.binary (.inl hop))
    rwa [Nat.max_eq_left (by omega)] at h
  | .part (t := t) hl hi _ => by
    have hx := (HasType.straight hp hl).seq (HasType.straight hp hi)
    have hop : Plain p Operation.take.opcode [] 2 := .binary (.inr rfl)
    have h := hx.plain (Ty.pair? t .integer) hop
    rwa [Nat.max_eq_left (by omega)] at h
  | .element hl hi => by
    have hx := (HasType.straight hp hl).seq (HasType.straight hp hi)
    have h := hx.plain none .index
    rwa [Nat.max_eq_left (by omega)] at h
  | .field hr _ => by
    have hx := HasType.straight hp hr
    have h (place : Nat) := hx.plain none (.member place)
    simp only [Nat.max_eq_left hx.count_le.2] at h
    simp only [Expr.words, List.append_assoc, List.cons_append, List.nil_append]
    exact h _
  | .list hes => by
    have h := (HaveTypes.straight hp hes).plain none (.list _)
    simp only [Expr.words, List.append_assoc, List.cons_append, List.nil_append]
    exact h
  | .vector hes _ => by
    have h := (HaveTypes.straight hp hes).plain none .vector
    rw [Exec.height_four] at h
    simp only [Expr.wordsAll, Expr.immediatesAll, List.append_nil] at h
    exact h
  | .matrix hes _ => by
    have h := (HaveTypes.straight hp hes).plain none .matrix
    rw [Exec.height_four] at h
    simp only [Expr.wordsAll, Expr.immediatesAll, List.append_nil] at h
    exact h
  | .call hf hes ha => by
    have hlength := hes.length_eq.trans (Ty.length_of_accepts ha).symm
    have hx := HaveTypes.straight hp hes
    rw [hlength] at hx
    rw [hp.functions] at hf
    have h := hx.plain none (.call hf)
    simp only [Expr.words, List.append_assoc, List.cons_append, List.nil_append, hlength]
    exact h

theorem Expr.HaveTypes.straight (hp : Γ.Within p) {es : List Expr} {ts : List Ty} :
    HaveTypes Γ es ts →
      Straight p (Expr.wordsAll es) (Expr.immediatesAll es) es.length (Expr.heightAll es)
  | .nil => .nothing
  | .cons he hes => by
    have h := (HasType.straight hp he).seq (HaveTypes.straight hp hes)
    rwa [Nat.add_comm 1] at h

end

/-- Well typed conditions and values make a chain. -/
theorem Rhs.chain (hp : Γ.Within p) {branches : List (Expr × Expr)}
    (h : ∀ b ∈ branches, (∃ t, b.1.HasType Γ t) ∧ ∃ t, b.2.HasType Γ t) :
    Chain p (branchWords branches) (branchImmediates branches) (branchHeight branches) := by
  induction branches with
  | nil => exact .nil
  | cons branch rest ih =>
    obtain ⟨⟨_, hcondition⟩, _, hvalue⟩ := h branch List.mem_cons_self
    have hchain := Chain.cons (hcondition.straight hp) (hvalue.straight hp)
      (ih fun b hb => h b (List.mem_cons_of_mem _ hb))
    simp only [branchWords, branchImmediates, caseWords, List.append_assoc, List.cons_append]
    exact hchain

theorem Rhs.branchWords_ne_nil {branches : List (Expr × Expr)} (h : branches ≠ []) :
    branchWords branches ≠ [] := by
  cases branches with
  | nil => exact absurd rfl h
  | cons branch rest =>
    intro hnil
    have := congrArg List.length hnil
    simp [branchWords, caseWords] at this

theorem Rhs.Suits.hasTypes {target : Ty} {cases : List (Expr × Expr)} {otherwise : Option Expr}
    (h : (Rhs.guarded cases otherwise).Suits Γ target) :
    branches cases otherwise ≠ [] ∧ ∀ b ∈ branches cases otherwise,
      (∃ t, b.1.HasType Γ t) ∧ ∃ t, b.2.HasType Γ t := by
  cases h with
  | guarded hne hc ho =>
    refine ⟨fun h => hne (List.append_eq_nil_iff.1 h).1, fun b hb => ?_⟩
    rcases List.mem_append.1 hb with hb | hb
    · obtain ⟨hcondition, t, hvalue, -⟩ := hc b hb
      exact ⟨⟨_, hcondition⟩, t, hvalue⟩
    · obtain ⟨value, hvalue, rfl⟩ := Option.map_eq_some_iff.1 (Option.mem_toList.1 hb)
      obtain ⟨t, ht, -⟩ := ho value hvalue
      exact ⟨⟨_, .literal _⟩, t, ht⟩

end

/-- The code of a well typed statement has its shape. -/
theorem Statement.MadeOf.shaped {Γ : Scope} {p : Program} (hp : Γ.toSignature.Within p)
    {s : Statement} (h : s.MadeOf (Stmt.Ok Γ)) :
    s.Shaped p ∨ ∃ distance, s.kind = .jump distance := by
  cases h with
  | @store slot path value _ _ hs h =>
    obtain ⟨-, t, target, -, hpath, hvalue⟩ := h
    rw [Stmt.assemble_eq ((Expr.emitsAll path).seq value.emits)] at hs
    cases hs
    have hx := hpath.haveTypes.straight hp
    cases value with
    | plain e =>
      cases hvalue with
      | plain he =>
        obtain ⟨_, he, -⟩ := he
        exact .inl (.straight (hx.seq (he.straight hp)))
    | guarded cases otherwise =>
      obtain ⟨hne, htypes⟩ := hvalue.hasTypes
      exact .inl (.guarded hx (Rhs.chain hp htypes) (Rhs.branchWords_ne_nil hne) rfl rfl rfl)
  | discard hs h =>
    obtain ⟨t, he⟩ := h
    rw [Stmt.assemble_eq (Expr.emits _)] at hs
    cases hs
    exact .inl (.straight (he.straight hp))
  | branch hs h =>
    rw [Stmt.assemble_eq (Expr.emits _)] at hs
    cases hs
    exact .inl (.straight (h.1.straight hp))
  | jump hs => exact .inr ⟨_, Stmt.kind_of_assemble hs⟩

end VectorScript
