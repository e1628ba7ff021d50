import VectorScript.Proofs.Code.Straight
import VectorScript.Proofs.Machine.Dispatched
import VectorScript.Proofs.Tree.Harmless

/-!
# Which scripts a tree names

A call of `dispatch` whose only argument is a literal names a script. What the code of a tree
dispatches, the tree names: between the words of any other trees, a lone literal is the instruction
right before its call, and after anything else that yields a value there is no literal.

    s.MadeOf (fun a => a.Ok Γ ∧ a.Each (Expr.Noted p.functions T)) →
      some script ∈ s.dispatched p.functions → T script                       (Statement.MadeOf.noted)
-/

namespace VectorScript

/-! ## Trees -/

namespace Expr

mutual

/-- The scripts that calls of `dispatch` name by a lone literal are among those of `T`. -/
def Noted (functions : List HostFunction) (T : String → Prop) : Expr → Prop
  | literal _ | var _ => True
  | unary _ _ e | field e _ => Noted functions T e
  | binary _ _ l r | element l r => Noted functions T l ∧ Noted functions T r
  | list items => AllNoted functions T items
  | vector x y z w | matrix x y z w =>
    Noted functions T x ∧ Noted functions T y ∧ Noted functions T z ∧ Noted functions T w
  | call function args => AllNoted functions T args ∧ ∀ f script,
      functions[function]? = some f → f.name = Library.dispatchName →
        args = [literal (.text script)] → T script

def AllNoted (functions : List HostFunction) (T : String → Prop) : List Expr → Prop
  | [] => True
  | e :: rest => Noted functions T e ∧ AllNoted functions T rest

end

theorem allNoted_iff {functions : List HostFunction} {T : String → Prop} {es : List Expr} :
    AllNoted functions T es ↔ ∀ e ∈ es, e.Noted functions T := by
  induction es with
  | nil => simp [AllNoted]
  | cons e rest ih => simp [AllNoted, ih]

/-- The text of a literal that comes last; `last` is the one before them all. -/
def lastText? (last : Option String) (es : List Expr) : Option String :=
  es.foldl (fun _ e => e.literalText?) last

theorem length_le_wordsAll (es : List Expr) : es.length ≤ (wordsAll es).length := by
  induction es with
  | nil => exact Nat.le_refl _
  | cons e rest ih =>
    have he : 1 ≤ e.words.length := by cases e <;> simp [words] <;> omega
    rw [wordsAll, List.length_append, List.length_cons]
    omega

theorem eq_literal_of_literalText? {e : Expr} {script : String} (h : e.literalText? = some script) :
    e = literal (.text script) := by
  unfold literalText? at h
  split at h <;> cases h
  rfl

end Expr

/-- Every expression of the right side, conditions and values. -/
def Rhs.exprs (r : Rhs) : List Expr := r.conditions ++ r.values

namespace Stmt

/-- The expressions of a statement, but for the statements inside it. -/
def exprs : Stmt → List Expr
  | store _ path value _ => path ++ value.exprs
  | discard e _ => [e]
  | ifThen condition _ _ | ifElse condition _ _ _ _ => [condition]

/-- The property holds of every expression of the statement and of those inside it. -/
def Each (P : Expr → Prop) (s : Stmt) : Prop := s.Throughout fun a => ∀ e ∈ a.exprs, P e

theorem hereditary_each (P : Expr → Prop) : Hereditary (Each P) where
  ifThen h := by
    obtain ⟨here, hinside⟩ := h
    exact ⟨.intro here (fun _ h => nomatch h), hinside⟩
  ifElse h := by
    obtain ⟨here, hinside⟩ := h
    exact ⟨.intro here (fun _ h => nomatch h), List.forall_mem_append.1 hinside⟩

end Stmt

/-! ## Calls in code -/

section

variable {functions : List HostFunction} {T : String → Prop} {last mid after : Option String}
  {is js : List Value} {ws vs : List UInt32}

/-- Between any words the code dispatches by literals only scripts of `T`. After `last` before it
there is `after` right before what comes next. -/
def Calls (functions : List HostFunction) (T : String → Prop) (last : Option String) (is : List Value)
    (ws : List UInt32) (after : Option String) : Prop :=
  ∀ js us, ∃ found, (∀ script, some script ∈ found → T script) ∧
    Exec.dispatched functions last (is ++ js) (ws ++ us) =
      found ++ Exec.dispatched functions after js us

namespace Calls

theorem nothing (last : Option String) : Calls functions T last [] [] last :=
  fun _ _ => ⟨[], (fun _ h => nomatch h), rfl⟩

theorem seq (hx : Calls functions T last is ws mid) (hy : Calls functions T mid js vs after) :
    Calls functions T last (is ++ js) (ws ++ vs) after := by
  intro ks us
  obtain ⟨found, hfound, hx⟩ := hx (js ++ ks) (vs ++ us)
  obtain ⟨more, hmore, hy⟩ := hy ks us
  refine ⟨found ++ more, fun script h => ?_, ?_⟩
  · exact (List.mem_append.1 h).elim (hfound script) (hmore script)
  · rw [List.append_assoc, List.append_assoc, hx, hy, List.append_assoc]

theorem literal (last : Option String) (v : Value) :
    Calls functions T last [v] [Opcode.immed.encode none] v.text? := by
  intro js us
  refine ⟨[], (fun _ h => nomatch h), ?_⟩
  exact Exec.dispatched_immed functions last ([v] ++ js) (Instruction.decode_encode .immed none us)

/-- Code with an instruction after it, whose operands are `operands`. -/
theorem plain (hx : Calls functions T last is ws mid) {op : Opcode} {pair : Option OperandPair}
    {operands : List UInt32} {i : Instruction}
    (hd : ∀ us, Instruction.decode (op.encode pair) (operands ++ us) = .ok (i, us))
    (hi : i.isPlain = true) (hT : ∀ script, some script ∈ i.dispatched functions mid → T script) :
    Calls functions T last is (ws ++ op.encode pair :: operands) none := by
  intro js us
  obtain ⟨found, hfound, hx⟩ := hx js (op.encode pair :: (operands ++ us))
  refine ⟨found ++ i.dispatched functions mid, fun script h => ?_, ?_⟩
  · exact (List.mem_append.1 h).elim (hfound script) (hT script)
  · rw [List.append_assoc, List.cons_append, hx, Exec.dispatched_plain functions mid js (hd us) hi,
      List.append_assoc]

/-- A condition, and a value behind a guard that has its lengths. -/
theorem guarded (hx : Calls functions T last is ws mid) (hy : Calls functions T none js vs after)
    (hwords : vs.length < UInt32.size) (himmediates : js.length < UInt32.size) :
    Calls functions T last (is ++ js) (ws ++ Opcode.guard.encode none :: UInt32.ofNat vs.length ::
      UInt32.ofNat js.length :: vs) none := by
  intro ks us
  have hd : Instruction.decode (Opcode.guard.encode none)
      (UInt32.ofNat vs.length :: UInt32.ofNat js.length :: (vs ++ us)) =
        .ok (.guard vs.length js.length, vs ++ us) := by
    rw [Instruction.decode_encode]
    simp only [Instruction.ofOpcode, UInt32.toNat_ofNat_of_lt' hwords,
      UInt32.toNat_ofNat_of_lt' himmediates]
  obtain ⟨found, hfound, hx⟩ := hx (js ++ ks) (Opcode.guard.encode none :: UInt32.ofNat vs.length ::
    UInt32.ofNat js.length :: (vs ++ us))
  obtain ⟨more, hmore, hy⟩ := hy ks []
  rw [List.append_nil, Exec.dispatched_nil, List.append_nil] at hy
  refine ⟨found ++ more, fun script h => ?_, ?_⟩
  · exact (List.mem_append.1 h).elim (hfound script) (hmore script)
  · simp only [List.append_assoc, List.cons_append]
    rw [hx, Exec.dispatched_guard functions mid (js ++ ks) hd, List.take_left, List.drop_left,
      List.drop_left, hy]

/-- All that is dispatched by a literal in the code is from among `T`. -/
theorem mem (h : Calls functions T last is ws after) {script : String}
    (hscript : some script ∈ Exec.dispatched functions last is ws) : T script := by
  obtain ⟨found, hfound, heq⟩ := h [] []
  rw [List.append_nil, List.append_nil, Exec.dispatched_nil, List.append_nil] at heq
  exact hfound script (heq ▸ hscript)

end Calls

end

/-! ## Expressions -/

section

variable {Γ : Signature} {T : String → Prop}

/-- The library's only function of a text is `dispatch`. -/
theorem Library.eq_dispatch_of_accepts {f : HostFunction} (hf : f ∈ functions)
    (h : Ty.accepts f.params [.text] = true) : f.name = dispatchName := by
  have hall : (functions.all fun f => !Ty.accepts f.params [.text] || f.name == dispatchName) =
    true := by decide
  simpa [h] using List.all_eq_true.1 hall f hf

/-- A call with its arguments before it. The number of the function may not fit into its word, but
no other function takes a text. -/
theorem Calls.call {function : Nat} {f : HostFunction} {args : List Expr} {ts : List Ty}
    {last : Option String} (hlibrary : ∀ f ∈ Γ.functions, f ∈ Library.functions)
    (hf : Γ.functions[function]? = some f) (hes : Expr.HaveTypes Γ args ts)
    (ha : Ty.accepts f.params ts = true) (hn : (Expr.call function args).Noted Γ.functions T)
    (hsize : args.length < UInt32.size)
    (hargs : Calls Γ.functions T last (Expr.immediatesAll args) (Expr.wordsAll args)
      (Expr.lastText? last args)) :
    Calls Γ.functions T last (Expr.call function args).immediates
      (Expr.call function args).words none := by
  have hd : ∀ us, Instruction.decode (Opcode.fun.encode none)
      ([UInt32.ofNat function, UInt32.ofNat args.length] ++ us) =
        .ok (.call (UInt32.ofNat function).toNat (UInt32.ofNat args.length).toNat, us) := by
    intro us
    rw [Instruction.decode_encode]
    rfl
  have hcall := hargs.plain hd rfl fun script hscript => by
    unfold Instruction.dispatched at hscript
    dsimp only at hscript
    rw [UInt32.toNat_ofNat_of_lt' hsize] at hscript
    split at hscript
    · have hscript := List.mem_singleton.1 hscript
      split at hscript
      · next hone =>
        obtain ⟨e, rfl⟩ := List.length_eq_one_iff.1 hone
        obtain rfl := Expr.eq_literal_of_literalText? hscript.symm
        cases hes with
        | cons he hrest =>
          cases he
          cases hrest
          exact hn.2 f script hf
            (Library.eq_dispatch_of_accepts (hlibrary f (List.mem_of_getElem? hf)) ha) rfl
      · cases hscript
    · cases hscript
  simpa only [Expr.words, Expr.immediates, List.append_assoc, List.cons_append, List.nil_append]
    using hcall

/-- An instruction that is no call. -/
theorem Calls.step {last mid : Option String} {is : List Value} {ws : List UInt32}
    (hx : Calls Γ.functions T last is ws mid) {op : Opcode} {pair : Option OperandPair}
    {operands : List UInt32} {i : Instruction}
    (hd : ∀ us, Instruction.decode (op.encode pair) (operands ++ us) = .ok (i, us))
    (hi : i.isPlain = true) (hcall : i.callee? = none) :
    Calls Γ.functions T last is (ws ++ op.encode pair :: operands) none := by
  refine hx.plain hd hi fun script h => ?_
  unfold Instruction.dispatched at h
  split at h
  · cases hcall
  · cases h

namespace Expr

mutual

/-- What the code of an expression dispatches, the expression names. -/
theorem HasType.calls (hlibrary : ∀ f ∈ Γ.functions, f ∈ Library.functions) {e : Expr} {t : Ty}
    (last : Option String) (hsize : e.words.length < UInt32.size) (hn : e.Noted Γ.functions T) :
    e.HasType Γ t → Calls Γ.functions T last e.immediates e.words e.literalText?
  | .literal v => by
    -- A lone text may be dispatched by the call after it; all other code ends in an instruction.
    have h : Calls Γ.functions T last [v] [Opcode.immed.encode none] v.text? := .literal last v
    cases v <;> exact h
  | .var _ => Calls.step (.nothing last) (fun _ => Instruction.decode_encode ..) rfl rfl
  | .unary (e := a) he hop _ => by
    rw [words, List.length_append] at hsize
    have hn : a.Noted Γ.functions T := hn
    have hx := HasType.calls hlibrary last (by omega) hn he
    exact hx.step (Exec.decode_unary hop _) rfl rfl
  | .binary hl hr hop _ => by
    simp only [words, List.length_append] at hsize
    have hx := (HasType.calls hlibrary last (by omega) hn.1 hl).seq
      (HasType.calls hlibrary _ (by omega) hn.2 hr)
    exact hx.step (Exec.decode_binary hop _) rfl rfl
  | .part hl hi _ => by
    simp only [words, List.length_append] at hsize
    have hx := (HasType.calls hlibrary last (by omega) hn.1 hl).seq
      (HasType.calls hlibrary _ (by omega) hn.2 hi)
    exact hx.step (Exec.decode_take _) rfl rfl
  | .element hl hi => by
    simp only [words, List.length_append] at hsize
    have hx := (HasType.calls hlibrary last (by omega) hn.1 hl).seq
      (HasType.calls hlibrary _ (by omega) hn.2 hi)
    exact hx.step Exec.decode_index rfl rfl
  | @HasType.field _ a place _ _ _ hr _ => by
    simp only [words, List.length_append] at hsize
    have hn : a.Noted Γ.functions T := hn
    have hx := HasType.calls hlibrary last (by omega) hn hr
    have h := hx.step
      (fun us => Instruction.decode_encode .member none ([UInt32.ofNat place] ++ us)) rfl rfl
    simp only [words, List.append_assoc, List.cons_append, List.nil_append]
    exact h
  | @HasType.list _ items _ hes => by
    simp only [words, List.length_append] at hsize
    have hx := HaveTypes.calls hlibrary last (by omega) hn hes
    have h := hx.step
      (fun us => Instruction.decode_encode .list none ([UInt32.ofNat items.length] ++ us)) rfl rfl
    simp only [words, List.append_assoc, List.cons_append, List.nil_append]
    exact h
  | .vector hes _ => by
    simp only [words, List.length_append] at hsize
    -- What is noted of a vector is noted of each component, its code is that of all four.
    obtain ⟨hx, hy, hz, hw⟩ := hn
    have hn : AllNoted Γ.functions T [_, _, _, _] := ⟨hx, hy, hz, hw, trivial⟩
    have hx := HaveTypes.calls hlibrary last
      (by simp only [wordsAll, List.length_append, List.length_nil]; omega) hn hes
    have h := hx.step Exec.decode_vector rfl rfl
    simp only [wordsAll, immediatesAll, List.append_nil] at h
    exact h
  | .matrix hes _ => by
    simp only [words, List.length_append] at hsize
    obtain ⟨hx, hy, hz, hw⟩ := hn
    have hn : AllNoted Γ.functions T [_, _, _, _] := ⟨hx, hy, hz, hw, trivial⟩
    have hx := HaveTypes.calls hlibrary last
      (by simp only [wordsAll, List.length_append, List.length_nil]; omega) hn hes
    have h := hx.step Exec.decode_matrix rfl rfl
    simp only [wordsAll, immediatesAll, List.append_nil] at h
    exact h
  | @HasType.call _ _ _ args _ hf hes ha => by
    simp only [words, List.length_append] at hsize
    have hx := HaveTypes.calls hlibrary last (by omega) hn.1 hes
    exact .call hlibrary hf hes ha hn (Nat.lt_of_le_of_lt (length_le_wordsAll args) (by omega)) hx

/-- So it is with expressions one after the other. -/
theorem HaveTypes.calls (hlibrary : ∀ f ∈ Γ.functions, f ∈ Library.functions) {es : List Expr}
    {ts : List Ty} (last : Option String) (hsize : (wordsAll es).length < UInt32.size)
    (hn : AllNoted Γ.functions T es) : HaveTypes Γ es ts →
      Calls Γ.functions T last (immediatesAll es) (wordsAll es) (lastText? last es)
  | .nil => .nothing last
  | .cons he hes => by
    simp only [wordsAll, List.length_append] at hsize
    have hx := HasType.calls hlibrary last (by omega) hn.1 he
    exact hx.seq (HaveTypes.calls hlibrary _ (by omega) hn.2 hes)

end

end Expr

end

/-! ## Right sides and statements -/

section

variable {Γ : Signature} {p : Program} {T : String → Prop}

/-- What the code of guarded values dispatches, their conditions and the values name. -/
theorem Rhs.calls_branches (hp : Γ.Within p) (hlibrary : ∀ f ∈ Γ.functions, f ∈ Library.functions)
    {branches : List (Expr × Expr)} (last : Option String)
    (hsize : (branchWords branches).length < UInt32.size)
    (htypes : ∀ b ∈ branches, (∃ t, b.1.HasType Γ t) ∧ ∃ t, b.2.HasType Γ t)
    (hn : ∀ b ∈ branches, b.1.Noted Γ.functions T ∧ b.2.Noted Γ.functions T) : ∃ after,
      Calls Γ.functions T last (branchImmediates branches) (branchWords branches) after := by
  induction branches generalizing last with
  | nil => exact ⟨last, .nothing last⟩
  | cons branch rest ih =>
    obtain ⟨condition, value⟩ := branch
    obtain ⟨⟨⟨_, hcondition⟩, _, hvalue⟩, htypes⟩ := List.forall_mem_cons.1 htypes
    obtain ⟨⟨hncondition, hnvalue⟩, hn⟩ := List.forall_mem_cons.1 hn
    simp only [branchWords, caseWords, List.length_append, List.length_cons] at hsize
    dsimp only at hcondition hvalue hncondition hnvalue
    have himmediates := (hvalue.straight hp).immediates_le
    have hcase := (hcondition.calls hlibrary last (by omega) hncondition).guarded
      (hvalue.calls hlibrary none (by omega) hnvalue) (by omega) (by omega)
    obtain ⟨after, hrest⟩ := ih none (by omega) htypes hn
    exact ⟨after, hcase.seq hrest⟩

/-- The conditions and values of a chain are its expressions, but for the condition that is not
written. -/
theorem Rhs.noted_branches {functions : List HostFunction} {cases : List (Expr × Expr)}
    {otherwise : Option Expr} (h : ∀ e ∈ (Rhs.guarded cases otherwise).exprs, e.Noted functions T) :
    ∀ b ∈ branches cases otherwise, b.1.Noted functions T ∧ b.2.Noted functions T := by
  intro b hb
  rcases List.mem_append.1 hb with hb | hb
  · exact ⟨h _ (List.mem_append_left _ (List.mem_map_of_mem hb)),
      h _ (List.mem_append_right _ (List.mem_append_left _ (List.mem_map_of_mem hb)))⟩
  · obtain ⟨value, hvalue, rfl⟩ := Option.map_eq_some_iff.1 (Option.mem_toList.1 hb)
    exact ⟨trivial, h _ (List.mem_append_right _
      (List.mem_append_right _ (Option.mem_toList.2 hvalue)))⟩

/-- What the code of a statement dispatches by a literal, its tree names. -/
theorem Statement.MadeOf.noted {Γ : Scope} (hp : Γ.toSignature.Within p)
    (hlibrary : ∀ f ∈ p.functions, f ∈ Library.functions) {s : Statement}
    (h : s.MadeOf fun a => a.Ok Γ ∧ a.Each (Expr.Noted p.functions T))
    (hsize : s.code.length < UInt32.size) {script : String}
    (hscript : some script ∈ s.dispatched p.functions) : T script := by
  unfold Statement.dispatched at hscript
  rw [← hp.functions] at hlibrary hscript h
  cases h with
  | @store slot path value _ _ hs h =>
    obtain ⟨⟨-, t, target, -, hpath, hvalue⟩, ⟨hn, -⟩⟩ := h
    obtain ⟨hnpath, hnvalue⟩ := List.forall_mem_append.1 hn
    rw [Stmt.assemble_eq ((Expr.emitsAll path).seq value.emits)] at hs
    cases hs
    rw [List.length_append] at hsize
    have hx := hpath.haveTypes.calls hlibrary none (by omega) (Expr.allNoted_iff.2 hnpath)
    cases value with
    | plain e =>
      cases hvalue with
      | plain he =>
        obtain ⟨_, he, -⟩ := he
        have hne := hnvalue e List.mem_cons_self
        exact (hx.seq (he.calls hlibrary _ (by simp only [Rhs.words] at hsize; omega) hne)).mem hscript
    | guarded cases otherwise =>
      obtain ⟨-, htypes⟩ := hvalue.hasTypes
      obtain ⟨after, hy⟩ := Rhs.calls_branches hp hlibrary (Expr.lastText? none path)
        (by simp only [Rhs.words] at hsize; omega) htypes (Rhs.noted_branches hnvalue)
      exact (hx.seq hy).mem hscript
  | discard hs h =>
    obtain ⟨⟨t, he⟩, ⟨hn, -⟩⟩ := h
    rw [Stmt.assemble_eq (Expr.emits _)] at hs
    cases hs
    exact (he.calls hlibrary none hsize (hn _ List.mem_cons_self)).mem hscript
  | branch hs h =>
    obtain ⟨⟨he, -⟩, ⟨hn, -⟩⟩ := h
    rw [Stmt.assemble_eq (Expr.emits _)] at hs
    cases hs
    exact (he.calls hlibrary none hsize (hn _ List.mem_cons_self)).mem hscript
  | jump hs =>
    rw [Stmt.assemble_eq .nothing] at hs
    cases hs
    exact (Calls.nothing none).mem hscript

end

end VectorScript
