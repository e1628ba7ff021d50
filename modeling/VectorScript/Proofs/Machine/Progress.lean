import VectorScript.Proofs.Machine.Guards
import VectorScript.Proofs.Store.Address
import VectorScript.Proofs.Store.Memory

/-!
# Typed programs run to an end

On a stack with the room that it asks for, a statement made of typed and harmless trees does its
work or stops with a fault that a well typed script may run into. The machine never runs out of
stack, never lacks an operand and never meets a value of another type.

    (∀ s ∈ p.statements, s.Typed Γ) → Proceeds (p.run callees memory w).1          (proceeds_run)
-/

namespace VectorScript

/-! ## Machines in order -/

/-- Workspaces of the kind `I` have the variables that the signature speaks of, and stores do not
change that. -/
structure Signature.Kept (Γ : Signature) (slots : List Slot) (I : Workspace → Prop) : Prop where
  sorted : ∀ w, I w → w.table.Sorted
  shaped : ∀ w, I w → w.table.Shaped
  slot : ∀ w, I w → ∀ n t, Γ.slot n = some t → slots[n]? = some (.local t) ∨
    ∃ id e, slots[n]? = some (.shared id) ∧ w.table.get? id = some e ∧ e.ty = t
  refilled : ∀ w t, I w → w.table.Refilled t → I { w with table := t }

/-- Memory that fits holds values of the right types. -/
theorem Signature.Kept.holds {Γ : Signature} {slots : List Slot} {I : Workspace → Prop}
    (h : Γ.Kept slots I) {memory : Memory} (hm : memory.Fits slots) : memory.Holds Γ I := by
  intro w hw n t ht
  rcases h.slot w hw n t ht with hslot | ⟨id, e, hslot, he, rfl⟩
  · exact (Memory.fetch_spec hm (h.sorted w hw) (h.shaped w hw) hslot).1 t rfl
  · exact ⟨_, (Memory.fetch_spec hm (h.sorted w hw) (h.shaped w hw) hslot).2 id e rfl he⟩

/-- A store of a typed value in memory proceeds. -/
theorem Signature.Kept.proceeds_store {Γ : Signature} {slots : List Slot} {I : Workspace → Prop}
    (h : Γ.Kept slots I) {memory : Memory} (hm : memory.Fits slots) {w : Workspace} (hw : I w)
    {slot : Nat} {t target : Ty} (hslot : Γ.slot slot = some t) {path : List Expr}
    (hp : Expr.Path Γ t path target) (hsmall : t.Small) {is : List Int32}
    (his : Expr.Traces path is) {v : Value} {u : Ty} (hv : v.HasType u)
    (ha : target.assignable u = true) (hn : Expr.Inside t path → u ≠ .null) :
    Proceeds (memory.store w.table slot v is).1 := by
  unfold Memory.store
  rcases h.slot w hw slot t hslot with hs | ⟨id, e, hs, he, rfl⟩
  · obtain ⟨c, hc, hconf⟩ := hm.own slot t hs
    rw [hc]
    exact Cell.proceeds_set hp hconf hsmall his hv ha hn
  · rw [hm.shared slot id hs]
    have hstore : w.table.store? id v is = some ((e.cell.set v is).1,
        w.table.modify id fun e' => { e' with cell := (e.cell.set v is).2 }) := by
      unfold SharedTable.store?
      rw [he]
      rfl
    dsimp only
    rw [hstore]
    exact Cell.proceeds_set hp (h.shaped w hw e ((h.sorted w hw).get?_eq_some.1 he).1) hsmall his hv
      ha hn

/-- The machine can run statements that need no more than the limit on the stack. -/
structure Machine.Ready (I : Workspace → Prop) (slots : List Slot) (limit : Nat) (m : Machine) :
    Prop where
  kind : I m.workspace
  fits : m.memory.Fits slots
  room : m.stack.size + m.stack.room = limit

namespace Exec

variable {α β : Type} {I : Workspace → Prop} {slots : List Slot} {limit : Nat} {P : α → Prop}
  {Q : β → Prop}

/-- A ready machine is ready again after the step, with a result as it should be, or has stopped
with a fault that a well typed script may run into. -/
def Gives (I : Workspace → Prop) (slots : List Slot) (limit : Nat) (P : α → Prop) (x : Exec α) :
    Prop :=
  ∀ m : Machine, m.Ready I slots limit →
    match x m with
    | .ok a m' => P a ∧ m'.Ready I slots limit
    | .error e m' => e.cause.isDynamic = true ∧ I m'.workspace ∧ m'.memory.Fits slots

theorem Gives.bind {x : Exec α} {f : α → Exec β} (hx : Gives I slots limit P x)
    (hf : ∀ a, P a → Gives I slots limit Q (f a)) : Gives I slots limit Q (x >>= f) := by
  intro m hm
  have h := hx m hm
  simp only [Bind.bind, EStateM.bind]
  cases hr : x m with
  | ok a m' =>
    simp only [hr] at h ⊢
    exact hf a h.1 m' h.2
  | error e m' =>
    simp only [hr] at h ⊢
    exact h

theorem gives_pure {a : α} (h : P a) : Gives I slots limit P (pure a : Exec α) :=
  fun _ hm => ⟨h, hm⟩

theorem gives_ofExcept {x : Except Fault α} (h : Yields P x) :
    Gives I slots limit P (ofExcept x) := by
  cases x with
  | ok a => exact gives_pure h
  | error e => exact fun _ hm => ⟨h, hm.kind, hm.fits⟩

end Exec

theorem Machine.Ready.clear {I : Workspace → Prop} {slots : List Slot} {limit : Nat} {m : Machine}
    (hm : m.Ready I slots limit) {w : Workspace} (hw : I w) :
    ({ m with stack := m.stack.clear, workspace := w } : Machine).Ready I slots limit where
  kind := hw
  fits := hm.fits
  room := by
    show m.stack.clear.size + m.stack.clear.room = limit
    rw [Stack.size_clear, Stack.room_clear, Nat.zero_add]
    exact hm.room

namespace Exec

variable {I : Workspace → Prop} {slots : List Slot} {limit : Nat} {Γ : Signature}
  {callees : Callees}

/-! ## Values -/

theorem value_eq (callees : Callees) (s : Statement) (m : Machine) : value callees s m =
    run callees false s.immediates s.code { m with stack := m.stack.clear } := rfl

/-- A statement made of one expression gives its value, on a stack that is empty again. -/
theorem gives_value (hΓ : callees.functions = Γ.functions) (hc : callees.Sound I)
    (hk : Γ.Kept slots I) {e : Expr} {t : Ty} (he : e.HasType Γ t) (hn : e.NullFree Γ)
    (hf : e.Fits) {kind : StatementKind} {p : Position} {s : Statement}
    (hs : Stmt.assemble kind e.emit p = .ok s) (hd : s.depth ≤ limit) :
    Gives I slots limit (·.HasType t) (value callees s) := by
  intro m hm
  rw [Stmt.assemble_eq e.emits] at hs
  cases hs
  have hroom : e.height ≤ m.stack.clear.room := by
    rw [Stack.room_clear, hm.room]
    exact hd
  have h := run_alone callees (simulates callees he hf) [] { m with stack := m.stack.clear } hroom
  have hg := Expr.gives_eval hΓ hc (hk.holds hm.fits) he hn m.workspace hm.kind
  rw [List.append_nil] at h
  rw [value_eq]
  cases hr : e.eval callees m.memory m.workspace with
  | ok v w =>
    simp only [hr] at h hg
    rw [h]
    exact ⟨hg.1, hm.clear hg.2⟩
  | error f w =>
    simp only [hr] at h hg
    obtain ⟨stack, h⟩ := h
    rw [h]
    exact ⟨hg.1, hg.2, hm.fits⟩

/-- The code of a store leaves the steps of the path below the value. -/
theorem value_store (hΓ : callees.functions = Γ.functions) (hc : callees.Sound I)
    (hk : Γ.Kept slots I) {slot : Nat} {path : List Expr} {value : Rhs} {p : Position}
    {s : Statement}
    (hs : Stmt.assemble (.store slot path.length) (do Expr.emitAll path; value.emit) p = .ok s)
    {t target : Ty} (hp : Expr.Path Γ t path target) (hv : value.Suits Γ target)
    (hnp : Expr.AllNullFree Γ path) (hfp : Expr.FitAll path) (hnv : value.NullFree Γ)
    (hfv : value.Fits) (hd : s.depth ≤ limit) {m : Machine} (hm : m.Ready I slots limit) :
    match Exec.value callees s m with
    | .ok v m' => Rhs.Delivers Γ target value.values v ∧ ∃ is w, Expr.Traces path is ∧ I w ∧
        m' = { m with stack := m.stack.clear.pushAll (is.map .integer), workspace := w }
    | .error e m' => e.cause.isDynamic = true ∧ I m'.workspace ∧ m'.memory.Fits slots := by
  rw [Stmt.assemble_eq ((Expr.emitsAll path).seq value.emits)] at hs
  cases hs
  have hroom : max (Expr.heightAll path) (path.length + value.height) ≤ m.stack.clear.room := by
    rw [Stack.room_clear, hm.room]
    exact hd
  have h := (simulatesAll callees (hp.haveTypes) hfp).2 false value.immediates
    value.words { m with stack := m.stack.clear } (by dsimp only; omega)
  have hg := Expr.gives_evalPath hΓ hc (hk.holds hm.fits) hp.integers hnp m.workspace hm.kind
  rw [value_eq]
  -- The path is computed first. Where it succeeds, the value is computed on top of its indices.
  cases hr : Expr.evalAll callees m.memory path m.workspace with
  | error f w =>
    simp only [hr] at h hg
    obtain ⟨stack, h⟩ := h
    rw [h]
    exact ⟨hg.1, hg.2, hm.fits⟩
  | ok vs w =>
    simp only [hr] at h hg
    obtain ⟨⟨is, rfl, htraces⟩, hw⟩ := hg
    obtain ⟨hlen, hrun⟩ := h
    have h' := run_rhs callees hv hfv [] { m with
      stack := m.stack.clear.pushAll (is.map .integer), workspace := w } (by
        simp only [Stack.room_pushAll, hlen]
        omega)
    have hg' := Rhs.gives_eval hΓ hc (hk.holds hm.fits) hv hnv w hw
    rw [List.append_nil] at h'
    rw [hrun]
    cases hr' : value.eval callees m.memory w with
    | error f w' =>
      simp only [hr'] at h' hg'
      obtain ⟨stack, h'⟩ := h'
      rw [h']
      exact ⟨hg'.1, hg'.2, hm.fits⟩
    | ok v w' =>
      simp only [hr'] at h' hg'
      rw [h']
      exact ⟨hg'.1, is, w', htraces, hg'.2, rfl⟩

/-! ## Statements -/

theorem length_of_traces {path : List Expr} {is : List Int32} (h : Expr.Traces path is) :
    is.length = path.length := by
  induction h with
  | nil => rfl
  | cons _ _ ih => rw [List.length_cons, List.length_cons, ih]

theorem mapM_asInteger (is : List Int32) :
    (is.map Value.integer).mapM Value.asInteger = .ok is := by
  induction is with
  | nil => rfl
  | cons i is ih =>
    rw [List.map_cons, List.mapM_cons, ih]
    rfl

/-- A store along a typed path. -/
theorem gives_store (hk : Γ.Kept slots I) {slot : Nat} {t target : Ty}
    (hslot : Γ.slot slot = some t) {path : List Expr} (hp : Expr.Path Γ t path target)
    (hsmall : t.Small) {is : List Int32} (his : Expr.Traces path is) {v : Value} {u : Ty}
    (hv : v.HasType u) (ha : target.assignable u = true) (hn : Expr.Inside t path → u ≠ .null) :
    Gives I slots limit (fun _ => True) (store slot v is) := by
  intro m hm
  have hrefilled := m.memory.refilled_store (hk.sorted _ hm.kind) slot v is
  have hproceeds := hk.proceeds_store hm.fits hm.kind hslot hp hsmall his hv ha hn
  have hready : Machine.Ready I slots limit { m with
      memory := (m.memory.store m.workspace.table slot v is).2.1
      workspace := { m.workspace with
        table := (m.memory.store m.workspace.table slot v is).2.2 } } :=
    ⟨hk.refilled _ _ hm.kind hrefilled, Memory.fits_store hm.fits _ slot v is, hm.room⟩
  exact gives_ofExcept hproceeds _ hready

/-- A store of a typed and harmless value: the path is evaluated first and taken last. -/
theorem gives_storing (hΓ : callees.functions = Γ.functions) (hc : callees.Sound I)
    (hk : Γ.Kept slots I) {slot : Nat} {path : List Expr} {value : Rhs} {p : Position}
    {s : Statement}
    (hs : Stmt.assemble (.store slot path.length) (do Expr.emitAll path; value.emit) p = .ok s)
    {t target : Ty} (hslot : Γ.slot slot = some t) (hp : Expr.Path Γ t path target)
    (hv : value.Suits Γ target) (hh : Stmt.Harmless Γ (.store slot path value p))
    (hd : s.depth ≤ limit) : Gives I slots limit (fun _ => True) (statement callees s) := by
  obtain ⟨⟨hnp, hfp⟩, ⟨hnv, hfv⟩, hplace⟩ := hh
  obtain ⟨hsmall, hinside⟩ := hplace t hslot
  intro m hm
  have hvalue := value_store hΓ hc hk hs hp hv hnp hfp hnv hfv hd hm
  have hkind : s.kind = .store slot path.length := Stmt.kind_of_assemble hs
  have hroom : path.length ≤ m.stack.clear.room := by
    rw [Stmt.assemble_eq ((Expr.emitsAll path).seq value.emits)] at hs
    cases hs
    rw [Stack.room_clear, hm.room]
    dsimp only at hd
    omega
  unfold statement
  rw [hkind]
  dsimp only [Bind.bind, EStateM.bind]
  cases hr : Exec.value callees s m with
  | error f m' => simpa only [hr] using hvalue
  | ok v m' =>
    simp only [hr] at hvalue ⊢
    obtain ⟨⟨u, e, he, heu, hvu, hassign⟩, is, w, htraces, hw, rfl⟩ := hvalue
    have hlen : (is.map Value.integer).length = path.length := by
      rw [List.length_map, length_of_traces htraces]
    -- The value is off the stack by now, what is left are the indices of the path.
    have hpop : popMany path.length { m with
        stack := m.stack.clear.pushAll (is.map .integer), workspace := w } =
        .ok (is.map .integer) { m with stack := m.stack.clear, workspace := w } := by
      rw [← hlen] at hroom ⊢
      simp only [popMany, onStack, EStateM.run, Stack.popMany_pushAll hroom]
    have hstore : Gives I slots limit (fun _ => True) (store slot v is) :=
      gives_store hk hslot hp hsmall htraces hvu hassign fun hin => by
        rintro rfl
        exact hinside hin e he heu
    have hrest : Gives I slots limit (fun _ => True) (do store slot v is; return 1) :=
      hstore.bind fun _ _ => gives_pure trivial
    have h := hrest _ (hm.clear hw)
    rw [hpop]
    dsimp only
    rw [mapM_asInteger]
    exact h

/-- A statement made of typed and harmless trees does its work. -/
theorem gives_statement (hΓ : callees.functions = Γ.functions) (hc : callees.Sound I)
    (hk : Γ.Kept slots I) {s : Statement} (h : s.Typed Γ) (hd : s.depth ≤ limit) :
    Gives I slots limit (fun _ => True) (statement callees s) := by
  cases h with
  | @discard e p _ t hs he hn hf =>
    have hkind : s.kind = .discard := Stmt.kind_of_assemble hs
    unfold statement
    rw [hkind]
    have hdiscard : Gives I slots limit (fun _ => True) (discard (value callees s)) :=
      (gives_value hΓ hc hk he hn hf hs hd).bind fun _ _ => gives_pure trivial
    exact hdiscard.bind fun _ _ => gives_pure trivial
  | @branch distance e p _ hs he hn hf =>
    have hkind : s.kind = .unless distance := Stmt.kind_of_assemble hs
    unfold statement
    rw [hkind]
    refine (gives_value hΓ hc hk he hn hf hs hd).bind fun v hv => ?_
    obtain ⟨n, hasInteger⟩ := Value.asInteger_eq hv
    rw [hasInteger]
    show Gives I slots limit _ (if n ≠ 0 then _ else _)
    split <;> exact gives_pure trivial
  | @jump distance p _ hs =>
    have hkind : s.kind = .jump distance := Stmt.kind_of_assemble hs
    unfold statement
    rw [hkind]
    exact gives_pure trivial
  | store hs hslot hp hv hh => exact gives_storing hΓ hc hk hs hslot hp hv hh hd

/-- What a step reports where its statement stands. -/
theorem gives_placing {α : Type} {P : α → Prop} {x : Exec α} (hx : Gives I slots limit P x)
    (p : Position) : Gives I slots limit P (placing p x) := by
  intro m hm
  have h := hx m hm
  unfold placing
  cases hr : x m with
  | ok a m' => simpa only [hr] using h
  | error e m' =>
    simp only [hr] at h ⊢
    exact h

/-- Statements in turn, by induction on those that are left. -/
theorem gives_statements (hΓ : callees.functions = Γ.functions) (hc : callees.Sound I)
    (hk : Γ.Kept slots I) {body : List Statement}
    (h : ∀ s ∈ body, s.Typed Γ ∧ s.depth ≤ limit) (skip : Nat) :
    Gives I slots limit (fun _ => True) (statements callees skip body) := by
  induction body generalizing skip with
  | nil => exact gives_pure trivial
  | cons s rest ih =>
    obtain ⟨hs, hrest⟩ := List.forall_mem_cons.1 h
    cases skip with
    | zero =>
      exact (gives_placing (gives_statement hΓ hc hk hs.1 hs.2) s.position).bind
        fun distance _ => ih hrest _
    | succ skip => exact ih hrest skip

end Exec

/-! ## Programs -/

theorem Program.depth_le_maxDepth (p : Program) : ∀ s ∈ p.statements, s.depth ≤ p.maxDepth := by
  have h : ∀ (l : List Statement) (d : Nat), d ≤ l.foldl (fun d s => max d s.depth) d ∧
      ∀ s ∈ l, s.depth ≤ l.foldl (fun d s => max d s.depth) d := by
    intro l
    induction l with
    | nil => exact fun d => ⟨Nat.le_refl _, fun _ h => nomatch h⟩
    | cons a rest ih =>
      intro d
      obtain ⟨hd, hrest⟩ := ih (max d a.depth)
      refine ⟨Nat.le_trans (Nat.le_max_left ..) hd, List.forall_mem_cons.2 ⟨?_, hrest⟩⟩
      exact Nat.le_trans (Nat.le_max_right ..) hd
  exact (h p.statements 0).2

/-- A program of typed and harmless statements succeeds, or stops with a fault that a well typed
script may run into. -/
theorem Program.proceeds_run {I : Workspace → Prop} {slots : List Slot} {Γ : Signature}
    {callees : Callees} (hΓ : callees.functions = Γ.functions) (hc : callees.Sound I)
    (hk : Γ.Kept slots I) {p : Program} (hp : ∀ s ∈ p.statements, s.Typed Γ) {memory : Memory}
    (hm : memory.Fits slots) {w : Workspace} (hw : I w) :
    Proceeds (p.run callees memory w).1 ∧ (p.run callees memory w).2.1.Fits slots ∧
      I (p.run callees memory w).2.2 := by
  have h := Exec.gives_statements hΓ hc hk
    (fun s hs => ⟨hp s hs, p.depth_le_maxDepth s hs⟩) 0
    ⟨.empty "evaluation stack" p.maxDepth, memory, w⟩ ⟨hw, hm, Nat.zero_add _⟩
  unfold run EStateM.run
  dsimp only
  split
  · next m' hr =>
    simp only [hr] at h
    exact ⟨trivial, h.2.fits, h.2.kind⟩
  · next e m' hr =>
    simp only [hr] at h
    exact ⟨h.1, h.2.2, h.2.1⟩

end VectorScript
