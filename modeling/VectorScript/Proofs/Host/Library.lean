import VectorScript.Host.Library
import VectorScript.Proofs.Operation.Kernel

/-!
# The library keeps its types

A function of the library that gets arguments of its parameter types gives a value of its result
type, whatever the services answer, or fails in a way that a well typed script may meet
(`sound_library`). An argument must not be null: a function has no use for that value, though the
type rules let it pass everywhere.
-/

namespace VectorScript

/-! ## Functions -/

/-- Whatever the services answer, the conversation ends in a value of the type or in a fault that a
well typed script may run into. A script that was dispatched ends as well typed scripts do. -/
def Call.Gives (t : Ty) : Call → Prop
  | .done result => Yields (·.HasType t) result
  | .dispatch _ next => ∀ outcome, Proceeds outcome → Gives t (next outcome)
  | .random next => ∀ x, Gives t (next x)

/-- The value may be passed for a parameter of the type, and is not null by its type. -/
def Value.Suits (v : Value) (p : Ty) : Prop :=
  ∃ t, v.HasType t ∧ p.assignable t = true ∧ t ≠ .null

/-- The values may be passed for the parameters, one by one. -/
inductive Value.AllSuit : List Value → List Ty → Prop
  | nil : AllSuit [] []
  | cons {v : Value} {p : Ty} {vs : List Value} {ps : List Ty} (hv : v.Suits p)
      (hvs : AllSuit vs ps) : AllSuit (v :: vs) (p :: ps)

/-- The function keeps its type. -/
def HostFunction.Sound (f : HostFunction) : Prop :=
  ∀ args, Value.AllSuit args f.params → (f.body args).Gives f.ret

namespace Value

theorem allSuit_of_accepts {params : List Ty} {args : List Value} {ts : List Ty}
    (h : HaveTypes args ts) (ha : Ty.accepts params ts = true) (hn : ∀ t ∈ ts, t ≠ .null) :
    AllSuit args params := by
  induction params generalizing args ts with
  | nil =>
    cases h with
    | nil => exact .nil
    | cons => cases ha
  | cons p params ih =>
    cases h with
    | nil => cases ha
    | cons hv hvs =>
      obtain ⟨hp, hrest⟩ := Bool.and_eq_true_iff.1 ha
      obtain ⟨hne, hn⟩ := List.forall_mem_cons.1 hn
      exact .cons ⟨_, hv, hp, hne⟩ (ih hvs hrest hn)

theorem AllSuit.length_eq {vs : List Value} {ps : List Ty} (h : AllSuit vs ps) :
    vs.length = ps.length := by
  induction h with
  | nil => rfl
  | cons _ _ ih => rw [List.length_cons, List.length_cons, ih]

/-! ## Arguments -/

variable {v : Value}

theorem Suits.asReal (h : v.Suits .real) : Proceeds v.asReal := by
  obtain ⟨t, hv, ha, hn⟩ := h
  have ht : t.isNumeric = true := by
    cases t <;> first
      | rfl
      | (cases ha; done)
      | exact absurd rfl hn
  obtain ⟨x, hx⟩ := asReal_eq hv ht
  rw [hx]
  trivial

/-- Types other than numbers take nothing but their own values. -/
theorem Suits.hasType {p : Ty} (h : v.Suits p) (hp : p = .vector ∨ p = .matrix ∨ p = .text) :
    v.HasType p := by
  obtain ⟨t, hv, ha, hn⟩ := h
  have ht : t = p := by
    rcases hp with rfl | rfl | rfl <;> cases t <;> first
      | rfl
      | (cases ha; done)
      | exact absurd rfl hn
  exact ht ▸ hv

theorem Suits.asVector (h : v.Suits .vector) : Proceeds v.asVector := by
  obtain ⟨x, hx⟩ := asVector_eq (h.hasType (by simp))
  rw [hx]
  trivial

theorem Suits.asMatrix (h : v.Suits .matrix) : Proceeds v.asMatrix := by
  obtain ⟨x, hx⟩ := asMatrix_eq (h.hasType (by simp))
  rw [hx]
  trivial

theorem Suits.asText (h : v.Suits .text) : Proceeds v.asText := by
  obtain ⟨x, hx⟩ := asText_eq (h.hasType (by simp))
  rw [hx]
  trivial

end Value

namespace Library

open Value

/-! ## One function after the other -/

variable {a b c d : Value}

theorem yields_rotation (ha : a.Suits .real) (hb : b.Suits .vector) :
    Yields (·.HasType .matrix) (rotation [a, b]) := by
  refine ha.asReal.bind fun x _ => hb.asVector.bind fun v _ => ?_
  dsimp only
  split
  · rfl
  · exact .matrix _

theorem yields_normalize (ha : a.Suits .vector) : Yields (·.HasType .vector) (normalize [a]) := by
  refine ha.asVector.bind fun v _ => ?_
  dsimp only
  split
  · rfl
  · exact .vector _

theorem yields_reflection (ha : a.Suits .vector) (hb : b.Suits .vector) :
    Yields (·.HasType .matrix) (reflection [a, b]) := by
  refine ha.asVector.bind fun n _ => hb.asVector.bind fun p _ => ?_
  dsimp only
  split
  · rfl
  · exact .matrix _

theorem yields_inverse (ha : a.Suits .matrix) : Yields (·.HasType .matrix) (inverse [a]) := by
  refine ha.asMatrix.bind fun m _ => ?_
  cases m.inverse? with
  | none => rfl
  | some m => exact .matrix m

theorem yields_vec (ha : a.Suits .real) (hb : b.Suits .real) (hc : c.Suits .real)
    (hd : d.Suits .real) : Yields (·.HasType .vector) (vec [a, b, c, d]) :=
  ha.asReal.bind fun _ _ => hb.asReal.bind fun _ _ => hc.asReal.bind fun _ _ =>
    hd.asReal.bind fun _ _ => .vector _

theorem yields_mat (ha : a.Suits .vector) (hb : b.Suits .vector) (hc : c.Suits .vector)
    (hd : d.Suits .vector) : Yields (·.HasType .matrix) (mat [a, b, c, d]) :=
  ha.asVector.bind fun _ _ => hb.asVector.bind fun _ _ => hc.asVector.bind fun _ _ =>
    hd.asVector.bind fun _ _ => .matrix _

theorem yields_scaling (ha : a.Suits .real) (hb : b.Suits .real) (hc : c.Suits .real) :
    Yields (·.HasType .matrix) (scaling [a, b, c]) :=
  ha.asReal.bind fun _ _ => hb.asReal.bind fun _ _ => hc.asReal.bind fun _ _ => .matrix _

theorem yields_dot (ha : a.Suits .vector) (hb : b.Suits .vector) :
    Yields (·.HasType .real) (dot [a, b]) :=
  ha.asVector.bind fun _ _ => hb.asVector.bind fun _ _ => .real _

theorem yields_cross (ha : a.Suits .vector) (hb : b.Suits .vector) :
    Yields (·.HasType .vector) (cross [a, b]) :=
  ha.asVector.bind fun _ _ => hb.asVector.bind fun _ _ => .vector _

/-! ## The whole library -/

/-- A function of one vector that cannot fail. -/
theorem sound_ofVector {name : String} {ret : Ty} {f : Vec4 → Value} (hf : ∀ v, (f v).HasType ret) :
    (HostFunction.ofResult name [.vector] ret fun args => do
      return f (← (arg args 0).asVector)).Sound := by
  rintro _ (_ | ⟨ha, _ | _⟩)
  exact ha.asVector.bind fun v _ => hf v

theorem sound_ofMatrix {name : String} {f : Mat4 → Mat4} :
    (HostFunction.ofResult name [.matrix] .matrix fun args => do
      return .matrix (f (← (arg args 0).asMatrix))).Sound := by
  rintro _ (_ | ⟨ha, _ | _⟩)
  exact ha.asMatrix.bind fun m _ => .matrix _

theorem sound_realFunction (name : String) (f : Float32 → Float32) :
    (realFunction name f).Sound := by
  rintro _ (_ | ⟨ha, _ | _⟩)
  exact ha.asReal.bind fun x _ => .real _

theorem sound_dispatch : dispatch.Sound := by
  rintro _ (_ | ⟨ha, _ | _⟩)
  have h := ha.asText
  rename_i v
  show Call.Gives .integer (dispatch.body [v])
  unfold dispatch
  dsimp only
  split
  · next e he =>
    have : (arg [v] 0).asText = v.asText := rfl
    rw [this] at he
    rw [he] at h
    exact h
  · next script he =>
    intro outcome houtcome
    exact houtcome.map fun _ _ => .integer 0

theorem sound_random : random.Sound := by
  rintro _ (_ | _)
  exact fun x => .real x

/-- Every function of the library keeps its type. -/
theorem sound_library : ∀ f ∈ functions, f.Sound := by
  unfold functions
  simp only [List.forall_mem_cons, List.not_mem_nil, false_imp_iff, implies_true, and_true]
  iterate 16 refine ⟨sound_realFunction _ _, ?_⟩
  refine ⟨?vec, ?mat, ?rotation, sound_ofVector fun v => .matrix _, ?scaling, ?normalize,
    sound_ofMatrix, ?reflection, sound_ofVector fun v => .real _, ?dot, ?cross, sound_ofMatrix,
    ?inverse, sound_random, sound_dispatch⟩
  case vec =>
    rintro _ (_ | ⟨ha, _ | ⟨hb, _ | ⟨hc, _ | ⟨hd, _ | _⟩⟩⟩⟩)
    exact yields_vec ha hb hc hd
  case mat =>
    rintro _ (_ | ⟨ha, _ | ⟨hb, _ | ⟨hc, _ | ⟨hd, _ | _⟩⟩⟩⟩)
    exact yields_mat ha hb hc hd
  case rotation =>
    rintro _ (_ | ⟨ha, _ | ⟨hb, _ | _⟩⟩)
    exact yields_rotation ha hb
  case scaling =>
    rintro _ (_ | ⟨ha, _ | ⟨hb, _ | ⟨hc, _ | _⟩⟩⟩)
    exact yields_scaling ha hb hc
  case normalize =>
    rintro _ (_ | ⟨ha, _ | _⟩)
    exact yields_normalize ha
  case reflection =>
    rintro _ (_ | ⟨ha, _ | ⟨hb, _ | _⟩⟩)
    exact yields_reflection ha hb
  case dot =>
    rintro _ (_ | ⟨ha, _ | ⟨hb, _ | _⟩⟩)
    exact yields_dot ha hb
  case cross =>
    rintro _ (_ | ⟨ha, _ | ⟨hb, _ | _⟩⟩)
    exact yields_cross ha hb
  case inverse =>
    rintro _ (_ | ⟨ha, _ | _⟩)
    exact yields_inverse ha

end Library

end VectorScript
