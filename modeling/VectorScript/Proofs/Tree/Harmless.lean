import VectorScript.Proofs.Tree.Layout

/-!
# Harmless trees

Two things keep a well typed script from running as its types promise. The empty list passes for a
value of every type, though neither a function nor a component of a vector or a matrix can take it;
and an operand word holds 32 bits. A tree that uses the empty list nowhere there and whose sizes fit
is harmless (`Stmt.Harmless`); one without calls and paths is so at a glance (`Stmt.isPlain`). What is
harmless is laid out as statements made of typed, harmless trees (`Statement.Typed`).

    Stmt.flattenAll body = .ok statements → ∀ s ∈ statements, s.Typed Γ            (typed_flattenAll)
-/

namespace VectorScript

/-! ## Null -/

namespace Expr

/-- The path ends inside a vector or a matrix: at a component, a column or an element. -/
inductive Inside : Ty → List Expr → Prop
  | here {t : Ty} {i : Expr} (ht : t = .vector ∨ t = .matrix) : Inside t [i]
  | index {t u : Ty} {i : Expr} {rest : List Expr} (ht : t.element? = some u)
      (h : Inside u rest) : Inside t (i :: rest)
  | field {fields : List (String × Ty)} {place : Nat} {name : String} {u : Ty}
      {rest : List Expr} (hf : fields[place]? = some (name, u)) (h : Inside u rest) :
      Inside (.record fields) (.literal (.integer (Int32.ofNat place)) :: rest)

mutual

/-- No argument of a call is null by its type. -/
def NullFree (Γ : Signature) : Expr → Prop
  | literal _ | var _ => True
  | unary _ _ e | field e _ => NullFree Γ e
  | binary _ _ l r | element l r => NullFree Γ l ∧ NullFree Γ r
  | list items => AllNullFree Γ items
  | vector x y z w | matrix x y z w =>
    NullFree Γ x ∧ NullFree Γ y ∧ NullFree Γ z ∧ NullFree Γ w
  | call _ args => AllNullFree Γ args ∧ ∀ e ∈ args, ¬e.HasType Γ .null

def AllNullFree (Γ : Signature) : List Expr → Prop
  | [] => True
  | e :: rest => NullFree Γ e ∧ AllNullFree Γ rest

end

end Expr

/-! ## Sizes -/

mutual

/-- The fields of every record can be numbered by integers. -/
def Ty.Small : Ty → Prop
  | .array elem => elem.Small
  | .record fields => fields.length ≤ 2147483648 ∧ Ty.AllSmall fields
  | _ => True

def Ty.AllSmall : List (String × Ty) → Prop
  | [] => True
  | (_, t) :: rest => t.Small ∧ AllSmall rest

end

theorem Ty.AllSmall.get {fields : List (String × Ty)} (h : AllSmall fields) {place : Nat}
    {name : String} {t : Ty} (ht : fields[place]? = some (name, t)) : t.Small := by
  induction fields generalizing place with
  | nil => cases ht
  | cons f rest ih =>
    obtain ⟨_, u⟩ := f
    cases place with
    | zero =>
      cases ht
      exact h.1
    | succ place => exact ih h.2 ht

/-! ## Right sides and statements -/

namespace Rhs

/-- The values that the right side may have. -/
def values : Rhs → List Expr
  | plain e => [e]
  | guarded cases otherwise => cases.map (·.2) ++ otherwise.toList

/-- The conditions that it looks at. -/
def conditions : Rhs → List Expr
  | plain _ => []
  | guarded cases _ => cases.map (·.1)

/-- No argument of a call is null by its type. -/
def NullFree (Γ : Signature) (r : Rhs) : Prop :=
  (∀ e ∈ r.conditions, e.NullFree Γ) ∧ ∀ e ∈ r.values, e.NullFree Γ

end Rhs

namespace Stmt

mutual

/-- Nothing in the statement keeps it from running as its types promise. -/
def Harmless (Γ : Signature) : Stmt → Prop
  | store slot path value _ =>
    (Expr.AllNullFree Γ path ∧ Expr.FitAll path) ∧
      (value.NullFree Γ ∧ value.Fits) ∧
      ∀ t, Γ.slot slot = some t → t.Small ∧
        (Expr.Inside t path → ∀ e ∈ value.values, ¬e.HasType Γ .null)
  | discard e _ => e.NullFree Γ ∧ e.Fits
  | ifThen condition _ body => (condition.NullFree Γ ∧ condition.Fits) ∧ AllHarmless Γ body
  | ifElse condition _ body _ otherwise =>
    (condition.NullFree Γ ∧ condition.Fits) ∧ AllHarmless Γ body ∧ AllHarmless Γ otherwise

def AllHarmless (Γ : Signature) : List Stmt → Prop
  | [] => True
  | s :: rest => Harmless Γ s ∧ AllHarmless Γ rest

end

end Stmt

/-! ## Plain trees -/

namespace Expr

mutual

/-- The expression calls no function, and its sizes fit. -/
def isPlain : Expr → Bool
  | literal _ => true
  | var slot => slot < UInt32.size
  | unary _ _ e => isPlain e
  | binary _ _ l r | element l r => isPlain l && isPlain r
  | field r place => isPlain r && place < UInt32.size
  | list items => allPlain items && items.length < UInt32.size
  | vector x y z w | matrix x y z w => isPlain x && isPlain y && isPlain z && isPlain w
  | call _ _ => false

def allPlain : List Expr → Bool
  | [] => true
  | e :: rest => isPlain e && allPlain rest

end

mutual

theorem harmless_of_isPlain (Γ : Signature) :
    (e : Expr) → e.isPlain = true → e.NullFree Γ ∧ e.Fits
  | literal _, _ => ⟨trivial, trivial⟩
  | var slot, h => ⟨trivial, show slot < UInt32.size from of_decide_eq_true h⟩
  | unary _ _ e, h => harmless_of_isPlain Γ e h
  | binary _ _ l r, h | element l r, h => by
    obtain ⟨hl, hr⟩ := Bool.and_eq_true_iff.1 h
    have hl := harmless_of_isPlain Γ l hl
    have hr := harmless_of_isPlain Γ r hr
    exact ⟨⟨hl.1, hr.1⟩, hl.2, hr.2⟩
  | field r place, h => by
    obtain ⟨hr, hplace⟩ := Bool.and_eq_true_iff.1 h
    have hr := harmless_of_isPlain Γ r hr
    exact ⟨hr.1, hr.2, of_decide_eq_true hplace⟩
  | list items, h => by
    obtain ⟨hitems, hlength⟩ := Bool.and_eq_true_iff.1 h
    have hitems := harmless_of_allPlain Γ items hitems
    exact ⟨hitems.1, hitems.2, of_decide_eq_true hlength⟩
  | vector x y z w, h | matrix x y z w, h => by
    simp only [isPlain, Bool.and_eq_true] at h
    obtain ⟨⟨⟨hx, hy⟩, hz⟩, hw⟩ := h
    have hx := harmless_of_isPlain Γ x hx
    have hy := harmless_of_isPlain Γ y hy
    have hz := harmless_of_isPlain Γ z hz
    have hw := harmless_of_isPlain Γ w hw
    exact ⟨⟨hx.1, hy.1, hz.1, hw.1⟩, hx.2, hy.2, hz.2, hw.2⟩
  | call _ _, h => nomatch h

theorem harmless_of_allPlain (Γ : Signature) :
    (es : List Expr) → allPlain es = true → AllNullFree Γ es ∧ FitAll es
  | [], _ => ⟨trivial, trivial⟩
  | e :: rest, h => by
    obtain ⟨he, hrest⟩ := Bool.and_eq_true_iff.1 h
    have he := harmless_of_isPlain Γ e he
    have hrest := harmless_of_allPlain Γ rest hrest
    exact ⟨⟨he.1, hrest.1⟩, he.2, hrest.2⟩

end

end Expr

theorem Ty.small_of_isBase {t : Ty} (h : t.isBase = true) : t.Small := by
  cases t with
  | array _ | record _ | null | selector _ => cases h
  | _ => trivial

namespace Stmt

mutual

/-- The statement consists of plain expressions and stores them in variables of base types. -/
def isPlain (Γ : Signature) : Stmt → Bool
  | store slot [] (.plain e) _ => e.isPlain && (Γ.slot slot).all Ty.isBase
  | store .. => false
  | discard e _ => e.isPlain
  | ifThen condition _ body => condition.isPlain && allPlain Γ body
  | ifElse condition _ body _ otherwise =>
    condition.isPlain && allPlain Γ body && allPlain Γ otherwise

def allPlain (Γ : Signature) : List Stmt → Bool
  | [] => true
  | s :: rest => isPlain Γ s && allPlain Γ rest

end

mutual

theorem harmless_of_isPlain {Γ : Signature} : (s : Stmt) → s.isPlain Γ = true → s.Harmless Γ
  | store slot [] (.plain e) _, h => by
    obtain ⟨he, hbase⟩ := Bool.and_eq_true_iff.1 h
    have he := Expr.harmless_of_isPlain Γ e he
    refine ⟨⟨trivial, trivial⟩, ⟨⟨(fun _ h => nomatch h), fun a ha => ?_⟩, he.2⟩, fun t ht => ?_⟩
    · rw [List.mem_singleton.1 ha]
      exact he.1
    · rw [ht] at hbase
      exact ⟨Ty.small_of_isBase hbase, fun hin => nomatch hin⟩
  | store _ (_ :: _) _ _, h | store _ [] (.guarded _ _) _, h => nomatch h
  | discard e _, h => Expr.harmless_of_isPlain Γ e h
  | ifThen condition _ body, h => by
    obtain ⟨hc, hb⟩ := Bool.and_eq_true_iff.1 h
    exact ⟨Expr.harmless_of_isPlain Γ condition hc, harmless_of_allPlain body hb⟩
  | ifElse condition _ body _ otherwise, h => by
    obtain ⟨hcb, ho⟩ := Bool.and_eq_true_iff.1 h
    obtain ⟨hc, hb⟩ := Bool.and_eq_true_iff.1 hcb
    exact ⟨Expr.harmless_of_isPlain Γ condition hc, harmless_of_allPlain body hb,
      harmless_of_allPlain otherwise ho⟩

theorem harmless_of_allPlain {Γ : Signature} :
    (body : List Stmt) → allPlain Γ body = true → AllHarmless Γ body
  | [], _ => trivial
  | s :: rest, h => by
    obtain ⟨hs, hrest⟩ := Bool.and_eq_true_iff.1 h
    exact ⟨harmless_of_isPlain s hs, harmless_of_allPlain rest hrest⟩

end

end Stmt

/-! ## Laid out -/

/-- The statement is made of well typed and harmless trees. -/
inductive Statement.Typed (Γ : Signature) : Statement → Prop
  | store {slot : Nat} {path : List Expr} {value : Rhs} {p : Position} {s : Statement} {t target : Ty}
      (hs : Stmt.assemble (.store slot path.length) (do Expr.emitAll path; value.emit) p = .ok s)
      (hslot : Γ.slot slot = some t) (hpath : Expr.Path Γ t path target)
      (hvalue : value.Suits Γ target) (hh : Stmt.Harmless Γ (.store slot path value p)) : Typed Γ s
  | discard {e : Expr} {p : Position} {s : Statement} {t : Ty}
      (hs : Stmt.assemble .discard e.emit p = .ok s) (he : e.HasType Γ t) (hn : e.NullFree Γ)
      (hf : e.Fits) : Typed Γ s
  | branch {distance : Nat} {e : Expr} {p : Position} {s : Statement}
      (hs : Stmt.assemble (.unless distance) e.emit p = .ok s) (he : e.HasType Γ .integer)
      (hn : e.NullFree Γ) (hf : e.Fits) : Typed Γ s
  | jump {distance : Nat} {p : Position} {s : Statement}
      (hs : Stmt.assemble (.jump distance) (pure ()) p = .ok s) : Typed Γ s

namespace Stmt

theorem allHarmless_iff {Γ : Signature} {body : List Stmt} :
    AllHarmless Γ body ↔ ∀ s ∈ body, Harmless Γ s := by
  induction body with
  | nil => simp [AllHarmless]
  | cons s rest ih => simp [AllHarmless, ih]

theorem hereditary_harmless (Γ : Signature) : Hereditary (Harmless Γ) where
  ifThen h := ⟨⟨h.1, trivial⟩, allHarmless_iff.1 h.2⟩
  ifElse h := ⟨⟨h.1, trivial⟩, allHarmless_iff.1 h.2.1, allHarmless_iff.1 h.2.2⟩

/-- What is made of well typed and of harmless trees. -/
theorem typed_of_madeOf {Γ : Scope} {a : Statement}
    (h : a.MadeOf fun s => s.Ok Γ ∧ s.Harmless Γ) : a.Typed Γ := by
  cases h with
  | store hs h =>
    obtain ⟨⟨-, t, target, hslot, hpath, hvalue⟩, hh⟩ := h
    exact .store hs hslot hpath hvalue hh
  | discard hs h =>
    obtain ⟨⟨t, ht⟩, hn, hf⟩ := h
    exact .discard hs ht hn hf
  | branch hs h => exact .branch hs h.1.1 h.2.1.1 h.2.1.2
  | jump hs => exact .jump hs

/-- Laying well typed and harmless trees out gives statements made of them. -/
theorem typed_flattenAll {Γ : Scope} {body : List Stmt} (ho : AllOk Γ body)
    (hh : AllHarmless Γ body) {statements : List Statement}
    (h : flattenAll body = .ok statements) : ∀ a ∈ statements, a.Typed Γ := by
  have hP := (hereditary_ok Γ).and (hereditary_harmless Γ)
  exact fun a ha => typed_of_madeOf (madeOf_flattenAll hP body
    (fun s hs => ⟨allOk_iff.1 ho s hs, allHarmless_iff.1 hh s hs⟩) h a ha)

end Stmt

end VectorScript
