import VectorScript.Proofs.NameMap
import VectorScript.Workspace.Script
import Mathlib.Data.List.Perm.Subperm
import Mathlib.Logic.Relation

/-!
# Which scripts depend on which

`dependsOn` looks for a way from one script to another along the names in their programs, and finds
one whenever there is one: every name is visited, and the steps suffice for all of them. Where the
ways end, the program of the last script does not matter.

    scripts.dependsOn top sub = true ↔ Relation.TransGen scripts.Names top sub     (dependsOn_iff)
-/

namespace VectorScript

/-! ## Ways -/

/-- A way to somewhere else goes on until it is there for the first time. -/
theorem transGen_avoiding {α : Type} {r : α → α → Prop} {a b : α} (h : Relation.TransGen r a b)
    (hne : a ≠ b) : Relation.TransGen (fun x y => x ≠ b ∧ r x y) a b := by
  induction h using Relation.TransGen.head_induction_on with
  | single hab => exact .single ⟨hne, hab⟩
  | @head a c hac _ ih =>
    by_cases hcb : c = b
    · subst hcb
      exact .single ⟨hne, hac⟩
    · exact .head ⟨hne, hac⟩ (ih hcb)

/-- Where only one point has got new ways out of it, there is a cycle only if there was one, or if one
of the new ways leads back. -/
theorem transGen_rerouted {α : Type} {r r' : α → α → Prop} {u : α}
    (hold : ∀ x y, x ≠ u → r' x y → r x y) {a b : α} (h : Relation.TransGen r' a b) :
    Relation.TransGen r a b ∨ Relation.ReflTransGen r' a u ∧ Relation.TransGen r' u b := by
  induction h with
  | @single b hab =>
    by_cases ha : a = u
    · subst ha
      exact .inr ⟨.refl, .single hab⟩
    · exact .inl (.single (hold a b ha hab))
  | @tail b c hab hbc ih =>
    by_cases hb : b = u
    · subst hb
      exact .inr ⟨hab.to_reflTransGen, .single hbc⟩
    · exact ih.imp (·.tail (hold b c hb hbc)) fun ⟨hau, hub⟩ => ⟨hau, hub.tail hbc⟩

namespace Scripts

/-- The program of `top` imports from `sub` or dispatches it by its name. -/
def Names (scripts : Scripts) (top sub : String) : Prop := sub ∈ scripts.subscripts top

/-- Every name that stands in a program, once for each program. -/
def named (scripts : Scripts) : List String := scripts.names.flatMap scripts.subscripts

variable {scripts : Scripts} {top sub : String}

theorem nodup_subscripts (scripts : Scripts) (name : String) : (scripts.subscripts name).Nodup := by
  unfold subscripts
  cases scripts.program? name with
  | none => exact .nil
  | some p => exact p.subscripts.nodup_names

theorem mem_named {name : String} (h : sub ∈ scripts.subscripts name) : sub ∈ scripts.named := by
  refine List.mem_flatMap.2 ⟨name, NameMap.mem_names.2 ?_, h⟩
  unfold subscripts program? at h
  unfold NameMap.contains
  cases hs : scripts.get? name with
  | none =>
    rw [hs] at h
    cases h
  | some s => rfl

theorem contains_foldl_add {names : List String} {seen : NameSet} {x : String} :
    (names.foldl NameMap.add seen).contains x = true ↔ x ∈ names ∨ seen.contains x = true := by
  induction names generalizing seen with
  | nil => simp
  | cons name rest ih =>
    rw [List.foldl_cons, ih, NameMap.add, NameMap.contains_insert, List.mem_cons]
    tauto

/-! ## What the search finds -/

/-- What is found can be reached from a name that was to be visited. -/
theorem exists_of_search {steps : Nat} {todo : List String} {seen : NameSet}
    (h : scripts.search sub steps todo seen = true) :
    ∃ name ∈ todo, Relation.TransGen scripts.Names name sub := by
  induction steps generalizing todo seen with
  | zero => cases h
  | succ steps ih =>
    cases todo with
    | nil => cases h
    | cons name todo =>
      simp only [search] at h
      split at h
      · next hnext =>
        exact ⟨name, List.mem_cons_self, .single (List.contains_iff_mem.1 hnext)⟩
      · obtain ⟨other, hother, hway⟩ := ih h
        rcases List.mem_append.1 hother with hfresh | htodo
        · exact ⟨name, List.mem_cons_self, .head (List.mem_filter.1 hfresh).1 hway⟩
        · exact ⟨other, List.mem_cons_of_mem _ htodo, hway⟩

/-! ## What the search cannot miss -/

/-- Of `top` and the names seen, each is still to be visited, or names nothing but names seen. -/
def Searched (scripts : Scripts) (top sub : String) (todo : List String) (seen : NameSet) : Prop :=
  ∀ x, x = top ∨ seen.contains x = true → x ∈ todo ∨
    ∀ y ∈ scripts.subscripts x, y ≠ sub ∧ seen.contains y = true

/-- How many names in programs have not been seen. -/
def unseen (scripts : Scripts) (seen : NameSet) : Nat :=
  scripts.named.countP fun name => !seen.contains name

/-- Names that are seen now are not unseen any more. -/
theorem unseen_add (seen : NameSet) {names : List String} (hnodup : names.Nodup)
    (hnames : ∀ x ∈ names, x ∈ scripts.named ∧ seen.contains x = false) :
    names.length + scripts.unseen (names.foldl NameMap.add seen) ≤ scripts.unseen seen := by
  have hsub : names ⊆ (scripts.named.filter fun x => !seen.contains x).filter (names.contains ·) := by
    intro x hx
    obtain ⟨hmem, hseen⟩ := hnames x hx
    simp [hmem, hseen, hx]
  have hrest : scripts.unseen (names.foldl NameMap.add seen) =
      ((scripts.named.filter fun x => !seen.contains x).filter fun x => !names.contains x).length := by
    unfold unseen
    rw [List.countP_eq_length_filter, List.filter_filter]
    refine congrArg _ (List.filter_congr fun x _ => ?_)
    rw [← Bool.coe_iff_coe, Bool.and_eq_true, Bool.not_eq_true', Bool.not_eq_true', Bool.not_eq_true',
      ← Bool.not_eq_true, contains_foldl_add, ← Bool.not_eq_true, List.contains_iff_mem,
      ← Bool.not_eq_true]
    tauto
  have hlength := (hnodup.subperm hsub).length_le
  have hsplit := List.length_eq_length_filter_add (l := scripts.named.filter fun x => !seen.contains x)
    (names.contains ·)
  rw [hrest]
  unfold unseen
  rw [List.countP_eq_length_filter]
  omega

theorem searched_start : scripts.Searched top sub [top] .empty := by
  rintro x (rfl | hx)
  · exact .inl (List.mem_singleton_self _)
  · cases hx

/-- One more name has been visited: what it names has been seen. -/
theorem Searched.visit {name : String} {todo : List String} {seen : NameSet}
    (h : scripts.Searched top sub (name :: todo) seen) (hsub : sub ∉ scripts.subscripts name) :
    scripts.Searched top sub
      ((scripts.subscripts name).filter (fun n => !seen.contains n) ++ todo)
      (((scripts.subscripts name).filter fun n => !seen.contains n).foldl NameMap.add seen) := by
  intro x hx
  rw [contains_foldl_add] at hx
  have hold : x = top ∨ seen.contains x = true ∨
      x ∈ (scripts.subscripts name).filter fun n => !seen.contains n := by tauto
  rcases or_assoc.2 hold with hold | hfresh
  · rcases h x hold with hmem | hdone
    · rcases List.mem_cons.1 hmem with rfl | hmem
      · refine .inr fun y hy => ⟨fun heq => hsub (heq ▸ hy), contains_foldl_add.2 ?_⟩
        by_cases hseen : seen.contains y = true
        · exact .inr hseen
        · exact .inl (List.mem_filter.2 ⟨hy, by simpa using hseen⟩)
      · exact .inl (List.mem_append_right _ hmem)
    · exact .inr fun y hy => ⟨(hdone y hy).1, contains_foldl_add.2 (.inr (hdone y hy).2)⟩
  · exact .inl (List.mem_append_left _ hfresh)

/-- When there is nothing left to visit, there is no way. -/
theorem Searched.not_transGen {seen : NameSet} (h : scripts.Searched top sub [] seen) :
    ¬Relation.TransGen scripts.Names top sub := by
  intro hway
  have hseen : ∀ y, Relation.TransGen scripts.Names top y → y ≠ sub ∧ seen.contains y = true := by
    intro y hy
    induction hy with
    | single hy => exact ((h top (.inl rfl)).resolve_left List.not_mem_nil) _ hy
    | tail _ hy ih => exact ((h _ (.inr ih.2)).resolve_left List.not_mem_nil) _ hy
  exact (hseen sub hway).1 rfl

/-- A search with a step for every name to visit and every name unseen finds a way if there is one. -/
theorem not_transGen_of_search {steps : Nat} {todo : List String} {seen : NameSet}
    (hsteps : todo.length + scripts.unseen seen ≤ steps)
    (hsearched : scripts.Searched top sub todo seen)
    (h : scripts.search sub steps todo seen = false) : ¬Relation.TransGen scripts.Names top sub := by
  induction steps generalizing todo seen with
  | zero =>
    obtain rfl := List.eq_nil_of_length_eq_zero (by omega : todo.length = 0)
    exact hsearched.not_transGen
  | succ steps ih =>
    cases todo with
    | nil => exact hsearched.not_transGen
    | cons name todo =>
      simp only [search] at h
      split at h
      · cases h
      · next hnext =>
        have hsub : sub ∉ scripts.subscripts name := fun hmem => hnext (List.contains_iff_mem.2 hmem)
        refine ih ?_ (hsearched.visit hsub) h
        -- Names that are added to visit have been unseen: the bound goes down with the visit.
        have hnew : ∀ x ∈ (scripts.subscripts name).filter fun n => !seen.contains n,
            x ∈ scripts.named ∧ seen.contains x = false := by
          intro x hx
          obtain ⟨hmem, hseen⟩ := List.mem_filter.1 hx
          exact ⟨mem_named hmem, by simpa using hseen⟩
        have hfresh := unseen_add seen ((scripts.nodup_subscripts name).filter _) hnew
        rw [List.length_append]
        rw [List.length_cons] at hsteps
        omega

/-! ## Dependence -/

theorem foldl_edges (scripts : Scripts) :
    scripts.names.foldl (fun n name => n + (scripts.subscripts name).length) 0 =
      scripts.named.length := by
  have h : ∀ (names : List String) (n : Nat),
      names.foldl (fun n name => n + (scripts.subscripts name).length) n =
        n + (names.flatMap scripts.subscripts).length := by
    intro names
    induction names with
    | nil => simp
    | cons name rest ih =>
      intro n
      rw [List.foldl_cons, ih, List.flatMap_cons, List.length_append, Nat.add_assoc]
  rw [h, Nat.zero_add]
  rfl

/-- A search from one script with more steps than there are names in programs finds its way to another
just if there is one. -/
theorem search_iff {steps : Nat} (hsteps : scripts.named.length < steps) :
    scripts.search sub steps [top] .empty = true ↔ Relation.TransGen scripts.Names top sub := by
  constructor
  · intro h
    obtain ⟨name, hname, hway⟩ := exists_of_search h
    obtain rfl := List.mem_singleton.1 hname
    exact hway
  · intro hway
    by_contra hfound
    have hunseen : [top].length + scripts.unseen .empty ≤ steps := by
      have : scripts.unseen .empty ≤ scripts.named.length := List.countP_le_length
      rw [List.length_singleton]
      omega
    exact not_transGen_of_search hunseen searched_start (Bool.eq_false_iff.2 hfound) hway

/-- A script depends on another just if names in programs lead from the one to the other. -/
theorem dependsOn_iff :
    scripts.dependsOn top sub = true ↔ Relation.TransGen scripts.Names top sub := by
  unfold dependsOn
  rw [foldl_edges]
  exact search_iff (Nat.lt_succ_self _)

/-- Whether another script depends on one does not hang on the one's own program. -/
theorem dependsOn_congr {other : Scripts}
    (h : ∀ name, name ≠ sub → other.subscripts name = scripts.subscripts name) (hne : top ≠ sub) :
    other.dependsOn top sub = scripts.dependsOn top sub := by
  have hway : ∀ {a b : Scripts}, (∀ name, name ≠ sub → b.subscripts name = a.subscripts name) →
      b.dependsOn top sub = true → a.dependsOn top sub = true := by
    intro a b hab hb
    rw [dependsOn_iff] at hb ⊢
    have hnames : (fun x y => x ≠ sub ∧ b.Names x y) ≤ a.Names := by
      rintro x y ⟨hx, hxy⟩
      unfold Names at hxy ⊢
      rw [← hab x hx]
      exact hxy
    exact Relation.TransGen.mono hnames _ _ (transGen_avoiding hb hne)
  rw [← Bool.coe_iff_coe]
  exact ⟨hway h, hway fun name hname => (h name hname).symm⟩

end Scripts

end VectorScript
