import VectorScript.Proofs.Workspace.Dependence

/-!
# The search for a way

`dependsOn` visits the pending names one by one and has a bound on its steps. Neither the order nor
the bound matters: visits cannot go on for ever, and wherever they end they give the answer that
`dependsOn` gives, which is whether there is a way. The state of a search is `Search`, a visit of any
pending name is `Scripts.Visits`.
-/

namespace VectorScript

/-- The names that are still to be visited, and those that have been seen. -/
structure Search where
  todo : List String
  seen : NameSet

namespace Search

/-- Nothing has been seen, not even where the search starts. -/
def start (top : String) : Search := ⟨[top], .empty⟩

end Search

namespace Scripts

variable {scripts : Scripts} {top sub : String}

/-- The program of `top`, which has one, holds the name `sub`. -/
def Holds (scripts : Scripts) (top sub : String) : Prop :=
  ∃ p, scripts.program? top = some p ∧ p.subscripts.contains sub = true

theorem names_iff_holds : scripts.Names top sub ↔ scripts.Holds top sub := by
  unfold Names Holds subscripts
  cases scripts.program? top with
  | none => simp
  | some p => simp [NameMap.mem_names]

/-- What is named and has not been seen, and is to be visited then. -/
def fresh (scripts : Scripts) (seen : NameSet) (name : String) : List String :=
  (scripts.subscripts name).filter fun n => !seen.contains n

/-- One of the pending names is visited, and does not name `sub`: what it names has been seen from then
on and is pending where it was not seen before. -/
structure Visits (scripts : Scripts) (sub : String) (s : Search) (name : String) (s' : Search) :
    Prop where
  names : sub ∉ scripts.subscripts name
  todo : ∃ rest, s.todo.Perm (name :: rest) ∧ s'.todo.Perm (scripts.fresh s.seen name ++ rest)
  seen : s'.seen = (scripts.fresh s.seen name).foldl NameMap.add s.seen

/-- Some pending name is visited. -/
def Goes (scripts : Scripts) (sub : String) (s s' : Search) : Prop :=
  ∃ name, scripts.Visits sub s name s'

/-! ## Visits end -/

theorem mem_fresh {seen : NameSet} {name x : String} (h : x ∈ scripts.fresh seen name) :
    x ∈ scripts.named ∧ seen.contains x = false := by
  obtain ⟨hmem, hseen⟩ := List.mem_filter.1 h
  exact ⟨mem_named hmem, by simpa using hseen⟩

/-- What becomes pending is not unseen any more, and what was visited is not pending. -/
theorem Visits.shrinks {s s' : Search} {name : String} (h : scripts.Visits sub s name s') :
    s'.todo.length + scripts.unseen s'.seen < s.todo.length + scripts.unseen s.seen := by
  obtain ⟨rest, hbefore, hafter⟩ := h.todo
  have hfresh := unseen_add s.seen ((scripts.nodup_subscripts name).filter _) fun x => mem_fresh
  rw [h.seen, hbefore.length_eq, hafter.length_eq, List.length_append, List.length_cons]
  unfold fresh at hfresh ⊢
  omega

/-- There is no endless search. -/
theorem wellFounded_goes : WellFounded fun s' s => scripts.Goes sub s s' :=
  Subrelation.wf (fun ⟨_, h⟩ => h.shrinks)
    (measure fun s : Search => s.todo.length + scripts.unseen s.seen).wf

/-- A pending name that does not name `sub` can be visited. -/
theorem exists_visits {s : Search} {name : String} (hname : name ∈ s.todo)
    (hsub : sub ∉ scripts.subscripts name) : ∃ s', scripts.Visits sub s name s' :=
  ⟨⟨scripts.fresh s.seen name ++ s.todo.erase name, _⟩, hsub,
    ⟨_, List.perm_cons_erase hname, .refl _⟩, rfl⟩

/-! ## Where visits end -/

/-- The start, or a name that the start depends on. -/
def Pending (scripts : Scripts) (top : String) (s : Search) : Prop :=
  ∀ name ∈ s.todo, Relation.ReflTransGen scripts.Names top name

theorem Searched.perm {todo todo' : List String} {seen : NameSet}
    (h : scripts.Searched top sub todo seen) (hperm : todo.Perm todo') :
    scripts.Searched top sub todo' seen :=
  fun x hx => (h x hx).imp_left hperm.mem_iff.1

theorem Visits.searched {s s' : Search} {name : String} (h : scripts.Visits sub s name s')
    (hs : scripts.Searched top sub s.todo s.seen) : scripts.Searched top sub s'.todo s'.seen := by
  obtain ⟨rest, hbefore, hafter⟩ := h.todo
  rw [h.seen]
  exact ((hs.perm hbefore).visit h.names).perm hafter.symm

theorem Visits.pending {s s' : Search} {name : String} (h : scripts.Visits sub s name s')
    (hs : scripts.Pending top s) : scripts.Pending top s' := by
  obtain ⟨rest, hbefore, hafter⟩ := h.todo
  intro other hother
  rcases List.mem_append.1 (hafter.mem_iff.1 hother) with hfresh | hrest
  · have hname := hs name (hbefore.mem_iff.2 List.mem_cons_self)
    exact hname.tail (List.mem_filter.1 hfresh).1
  · exact hs other (hbefore.mem_iff.2 (List.mem_cons_of_mem _ hrest))

/-- However far a search has come, nothing has been missed and nothing is pending in vain. -/
theorem searched_and_pending {s : Search}
    (h : Relation.ReflTransGen (scripts.Goes sub) (.start top) s) :
    scripts.Searched top sub s.todo s.seen ∧ scripts.Pending top s := by
  induction h with
  | refl =>
    refine ⟨searched_start, fun name hname => ?_⟩
    obtain rfl := List.mem_singleton.1 hname
    exact .refl
  | tail _ hgoes ih =>
    obtain ⟨name, hvisit⟩ := hgoes
    exact ⟨hvisit.searched ih.1, hvisit.pending ih.2⟩

/-- A script depends on another just if there is a way from it, not an empty one, each step of which goes
from a script with a program to a name in that program. The search that finds this out ends, in
whatever order it visits the names that are pending and with any larger bound on its steps: visits
cannot go on for ever, at each state of the search every pending name either names what is searched
for or can be visited, and it gives the same answer wherever it ends. So dependence is transitive. -/
theorem dependsOn_exact (scripts : Scripts) :
    (∀ top sub, scripts.dependsOn top sub = true ↔ Relation.TransGen scripts.Holds top sub) ∧
    (∀ sub, WellFounded fun s' s => scripts.Goes sub s s') ∧
    (∀ top sub s, Relation.ReflTransGen (scripts.Goes sub) (.start top) s →
      (s.todo = [] → scripts.dependsOn top sub = false) ∧
      ∀ name ∈ s.todo, (scripts.Holds name sub ∧ scripts.dependsOn top sub = true) ∨
        ∃ s', scripts.Visits sub s name s') ∧
    (∀ top sub steps, scripts.named.length < steps →
      scripts.search sub steps [top] .empty = scripts.dependsOn top sub) ∧
    ∀ x y z, scripts.dependsOn x y = true → scripts.dependsOn y z = true →
      scripts.dependsOn x z = true := by
  have hholds : scripts.Names = scripts.Holds := by
    ext top sub
    exact names_iff_holds
  refine ⟨fun top sub => hholds ▸ dependsOn_iff, fun sub => wellFounded_goes, ?_, ?_, ?_⟩
  · intro top sub s hs
    obtain ⟨hsearched, hpending⟩ := searched_and_pending hs
    refine ⟨fun hnone => ?_, fun name hname => ?_⟩
    · rw [hnone] at hsearched
      rw [Bool.eq_false_iff, Ne, dependsOn_iff]
      exact hsearched.not_transGen
    · by_cases hsub : sub ∈ scripts.subscripts name
      · exact .inl ⟨names_iff_holds.1 hsub, dependsOn_iff.2 (.tail' (hpending name hname) hsub)⟩
      · exact .inr (exists_visits hname hsub)
  · intro top sub steps hsteps
    rw [← Bool.coe_iff_coe, search_iff hsteps, dependsOn_iff]
  · intro x y z hxy hyz
    rw [dependsOn_iff] at hxy hyz ⊢
    exact hxy.trans hyz

end Scripts

end VectorScript
