import VectorScript.Proofs.Workspace.Recompile
import VectorScript.Proofs.Workspace.History

/-!
# The size of memory

Every runner has memory of as many slots as its program has variables, whatever is done. Code that
names a slot beyond them finds nothing there.

    Reachable Setting.compile w → w.Sized                                    (sized_of_reachable)
-/

namespace VectorScript.Workspace

variable {w : Workspace}

/-- Each runner's memory has a slot for every variable of its program, and no other. -/
def Sized (w : Workspace) : Prop :=
  ∀ name s i r, w.scripts.get? name = some s → s.installed = some i → i.runner = some r →
    r.memory.slots.length = r.program.slots.length

theorem Sized.of_ages {w' : Workspace} (h : w.Sized) (hages : Ages w.scripts w'.scripts) :
    w'.Sized := by
  intro name t i r ht hi hr
  obtain ⟨s, hs, hi', -⟩ := hages.each name t i ht hi
  exact h name s i r hs hi' hr

theorem Sized.runner (h : w.Sized) {name : String} {r : Runner}
    (hr : (w.scripts.get? name).bind Script.runner? = some r) :
    r.memory.slots.length = r.program.slots.length := by
  obtain ⟨s, hs, hsr⟩ := Option.bind_eq_some_iff.1 hr
  obtain ⟨i, hi, hir⟩ := Option.bind_eq_some_iff.1 hsr
  exact h name s i r hs hi hir

/-- A new program has fresh memory. -/
theorem Sized.compile (h : w.Sized) (hw : w.Sound) {name : String} (hname : name ∉ w.active) :
    (w.compile name).2.Sized := by
  cases hs : w.scripts.get? name with
  | none =>
    rw [compile_eq_none hs]
    exact h
  | some s =>
    cases hr : ((w.setting name).compile s.source).1 with
    | ok p =>
      rw [hw.compile_eq_ok Setting.sound_compile hname hs hr]
      intro other u i r hu hi hir
      rcases get?_rescripted hu with ⟨rfl, rfl⟩ | ⟨-, t, ht, hinstalled, -⟩
      · cases hi
        cases hir
        exact List.length_map _
      · exact h other t i r ht (hinstalled.symm.trans hi) hir
    | error e =>
      rw [compile_eq_error hs hr]
      exact h.of_ages (ages_insert (t := { s with error := some e }) hs rfl rfl)

theorem Sized.enter (h : w.Sized) (name : String) : (w.enter name).Sized := by
  intro other t i r ht hi hr
  obtain ⟨s, j, hs, hj, -, ⟨-, rfl⟩ | ⟨-, rfl⟩⟩ :=
    @get?_modifyInstalled (w.note .started name) name .withoutRunner other t i ht hi
  · cases hr
  · exact h other s i r hs hj hr

theorem Sized.leave (h : w.Sized) (name : String) {r : Runner}
    (hr : r.memory.slots.length = r.program.slots.length) : (w.leave name r).Sized := by
  intro other t i r' ht hi hr'
  obtain ⟨s, j, hs, hj, -, ⟨-, rfl⟩ | ⟨-, rfl⟩⟩ :=
    @get?_modifyInstalled w name (.putBack r) other t i ht hi
  · unfold Installed.putBack at hr'
    split at hr'
    · cases hr'
      exact hr
    · exact h other s j r' hs hj hr'
  · exact h other s i r' hs hj hr'

theorem history_sized :
    History Setting.compile (fun _ _ => True) fun w w' => w.Sized → w'.Sized where
  refl _ := id
  trans _ _ _ h h' := h' ∘ h
  random w h := by
    obtain ⟨seed, hseed⟩ := w.random_snd
    rw [hseed]
    exact h
  compile hw hname h := h.compile hw hname
  store _ _ _ _ _ _ _ h := h
  run {w w' name r} memory _ _ hr hsize _ hrun h :=
    (hrun (h.enter name)).leave name (hsize.trans (h.runner hr))
  source {w name source} _ _ h := h.of_ages (ages_source w.scripts name source)
  addFunction _ _ h := h
  addConstant _ _ h := h
  addShared {w name ty} _ _ h := by
    rcases w.scripts_addShared name ty with heq | ⟨condition, heq⟩
    · exact h.of_ages (heq ▸ .refl _)
    · exact h.of_ages (heq ▸ ages_markStale w.scripts condition)
  setShared {w owner name v} _ _ h := h.of_ages (w.scripts_setShared owner name v ▸ .refl _)
  remove {w name} _ _ h := by
    unfold Workspace.remove
    split
    · exact h
    · intro other u i r hu hi hr
      obtain ⟨-, t, ht, hinstalled, -⟩ := get?_unscripted hu
      exact h other t i r ht (hinstalled.symm.trans hi) hr

theorem sized_of_reachable (h : Reachable Setting.compile w) : w.Sized := by
  induction h with
  | new => exact fun _ _ _ _ hs => nomatch hs
  | perform h a ih =>
    obtain ⟨hw, hidle⟩ := sound_of_reachable Setting.sound_compile h
    exact history_sized.perform Setting.sound_compile hw hidle trivial ih

end VectorScript.Workspace
