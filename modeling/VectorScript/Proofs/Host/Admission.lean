import VectorScript.Proofs.Store.Address

/-!
# What assignability admits

The type rules let a value of an assignable type through in three places: stored in a whole cell,
stored at a path into one, and passed to a function. Each of them can use the value, with one
exception that is the same in the last two: the empty list, which is assignable to every type, is
refused inside vectors and matrices, and by every function (`assignable_consumed`).

    f ∈ Library.functions → f.Strict                                              (strict_library)
-/

namespace VectorScript

/-! ## Readers of arguments -/

namespace Value

/-- A view takes the values of one kind and refuses all others, null among them. -/
structure Reader {α : Type} (view : Value → Except Fault α) : Prop where
  total (v : Value) : (∃ x, view v = .ok x) ∨ Refuses (view v)
  null : Refuses (view (.list []))

theorem reader_asReal : Reader asReal where
  total v := by
    cases v <;> first
      | exact .inl ⟨_, rfl⟩
      | exact .inr ⟨_, rfl, rfl⟩
  null := ⟨_, rfl, rfl⟩

theorem reader_asVector : Reader asVector where
  total v := by
    cases v <;> first
      | exact .inl ⟨_, rfl⟩
      | exact .inr ⟨_, rfl, rfl⟩
  null := ⟨_, rfl, rfl⟩

theorem reader_asMatrix : Reader asMatrix where
  total v := by
    cases v <;> first
      | exact .inl ⟨_, rfl⟩
      | exact .inr ⟨_, rfl, rfl⟩
  null := ⟨_, rfl, rfl⟩

/-- What reads an argument first is refused if the argument is null, or if the rest is refused
anyway. -/
theorem Reader.bind {α β : Type} {view : Value → Except Fault α} (h : Reader view) {v : Value}
    {f : α → Except Fault β} (hv : v.isNull = true ∨ ∀ x, Refuses (f x)) :
    Refuses (view v >>= f) := by
  rcases hv with hv | hf
  · rw [isNull_iff.1 hv]
    exact h.null.bind f
  · rcases h.total v with ⟨x, hx⟩ | hr
    · rw [hx]
      exact hf x
    · exact hr.bind f

end Value

/-! ## Null arguments -/

/-- The function has no use for null: it is refused for any argument. -/
def HostFunction.Strict (f : HostFunction) : Prop :=
  ∀ args : List Value, args.length = f.params.length → args.any Value.isNull = true →
    ∃ r, f.body args = .done r ∧ Refuses r

namespace Library

open Value

/-- A function that reads its only argument first. -/
theorem strict_unary {α : Type} {view : Value → Except Fault α} (hview : Reader view) {name : String}
    {param ret : Ty} {f : α → Except Fault Value} :
    (HostFunction.ofResult name [param] ret fun args => view (arg args 0) >>= f).Strict := by
  intro args hlen hn
  match args, hlen with
  | [a], _ =>
    simp only [List.any_cons, List.any_nil, Bool.or_false] at hn
    exact ⟨_, rfl, hview.bind (.inl hn)⟩

/-- A function that reads its first argument and then its second. -/
theorem strict_binary {α β : Type} {first : Value → Except Fault α} {second : Value → Except Fault β}
    (hfirst : Reader first) (hsecond : Reader second) {name : String} {p q ret : Ty}
    {f : α → β → Except Fault Value} :
    (HostFunction.ofResult name [p, q] ret fun args =>
      first (arg args 0) >>= fun x => second (arg args 1) >>= f x).Strict := by
  intro args hlen hn
  match args, hlen with
  | [a, b], _ =>
    simp only [List.any_cons, List.any_nil, Bool.or_false, Bool.or_eq_true] at hn
    exact ⟨_, rfl, hfirst.bind (hn.imp_right fun hn x => hsecond.bind (.inl hn))⟩

theorem strict_vec :
    (HostFunction.ofResult "vec" [.real, .real, .real, .real] .vector vec).Strict := by
  intro args hlen hn
  match args, hlen with
  | [a, b, c, d], _ =>
    simp only [List.any_cons, List.any_nil, Bool.or_false, Bool.or_eq_true] at hn
    exact ⟨_, rfl, reader_asReal.bind (hn.imp_right fun hn _ =>
      reader_asReal.bind (hn.imp_right fun hn _ =>
        reader_asReal.bind (hn.imp_right fun hn _ => reader_asReal.bind (.inl hn))))⟩

theorem strict_mat :
    (HostFunction.ofResult "mat" [.vector, .vector, .vector, .vector] .matrix mat).Strict := by
  intro args hlen hn
  match args, hlen with
  | [a, b, c, d], _ =>
    simp only [List.any_cons, List.any_nil, Bool.or_false, Bool.or_eq_true] at hn
    exact ⟨_, rfl, reader_asVector.bind (hn.imp_right fun hn _ =>
      reader_asVector.bind (hn.imp_right fun hn _ =>
        reader_asVector.bind (hn.imp_right fun hn _ => reader_asVector.bind (.inl hn))))⟩

theorem strict_scaling :
    (HostFunction.ofResult "scaling" [.real, .real, .real] .matrix scaling).Strict := by
  intro args hlen hn
  match args, hlen with
  | [a, b, c], _ =>
    simp only [List.any_cons, List.any_nil, Bool.or_false, Bool.or_eq_true] at hn
    exact ⟨_, rfl, reader_asReal.bind (hn.imp_right fun hn _ =>
      reader_asReal.bind (hn.imp_right fun hn _ => reader_asReal.bind (.inl hn)))⟩

theorem strict_random : random.Strict := by
  intro args hlen hn
  match args, hlen with
  | [], _ => cases hn

theorem strict_dispatch : dispatch.Strict := by
  intro args hlen hn
  match args, hlen with
  | [a], _ =>
    simp only [List.any_cons, List.any_nil, Bool.or_false] at hn
    rw [isNull_iff.1 hn]
    exact ⟨_, rfl, _, rfl, rfl⟩

/-- Every function of the library refuses null. -/
theorem strict_library : ∀ f ∈ functions, f.Strict := by
  unfold functions
  simp only [List.forall_mem_cons, List.not_mem_nil, false_imp_iff, implies_true, and_true]
  iterate 16 refine ⟨strict_unary reader_asReal, ?_⟩
  exact ⟨strict_vec, strict_mat, strict_binary reader_asReal reader_asVector,
    strict_unary reader_asVector, strict_scaling, strict_unary reader_asVector,
    strict_unary reader_asMatrix, strict_binary reader_asVector reader_asVector,
    strict_unary reader_asVector, strict_binary reader_asVector reader_asVector,
    strict_binary reader_asVector reader_asVector, strict_unary reader_asMatrix,
    strict_unary reader_asMatrix, strict_random, strict_dispatch⟩

end Library

/-! ## Calls -/

/-- A conversation that keeps its type, held with services that end as well typed scripts do. -/
theorem Call.Gives.answer {σ : Type} {services : Services σ}
    (hs : ∀ script host, Proceeds (services.dispatch script host).1) {t : Ty} {call : Call}
    (h : call.Gives t) (host : σ) : Yields (·.HasType t) (call.answer services host).1 := by
  induction call generalizing host with
  | done result => exact h
  | dispatch script next ih => exact ih _ (h _ (hs script host)) _
  | random next ih =>
    rw [Call.answer]
    exact ih _ (h _) _

/-- A function finds its arguments between other values. -/
theorem HostFunction.execute_between (f : HostFunction) (below above : List Value)
    {args : List Value} (h : args.length = f.params.length) :
    f.execute (below ++ args ++ above) below.length = f.body args := by
  unfold execute
  rw [if_pos (by simp only [List.length_append]; omega), List.append_assoc, List.drop_left, ← h,
    List.take_left]

/-- No value that is not null has a type that is null. -/
theorem Value.HaveTypes.ne_null {args : List Value} {ts : List Ty} (h : HaveTypes args ts)
    (hn : args.any isNull = false) : ∀ t ∈ ts, t ≠ .null := by
  induction args generalizing ts with
  | nil =>
    cases h
    exact fun _ ht => nomatch ht
  | cons v vs ih =>
    rw [List.any_cons, Bool.or_eq_false_iff] at hn
    cases h with
    | cons hv hvs => exact List.forall_mem_cons.2 ⟨hv.ne_null hn.1, ih hvs hn.2⟩

/-! ## What assignability admits -/

/-- A place of type `u` takes the value: the store succeeds or fails at a bound, and null resets the
place, which if it was there before is sure to be reset. -/
structure Cell.Takes (c : Cell) (path : List Int32) (u : Ty) (v : Value) : Prop where
  proceeds : Proceeds (c.set v path).1
  resets (hv : v.isNull = true) (h : (c.set v path).1 = .ok ()) :
    (c.set v path).2.get path = .ok u.blank
  reaches (hv : v.isNull = true) (x : Value) (h : c.get path = .ok x) : (c.set v path).1 = .ok ()

/-- A place never takes the value, which has the wrong shape for it. -/
structure Cell.Rejects (c : Cell) (path : List Int32) (v : Value) : Prop where
  fails : (c.set v path).1 ≠ .ok ()
  refuses (x : Value) (h : c.get path = .ok x) : Refuses (c.set v path).1

/-- Null is rejected below a vector or a matrix; every other admitted value is taken. -/
theorem Cell.admitted_set {t u s : Ty} {c : Cell} (hc : c.Conforms t) {path : List Int32}
    (hu : t.at? path = some u) {v : Value} (hv : v.HasType s) (ha : u.assignable s = true) :
    if v.isNull = true ∧ t.inside path = true then c.Rejects path v else c.Takes path u v := by
  split
  · next h =>
    obtain ⟨hn, hin⟩ := h
    rw [Value.isNull_iff.1 hn]
    obtain ⟨hrefuses, hfails⟩ := refuses_set_null hc hu hin
    exact ⟨hfails, hrefuses⟩
  · next h =>
    refine ⟨proceeds_set_at hc hu hv ha fun hin => ?_, fun hn => ?_, fun hn => ?_⟩
    · exact hv.ne_null (Bool.eq_false_iff.2 fun hn => h ⟨hn, hin⟩)
    · rw [Value.isNull_iff.1 hn]
      exact (get_set_null hc hu (Bool.eq_false_iff.2 fun hin => h ⟨hn, hin⟩)).2
    · rw [Value.isNull_iff.1 hn]
      exact (get_set_null hc hu (Bool.eq_false_iff.2 fun hin => h ⟨hn, hin⟩)).1

/-- A null argument is refused; a call with other admitted arguments keeps the function's type. -/
theorem Library.admitted_execute {f : HostFunction} (hf : f ∈ functions) {args : List Value}
    {ts : List Ty} (hargs : Value.HaveTypes args ts) (ha : Ty.accepts f.params ts = true)
    (below above : List Value) {σ : Type} {services : Services σ}
    (hs : ∀ script host, Proceeds (services.dispatch script host).1) (host : σ) :
    if args.any Value.isNull = true then
      Refuses ((f.execute (below ++ args ++ above) below.length).answer services host).1
    else
      Yields (·.HasType f.ret)
        ((f.execute (below ++ args ++ above) below.length).answer services host).1 := by
  have hlen : args.length = f.params.length := hargs.length_eq.trans (Ty.length_of_accepts ha).symm
  rw [f.execute_between below above hlen]
  split
  · next hn =>
    obtain ⟨r, hr, hrefuses⟩ := strict_library f hf args hlen hn
    rw [hr]
    exact hrefuses
  · next hn =>
    have hsuit := Value.allSuit_of_accepts hargs ha (hargs.ne_null (Bool.eq_false_iff.2 hn))
    exact (sound_library f hf args hsuit).answer hs host

/-- A store of an admitted value is good for its place, except for null inside a vector or a matrix,
which never is. A call with admitted arguments gives a value of the result type or fails as a well
typed script may, except with a null among them, when it always fails. -/
theorem assignable_consumed {t u s : Ty} {c : Cell} (hc : c.Conforms t) {path : List Int32}
    (hu : t.at? path = some u) {v : Value} (hv : v.HasType s) (hs : u.assignable s = true)
    {f : HostFunction} (hf : f ∈ Library.functions) {args : List Value} {ts : List Ty}
    (hargs : Value.HaveTypes args ts) (hts : Ty.accepts f.params ts = true)
    (below above : List Value) {σ : Type} {services : Services σ}
    (hservices : ∀ script host, Proceeds (services.dispatch script host).1) (host : σ) :
    (if v.isNull = true ∧ t.inside path = true then c.Rejects path v else c.Takes path u v) ∧
      if args.any Value.isNull = true then
        Refuses ((f.execute (below ++ args ++ above) below.length).answer services host).1
      else
        Yields (·.HasType f.ret)
          ((f.execute (below ++ args ++ above) below.length).answer services host).1 :=
  ⟨Cell.admitted_set hc hu hv hs,
    Library.admitted_execute hf hargs hts below above hservices host⟩

/-- Services without scripts. -/
def Services.alone : Services Unit where
  dispatch _ _ := (.ok (), ())
  random _ := (0, ())

/-- Null resets a vector, and a sine takes a number; a component of the vector and the sine refuse
null. -/
theorem assignable_consumed_vector :
    ((Cell.vector .zero).Takes [] .vector (.list []) ∧
      Yields (·.HasType .real) (((Library.realFunction "sin" Float32.sin).execute [.integer 1]
        0).answer Services.alone ()).1) ∧
    (Cell.vector .zero).Rejects [0] (.list []) ∧
      Refuses (((Library.realFunction "sin" Float32.sin).execute [.list []] 0).answer
        Services.alone ()).1 := by
  have hsin : Library.realFunction "sin" Float32.sin ∈ Library.functions := List.mem_cons_self
  have hservices : ∀ script host, Proceeds (Services.alone.dispatch script host).1 :=
    fun _ _ => trivial
  refine ⟨?taken, ?refused⟩
  case taken =>
    exact assignable_consumed (.vector .zero) (rfl : Ty.at? .vector [] = some .vector) .null rfl
      hsin (.cons (.integer 1) .nil) rfl [] [] hservices ()
  case refused =>
    exact assignable_consumed (.vector .zero) (rfl : Ty.at? .vector [0] = some .real) .null rfl
      hsin (.cons .null .nil) rfl [] [] hservices ()

/-- The empty list is assignable to a component of a vector and to the parameter of a sine, and both
refuse it, though the whole vector takes it. -/
theorem null_refused :
    Ty.at? .vector [0] = some .real ∧ Ty.real.assignable .null = true ∧
      (Value.list []).HasType .null ∧ (Cell.vector .zero).Conforms .vector ∧
      ((Cell.vector .zero).set (.list []) []).1 = .ok () ∧
      Refuses ((Cell.vector .zero).set (.list []) [0]).1 ∧
      (Library.realFunction "sin" Float32.sin).params = [.real] ∧
      ∃ r, (Library.realFunction "sin" Float32.sin).execute [.list []] 0 = .done r ∧ Refuses r :=
  ⟨rfl, rfl, .null, .vector .zero, rfl, ⟨_, rfl, rfl⟩, rfl, _, rfl, _, rfl, rfl⟩

end VectorScript
