import VectorScript.Grammar.Declaration
import VectorScript.Proofs.Compilation.Expression
import VectorScript.Proofs.Compilation.Placement
import VectorScript.Proofs.Store.Table

/-!
# Two compilations, declarations

A variable that the script declares has the same name, type and slot in both compilations, whichever
shared variable stands for it. What the script imports is the same shared variable in both, and it is
there: no import comes upon an entry that is missing.

    c.Ok → c.Moves (declaration room isShared) fun body => ∀ a ∈ body, c.Placed a (moves_declaration)
    c.Ok → c.Moves importNames fun _ => True                                      (moves_importNames)
-/

namespace VectorScript

/-! ## New variables -/

namespace SharedTable

/-- A declaration gives an old entry, or adds one with the next id. -/
theorem declare_grows (t : SharedTable) (owner name : String) (ty : Ty) :
    (t.declare owner name ty).2 = t ∨ (t.declare owner name ty).1.index = t.next ∧
      (t.declare owner name ty).2.next = t.next + 1 ∧
      ∃ e, (t.declare owner name ty).2.entries = t.entries ++ [e] := by
  rcases t.declare_cases owner name ty with ⟨e, -, -, heq⟩ | ⟨-, heq⟩ <;> rw [heq]
  · exact .inl rfl
  · exact .inr ⟨rfl, rfl, _, rfl⟩

/-- The other names stand for what they stood for. -/
theorem lookup_declare (t : SharedTable) (owner : String) {name x : String} (ty : Ty)
    (hne : x ≠ name) : (t.declare owner name ty).2.lookup owner x = t.lookup owner x := by
  rcases t.declare_cases owner name ty with ⟨e, -, -, heq⟩ | ⟨-, heq⟩ <;> rw [heq]
  unfold append
  rw [lookup_setKey, if_neg (by simp [hne])]
  rfl

/-- Declared again with its type a name stands for the same entry, and for a new one else. -/
theorem declare_again {t : SharedTable} {owner name : String} {e : SharedEntry} {ty : Ty}
    (h : t.current? owner name = some e) : (e.ty = ty → (t.declare owner name ty).1 = e.id) ∧
      (e.ty ≠ ty → (t.declare owner name ty).1.index = t.next) := by
  rcases t.declare_cases owner name ty with ⟨a, ha, hty, heq⟩ | ⟨hne, heq⟩ <;> rw [heq]
  · cases h.symm.trans ha
    exact ⟨fun _ => rfl, fun hother => absurd hty hother⟩
  · exact ⟨fun hty => absurd hty (hne e h), fun _ => rfl⟩

end SharedTable

namespace Draft

variable {s : Surroundings} {text : List (Token × Position)} {t : SharedTable} {d d' : Draft}

/-- The draft with a name for a shared variable that is imported. -/
def bind (id : SharedId) (ty : Ty) (name : String) (d : Draft) : Draft :=
  { d with
    slots := d.slots.push (.shared id)
    references := d.references.push id
    symbols := d.symbols.insert name
      (.var { ty := ty, slot := d.slots.size, shared := some id, imported := true }) }

/-- The draft with a name for a shared variable of the script's own. -/
def share (owner : String) (ty : Ty) (name : String) (d : Draft) : Draft :=
  { d with
    table := (d.table.declare owner name ty).2
    slots := d.slots.push (.shared (d.table.declare owner name ty).1)
    exports := d.exports.insert name (d.table.declare owner name ty).1
    references := d.references.push (d.table.declare owner name ty).1
    symbols := d.symbols.insert name (.var
      { ty := ty, slot := d.slots.size, shared := some (d.table.declare owner name ty).1,
        imported := false }) }

/-- What a name that is still free stands for has been there from the start. -/
theorem From.current? (h : d.From s text t) {x : String} (hx : d.symbols.get? x = none)
    {e : SharedEntry} (he : t.current? s.name x = some e) :
    d.table.current? s.name x = some e := by
  obtain ⟨id, hid, he⟩ := Option.bind_eq_some_iff.1 he
  unfold SharedTable.current?
  rw [h.lookup x hx, hid]
  exact h.entries id e he

theorem From.lookup_insert (h : d.From s text t) {name : String} {symbol : Symbol}
    (hsymbols : d'.symbols = d.symbols.insert name symbol)
    (hlookup : ∀ x, x ≠ name → d'.table.lookup s.name x = d.table.lookup s.name x) (x : String)
    (hx : d'.symbols.get? x = none) : d'.table.lookup s.name x = t.lookup s.name x := by
  rw [hsymbols, NameMap.get?_insert] at hx
  split at hx
  · cases hx
  · next hne => exact (hlookup x hne).trans (h.lookup x hx)

theorem From.redeclared_insert (h : d.From s text t) {name : String} {symbol : Symbol}
    (hsymbols : d'.symbols = d.symbols.insert name symbol)
    (hnew : ∀ v id e, symbol = .var v → v.shared = some id → v.imported = false →
      t.current? s.name name = some e →
        (e.ty = v.ty → id = e.id) ∧ (e.ty ≠ v.ty → t.next ≤ id.index)) (x : String) (v : Variable)
    (id : SharedId) (e : SharedEntry) (hx : d'.symbols.get? x = some (.var v))
    (hid : v.shared = some id) (himp : v.imported = false) (he : t.current? s.name x = some e) :
    (e.ty = v.ty → id = e.id) ∧ (e.ty ≠ v.ty → t.next ≤ id.index) := by
  rw [hsymbols] at hx
  rcases NameMap.eq_or_get?_of_insert hx with ⟨rfl, rfl⟩ | hx
  · exact hnew v id e rfl hid himp he
  · exact h.redeclared x v id e hx hid himp he

/-- A variable more, with what it refers to. -/
theorem From.add (h : d.From s text t) (slot : Slot) {name : String} {v : Variable}
    (htokens : d'.tokens = d.tokens) (himports : d'.imports = d.imports)
    (hsub : d'.subscripts = d.subscripts) (hslots : d'.slots = d.slots.push slot)
    (hrefs : d'.references.toList = d.references.toList ++ slot.id?.toList)
    (htable : d'.table = d.table ∨ ∃ id, slot.id? = some id ∧ id.index = d.table.next ∧
      d'.table.next = d.table.next + 1 ∧ ∃ e, d'.table.entries = d.table.entries ++ [e])
    (hsymbols : d'.symbols = d.symbols.insert name (.var v))
    (hlookup : ∀ x, x ≠ name → d'.table.lookup s.name x = d.table.lookup s.name x)
    (hagain : ∀ id e, v.shared = some id → v.imported = false → t.current? s.name name = some e →
      (e.ty = v.ty → id = e.id) ∧ (e.ty ≠ v.ty → t.next ≤ id.index)) :
    d'.From s text t where
  tokens := htokens ▸ h.tokens
  imports := by
    rw [himports, hsub]
    exact h.imports
  references := by
    rw [hrefs, hslots, h.references, Array.toList_push, List.filterMap_append]
    cases slot <;> rfl
  entries id e he := by
    have hold := h.entries id e he
    rcases htable with htable | ⟨_, _, _, _, _, hentries⟩
    · rw [htable]
      exact hold
    · unfold SharedTable.get? at hold ⊢
      rw [hentries, List.find?_append, hold]
      rfl
  next_le := by
    rcases htable with htable | ⟨_, _, _, hnext, _⟩
    · rw [htable]
      exact h.next_le
    · rw [hnext]
      exact Nat.le_succ_of_le h.next_le
  table := by
    rw [hrefs]
    rcases htable with htable | ⟨id, hid, hindex, _⟩
    · rw [htable]
      exact h.table.imp_right fun ⟨id, hmem, hle⟩ => ⟨id, List.mem_append_left _ hmem, hle⟩
    -- The new entry is referred to, and its id was not given out before.
    · refine .inr ⟨id, ?_, hindex ▸ h.next_le⟩
      rw [hid]
      exact List.mem_append_right _ (List.mem_singleton_self _)
  lookup := h.lookup_insert hsymbols hlookup
  redeclared := h.redeclared_insert hsymbols fun _ id e heq => by
    cases heq
    exact hagain id e

theorem From.bind (h : d.From s text t) (id : SharedId) (ty : Ty) (name : String) :
    (d.bind id ty name).From s text t :=
  h.add (.shared id) rfl rfl rfl rfl (Array.toList_push ..) (.inl rfl) rfl (fun _ _ => rfl)
    fun _ _ _ himp => nomatch himp

theorem From.share (h : d.From s text t) (ty : Ty) {name : String}
    (hnew : d.symbols.get? name = none) : (d.share s.name ty name).From s text t := by
  refine h.add (.shared (d.table.declare s.name name ty).1) rfl rfl rfl rfl (Array.toList_push ..)
    ?_ rfl (fun x => d.table.lookup_declare s.name ty) fun id e hid _ he => ?_
  · exact (d.table.declare_grows s.name name ty).imp_right fun h => ⟨_, rfl, h⟩
  · cases hid
    have hagain : (e.ty = ty → _) ∧ (e.ty ≠ ty → _) := SharedTable.declare_again (h.current? hnew he)
    exact ⟨hagain.1, fun hty => hagain.2 hty ▸ h.next_le⟩

/-- One more script to import from. -/
theorem From.addImport (h : d.From s text t) {script : String} (hne : script ≠ s.name)
    (hdepends : s.scripts.dependsOn script s.name = false) :
    Draft.From s text t
      { d with imports := d.imports.add script, subscripts := d.subscripts.add script } := by
  refine { h with imports := fun other hother => ?_ }
  rcases NameMap.contains_insert.1 hother with rfl | hother
  · exact ⟨NameMap.contains_insert.2 (.inl rfl), hne, hdepends⟩
  · exact ⟨NameMap.contains_insert.2 (.inr (h.imports other hother).1), (h.imports other hother).2⟩

/-- A name more that is not a variable's. -/
theorem From.declare (h : d.From s text t) (name : String) {symbol : Symbol}
    (hvar : ∀ v, symbol ≠ .var v) :
    Draft.From s text t { d with symbols := d.symbols.insert name symbol } :=
  { h with
    lookup := h.lookup_insert rfl fun _ _ => rfl
    redeclared := h.redeclared_insert rfl fun v _ _ heq => absurd heq (hvar v) }

end Draft

namespace Tandem

open Parse

variable {c : Tandem} {d d' : Draft} {i : List (Token × Position)}

theorem Alike.contains (h : c.Alike d d') (x : String) :
    d'.symbols.contains x = d.symbols.contains x := by
  have hsome := congrArg Option.isSome (h.symbols x)
  rw [Option.isSome_map, Option.isSome_map] at hsome
  exact hsome

theorem symbols_insert {a b : NameMap Symbol}
    (h : ∀ x, (b.get? x).map Symbol.bare = (a.get? x).map Symbol.bare) {name : String}
    {s s' : Symbol} (hs : s'.bare = s.bare) (x : String) :
    ((b.insert name s').get? x).map Symbol.bare = ((a.insert name s).get? x).map Symbol.bare := by
  rw [NameMap.get?_insert, NameMap.get?_insert]
  split
  · exact congrArg some hs
  · exact h x

/-! ## Types -/

theorem moves_arrayOf (hc : c.Ok) (ty : Ty) : c.InStep (arrayOf ty) i fun _ _ => True := by
  refine inStep_loop hc (fun _ _ => True) (fun ty j _ _ => ?_) trivial
  refine (inStep_acceptMark _).bind fun r k hk hr => ?_
  split
  · refine (moves_expectMark _).bind fun _ l hl _ => inStep_pure ?_
    exact ⟨by omega, trivial⟩
  · exact inStep_pure trivial

theorem moves_fieldSpec {typeSpec : Parse Ty} (h : c.Moves typeSpec fun _ => True)
    (before : List (String × Ty)) : c.Moves (fieldSpec typeSpec before) fun _ => True := by
  refine fun i => h.bind fun ty j hj _ => moves_ident.bind fun n k hk hn => ?_
  obtain ⟨name, q⟩ := n
  dsimp only
  split
  · exact (inStep_failAbout (Q := fun _ _ => False) (by decide) hn.points).bind
      fun _ _ _ hx => hx.elim
  · exact inStep_pure ⟨by omega, trivial⟩

theorem moves_namedType : c.Moves namedType fun _ => True := by
  refine fun i => moves_ident.bind fun n j hj hn => ?_
  obtain ⟨name, q⟩ := n
  refine inStep_lookup? ?_ fun o => ?_
  · rintro (_ | _ | _ | _ | _) <;> rfl
  · split
    · exact inStep_pure ⟨hj, trivial⟩
    · exact inStep_failAbout (by decide) hn.points
    · exact inStep_failAbout (by decide) hn.points

theorem moves_typeSpec (hc : c.Ok) (room : Nat) : c.Moves (typeSpec room) fun _ => True := by
  have hnamed : c.Moves (do arrayOf (← namedType)) fun _ => True := fun i =>
    moves_namedType.bind fun ty j hj _ => (moves_arrayOf hc ty).mono fun _ k hk _ =>
      ⟨by omega, trivial⟩
  induction room with
  | zero =>
    unfold typeSpec
    refine fun i => (inStep_acceptWord _).bind fun r j hj _ => ?_
    split
    · exact (moves_expectMark _).bind fun _ _ _ _ => inStep_tooDeep
    · exact (hnamed j).mono fun _ k hk hlt => ⟨by omega, trivial⟩
  | succ room ih =>
    unfold typeSpec
    refine fun i => (inStep_acceptWord _).bind fun r j hj _ => ?_
    split
    · refine (moves_expectMark _).bind fun _ k hk _ => ?_
      refine (moves_separatedAfter hc fun before => moves_fieldSpec ih before).bind
        fun fields l hl _ => (moves_expectMark _).bind fun _ m hm _ => ?_
      exact (moves_arrayOf hc _).mono fun _ n hn _ => ⟨by omega, trivial⟩
    · exact (hnamed j).mono fun _ k hk hlt => ⟨by omega, trivial⟩

/-! ## Right sides -/

theorem moves_assigned (hc : c.Ok) (room : Nat) (target : Ty) (name : String) :
    c.Moves (assigned room target name) fun _ => True := by
  refine fun i => inStep_position.bind fun q j hj ⟨hq, _⟩ =>
    (moves_expression hc room).bind fun e k hk _ => ?_
  split
  · exact inStep_pure ⟨by omega, trivial⟩
  · exact inStep_failAbout (by decide) (hq.of_le (by omega))

theorem moves_conditionFor (hc : c.Ok) (room : Nat) (construct : String) :
    c.Moves (conditionFor room construct) fun _ => True := by
  refine fun i => inStep_position.bind fun q j hj ⟨hq, _⟩ =>
    (moves_expression hc room).bind fun e k hk _ => ?_
  split
  · exact inStep_pure ⟨by omega, trivial⟩
  · exact inStep_failAbout (by decide) (hq.of_le (by omega))

theorem inStep_rhs (hc : c.Ok) (room : Nat) (target : Ty) (name : String) :
    c.InStep (rhs room target name) i fun _ _ => True := by
  refine inStep_peek?.bind fun o j _ _ => ?_
  split
  · exact (moves_assigned hc room target name).bind fun _ _ _ _ => inStep_pure trivial
  · have hcases : c.InStep (loop [] fun cases => do
        if ← acceptWord .whenWord then
          let condition ← conditionFor room "when"
          expectMark .colon
          let value ← assigned room target name
          return .inl ((condition, value) :: cases)
        else return .inr cases.reverse) j fun _ _ => True := by
      refine inStep_loop hc (fun _ _ => True) (fun cases k _ _ => ?_) trivial
      refine (inStep_acceptWord _).bind fun r l hl _ => ?_
      split
      · refine (moves_conditionFor hc room _).bind fun condition m hm _ => ?_
        refine (moves_expectMark _).bind fun _ n hn _ => ?_
        refine (moves_assigned hc room target name).bind fun value r hr _ => inStep_pure ?_
        exact ⟨by omega, trivial⟩
      · exact inStep_pure trivial
    refine hcases.bind fun cases k _ _ => (inStep_acceptWord _).bind fun r l _ _ => ?_
    split
    · exact (moves_assigned hc room target name).bind fun _ _ _ _ => inStep_pure trivial
    · exact inStep_pure trivial

/-! ## Variables -/

/-- A step that goes on with a name if it is free. -/
theorem inStep_fresh {α : Type} {f : Unit → Parse α} {name : String} {q : Position}
    {R : α → List (Token × Position) → Prop} (hq : c.Points q i)
    (h : ∀ d d', c.Alike d d' → d.tokens = i → d.symbols.get? name = none →
      c.StepsFrom d d' (f ()) i R) : c.InStep (checkFresh name q >>= f) i R := by
  intro d d' hd hi
  unfold checkFresh
  rw [bind_assoc]
  refine StepsFrom.get (by rw [hd.contains]) ?_
  rw [bind_assoc]
  refine StepsFrom.read rfl ?_
  split
  · exact (inStep_failAbout (Q := fun _ _ => False) (by decide) hq).bind (fun _ _ _ hx => hx.elim)
      d d' hd hi
  · next hfree =>
    rw [pure_bind]
    refine h d d' hd hi ?_
    rw [Bool.or_eq_true, not_or] at hfree
    exact Option.not_isSome_iff_eq_none.1 hfree.1

theorem inStep_checkFresh {name : String} {q : Position} (hq : c.Points q i) :
    c.InStep (checkFresh name q) i fun _ _ => True := by
  rw [← bind_pure (checkFresh name q)]
  exact inStep_fresh hq fun d d' hd hi _ => inStep_pure trivial d d' hd hi

theorem inStep_declare (name : String) {symbol : Symbol} (hvar : ∀ v, symbol ≠ .var v) :
    c.InStep (declare name symbol) i fun _ j => j = i := by
  refine inStep_modify (fun d d' hd hi => ⟨?_, hi⟩) (Nat.le_refl _)
  exact ⟨hd.here.declare name hvar, hd.there.declare name hvar, hd.tokens, hd.slots,
    symbols_insert hd.symbols rfl, hd.imports, hd.subscripts⟩

/-- A new variable has the next slot, the same in both compilations. -/
theorem Alike.declareVariable (hd : c.Alike d d') (hi : d.tokens = i) (isShared : Bool) (ty : Ty)
    {name : String} (hnew : d.symbols.get? name = none) :
    c.StepsFrom d d' (Parse.declareVariable isShared ty name) i fun _ j => j = i := by
  cases isShared with
  | false =>
    refine ⟨hd.slots, ⟨?_, ?_, hd.tokens, ?_, ?_, hd.imports, hd.subscripts⟩, Nat.le_of_eq ?_, hi⟩
    · exact hd.here.add (.local ty) rfl rfl rfl rfl (List.append_nil _).symm (.inl rfl) rfl
        (fun _ _ => rfl) fun _ _ hid => nomatch hid
    · exact hd.there.add (.local ty) rfl rfl rfl rfl (List.append_nil _).symm (.inl rfl) rfl
        (fun _ _ => rfl) fun _ _ hid => nomatch hid
    · rw [Array.size_push, Array.size_push, hd.slots]
    · exact symbols_insert hd.symbols (by rw [hd.slots])
    · exact congrArg _ hi
  | true =>
    have hnew' : d'.symbols.get? name = none := by
      simpa [NameMap.contains, hnew] using hd.contains name
    refine ⟨hd.slots, ⟨hd.here.share ty hnew, hd.there.share ty hnew', hd.tokens, ?_, ?_, hd.imports,
      hd.subscripts⟩, Nat.le_of_eq (congrArg _ hi), hi⟩
    · exact (Array.size_push ..).trans ((congrArg (· + 1) hd.slots).trans (Array.size_push ..).symm)
    · exact symbols_insert hd.symbols (congrArg (fun n => Symbol.var
        { ty := ty, slot := n, shared := some default, imported := false }) hd.slots)

/-- A name in a declaration reads a token, and its first value more. -/
theorem moves_declarator (hc : c.Ok) (room : Nat) (isShared : Bool) (ty : Ty) :
    c.Moves (declarator room isShared ty) fun stores => ∀ a ∈ stores, c.Placed a := by
  refine Moves.mono (Moves.made (P := fun _ => True) fun i => ?_) fun _ h => h.2.placed
  refine moves_ident.bind fun n j hj hn => inStep_fresh hn.points fun d d' hd hi hnew => ?_
  refine (hd.declareVariable hi isShared ty hnew).bind fun slot l hl _ => ?_
  refine (inStep_acceptMark _).bind fun r m hm _ => ?_
  split
  · refine (inStep_rhs hc room ty n.1).bind fun value r hr _ => inStep_pure ?_
    exact ⟨by omega, trivial⟩
  · exact inStep_pure ⟨by omega, trivial⟩

theorem moves_declaration (hc : c.Ok) (room : Nat) (isShared : Bool) :
    c.Moves (declaration room isShared) fun body => ∀ a ∈ body, c.Placed a := by
  refine fun i => (moves_typeSpec hc room).bind fun ty j hj _ => ?_
  refine (moves_separated hc (moves_declarator hc room isShared ty)).bind
    fun stores k hk hstores => ?_
  refine (moves_expectMark _).bind fun _ l hl _ => inStep_pure ⟨by omega, fun a ha => ?_⟩
  obtain ⟨store, hstore, ha⟩ := List.mem_flatten.1 ha
  exact hstores.2 store hstore a ha

/-! ## Types and constants -/

theorem moves_typedef (hc : c.Ok) (room : Nat) : c.Moves (typedef room) fun _ => True := by
  refine fun i => inStep_skip.bind fun _ j hj _ => moves_ident.bind fun n k hk hn => ?_
  refine (inStep_checkFresh hn.points).bind fun _ l hl _ => (moves_expectMark _).bind fun _ m hm _ => ?_
  refine (moves_typeSpec hc room).bind fun ty r hr _ => (moves_expectMark _).bind fun _ s hs _ => ?_
  exact (inStep_declare _ (by simp)).mono fun _ t ht _ => ⟨by omega, trivial⟩

/-- A constant term is a token; `start` may only be the end of the text if there is none. -/
theorem moves_constantTerm {start : Position} (hstart : c.Points start i) (negative : Bool) :
    c.InStep (constantTerm start negative) i fun _ _ => True := by
  refine inStep_next?.bind fun o j hj ho => ?_
  rcases ho with ⟨rfl, -⟩ | ⟨⟨token, q⟩, rfl, hq, -⟩
  · exact inStep_failAbout (by decide) (hstart.of_le hj)
  · split
    · next heq =>
      cases heq
      exact (inStep_integer hq.points).bind fun _ _ _ _ => inStep_pure trivial
    · exact inStep_pure trivial
    · split
      · exact inStep_failAbout (by decide) (hstart.of_le hj)
      · exact inStep_pure trivial
    · next name place heq =>
      cases heq
      refine inStep_lookup? ?_ fun o => ?_
      · rintro (_ | _ | _ | _ | _) <;> rfl
      · split
        · split
          · split
            · exact inStep_pure trivial
            · exact inStep_pure trivial
            · exact inStep_failAbout (by decide) (hstart.of_le hj)
          · exact inStep_pure trivial
        · exact inStep_failAbout (by decide) hq.points
    · next heq =>
      cases heq
      exact inStep_failAbout (by decide) hq.points
    · next heq => cases heq

theorem moves_constant (hc : c.Ok) (room : Nat) : c.Moves (constant room) fun _ => True := by
  refine fun i => inStep_skip.bind fun _ j hj _ => (moves_typeSpec hc room).bind fun ty k hk _ => ?_
  refine moves_ident.bind fun n l hl hn => (inStep_checkFresh hn.points).bind fun _ m hm _ => ?_
  refine (moves_expectMark _).bind fun _ r hr _ => ?_
  refine inStep_position.bind fun place s hs ⟨hplace, _⟩ => ?_
  have hvalue : c.InStep constantValue s fun _ _ => True :=
    inStep_position.bind fun start t ht ⟨hstart, _⟩ => (inStep_accept _).bind fun negative u hu _ =>
      moves_constantTerm (hstart.of_le (by omega)) negative
  refine hvalue.bind fun v t ht _ => ?_
  dsimp only
  split
  · exact (inStep_failAbout (Q := fun _ _ => False) (by decide) (hplace.of_le (by omega))).bind
      fun _ _ _ hx => hx.elim
  · refine (moves_expectMark _).bind fun _ u hu _ => ?_
    exact (inStep_declare _ (by simp)).mono fun _ x hx _ => ⟨by omega, trivial⟩

/-! ## Imports -/

theorem moves_importedName (before : List (String × Position)) :
    c.Moves (importedName before) fun n => c.Tok n.2 := by
  refine fun i => moves_ident.bind fun n j hj hn => ?_
  obtain ⟨name, q⟩ := n
  dsimp only
  split
  · exact (inStep_failAbout (Q := fun _ _ => False) (by decide) hn.points).bind
      fun _ _ _ hx => hx.elim
  · exact inStep_pure ⟨hj, hn⟩

/-- A script that does not depend on this one, in either compilation. -/
def Importable (c : Tandem) (script : String) : Prop :=
  script ≠ c.here.name ∧ c.here.scripts.dependsOn script c.here.name = false

/-- A script does not import from itself. -/
theorem exported_self (s : Surroundings) (p : Position) (name : String) (q : Position) (d : Draft) :
    exported s.name p name q s d = .error ((Fault.about .cyclicImport s.name).located p) d := by
  have hself : (decide (s.name = s.name) || s.scripts.dependsOn s.name s.name) = true := by simp
  show (if (decide (s.name = s.name) || s.scripts.dependsOn s.name s.name) = true then
    (_ : Parse SharedId) else _) s d = _
  rw [if_pos hself]
  rfl

theorem inStep_exported (hc : c.Ok) {script name : String} {p q : Position} (hp : c.Tok p)
    (hq : c.Tok q) : c.InStep (exported script p name q) i fun id _ =>
      c.Importable script ∧ c.here.Offers id := by
  -- From itself a script imports nothing, and of others both settings show the same.
  by_cases hname : script = c.here.name
  · subst hname
    intro d d' hd hi
    unfold StepsFrom
    rw [exported_self c.here, show exported c.here.name p name q c.there d' = _ from
      exported_self c.there p name q d']
    exact ⟨rfl, rfl, p, rfl, hp.points⟩
  · refine inStep_read ?_ ?_
    · unfold there
      dsimp only
      rw [hc.dependsOn script hname, hc.contains script hname, hc.exports script hname]
    · dsimp only
      split
      · exact (inStep_failAbout (Q := fun _ _ => False) (by decide) hp.points).bind
          fun _ _ _ hx => hx.elim
      · next hcyclic =>
        have hnot : c.here.scripts.dependsOn script c.here.name = false := by simpa [hname] using hcyclic
        split
        · exact (inStep_failAbout (Q := fun _ _ => False) (by decide) hp.points).bind
            fun _ _ _ hx => hx.elim
        · split
          · next id hid =>
            obtain ⟨exports, he, hx⟩ := Option.bind_eq_some_iff.1 hid
            exact inStep_pure ⟨⟨hname, hnot⟩, .inr ⟨script, exports, name, hname, he, hx⟩⟩
          · exact inStep_failAbout (by decide) hq.points

theorem inStep_hostShared {name : String} {q : Position} (hq : c.Tok q) :
    c.InStep (hostShared name q) i fun id _ => c.here.Offers id := by
  refine inStep_read rfl ?_
  dsimp only
  split
  · next id hid => exact inStep_pure (.inl ⟨name, hid⟩)
  · split
    · exact inStep_failAbout (by decide) hq.points
    · exact inStep_failAbout (by decide) hq.points

theorem Alike.bind (h : c.Alike d d') (id : SharedId) (ty : Ty) (name : String) :
    c.Alike (d.bind id ty name) (d'.bind id ty name) where
  here := h.here.bind id ty name
  there := h.there.bind id ty name
  tokens := h.tokens
  slots := by
    unfold Draft.bind
    rw [Array.size_push, Array.size_push, h.slots]
  symbols := symbols_insert h.symbols (by rw [h.slots])
  imports := h.imports
  subscripts := h.subscripts

/-- What is imported is there. -/
theorem inStep_bindEntry (hc : c.Ok) {id : SharedId} (hid : c.here.Offers id) (name : String)
    (q : Position) : c.InStep (do
      match (← get).table.get? id with
      | none => throw (((Fault.of .internalError).located q).named name)
      | some entry =>
        let slot ← addSlot (.shared id)
        addReference id
        declare name (.var { ty := entry.ty, slot := slot, shared := some id, imported := true }))
      i fun _ j => j = i := by
  obtain ⟨e, e', he, he', hty⟩ := hc.offers id hid
  refine inStep_get fun d d' hd _ => ⟨?_, ?_⟩
  · rw [hd.here.entries id e he, hd.there.entries id e' he']
    simp only [hty]
  · rw [hd.here.entries id e he]
    have hbind : c.InStep (modify (Draft.bind id e.ty name) : Parse Unit) i fun _ j => j = i :=
      inStep_modify (fun d d' hd hi => ⟨hd.bind id e.ty name, hi⟩) (Nat.le_refl _)
    exact hbind

theorem inStep_importName (hc : c.Ok) {from? : Option (String × Position)}
    (hfrom : ∀ n, from? = some n → c.Tok n.2) {name : String} {q : Position} (hq : c.Tok q) :
    c.InStep (importName from? name q) i fun _ _ => ∀ n, from? = some n → c.Importable n.1 := by
  refine inStep_get fun d d' hd _ => ⟨by rw [hd.contains], ?_⟩
  dsimp only
  split
  · exact (inStep_failAbout (Q := fun _ _ => False) (by decide) hq.points).bind
      fun _ _ _ hx => hx.elim
  · split
    · next script p =>
      refine (inStep_exported hc (hfrom _ rfl) hq).bind fun id j _ ⟨himport, hid⟩ => ?_
      refine (inStep_bindEntry hc hid name q).mono fun _ _ _ _ n hn => ?_
      cases hn
      exact himport
    · refine (inStep_hostShared hq).bind fun id j _ hid => ?_
      exact (inStep_bindEntry hc hid name q).mono fun _ _ _ _ n hn => nomatch hn

/-- Of one name or more, each is imported. -/
theorem inStep_forM_importName (hc : c.Ok) {from? : Option (String × Position)}
    (hfrom : ∀ n, from? = some n → c.Tok n.2) {names : List (String × Position)} (hne : names ≠ [])
    (hnames : ∀ n ∈ names, c.Tok n.2) :
    c.InStep (names.forM fun (name, q) => importName from? name q) i fun _ _ =>
      ∀ n, from? = some n → c.Importable n.1 := by
  have hrest : ∀ (names : List (String × Position)) (j : List (Token × Position)),
      (∀ n ∈ names, c.Tok n.2) →
      c.InStep (names.forM fun (name, q) => importName from? name q) j fun _ _ => True := by
    intro names
    induction names with
    | nil => exact fun _ _ => inStep_pure trivial
    | cons n rest ih =>
      intro j h
      obtain ⟨hn, hrest⟩ := List.forall_mem_cons.1 h
      exact (inStep_importName hc hfrom hn).bind fun _ k _ _ => ih k hrest
  cases names with
  | nil => exact absurd rfl hne
  | cons n rest =>
    obtain ⟨hn, h⟩ := List.forall_mem_cons.1 hnames
    exact (inStep_importName hc hfrom hn).bind fun _ k _ himport =>
      (hrest rest k h).mono fun _ _ _ _ => himport

/-- A script that does not depend on the one that imports from it. -/
theorem inStep_addImport (hc : c.Ok) {script : String} (h : c.Importable script) :
    c.InStep (modify fun d : Draft =>
      { d with imports := d.imports.add script, subscripts := d.subscripts.add script } : Parse Unit)
      i fun _ j => j = i := by
  have hthere : c.there.scripts.dependsOn script c.there.name = false :=
    (hc.dependsOn script h.1).trans h.2
  refine inStep_modify (fun d d' hd hi => ⟨⟨hd.here.addImport h.1 h.2, hd.there.addImport h.1 hthere,
    hd.tokens, hd.slots, hd.symbols, ?_, ?_⟩, hi⟩) (Nat.le_refl _)
  · rw [hd.imports]
  · rw [hd.subscripts]

/-- The names of an import, once it is known where they come from. -/
theorem inStep_importAll (hc : c.Ok) {from? : Option (String × Position)}
    (hfrom : ∀ n, from? = some n → c.Tok n.2) {names : List (String × Position)} (hne : names ≠ [])
    (hnames : ∀ n ∈ names, c.Tok n.2) :
    c.InStep (do
      expectMark .semicolon
      names.forM fun (name, q) => importName from? name q
      match from? with
      | some (script, _) =>
        modify fun d =>
          { d with imports := d.imports.add script, subscripts := d.subscripts.add script }
      | none => return ()) i fun _ j => j.length < i.length := by
  refine (moves_expectMark _).bind fun _ j hj _ => ?_
  refine (inStep_forM_importName hc hfrom hne hnames).bind fun _ k hk himport => ?_
  split
  · exact (inStep_addImport hc (himport _ rfl)).mono fun _ l hl _ => by omega
  · exact inStep_pure (by omega)

theorem moves_importNames (hc : c.Ok) : c.Moves importNames fun _ => True := by
  refine fun i => inStep_skip.bind fun _ j hj _ => ?_
  refine (moves_separatedAfter hc fun before => moves_importedName before).bind
    fun names k hk ⟨hne, hnames⟩ => ?_
  refine (inStep_acceptWord _).bind fun r l hl _ => ?_
  split
  · have hfrom : c.InStep (some <$> ident) l fun o _ => ∀ n, o = some n → c.Tok n.2 := by
      rw [map_eq_pure_bind]
      refine moves_ident.bind fun n m _ hn => inStep_pure fun n' hn' => ?_
      cases hn'
      exact hn
    exact hfrom.bind fun from? m hm h => (inStep_importAll hc h hne hnames).mono
      fun _ n hn _ => ⟨by omega, trivial⟩
  · have h : ∀ n : String × Position, none = some n → c.Tok n.2 := fun n hn => nomatch hn
    exact (inStep_importAll hc h hne hnames).mono fun _ n hn _ => ⟨by omega, trivial⟩

end Tandem

end VectorScript
