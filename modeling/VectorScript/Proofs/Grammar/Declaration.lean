import VectorScript.Grammar.Declaration
import VectorScript.Proofs.Grammar.Draft

/-!
# What declarations declare

Types, right sides and constants are only read, and a right side suits its target. Declarations and
imports keep the draft in order.

    d.Ok s t from? → d.symbols.get? name = none →
      Leads s t from? d (declareVariable isShared ty name) fun n Γ => Γ.slot n = some ty
                                                                        (leads_declareVariable)
-/

namespace VectorScript

namespace Parse

variable {α β : Type} {s : Surroundings} {d : Draft} {Γ : Scope}

/-! ## Types and right sides only read -/

theorem reads_arrayOf (ty : Ty) : Reads s d (arrayOf ty) fun _ => True := by
  refine reads_loop (fun _ => True) (fun ty _ => ?_) trivial
  refine (reads_acceptMark _).bind fun b _ => ?_
  split
  · exact (reads_expectMark _).bind fun _ _ => reads_pure trivial
  · exact reads_pure trivial

theorem reads_fieldSpec {typeSpec : Parse Ty} (h : Reads s d typeSpec fun _ => True)
    (before : List (String × Ty)) : Reads s d (fieldSpec typeSpec before) fun _ => True := by
  refine h.bind fun ty _ => reads_ident.bind fun n _ => ?_
  obtain ⟨name, p⟩ := n
  dsimp only
  split
  · exact (reads_failAbout (Q := fun _ => False) _ _ _).bind fun _ hx => hx.elim
  · exact reads_pure trivial

theorem reads_namedType : Reads s d namedType fun _ => True := by
  refine reads_ident.bind fun n _ => (reads_lookup? _).bind fun o _ => ?_
  split
  · exact reads_pure trivial
  · exact reads_failAbout _ _ _
  · exact reads_failAbout _ _ _

theorem reads_typeSpec (room : Nat) : Reads s d (typeSpec room) fun _ => True := by
  induction room with
  | zero =>
    refine (reads_acceptWord _).bind fun b _ => ?_
    split
    · exact (reads_expectMark _).bind fun _ _ => reads_tooDeep
    · exact reads_namedType.bind fun ty _ => reads_arrayOf ty
  | succ room ih =>
    refine (reads_acceptWord _).bind fun b _ => ?_
    split
    · refine (reads_expectMark _).bind fun _ _ => ?_
      refine (reads_separatedAfter fun before => reads_fieldSpec ih before).bind fun fields _ => ?_
      exact (reads_expectMark _).bind fun _ _ => reads_arrayOf _
    · exact reads_namedType.bind fun ty _ => reads_arrayOf ty

theorem reads_assigned (h : Agree s d Γ) (room : Nat) (target : Ty) (name : String) :
    Reads s d (assigned room target name) (Rhs.Stores Γ target) := by
  refine reads_position.bind fun p _ => (reads_expression h room).bind fun e he => ?_
  split
  · next ha => exact reads_pure ⟨e.ty, he, ha⟩
  · exact reads_failAbout _ _ _

theorem reads_conditionFor (h : Agree s d Γ) (room : Nat) (construct : String) :
    Reads s d (conditionFor room construct) fun e => e.HasType Γ .integer := by
  refine reads_position.bind fun p _ => (reads_expression h room).bind fun e he => ?_
  split
  · next ht => exact reads_pure (ht ▸ he)
  · exact reads_failAbout _ _ _

/-- What has been read of a chain of guarded values. -/
structure Cases (Γ : Scope) (target : Ty) (cases : List (Expr × Expr)) : Prop where
  ne_nil : cases ≠ []
  each : ∀ c ∈ cases, c.1.HasType Γ .integer ∧ Rhs.Stores Γ target c.2

/-- The guarded values of a chain, the last one first. -/
def guardedCases (room : Nat) (target : Ty) (name : String) (cases : List (Expr × Expr)) :
    Parse (List (Expr × Expr) ⊕ List (Expr × Expr)) := do
  if ← acceptWord .whenWord then
    let condition ← conditionFor room "when"
    expectMark .colon
    let value ← assigned room target name
    return .inl ((condition, value) :: cases)
  else return .inr cases.reverse

/-- A condition and its value. -/
theorem reads_case (h : Agree s d Γ) (room : Nat) (target : Ty) (name : String)
    {cases : List (Expr × Expr)}
    (hc : ∀ c ∈ cases, c.1.HasType Γ .integer ∧ Rhs.Stores Γ target c.2) :
    Reads s d (do
      let condition ← conditionFor room "when"
      expectMark .colon
      let value ← assigned room target name
      return .inl ((condition, value) :: cases))
      (Round (Cases Γ target) (Cases Γ target)) := by
  refine (reads_conditionFor h room _).bind fun c hcond => (reads_expectMark _).bind fun _ _ => ?_
  refine (reads_assigned h room target name).bind fun v hv => reads_pure ⟨by simp, fun x hx => ?_⟩
  rcases List.mem_cons.1 hx with rfl | hx
  · exact ⟨hcond, hv⟩
  · exact hc x hx

theorem reads_guardedCases (h : Agree s d Γ) (room : Nat) (target : Ty) (name : String)
    {cases : List (Expr × Expr)} (hc : Cases Γ target cases) :
    Reads s d (guardedCases room target name cases)
      (Round (Cases Γ target) (Cases Γ target)) := by
  refine (reads_acceptWord _).bind fun b _ => ?_
  split
  · exact reads_case h room target name hc.each
  · exact reads_pure ⟨by simpa using hc.ne_nil, fun x hx => hc.each x (List.mem_reverse.1 hx)⟩

theorem readsFrom_acceptWord {w : Word} {e : Draft} (he : d.Same e)
    (hw : e.tokens.head?.map (·.1) = some (.word w)) :
    ReadsFrom s d e (acceptWord w) (· = true) := by
  have heq : acceptWord w s e = .ok true { e with tokens := e.tokens.drop 1 } := by
    show (if e.tokens.head?.map (·.1) = some (.word w) then (do skip; return true)
      else return false : Parse Bool) s e = _
    rw [if_pos hw]
    rfl
  unfold ReadsFrom
  rw [heq]
  exact ⟨⟨he.table, he.slots, he.symbols, he.exports, he.imports, he.references⟩, rfl⟩

/-- Where the next token begins a guarded value, the chain has at least one. -/
theorem readsFrom_cases (h : Agree s d Γ) (room : Nat) (target : Ty) (name : String) {e : Draft}
    (he : d.Same e) (hw : e.tokens.head?.map (·.1) = some (.word .whenWord)) :
    ReadsFrom s d e (loop [] (guardedCases room target name)) (Cases Γ target) := by
  show ReadsFrom s d e (iterate (guardedCases room target name) s.rounds []) _
  cases hr : s.rounds with
  | zero => exact he
  | succ rounds =>
    have hfirst : ReadsFrom s d e (guardedCases room target name [])
        (Round (Cases Γ target) (Cases Γ target)) := by
      refine (readsFrom_acceptWord he hw).bind fun b hb => ?_
      rw [hb]
      exact reads_case h room target name fun c hc => nomatch hc
    refine hfirst.bind fun r hr => ?_
    split
    · exact reads_iterate (fun cases hc => reads_guardedCases h room target name hc) rounds hr
    · exact reads_pure hr

/-- A right side that is read suits the target. -/
theorem reads_rhs (h : Agree s d Γ) (room : Nat) (target : Ty) (name : String) :
    Reads s d (rhs room target name) (Rhs.Suits Γ target) := by
  intro e he
  show ReadsFrom s d e (if e.tokens.head?.map (·.1) ≠ some (.word .whenWord) then
      (do return .plain (← assigned room target name))
    else (do
      let cases ← loop [] (guardedCases room target name)
      if ← acceptWord .elseWord then
        return .guarded cases (some (← assigned room target name))
      else return .guarded cases none) : Parse Rhs) (Rhs.Suits Γ target)
  split
  · exact (reads_assigned h room target name).bind (fun v hv => reads_pure (.plain hv)) e he
  · next hw =>
    refine (readsFrom_cases h room target name he (Decidable.not_not.1 hw)).bind fun cases hc => ?_
    refine (reads_acceptWord _).bind fun b _ => ?_
    split
    · refine (reads_assigned h room target name).bind fun v hv => reads_pure ?_
      exact .guarded hc.ne_nil hc.each fun x hx => by
        obtain rfl := Option.mem_some.1 hx
        exact hv
    · exact reads_pure (.guarded hc.ne_nil hc.each fun x hx => nomatch hx)

/-! ## Constants and names of imports only read -/

theorem reads_constantTerm (start : Position) (negative : Bool) :
    Reads s d (constantTerm start negative) fun _ => True := by
  refine reads_next?.bind fun o _ => ?_
  split
  · exact (reads_integer _ _).bind fun n _ => reads_pure trivial
  · exact reads_pure trivial
  · split
    · exact reads_failAbout _ _ _
    · exact reads_pure trivial
  · refine (reads_lookup? _).bind fun o _ => ?_
    split
    · split
      · split
        · exact reads_pure trivial
        · exact reads_pure trivial
        · exact reads_failAbout _ _ _
      · exact reads_pure trivial
    · exact reads_failAbout _ _ _
  · exact reads_failAbout _ _ _
  · exact reads_failAbout _ _ _

theorem reads_constantValue : Reads s d constantValue fun _ => True :=
  reads_position.bind fun start _ => (reads_accept _).bind fun negative _ =>
    reads_constantTerm start negative

theorem reads_importedName (before : List (String × Position)) :
    Reads s d (importedName before) fun _ => True := by
  refine reads_ident.bind fun n _ => ?_
  obtain ⟨name, p⟩ := n
  dsimp only
  split
  · exact (reads_failAbout (Q := fun _ => False) _ _ _).bind fun _ hx => hx.elim
  · exact reads_pure trivial

theorem reads_exported (script : String) (p : Position) (name : String) (q : Position) :
    Reads s d (exported script p name q) fun id => script ≠ s.name ∧ ∃ exports,
      s.scripts.exports? script = some exports ∧ exports.get? name = some id := by
  refine reads_read.bind fun g hg => ?_
  rw [hg]
  dsimp only
  split
  · exact (reads_failAbout (Q := fun _ => False) _ _ _).bind fun _ hx => hx.elim
  · next hcyclic =>
    have hne : script ≠ s.name := by
      rintro rfl
      simp at hcyclic
    split
    · exact (reads_failAbout (Q := fun _ => False) _ _ _).bind fun _ hx => hx.elim
    · split
      · next id hid =>
        obtain ⟨exports, he, hx⟩ := Option.bind_eq_some_iff.1 hid
        exact reads_pure ⟨hne, exports, he, hx⟩
      · exact reads_failAbout _ _ _

theorem reads_hostShared (name : String) (p : Position) :
    Reads s d (hostShared name p) fun id => s.globals.shared.get? name = some id := by
  refine reads_read.bind fun g hg => ?_
  rw [hg]
  dsimp only
  split
  · next id hid => exact reads_pure hid
  · split
    · exact reads_failAbout _ _ _
    · exact reads_failAbout _ _ _

/-! ## Declaring -/

variable {t : SharedTable} {from? : Option String}

theorem leads_declare (hd : d.Ok s t from?) {name : String} (hname : d.symbols.get? name = none)
    {symbol : Symbol} (hv : ∀ v, symbol ≠ .var v) (hf : ∀ index f, symbol ≠ .function index f) :
    Leads s t from? d (declare name symbol) fun _ _ => True := by
  intro e he
  have hok := (hd.same he).declare (he.symbols ▸ hname) hv hf
  refine ⟨hok, ?_, trivial⟩
  rw [← he.scope s]
  exact ⟨.refl _, fun n hn => hn.insert (he.symbols ▸ hname) symbol⟩

/-- A step that declares a variable. -/
theorem leads_adds (hd : d.Ok s t from?) {p : Parse α} {Q : α → Scope → Prop} (name : String)
    (h : ∀ e, d.Same e → ∃ a d' v, p s e = .ok a d' ∧ e.Adds s from? d' name v ∧
      ((d'.scope s).slot v.slot = some v.ty →
        (v.imported = false → (d'.scope s).own v.slot) → Q a (d'.scope s))) :
    Leads s t from? d p Q := by
  intro e he
  obtain ⟨a, d', v, hp, hadds, hq⟩ := h e he
  rw [hp]
  have hle := hadds.le (hd.same he)
  rw [he.scope s] at hle
  exact ⟨hadds.ok (hd.same he), hle, hq hadds.slot_ty hadds.own⟩

theorem leads_declareVariable (hd : d.Ok s t from?) {name : String}
    (hname : d.symbols.get? name = none) (isShared : Bool) (ty : Ty) :
    Leads s t from? d (declareVariable isShared ty name) fun n Γ =>
      Γ.own n ∧ Γ.slot n = some ty := by
  refine leads_adds hd name fun e he => ?_
  have hsorted := (hd.same he).table.sorted
  have hnew : e.symbols.get? name = none := he.symbols ▸ hname
  cases isShared with
  | false =>
    refine ⟨_, _, ⟨ty, e.slots.size, none, false⟩, rfl, ?_, fun hty hown => ⟨hown rfl, hty⟩⟩
    exact ⟨hnew, rfl, rfl, rfl, rfl, (List.append_nil _).symm, .refl hsorted _, fun _ _ _ h => h,
      (fun _ h => nomatch h), (fun h => nomatch h), fun _ _ h => .inl h, fun _ _ _ h => h,
      fun _ h => nomatch h⟩
  | true =>
    obtain ⟨hext, ⟨e', hnewest, hid, hty⟩, hother⟩ :=
      SharedTable.declare_spec hsorted s.name name ty
    refine ⟨_, _, ⟨ty, e.slots.size, some (e.table.declare s.name name ty).1, false⟩, rfl, ?_,
      fun hty hown => ⟨hown rfl, hty⟩⟩
    obtain ⟨hmem, -, hename, -⟩ := hext.sorted.newest?_eq_some.1 hnewest
    refine ⟨hnew, rfl, rfl, rfl, rfl, Array.toList_push .., hext, hother, fun id h => ?_,
      (fun h => nomatch h), fun x id h => ?_, fun x id hne h => ?_, fun id h _ => ?_⟩
    · cases h
      exact ⟨e', hid ▸ hext.sorted.get?_id hmem, hename, hty⟩
    · rcases NameMap.eq_or_get?_of_insert h with ⟨rfl, rfl⟩ | h
      · exact .inr ⟨rfl, rfl, rfl, e', hnewest, hid⟩
      · exact .inl h
    · show (e.exports.insert name _).get? x = some id
      rw [NameMap.get?_insert, if_neg hne]
      exact h
    · cases h
      exact NameMap.get?_insert_self

/-- A store of a first value suits the variable it is declared with. -/
theorem leads_declarator (hs : s.Ok t) (hd : d.Ok s t from?) (room : Nat) (isShared : Bool)
    (ty : Ty) : Leads s t from? d (declarator room isShared ty) fun body Γ => Stmt.AllOk Γ body := by
  refine reads_ident.lead hd fun n _ => (reads_checkFresh _ _).lead hd fun _ hfresh => ?_
  refine (leads_declareVariable hd hfresh.1 isShared ty).bind fun slot d' hd' _ hslot => ?_
  refine (reads_acceptMark _).lead hd' fun b _ => ?_
  split
  · refine (reads_rhs (hd'.agree hs) room ty _).lead hd' fun r hr => leads_pure hd' ?_
    exact ⟨⟨hslot.1, ty, ty, hslot.2, .here ty, hr⟩, trivial⟩
  · exact leads_pure hd' trivial

theorem leads_separated {item : Parse α} {Q : α → Scope → Prop}
    (hmono : ∀ a Γ Δ, Scope.Le Γ Δ → Q a Γ → Q a Δ)
    (h : ∀ d, d.Ok s t from? → Leads s t from? d item Q) (hd : d.Ok s t from?) :
    Leads s t from? d (separated item) fun items Γ => ∀ a ∈ items, Q a Γ := by
  refine leads_loop (fun before Γ => ∀ a ∈ before, Q a Γ) (fun d before hd hb => ?_) hd (by simp)
  refine (h d hd).bind fun a d' hd' hle ha => (reads_acceptMark _).lead hd' fun b _ => ?_
  have hall : ∀ x ∈ a :: before, Q x (d'.scope s) := by
    intro x hx
    rcases List.mem_cons.1 hx with rfl | hx
    · exact ha
    · exact hmono x _ _ hle (hb x hx)
  split
  · exact leads_pure hd' hall
  · exact leads_pure hd' fun x hx => hall x (List.mem_reverse.1 hx)

theorem leads_declaration (hs : s.Ok t) (hd : d.Ok s t from?) (room : Nat) (isShared : Bool) :
    Leads s t from? d (declaration room isShared) fun body Γ => Stmt.AllOk Γ body := by
  refine (reads_typeSpec room).lead hd fun ty _ => ?_
  refine (leads_separated (fun body Γ Δ h hb => Stmt.AllOk.mono h body hb)
    (fun d hd => leads_declarator hs hd room isShared ty) hd).bind fun stores d' hd' _ hstores => ?_
  exact (reads_expectMark _).lead hd' fun _ _ => leads_pure hd' (Stmt.allOk_flatten hstores)

theorem leads_typedef (hd : d.Ok s t from?) (room : Nat) :
    Leads s t from? d (typedef room) fun _ _ => True := by
  refine reads_skip.lead hd fun _ _ => reads_ident.lead hd fun n _ => ?_
  refine (reads_checkFresh _ _).lead hd fun _ hfresh => (reads_expectMark _).lead hd fun _ _ => ?_
  refine (reads_typeSpec room).lead hd fun ty _ => (reads_expectMark _).lead hd fun _ _ => ?_
  exact leads_declare hd hfresh.1 (fun _ h => nomatch h) fun _ _ h => nomatch h

theorem leads_constant (hd : d.Ok s t from?) (room : Nat) :
    Leads s t from? d (constant room) fun _ _ => True := by
  refine reads_skip.lead hd fun _ _ => (reads_typeSpec room).lead hd fun ty _ => ?_
  refine reads_ident.lead hd fun n _ => (reads_checkFresh _ _).lead hd fun _ hfresh => ?_
  refine (reads_expectMark _).lead hd fun _ _ => reads_position.lead hd fun p _ => ?_
  refine reads_constantValue.lead hd fun v _ => ?_
  dsimp only
  split
  · exact (reads_failAbout (Q := fun _ => False) _ _ _).lead hd fun _ hx => hx.elim
  · refine (reads_expectMark _).lead hd fun _ _ => ?_
    exact leads_declare hd hfresh.1 (fun _ h => nomatch h) fun _ _ h => nomatch h

/-! ## Importing -/

/-- What an imported name may stand for. -/
def Source (s : Surroundings) (from? : Option String) (name : String) (id : SharedId) : Prop :=
  s.globals.shared.get? name = some id ∨ ∃ script exports, script ≠ s.name ∧
    from? = some script ∧ s.scripts.exports? script = some exports ∧ exports.get? name = some id

/-- Binding a name to an entry that exists. -/
theorem leads_bindEntry (hs : s.Ok t) (hd : d.Ok s t from?) {name : String} {id : SharedId}
    (hname : d.symbols.get? name = none) (hid : Source s from? name id) (p : Position) :
    Leads s t from? d (do
      match (← get).table.get? id with
      | none => throw (((Fault.of .internalError).located p).named name)
      | some entry =>
        let slot ← addSlot (.shared id)
        addReference id
        declare name (.var { ty := entry.ty, slot := slot, shared := some id, imported := true }))
      fun _ _ => True := by
  refine reads_get.lead hd fun e' he' => ?_
  split
  · exact leads_throw hd _
  · next entry hentry =>
    rw [he'.table] at hentry
    have hold : ∃ e, t.get? id = some e ∧ e.name = name := by
      rcases hid with hid | ⟨script, exports, -, -, hexp, hid⟩
      · exact hs.shared name id hid
      · exact hs.exports script exports name id hexp hid
    obtain ⟨e, he, hn⟩ := hold
    rw [hd.table.get? hs.sorted he] at hentry
    obtain rfl := Option.some.inj hentry
    refine leads_adds hd name fun e' he' => ?_
    have hsorted := (hd.same he').table.sorted
    refine ⟨_, _, ⟨e.ty, e'.slots.size, some id, true⟩, rfl, ?_, fun _ _ => trivial⟩
    refine ⟨he'.symbols ▸ hname, rfl, rfl, rfl, rfl, Array.toList_push .., .refl hsorted _,
      fun _ _ _ h => h, fun i h => ?_, fun _ => ⟨id, rfl, ?_⟩, fun _ _ h => .inl h,
      fun _ _ _ h => h, fun _ _ h => nomatch h⟩
    · cases h
      exact ⟨e, he'.table ▸ hd.table.get? hs.sorted he, hn, rfl⟩
    · rcases hid with hid | ⟨script, exports, hne, hfrom, hexp, hid⟩
      · exact .inl hid
      · exact .inr ⟨script, exports, hne, .inr hfrom, hexp, hid⟩

theorem leads_importName (hs : s.Ok t) (from? : Option (String × Position))
    (hd : d.Ok s t (from?.map (·.1))) (name : String) (p : Position) :
    Leads s t (from?.map (·.1)) d (importName from? name p) fun _ _ => True := by
  refine reads_get.lead hd fun e he => ?_
  rw [he.symbols]
  dsimp only
  split
  · exact (reads_failAbout (Q := fun _ => False) _ _ _).lead hd fun _ hx => hx.elim
  · next hnew =>
    have hname : d.symbols.get? name = none := by simpa [NameMap.contains] using hnew
    split
    · next script q =>
      refine (reads_exported script q name p).lead hd fun id hid => ?_
      obtain ⟨hne, exports, hexp, hx⟩ := hid
      exact leads_bindEntry hs hd hname (.inr ⟨script, exports, hne, rfl, hexp, hx⟩) p
    · exact (reads_hostShared name p).lead hd fun id hid =>
        leads_bindEntry hs hd hname (.inl hid) p

theorem leads_forM_importName (hs : s.Ok t) (from? : Option (String × Position))
    (names : List (String × Position)) (hd : d.Ok s t (from?.map (·.1))) :
    Leads s t (from?.map (·.1)) d (names.forM fun (name, p) => importName from? name p)
      fun _ _ => True := by
  induction names generalizing d with
  | nil => exact leads_pure hd trivial
  | cons n rest ih =>
    obtain ⟨name, p⟩ := n
    exact (leads_importName hs from? hd name p).bind fun _ d' hd' _ _ => ih hd'

/-- What is in order without an import under way is so with one. -/
theorem ok_importing (hd : d.Ok s t none) (from? : Option String) : d.Ok s t from? := by
  refine ⟨hd.table, hd.result, hd.nodup, hd.references, hd.slots, hd.placed, hd.named, hd.apart,
    fun x v h himp => ?_, hd.functions, hd.exports, hd.exported⟩
  obtain ⟨id, hid, hfrom⟩ := hd.sources x v h himp
  refine ⟨id, hid, hfrom.imp_right fun h => ?_⟩
  obtain ⟨script, exports, hne, himports, hrest⟩ := h
  refine ⟨script, exports, hne, .inl ?_, hrest⟩
  exact himports.resolve_right fun h => nomatch h

/-- When the import is complete its script is among the imports. -/
theorem ok_imported {script : String} (hd : d.Ok s t (some script)) :
    { d with imports := d.imports.add script, subscripts := d.subscripts.add script }.Ok s t
      none := by
  refine ⟨hd.table, hd.result, hd.nodup, hd.references, hd.slots, hd.placed, hd.named, hd.apart,
    fun x v h himp => ?_, hd.functions, hd.exports, hd.exported⟩
  obtain ⟨id, hid, hfrom⟩ := hd.sources x v h himp
  refine ⟨id, hid, hfrom.imp_right fun h => ?_⟩
  obtain ⟨other, exports, hne, himports, hrest⟩ := h
  refine ⟨other, exports, hne, .inl (NameMap.contains_insert.2 ?_), hrest⟩
  rcases himports with himports | himports
  · exact .inr himports
  · cases himports
    exact .inl rfl

/-- A step within an import, after which the script is noted. -/
theorem leads_importing {script : String} {p : Parse Unit}
    (h : Leads s t (some script) d p fun _ _ => True) :
    Leads s t none d (do
      p
      modify fun d =>
        { d with imports := d.imports.add script, subscripts := d.subscripts.add script })
      fun _ _ => True := by
  intro e he
  have h := h e he
  cases hp : p s e with
  | ok a d' =>
    rw [hp] at h
    have hrun : (do
        p
        modify fun d =>
          { d with imports := d.imports.add script, subscripts := d.subscripts.add script }
        : Parse Unit) s e = .ok () { d' with
          imports := d'.imports.add script, subscripts := d'.subscripts.add script } := by
      show EStateM.bind (p s) _ e = _
      unfold EStateM.bind
      rw [hp]
      rfl
    rw [hrun]
    exact ⟨ok_imported h.1, h.2.1, trivial⟩
  | error x d' =>
    rw [hp] at h
    have hrun : (do
        p
        modify fun d =>
          { d with imports := d.imports.add script, subscripts := d.subscripts.add script }
        : Parse Unit) s e = .error x d' := by
      show EStateM.bind (p s) _ e = _
      unfold EStateM.bind
      rw [hp]
    rw [hrun]
    exact h

/-- The names of an import, once it is known where they come from. -/
theorem leads_importAll (hs : s.Ok t) (hd : d.Ok s t none) (names : List (String × Position))
    (from? : Option (String × Position)) :
    Leads s t none d (do
      expectMark .semicolon
      names.forM fun (name, p) => importName from? name p
      match from? with
      | some (script, _) =>
        modify fun d =>
          { d with imports := d.imports.add script, subscripts := d.subscripts.add script }
      | none => return ()) fun _ _ => True := by
  refine (reads_expectMark _).lead hd fun _ _ => ?_
  have h := leads_forM_importName hs from? names (ok_importing hd (from?.map (·.1)))
  cases from? with
  | none => exact h.bind fun _ d' hd' _ _ => leads_pure hd' trivial
  | some n => exact leads_importing h

theorem leads_importNames (hs : s.Ok t) (hd : d.Ok s t none) :
    Leads s t none d importNames fun _ _ => True := by
  refine reads_skip.lead hd fun _ _ => ?_
  refine (reads_separatedAfter fun before => reads_importedName before).lead hd fun names _ => ?_
  refine (reads_acceptWord _).lead hd fun b _ => ?_
  split
  · have hfrom : Reads s d (some <$> ident) fun _ => True := by
      rw [map_eq_pure_bind]
      exact reads_ident.bind fun n _ => reads_pure trivial
    exact hfrom.lead hd fun from? _ => leads_importAll hs hd names from?
  · exact leads_importAll hs hd names none

end Parse

end VectorScript
