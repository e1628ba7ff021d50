import VectorScript.Proofs.Grammar.Noting
import VectorScript.Proofs.Program.Linked

/-!
# The subscripts of a program

Whatever declarations and statements a text has, the scripts that their expressions name are noted when
it has been read to its end. So a program that is made of it dispatches by a literal no script but
itself and its subscripts.

    (s.compile source).1 = .ok p → some script ∈ p.dispatched →
      script = s.name ∨ p.subscripts.contains script = true                             (noted_compile)
-/

namespace VectorScript

/-- Conditions and values name only scripts of `T`. -/
def PairsNoted (functions : List HostFunction) (T : String → Prop) (cases : List (Expr × Expr)) :
    Prop := ∀ c ∈ cases, c.1.Noted functions T ∧ c.2.Noted functions T

theorem PairsNoted.exprs {functions : List HostFunction} {T : String → Prop}
    {cases : List (Expr × Expr)} {otherwise : Option Expr} (h : PairsNoted functions T cases)
    (ho : ∀ e ∈ otherwise, e.Noted functions T) :
    ∀ e ∈ (Rhs.guarded cases otherwise).exprs, e.Noted functions T := by
  intro e he
  rcases List.mem_append.1 he with he | he
  · obtain ⟨c, hc, rfl⟩ := List.mem_map.1 he
    exact (h c hc).1
  rcases List.mem_append.1 he with he | he
  · obtain ⟨c, hc, rfl⟩ := List.mem_map.1 he
    exact (h c hc).2
  · exact ho e (Option.mem_toList.1 he)

namespace Parse

variable {s : Surroundings} {T : String → Prop}

section

variable (hglobals : s.globals.Ok) (hself : T s.name)

include hglobals hself

/-! ## Right sides -/

theorem notes_assigned (room : Nat) (target : Ty) (name : String) :
    Notes s T (assigned room target name) (Expr.Noted s.globals.functions T) := by
  refine notes_position.next fun q => (notes_expression hglobals hself room).bind fun e => ?_
  split
  · exact notes_pure id
  · exact notes_failAbout _ _ _

theorem notes_conditionFor (room : Nat) (construct : String) :
    Notes s T (conditionFor room construct) (Expr.Noted s.globals.functions T) := by
  refine notes_position.next fun q => (notes_expression hglobals hself room).bind fun e => ?_
  split
  · exact notes_pure id
  · exact notes_failAbout _ _ _

theorem notes_case (room : Nat) (target : Ty) (name : String) (cases : List (Expr × Expr)) :
    Notes s T (guardedCases room target name cases) fun r =>
      PairsNoted s.globals.functions T cases → Round (PairsNoted s.globals.functions T)
        (PairsNoted s.globals.functions T) r := by
  refine (notes_acceptWord _).next fun b => ?_
  split
  · refine (notes_conditionFor hglobals hself room _).bind fun condition => ?_
    refine (notes_expectMark _).next fun _ => ?_
    refine (notes_assigned hglobals hself room target name).bind fun value => ?_
    exact notes_pure fun hvalue hcondition hcases =>
      List.forall_mem_cons.2 ⟨⟨hcondition, hvalue⟩, hcases⟩
  · exact notes_pure fun hcases c hc => hcases c (List.mem_reverse.1 hc)

/-- The conditions and the values name only scripts that are noted. -/
theorem notes_rhs (room : Nat) (target : Ty) (name : String) :
    Notes s T (rhs room target name) fun r => ∀ e ∈ r.exprs, e.Noted s.globals.functions T := by
  refine notes_peek?.next fun o => ?_
  split
  · refine (notes_assigned hglobals hself room target name).bind fun e => notes_pure fun he => ?_
    exact List.forall_mem_singleton.2 he
  · have hcases : Notes s T _ (PairsNoted s.globals.functions T) :=
      (notes_loop (PairsNoted s.globals.functions T)
        (notes_case hglobals hself room target name) []).mono fun _ h => h fun _ h => nomatch h
    refine hcases.bind fun cases => (notes_acceptWord _).next fun b => ?_
    split
    · refine (notes_assigned hglobals hself room target name).bind fun value => notes_pure ?_
      exact fun hvalue hcases => hcases.exprs fun e he => Option.mem_some.1 he ▸ hvalue
    · exact notes_pure fun hcases => hcases.exprs fun _ h => nomatch h

end

/-! ## Types and constants -/

theorem notes_arrayOf (ty : Ty) : Notes s T (arrayOf ty) fun _ => True := by
  refine (notes_loop (R := fun _ => True) (fun _ => True) (fun ty => ?_) ty).mono fun _ _ => trivial
  refine (notes_acceptMark _).next fun b => ?_
  split
  · exact (notes_expectMark _).next fun _ => notes_pure fun _ => trivial
  · exact notes_pure fun _ => trivial

theorem notes_fieldSpec {typeSpec : Parse Ty} (h : Notes s T typeSpec fun _ => True)
    (before : List (String × Ty)) : Notes s T (fieldSpec typeSpec before) fun _ => True := by
  refine h.next fun ty => notes_ident.next fun n => ?_
  dsimp only
  split
  · exact notes_failAbout_bind _ _ _
  · exact notes_pure trivial

theorem notes_namedType : Notes s T namedType fun _ => True := by
  refine notes_ident.next fun n => (notes_lookup? _).next fun o => ?_
  split
  · exact notes_pure trivial
  · exact notes_failAbout _ _ _
  · exact notes_failAbout _ _ _

theorem notes_typeSpec (room : Nat) : Notes s T (typeSpec room) fun _ => True := by
  induction room with
  | zero =>
    refine (notes_acceptWord _).next fun b => ?_
    split
    · exact (notes_expectMark _).next fun _ => notes_tooDeep
    · exact notes_namedType.next fun ty => notes_arrayOf ty
  | succ room ih =>
    refine (notes_acceptWord _).next fun b => ?_
    split
    · refine (notes_expectMark _).next fun _ => ?_
      refine (notes_separatedAfter fun before => notes_fieldSpec ih before).next fun fields => ?_
      exact (notes_expectMark _).next fun _ => notes_arrayOf _
    · exact notes_namedType.next fun ty => notes_arrayOf ty

theorem notes_constantTerm (start : Position) (negative : Bool) :
    Notes s T (constantTerm start negative) fun _ => True := by
  refine notes_next?.next fun o => ?_
  split
  · exact (notes_integer _ _).next fun n => notes_pure trivial
  · exact notes_pure trivial
  · split
    · exact notes_failAbout _ _ _
    · exact notes_pure trivial
  · refine (notes_lookup? _).next fun o => ?_
    split
    · split
      · split
        · exact notes_pure trivial
        · exact notes_pure trivial
        · exact notes_failAbout _ _ _
      · exact notes_pure trivial
    · exact notes_failAbout _ _ _
  · exact notes_failAbout _ _ _
  · exact notes_failAbout _ _ _

theorem notes_typedef (room : Nat) : Notes s T (typedef room) fun _ => True := by
  refine notes_skip.next fun _ => notes_ident.next fun n => (notes_checkFresh _ _).next fun _ => ?_
  refine (notes_expectMark _).next fun _ => (notes_typeSpec room).next fun ty => ?_
  exact (notes_expectMark _).next fun _ => notes_declare _ fun _ _ h => nomatch h

theorem notes_constant (room : Nat) : Notes s T (constant room) fun _ => True := by
  refine notes_skip.next fun _ => (notes_typeSpec room).next fun ty => notes_ident.next fun n => ?_
  refine (notes_checkFresh _ _).next fun _ => (notes_expectMark _).next fun _ => ?_
  refine notes_position.next fun q => ?_
  have hvalue : Notes s T constantValue fun _ => True :=
    notes_position.next fun start => (notes_accept _).next fun negative =>
      notes_constantTerm start negative
  refine hvalue.next fun v => ?_
  dsimp only
  split
  · exact notes_failAbout_bind _ _ _
  · exact (notes_expectMark _).next fun _ => notes_declare _ fun _ _ h => nomatch h

/-! ## Imports -/

theorem notes_importedName (before : List (String × Position)) :
    Notes s T (importedName before) fun _ => True := by
  refine notes_ident.next fun n => ?_
  dsimp only
  split
  · exact notes_failAbout_bind _ _ _
  · exact notes_pure trivial

theorem notes_exported (script : String) (q : Position) (name : String) (place : Position) :
    Notes s T (exported script q name place) fun _ => True := by
  refine notes_read.next fun g => ?_
  dsimp only
  split
  · exact notes_failAbout_bind _ _ _
  · split
    · exact notes_failAbout_bind _ _ _
    · split
      · exact notes_pure trivial
      · exact notes_failAbout _ _ _

theorem notes_hostShared (name : String) (place : Position) :
    Notes s T (hostShared name place) fun _ => True := by
  refine notes_read.next fun g => ?_
  dsimp only
  split
  · exact notes_pure trivial
  · split
    · exact notes_failAbout _ _ _
    · exact notes_failAbout _ _ _

theorem notes_addSlot (slot : Slot) : Notes s T (addSlot slot) fun _ => True := by
  refine notes_get.next fun d => ?_
  exact Notes.next (notes_modify_other (fun _ => rfl) fun _ => rfl) fun _ => notes_pure trivial

theorem notes_addReference (id : SharedId) : Notes s T (addReference id) fun _ => True :=
  notes_modify_other (fun _ => rfl) fun _ => rfl

theorem notes_bindEntry (id : SharedId) (name : String) (place : Position) : Notes s T (do
    match (← get).table.get? id with
    | none => throw (((Fault.of .internalError).located place).named name)
    | some entry =>
      let slot ← addSlot (.shared id)
      addReference id
      declare name (.var { ty := entry.ty, slot := slot, shared := some id, imported := true }))
    fun _ => True := by
  refine notes_get.next fun d => ?_
  split
  · exact notes_throw _
  · refine (notes_addSlot _).next fun slot => (notes_addReference id).next fun _ => ?_
    exact notes_declare _ fun _ _ h => nomatch h

theorem notes_importName (from? : Option (String × Position)) (name : String) (place : Position) :
    Notes s T (importName from? name place) fun _ => True := by
  refine notes_get.next fun d => ?_
  dsimp only
  split
  · exact notes_failAbout_bind _ _ _
  · split
    · exact (notes_exported _ _ _ _).next fun id => notes_bindEntry id name place
    · exact (notes_hostShared _ _).next fun id => notes_bindEntry id name place

theorem notes_forM_importName (from? : Option (String × Position)) (names : List (String × Position)) :
    Notes s T (names.forM fun (name, p) => importName from? name p) fun _ => True := by
  induction names with
  | nil => exact notes_pure trivial
  | cons n rest ih => exact (notes_importName from? n.1 n.2).next fun _ => ih

/-- The names of an import, once it is known where they come from: that script is noted too. -/
theorem notes_importAll (names : List (String × Position)) (from? : Option (String × Position)) :
    Notes s T (do
      expectMark .semicolon
      names.forM fun (name, p) => importName from? name p
      match from? with
      | some (script, _) =>
        modify fun d =>
          { d with imports := d.imports.add script, subscripts := d.subscripts.add script }
      | none => return ()) fun _ => True := by
  refine (notes_expectMark _).next fun _ => (notes_forM_importName from? names).next fun _ => ?_
  split
  · refine notes_modify fun d hd => ⟨hd, fun hT other hother => hT other ?_⟩
    exact NameMap.contains_insert.2 (.inr hother)
  · exact notes_pure trivial

theorem notes_importNames : Notes s T importNames fun _ => True := by
  refine notes_skip.next fun _ => ?_
  refine (notes_separatedAfter notes_importedName).next fun names => ?_
  refine (notes_acceptWord _).next fun b => ?_
  split
  · have hfrom : Notes s T (some <$> ident) fun _ => True := by
      rw [map_eq_pure_bind]
      exact notes_ident.next fun n => notes_pure trivial
    exact hfrom.next (notes_importAll names)
  · exact notes_importAll names none

/-! ## Declarations -/

theorem notes_declareVariable (isShared : Bool) (ty : Ty) (name : String) :
    Notes s T (declareVariable isShared ty name) fun _ => True := by
  intro d n d' hd h
  cases isShared <;> cases h <;>
    exact ⟨hd.insert name fun _ _ h => (nomatch h), fun hT => ⟨hT, trivial⟩⟩

/-- Every expression of the statements names only scripts of `T`. -/
def BodyNoted (s : Surroundings) (T : String → Prop) (body : List Stmt) : Prop :=
  ∀ a ∈ body, a.Each (Expr.Noted s.globals.functions T)

theorem BodyNoted.flatten {parts : List (List Stmt)} (h : ∀ part ∈ parts, BodyNoted s T part) :
    BodyNoted s T parts.flatten := by
  intro a ha
  obtain ⟨part, hpart, ha⟩ := List.mem_flatten.1 ha
  exact h part hpart a ha

/-- A statement with others inside it. -/
theorem each_intro {a : Stmt} (h : ∀ e ∈ a.exprs, e.Noted s.globals.functions T)
    (hinside : BodyNoted s T a.inside) : a.Each (Expr.Noted s.globals.functions T) :=
  .intro h hinside

theorem notes_one {p : Parse Stmt} (h : Notes s T p (Stmt.Each (Expr.Noted s.globals.functions T))) :
    Notes s T (do return [← p]) (BodyNoted s T) :=
  h.bind fun _ => notes_pure List.forall_mem_singleton.2

theorem notes_block {inner : Option (Parse (List Stmt))}
    (hi : ∀ statement ∈ inner, Notes s T statement (BodyNoted s T)) :
    Notes s T (block inner) (BodyNoted s T) := by
  refine (notes_expectMark _).next fun _ => ?_
  split
  · exact notes_tooDeep
  · next statement =>
    refine (notes_loop (R := fun parts : List (List Stmt) => ∀ part ∈ parts, BodyNoted s T part)
      (fun parts => ∀ part ∈ parts, BodyNoted s T part) (fun parts => ?_) []).bind fun parts =>
        (notes_expectMark _).next fun _ =>
          notes_pure fun h => BodyNoted.flatten (h fun _ h => nomatch h)
    refine notes_peek?.next fun o => ?_
    split
    · exact notes_pure fun hparts part h => hparts part (List.mem_reverse.1 h)
    · exact notes_unexpected _
    · exact (hi statement rfl).bind fun body => notes_pure fun hbody hparts =>
        List.forall_mem_cons.2 ⟨hbody, hparts⟩

section

variable (hglobals : s.globals.Ok) (hself : T s.name)

include hglobals hself

theorem notes_declarator (room : Nat) (isShared : Bool) (ty : Ty) :
    Notes s T (declarator room isShared ty) (BodyNoted s T) := by
  refine notes_ident.next fun n => (notes_checkFresh _ _).next fun _ => ?_
  refine (notes_declareVariable isShared ty _).next fun slot => (notes_acceptMark _).next fun b => ?_
  split
  · refine (notes_rhs hglobals hself room ty _).bind fun value => notes_pure fun hvalue => ?_
    exact List.forall_mem_singleton.2 (each_intro hvalue fun _ h => nomatch h)
  · exact notes_pure fun _ h => nomatch h

theorem notes_declaration (room : Nat) (isShared : Bool) :
    Notes s T (declaration room isShared) (BodyNoted s T) := by
  refine (notes_typeSpec room).next fun ty => ?_
  refine (notes_separated (notes_declarator hglobals hself room isShared ty)).bind fun stores => ?_
  exact (notes_expectMark _).next fun _ => notes_pure BodyNoted.flatten

/-! ## Assignments -/

theorem notes_assignmentPath (room : Nat) (name : String) (ty : Ty) :
    Notes s T (assignmentPath room name ty) fun r =>
      ∀ e ∈ r.1, e.Noted s.globals.functions T := by
  refine (notes_loop (R := fun r : List Expr × Ty => ∀ e ∈ r.1, e.Noted s.globals.functions T)
    (fun r => ∀ e ∈ r.1, e.Noted s.globals.functions T) (fun r => ?_) ([], ty)).mono
      fun _ h => h fun _ h => nomatch h
  obtain ⟨path, ty⟩ := r
  refine notes_position.next fun q => notes_peek?.next fun o => ?_
  split
  · refine notes_skip.next fun _ => (notes_conditionFor hglobals hself room _).bind fun index => ?_
    refine (notes_expectMark _).next fun _ => ?_
    split
    · exact notes_pure fun hindex hpath => List.forall_mem_cons.2 ⟨hindex, hpath⟩
    · exact notes_failAbout _ _ _
  · refine notes_skip.next fun _ => notes_ident.next fun n => ?_
    dsimp only
    split
    · exact notes_pure fun hpath => List.forall_mem_cons.2 ⟨trivial, hpath⟩
    · exact notes_failAbout _ _ _
  · exact notes_pure fun hpath e he => hpath e (List.mem_reverse.1 he)

theorem notes_assignment (room : Nat) :
    Notes s T (assignment room) (Stmt.Each (Expr.Noted s.globals.functions T)) := by
  refine notes_ident.next fun n => (notes_lookup? _).next fun o => ?_
  dsimp only
  split
  · split
    · exact notes_failAbout_bind _ _ _
    · refine (notes_assignmentPath hglobals hself room _ _).bind fun r => ?_
      refine (notes_expectMark _).next fun _ => (notes_rhs hglobals hself room _ _).bind fun value => ?_
      refine (notes_expectMark _).next fun _ => notes_pure fun hvalue hpath => ?_
      exact each_intro (List.forall_mem_append.2 ⟨hpath, hvalue⟩) fun _ h => nomatch h
  · exact notes_failAbout _ _ _
  · exact notes_failAbout _ _ _

theorem notes_expressionStatement (room : Nat) :
    Notes s T (expressionStatement room) (Stmt.Each (Expr.Noted s.globals.functions T)) := by
  refine notes_position.next fun q => (notes_expression hglobals hself room).bind fun e => ?_
  refine (notes_expectMark _).next fun _ => ?_
  have heach (h : e.Noted s.globals.functions T) :
      ∀ x ∈ [e.expr], x.Noted s.globals.functions T := List.forall_mem_singleton.2 h
  split
  · exact notes_pure fun he => each_intro (heach he) fun _ h => nomatch h
  · exact notes_pure fun he => each_intro (heach he) fun _ h => nomatch h

/-! ## Statements -/

theorem notes_conditional (room : Nat) {inner : Option (Parse (List Stmt))}
    (hi : ∀ statement ∈ inner, Notes s T statement (BodyNoted s T)) :
    Notes s T (conditional room inner) (Stmt.Each (Expr.Noted s.globals.functions T)) := by
  refine notes_position.next fun q => notes_skip.next fun _ => (notes_expectMark _).next fun _ => ?_
  refine (notes_conditionFor hglobals hself room _).bind fun condition => ?_
  refine (notes_expectMark _).next fun _ => ?_
  split
  · exact notes_tooDeep
  · next statement =>
    refine (hi statement rfl).bind fun body => notes_position.next fun r => ?_
    refine (notes_acceptWord _).next fun b => ?_
    split
    · refine (hi statement rfl).bind fun other => notes_pure fun hother hbody hcondition => ?_
      exact each_intro (List.forall_mem_singleton.2 hcondition)
        (List.forall_mem_append.2 ⟨hbody, hother⟩)
    · exact notes_pure fun hbody hcondition =>
        each_intro (List.forall_mem_singleton.2 hcondition) hbody

theorem notes_namedStatement (room : Nat) (name : String) :
    Notes s T (namedStatement room name) (BodyNoted s T) := by
  have hassign := notes_one (notes_assignment hglobals hself room)
  have hexpr := notes_one (notes_expressionStatement hglobals hself room)
  refine notes_get.next fun d => (notes_lookup? _).next fun o => ?_
  split
  · exact notes_declaration hglobals hself room false
  · split
    · exact hassign
    · exact hexpr
  · split
    · exact hassign
    · exact hexpr
  · exact hexpr

theorem notes_statementWith (room : Nat) {inner : Option (Parse (List Stmt))}
    (hi : ∀ statement ∈ inner, Notes s T statement (BodyNoted s T)) :
    Notes s T (statementWith room inner) (BodyNoted s T) := by
  have hnone : BodyNoted s T [] := fun _ h => nomatch h
  refine notes_peek?.next fun o => ?_
  split
  · exact notes_unexpected _
  · split
    · exact notes_skip.next fun _ => notes_pure hnone
    · exact notes_block hi
    · exact notes_skip.next fun _ => notes_declaration hglobals hself room true
    · exact notes_declaration hglobals hself room false
    · exact (notes_typedef room).next fun _ => notes_pure hnone
    · exact (notes_constant room).next fun _ => notes_pure hnone
    · exact notes_importNames.next fun _ => notes_pure hnone
    · exact notes_one (notes_conditional hglobals hself room hi)
    · exact notes_namedStatement hglobals hself room _
    · exact notes_one (notes_expressionStatement hglobals hself room)

theorem notes_statement (room : Nat) : Notes s T (statement room) (BodyNoted s T) := by
  induction room with
  | zero => exact notes_statementWith hglobals hself 0 fun _ h => nomatch h
  | succ room ih =>
    refine notes_statementWith hglobals hself (room + 1) fun statement h => ?_
    obtain rfl := Option.mem_some.1 h
    exact ih

/-- The scripts that a text names are noted when it has been read to its end. -/
theorem notes_script : Notes s T script (BodyNoted s T) := by
  refine (notes_loop (R := fun parts : List (List Stmt) => ∀ part ∈ parts, BodyNoted s T part)
    (fun parts => ∀ part ∈ parts, BodyNoted s T part) (fun parts => ?_) []).bind fun parts =>
      notes_pure fun h => BodyNoted.flatten (h fun _ h => nomatch h)
  refine notes_peek?.next fun o => ?_
  split
  · exact notes_pure fun hparts part h => hparts part (List.mem_reverse.1 h)
  · exact (notes_statement hglobals hself maxNesting).bind fun body => notes_pure fun hbody hparts =>
      List.forall_mem_cons.2 ⟨hbody, hparts⟩

end

end Parse

/-! ## Compilation -/

/-- The script is `name` itself or one of the subscripts. -/
def Program.Leads (p : Program) (name script : String) : Prop :=
  script = name ∨ p.subscripts.contains script = true

instance (p : Program) (name : String) : DecidablePred (p.Leads name) :=
  fun script => inferInstanceAs (Decidable (script = name ∨ p.subscripts.contains script = true))

/-- What a program dispatches by a literal, in code whose lengths fit into words, is the script itself or
among its subscripts. -/
theorem Setting.noted_compile {s : Setting} (hs : s.Ok) {source : String} {p : Program}
    (h : (s.compile source).1 = .ok p) (hlibrary : ∀ f ∈ p.functions, f ∈ Library.functions)
    (hsize : ∀ st ∈ p.statements, st.code.length < UInt32.size) {script : String}
    (hscript : some script ∈ p.dispatched) : p.Leads s.name script := by
  obtain ⟨body, d, statements, hparse, hflatten, rfl, -⟩ := compile_eq_ok h
  have htyped := parse_script hs source
  rw [hparse] at htyped
  obtain ⟨-, hok⟩ := htyped
  have hbody : Parse.BodyNoted (s.surroundings source (Lexer.tokens source))
      ((d.program s.globals statements).Leads s.name) body :=
    ((Parse.notes_script (hs source (Lexer.tokens source)).globals (.inl rfl)
      (.start (Lexer.tokens source) s.table) body d (Draft.functionless_start _ _) hparse).2
        fun _ => .inr).2
  obtain ⟨st, hst, hscript⟩ := List.mem_flatMap.1 hscript
  have hmade := Stmt.madeOf_flattenAll ((Stmt.hereditary_ok _).and (Stmt.hereditary_each _)) body
    (fun a ha => ⟨Stmt.allOk_iff.1 hok a ha, hbody a ha⟩) hflatten st hst
  exact hmade.noted (p := d.program s.globals statements)
    (.ofSlots (d.program s.globals statements) d.table) hlibrary (hsize st hst) hscript

end VectorScript
