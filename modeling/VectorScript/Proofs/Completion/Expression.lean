import VectorScript.Proofs.Completion.Cut

/-!
# Expressions and declarations that are cut off

Reading an expression, a type or a declaration tracks a text that is cut off: the part is in step with
the whole up to the cut, and declares nothing after it. Where the part has gone astray no identifier
is left for it to declare.

    c.Tracks quiet 0 0 (expression room)                                        (tracks_expression)
    c.Tracks False 1 1 (declaration room isShared)                              (tracks_declaration)
-/

namespace VectorScript

namespace Cut

open Parse

variable {c : Cut} {quiet : Prop} {n : Nat}

/-! ## Tokens -/

theorem tracks_acceptMark (m : Mark) : c.Tracks quiet 0 0 (acceptMark m) := tracks_accept _

theorem tracks_acceptWord (w : Word) : c.Tracks quiet 0 0 (acceptWord w) := tracks_accept _

theorem tracks_expectMark (m : Mark) : c.Tracks quiet 1 1 (expectMark m) := (takes_expect _).tracks

theorem tracks_ident : c.Tracks quiet 1 1 ident := takes_ident.tracks

/-! ## Expressions -/

theorem tracks_chain {operand : Parse Typed} (h : c.Tracks quiet 0 0 operand) (level : Nat) :
    c.Tracks quiet 0 0 (chain level operand) := by
  refine h.bind fun first => tracks_loop (fun left => ?_) _
  refine tracks_peek?.bind fun o => ?_
  split
  · split
    · refine tracks_position.bind fun p => tracks_skip.bind fun _ => h.bind fun right => ?_
      exact (tracks_aside (aside_checkOperation _ _ _ _)).close fun _ => tracks_pure _
    · exact tracks_pure _
  · exact tracks_pure _

theorem tracks_binary {operand : Parse Typed} (h : c.Tracks quiet 0 0 operand) :
    c.Tracks quiet 0 0 (binary operand) := by
  unfold binary
  generalize binaryLevels = levels
  induction levels with
  | zero => exact h
  | succ levels ih => exact tracks_chain ih _

theorem tracks_signed {inner bare : Parse Typed} (hi : c.Tracks quiet 0 0 inner)
    (hb : c.Tracks quiet 0 0 bare) : c.Tracks quiet 0 0 (signed inner bare) := by
  refine tracks_peek?.bind fun o => ?_
  split
  · exact hb
  · refine tracks_position.bind fun p => tracks_skip.bind fun _ => tracks_peek?.bind fun o' => ?_
    split
    · refine tracks_position.bind fun q => tracks_skip.bind fun _ => ?_
      exact (tracks_aside (aside_integer _ _)).close fun _ => tracks_pure _
    · refine hi.bind fun e => ?_
      exact (tracks_aside (aside_checkOperation _ _ _ _)).close fun _ => tracks_pure _

section

variable {expression : Parse Typed} (h : c.Tracks quiet 0 0 expression)

include h

theorem tracks_components (p : Position) : c.Tracks quiet 0 0 (components expression p) := by
  refine (tracks_separated h).bind fun items => ?_
  refine ((tracks_expectMark _).mono (Nat.zero_le 1) (Nat.zero_le 1)).bind fun _ => ?_
  split
  · split
    · exact tracks_pure _
    · split
      · exact tracks_pure _
      · exact tracks_failAbout _ _ _
  · exact tracks_failAbout _ _ _

theorem tracks_listLiteral : c.Tracks quiet 0 0 (listLiteral expression) := by
  refine (tracks_acceptMark _).bind fun b => ?_
  split
  · exact tracks_pure _
  · refine (tracks_separated h).bind fun items => ?_
    exact (tracks_expectMark _).bind fun _ => tracks_pure _

theorem tracks_arguments : c.Tracks quiet 0 0 (arguments expression) := by
  refine (tracks_expectMark _).bind fun _ => (tracks_acceptMark _).bind fun b => ?_
  split
  · exact tracks_pure _
  · have hitem : c.Tracks quiet 0 0 (do
        let p ← position
        return (← expression, p)) := tracks_position.bind fun _ => h.bind fun _ => tracks_pure _
    refine (tracks_separated hitem).bind fun args => ?_
    exact (tracks_expectMark _).bind fun _ => tracks_pure _

theorem tracks_call (name : String) (p : Position) : c.Tracks quiet 0 0 (call expression name p) := by
  refine (tracks_aside (n := 0) (aside_lookup? name)).bind fun o => ?_
  split
  · next index f =>
    refine (tracks_arguments h).bind fun args => ?_
    have hend : c.Tracks quiet 0 0 (do
        checkArguments name f.params args
        noteSubscript f args
        return (⟨.call index (args.map fun a => a.1.expr), f.ret⟩ : Typed)) :=
      (tracks_aside (n := 0) (aside_checkArguments _ _ _)).bind fun _ =>
        (tracks_aside (n := 0) (aside_noteSubscript _ _)).bind fun _ => tracks_pure _
    split
    · exact (tracks_failAbout (n := 0) (m := 0) _ _ _).bind fun _ => hend
    · exact hend
  · exact tracks_failAbout _ _ _
  · exact tracks_failAbout _ _ _

theorem tracks_primary : c.Tracks quiet 0 0 (primary expression) := by
  refine tracks_position.bind fun p => tracks_next?.bind fun o => ?_
  split
  · exact tracks_failAbout _ _ _
  · split
    · exact (tracks_aside (n := 0) (aside_integer _ _)).bind fun _ => tracks_pure _
    · exact tracks_pure _
    · exact tracks_pure _
    · exact h.bind fun _ => (tracks_expectMark _).bind fun _ => tracks_pure _
    · exact tracks_components h p
    · exact tracks_listLiteral h
    · refine tracks_peek?.bind fun o => ?_
      split
      · exact tracks_call h _ p
      · exact tracks_aside (aside_nameValue _ _)
    · exact tracks_failAbout _ _ _

theorem tracks_suffixed : c.Tracks quiet 0 0 (suffixed expression) := by
  refine (tracks_primary h).bind fun first => tracks_loop (fun e => ?_) _
  refine tracks_position.bind fun p => tracks_peek?.bind fun o => ?_
  split
  · refine tracks_skip.bind fun _ => h.bind fun index => (tracks_expectMark _).bind fun _ => ?_
    exact (tracks_aside (n := 0) (aside_indexed _ _ _)).bind fun _ => tracks_pure _
  · refine tracks_skip.bind fun _ => tracks_ident.bind fun n => ?_
    exact (tracks_aside (n := 0) (aside_selected _ _ _)).bind fun _ => tracks_pure _
  · exact tracks_pure _

end

theorem tracks_operandIn (room : Nat) : c.Tracks quiet 0 0 (operandIn room) := by
  induction room with
  | zero => exact tracks_signed tracks_tooDeep (tracks_suffixed tracks_tooDeep)
  | succ room ih => exact tracks_signed ih (tracks_suffixed (tracks_binary ih))

theorem tracks_expression (room : Nat) : c.Tracks quiet 0 0 (expression room) := by
  cases room with
  | zero => exact tracks_tooDeep
  | succ room => exact tracks_binary (tracks_operandIn room)

/-! ## Types and right sides -/

theorem tracks_arrayOf (ty : Ty) : c.Tracks quiet 0 0 (arrayOf ty) := by
  refine tracks_loop (fun ty => ?_) _
  refine (tracks_acceptMark _).bind fun b => ?_
  split
  · exact (tracks_expectMark _).bind fun _ => tracks_pure _
  · exact tracks_pure _

theorem tracks_fieldSpec {typeSpec : Parse Ty} (h : c.Tracks quiet 0 0 typeSpec)
    (before : List (String × Ty)) : c.Tracks quiet 0 0 (fieldSpec typeSpec before) := by
  refine h.bind fun ty => tracks_ident.bind fun n => ?_
  dsimp only
  split
  · exact (tracks_failAbout (n := 0) (m := 0) _ _ _).bind fun _ => tracks_pure _
  · exact tracks_pure _

theorem tracks_namedType : c.Tracks quiet 0 0 namedType := by
  refine tracks_ident.bind fun n => (tracks_aside (n := 0) (aside_lookup? _)).bind fun o => ?_
  split
  · exact tracks_pure _
  · exact tracks_failAbout _ _ _
  · exact tracks_failAbout _ _ _

theorem tracks_typeSpec (room : Nat) : c.Tracks quiet 0 0 (typeSpec room) := by
  induction room with
  | zero =>
    refine (tracks_acceptWord _).bind fun b => ?_
    split
    · exact (tracks_expectMark _).bind fun _ => tracks_tooDeep
    · exact tracks_namedType.bind fun ty => tracks_arrayOf ty
  | succ room ih =>
    refine (tracks_acceptWord _).bind fun b => ?_
    split
    · refine (tracks_expectMark _).bind fun _ => ?_
      refine (tracks_separatedAfter (tracks_fieldSpec ih)).bind fun fields => ?_
      exact (tracks_expectMark _).bind fun _ => tracks_arrayOf _
    · exact tracks_namedType.bind fun ty => tracks_arrayOf ty

theorem tracks_assigned (room : Nat) (target : Ty) (name : String) :
    c.Tracks quiet 0 0 (assigned room target name) := by
  refine tracks_position.bind fun p => (tracks_expression room).bind fun e => ?_
  split
  · exact tracks_pure _
  · exact tracks_failAbout _ _ _

theorem tracks_conditionFor (room : Nat) (construct : String) :
    c.Tracks quiet 0 0 (conditionFor room construct) := by
  refine tracks_position.bind fun p => (tracks_expression room).bind fun e => ?_
  split
  · exact tracks_pure _
  · exact tracks_failAbout _ _ _

theorem tracks_rhs (room : Nat) (target : Ty) (name : String) :
    c.Tracks quiet 0 0 (rhs room target name) := by
  have hassigned : c.Tracks quiet 0 0 (assigned room target name) :=
    tracks_assigned room target name
  refine tracks_peek?.bind fun o => ?_
  split
  · exact hassigned.bind fun _ => tracks_pure _
  · refine (tracks_loop (fun cases => ?_) _).bind fun cases => (tracks_acceptWord _).bind fun b => ?_
    · refine (tracks_acceptWord _).bind fun b => ?_
      split
      · refine (tracks_conditionFor room _).bind fun condition => ?_
        refine (tracks_expectMark _).bind fun _ => hassigned.bind fun value => tracks_pure _
      · exact tracks_pure _
    · split
      · exact hassigned.bind fun _ => tracks_pure _
      · exact tracks_pure _

/-! ## Declarations -/

/-- A stub has no identifier. -/
theorem identAt?_blunt (t : Token × Position) (ht : t.1.Blunt) : identAt? t = none := by
  obtain ⟨t, p⟩ := t
  cases t with
  | ident name => exact ht.elim
  | _ => rfl

/-- A stub has no mark that ends anything. -/
theorem only_blunt {m : Mark} (hm : m ≠ .dot ∧ m ≠ .assign) (t : Token × Position)
    (ht : t.1.Blunt) : only (.mark m) t = none := by
  unfold only
  split
  · next h =>
    rw [h] at ht
    rcases ht with ht | ht
    · exact absurd ht hm.1
    · exact absurd ht hm.2
  · rfl

/-- What the step declares it declares after the semicolon. -/
theorem tracks_semicolon {α : Type} {p : Parse α} (h : Aside False p) :
    c.Tracks False 1 1 (expectMark .semicolon >>= fun _ => p) :=
  (takes_expect _).bind (only_blunt ⟨nofun, nofun⟩) (fun _ => trails_aside h) (Nat.le_refl 1)

theorem tracks_declarator (room : Nat) (isShared : Bool) (ty : Ty) :
    c.Tracks False 0 0 (declarator room isShared ty) := by
  have hvalue (name : String) (p : Position) (slot : Nat) : c.Tracks False 0 0 (do
      if ← acceptMark .assign then
        return [Stmt.store slot [] (← rhs room ty name) p]
      else return []) := by
    refine (tracks_acceptMark _).bind fun b => ?_
    split
    · exact (tracks_rhs room ty name).bind fun _ => tracks_pure _
    · exact tracks_pure _
  refine takes_ident.bind identAt?_blunt (fun n => ?_) (Nat.zero_le 1)
  obtain ⟨name, p⟩ := n
  refine Trails.after (fun _ => ?_) (aside_checkFresh name p)
  have hdeclare : c.Trails False 0 0 (declareVariable isShared ty name) :=
    trails_aside (aside_declareVariable isShared ty name)
  exact hdeclare.andThen (hvalue name p) (Nat.le_refl 0) (Nat.le_refl 0) (Nat.le_refl 0)

theorem tracks_declaration (room : Nat) (isShared : Bool) :
    c.Tracks False 1 1 (declaration room isShared) := by
  refine (tracks_typeSpec room).bind fun ty => ?_
  refine (tracks_separated (tracks_declarator room isShared ty)).bind fun stores => ?_
  exact (tracks_expectMark _).close fun _ => tracks_pure _

theorem tracks_typedef (room : Nat) : c.Tracks False 1 1 (typedef room) := by
  refine tracks_skip.bind fun _ => tracks_ident.bind fun n => ?_
  obtain ⟨name, p⟩ := n
  refine (tracks_aside (n := 0) (aside_checkFresh name p)).bind fun _ => ?_
  refine (tracks_expectMark _).bind fun _ => (tracks_typeSpec room).bind fun ty => ?_
  exact tracks_semicolon (aside_declare _ _)

theorem tracks_constantTerm (start : Position) (negative : Bool) :
    c.Tracks quiet 0 0 (constantTerm start negative) := by
  refine tracks_next?.bind fun o => ?_
  split
  · exact (tracks_aside (n := 0) (aside_integer _ _)).bind fun _ => tracks_pure _
  · exact tracks_pure _
  · split
    · exact tracks_failAbout _ _ _
    · exact tracks_pure _
  · refine (tracks_aside (n := 0) (aside_lookup? _)).bind fun o => ?_
    split
    · split
      · split
        · exact tracks_pure _
        · exact tracks_pure _
        · exact tracks_failAbout _ _ _
      · exact tracks_pure _
    · exact tracks_failAbout _ _ _
  · exact tracks_failAbout _ _ _
  · exact tracks_failAbout _ _ _

theorem tracks_constantValue : c.Tracks quiet 0 0 constantValue :=
  tracks_position.bind fun start => (tracks_accept _).bind fun negative =>
    tracks_constantTerm start negative

theorem tracks_constant (room : Nat) : c.Tracks False 1 1 (constant room) := by
  refine tracks_skip.bind fun _ => (tracks_typeSpec room).bind fun ty => ?_
  refine tracks_ident.bind fun n => ?_
  obtain ⟨name, p⟩ := n
  refine (tracks_aside (n := 0) (aside_checkFresh name p)).bind fun _ => ?_
  refine (tracks_expectMark _).bind fun _ => tracks_position.bind fun q => ?_
  refine tracks_constantValue.bind fun v => ?_
  have hend (symbol : Symbol) : c.Tracks False 1 1 (do
      if !(ty.isBase && ty.assignable v.ty) then failAbout .assignmentMismatch name q
      expectMark .semicolon
      declare name symbol) := by
    have hdeclare := tracks_semicolon (c := c) (aside_declare name symbol)
    split
    · exact (tracks_failAbout (n := 0) (m := 0) _ _ _).bind fun _ => hdeclare
    · exact hdeclare
  exact hend _

/-! ## Imports -/

theorem tracks_importedName (before : List (String × Position)) :
    c.Tracks quiet 0 0 (importedName before) := by
  refine tracks_ident.bind fun n => ?_
  obtain ⟨name, p⟩ := n
  dsimp only
  split
  · exact (tracks_failAbout (n := 0) (m := 0) _ _ _).bind fun _ => tracks_pure _
  · exact tracks_pure _

theorem tracks_importNames : c.Tracks False 1 1 importNames := by
  refine tracks_skip.bind fun _ => (tracks_separatedAfter tracks_importedName).bind fun names => ?_
  refine (tracks_acceptWord _).bind fun b => ?_
  split
  · have hfrom : c.Tracks False 0 0 (some <$> ident) := by
      rw [map_eq_pure_bind]
      exact tracks_ident.bind fun _ => tracks_pure _
    exact hfrom.bind fun from? => tracks_semicolon (aside_importAll names from?)
  · exact tracks_semicolon (aside_importAll names none)

end Cut

end VectorScript
