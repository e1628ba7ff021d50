import VectorScript.Proofs.Compilation.Program
import VectorScript.Proofs.Grammar.Counted

/-!
# The limit measures nesting

Construct by construct, the reader that counts does what the reader does, whatever bound its
recursion has, as long as the bound and the constructs that are open exceed the limit together. So a
text is compiled just as it is counted: each loop goes on only after it has read a token, the
recursion is bounded, and that the nesting is too deep is found only where it is.

    Fits opened room n → Reads s opened (statement n) (Parse.statement room)      (reads_statement)
    maxNesting < n → s.count n source ends as s.compile source                      (count_compile)
-/

namespace VectorScript

namespace Counting

open Parse

variable {s : Surroundings} {opened : List Construct} {i : List (Token × Position)}
  {room n k : Nat}

/-! ## Levels and bounds -/

/-- As many levels are left as constructs may still be opened, and the bound of the recursion is not
reached before. -/
structure Fits (opened : List Construct) (room n : Nat) : Prop where
  left : opened.length + room = maxNesting
  bound : maxNesting < n + opened.length

theorem Fits.succ (h : Fits opened room n) : Fits opened room (n + 1) :=
  ⟨h.left, by have := h.bound; omega⟩

/-- A construct that is opened takes a level, and may take one from the bound. -/
theorem Fits.inside (h : Fits opened room (n + 1)) (hk : room = k + 1) (c : Construct) :
    Fits (c :: opened) k n where
  left := by
    have := h.left
    rw [List.length_cons]
    omega
  bound := by
    have := h.bound
    rw [List.length_cons]
    omega

/-- The recursion is bounded: if a step reads as it should whenever it does so in the constructs
inside, with a bound that is one less, then it reads as it should. -/
theorem reads_of_inside {α : Type} {q : Nat → Counting α} {p : Nat → Parse α}
    (h : ∀ {opened : List Construct} {room n : Nat}, Fits opened room (n + 1) →
      (∀ k, room = k + 1 → ∀ c, Reads s (c :: opened) (q n) (p k)) →
      Reads s opened (q (n + 1)) (p room))
    (hfit : Fits opened room n) : Reads s opened (q n) (p room) := by
  obtain ⟨m, rfl⟩ : ∃ m, n = m + 1 := by
    have := hfit.left
    have := hfit.bound
    exact ⟨n - 1, by omega⟩
  induction m generalizing opened room with
  | zero =>
    refine h hfit fun k hk c => ?_
    have := hfit.left
    have := hfit.bound
    omega
  | succ m ih => exact h hfit fun k hk c => ih (hfit.inside hk c)

/-! ## Expressions -/

section

variable {inner' bare' operand' expression' : Counting Typed}
  {inner bare operand expression : Parse Typed}

theorem reads_chain (h : Reads s opened operand' operand) (level : Nat) :
    Reads s opened (chain level operand') (Parse.chain level operand) := by
  refine fun i => (h i).bind fun first j _ hj =>
    counts_loop (fun _ k => k.length < i.length) (fun left k _ hk => ?_) hj
  refine counts_step plain_peek? fun o l hl _ => ?_
  have hend : l.length < i.length := Nat.lt_of_le_of_lt hl hk
  rcases o with _ | t
  · exact counts_last hend
  cases t with
  | operator sign =>
    dsimp only
    cases binaryOperation? level sign with
    | none => exact counts_last hend
    | some op =>
      refine counts_step plain_position fun q m hm _ => counts_step plain_skip fun _ n hn _ => ?_
      refine (h n).bind fun right t _ ht => ?_
      refine counts_step (plain_checkOperation _ _ _ _) fun _ u hu _ => ?_
      exact counts_next (by omega) (by omega)
  | _ => exact counts_last hend

theorem reads_binary (h : Reads s opened operand' operand) :
    Reads s opened (binary operand') (Parse.binary operand) := by
  unfold binary Parse.binary
  generalize binaryLevels = levels
  induction levels with
  | zero => exact h
  | succ levels ih => exact reads_chain ih _

theorem reads_signed (hinner : Reads s opened inner' inner) (hbare : Reads s opened bare' bare) :
    Reads s opened (signed inner' bare') (Parse.signed inner bare) := by
  refine fun i => counts_step plain_peek? fun o j _ ho => ?_
  obtain ⟨ho, rfl⟩ := ho
  cases hop : o.bind signToken? with
  | none => exact hbare j
  | some op =>
    obtain ⟨t, rfl, -⟩ := Option.bind_eq_some_iff.1 hop
    refine counts_step plain_position fun q k _ hk => counts_step plain_skip fun _ l _ hl => ?_
    have hread : l.length < j.length := by
      rw [hl, hk]
      exact length_tail_lt_of_head? ho.symm
    refine counts_step plain_peek? fun o m hm _ => ?_
    let applied (e : Typed) : Typed :=
      ⟨.unary op (Ty.pair? e.ty e.ty) e.expr, op.resultType e.ty e.ty⟩
    have hoperand : Counts s opened (do
          let e ← inner'
          checkOperation op e.ty e.ty q
          return applied e)
        (do
          let e ← inner
          checkOperation op e.ty e.ty q
          return applied e) m fun _ n => n.length < j.length :=
      (hinner m).bind fun e n _ hn =>
        counts_step (plain_checkOperation _ _ _ _) fun _ t ht _ => counts_pure (by omega)
    -- Only a minus sign looks further: with an integer after it no operand is read.
    cases op with
    | negate =>
      rcases o with _ | t
      · exact hoperand
      cases t with
      | integer n =>
        refine counts_step plain_position fun literal n hn _ => ?_
        refine counts_step plain_skip fun _ t ht _ => ?_
        exact counts_step (plain_integer _ _) fun _ u hu _ => counts_pure (by omega)
      | _ => exact hoperand
    | _ => exact hoperand

section

variable (h : Reads s opened expression' expression)

include h

theorem counts_components (q : Position) : Counts s opened (components expression' q)
    (Parse.components expression q) i fun _ _ => True := by
  refine (reads_separated h i).bind fun items j _ _ => ?_
  refine counts_step (plain_expectMark _) fun _ k _ _ => ?_
  match items with
  | [a, b, c, d] =>
    exact counts_ite (fun _ => counts_pure trivial) fun _ =>
      counts_ite (fun _ => counts_pure trivial) fun _ => counts_failAbout (by decide)
  | [] | [_] | [_, _] | [_, _, _] | _ :: _ :: _ :: _ :: _ :: _ =>
    exact counts_failAbout (by decide)

theorem counts_listLiteral : Counts s opened (listLiteral expression')
    (Parse.listLiteral expression) i fun _ _ => True := by
  refine counts_step (plain_acceptMark _) fun r j _ _ =>
    counts_ite (fun _ => counts_pure trivial) fun _ => ?_
  refine (reads_separated h j).bind fun items k _ _ => ?_
  exact counts_step (plain_expectMark _) fun _ _ _ _ => counts_pure trivial

theorem counts_arguments : Counts s opened (arguments expression') (Parse.arguments expression) i
    fun _ _ => True := by
  have hargument : Reads s opened (argument expression') (do
      let p ← position
      return (← expression, p)) := fun i =>
    counts_step plain_position fun q j hj _ => (h j).bind fun e k _ hk =>
      counts_pure (Nat.lt_of_lt_of_le hk hj)
  refine counts_step (plain_expectMark _) fun _ j _ _ => ?_
  refine counts_step (plain_acceptMark _) fun r k _ _ =>
    counts_ite (fun _ => counts_pure trivial) fun _ => ?_
  refine (reads_separated hargument k).bind fun args l _ _ => ?_
  exact counts_step (plain_expectMark _) fun _ _ _ _ => counts_pure trivial

theorem counts_call (name : String) (q : Position) : Counts s opened (call expression' name q)
    (Parse.call expression name q) i fun _ _ => True := by
  refine counts_step (plain_lookup? name) fun o j _ _ => ?_
  rcases o with _ | symbol
  · exact counts_failAbout (by decide)
  cases symbol with
  | function index f =>
    refine (counts_arguments h).bind fun args k _ _ =>
      counts_ite (fun _ => counts_failAbout_bind (by decide)) fun _ => ?_
    refine counts_step (plain_checkArguments _ _ _) fun _ l _ _ => ?_
    exact counts_step (plain_noteSubscript _ _) fun _ _ _ _ => counts_pure trivial
  | _ => exact counts_failAbout (by decide)

theorem reads_primary : Reads s opened (primary expression') (Parse.primary expression) := by
  refine fun i => counts_step plain_position fun q j hj _ => ?_
  refine counts_step plain_next? fun o k _ ho => ?_
  rcases ho with rfl | hread
  · exact counts_failAbout (by decide)
  -- the first token has been read, so the rest may read none
  suffices hrest : Counts s opened _ _ k fun _ _ => True from
    hrest.mono fun _ l hl _ => by omega
  rcases o with _ | ⟨token, place⟩
  · exact counts_failAbout (by decide)
  cases token with
  | integer n => exact counts_step (plain_integer _ _) fun _ _ _ _ => counts_pure trivial
  | real | text => exact counts_pure trivial
  | mark m =>
    cases m with
    | leftParen =>
      exact (h k).bind fun e _ _ _ =>
        counts_step (plain_expectMark _) fun _ _ _ _ => counts_pure trivial
    | leftBracket => exact counts_components h q
    | leftBrace => exact counts_listLiteral h
    | _ => exact counts_failAbout (by decide)
  | ident name =>
    exact counts_step plain_peek? fun o _ _ _ => counts_ite (fun _ => counts_call h _ q)
      fun _ => counts_lift (plain_nameValue _ q)
  | _ => exact counts_failAbout (by decide)

theorem reads_suffixed : Reads s opened (suffixed expression') (Parse.suffixed expression) := by
  refine fun i => (reads_primary h i).bind fun first j _ hj =>
    counts_loop (fun _ k => k.length < i.length) (fun e k _ hk => ?_) hj
  refine counts_step plain_position fun q l hl _ => counts_step plain_peek? fun o m hm _ => ?_
  have hend : m.length < i.length := by omega
  rcases o with _ | t
  · exact counts_last hend
  cases t with
  | mark mark =>
    cases mark with
    | leftBracket =>
      refine counts_step plain_skip fun _ n hn _ => (h n).bind fun index t _ ht => ?_
      refine counts_step (plain_expectMark _) fun _ u hu _ => ?_
      refine counts_step (plain_indexed _ _ _) fun _ v hv _ => ?_
      exact counts_next (by omega) (by omega)
    | dot =>
      refine counts_step plain_skip fun _ n hn _ => counts_step plain_ident fun name t _ ht => ?_
      refine counts_step (plain_selected _ _ _) fun _ u hu _ => ?_
      exact counts_next (by omega) (by omega)
    | _ => exact counts_last hend
  | _ => exact counts_last hend

end

end

/-! ### Constructs within operands -/

theorem operandIn_eq (room : Nat) : operandIn room = Parse.signed (deeper room operandIn)
    (Parse.suffixed (deeper room fun k => Parse.binary (operandIn k))) := by
  cases room <;> rfl

theorem expression_eq (room : Nat) :
    Parse.expression room = deeper room fun k => Parse.binary (operandIn k) := by
  cases room <;> rfl

/-- What is inside an operand is the operand of a sign, or an expression. -/
theorem reads_operand : Fits opened room n → Reads s opened (operand n) (operandIn room) := by
  refine reads_of_inside fun hfit h => ?_
  rw [operandIn_eq]
  refine reads_signed (fun i => counts_nested hfit.left fun k hk => h k hk _ i) (reads_suffixed ?_)
  exact fun i => counts_nested hfit.left fun k hk => reads_binary (h k hk _) i

theorem reads_expression (hfit : Fits opened room n) :
    Reads s opened (expression n) (Parse.expression room) := by
  rw [expression_eq]
  exact fun i => counts_nested hfit.left fun k hk =>
    reads_binary (reads_operand (hfit.succ.inside hk _)) i

/-! ## Declarations -/

theorem counts_arrayOf (ty : Ty) :
    Counts s opened (arrayOf ty) (Parse.arrayOf ty) i fun _ _ => True := by
  refine counts_loop (fun _ _ => True) (fun ty j _ _ => ?_) trivial
  refine counts_step (plain_acceptMark _) fun r k hk hr => counts_ite (fun htrue => ?_) fun _ => ?_
  · refine counts_step (plain_expectMark _) fun _ l hl _ => ?_
    exact counts_next (by omega) trivial
  · exact counts_last trivial

theorem reads_fieldSpec {typeSpec' : Counting Ty} {typeSpec : Parse Ty}
    (h : Reads s opened typeSpec' typeSpec) (before : List (String × Ty)) :
    Reads s opened (fieldSpec typeSpec' before) (Parse.fieldSpec typeSpec before) := by
  refine fun i => (h i).bind fun ty j _ hj => counts_step plain_ident fun name k hk _ => ?_
  obtain ⟨name, place⟩ := name
  exact counts_ite (fun _ => counts_failAbout_bind (by decide)) fun _ => counts_pure (by omega)

theorem tooDeep_bind {α β : Type} (f : α → Parse β) : (tooDeep >>= f) = tooDeep := by
  funext s d
  show EStateM.bind (tooDeep s) (fun a => f a s) d = _
  unfold EStateM.bind
  rw [tooDeep_run, tooDeep_run]

/-- A type, with what reads the fields of a record taken together. -/
theorem typeSpec_eq (room : Nat) : Parse.typeSpec room = (do
    if ← acceptWord .recordWord then
      expectMark .leftParen
      let fields ← deeper room fun k => do
        let fields ← Parse.separatedAfter (Parse.fieldSpec (Parse.typeSpec k))
        expectMark .rightParen
        return fields
      Parse.arrayOf (.record fields)
    else Parse.arrayOf (← namedType)) := by
  cases room with
  | zero => simp only [Parse.typeSpec, deeper, tooDeep_bind]
  | succ room => simp only [Parse.typeSpec, deeper, bind_assoc, pure_bind]

/-- What is inside a type is the types of the fields of a record. -/
theorem reads_typeSpec :
    Fits opened room n → Reads s opened (typeSpec n) (Parse.typeSpec room) := by
  refine reads_of_inside fun {opened room n} hfit h => ?_
  rw [typeSpec_eq]
  refine fun i => counts_step (plain_acceptWord _) fun r j _ hj =>
    counts_ite (fun hr => ?_) fun _ => ?_
  · refine counts_step (plain_expectMark _) fun _ k hk _ => ?_
    have hfields : Counts s opened (nested .recordType (fieldSpecs (typeSpec n)))
        (deeper room fun k => do
          let fields ← Parse.separatedAfter (Parse.fieldSpec (Parse.typeSpec k))
          expectMark .rightParen
          return fields) k fun _ _ => True :=
      counts_nested hfit.left fun m hm =>
        (reads_separatedAfter (reads_fieldSpec (h m hm _)) k).bind fun fields l _ _ =>
          counts_step (plain_expectMark _) fun _ _ _ _ => counts_pure trivial
    exact hfields.bind fun fields l _ _ => (counts_arrayOf _).mono fun _ m hm _ => by omega
  · refine counts_step plain_namedType fun ty k _ hk => ?_
    exact (counts_arrayOf ty).mono fun _ l hl _ => Nat.lt_of_le_of_lt hl (by omega)

section

variable (hfit : Fits opened room n)

include hfit

theorem reads_assigned (target : Ty) (name : String) :
    Reads s opened (assigned n target name) (Parse.assigned room target name) := fun _ =>
  counts_step plain_position fun q j hj _ => (reads_expression hfit j).bind fun e k _ hk =>
    counts_ite (fun _ => counts_pure (Nat.lt_of_lt_of_le hk hj)) fun _ =>
      counts_failAbout (by decide)

theorem reads_conditionFor (construct : String) :
    Reads s opened (conditionFor n construct) (Parse.conditionFor room construct) := fun _ =>
  counts_step plain_position fun q j hj _ => (reads_expression hfit j).bind fun e k _ hk =>
    counts_ite (fun _ => counts_pure (Nat.lt_of_lt_of_le hk hj)) fun _ =>
      counts_failAbout (by decide)

theorem counts_rhs (target : Ty) (name : String) :
    Counts s opened (rhs n target name) (Parse.rhs room target name) i fun _ _ => True := by
  refine counts_step plain_peek? fun o j _ _ => counts_ite (fun _ => ?_) fun _ => ?_
  · exact (reads_assigned hfit target name j).bind fun _ _ _ _ => counts_pure trivial
  · refine Counts.bind (P := fun _ _ => True) (counts_loop (fun _ _ => True) (fun cases k _ _ => ?_)
      trivial) fun cases k _ _ => ?_
    · refine counts_step (plain_acceptWord _) fun r l hl _ => counts_ite (fun _ => ?_) fun _ => ?_
      · refine (reads_conditionFor hfit "when" l).bind fun condition m _ hm => ?_
        refine counts_step (plain_expectMark _) fun _ u hu _ => ?_
        refine (reads_assigned hfit target name u).bind fun value v _ hv => ?_
        exact counts_next (by omega) trivial
      · exact counts_last trivial
    · refine counts_step (plain_acceptWord _) fun r l _ _ => counts_ite (fun _ => ?_) fun _ => ?_
      · exact (reads_assigned hfit target name l).bind fun _ _ _ _ => counts_pure trivial
      · exact counts_pure trivial

theorem reads_declarator (isShared : Bool) (ty : Ty) : Reads s opened
    (declarator n isShared ty) (Parse.declarator room isShared ty) := by
  refine fun i => counts_step plain_ident fun name j _ hj => ?_
  obtain ⟨name, place⟩ := name
  refine counts_step (plain_checkFresh _ _) fun _ k hk _ => ?_
  refine counts_step (plain_declareVariable _ _ _) fun slot l hl _ => ?_
  refine counts_step (plain_acceptMark _) fun r m hm _ => counts_ite (fun _ => ?_) fun _ => ?_
  · exact (counts_rhs hfit ty name).bind fun value u hu _ => counts_pure (by omega)
  · exact counts_pure (by omega)

theorem reads_declaration (isShared : Bool) : Reads s opened (declaration n isShared)
    (Parse.declaration room isShared) := fun i =>
  (reads_typeSpec hfit i).bind fun ty j _ hj =>
    (reads_separated (reads_declarator hfit isShared ty) j).bind fun stores k hk _ =>
      counts_step (plain_expectMark _) fun _ l hl _ => counts_pure (by omega)

theorem reads_typedef : Reads s opened (typedef n) (Parse.typedef room) := by
  refine fun i => counts_step plain_skip fun _ j hj _ => ?_
  refine counts_step plain_ident fun name k _ hk => ?_
  obtain ⟨name, place⟩ := name
  refine counts_step (plain_checkFresh _ _) fun _ l hl _ => ?_
  refine counts_step (plain_expectMark _) fun _ m hm _ => ?_
  refine (reads_typeSpec hfit m).bind fun ty u hu _ => ?_
  refine counts_step (plain_expectMark _) fun _ v hv _ => ?_
  exact (counts_lift (plain_declare _ _)).mono fun _ w hw _ => by omega

theorem reads_constant : Reads s opened (constant n) (Parse.constant room) := by
  refine fun i => counts_step plain_skip fun _ j hj _ => (reads_typeSpec hfit j).bind
    fun ty k hk _ => counts_step plain_ident fun name l _ hl => ?_
  obtain ⟨name, place⟩ := name
  refine counts_step (plain_checkFresh _ _) fun _ m hm _ => ?_
  refine counts_step (plain_expectMark _) fun _ u hu _ => ?_
  refine counts_step plain_position fun q v hv _ => ?_
  refine counts_step plain_constantValue fun x w hw _ => ?_
  refine counts_ite (fun _ => counts_failAbout_bind (by decide)) fun _ => ?_
  refine counts_step (plain_expectMark _) fun _ y hy _ => ?_
  exact (counts_lift (plain_declare _ _)).mono fun _ z hz _ => by omega

end

theorem importNames_eq : Parse.importNames = (do
    skip
    let names ← Parse.separatedAfter importedName
    let from? ← if ← acceptWord .fromWord then some <$> ident else pure none
    expectMark .semicolon
    bindImports names from?) := rfl

theorem reads_importNames : Reads s opened importNames Parse.importNames := by
  rw [importNames_eq]
  have himported : ∀ before, Reads s opened (lift (importedName before)) (importedName before) :=
    fun before _ => counts_lift (plain_importedName before)
  refine fun i => counts_step plain_skip fun _ j hj _ =>
    (reads_separatedAfter himported j).bind fun names k _ hk => ?_
  refine counts_step (plain_acceptWord _) fun r l hl _ => ?_
  have hlast : ∀ (from? : Option (String × Position)) m, m.length ≤ l.length →
      Counts s opened (lift (expectMark .semicolon) >>= fun _ => lift (bindImports names from?))
        (expectMark .semicolon >>= fun _ => bindImports names from?) m
        fun _ u => u.length < i.length :=
    fun from? m hm => counts_step (plain_expectMark _) fun _ u hu _ =>
      (counts_lift (plain_bindImports names from?)).mono fun _ v hv _ => by
        have := List.length_tail (l := i)
        omega
  refine counts_ite (fun _ => ?_) fun _ => ?_
  · rw [bind_map_left, bind_map_left]
    exact counts_step plain_ident fun script m hm _ => hlast (some script) m hm
  · exact hlast none l (Nat.le_refl _)

/-! ## Statements -/

section

variable (hfit : Fits opened room n)

include hfit

theorem counts_assignmentPath (name : String) (ty : Ty) :
    Counts s opened (assignmentPath n name ty) (Parse.assignmentPath room name ty) i
      fun _ _ => True := by
  refine counts_loop (fun _ _ => True) (fun state j _ _ => ?_) trivial
  obtain ⟨path, ty⟩ := state
  refine counts_step plain_position fun q k hk _ => counts_step plain_peek? fun o l hl _ => ?_
  rcases o with _ | t
  · exact counts_last trivial
  cases t with
  | mark mark =>
    cases mark with
    | leftBracket =>
      refine counts_step plain_skip fun _ m hm _ => ?_
      refine (reads_conditionFor hfit "[]" m).bind fun index u _ hu => ?_
      refine counts_step (plain_expectMark _) fun _ v hv _ => ?_
      cases ty.element? with
      | none => exact counts_failAbout (by decide)
      | some elem => exact counts_next (by omega) trivial
    | dot =>
      refine counts_step plain_skip fun _ m hm _ => counts_step plain_ident fun field u _ hu => ?_
      obtain ⟨field, place⟩ := field
      dsimp only
      cases ty.field? field with
      | none => exact counts_failAbout (by decide)
      | some found => exact counts_next (by omega) trivial
    | _ => exact counts_last trivial
  | _ => exact counts_last trivial

theorem reads_assignment : Reads s opened (assignment n) (Parse.assignment room) := by
  refine fun i => counts_step plain_ident fun name j _ hj => ?_
  obtain ⟨name, place⟩ := name
  refine counts_step (plain_lookup? _) fun o k hk _ => ?_
  rcases o with _ | symbol
  · exact counts_failAbout (by decide)
  cases symbol with
  | var v =>
    refine counts_ite (fun _ => counts_failAbout_bind (by decide)) fun _ => ?_
    refine (counts_assignmentPath hfit name v.ty).bind fun path l hl _ => ?_
    refine counts_step (plain_expectMark _) fun _ m hm _ => ?_
    refine (counts_rhs hfit _ name).bind fun value u hu _ => ?_
    exact counts_step (plain_expectMark _) fun _ v hv _ => counts_pure (by omega)
  | _ => exact counts_failAbout (by decide)

theorem reads_expressionStatement :
    Reads s opened (expressionStatement n) (Parse.expressionStatement room) := fun _ =>
  counts_step plain_position fun q j hj _ => (reads_expression hfit j).bind fun e k _ hk =>
    counts_step (plain_expectMark _) fun _ l hl _ =>
      counts_ite (fun _ => counts_pure (by omega)) fun _ => counts_pure (by omega)

theorem reads_namedStatement (name : String) :
    Reads s opened (namedStatement n name) (Parse.namedStatement room name) := by
  have hassignment : Reads s opened (do return [← assignment n])
      (do return [← Parse.assignment room]) := fun i =>
    (reads_assignment hfit i).bind fun _ _ _ hj => counts_pure hj
  have hexpression : Reads s opened (do return [← expressionStatement n])
      (do return [← Parse.expressionStatement room]) := fun i =>
    (reads_expressionStatement hfit i).bind fun _ _ _ hj => counts_pure hj
  refine fun i => counts_get fun r _ => counts_step (plain_lookup? name) fun o j hj _ => ?_
  have hread : ∀ {q : Counting (List Stmt)} {p : Parse (List Stmt)}, Reads s opened q p →
      Counts s opened q p j fun _ k => k.length < i.length :=
    fun h => (h j).mono fun _ k _ hk => Nat.lt_of_lt_of_le hk hj
  have hstore := counts_ite (c := assignmentFollows 0 (r.draft.tokens.drop 1) = true)
    (fun _ => hread hassignment) fun _ => hread hexpression
  rcases o with _ | symbol
  · exact hstore
  cases symbol with
  | typedef ty => exact hread (reads_declaration hfit false)
  | var v => exact hstore
  | _ => exact hread hexpression

end

/-! ## Blocks and conditionals -/

theorem block_eq (room : Nat) : Parse.block (inner room) = (do
    expectMark .leftBrace
    deeper room fun k => do
      let parts ← Parse.loop [] fun parts => do
        match ← peek? with
        | some (.mark .rightBrace) => return .inr parts.reverse
        | none => unexpected (Token.mark .rightBrace).render
        | some _ => return .inl ((← Parse.statement k) :: parts)
      expectMark .rightBrace
      return parts.flatten) := by
  cases room <;> rfl

theorem conditional_eq (room' room : Nat) : Parse.conditional room' (inner room) = (do
    let p ← position
    skip
    expectMark .leftParen
    let condition ← Parse.conditionFor room' "if"
    expectMark .rightParen
    deeper room fun k => do
      let body ← Parse.statement k
      let elsePosition ← position
      if ← acceptWord .elseWord then
        return .ifElse condition p body elsePosition (← Parse.statement k)
      else return .ifThen condition p body) := by
  cases room <;> rfl

section

variable {inner' : Counting (List Stmt)} (hfit : Fits opened room n)
  (h : ∀ k, room = k + 1 → ∀ c, Reads s (c :: opened) inner' (Parse.statement k))

include hfit h

theorem reads_block : Reads s opened (block inner') (Parse.block (inner room)) := by
  rw [block_eq]
  refine fun i => counts_step (plain_expectMark _) fun _ j hj _ => ?_
  refine (counts_nested (P := fun _ _ => True) hfit.left fun k hk => ?_).mono fun _ k hk _ => by
    omega
  refine Counts.bind (P := fun _ _ => True) (counts_loop (fun _ _ => True) (fun parts l _ _ => ?_)
    trivial) fun parts l _ _ => counts_step (plain_expectMark _) fun _ _ _ _ => counts_pure trivial
  refine counts_step plain_peek? fun o m hm _ => ?_
  have hgo : Counts s (.block :: opened) (do return .inl ((← inner') :: parts))
      (do return .inl ((← Parse.statement k) :: parts)) m
      (Round (fun (_ : List (List Stmt)) _ => True) (fun (_ : List (List Stmt)) _ => True) l) :=
    (h k hk _ m).bind fun body u _ hu => counts_next (by omega) trivial
  rcases o with _ | t
  · exact counts_lift (plain_unexpected _)
  cases t with
  | mark mark =>
    cases mark with
    | rightBrace => exact counts_last trivial
    | _ => exact hgo
  | _ => exact hgo

theorem reads_conditional :
    Reads s opened (conditional n inner') (Parse.conditional room (inner room)) := by
  rw [conditional_eq]
  refine fun i => counts_step plain_position fun p j hj _ => ?_
  refine counts_step plain_skip fun _ k hk _ => ?_
  refine counts_step (plain_expectMark _) fun _ l hl _ => ?_
  refine (reads_conditionFor hfit "if" l).bind fun condition m _ hm => ?_
  refine counts_step (plain_expectMark _) fun _ u hu _ => ?_
  refine (counts_nested (P := fun _ _ => True) hfit.left fun r hr => ?_).mono fun _ v hv _ => by
    omega
  refine (h r hr _ u).bind fun body v _ _ => counts_step plain_position fun q w _ _ => ?_
  refine counts_step (plain_acceptWord _) fun b x _ _ => counts_ite (fun _ => ?_) fun _ => ?_
  · exact (h r hr _ x).bind fun other _ _ _ => counts_pure trivial
  · exact counts_pure trivial

theorem reads_statementWith :
    Reads s opened (statementWith n inner') (Parse.statementWith room (inner room)) := by
  refine fun i => counts_step plain_peek? fun o j _ ho => ?_
  obtain ⟨ho, rfl⟩ := ho
  have hexpression : Reads s opened (do return [← expressionStatement n])
      (do return [← Parse.expressionStatement room]) := fun i =>
    (reads_expressionStatement hfit i).bind fun _ _ _ hj => counts_pure hj
  rcases o with _ | t
  · exact counts_lift (plain_unexpected _)
  have hskip := length_tail_lt_of_head? ho.symm
  cases t with
  | mark mark =>
    cases mark with
    | semicolon => exact counts_step plain_skip fun _ k _ hk => counts_pure (hk ▸ hskip)
    | leftBrace => exact reads_block hfit h j
    | _ => exact hexpression j
  | word w =>
    cases w with
    | sharedWord =>
      exact counts_step plain_skip fun _ k hk _ => (reads_declaration hfit true k).mono
        fun _ l _ hl => Nat.lt_of_lt_of_le hl hk
    | recordWord => exact reads_declaration hfit false j
    | typeWord => exact (reads_typedef hfit j).bind fun _ _ _ hk => counts_pure hk
    | constWord => exact (reads_constant hfit j).bind fun _ _ _ hk => counts_pure hk
    | importWord => exact (reads_importNames j).bind fun _ _ _ hk => counts_pure hk
    | ifWord => exact (reads_conditional hfit h j).bind fun _ _ _ hk => counts_pure hk
    | _ => exact hexpression j
  | ident name => exact reads_namedStatement hfit name j
  | _ => exact hexpression j

end

theorem statement_eq (room : Nat) :
    Parse.statement room = Parse.statementWith room (inner room) := by
  cases room <;> rfl

/-- What is inside a statement is the statements of a block, or a body. -/
theorem reads_statement :
    Fits opened room n → Reads s opened (statement n) (Parse.statement room) := by
  refine reads_of_inside fun hfit h => ?_
  rw [statement_eq]
  exact reads_statementWith hfit h

/-! ## Whole texts -/

theorem counts_script {n : Nat} (hn : maxNesting < n) :
    Counts s [] (script n) Parse.script i fun _ _ => True := by
  refine Counts.bind (P := fun _ _ => True) (counts_loop (fun _ _ => True)
    (fun parts j _ _ => ?_) trivial) fun parts j _ _ => counts_pure trivial
  refine counts_step plain_peek? fun o k hk _ => ?_
  refine counts_ite (fun _ => counts_last trivial) fun _ => ?_
  refine (reads_statement ⟨Nat.zero_add _, hn⟩ k).bind fun body l _ hl => ?_
  exact counts_next (by omega) trivial

/-- Wherever no more constructs are open than may be, and whatever bound the recursion has if the
two together exceed the limit: the counting step ends as the other does where so many levels are
left. After a result the same constructs are open as before, and a token or more has been read. -/
def Faithful {α : Type} (q : Nat → Counting α) (p : Nat → Parse α) : Prop :=
  ∀ (s : Surroundings) (r : Reading) (n : Nat), r.deepest ≤ maxNesting →
    maxNesting < n + r.opened.length → r.draft.tokens.length < s.rounds →
    match q n s r with
    | .ok a r' => p (maxNesting - r.opened.length) s r.draft = .ok a r'.draft ∧
      r'.opened = r.opened ∧ r'.deepest ≤ maxNesting ∧ r'.draft.tokens <:+ r.draft.tokens ∧
      r'.draft.tokens.length < r.draft.tokens.length
    | .error x r' => ∃ e, x = .fault e ∧
      p (maxNesting - r.opened.length) s r.draft = .error e r'.draft ∧
      r.opened <:+ r'.opened ∧ Measured s e r'

theorem faithful_of_reads {α : Type} {q : Nat → Counting α} {p : Nat → Parse α}
    (h : ∀ (s : Surroundings) (opened : List Construct) (room n : Nat),
      Fits opened room n → Reads s opened (q n) (p room)) : Faithful q p := by
  intro s r n hdeepest hn hrounds
  have hleft : r.opened.length + (maxNesting - r.opened.length) = maxNesting :=
    Nat.add_sub_cancel' (Nat.le_trans r.bound hdeepest)
  have h := h s r.opened _ n ⟨hleft, hn⟩ _ r rfl rfl hdeepest hrounds
  generalize q n s r = x, p (maxNesting - r.opened.length) s r.draft = y at h ⊢
  cases h with
  | ok hopened hdeepest htokens hlt => exact ⟨rfl, hopened, hdeepest, htokens, hlt⟩
  | error hopened he => exact ⟨_, rfl, rfl, hopened, he⟩

end Counting

namespace Setting

open Counting

/-- A text is compiled, or has a fault, just as it is counted, whatever bound above the limit the
recursion has. -/
theorem count_compile (s : Setting) (source : String) {n : Nat} (hn : maxNesting < n) :
    (∃ body r p, s.count n source = .ok body r ∧ (s.compile source).1 = .ok p ∧
      r.opened = [] ∧ r.deepest ≤ maxNesting) ∨
    ∃ e r, s.count n source = .error (.fault e) r ∧ (s.compile source).1 = .error e ∧
      Measured (s.surroundings source (Lexer.tokens source)) e r := by
  have h : Ends (s.surroundings source (Lexer.tokens source)) [] (Lexer.tokens source)
      (fun _ _ => True) (s.count n source) (s.parse Parse.script source) :=
    counts_script hn _ rfl rfl (Nat.zero_le _) (Nat.lt_succ_self _)
  unfold compile
  generalize s.count n source = x, s.parse Parse.script source = y at h ⊢
  cases h with
  | @ok body r hopened hdeepest =>
    obtain ⟨statements, hstatements⟩ := Stmt.exists_flattenAll body
    refine .inl ⟨body, r, r.draft.program s.globals statements, rfl, ?_, hopened, hdeepest⟩
    dsimp only
    rw [hstatements]
    rfl
  | @error e r _ he => exact .inr ⟨e, r, rfl, rfl, he⟩

/-- Compilation ends, its recursion is bounded, and the limit measures nesting only. Each text
compiles or has a fault of its own, as the reader that counts finds with any bound above the limit:
its loops go on only after rounds that have read a token, and its recursion only within constructs
that are entered. After a text that compiles nothing is open, and there have never been more open
than the limit; that the nesting is too deep is found just when one more is. The constructs are
counted wherever they stand, and a statement reads a token or more. -/
theorem nesting_counted (s : Setting) (source : String) {n : Nat} (hn : maxNesting < n) :
    ((∃ body r p, s.count n source = .ok body r ∧ (s.compile source).1 = .ok p ∧
        r.opened = [] ∧ r.deepest ≤ maxNesting) ∨
      ∃ e r, s.count n source = .error (.fault e) r ∧ (s.compile source).1 = .error e ∧
        e ≠ .internal "no progress" ∧ Measured (s.surroundings source (Lexer.tokens source)) e r) ∧
    (Faithful statement Parse.statement ∧
      Faithful (fun n => block (statement n)) (fun room => Parse.block (Parse.inner room)) ∧
      Faithful (fun n => conditional n (statement n))
        (fun room => Parse.conditional room (Parse.inner room)) ∧
      Faithful typeSpec Parse.typeSpec ∧ Faithful expression Parse.expression ∧
      Faithful operand Parse.operandIn) ∧
    ∀ (σ : Surroundings) (d : Draft) (room : Nat) body d', room ≤ maxNesting →
      d.tokens.length < σ.rounds → Parse.statement room σ d = .ok body d' →
      d'.tokens <:+ d.tokens ∧ d'.tokens.length < d.tokens.length := by
  have hinside : ∀ {σ : Surroundings} {opened : List Construct} {room n : Nat},
      Fits opened room n → ∀ k, room = k + 1 → ∀ c,
        Reads σ (c :: opened) (statement n) (Parse.statement k) :=
    fun hfit k hk c => reads_statement (hfit.succ.inside hk c)
  have hstatement : Faithful statement Parse.statement :=
    faithful_of_reads fun _ _ _ _ => reads_statement
  refine ⟨?_, ⟨hstatement, ?_, ?_, ?_, ?_, ?_⟩, ?_⟩
  · refine (s.count_compile source hn).imp_right fun ⟨e, r, hcount, hcompile, he⟩ => ?_
    refine ⟨e, r, hcount, hcompile, ?_, he⟩
    rintro rfl
    exact Bool.noConfusion he.located
  · exact faithful_of_reads fun _ _ _ _ hfit => reads_block hfit (hinside hfit)
  · exact faithful_of_reads fun _ _ _ _ hfit => reads_conditional hfit (hinside hfit)
  · exact faithful_of_reads fun _ _ _ _ => reads_typeSpec
  · exact faithful_of_reads fun _ _ _ _ => reads_expression
  · exact faithful_of_reads fun _ _ _ _ => reads_operand
  -- As many constructs are taken to be open as the room leaves out of the limit.
  · intro σ d room body d' hroom hrounds hrun
    have hopened : (List.replicate (maxNesting - room) Construct.block).length + room =
        maxNesting := by
      rw [List.length_replicate]
      exact Nat.sub_add_cancel hroom
    have hreads := reads_statement (s := σ) (n := maxNesting + 1) ⟨hopened, by omega⟩
    exact hreads.shorter (by omega) hrounds hrun

/-- A setting without names, other scripts and shared variables. -/
def bare : Setting := ⟨"a", .empty, .empty, .empty⟩

/-- The cause of the fault that a text has, if it has one. -/
def refusal? (s : Setting) (source : String) : Option Cause :=
  match (s.compile source).1 with
  | .ok _ => none
  | .error e => some e.cause

/-- A number with so many exclamation marks before it. -/
def negated (signs : Nat) : String := String.ofList (List.replicate signs '!') ++ "1;"

/-- With the expression that they are in, 63 operands of signs are as many constructs as may be
open, and 64 are one more. -/
theorem nesting_counted_negated : maxNesting < maxNesting + 1 ∧
    (∃ body r, bare.count (maxNesting + 1) (negated 63) = .ok body r ∧ r.opened = [] ∧
      r.deepest ≤ maxNesting) ∧
    ∃ e r, bare.count (maxNesting + 1) (negated 64) = .error (.fault e) r ∧ e.cause = .tooDeep ∧
      r.opened.length = maxNesting + 1 := by
  have hok : bare.refusal? (negated 63) = none := by decide +kernel
  have hdeep : bare.refusal? (negated 64) = some .tooDeep := by decide +kernel
  unfold refusal? at hok hdeep
  refine ⟨Nat.lt_succ_self _, ?_, ?_⟩
  · rcases (nesting_counted bare (negated 63) (Nat.lt_succ_self maxNesting)).1 with
      ⟨body, r, p, hcount, -, hopened, hdeepest⟩ | ⟨e, r, -, hcompile, -⟩
    · exact ⟨body, r, hcount, hopened, hdeepest⟩
    · rw [hcompile] at hok
      cases hok
  · rcases (nesting_counted bare (negated 64) (Nat.lt_succ_self maxNesting)).1 with
      ⟨body, r, p, -, hcompile, -⟩ | ⟨e, r, hcount, hcompile, -, he⟩
    · rw [hcompile] at hdeep
      cases hdeep
    · rw [hcompile] at hdeep
      have hcause : e.cause = .tooDeep := Option.some.inj hdeep
      exact ⟨e, r, hcount, hcause, (he.tooDeep hcause).1⟩

end Setting

end VectorScript
