import VectorScript.Grammar.Script
import VectorScript.Proofs.Grammar.Declaration

/-!
# Whole scripts

Every statement that is read is well typed in the scope of the draft that it leaves, and the
draft stays in order, so a text that compiles gives a program in order. A text that does not compile
has only added entries that nobody refers to.

    s.Ok → match s.parse Parse.script source with
      | .ok body d => d.Ok … ∧ Stmt.AllOk (d.scope …) body
      | .error _ d => SharedTable.Extends s.name s.table d.table               (Setting.parse_script)
-/

namespace VectorScript

namespace Parse

variable {s : Surroundings} {t : SharedTable} {d : Draft} {Γ : Scope}

/-! ## Assignments -/

theorem reads_assignmentPath (h : Agree s d Γ) (room : Nat) (name : String) (ty : Ty) :
    Reads s d (assignmentPath room name ty) fun r => Expr.Path Γ ty r.1 r.2 := by
  refine reads_loop (fun r => Expr.Path Γ ty r.1.reverse r.2) (fun r hr => ?_) (.here ty)
  obtain ⟨path, ty'⟩ := r
  refine reads_position.bind fun p _ => reads_peek?.bind fun o _ => ?_
  split
  · refine reads_skip.bind fun _ _ => (reads_conditionFor h room _).bind fun index hi => ?_
    refine (reads_expectMark _).bind fun _ _ => ?_
    split
    · next elem helem =>
      refine reads_pure ?_
      show Expr.Path Γ ty (index :: path).reverse elem
      rw [List.reverse_cons]
      exact hr.append (.index hi helem (.here elem))
    · exact reads_failAbout _ _ _
  · refine reads_skip.bind fun _ _ => reads_ident.bind fun n _ => ?_
    obtain ⟨field, q⟩ := n
    dsimp only
    split
    · next place u hf =>
      obtain ⟨fields, hrec, hplace⟩ := Ty.eq_record_of_field? hf
      refine reads_pure ?_
      show Expr.Path Γ ty (.literal (.integer (Int32.ofNat place)) :: path).reverse u
      rw [List.reverse_cons]
      refine hr.append ?_
      show Expr.Path Γ ty' _ u
      rw [hrec]
      exact .field hplace (.here u)
    · exact reads_failAbout _ _ _
  · exact reads_pure hr

theorem reads_assignment (h : Agree s d Γ) (room : Nat) :
    Reads s d (assignment room) (Stmt.Ok Γ) := by
  refine reads_ident.bind fun n _ => (reads_lookup? _).bind fun o ho => ?_
  obtain ⟨name, p⟩ := n
  dsimp only
  split
  · next v =>
    split
    · exact (reads_failAbout (Q := fun _ => False) _ _ _).bind fun _ hx => hx.elim
    · next himp =>
      refine (reads_assignmentPath h room name v.ty).bind fun r hr => ?_
      obtain ⟨path, ty⟩ := r
      refine (reads_expectMark _).bind fun _ _ => (reads_rhs h room ty name).bind fun value hv => ?_
      refine (reads_expectMark _).bind fun _ _ => reads_pure ?_
      obtain ⟨hty, hown⟩ : Symbol.Agrees Γ (.var v) := h name _ (ho _ rfl)
      exact ⟨hown (Bool.eq_false_iff.2 himp), v.ty, ty, hty, hr, hv⟩
  · exact reads_failAbout _ _ _
  · exact reads_failAbout _ _ _

theorem reads_expressionStatement (h : Agree s d Γ)
    (hresult : Γ.own 0 ∧ Γ.slot 0 = some .integer) (room : Nat) : Reads s d (expressionStatement room) (Stmt.Ok Γ) := by
  refine reads_position.bind fun p _ => (reads_expression h room).bind fun e he => ?_
  refine (reads_expectMark _).bind fun _ _ => ?_
  split
  · next hty =>
    obtain ⟨hown, hslot⟩ := hresult
    exact reads_pure ⟨hown, _, _, hslot, .here _, .plain ⟨e.ty, he, by rw [hty]; rfl⟩⟩
  · exact reads_pure ⟨e.ty, he⟩

/-! ## Blocks and conditionals -/

/-- A statement in a block or a body keeps the draft in order, wherever it stands. -/
def Inner (s : Surroundings) (t : SharedTable) (statement : Parse (List Stmt)) : Prop :=
  ∀ d, d.Ok s t none → Leads s t none d statement fun body Γ => Stmt.AllOk Γ body

theorem leads_block (hd : d.Ok s t none) {inner : Option (Parse (List Stmt))}
    (hi : ∀ statement ∈ inner, Inner s t statement) :
    Leads s t none d (block inner) fun body Γ => Stmt.AllOk Γ body := by
  refine (reads_expectMark _).lead hd fun _ _ => ?_
  split
  · exact reads_tooDeep.leads hd fun _ h => h
  · next statement =>
    refine (leads_loop (R := fun (parts : List (List Stmt)) Γ => ∀ p ∈ parts, Stmt.AllOk Γ p)
      (fun parts Γ => ∀ part ∈ parts, Stmt.AllOk Γ part) (fun d parts hd hp => ?_) hd
      (by simp)).bind fun parts d' hd' _ hp => (reads_expectMark _).lead hd' fun _ _ => ?_
    · refine reads_peek?.lead hd fun o _ => ?_
      split
      · exact leads_pure hd fun p h => hp p (List.mem_reverse.1 h)
      · exact (reads_unexpected (Q := fun _ => False) _).leads hd fun _ h => h.elim
      · refine (hi statement rfl d hd).bind fun body d' hd' hle hb => leads_pure hd' fun p h => ?_
        rcases List.mem_cons.1 h with rfl | h
        · exact hb
        · exact Stmt.AllOk.mono hle p (hp p h)
    · exact leads_pure hd' (Stmt.allOk_flatten hp)

theorem leads_conditional (hs : s.Ok t) (hd : d.Ok s t none) (room : Nat)
    {inner : Option (Parse (List Stmt))} (hi : ∀ statement ∈ inner, Inner s t statement) :
    Leads s t none d (conditional room inner) fun st Γ => Stmt.Ok Γ st := by
  refine reads_position.lead hd fun p _ => reads_skip.lead hd fun _ _ => ?_
  refine (reads_expectMark _).lead hd fun _ _ => ?_
  refine (reads_conditionFor (hd.agree hs) room _).lead hd fun c hc => ?_
  refine (reads_expectMark _).lead hd fun _ _ => ?_
  split
  · exact reads_tooDeep.leads hd fun _ h => h
  · next statement =>
    refine (hi statement rfl d hd).bind fun body d' hd' hle hb => ?_
    refine reads_position.lead hd' fun q _ => (reads_acceptWord _).lead hd' fun b _ => ?_
    split
    · refine (hi statement rfl d' hd').bind fun other d'' hd'' hle' ho => leads_pure hd'' ?_
      exact ⟨hc.mono (hle.trans hle').toLe, Stmt.AllOk.mono hle' body hb, ho⟩
    · exact leads_pure hd' ⟨hc.mono hle.toLe, hb⟩

/-! ## Statements -/

theorem reads_one {p : Parse Stmt} (h : Reads s d p (Stmt.Ok Γ)) :
    Reads s d (do return [← p]) (Stmt.AllOk Γ) :=
  h.bind fun _ hst => reads_pure ⟨hst, trivial⟩

/-- The variable for results is the script's own. -/
theorem slot_result (hd : d.Ok s t none) :
    (d.scope s).own 0 ∧ (d.scope s).slot 0 = some .integer := by
  refine ⟨⟨_, _, hd.result, rfl, rfl⟩, ?_⟩
  show (d.slots.toList[0]?).bind (Slot.ty? d.table) = some .integer
  rw [(hd.placed _ _ hd.result).slot]
  rfl

theorem leads_namedStatement (hs : s.Ok t) (hd : d.Ok s t none) (room : Nat) (name : String) :
    Leads s t none d (namedStatement room name) fun body Γ => Stmt.AllOk Γ body := by
  have hassign := reads_one (reads_assignment (hd.agree hs) room)
  have hexpr := reads_one (reads_expressionStatement (hd.agree hs) (slot_result hd) room)
  refine reads_get.lead hd fun e _ => (reads_lookup? _).lead hd fun o _ => ?_
  split
  · exact leads_declaration hs hd room false
  · split
    · exact hassign.leads hd fun _ h => h
    · exact hexpr.leads hd fun _ h => h
  · split
    · exact hassign.leads hd fun _ h => h
    · exact hexpr.leads hd fun _ h => h
  · exact hexpr.leads hd fun _ h => h

theorem leads_statementWith (hs : s.Ok t) (hd : d.Ok s t none) (room : Nat)
    {inner : Option (Parse (List Stmt))} (hi : ∀ statement ∈ inner, Inner s t statement) :
    Leads s t none d (statementWith room inner) fun body Γ => Stmt.AllOk Γ body := by
  have hexpr := reads_one (reads_expressionStatement (hd.agree hs) (slot_result hd) room)
  refine reads_peek?.lead hd fun o _ => ?_
  split
  · exact (reads_unexpected (Q := fun _ => False) _).leads hd fun _ h => h.elim
  · split
    · exact reads_skip.lead hd fun _ _ => leads_pure hd trivial
    · exact leads_block hd hi
    · exact reads_skip.lead hd fun _ _ => leads_declaration hs hd room true
    · exact leads_declaration hs hd room false
    · exact (leads_typedef hd room).bind fun _ d' hd' _ _ => leads_pure hd' trivial
    · exact (leads_constant hd room).bind fun _ d' hd' _ _ => leads_pure hd' trivial
    · exact (leads_importNames hs hd).bind fun _ d' hd' _ _ => leads_pure hd' trivial
    · exact (leads_conditional hs hd room hi).bind fun st d' hd' _ h =>
        leads_pure hd' ⟨h, trivial⟩
    · exact leads_namedStatement hs hd room _
    · exact hexpr.leads hd fun _ h => h

theorem inner_statement (hs : s.Ok t) (room : Nat) : Inner s t (statement room) := by
  induction room with
  | zero => exact fun d hd => leads_statementWith hs hd 0 fun _ h => nomatch h
  | succ room ih =>
    refine fun d hd => leads_statementWith hs hd (room + 1) fun statement h => ?_
    obtain rfl := Option.mem_some.1 h
    exact ih

/-- The statements of a text are well typed. -/
theorem leads_script (hs : s.Ok t) (hd : d.Ok s t none) :
    Leads s t none d script fun body Γ => Stmt.AllOk Γ body := by
  refine (leads_loop (R := fun (parts : List (List Stmt)) Γ => ∀ p ∈ parts, Stmt.AllOk Γ p)
    (fun parts Γ => ∀ part ∈ parts, Stmt.AllOk Γ part) (fun d parts hd hp => ?_) hd
    (by simp)).bind fun parts d' hd' _ hp => leads_pure hd' (Stmt.allOk_flatten hp)
  refine reads_peek?.lead hd fun o _ => ?_
  split
  · exact leads_pure hd fun p h => hp p (List.mem_reverse.1 h)
  · refine (inner_statement hs maxNesting d hd).bind fun body d' hd' hle hb =>
      leads_pure hd' fun p h => ?_
    rcases List.mem_cons.1 h with rfl | h
    · exact hb
    · exact Stmt.AllOk.mono hle p (hp p h)

end Parse

/-! ## Compilation -/

/-- What a setting shares has an entry of its name. -/
def Setting.Ok (s : Setting) : Prop :=
  ∀ source tokens, (s.surroundings source tokens).Ok s.table

/-- A text that parses gives well typed statements and a draft in order; one that does not has only
added entries. -/
theorem Setting.parse_script {s : Setting} (hs : s.Ok) (source : String) :
    match s.parse Parse.script source with
    | .ok body d =>
      d.Ok (s.surroundings source (Lexer.tokens source)) s.table none ∧
        Stmt.AllOk (d.scope (s.surroundings source (Lexer.tokens source))) body
    | .error _ d => SharedTable.Extends s.name s.table d.table := by
  have hs := hs source (Lexer.tokens source)
  have hstart := Draft.Ok.start (s := s.surroundings source (Lexer.tokens source)) hs.sorted
    (Lexer.tokens source)
  have h := Parse.leads_script hs hstart _ (.refl _)
  unfold parse
  show match Parse.script (s.surroundings source (Lexer.tokens source))
    (Draft.start (Lexer.tokens source) s.table) with
    | .ok body d => _
    | .error _ d => _
  cases hp : Parse.script (s.surroundings source (Lexer.tokens source))
    (Draft.start (Lexer.tokens source) s.table) with
  | ok body d =>
    rw [hp] at h
    exact ⟨h.1, h.2.2⟩
  | error e d =>
    rw [hp] at h
    exact h

end VectorScript
