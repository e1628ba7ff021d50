import VectorScript.Proofs.Completion.Expression
import VectorScript.Proofs.Grammar.Balance
import VectorScript.Proofs.Grammar.Plain

/-!
# Statements that are cut off

A statement tracks a text that is cut off, and since it ends with a mark of its own it is either read
in step to its end or the whole reads past the cut (`tracks_statement`).

Two steps look further ahead than the next token decides. Whether a name is assigned to may look
different before the cut, but only where the semicolon of the statement comes after the cut
(`beside_named`): then the part finds no semicolon at all. And a conditional at the cut may go on with
`else` on the whole only (`tracks_otherwise`), which has then read past the cut.
-/

namespace VectorScript

namespace Cut

open Parse Grammar

variable {α β : Type} {c : Cut} {quiet : Prop} {n : Nat} {p : Parse α}

/-! ## Assignments and expressions -/

theorem tracks_assignmentPath (room : Nat) (name : String) (ty : Ty) :
    c.Tracks quiet 0 0 (assignmentPath room name ty) := by
  refine tracks_loop (fun r => ?_) _
  obtain ⟨path, ty⟩ := r
  refine tracks_position.bind fun p => tracks_peek?.bind fun o => ?_
  split
  · refine tracks_skip.bind fun _ => (tracks_conditionFor room _).bind fun index => ?_
    refine (tracks_expectMark _).bind fun _ => ?_
    split
    · exact tracks_pure _
    · exact tracks_failAbout _ _ _
  · refine tracks_skip.bind fun _ => tracks_ident.bind fun n => ?_
    obtain ⟨field, q⟩ := n
    dsimp only
    split
    · exact tracks_pure _
    · exact tracks_failAbout _ _ _
  · exact tracks_pure _

/-- What comes after the name in an assignment. -/
theorem tracks_stored (room : Nat) (name : String) (v : Variable) (p : Position) :
    c.Tracks quiet 1 1 (do
      let (path, ty) ← assignmentPath room name v.ty
      expectMark .assign
      let value ← rhs room ty name
      expectMark .semicolon
      return Stmt.store v.slot path value p) := by
  refine (tracks_assignmentPath room name v.ty).bind fun r => ?_
  refine (tracks_expectMark _).bind fun _ => (tracks_rhs room _ name).bind fun value => ?_
  exact (tracks_expectMark _).close fun _ => tracks_pure _

theorem tracks_assignment (room : Nat) : c.Tracks quiet 1 1 (assignment room) := by
  refine tracks_ident.bind fun n => ?_
  obtain ⟨name, p⟩ := n
  refine (tracks_aside (n := 0) (aside_lookup? name)).bind fun o => ?_
  split
  · next v =>
    split
    · exact (tracks_failAbout (n := 0) (m := 0) _ _ _).bind fun _ => tracks_stored room name v p
    · exact tracks_stored room name v p
  · exact tracks_failAbout _ _ _
  · exact tracks_failAbout _ _ _

theorem tracks_expressionStatement (room : Nat) : c.Tracks quiet 1 1 (expressionStatement room) := by
  refine tracks_position.bind fun p => (tracks_expression room).bind fun e => ?_
  refine (tracks_expectMark _).close fun _ => ?_
  split
  · exact tracks_pure _
  · exact tracks_pure _

/-! ## Blocks and conditionals -/

theorem tracks_block {inner : Option (Parse (List Stmt))}
    (h : ∀ statement ∈ inner, c.Tracks False 1 1 statement) :
    c.Tracks False 1 1 (block inner) := by
  refine (tracks_expectMark _).bind fun _ => ?_
  split
  · exact tracks_tooDeep
  · next statement =>
    have hstatement := (h statement rfl).mono (Nat.zero_le 1) (Nat.zero_le 1)
    refine (tracks_loop (fun parts => ?_) _).bind fun parts => ?_
    · refine tracks_peek?.bind fun o => ?_
      split
      · exact tracks_pure _
      · exact tracks_unexpected _
      · exact hstatement.bind fun _ => tracks_pure _
    · exact (tracks_expectMark _).close fun _ => tracks_pure _

section

variable {statement : Parse (List Stmt)} (branch : Position → List Stmt → Stmt) (alone : Stmt)

/-- What may follow the body of a conditional. -/
def otherwise (statement : Parse (List Stmt)) (branch : Position → List Stmt → Stmt) (alone : Stmt) :
    Parse Stmt := do
  let elsePosition ← position
  if ← acceptWord .elseWord then return branch elsePosition (← statement) else return alone

theorem otherwise_else (s : Surroundings) {d : Draft} {q : Position} {k : List (Token × Position)}
    (hd : d.tokens = (.word .elseWord, q) :: k) : otherwise statement branch alone s d =
      (statement >>= fun body => return branch q body) s { d with tokens := k } := by
  have hhead : d.tokens.head?.map (·.1) = some (.word .elseWord) := by rw [hd]; rfl
  unfold otherwise acceptWord
  rw [bind_run, position_run]
  show ((accept (.word .elseWord) >>= _ : Parse Stmt) s d) = _
  rw [bind_run, accept_run, if_pos hhead, hd]
  rfl

theorem otherwise_alone (s : Surroundings) {d : Draft}
    (hd : d.tokens.head?.map (·.1) ≠ some (.word .elseWord)) :
    otherwise statement branch alone s d = .ok alone d := by
  unfold otherwise acceptWord
  rw [bind_run, position_run]
  show ((accept (.word .elseWord) >>= _ : Parse Stmt) s d) = _
  rw [bind_run, accept_run, if_neg hd]
  rfl

/-- A stub does not begin with `else`. -/
theorem stub_alone (s : Surroundings) {d : Draft} (hd : d.tokens = c.stub) :
    otherwise statement branch alone s d = .ok alone d := by
  apply otherwise_alone
  intro hhead
  rw [hd] at hhead
  obtain ⟨t, ht, hword⟩ := Option.map_eq_some_iff.1 hhead
  have hblunt := c.blunt t (List.mem_of_mem_head? ht)
  rw [hword] at hblunt
  exact hblunt

/-- Where the body of a conditional ends at the cut, the whole may go on with `else`. -/
theorem tracks_otherwise (h : c.Tracks False 1 1 statement) :
    c.Tracks False 0 1 (otherwise statement branch alone) := by
  have htracks : c.Tracks False 0 0 (otherwise statement branch alone) := by
    refine tracks_position.bind fun q => (tracks_acceptWord _).bind fun b => ?_
    split
    · exact (h.mono (Nat.zero_le 1) (Nat.zero_le 1)).bind fun _ => tracks_pure _
    · exact tracks_pure _
  have hbranch (q : Position) : c.Tracks False 1 1 (do return branch q (← statement)) :=
    h.close fun _ => tracks_pure _
  refine ⟨⟨htracks.onward, htracks.gains, ?_⟩, htracks.idle⟩
  intro d a e hfed hrun
  -- What is left to show is the run itself: the full script and the cut one differ only where the
  -- draft has come to the cut, and there only the full one may go on with `else`.
  cases hd : d.tokens with
  | nil =>
    have htokens := Draft.on_nil hd
    rw [stub_alone branch alone _ (htokens c.stub)]
    by_cases helse : c.rest.head?.map (·.1) = some (.word .elseWord)
    · obtain ⟨⟨t, q⟩, ht, rfl⟩ := Option.map_eq_some_iff.1 helse
      obtain ⟨k, hk⟩ := List.head?_eq_some_iff.1 ht
      rw [otherwise_else branch alone _ ((htokens c.rest).trans hk)] at hrun
      have hshorter : e.tokens.length + 1 ≤ k.length := (hbranch q).shorter hrun
      refine .astray ?_ (fun y hy => (hbranch q).names hrun y hy) ?_
      · rw [hk, List.length_cons]
        omega
      · intro b f hf
        cases hf
        exact ⟨[], htokens c.stub⟩
    · rw [otherwise_alone branch alone _ (by rwa [htokens])] at hrun
      cases hrun
      exact .inStep d
  | cons t k =>
    obtain ⟨t, q⟩ := t
    have htokens := Draft.on_cons hd
    by_cases helse : t = .word .elseWord
    · subst helse
      rw [otherwise_else branch alone _ (htokens c.rest)] at hrun
      rw [otherwise_else branch alone _ (htokens c.stub)]
      have hfed' : c.Fed { d with tokens := k } := hfed.mono (by rw [hd]; exact Nat.le_succ _)
      exact (hbranch q).beside hfed' hrun
    · have hhead (more) : (d.on more).tokens.head?.map (·.1) ≠ some (.word .elseWord) := by
        rw [htokens]
        simpa using helse
      rw [otherwise_alone branch alone _ (hhead _)] at hrun
      rw [otherwise_alone branch alone _ (hhead _)]
      cases hrun
      exact .inStep d

end

theorem tracks_conditional (room : Nat) {inner : Option (Parse (List Stmt))}
    (h : ∀ statement ∈ inner, c.Tracks False 1 1 statement) :
    c.Tracks False 1 1 (conditional room inner) := by
  refine tracks_position.bind fun p => tracks_skip.bind fun _ => ?_
  refine (tracks_expectMark _).bind fun _ => (tracks_conditionFor room _).bind fun condition => ?_
  refine (tracks_expectMark _).bind fun _ => ?_
  split
  · exact tracks_tooDeep
  · next statement =>
    refine (h statement rfl).close fun body => ?_
    exact tracks_otherwise (fun q other => .ifElse condition p body q other)
      (.ifThen condition p body) (h statement rfl)

/-! ## Statements that begin with a name -/

/-- A statement that is closed by a semicolon has been read up to it. -/
theorem exists_semicolon {s : Surroundings} {d e : Draft} {a : α} (hcloses : Parse.Closes s d p)
    (htrails : c.Trails quiet 1 1 p) (hrounds : d.tokens.length < s.rounds)
    (hrun : p s d = .ok a e) : ∃ ts q, d.tokens = ts ++ (.mark .semicolon, q) :: e.tokens ∧
      Balanced (ts.map (·.1)) := by
  have hready : Ready s d d := ⟨.refl d, by rw [Draft.ahead, List.length_map]; exact hrounds⟩
  have hread := hcloses d.ahead d hready rfl
  rw [hrun] at hread
  obtain ⟨-, us, hahead, hus⟩ := hread
  obtain ⟨read, htokens, -⟩ := htrails.onward hrun
  have hmap : read.map (·.1) = us ++ [.mark .semicolon] := by
    apply (List.append_left_inj e.ahead).1
    rw [List.append_assoc, List.singleton_append, ← hahead, Draft.ahead, Draft.ahead, htokens,
      List.map_append]
  obtain ⟨ts, last, rfl, rfl, hlast⟩ := List.map_eq_append_iff.1 hmap
  obtain ⟨⟨t, q⟩, rfl, ht⟩ := List.map_eq_singleton_iff.1 hlast
  cases ht
  refine ⟨ts, q, ?_, hus⟩
  rw [htokens, List.append_assoc, List.singleton_append]

/-- A statement that begins with a name, where it is known whether an assignment mark follows. -/
def named (room : Nat) (name : String) (ahead : Bool) : Parse (List Stmt) := do
  match ← lookup? name with
  | some (.typedef _) => declaration room false
  | some (.var _) | none =>
    if ahead then return [← assignment room] else return [← expressionStatement room]
  | some _ => return [← expressionStatement room]

theorem namedStatement_run (room : Nat) (name : String) (s : Surroundings) (d : Draft) :
    namedStatement room name s d =
      named room name (assignmentFollows 0 (d.tokens.drop 1)) s d := rfl

/-- An assignment, or an expression on its own. -/
def simple (room : Nat) (ahead : Bool) : Parse (List Stmt) :=
  if ahead then do return [← assignment room] else do return [← expressionStatement room]

theorem tracks_simple (room : Nat) (ahead : Bool) : c.Tracks quiet 1 1 (simple room ahead) := by
  unfold simple
  split
  · exact (tracks_assignment room).close fun _ => tracks_pure _
  · exact (tracks_expressionStatement room).close fun _ => tracks_pure _

theorem tracks_named (room : Nat) (name : String) (ahead : Bool) :
    c.Tracks False 1 1 (named room name ahead) := by
  refine (tracks_aside (n := 0) (aside_lookup? name)).bind fun o => ?_
  split
  · exact tracks_declaration room false
  · exact tracks_simple room ahead
  · exact tracks_simple room ahead
  · exact tracks_simple room false

theorem closes_simple (s : Surroundings) (d : Draft) (room : Nat) (ahead : Bool) :
    Parse.Closes s d (simple room ahead) := by
  intro i
  unfold simple
  split
  · exact (closes_assignment room i).bind fun _ _ h => outcome_pure h
  · exact (closes_expressionStatement room i).bind fun _ _ h => outcome_pure h

theorem simple_semicolon {s : Surroundings} {d e : Draft} {room : Nat} {ahead : Bool}
    {body : List Stmt} (hrounds : d.tokens.length < s.rounds)
    (hrun : simple room ahead s d = .ok body e) : ∃ ts q,
      d.tokens = ts ++ (.mark .semicolon, q) :: e.tokens ∧ Balanced (ts.map (·.1)) := by
  have htracks : (atEnd s).Tracks True 1 1 (simple room ahead) := tracks_simple room ahead
  exact exists_semicolon (closes_simple s d room ahead) htracks.toTrails hrounds hrun

theorem lookup?_run (name : String) (s : Surroundings) (d : Draft) :
    lookup? name s d = .ok (symbol? s d name) d := by
  unfold symbol? lookup?
  rw [bind_run]
  show (_ : Parse (Option Symbol)) s d = _
  cases d.symbols.get? name with
  | none => rfl
  | some symbol => rfl

/-- What the name stands for decides how the statement is read, on the whole and on the part: only
for some names it matters whether an assignment mark follows. -/
theorem named_cases (c : Cut) (room : Nat) (name : String) (d : Draft) :
    (∀ ahead ahead', named room name ahead c.part (d.on c.stub) =
      named room name ahead' c.part (d.on c.stub)) ∨
    ∀ ahead, named room name ahead c.whole (d.on c.rest) = simple room ahead c.whole (d.on c.rest) ∧
      named room name ahead c.part (d.on c.stub) = simple room ahead c.part (d.on c.stub) := by
  have hsymbol : symbol? c.part (d.on c.stub) name = symbol? c.whole (d.on c.rest) name := by
    unfold symbol?
    rw [c.alike.globals]
    rfl
  unfold named
  simp only [bind_run, lookup?_run, andThen]
  rw [hsymbol]
  cases symbol? c.whole (d.on c.rest) name with
  | none => exact .inr fun _ => ⟨rfl, rfl⟩
  | some symbol =>
    cases symbol with
    | var v => exact .inr fun _ => ⟨rfl, rfl⟩
    | typedef _ => exact .inl fun _ _ => rfl
    | constant _ => exact .inl fun _ _ => rfl
    | function _ => exact .inl fun _ _ => rfl

section

variable {room : Nat} {name : String} {d e : Draft} {q : Position} {k : List (Token × Position)}
  {body : List Stmt} {ahead : Bool}

/-- If a statement ends before the cut, so does the search for its assignment mark. -/
theorem past_of_ahead_ne (hd : d.tokens = (.ident name, q) :: k) (hfed : c.Fed d)
    (hrun : simple room ahead c.whole (d.on c.rest) = .ok body e)
    (hne : assignmentFollows 0 (k ++ c.rest) ≠ assignmentFollows 0 (k ++ c.stub)) :
    e.tokens.length + 1 ≤ c.rest.length := by
  apply Classical.byContradiction
  intro hlong
  have htokens : (d.on c.rest).tokens = (.ident name, q) :: k ++ c.rest := Draft.on_cons hd c.rest
  obtain ⟨ts, p, hread, hts⟩ := simple_semicolon hfed.whole hrun
  rw [htokens] at hread
  -- What is left of the whole begins before the cut.
  obtain ⟨left, hleft⟩ : ∃ left, e.tokens = left ++ c.rest := by
    have hsuffix : e.tokens <:+ (.ident name, q) :: k ++ c.rest :=
      ⟨ts ++ [(.mark .semicolon, p)], by rw [hread, List.append_assoc, List.singleton_append]⟩
    have hrest : c.rest <:+ e.tokens :=
      List.suffix_of_suffix_length_le (List.suffix_append _ _) hsuffix (by omega)
    obtain ⟨left, hleft⟩ := hrest
    exact ⟨left, hleft.symm⟩
  have hk : (.ident name, q) :: k = ts ++ (.mark .semicolon, p) :: left := by
    apply (List.append_left_inj c.rest).1
    rw [hread, hleft, List.append_assoc, List.cons_append]
  cases ts with
  | nil => cases hk
  | cons t ts =>
    rw [List.cons_append, List.cons.injEq] at hk
    obtain ⟨rfl, rfl⟩ := hk
    have hdepth := hts.depth
    rw [List.map_cons, depth_cons, show weight (.ident name) = 0 from rfl] at hdepth
    apply hne
    rw [List.append_assoc, List.append_assoc, List.cons_append, List.cons_append]
    exact assignmentFollows_closed p _ _ 0 ts hdepth

/-- Where the whole has read past the cut there is no semicolon for the part, which fails. -/
theorem exists_error_of_past (ahead' : Bool) (hfed : c.Fed d)
    (hrun : simple room ahead c.whole (d.on c.rest) = .ok body e)
    (hpast : e.tokens.length + 1 ≤ c.rest.length) :
    ∃ x f, simple room ahead' c.part (d.on c.stub) = .error x f ∧ f.symbols = d.symbols := by
  cases hpart : simple room ahead' c.part (d.on c.stub) with
  | error x f =>
    have htracks : c.Tracks True 1 1 (simple room ahead') := tracks_simple room ahead'
    have hquiet := (htracks.gains c.part (d.on c.stub)).quiet trivial
    rw [hpart] at hquiet
    exact ⟨x, f, rfl, hquiet⟩
  | ok body' f =>
    exfalso
    -- A part that reads on has its semicolon before the cut, where the whole has read none.
    obtain ⟨ts, p, hread, hts⟩ := simple_semicolon hfed.whole hrun
    obtain ⟨us, p', hread', -⟩ := simple_semicolon hfed.part hpart
    have hmem : (.mark .semicolon, p') ∈ d.tokens ++ c.stub := by
      have : (Token.mark .semicolon, p') ∈ (d.on c.stub).tokens := by
        rw [hread']
        simp
      exact this
    rcases List.mem_append.1 hmem with hmem | hmem
    · have hcommon : d.tokens <+: ts := by
        have hts' : ts <+: d.tokens ++ c.rest := ⟨_, hread.symm⟩
        refine List.prefix_of_prefix_length_le (List.prefix_append _ _) hts' ?_
        have hlength := congrArg List.length hread
        rw [length_on, List.length_append, List.length_cons] at hlength
        omega
      exact hts.semicolon (List.mem_map_of_mem (hcommon.mem hmem))
    · rcases c.blunt _ hmem with h | h <;> cases h

/-- Whether an assignment mark follows may look different before the cut, but then the part finds no
end of the statement. -/
theorem beside_named (hd : d.tokens = (.ident name, q) :: k) (hfed : c.Fed d)
    (hrun : named room name (assignmentFollows 0 (k ++ c.rest)) c.whole (d.on c.rest) = .ok body e) :
    c.Beside 1 body e
      (named room name (assignmentFollows 0 (k ++ c.stub)) c.part (d.on c.stub)) := by
  rcases named_cases c room name d with hsame | hsimple
  · rw [hsame _ (assignmentFollows 0 (k ++ c.rest))]
    exact (tracks_named room name _).beside hfed hrun
  by_cases hahead : assignmentFollows 0 (k ++ c.rest) = assignmentFollows 0 (k ++ c.stub)
  · rw [← hahead]
    exact (tracks_named room name _).beside hfed hrun
  rw [(hsimple _).1] at hrun
  rw [(hsimple _).2]
  have hpast := past_of_ahead_ne hd hfed hrun hahead
  obtain ⟨x, f, herror, hsymbols⟩ :=
    exists_error_of_past (assignmentFollows 0 (k ++ c.stub)) hfed hrun hpast
  have htracks : c.Tracks True 1 1 (simple room (assignmentFollows 0 (k ++ c.rest))) :=
    tracks_simple room _
  rw [herror]
  refine .astray hpast ?_ fun _ _ h => nomatch h
  intro y hy
  have hy : f.symbols.contains y = true := hy
  rw [hsymbols] at hy
  exact htracks.names hrun y hy

end

/-! ## Statements -/

/-- A step that is made only where the given token is next. -/
def whenAhead (o : Option Token) (p : Parse α) : Parse α := do
  if (← peek?) = o then p else noProgress

theorem whenAhead_run (o : Option Token) (p : Parse α) (s : Surroundings) (d : Draft) :
    whenAhead o p s d =
      if d.tokens.head?.map (·.1) = o then p s d else (noProgress : Parse α) s d := by
  show (if d.tokens.head?.map (·.1) = o then p else noProgress : Parse α) s d = _
  split <;> rfl

/-- What is done for the token that is next is done where that token is next. -/
theorem peek?_bind_eq (f : Option Token → Parse α) :
    (peek? >>= f) = peek? >>= fun o => whenAhead o (f o) := by
  funext s d
  have hrun (o : Option Token) (h : d.tokens.head?.map (·.1) = o) : f o s d = whenAhead o (f o) s d := by
    rw [whenAhead_run, if_pos h]
  exact hrun _ rfl

theorem tracks_whenAhead (o : Option Token) (h : c.Tracks quiet n n p) :
    c.Tracks quiet n n (whenAhead o p) := by
  refine tracks_peek?.bind fun _ => ?_
  split
  · exact h
  · exact tracks_throw _

/-- Taking a token that is next reads it. -/
theorem whenAhead_skip (t : Token) (a : α) :
    whenAhead (some t) (do skip; return a) = whenAhead (some t) (do expect t; return a) := by
  funext s d
  rw [whenAhead_run, whenAhead_run]
  split
  · next h =>
    have hexpect : expect t s d = .ok () { d with tokens := d.tokens.drop 1 } := by
      unfold expect
      rw [bind_run, accept_run, if_pos h]
      rfl
    rw [bind_run, bind_run, hexpect]
    rfl
  · rfl

theorem tracks_namedStatement (room : Nat) (name : String) :
    c.Tracks False 1 1 (whenAhead (some (.ident name)) (namedStatement room name)) := by
  have hnamed (ahead : Bool) := tracks_named (c := c) room name ahead
  apply tracks_of_cons
  · intro s d a e hrun
    rw [whenAhead_run] at hrun
    split at hrun
    · exact (hnamed _).onward hrun
    · cases hrun
  · intro s d
    rw [whenAhead_run]
    split
    · exact (hnamed _).gains s d
    · exact .of_eq rfl
  · intro s d hd
    rw [whenAhead_run]
    split
    · exact (hnamed _).idle s d hd
    · rfl
  · intro d t k a e hfed hd hrun
    obtain ⟨t, q⟩ := t
    have htokens := Draft.on_cons hd
    have hhead (more) : (d.on more).tokens.head?.map (·.1) = some t := by
      rw [htokens]
      rfl
    rw [whenAhead_run, hhead] at hrun
    rw [whenAhead_run, hhead]
    by_cases ht : t = .ident name
    · subst ht
      rw [if_pos rfl, namedStatement_run, htokens] at hrun
      rw [if_pos rfl, namedStatement_run, htokens]
      exact beside_named hd hfed hrun
    · rw [if_neg (fun h => ht (Option.some.inj h))] at hrun
      cases hrun

theorem tracks_statementWith (room : Nat) {inner : Option (Parse (List Stmt))}
    (h : ∀ statement ∈ inner, c.Tracks False 1 1 statement) :
    c.Tracks False 1 1 (statementWith room inner) := by
  unfold statementWith
  rw [peek?_bind_eq]
  refine tracks_peek?.bind fun o => ?_
  split
  · exact tracks_whenAhead _ (tracks_unexpected _)
  · split
    · rw [whenAhead_skip]
      exact tracks_whenAhead _ ((tracks_expectMark _).close fun _ => tracks_pure _)
    · exact tracks_whenAhead _ (tracks_block h)
    · exact tracks_whenAhead _ (tracks_skip.bind fun _ => tracks_declaration room true)
    · exact tracks_whenAhead _ (tracks_declaration room false)
    · exact tracks_whenAhead _ ((tracks_typedef room).close fun _ => tracks_pure _)
    · exact tracks_whenAhead _ ((tracks_constant room).close fun _ => tracks_pure _)
    · exact tracks_whenAhead _ (tracks_importNames.close fun _ => tracks_pure _)
    · exact tracks_whenAhead _ ((tracks_conditional room h).close fun _ => tracks_pure _)
    · exact tracks_namedStatement room _
    · exact tracks_whenAhead _ ((tracks_expressionStatement room).close fun _ => tracks_pure _)

/-- Where both read the beginning of a statement before the cut, they read it in step, or the whole
reads past the cut. -/
theorem tracks_statement (room : Nat) : c.Tracks False 1 1 (statement room) := by
  induction room with
  | zero => exact tracks_statementWith 0 nofun
  | succ room ih =>
    refine tracks_statementWith (room + 1) ?_
    rintro _ ⟨⟩
    exact ih

end Cut

end VectorScript
