import VectorScript.Proofs.Grammar.Recognition
import VectorScript.Proofs.Tree.Called

/-!
# The functions that a text calls

A call is a name right before a parenthesis, and it is made when its arguments have been evaluated: the
calls of a text come in the order of the parentheses at their ends (`calledNames`). Whatever writes an
expression carries the calls of its tree in this order, and they are those of the checked expression:
each by the index that the name stands for, with as many arguments as the function has parameters.

    Expression n t ts → ∃ last, Carries ts none last t.calls                     (carries_expression)
    t.elaborate? symbol? = some e →
      List.Forall₂ (Named symbol?) t.calls e.expr.calls                        (named_elaborate)
-/

namespace VectorScript

/-! ## Tokens -/

/-- The names that tokens call, in the order in which the calls end. `before` is the name that has just
been read, if it was one, and `opened` has what stood before each open parenthesis. -/
def calledNames (before : Option String) (opened : List (Option String)) : List Token → List String
  | [] => []
  | .mark .leftParen :: rest => calledNames none (before :: opened) rest
  | .mark .rightParen :: rest => opened.head?.join.toList ++ calledNames none opened.tail rest
  | .ident x :: rest => calledNames (some x) opened rest
  | _ :: rest => calledNames none opened rest

/-- Neither a name nor a parenthesis. -/
def Token.isSilent : Token → Bool
  | .ident _ | .mark .leftParen | .mark .rightParen => false
  | _ => true

/-- The tokens call these names, and leave as many parentheses open as there were. -/
def Carries (ts : List Token) (before last : Option String) (names : List String) : Prop :=
  ∀ opened rest, calledNames before opened (ts ++ rest) = names ++ calledNames last opened rest

section

variable {ts us : List Token} {before mid last : Option String} {names more : List String} {t : Token}

theorem carries_nil (before : Option String) : Carries [] before before [] := fun _ _ => rfl

theorem Carries.append (h : Carries ts before mid names) (h' : Carries us mid last more) :
    Carries (ts ++ us) before last (names ++ more) := by
  intro opened rest
  rw [List.append_assoc, h, h', List.append_assoc]

theorem Carries.ident (x : String) (h : Carries ts (some x) last names) :
    Carries (.ident x :: ts) before last names := fun opened rest => h opened rest

theorem Carries.silent (ht : t.isSilent = true) (h : Carries ts none last names) :
    Carries (t :: ts) before last names := by
  intro opened rest
  rw [← h]
  unfold Token.isSilent at ht
  rw [List.cons_append, calledNames.eq_def]
  split <;> simp_all

/-- Parentheses around what is called before them, if a name stands there it is called itself. -/
theorem Carries.parens (h : Carries ts none mid names) (h' : Carries us none last more) :
    Carries (.mark .leftParen :: (ts ++ .mark .rightParen :: us)) before last
      (names ++ before.toList ++ more) := by
  intro opened rest
  have hclose : calledNames mid (before :: opened) (.mark .rightParen :: (us ++ rest)) =
      before.toList ++ (more ++ calledNames last opened rest) := by
    rw [← h' opened rest]
    rfl
  rw [List.cons_append, List.append_assoc, List.cons_append]
  show calledNames none (before :: opened) _ = _
  rw [h, hclose]
  simp only [List.append_assoc]

end

/-! ## Trees -/

namespace Term

mutual

/-- The functions that an expression calls, a call after those in its arguments. -/
def calls : Term → List String
  | integer _ | real _ | text _ | name _ => []
  | signed _ t | member t _ => calls t
  | joined _ l r | index l r => calls l ++ calls r
  | components items | list items => callsAll items
  | call f args => callsAll args ++ [f]

def callsAll : List Term → List String
  | [] => []
  | t :: rest => calls t ++ callsAll rest

end

end Term

/-- The name stands for the function of this index, with so many parameters. -/
def Named (symbol? : String → Option Symbol) (x : String) (call : Nat × Nat) : Prop :=
  ∃ f, symbol? x = some (.function call.1 f) ∧ call.2 = f.params.length

/-! ## Writings -/

namespace Grammar

/-- Every writing carries the calls of its tree. -/
def Language.Carries (L : Language) : Prop :=
  ∀ t ts, L t ts → ∃ last, VectorScript.Carries ts none last t.calls

theorem carries_never : never.Carries := fun _ _ h => h.elim

section

variable {L I E : Language} {operators : Level} {ts : List Token}

/-- What comes after a tree on the left adds its own calls. -/
theorem Further.carries (hL : L.Carries) {l t : Term} (h : Further operators L l t ts) :
    ∃ names, t.calls = l.calls ++ names ∧
      ∀ before, ∃ last, Carries ts before last names := by
  induction h with
  | done => exact ⟨[], (List.append_nil _).symm, fun before => ⟨before, carries_nil before⟩⟩
  | @next l r t sign op ts us _ hr _ ih =>
    obtain ⟨names, hnames, hus⟩ := ih
    obtain ⟨mid, hts⟩ := hL _ _ hr
    obtain ⟨last, hus⟩ := hus mid
    refine ⟨r.calls ++ names, ?_, fun before => ⟨last, (hts.append hus).silent rfl⟩⟩
    rw [hnames, Term.calls, List.append_assoc]

theorem carries_chain (hL : L.Carries) : (Chain operators L).Carries := by
  rintro t _ ⟨hf, hr⟩
  obtain ⟨mid, hts⟩ := hL _ _ hf
  obtain ⟨names, hnames, hus⟩ := hr.carries hL
  obtain ⟨last, hus⟩ := hus mid
  exact ⟨last, hnames ▸ hts.append hus⟩

theorem carries_joined (hL : L.Carries) : (levels : List Level) → (Joined L levels).Carries
  | [] => hL
  | _ :: levels => carries_chain (carries_joined hL levels)

theorem carries_signed (hI : I.Carries) (hL : L.Carries) : (Signed I L).Carries := by
  intro t ts h
  cases h with
  | negative n => exact ⟨none, ((carries_nil none).silent rfl).silent rfl⟩
  | signed _ h _ =>
    obtain ⟨last, hts⟩ := hI _ _ h
    exact ⟨last, hts.silent rfl⟩
  | bare h => exact hL _ _ h

theorem carries_items (hE : E.Carries) {items : List Term} (h : Items E items ts) :
    ∃ last, Carries ts none last (Term.callsAll items) := by
  induction h with
  | one ht =>
    obtain ⟨last, hts⟩ := hE _ _ ht
    exact ⟨last, by rwa [Term.callsAll, Term.callsAll, List.append_nil]⟩
  | more ht _ ih =>
    obtain ⟨mid, hts⟩ := hE _ _ ht
    obtain ⟨last, hus⟩ := ih
    exact ⟨last, hts.append (hus.silent rfl)⟩

theorem carries_entries (hE : E.Carries) {items : List Term} (h : Entries E items ts) :
    ∃ last, Carries ts none last (Term.callsAll items) := by
  cases h with
  | none => exact ⟨none, carries_nil none⟩
  | some h => exact carries_items hE h

theorem carries_primary (hE : E.Carries) : (Primary E).Carries := by
  -- a mark at the end of a list
  have hclosed {m : Mark} {mid : Option String} {ts : List Token} {names : List String}
      (hm : (Token.mark m).isSilent = true) (h : Carries ts none mid names) :
      Carries (ts ++ [.mark m]) none none names := by
    have hend := h.append ((carries_nil none).silent hm)
    rwa [List.append_nil] at hend
  intro t ts h
  cases h with
  | integer | real | text => exact ⟨none, (carries_nil none).silent rfl⟩
  | name x => exact ⟨some x, (carries_nil _).ident x⟩
  | parens h =>
    obtain ⟨mid, hts⟩ := hE _ _ h
    have hparens : Carries _ none none _ := hts.parens (carries_nil none)
    exact ⟨none, by simpa using hparens⟩
  | components h =>
    obtain ⟨mid, hts⟩ := carries_items hE h
    exact ⟨none, (hclosed rfl hts).silent rfl⟩
  | list h =>
    obtain ⟨mid, hts⟩ := carries_entries hE h
    exact ⟨none, (hclosed rfl hts).silent rfl⟩
  | call f h =>
    obtain ⟨mid, hts⟩ := carries_entries hE h
    exact ⟨none, by simpa [Term.calls] using (hts.parens (carries_nil none)).ident f⟩

/-- Indices after a tree add their own calls. -/
theorem Suffixes.carries (hE : E.Carries) {l t : Term} (h : Suffixes E l t ts) :
    ∃ names, t.calls = l.calls ++ names ∧
      ∀ before, ∃ last, Carries ts before last names := by
  induction h with
  | done => exact ⟨[], (List.append_nil _).symm, fun before => ⟨before, carries_nil before⟩⟩
  | @index l i t ts us hi _ ih =>
    obtain ⟨names, hnames, hus⟩ := ih
    obtain ⟨mid, hts⟩ := hE _ _ hi
    obtain ⟨last, hus⟩ := hus none
    refine ⟨i.calls ++ names, ?_, fun before => ⟨last, (hts.append (hus.silent rfl)).silent rfl⟩⟩
    rw [hnames, Term.calls, List.append_assoc]
  | @member l t field us _ ih =>
    obtain ⟨names, hnames, hus⟩ := ih
    obtain ⟨last, hus⟩ := hus (some field)
    exact ⟨names, hnames, fun before => ⟨last, (hus.ident field).silent rfl⟩⟩

theorem carries_suffixed (hE : E.Carries) : (Suffixed E).Carries := by
  rintro t _ ⟨hf, hs⟩
  obtain ⟨mid, hts⟩ := carries_primary hE _ _ hf
  obtain ⟨names, hnames, hus⟩ := hs.carries hE
  obtain ⟨last, hus⟩ := hus mid
  exact ⟨last, hnames ▸ hts.append hus⟩

end

theorem carries_operand (n : Nat) : (Operand n).Carries := by
  induction n with
  | zero => exact carries_signed carries_never (carries_suffixed carries_never)
  | succ n ih => exact carries_signed ih (carries_suffixed (carries_joined ih _))

theorem carries_expression (n : Nat) : (Expression n).Carries := by
  cases n with
  | zero => exact carries_never
  | succ n => exact carries_joined (carries_operand n) _

end Grammar

/-! ## Checked expressions -/

section

variable {symbol? : String → Option Symbol} {e : Typed}

theorem Typed.calls_integer? {n : Int} (h : Typed.integer? n = some e) : e.expr.calls = [] := by
  unfold Typed.integer? at h
  split at h <;> cases h
  rfl

theorem Typed.calls_named? {symbol : Symbol} (h : Typed.named? symbol = some e) :
    e.expr.calls = [] := by
  unfold Typed.named? at h
  split at h <;> cases h <;> rfl

theorem Typed.calls_signed? {op : Operation} {a : Typed} (h : Typed.signed? op a = some e) :
    e.expr.calls = a.expr.calls := by
  obtain ⟨_, -, rfl⟩ := Option.map_eq_some_iff.1 h
  rfl

theorem Typed.calls_joined? {op : Operation} {l r : Typed} (h : Typed.joined? op l r = some e) :
    e.expr.calls = l.expr.calls ++ r.expr.calls := by
  obtain ⟨_, -, rfl⟩ := Option.map_eq_some_iff.1 h
  rfl

theorem Typed.calls_index? {l i : Typed} (h : Typed.index? l i = some e) :
    e.expr.calls = l.expr.calls ++ i.expr.calls := by
  obtain ⟨_, -, rfl⟩ := Option.map_eq_some_iff.1 h
  split <;> rfl

theorem Typed.calls_member? {a : Typed} {field : String} (h : Typed.member? a field = some e) :
    e.expr.calls = a.expr.calls := by
  obtain ⟨_, -, rfl⟩ := Option.map_eq_some_iff.1 h
  rfl

theorem Typed.calls_components? {items : List Typed} (h : Typed.components? items = some e) :
    e.expr.calls = Expr.callsAll (items.map (·.expr)) := by
  unfold Typed.components? at h
  split at h
  · split at h
    · cases h
      simp [Expr.calls, Expr.callsAll]
    · split at h <;> cases h
      simp [Expr.calls, Expr.callsAll]
  · cases h

/-- A call has as many arguments as the function has parameters. -/
theorem Typed.calls_call? {args : List Typed} {symbol : Symbol}
    (h : Typed.call? args symbol = some e) : ∃ index f, symbol = .function index f ∧
      e.expr.calls = Expr.callsAll (args.map (·.expr)) ++ [(index, f.params.length)] := by
  unfold Typed.call? at h
  split at h
  · next index f =>
    split at h <;> cases h
    next haccepts =>
    have hlength := Ty.length_of_accepts haccepts
    rw [List.length_map] at hlength
    exact ⟨index, f, rfl, by rw [Expr.calls, List.length_map, hlength]⟩
  · cases h

mutual

/-- The functions that a checked expression calls are those that its tree names. -/
theorem named_elaborate : (t : Term) → {e : Typed} → t.elaborate? symbol? = some e →
    List.Forall₂ (Named symbol?) t.calls e.expr.calls
  | .integer n, e, h => by
    rw [Term.elaborate?] at h
    rw [Typed.calls_integer? h]
    exact .nil
  | .real x, e, h => by
    cases h
    exact .nil
  | .text x, e, h => by
    cases h
    exact .nil
  | .name x, e, h => by
    rw [Term.elaborate?_name] at h
    obtain ⟨symbol, -, h⟩ := Option.bind_eq_some_iff.1 h
    rw [Typed.calls_named? h]
    exact .nil
  | .signed op t, e, h => by
    obtain ⟨a, ha, h⟩ := Term.elaborate?_signed.1 h
    rw [Typed.calls_signed? h]
    exact named_elaborate t ha
  | .joined op l r, e, h => by
    obtain ⟨a, c, ha, hc, h⟩ := Term.elaborate?_joined.1 h
    rw [Typed.calls_joined? h]
    exact List.rel_append (named_elaborate l ha) (named_elaborate r hc)
  | .index l i, e, h => by
    obtain ⟨a, c, ha, hc, h⟩ := Term.elaborate?_index.1 h
    rw [Typed.calls_index? h]
    exact List.rel_append (named_elaborate l ha) (named_elaborate i hc)
  | .member t field, e, h => by
    obtain ⟨a, ha, h⟩ := Term.elaborate?_member.1 h
    rw [Typed.calls_member? h]
    exact named_elaborate t ha
  | .components items, e, h => by
    obtain ⟨as, has, h⟩ := Term.elaborate?_components.1 h
    rw [Typed.calls_components? h]
    exact named_elaborateAll items has
  | .list items, e, h => by
    obtain ⟨as, has, rfl⟩ := Term.elaborate?_list.1 h
    exact named_elaborateAll items has
  | .call f args, e, h => by
    obtain ⟨as, symbol, has, hsymbol, h⟩ := Term.elaborate?_call.1 h
    -- The calls in the arguments come before the call itself, in the term and in the code.
    obtain ⟨index, g, rfl, hcalls⟩ := Typed.calls_call? h
    rw [hcalls]
    exact List.rel_append (named_elaborateAll args has) (.cons ⟨g, hsymbol, rfl⟩ .nil)

theorem named_elaborateAll : (items : List Term) → {as : List Typed} →
    Term.elaborateAll? symbol? items = some as →
    List.Forall₂ (Named symbol?) (Term.callsAll items) (Expr.callsAll (as.map (·.expr)))
  | [], as, h => by
    cases h
    exact .nil
  | t :: rest, as, h => by
    obtain ⟨a, as, ha, has, rfl⟩ := Term.elaborateAll?_cons.1 h
    exact List.rel_append (named_elaborate t ha) (named_elaborateAll rest has)

end

end

namespace Parse

variable {s : Surroundings} {b : Draft}

/-- An expression calls what the tokens call that it is read from. -/
theorem calls_expression (room : Nat) (i : List Token) :
    Outcome s b True (expression room) i fun e j => ∃ ts last names, i = ts ++ j ∧
      Carries ts none last names ∧ List.Forall₂ (Named (symbol? s b)) names e.expr.calls := by
  refine (recognizes_expression room i).mono fun e j h => ?_
  obtain ⟨t, ts, hts, ht, he⟩ := h
  obtain ⟨last, hcarries⟩ := Grammar.carries_expression room t ts ht
  exact ⟨ts, last, t.calls, hts, hcarries, named_elaborate t he⟩

end Parse

end VectorScript
