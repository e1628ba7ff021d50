import VectorScript.Proofs.Grammar.Term

/-!
# How expressions are written

The grammar of expressions, as the sequences of tokens that write a tree. Binary operators associate
to the left and bind in the order of `precedence`; signs bind tighter, indices and fields tightest.
Around any part there may be parentheses.

    expression := level₀                     level := tighter { operator tighter }
    operand    := sign operand | '-' integer | suffixed
    suffixed   := primary { '[' expression ']' | '.' ident }
    primary    := integer | real | text | ident | ident '(' [items] ')' | '(' expression ')'
                | '[' items ']' | '{' [items] '}'          items := expression { ',' expression }

The two ways to read a minus and an integer are told apart: together they are a literal, so what a
minus negates does not begin with an integer. Whole expressions within others and the operands of
signs are one level deeper, and `Expression n` has the writings of no more than `n` levels.
-/

namespace VectorScript

namespace Grammar

/-- The trees that sequences of tokens write. -/
abbrev Language := Term → List Token → Prop

/-- The language of no writing. -/
def never : Language := fun _ _ => False

/-! ## Operators -/

/-- Operators of one level with their operations. -/
abbrev Level := List (Operator × Operation)

/-- The levels of binary operators, the loosest first. -/
def precedence : List Level :=
  [[(.orOr, .or)],
   [(.andAnd, .and)],
   [(.or, .bitOr)],
   [(.and, .bitAnd)],
   [(.equal, .equal), (.notEqual, .notEqual)],
   [(.less, .less), (.greater, .greater), (.lessEqual, .lessEq), (.greaterEqual, .greaterEq)],
   [(.plus, .add), (.minus, .sub)],
   [(.star, .mul), (.slash, .div)]]

/-- The operators before an operand. -/
def signs : Level := [(.minus, .negate), (.plus, .sign), (.bang, .not)]

section

variable (operators : Level) (operand : Language)

/-- Operators of a level with their right operands, after a tree on the left. -/
inductive Further : Term → Language
  | done {t : Term} : Further t t []
  | next {l r t : Term} {sign : Operator} {op : Operation} {ts us : List Token}
      (hop : operators.lookup sign = some op) (hr : operand r ts)
      (h : Further (.joined op l r) t us) : Further l t (.operator sign :: (ts ++ us))

/-- Operands joined by the operators of a level, from left to right. -/
inductive Chain : Language
  | intro {first t : Term} {ts us : List Token} (h : operand first ts)
      (h' : Further operators operand first t us) : Chain t (ts ++ us)

end

/-- Operands joined by the operators of these levels, the loosest first. -/
def Joined (operand : Language) : List Level → Language
  | [] => operand
  | operators :: tighter => Chain operators (Joined operand tighter)

/-- The tokens begin with an integer. -/
def StartsInteger (ts : List Token) : Prop := ∃ n us, ts = .integer n :: us

/-- An operand with the signs before it. -/
inductive Signed (inner bare : Language) : Language
  | negative (n : Nat) : Signed inner bare (.integer (-n)) [.operator .minus, .integer n]
  | signed {sign : Operator} {op : Operation} {t : Term} {ts : List Token}
      (hop : signs.lookup sign = some op) (h : inner t ts)
      (hn : op = .negate → ¬StartsInteger ts) :
      Signed inner bare (.signed op t) (.operator sign :: ts)
  | bare {t : Term} {ts : List Token} (h : bare t ts) : Signed inner bare t ts

/-! ## Primary expressions -/

section

variable (expression : Language)

/-- Expressions with commas between them. -/
inductive Items : List Term → List Token → Prop
  | one {t : Term} {ts : List Token} (h : expression t ts) : Items [t] ts
  | more {t : Term} {items : List Term} {ts us : List Token} (h : expression t ts)
      (h' : Items items us) : Items (t :: items) (ts ++ .mark .comma :: us)

/-- Expressions with commas between them, or nothing. -/
inductive Entries : List Term → List Token → Prop
  | none : Entries [] []
  | some {items : List Term} {ts : List Token} (h : Items expression items ts) : Entries items ts

inductive Primary : Language
  | integer (n : Nat) : Primary (.integer n) [.integer n]
  | real (x : Float32) : Primary (.real x) [.real x]
  | text (s : String) : Primary (.text s) [.text s]
  | name (x : String) : Primary (.name x) [.ident x]
  | parens {t : Term} {ts : List Token} (h : expression t ts) :
      Primary t (.mark .leftParen :: (ts ++ [.mark .rightParen]))
  | components {items : List Term} {ts : List Token} (h : Items expression items ts) :
      Primary (.components items) (.mark .leftBracket :: (ts ++ [.mark .rightBracket]))
  | list {items : List Term} {ts : List Token} (h : Entries expression items ts) :
      Primary (.list items) (.mark .leftBrace :: (ts ++ [.mark .rightBrace]))
  | call (f : String) {args : List Term} {ts : List Token} (h : Entries expression args ts) :
      Primary (.call f args) (.ident f :: .mark .leftParen :: (ts ++ [.mark .rightParen]))

/-! ## Indices and fields -/

/-- Indices and fields after a tree. -/
inductive Suffixes : Term → Language
  | done {t : Term} : Suffixes t t []
  | index {l i t : Term} {ts us : List Token} (hi : expression i ts)
      (h : Suffixes (.index l i) t us) :
      Suffixes l t (.mark .leftBracket :: (ts ++ .mark .rightBracket :: us))
  | member {l t : Term} {field : String} {us : List Token} (h : Suffixes (.member l field) t us) :
      Suffixes l t (.mark .dot :: .ident field :: us)

/-- A primary expression with the indices and fields after it. -/
inductive Suffixed : Language
  | intro {first t : Term} {ts us : List Token} (h : Primary expression first ts)
      (h' : Suffixes expression first t us) : Suffixed t (ts ++ us)

end

/-! ## Nested expressions -/

/-- An operand within an expression that leaves so many levels. -/
def Operand : Nat → Language
  | 0 => Signed never (Suffixed never)
  | n + 1 => Signed (Operand n) (Suffixed (Joined (Operand n) precedence))

/-- An expression, which is a level itself. -/
def Expression : Nat → Language
  | 0 => never
  | n + 1 => Joined (Operand n) precedence

/-- What the operand of a sign is, one level deeper. -/
def Deeper : Nat → Language
  | 0 => never
  | n + 1 => Operand n

theorem operand_eq (n : Nat) : Operand n = Signed (Deeper n) (Suffixed (Expression n)) := by
  cases n <;> rfl

/-! ### Productions -/

section

variable {operators : Level} {operand : Language} {l r : Term}
  {sign : Operator} {op : Operation} {ts us : List Token}

theorem Chain.single (h : operand l ts) : Chain operators operand l ts := by
  have hc : Chain operators operand l (ts ++ []) := ⟨h, .done⟩
  rwa [List.append_nil] at hc

theorem Further.append {first : Term} (h : Further operators operand first l ts)
    (hop : operators.lookup sign = some op) (hr : operand r us) :
    Further operators operand first (.joined op l r) (ts ++ .operator sign :: us) := by
  induction h with
  | @done t =>
    have hn : Further operators operand t (.joined op t r) (.operator sign :: (us ++ [])) :=
      .next hop hr .done
    rwa [List.append_nil] at hn
  | next hop' hr' _ ih =>
    rw [List.cons_append, List.append_assoc]
    exact .next hop' hr' ih

/-- The left operand has operators of the same level, the right one only tighter ones. -/
theorem Chain.join (hl : Chain operators operand l ts) (hop : operators.lookup sign = some op)
    (hr : operand r us) :
    Chain operators operand (.joined op l r) (ts ++ .operator sign :: us) := by
  obtain ⟨hf, hl⟩ := hl
  rw [List.append_assoc]
  exact ⟨hf, hl.append hop hr⟩

end

/-! ## First tokens -/

/-- The tokens that a primary expression begins with. -/
def OpensPrimary : Token → Prop
  | .integer _ | .real _ | .text _ | .ident _
  | .mark .leftParen | .mark .leftBracket | .mark .leftBrace => True
  | _ => False

/-- The tokens that an expression begins with. -/
def Opens (t : Token) : Prop :=
  OpensPrimary t ∨ ∃ sign op, t = .operator sign ∧ signs.lookup sign = some op

/-- Every writing begins with such a token. -/
def Language.Begins (L : Language) (opens : Token → Prop) : Prop :=
  ∀ t ts, L t ts → ∃ first rest, ts = first :: rest ∧ opens first

theorem begins_never (opens : Token → Prop) : never.Begins opens := fun _ _ h => h.elim

theorem begins_primary (expression : Language) : (Primary expression).Begins OpensPrimary := by
  intro t ts h
  cases h <;> exact ⟨_, _, rfl, trivial⟩

theorem begins_suffixed (expression : Language) : (Suffixed expression).Begins OpensPrimary := by
  rintro t _ ⟨h, _⟩
  obtain ⟨first, rest, rfl, ho⟩ := begins_primary expression _ _ h
  exact ⟨first, _, rfl, ho⟩

theorem begins_signed {inner bare : Language} (hb : bare.Begins OpensPrimary) :
    (Signed inner bare).Begins Opens := by
  intro t ts h
  cases h with
  | negative n => exact ⟨_, _, rfl, .inr ⟨_, _, rfl, rfl⟩⟩
  | signed hop => exact ⟨_, _, rfl, .inr ⟨_, _, rfl, hop⟩⟩
  | bare h =>
    obtain ⟨first, rest, rfl, ho⟩ := hb _ _ h
    exact ⟨first, rest, rfl, .inl ho⟩

theorem begins_joined {operand : Language} {opens : Token → Prop} (h : operand.Begins opens) :
    (levels : List Level) → (Joined operand levels).Begins opens
  | [] => h
  | _ :: tighter => by
    rintro t _ ⟨hf, _⟩
    obtain ⟨first, rest, rfl, ho⟩ := begins_joined h tighter _ _ hf
    exact ⟨first, _, rfl, ho⟩

theorem begins_operand (n : Nat) : (Operand n).Begins Opens := by
  rw [operand_eq]
  exact begins_signed (begins_suffixed _)

theorem begins_deeper (n : Nat) : (Deeper n).Begins Opens := by
  cases n with
  | zero => exact begins_never _
  | succ n => exact begins_operand n

theorem begins_expression (n : Nat) : (Expression n).Begins Opens := by
  cases n with
  | zero => exact begins_never _
  | succ n => exact begins_joined (begins_operand n) _

theorem begins_items {expression : Language} {opens : Token → Prop} (h : expression.Begins opens)
    {items : List Term} {ts : List Token} (hi : Items expression items ts) :
    ∃ first rest, ts = first :: rest ∧ opens first := by
  cases hi with
  | one ht => exact h _ _ ht
  | more ht _ =>
    obtain ⟨first, rest, rfl, ho⟩ := h _ _ ht
    exact ⟨first, _, rfl, ho⟩

/-! ## What may follow -/

/-- Neither an operator of these levels nor an index, a field or arguments come next. -/
def Ends (levels : List Level) : List Token → Prop
  | .operator sign :: _ => ∀ operators ∈ levels, operators.lookup sign = none
  | .mark .leftBracket :: _ | .mark .dot :: _ | .mark .leftParen :: _ => False
  | _ => True

/-- No arguments come next. -/
def NoCall (ts : List Token) : Prop := ts.head? ≠ some (.mark .leftParen)

/-- A mark that ends a list of expressions. -/
def Closes (m : Mark) : Prop := m = .rightParen ∨ m = .rightBracket ∨ m = .rightBrace

theorem Closes.ends {m : Mark} (hm : Closes m) {levels : List Level}
    {rest : List Token} : Ends levels (.mark m :: rest) := by
  rcases hm with rfl | rfl | rfl <;> trivial

theorem ends_comma {levels : List Level} {rest : List Token} :
    Ends levels (.mark .comma :: rest) := trivial

theorem Closes.not_opens {m : Mark} (hm : Closes m) : ¬Opens (.mark m) := by
  rcases hm with rfl | rfl | rfl <;> rintro (h | ⟨_, _, h, _⟩) <;> cases h

/-- Items do not begin with the mark after them. -/
theorem Items.head?_ne {E : Language} (hE : E.Begins Opens) {items : List Term}
    {ts rest : List Token} {m : Mark} (hi : Items E items ts) (hm : Closes m) :
    (ts ++ rest).head? ≠ some (.mark m) := by
  obtain ⟨first, us, rfl, ho⟩ := begins_items hE hi
  rintro ⟨⟩
  exact hm.not_opens ho

/-- No operator of the one level is in the other. -/
def Apart (looser tighter : Level) : Prop :=
  ∀ sign op, looser.lookup sign = some op → tighter.lookup sign = none

section

variable {L : Language} {operators : Level}
  {tighter levels : List Level} {l t : Term} {us rest : List Token}

theorem Ends.of_cons (h : Ends (operators :: tighter) rest) : Ends tighter rest := by
  unfold Ends at h ⊢
  split at h
  · exact fun ops hm => h ops (List.mem_cons_of_mem _ hm)
  all_goals trivial

theorem Ends.noCall (h : Ends levels rest) : NoCall rest := by
  intro hn
  obtain ⟨us, rfl⟩ := List.head?_eq_some_iff.1 hn
  exact h

/-- Before operators of a level stands an end of all tighter ones. -/
theorem Further.ends (hd : ∀ ops ∈ tighter, Apart operators ops) (h : Further operators L l t us)
    (hr : Ends (operators :: tighter) rest) : Ends tighter (us ++ rest) := by
  cases h with
  | done => exact hr.of_cons
  | next hop => exact fun ops hm => hd ops hm _ _ hop

theorem Suffixes.noCall (h : Suffixes L l t us) (hr : Ends levels rest) : NoCall (us ++ rest) := by
  cases h with
  | done => exact hr.noCall
  | index | member => exact fun h => by cases h

end

/-! ### The table of operators -/

/-- No operator is in two levels. -/
theorem apart_precedence : precedence.Pairwise Apart := by
  have h : precedence.Pairwise fun looser tighter =>
      ∀ pair ∈ looser, tighter.lookup pair.1 = none := by decide
  refine h.imp fun hp sign op hop => ?_
  obtain ⟨_, _, rfl, _⟩ := List.lookup_eq_some_iff.1 hop
  exact hp (sign, op) (by simp)

/-! ## Checked parts -/

section

variable {L : Language} {operators : Level} {l t : Term} {us : List Token}
  {symbol? : String → Option Symbol} {e : Typed}

/-- The tree on the left checks if the whole does. -/
theorem Further.elaborates (h : Further operators L l t us) (he : t.elaborate? symbol? = some e) :
    ∃ a, l.elaborate? symbol? = some a := by
  induction h with
  | done => exact ⟨e, he⟩
  | next _ _ _ ih =>
    obtain ⟨c, hc⟩ := ih he
    obtain ⟨a, -, ha, -⟩ := Term.elaborate?_joined.1 hc
    exact ⟨a, ha⟩

theorem Suffixes.elaborates (h : Suffixes L l t us) (he : t.elaborate? symbol? = some e) :
    ∃ a, l.elaborate? symbol? = some a := by
  induction h with
  | done => exact ⟨e, he⟩
  | index _ _ ih =>
    obtain ⟨c, hc⟩ := ih he
    obtain ⟨a, -, ha, -⟩ := Term.elaborate?_index.1 hc
    exact ⟨a, ha⟩
  | member _ ih =>
    obtain ⟨c, hc⟩ := ih he
    obtain ⟨a, ha, -⟩ := Term.elaborate?_member.1 hc
    exact ⟨a, ha⟩

theorem Items.elaborated_ne_nil {items : List Term} {es : List Typed} (h : Items L items us)
    (he : Term.elaborateAll? symbol? items = some es) : es ≠ [] := by
  rintro rfl
  cases h <;> obtain ⟨_, _, -, -, h⟩ := Term.elaborateAll?_cons.1 he <;> cases h

end

end Grammar

end VectorScript
