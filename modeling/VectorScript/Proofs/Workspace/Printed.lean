import VectorScript.Proofs.Grammar.Inverse
import VectorScript.Proofs.Grammar.TypeText
import VectorScript.Proofs.Workspace.Recompile
import VectorScript.Proofs.Workspace.History

/-!
# Printed types read back

The text of a type that declarations can spell, put after a new name, declares the name as that
type: what is printed is read again. So no two such types have the same text.

    t.spellable → t.recordDepth ≤ maxNesting → a new workspace compiles
      "type " ++ x ++ " = " ++ t.render ++ ";", and x stands for t              (render_reads_back)
-/

namespace VectorScript

open Lexer

/-- The declaration of a name as a type. -/
def Ty.declaration (x : String) (t : Ty) : String := "type " ++ x ++ " = " ++ t.render ++ ";"

/-- The tokens of a declaration. -/
theorem Ty.kinds_declaration {x : String} {t : Ty} (hx : isIdentifier x = true)
    (ht : t.spellable = true) : kinds (t.declaration x).toList =
      .word .typeWord :: .ident x :: .mark .assign :: (t.written ++ [.mark .semicolon]) := by
  let body := t.render.toList ++ [';']
  have hword := kinds_word .typeWord (' ' :: (x.toList ++ ' ' :: '=' :: ' ' :: body))
    (nameEnds_cons rfl _)
  have hname := kinds_identifier hx (' ' :: '=' :: ' ' :: body) (nameEnds_cons rfl _)
  have hassign := kinds_mark (m := .assign) nofun (' ' :: body) fun _ => by simp
  have htype := kinds_render t ht [';'] (nameEnds_cons rfl _)
  have hend := kinds_bracket (m := .semicolon) nofun nofun []
  calc kinds (t.declaration x).toList
      = kinds (Word.typeWord.spelling.toList ++
          ' ' :: (x.toList ++ ' ' :: '=' :: ' ' :: body)) := by
        simp only [declaration, String.toList_append, List.append_assoc]
        rfl
    _ = .word .typeWord :: kinds (x.toList ++ ' ' :: '=' :: ' ' :: body) := by
        rw [hword, kinds_space]
    _ = .word .typeWord :: .ident x :: kinds ('=' :: ' ' :: body) := by
        rw [hname, kinds_space]
    _ = .word .typeWord :: .ident x :: .mark .assign :: kinds body :=
        congrArg (fun ts => .word .typeWord :: .ident x :: ts)
          (hassign.trans (congrArg _ (kinds_space _)))
    _ = .word .typeWord :: .ident x :: .mark .assign :: (t.written ++ [.mark .semicolon]) := by
        rw [htype]
        exact congrArg (fun ts => .word .typeWord :: .ident x :: .mark .assign :: (t.written ++ ts))
          (hend.trans (congrArg _ kinds_nil))

namespace Parse

variable {s : Surroundings} {b d : Draft}

theorem bind_of_ok {α β : Type} {p : Parse α} {a : α} {e : Draft} (h : p s d = .ok a e)
    (f : α → Parse β) : (p >>= f) s d = f a s e := by
  show EStateM.bind (p s) (fun a => f a s) d = _
  unfold EStateM.bind
  rw [h]

/-- What a type declaration reads before it declares the name. -/
def typedefParts (room : Nat) : Parse (String × Ty) := do
  skip
  let (x, p) ← ident
  checkFresh x p
  expectMark .assign
  let t ← typeSpec room
  expectMark .semicolon
  return (x, t)

theorem typedef_eq (room : Nat) :
    typedef room = typedefParts room >>= fun (x, t) => declare x (.typedef t) := by
  simp only [typedef, typedefParts, bind_assoc, pure_bind]

theorem reaches_checkFresh {i : List Token} {x : String} {place : Position}
    (hnew : b.symbols.contains x = false) (hglobals : s.globals.contains x = false) :
    Reaches s b (checkFresh x place) i () i := by
  refine outcome_get.bind fun d j hd => ?_
  obtain ⟨hsame, -, rfl⟩ := hd
  have hfree : (d.symbols.contains x || s.globals.contains x) = false := by
    rw [hsame.symbols, hnew, hglobals]
    rfl
  refine outcome_read.bind fun g k hg => ?_
  obtain ⟨rfl, rfl⟩ := hg
  rw [hfree, if_neg Bool.false_ne_true]
  exact reaches_pure

theorem reaches_typedefParts {x : String} {t : Ty} {room : Nat} {i : List Token}
    (hnew : b.symbols.contains x = false) (hglobals : s.globals.contains x = false)
    (hs : NamesBases s b) (ht : t.spellable = true) (hroom : t.recordDepth ≤ room) :
    Reaches s b (typedefParts room) (.word .typeWord :: .ident x :: .mark .assign ::
      (t.written ++ .mark .semicolon :: i)) (x, t) i := by
  refine (reaches_skip _).bind <| Outcome.bind (outcome_ident fun h => h _ _ rfl) fun r j hr => ?_
  obtain ⟨y, place⟩ := r
  obtain ⟨rfl, rfl⟩ := hr
  refine (reaches_checkFresh hnew hglobals).bind <| (reaches_expect _).bind ?_
  have hend := brackets_none (s := s) (b := b) (i := .mark .semicolon :: i) t (by simp)
  have htype := reaches_typeSpec hs t ht hroom hend
  exact htype.bind <| (reaches_expect _).bind reaches_pure

/-- A type declaration is read, and declares the name. -/
theorem typedef_run {x : String} {t : Ty} {room : Nat} {i : List Token}
    (hd : d.tokens.length < s.rounds)
    (hahead : d.ahead = .word .typeWord :: .ident x :: .mark .assign ::
      (t.written ++ .mark .semicolon :: i))
    (hnew : d.symbols.contains x = false) (hglobals : s.globals.contains x = false)
    (hs : NamesBases s d) (ht : t.spellable = true) (hroom : t.recordDepth ≤ room) :
    ∃ e, typedef room s d = .ok () e ∧ e.symbols = d.symbols.insert x (.typedef t) ∧
      e.ahead = i := by
  have hparts := reaches_typedefParts (i := i) hnew hglobals hs ht hroom
  rw [← hahead] at hparts
  obtain ⟨e, hrun, hsame, hend⟩ := hparts.run hd
  refine ⟨{ e with symbols := e.symbols.insert x (.typedef t) }, ?_, ?_, hend⟩
  · rw [typedef_eq, bind_of_ok hrun]
    rfl
  · rw [hsame.symbols]

/-! ## Scripts -/

/-- A round of a script: a statement, until no token is left. -/
def scriptStep (parts : List (List Stmt)) : Parse (List (List Stmt) ⊕ List (List Stmt)) := do
  if (← peek?).isNone then return .inr parts.reverse
  else return .inl ((← statement maxNesting) :: parts)

theorem script_eq : script = loop [] scriptStep >>= fun parts => return parts.flatten := rfl

theorem peek?_run (s : Surroundings) (d : Draft) : peek? s d = .ok d.ahead.head? d := by
  rw [Draft.ahead, List.head?_map]
  rfl

theorem scriptStep_done {parts : List (List Stmt)} (h : d.ahead = []) :
    scriptStep parts s d = .ok (.inr parts.reverse) d := by
  unfold scriptStep
  rw [bind_of_ok (peek?_run s d), h]
  rfl

theorem scriptStep_typedef {parts : List (List Stmt)} {i : List Token} {e : Draft}
    (h : d.ahead = .word .typeWord :: i) (hrun : typedef maxNesting s d = .ok () e) :
    scriptStep parts s d = .ok (.inl ([] :: parts)) e := by
  have hpeek : peek? s d = .ok (some (.word .typeWord)) d := by rw [peek?_run, h]; rfl
  have hstatement : statement maxNesting s d = .ok [] e := by
    show statementWith _ _ s d = _
    unfold statementWith
    rw [bind_of_ok hpeek]
    exact bind_of_ok hrun _
  unfold scriptStep
  rw [bind_of_ok hpeek]
  exact bind_of_ok hstatement _

/-- A text that is one type declaration leaves no statement and declares the name. -/
theorem script_typedef {x : String} {t : Ty} (hd : d.tokens.length < s.rounds)
    (hahead : d.ahead = .word .typeWord :: .ident x :: .mark .assign ::
      (t.written ++ [.mark .semicolon]))
    (hnew : d.symbols.contains x = false) (hglobals : s.globals.contains x = false)
    (hs : NamesBases s d) (ht : t.spellable = true) (hroom : t.recordDepth ≤ maxNesting) :
    ∃ e, script s d = .ok [] e ∧ e.symbols = d.symbols.insert x (.typedef t) := by
  obtain ⟨e, hrun, hsymbols, hend⟩ := typedef_run hd hahead hnew hglobals hs ht hroom
  have hrounds : d.ahead.length < s.rounds := by rwa [Draft.ahead, List.length_map]
  rw [hahead] at hrounds
  obtain ⟨rounds, hrounds⟩ : ∃ rounds, s.rounds = rounds + 2 :=
    Nat.exists_eq_add_of_le' (Nat.le_trans (by simp) (Nat.succ_le_of_lt hrounds))
  have hloop : loop [] scriptStep s d = .ok [[]] e := by
    show iterate scriptStep s.rounds [] s d = _
    rw [hrounds]
    refine (bind_of_ok (scriptStep_typedef hahead hrun) _).trans ?_
    show iterate scriptStep (rounds + 1) [[]] s e = _
    exact bind_of_ok (scriptStep_done hend) _
  refine ⟨e, ?_, hsymbols⟩
  rw [script_eq, bind_of_ok hloop]
  rfl

end Parse

/-! ## Compilation -/

/-- A text starts with one name of its own. -/
theorem Draft.get?_start (tokens : List (Token × Position)) (table : SharedTable) {x : String}
    (h : x ≠ resultName) : (start tokens table).symbols.get? x = none := by
  show (NameMap.insert _ _ _).get? x = none
  rw [NameMap.get?_insert, if_neg h]
  rfl

namespace Setting

/-- Where the base types go by their names, the declaration of a new name as a type compiles. -/
theorem compile_declaration (s : Setting) {x : String} {t : Ty} (hx : isIdentifier x = true)
    (hnew : x ≠ resultName) (hglobals : s.globals.contains x = false)
    (hs : ∀ t : Ty, t.isBase = true → s.globals.symbols.get? t.render = some (.typedef t))
    (ht : t.spellable = true) (hroom : t.recordDepth ≤ maxNesting) :
    ∃ p, (s.compile (t.declaration x)).1 = .ok p ∧ p.symbols.get? x = some (.typedef t) := by
  have hahead := Ty.kinds_declaration hx ht
  let tokens := tokens (t.declaration x)
  let b := Draft.start tokens s.table
  have hd : b.tokens.length < (s.surroundings (t.declaration x) tokens).rounds :=
    Nat.lt_succ_self tokens.length
  have hbases : Parse.NamesBases (s.surroundings (t.declaration x) tokens) b := by
    intro u hu
    have hother : u.render ≠ resultName := by
      cases u <;> first | decide | cases hu
    unfold Parse.symbol?
    rw [Draft.get?_start tokens s.table hother]
    exact hs u hu
  have hb : b.symbols.contains x = false := by
    unfold NameMap.contains
    rw [Draft.get?_start tokens s.table hnew]
    rfl
  obtain ⟨e, hrun, he⟩ := Parse.script_typedef hd hahead hb hglobals hbases ht hroom
  refine ⟨e.program s.globals [], ?_, ?_⟩
  · have hparse : s.parse Parse.script (t.declaration x) = .ok [] e := hrun
    unfold compile
    rw [hparse]
    rfl
  · show e.symbols.get? x = _
    rw [he, NameMap.get?_insert, if_pos rfl]

end Setting

/-! ## Workspaces -/

namespace Workspace

variable {w : Workspace}

theorem standardGlobals_base (t : Ty) (ht : t.isBase = true) :
    standardGlobals.symbols.get? t.render = some (.typedef t) := by
  cases t <;> first | rfl | cases ht

/-- The text of a new script is compiled. -/
theorem setSource_unknown {unit source : String} (hunit : w.scripts.get? unit = none)
    (hsource : source ≠ "") :
    w.setSource unit source = (w.withSource unit source).compile unit := by
  have hknown : knownOutcome? {} source = none := by
    unfold knownOutcome?
    split
    · next h => exact absurd (by simpa using h) hsource.symm
    · rfl
  refine setSource_eq_compile ?_ _
  rw [hunit]
  exact hknown

/-- A new script that declares a name as a type is compiled, and its program has the type. -/
theorem Sound.setSource_declaration (hw : w.Sound) (unit : String) (hidle : unit ∉ w.active)
    (hunit : w.scripts.get? unit = none) {x : String} (hx : isIdentifier x = true)
    (hnew : x ≠ resultName) (hglobals : w.globals.contains x = false)
    (hbases : ∀ t : Ty, t.isBase = true → w.globals.symbols.get? t.render = some (.typedef t))
    {t : Ty} (ht : t.spellable = true) (hroom : t.recordDepth ≤ maxNesting) :
    ∃ p, p.symbols.get? x = some (.typedef t) ∧
      (w.setSource unit (t.declaration x)).1 = .ok () ∧
      (w.setSource unit (t.declaration x)).2.scripts.program? unit = some p := by
  have hset := (hw.keeps_withSource unit (t.declaration x) fun _ => True).sound
  have hscript : (w.withSource unit (t.declaration x)).scripts.get? unit =
      some { source := t.declaration x } := by
    show (NameMap.insert _ _ _).get? unit = _
    rw [NameMap.get?_insert, if_pos rfl, hunit]
    rfl
  have hsome : t.declaration x ≠ "" := by
    intro h
    have := congrArg String.toList h
    simp [Ty.declaration] at this
  obtain ⟨p, hp, hget⟩ := Setting.compile_declaration
    ((w.withSource unit (t.declaration x)).setting unit) hx hnew hglobals hbases ht hroom
  have hrun := hset.compile_eq_ok Setting.sound_compile hidle hscript hp
  refine ⟨p, hget, ?_, ?_⟩
  · rw [setSource_unknown hunit hsome, hrun]
  · rw [setSource_unknown hunit hsome, hrun]
    exact (program?_rescripted _ unit unit _ p).trans (if_pos rfl)

/-- The text of a type that declarations can spell, with at most so many records in one another as
nest, declares a new name as just that type. No other such type has the same text. -/
theorem render_reads_back (unit : String) {x : String} (hx : isIdentifier x = true)
    (hnew : x ≠ resultName) (hglobals : standardGlobals.contains x = false) {t : Ty}
    (ht : t.spellable = true) (hroom : t.recordDepth ≤ maxNesting) :
    (∃ w p, new.setSource unit ("type " ++ x ++ " = " ++ t.render ++ ";") = (.ok (), w) ∧
      w.scripts.program? unit = some p ∧ p.symbols.get? x = some (.typedef t)) ∧
    ∀ u : Ty, u.spellable = true → u.recordDepth ≤ maxNesting → u.render = t.render → u = t := by
  have hread : ∀ u : Ty, u.spellable = true → u.recordDepth ≤ maxNesting →
      ∃ w p, new.setSource unit (u.declaration x) = (.ok (), w) ∧
        w.scripts.program? unit = some p ∧ p.symbols.get? x = some (.typedef u) := by
    intro u hu hroom
    obtain ⟨p, hget, hok, hprogram⟩ := sound_new.setSource_declaration unit
      List.not_mem_nil rfl hx hnew hglobals standardGlobals_base hu hroom
    exact ⟨_, p, Prod.ext hok rfl, hprogram, hget⟩
  refine ⟨hread t ht hroom, fun u hu huroom hsame => ?_⟩
  -- both types are what the one text declares the name as
  obtain ⟨w, p, hw, hp, ht⟩ := hread t ht hroom
  obtain ⟨w', p', hw', hp', hu⟩ := hread u hu huroom
  have htext : u.declaration x = t.declaration x := by unfold Ty.declaration; rw [hsame]
  rw [htext, hw] at hw'
  cases hw'
  rw [hp] at hp'
  cases hp'
  rw [ht] at hu
  cases hu
  rfl

/-- An array of records, one field named like a type and one an array of records. -/
def pointsType : Ty :=
  .array (.record [("Natural", .real), ("at", .array (.array (.record [("x", .matrix)])))])

theorem render_reads_back_points : isIdentifier "Points" = true ∧ "Points" ≠ resultName ∧
    standardGlobals.contains "Points" = false ∧ pointsType.spellable = true ∧
    pointsType.recordDepth ≤ maxNesting ∧
    (∃ w p, new.setSource "a" ("type " ++ "Points" ++ " = " ++ pointsType.render ++ ";") =
        (.ok (), w) ∧
      w.scripts.program? "a" = some p ∧ p.symbols.get? "Points" = some (.typedef pointsType)) ∧
    ∀ u : Ty, u.spellable = true → u.recordDepth ≤ maxNesting → u.render = pointsType.render →
      u = pointsType := by
  have hx : isIdentifier "Points" = true := by decide
  have hnew : "Points" ≠ resultName := by decide
  have hglobals : standardGlobals.contains "Points" = false := by decide +kernel
  have ht : pointsType.spellable = true := by decide
  have hroom : pointsType.recordDepth ≤ maxNesting := by decide
  exact ⟨hx, hnew, hglobals, ht, hroom, render_reads_back "a" hx hnew hglobals ht hroom⟩

end Workspace

end VectorScript
