import VectorScript.Proofs.Compilation.Script
import VectorScript.Proofs.Program.Linked

/-!
# Two compilations, their programs

What a text compiles to does not depend on what the script itself has declared before, but for the
shared variables that stand for what it declares (`Program.Counterpart`); and a fault is the same. Once
a text has been read nothing can go wrong: its trees can always be laid out. Each statement of the
program stands where its tree has been read.

    (s.beside scripts table source).Ok → the two compilations give counterparts or the same fault
                                                                                  (compile_beside)
    (s.compile source).1 = .ok p → st ∈ p.statements, no jump →
      the text reads at st.position as the tree that st opens                 (readsAt_of_compile)
-/

namespace VectorScript

/-! ## Laying out -/

namespace Stmt

/-- Where neither a step nor what follows can fail. -/
theorem exists_bind {α β : Type} {x : Except Fault α} {f : α → Except Fault β}
    (hx : ∃ a, x = .ok a) (hf : ∀ a, ∃ b, f a = .ok b) : ∃ b, x >>= f = .ok b := by
  obtain ⟨a, rfl⟩ := hx
  exact hf a

mutual

/-- Every tree can be laid out. -/
theorem exists_flatten : (s : Stmt) → ∃ statements, s.flatten = .ok statements
  | store _ path value _ => exists_bind ⟨_, assemble_eq ((Expr.emitsAll path).seq value.emits) _ _⟩
      fun _ => ⟨_, rfl⟩
  | discard e _ => exists_bind ⟨_, assemble_eq e.emits _ _⟩ fun _ => ⟨_, rfl⟩
  | ifThen condition _ body => exists_bind (exists_flattenAll body) fun _ =>
      exists_bind ⟨_, assemble_eq condition.emits _ _⟩ fun _ => ⟨_, rfl⟩
  | ifElse condition _ body _ otherwise => exists_bind (exists_flattenAll body) fun _ =>
      exists_bind (exists_flattenAll otherwise) fun _ =>
        exists_bind ⟨_, assemble_eq condition.emits _ _⟩ fun _ =>
          exists_bind ⟨_, assemble_eq Builder.Emits.nothing _ _⟩ fun _ => ⟨_, rfl⟩

theorem exists_flattenAll : (body : List Stmt) → ∃ statements, flattenAll body = .ok statements
  | [] => ⟨[], rfl⟩
  | s :: rest => exists_bind (exists_flatten s) fun _ =>
      exists_bind (exists_flattenAll rest) fun _ => ⟨_, rfl⟩

end

end Stmt

/-! ## Counterparts -/

/-- Variables alike are in one slot, and are shared both or neither. -/
theorem Symbol.bare_eq_var {symbol : Symbol} {v : Variable} (h : symbol.bare = (var v).bare) :
    ∃ v', symbol = var v' ∧ v'.ty = v.ty ∧ v'.slot = v.slot ∧ v'.imported = v.imported ∧
      (v.imported = true → v'.shared = v.shared) ∧ v'.shared.isSome = v.shared.isSome := by
  cases symbol with
  | var v' =>
    obtain ⟨ty, slot, shared, imported⟩ := v
    obtain ⟨ty', slot', shared', imported'⟩ := v'
    simp only [bare, var.injEq, Variable.mk.injEq] at h
    obtain ⟨rfl, rfl, hshared, rfl⟩ := h
    refine ⟨_, rfl, rfl, rfl, rfl, fun himp => ?_, ?_⟩
    · rw [if_pos himp, if_pos himp] at hshared
      exact hshared
    · have hsome := congrArg Option.isSome hshared
      split at hsome
      · exact hsome
      · simpa only [Option.isSome_map] using hsome
  | _ => cases h

theorem Symbol.eq_of_bare {symbol symbol' : Symbol} (h : symbol'.bare = symbol.bare)
    (hv : ∀ v, symbol ≠ var v) : symbol' = symbol := by
  cases symbol with
  | var v => exact absurd rfl (hv v)
  | _ => cases symbol' <;> first | exact h | cases h

/-- The programs are the same but for the ids of what they declare themselves. -/
structure Program.Counterpart (p p' : Program) : Prop where
  statements : p'.statements = p.statements
  functions : p'.functions = p.functions
  imports : p'.imports = p.imports
  subscripts : p'.subscripts = p.subscripts
  symbols : ∀ x, (p'.symbols.get? x).map Symbol.bare = (p.symbols.get? x).map Symbol.bare
  slots : p'.slots.length = p.slots.length
  references : p.references = p.slots.filterMap Slot.id?
  references' : p'.references = p'.slots.filterMap Slot.id?

namespace Program

variable {p p' : Program} {owner : String} {t t' : SharedTable}

/-- A program exports what it declares. -/
theorem Linked.exports_eq_some (hl : p.Linked owner t) {x : String} {id : SharedId} :
    p.exports.get? x = some id ↔
      ∃ v, p.symbols.get? x = some (.var v) ∧ v.shared = some id ∧ v.imported = false := by
  constructor
  · intro h
    obtain ⟨-, -, v, -, -, hrest⟩ := hl.exports x id h
    exact ⟨v, hrest⟩
  · rintro ⟨v, hx, hv, himp⟩
    exact hl.exported x v id hx hv himp

/-- Where programs agree on their exports, counterparts have the same symbols. -/
theorem Counterpart.symbol_eq (h : p.Counterpart p') (hl : p.Linked owner t)
    (hl' : p'.Linked owner t')
    (hown : ∀ x id id', p.exports.get? x = some id → p'.exports.get? x = some id' → id' = id)
    (x : String) : p'.symbols.get? x = p.symbols.get? x := by
  have hsymbol := h.symbols x
  cases hx : p.symbols.get? x with
  | none =>
    rw [hx] at hsymbol
    exact Option.map_eq_none_iff.1 hsymbol
  | some symbol =>
    rw [hx] at hsymbol
    obtain ⟨symbol', hx', hbare⟩ := Option.map_eq_some_iff.1 hsymbol
    rw [hx']
    cases symbol with
    | var v =>
      obtain ⟨v', rfl, hty, hslot, himp, himported, hsome⟩ := Symbol.bare_eq_var hbare
      have hshared : v'.shared = v.shared := by
        by_cases hv : v.imported = true
        · exact himported hv
        · rw [Bool.not_eq_true] at hv
          cases hid : v.shared with
          | none =>
            rw [hid] at hsome
            exact Option.isSome_eq_false_iff.1 hsome |> Option.isNone_iff_eq_none.1
          | some id =>
            rw [hid] at hsome
            obtain ⟨id', hid'⟩ := Option.isSome_iff_exists.1 hsome
            rw [hid', hown x id id' (hl.exports_eq_some.2 ⟨v, hx, hid, hv⟩)
              (hl'.exports_eq_some.2 ⟨v', hx', hid', himp.trans hv⟩)]
      obtain ⟨⟩ := v
      obtain ⟨⟩ := v'
      simp only at hty hslot himp hshared
      rw [hty, hslot, himp, hshared]
    | _ => exact congrArg some (Symbol.eq_of_bare hbare fun _ => by simp)

/-- The slots of a program go by its symbols. -/
theorem Linked.slots_eq (hl : p.Linked owner t) (hl' : p'.Linked owner t')
    (hlength : p'.slots.length = p.slots.length)
    (hsymbols : ∀ x, p'.symbols.get? x = p.symbols.get? x) : p'.slots = p.slots := by
  refine List.ext_getElem? fun n => ?_
  by_cases hn : n < p.slots.length
  · obtain ⟨x, v, hx, rfl⟩ := hl.named n hn
    rw [(hl.placed x v hx).slot, (hl'.placed x v ((hsymbols x).trans hx)).slot]
  · rw [List.getElem?_eq_none (Nat.not_lt.1 hn),
      List.getElem?_eq_none (hlength ▸ Nat.not_lt.1 hn)]

/-- Counterparts that agree on what they declare are one program. -/
theorem Counterpart.eq (h : p.Counterpart p') (hl : p.Linked owner t) (hl' : p'.Linked owner t')
    (hown : ∀ x id id', p.exports.get? x = some id → p'.exports.get? x = some id' → id' = id) :
    p' = p := by
  have hsymbols := h.symbol_eq hl hl' hown
  have hslots := hl.slots_eq hl' h.slots hsymbols
  have hexports : p'.exports = p.exports := by
    refine NameMap.ext_get? fun x => Option.ext fun id => ?_
    rw [hl.exports_eq_some, hl'.exports_eq_some, hsymbols]
  have hreferences : p'.references = p.references := by
    rw [h.references, h.references', hslots]
  have hmap := NameMap.ext_get? hsymbols
  obtain ⟨hst, hf, hi, hsub, -, -, -, -⟩ := h
  obtain ⟨⟩ := p
  obtain ⟨⟩ := p'
  simp only at hslots hexports hreferences hmap hst hf hi hsub
  rw [hslots, hexports, hreferences, hmap, hst, hf, hi, hsub]

end Program

/-! ## Compiling -/

theorem Draft.From.start (s : Surroundings) (tokens : List (Token × Position)) (t : SharedTable) :
    (Draft.start tokens t).From s tokens t where
  tokens := List.suffix_refl _
  imports _ h := nomatch h
  references := rfl
  entries _ _ h := h
  next_le := Nat.le_refl _
  table := .inl rfl
  lookup _ _ := rfl
  redeclared x v id e hx hid := by
    rcases NameMap.eq_or_get?_of_insert hx with ⟨-, hv⟩ | hx
    · cases hv
      cases hid
    · cases hx

namespace Setting

/-- The compilation in the setting, and one among other scripts and on another table. -/
def beside (s : Setting) (scripts : Scripts) (table : SharedTable) (source : String) : Tandem :=
  ⟨s.surroundings source (Lexer.tokens source), scripts, Lexer.tokens source, s.table, table⟩

variable {s : Setting} {scripts : Scripts} {table : SharedTable} {source : String}

/-- A text is read the same in both settings. -/
theorem parse_beside (hc : (s.beside scripts table source).Ok) :
    match s.parse Parse.script source,
      ({ s with scripts := scripts, table := table } : Setting).parse Parse.script source with
    | .ok body d, .ok body' d' => body' = body ∧ (s.beside scripts table source).Alike d d' ∧
      ∀ a ∈ body, (s.beside scripts table source).Placed a
    | .error e d, .error e' _ => e' = e ∧ (s.beside scripts table source).Blames e d.tokens
    | _, _ => False := by
  have hstart : (s.beside scripts table source).Alike (Draft.start (Lexer.tokens source) s.table)
      (Draft.start (Lexer.tokens source) table) :=
    ⟨.start _ _ _, .start _ _ _, rfl, rfl, fun _ => rfl, rfl, rfl⟩
  have h := Tandem.inStep_script hc _ _ hstart rfl
  unfold Tandem.StepsFrom at h
  show match Parse.script (s.beside scripts table source).here
      (Draft.start (Lexer.tokens source) s.table), Parse.script (s.beside scripts table source).there
      (Draft.start (Lexer.tokens source) table) with
    | .ok body d, .ok body' d' => body' = body ∧ (s.beside scripts table source).Alike d d' ∧
      ∀ a ∈ body, (s.beside scripts table source).Placed a
    | .error e d, .error e' _ => e' = e ∧ (s.beside scripts table source).Blames e d.tokens
    | _, _ => False
  split at h
  · next hx hx' =>
    rw [hx, hx']
    exact ⟨h.1, h.2.1, h.2.2.2⟩
  · next hx hx' =>
    rw [hx, hx']
    exact h
  · exact h.elim

/-- A text compiles to counterparts in both settings, or fails in both with the same fault. -/
theorem compile_beside (hc : (s.beside scripts table source).Ok) :
    (∃ p p', (s.compile source).1 = .ok p ∧
      (compile { s with scripts := scripts, table := table } source).1 = .ok p' ∧
        p.Counterpart p') ∨
    ∃ e, (s.compile source).1 = .error e ∧
      (compile { s with scripts := scripts, table := table } source).1 = .error e := by
  have h := parse_beside hc
  unfold compile
  split at h
  · next body d body' d' hp hp' =>
    obtain ⟨rfl, halike, -⟩ := h
    obtain ⟨statements, hstatements⟩ := Stmt.exists_flattenAll body'
    rw [hp, hp']
    dsimp only
    rw [hstatements]
    exact .inl ⟨_, _, rfl, rfl, rfl, rfl, halike.imports, halike.subscripts, halike.symbols,
      halike.slots, halike.here.references, halike.there.references⟩
  · next e d e' d' hp hp' =>
    obtain ⟨rfl, -⟩ := h
    rw [hp, hp']
    exact .inr ⟨_, rfl, rfl⟩
  · exact h.elim

/-- A compilation goes by its own side. -/
theorem beside_self (hs : s.Ok) (source : String) : (s.beside s.scripts s.table source).Ok where
  rounds := Nat.lt_succ_self _
  contains _ _ := rfl
  exports _ _ := rfl
  dependsOn _ _ := rfl
  offers id hid := by
    have hs := hs source (Lexer.tokens source)
    rcases hid with ⟨x, hx⟩ | ⟨script, exports, x, -, hexports, hx⟩
    · obtain ⟨e, he, -⟩ := hs.shared x id hx
      exact ⟨e, e, he, he, rfl⟩
    · obtain ⟨e, he, -⟩ := hs.exports script exports x id hexports hx
      exact ⟨e, e, he, he, rfl⟩

/-- What is wrong with a text shows in it, at a token or at its end. -/
theorem compile_error (hs : s.Ok) {e : Fault} (h : (s.compile source).1 = .error e) :
    e.isRuntime = false ∧ ∃ d p, s.parse Parse.script source = .error e d ∧ e.position = some p ∧
      ((∃ t, (t, p) ∈ Lexer.tokens source) ∨ p = Lexer.endPosition source ∧ d.tokens = []) := by
  have hparse := parse_beside (beside_self hs source)
  unfold compile at h
  split at hparse
  · next body d body' d' hp hp' =>
    obtain ⟨statements, hstatements⟩ := Stmt.exists_flattenAll body
    rw [hp] at h
    dsimp only at h
    rw [hstatements] at h
    cases h
  · next e' d _ _ hp _ =>
    rw [hp] at h
    cases h
    obtain ⟨-, hstatic, p, hpos, hpoints⟩ := hparse
    exact ⟨hstatic, d, p, hp, hpos, hpoints⟩
  · exact hparse.elim

/-- From the place on, the text reads as the statement. -/
def ReadsAt (s : Setting) (source : String) (p : Position) (a : Stmt) : Prop :=
  ∃ d d' t rest, d.tokens <:+ Lexer.tokens source ∧ d.tokens = (t, p) :: rest ∧
    Parse.ReadsOne (s.surroundings source (Lexer.tokens source)) d d' a

/-- Every statement of a program but the jumps stands where the text reads as the tree that the
statement opens. -/
theorem readsAt_of_compile (hs : s.Ok) {p : Program} (h : (s.compile source).1 = .ok p) :
    ∀ st ∈ p.statements, (∃ distance, st.kind = .jump distance) ∨
      ∃ a, s.ReadsAt source st.position a ∧ a.OpensWith st := by
  obtain ⟨body, d, statements, hp, hflatten, rfl, -⟩ := compile_eq_ok h
  have hparse := parse_beside (beside_self hs source)
  split at hparse
  · next hd _ =>
    cases hp.symm.trans hd
    intro st hst
    refine (Stmt.opening_flattenAll body hparse.2.2 hflatten st hst).imp_right ?_
    rintro ⟨a, hstands, hopens⟩
    refine ⟨a, ?_, hopens⟩
    rw [hopens.position_eq]
    exact hstands
  · next hd _ => cases hp.symm.trans hd
  · exact hparse.elim

/-- The draft that a program is made of. -/
theorem from_of_compile (hs : s.Ok) {p : Program} (h : (s.compile source).1 = .ok p) :
    ∃ (d : Draft) (statements : List Statement), p = d.program s.globals statements ∧
      (s.compile source).2 = d.table ∧
      d.From (s.surroundings source (Lexer.tokens source)) (Lexer.tokens source) s.table := by
  obtain ⟨body, d, statements, hp, -, rfl, htable⟩ := compile_eq_ok h
  have hparse := parse_beside (beside_self hs source)
  split at hparse
  · next hd _ =>
    cases hp.symm.trans hd
    exact ⟨d, statements, rfl, htable, hparse.2.1.here⟩
  · next hd _ => cases hp.symm.trans hd
  · exact hparse.elim

/-- A script imports from none that depends on it, as far as the programs there are tell. -/
theorem imports_of_compile (hs : s.Ok) {p : Program} (h : (s.compile source).1 = .ok p)
    {script : String} (himport : p.imports.contains script = true) :
    p.subscripts.contains script = true ∧ script ≠ s.name ∧
      s.scripts.dependsOn script s.name = false := by
  obtain ⟨d, _, rfl, -, hfrom⟩ := from_of_compile hs h
  exact hfrom.imports script himport

/-- A shared variable declared again goes on if it has its type, and else there is a new one. -/
theorem redeclared_of_compile (hs : s.Ok) {p : Program} (h : (s.compile source).1 = .ok p)
    {x : String} {v : Variable} {id : SharedId} {e : SharedEntry}
    (hx : p.symbols.get? x = some (.var v)) (hid : v.shared = some id) (himp : v.imported = false)
    (he : s.table.current? s.name x = some e) :
    (e.ty = v.ty → id = e.id) ∧ (e.ty ≠ v.ty → s.table.next ≤ id.index) := by
  obtain ⟨d, _, rfl, -, hfrom⟩ := from_of_compile hs h
  exact hfrom.redeclared x v id e hx hid himp he

/-- A compilation that refers to nothing new leaves the table alone. -/
theorem table_of_compile (hs : s.Ok) {p : Program} (h : (s.compile source).1 = .ok p) :
    (s.compile source).2 = s.table ∨ ∃ id ∈ p.references, s.table.next ≤ id.index := by
  obtain ⟨d, _, rfl, htable, hfrom⟩ := from_of_compile hs h
  rw [htable]
  exact hfrom.table

end Setting

end VectorScript
