import VectorScript.Ty
import VectorScript.Proofs.Token.Spelling

/-!
# The text of a type

A type that a declaration can spell has a text of known tokens. What follows the text must not go on
with the name that it may end with.

    t.spellable → NameEnds rest → kinds (t.render.toList ++ rest) = t.written ++ kinds rest
                                                                                    (kinds_render)
-/

namespace VectorScript

namespace Ty

mutual

/-- Whether declarations can spell the type: no null or selector stands in it, and each of its
records has fields with identifiers for names, no two of them the same. -/
def spellable : Ty → Bool
  | integer | real | vector | matrix | text => true
  | array elem => spellable elem
  | record fields => !fields.isEmpty && spellableFields fields
  | null | selector _ => false

def spellableFields : List (String × Ty) → Bool
  | [] => true
  | (name, t) :: rest => Lexer.isIdentifier name && spellable t &&
    rest.all (fun field => field.1 ≠ name) && spellableFields rest

end

mutual

/-- How many records at most are nested in one another. -/
def recordDepth : Ty → Nat
  | array elem => recordDepth elem
  | record fields => recordDepthFields fields + 1
  | _ => 0

def recordDepthFields : List (String × Ty) → Nat
  | [] => 0
  | (_, t) :: rest => max (recordDepth t) (recordDepthFields rest)

end

mutual

/-- The tokens of the text of a type. -/
def written : Ty → List Token
  | array elem => written elem ++ [.mark .leftBracket, .mark .rightBracket]
  | record fields => .word .recordWord :: .mark .leftParen :: writtenFields fields
  | t => [.ident t.render]

/-- The tokens of the fields of a record, with the parenthesis after them. -/
def writtenFields : List (String × Ty) → List Token
  | [] => [.mark .rightParen]
  | [(name, t)] => written t ++ [.ident name, .mark .rightParen]
  | (name, t) :: next :: rest =>
    written t ++ .ident name :: .mark .comma :: writtenFields (next :: rest)

end

/-! ## From text to tokens -/

open Lexer

theorem nameEnds_cons {c : Char} (h : isNameChar c = false) (cs : List Char) :
    NameEnds (c :: cs) := by
  rintro _ ⟨⟩
  exact h

/-- The text of a field: its type, a blank and its name. -/
theorem kinds_field {name : String} {t : Ty} (hname : isIdentifier name = true)
    (ht : ∀ rest, NameEnds rest → kinds (t.render.toList ++ rest) = t.written ++ kinds rest)
    (cs : List Char) (hcs : NameEnds cs) :
    kinds ((t.render ++ " " ++ name).toList ++ cs) = t.written ++ .ident name :: kinds cs := by
  have hblank := ht (' ' :: (name.toList ++ cs)) (nameEnds_cons rfl _)
  rw [kinds_space, kinds_identifier hname cs hcs] at hblank
  simpa [String.toList_append] using hblank

/-- A base type is spelled by an identifier. -/
theorem kinds_base {t : Ty} {cs : List Char} (ht : isIdentifier t.render = true)
    (hw : t.written = [.ident t.render]) (hcs : NameEnds cs) :
    kinds (t.render.toList ++ cs) = t.written ++ kinds cs := by
  rw [kinds_identifier ht cs hcs, hw]
  rfl

/-- A mark that cannot begin an operator of two characters is read whatever follows. -/
theorem kinds_bracket {m : Mark} (hdot : m ≠ .dot) (hassign : m ≠ .assign) (cs : List Char) :
    kinds (m.spelling.toList ++ cs) = .mark m :: kinds cs :=
  kinds_mark hdot cs fun h => absurd h hassign

mutual

theorem kinds_render : (t : Ty) → t.spellable = true → (rest : List Char) → NameEnds rest →
    kinds (t.render.toList ++ rest) = t.written ++ kinds rest
  | integer, _, rest, hr | real, _, rest, hr | vector, _, rest, hr | matrix, _, rest, hr
  | text, _, rest, hr => kinds_base (by decide) rfl hr
  | array elem, ht, rest, _ => by
    have hopen := kinds_bracket (m := .leftBracket) nofun nofun (']' :: rest)
    have hclose := kinds_bracket (m := .rightBracket) nofun nofun rest
    have helem := kinds_render elem ht ('[' :: ']' :: rest) (nameEnds_cons rfl _)
    calc kinds ((render elem ++ "[]").toList ++ rest)
        = kinds ((render elem).toList ++ '[' :: ']' :: rest) := by
          rw [String.toList_append, List.append_assoc]
          rfl
      _ = elem.written ++ kinds ('[' :: ']' :: rest) := helem
      _ = elem.written ++ .mark .leftBracket :: .mark .rightBracket :: kinds rest :=
          congrArg _ (hopen.trans (congrArg _ hclose))
      _ = (array elem).written ++ kinds rest := by
          rw [written, List.append_assoc]
          rfl
  | record fields, ht, rest, _ => by
    obtain ⟨hne, hfields⟩ := Bool.and_eq_true_iff.1 ht
    have hword := kinds_word .recordWord ('(' :: ((", ".intercalate
      (renderFields fields)).toList ++ ')' :: rest)) (nameEnds_cons rfl _)
    have hopen := kinds_bracket (m := .leftParen) nofun nofun ((", ".intercalate
      (renderFields fields)).toList ++ ')' :: rest)
    have hbody := kinds_renderFields fields (by simpa using hne) hfields rest
    calc kinds (("record(" ++ ", ".intercalate (renderFields fields) ++ ")").toList ++ rest)
        = kinds (Word.recordWord.spelling.toList ++ '(' :: ((", ".intercalate
            (renderFields fields)).toList ++ ')' :: rest)) := by
          rw [String.toList_append, String.toList_append, List.append_assoc, List.append_assoc]
          rfl
      _ = .word .recordWord :: .mark .leftParen :: (writtenFields fields ++ kinds rest) :=
          hword.trans (congrArg _ (hopen.trans (congrArg _ hbody)))
      _ = (record fields).written ++ kinds rest := by
          rw [written]
          rfl

theorem kinds_renderFields : (fields : List (String × Ty)) → fields ≠ [] →
    spellableFields fields = true → (rest : List Char) →
    kinds ((", ".intercalate (renderFields fields)).toList ++ ')' :: rest) =
      writtenFields fields ++ kinds rest
  | [], hne, _, _ => absurd rfl hne
  | [(name, t)], _, hf, rest => by
    simp only [spellableFields, Bool.and_eq_true] at hf
    have hclose := kinds_bracket (m := .rightParen) nofun nofun rest
    have hfield := kinds_field hf.1.1.1 (kinds_render t hf.1.1.2) (')' :: rest)
      (nameEnds_cons rfl _)
    rw [renderFields, renderFields, String.intercalate_singleton, writtenFields, hfield,
      List.append_assoc]
    exact congrArg (fun ts => t.written ++ .ident name :: ts) hclose
  | (name, t) :: next :: others, _, hf, rest => by
    rw [spellableFields] at hf
    obtain ⟨hf, hothers⟩ := Bool.and_eq_true_iff.1 hf
    simp only [Bool.and_eq_true] at hf
    -- The comma ends the name before it, and the blank after it belongs to no token.
    have hcomma := kinds_bracket (m := .comma) nofun nofun (' ' :: ((", ".intercalate
      (renderFields (next :: others))).toList ++ ')' :: rest))
    have hbody := kinds_renderFields (next :: others) (List.cons_ne_nil _ _) hothers rest
    have hfield := kinds_field hf.1.1 (kinds_render t hf.1.2) (',' :: ' ' :: ((", ".intercalate
      (renderFields (next :: others))).toList ++ ')' :: rest)) (nameEnds_cons rfl _)
    calc kinds ((", ".intercalate (renderFields ((name, t) :: next :: others))).toList ++
            ')' :: rest)
        = kinds ((t.render ++ " " ++ name).toList ++ ',' :: ' ' :: ((", ".intercalate
            (renderFields (next :: others))).toList ++ ')' :: rest)) := by
          rw [renderFields, String.intercalate_cons_of_ne_nil (by simp [renderFields]),
            String.toList_append, String.toList_append, List.append_assoc, List.append_assoc]
          rfl
      _ = t.written ++ .ident name :: .mark .comma ::
            (writtenFields (next :: others) ++ kinds rest) := by
          rw [hfield]
          refine congrArg (fun ts => t.written ++ .ident name :: ts) ?_
          exact hcomma.trans (congrArg _ ((kinds_space _).trans hbody))
      _ = writtenFields ((name, t) :: next :: others) ++ kinds rest := by
          rw [writtenFields, List.append_assoc]
          rfl

end

end Ty

end VectorScript
