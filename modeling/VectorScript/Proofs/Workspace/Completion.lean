import VectorScript.Proofs.Completion.Declared
import VectorScript.Proofs.Workspace.Reachable
import VectorScript.Workspace.Completion

/-!
# Completion agrees with the program

What is offered at a cursor begins with the identifier characters before it. Of the names that the
text before them declares, every one is a name of the program that the whole text compiles to, and no
name is missing that a statement declares which ends there.

    compile source = .ok program → x ∈ declaredNames before → program.symbols.contains x
    DeclaresWithin source (utf8Length before) x → x ∈ declaredNames before          (complete_agrees)
-/

namespace VectorScript

open Lexer

namespace Completion

/-! ## The stem -/

/-- The stem at a cursor, which are the identifier characters that end there, and the text before it.
The cursor counts bytes; within a character it stands for the place before that character, and after
the end for the end. A cursor has one stem (`Stem.unique`). -/
structure Stem (source : String) (cursor : Nat) (before stem : List Char) : Prop where
  cursor : ∃ after, source.toList = before ++ stem ++ after ∧ utf8Length (before ++ stem) ≤ cursor ∧
    ∀ c ∈ after.head?, cursor < utf8Length (before ++ stem) + c.utf8Size
  stem : stem.all isNameChar = true
  before : ∀ c ∈ before.getLast?, isNameChar c = false

section

variable {n : Nat} {p m a b t : List Char}

theorem nil_of_fits (hfits : utf8Length (p ++ m) ≤ n)
    (hfull : ∀ c ∈ (m ++ a).head?, n < utf8Length p + c.utf8Size) : m = [] := by
  cases m with
  | nil => rfl
  | cons c m =>
    have hc := hfull c rfl
    rw [utf8Length_append] at hfits
    have hsize : utf8Length (c :: m) = c.utf8Size + utf8Length m := rfl
    omega

theorem nil_of_ends (hb : ∀ c ∈ (b ++ m).getLast?, isNameChar c = false)
    (ht : (m ++ t).all isNameChar = true) : m = [] := by
  apply Classical.byContradiction
  intro hm
  have hlast : m.getLast hm ∈ (b ++ m).getLast? := by
    rw [List.getLast?_append, List.getLast?_eq_some_getLast hm]
    rfl
  have hname := List.all_eq_true.1 ht _ (List.mem_append_left t (List.getLast_mem hm))
  rw [hb _ hlast] at hname
  cases hname

end

theorem Stem.unique {source : String} {cursor : Nat} {before stem before' stem' : List Char}
    (h : Stem source cursor before stem) (h' : Stem source cursor before' stem') :
    before = before' ∧ stem = stem' := by
  obtain ⟨after, hsource, hfits, hfull⟩ := h.cursor
  obtain ⟨after', hsource', hfits', hfull'⟩ := h'.cursor
  have hhead : before ++ stem = before' ++ stem' := by
    rcases List.append_eq_append_iff.1 (hsource.symm.trans hsource') with
      ⟨m, hm, hafter⟩ | ⟨m, hm, hafter⟩
    · obtain rfl : m = [] := nil_of_fits (hm ▸ hfits') (hafter ▸ hfull)
      rw [hm, List.append_nil]
    · obtain rfl : m = [] := nil_of_fits (hm ▸ hfits) (hafter ▸ hfull')
      rw [hm, List.append_nil]
  rcases List.append_eq_append_iff.1 hhead with ⟨m, hm, hstem⟩ | ⟨m, hm, hstem⟩
  · obtain rfl : m = [] := nil_of_ends (hm ▸ h'.before) (hstem ▸ h.stem)
    exact ⟨by rw [hm, List.append_nil], hstem⟩
  · obtain rfl : m = [] := nil_of_ends (hm ▸ h.before) (hstem ▸ h'.stem)
    exact ⟨by rw [hm, List.append_nil], hstem.symm⟩

theorem exists_takeBytes (bytes : Nat) (cs : List Char) : ∃ after, cs = takeBytes bytes cs ++ after ∧
    utf8Length (takeBytes bytes cs) ≤ bytes ∧
    ∀ c ∈ after.head?, bytes < utf8Length (takeBytes bytes cs) + c.utf8Size := by
  induction cs generalizing bytes with
  | nil => exact ⟨[], rfl, Nat.zero_le _, nofun⟩
  | cons c cs ih =>
    rw [takeBytes]
    split
    · next hfits =>
      obtain ⟨after, hcs, hle, hlt⟩ := ih (bytes - c.utf8Size)
      refine ⟨after, congrArg (c :: ·) hcs, ?_, fun d hd => ?_⟩
      · show c.utf8Size + _ ≤ bytes
        omega
      · have hd := hlt d hd
        show bytes < c.utf8Size + _ + _
        omega
    · next hlong =>
      refine ⟨c :: cs, rfl, Nat.zero_le _, ?_⟩
      rintro _ ⟨⟩
      show bytes < 0 + c.utf8Size
      omega

theorem splitStem_append (head : List Char) : (splitStem head).1 ++ (splitStem head).2 = head := by
  unfold splitStem
  rw [← List.reverse_append, List.takeWhile_append_dropWhile, List.reverse_reverse]

theorem stem_splitStem (source : String) (cursor : Nat) :
    Stem source cursor (splitStem (takeBytes cursor source.toList)).1
      (splitStem (takeBytes cursor source.toList)).2 where
  cursor := by
    rw [splitStem_append]
    exact exists_takeBytes cursor source.toList
  stem := by
    unfold splitStem
    rw [List.all_reverse]
    exact List.all_takeWhile
  before := by
    unfold splitStem
    intro c hc
    rw [List.getLast?_reverse] at hc
    have hhead := List.head?_dropWhile_not isNameChar (takeBytes cursor source.toList).reverse
    rw [hc] at hhead
    exact hhead

/-! ## Candidates -/

variable {names : List String} {x : String}

theorem contains_foldl_add (s : NameSet) :
    (names.foldl NameMap.add s).contains x = true ↔ x ∈ names ∨ s.contains x = true := by
  induction names generalizing s with
  | nil => simp
  | cons name names ih =>
    rw [List.foldl_cons, ih, NameMap.add, NameMap.contains_insert, List.mem_cons]
    tauto

theorem mem_sorted : x ∈ sorted names ↔ x ∈ names := by
  unfold sorted
  rw [NameMap.mem_names, contains_foldl_add]
  simp [NameMap.contains]

theorem pairwise_sorted (names : List String) : (sorted names).Pairwise (· < ·) :=
  List.pairwise_map.2 (NameMap.sorted _)

end Completion

theorem Globals.mem_names {g : Globals} {x : String} : x ∈ g.names ↔ g.contains x = true := by
  unfold names contains
  rw [List.mem_append, NameMap.mem_names, NameMap.mem_names, Bool.or_eq_true]

theorem Word.mem_spellings {x : String} : x ∈ all.map spelling ↔ ∃ k : Word, x = k.spelling := by
  rw [List.mem_map]
  constructor
  · rintro ⟨k, -, rfl⟩
    exact ⟨k, rfl⟩
  · rintro ⟨k, rfl⟩
    refine ⟨k, ?_, rfl⟩
    cases k <;> decide

namespace Setting

variable {s : Setting} {source : String} {before stem : List Char} {cursor : Nat} {x : String}

/-- The text before a stem declares names of the program only, and all that its statements declare. -/
theorem declaredNames_before (hs : s.Ok) {program : Program}
    (hcompile : (s.compile source).1 = .ok program)
    (hstem : Completion.Stem source cursor before stem) :
    (∀ x ∈ s.declaredNames (String.ofList before), program.symbols.contains x = true) ∧
      ∀ x, s.DeclaresWithin source (utf8Length before) x →
        x ∈ s.declaredNames (String.ofList before) := by
  obtain ⟨after, hsource, -⟩ := hstem.cursor
  have hparted := parted_tokens hstem.before (stem ++ after)
  rw [← List.append_assoc, ← hsource, String.ofList_toList] at hparted
  obtain ⟨common, rest, stub, hwhole, hpart, hblunt, -, hrest⟩ := hparted.exists_common
  obtain ⟨body, d, statements, hparse, -, rfl, -⟩ := compile_eq_ok hcompile
  constructor
  · intro x hx
    exact contains_of_declared hs hwhole hpart hblunt hparse hx
  · intro x hx
    exact declared_of_within hs hwhole hpart hblunt hrest hx

end Setting

namespace Workspace

variable {w : Workspace}

/-- Completion at a cursor agrees with the finished program. Where the whole text compiles, what the
text before the stem declares are names of the program, and none is missing that is declared by a
statement which ends there. The candidates are, in increasing order, the names that begin with the
stem among these, those of the host, the keywords and the names of scripts. -/
theorem complete_agrees (h : Reachable Setting.compile w) (name source : String) {program : Program}
    (hcompile : ((w.setting name).compile source).1 = .ok program) (cursor : Nat) :
    ∃ before stem, Completion.Stem source cursor before stem ∧
      (∀ x ∈ (w.setting name).declaredNames (String.ofList before),
        program.symbols.contains x = true) ∧
      (∀ x, (w.setting name).DeclaresWithin source (utf8Length before) x →
        x ∈ (w.setting name).declaredNames (String.ofList before)) ∧
      (w.complete name source cursor).stem = String.ofList stem ∧
      (w.complete name source cursor).candidates.Pairwise (· < ·) ∧
      ∀ x, x ∈ (w.complete name source cursor).candidates ↔ stem <+: x.toList ∧
        (x ∈ (w.setting name).declaredNames (String.ofList before) ∨
          w.globals.contains x = true ∨ (∃ k : Word, x = k.spelling) ∨
          w.scripts.contains x = true) := by
  obtain ⟨hw, -⟩ := sound_of_reachable Setting.sound_compile h
  have hstem := Completion.stem_splitStem source cursor
  obtain ⟨hdeclared, hwithin⟩ :=
    Setting.declaredNames_before (hw.setting_ok name) hcompile hstem
  refine ⟨_, _, hstem, hdeclared, hwithin, rfl, Completion.pairwise_sorted _, fun x => ?_⟩
  unfold complete
  dsimp only
  rw [Completion.mem_sorted, List.mem_filter, List.isPrefixOf_iff_prefix, and_comm,
    List.mem_append, List.mem_append, List.mem_append, Globals.mem_names, Word.mem_spellings,
    NameMap.mem_names, or_assoc, or_assoc]

/-- A text that uses the first of its names to declare the second one. -/
def twoNames : String := "Natural first = 1; Natural last = first + 1;"

theorem declaresWithin_twoNames : (new.setting "a").DeclaresWithin twoNames 34 "first" := by
  have hrun : (match Parse.statement maxNesting
      ((new.setting "a").surroundings twoNames (tokens twoNames))
      (.start (tokens twoNames) new.table) with
    | .error _ _ => false
    | .ok _ e => (tokens twoNames == (tokens twoNames).take 5 ++ e.tokens) &&
      e.symbols.contains "first") = true := by decide +kernel
  split at hrun
  · cases hrun
  · next body e hstatement =>
    rw [Bool.and_eq_true, beq_iff_eq] at hrun
    exact ⟨_, body, e, _, .start, hstatement, hrun.1, by decide +kernel, rfl, hrun.2⟩

/-- In the middle of a name that has been declared that name is offered. -/
theorem complete_agrees_twoNames :
    ∃ program, ((new.setting "a").compile twoNames).1 = .ok program ∧
      "first" ∈ (new.complete "a" twoNames 36).candidates ∧
      program.symbols.contains "first" = true := by
  cases hcompile : ((new.setting "a").compile twoNames).1 with
  | error e =>
    have hok : ((new.setting "a").compile twoNames).1.toOption.isSome = true := by decide +kernel
    rw [hcompile] at hok
    cases hok
  | ok program =>
    obtain ⟨before, stem, hstem, hdeclared, hwithin, -, -, hmem⟩ :=
      complete_agrees .new "a" twoNames hcompile 36
    obtain ⟨rfl, rfl⟩ := hstem.unique (Completion.stem_splitStem twoNames 36)
    have hbefore : utf8Length (Completion.splitStem (Completion.takeBytes 36 twoNames.toList)).1 = 34 := by
      decide +kernel
    have hfirst := hwithin "first" (hbefore ▸ declaresWithin_twoNames)
    refine ⟨program, rfl, ?_, hdeclared _ hfirst⟩
    exact (hmem "first").2 ⟨by decide +kernel, .inl hfirst⟩

end Workspace

end VectorScript
