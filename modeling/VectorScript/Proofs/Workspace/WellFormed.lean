import VectorScript.Program.Listing
import VectorScript.Proofs.Code.Path
import VectorScript.Proofs.Code.Scan
import VectorScript.Proofs.Workspace.Reachable
import Mathlib.Logic.ExistsUnique

/-!
# Well formed programs

Every text that compiles gives code that can be read from its first word to its last, in which every
path keeps the stack within the depth of its statement, and variables that each have a slot
(`Program.WellFormed`). So a listing has a line for each instruction, with its immediate value and the
names of its operands.

    Reachable Setting.compile w → (Setting.compile (w.setting name) source).1 = .ok p →
      p.WellFormed                                                              (wellFormed_compile)
-/

namespace VectorScript

/-! ## Listings -/

namespace Listing

/-- The lines of instructions, if each that pushes an immediate has one and none is left over. -/
def lines? (p : Program) (place : Nat) (is : List Value) : List Site → Option (List String)
  | [] => if is.isEmpty then some [] else none
  | site :: rest =>
    if site.op = .immed then
      is.head?.bind fun v => (lines? p (place + 1) is.tail rest).map fun later =>
        line p place .immed site.pair (some v) site.operands :: later
    else (lines? p (place + 1 + site.op.operands) is rest).map fun later =>
      line p place site.op site.pair none site.operands :: later

theorem line_eq {op : Opcode} (hop : op ≠ .immed) (p : Program) (place : Nat) (pair : OperandPair)
    (immediate : Option Value) (operands : List UInt32) :
    line p place op pair immediate operands = line p place op pair none operands := by
  unfold line
  rw [if_neg hop, if_neg hop]

theorem code_cons {word : UInt32} {rest : List UInt32} {op : Opcode} {pair : OperandPair}
    (h : Opcode.decode word = some (op, pair)) (p : Program) (place : Nat) (is : List Value) :
    code p place is (word :: rest) =
      line p place op pair is.head? (rest.take op.operands) ::
        code p (place + 1 + op.operands) (if op = .immed then is.drop 1 else is)
          (rest.drop op.operands) := by
  rw [code]
  split
  · next h' => cases h.symm.trans h'
  · next h' =>
    cases h.symm.trans h'
    rfl

/-- The listing of code has the lines of its instructions. -/
theorem lines?_eq {p : Program} {words : List UInt32} {sites : List Site}
    (h : sites? words = some sites) (place : Nat) {is : List Value}
    (his : immediateCount sites = is.length) :
    lines? p place is sites = some (code p place is words) := by
  fun_induction sites? words generalizing sites place is with
  | case1 =>
    cases h
    obtain rfl := List.length_eq_zero_iff.1 his.symm
    rw [lines?, code]
    rfl
  | case2 => cases h
  | case3 => cases h
  | case4 word rest op pair hdecode hroom ih =>
    obtain ⟨later, hlater, rfl⟩ := Option.map_eq_some_iff.1 h
    rw [code_cons hdecode, lines?]
    by_cases hop : op = .immed
    · subst hop
      rw [immediateCount, List.countP_cons, if_pos (by simp)] at his
      cases is with
      | nil => cases his
      | cons v is =>
        simp only [if_true, List.head?_cons, Option.bind_some, List.tail_cons]
        rw [ih hlater _ (Nat.succ.inj his)]
        rfl
    · rw [immediateCount, List.countP_cons, if_neg (by simpa using hop)] at his
      simp only [if_neg hop]
      rw [ih hlater _ his, line_eq hop p place pair is.head?]
      rfl

end Listing

/-! ## Slots and names -/

section

variable {p : Program} {owner : String} {t : SharedTable}

/-- The name of a slot is that of its variable. -/
theorem Program.Linked.slotName?_eq_some (h : p.Linked owner t) {slot : Nat} {x : String} :
    p.slotName? slot = some x ↔ ∃ v, p.symbols.get? x = some (.var v) ∧ v.slot = slot := by
  have hname : ∀ {y}, p.slotName? slot = some y →
      ∃ v, p.symbols.get? y = some (.var v) ∧ v.slot = slot := by
    intro y hy
    obtain ⟨⟨z, symbol⟩, hmem, hsymbol⟩ := List.exists_of_findSome?_eq_some hy
    cases symbol with
    | var v =>
      dsimp only at hsymbol
      split at hsymbol
      · next hslot =>
        cases hsymbol
        exact ⟨v, NameMap.mem_entries.1 hmem, hslot⟩
      · cases hsymbol
    | _ => cases hsymbol
  refine ⟨hname, fun ⟨v, hx, hslot⟩ => ?_⟩
  have hsome : (p.slotName? slot).isSome = true := by
    unfold slotName?
    rw [List.findSome?_isSome_iff]
    refine ⟨(x, .var v), NameMap.mem_entries.2 hx, ?_⟩
    dsimp only
    rw [if_pos hslot]
    rfl
  obtain ⟨y, hy⟩ := Option.isSome_iff_exists.1 hsome
  obtain ⟨u, hu, huslot⟩ := hname hy
  obtain rfl := h.apart x y v u hx hu (hslot.trans huslot.symm)
  exact hy

theorem Program.Linked.exists_slotName? (h : p.Linked owner t) {slot : Nat}
    (hslot : slot < p.slots.length) : ∃ x, p.slotName? slot = some x := by
  obtain ⟨x, v, hx, hv⟩ := h.named slot hslot
  exact ⟨x, h.slotName?_eq_some.2 ⟨v, hx, hv⟩⟩

end

/-! ## Programs -/

/-- The listing gives the variable of the instruction its name. -/
def Site.Named (p : Program) (site : Site) : Prop :=
  site.op = .var → ∃ slot x, site.operands = [slot] ∧ p.slotName? slot.toNat = some x ∧
    Listing.comment p site.op site.operands = " (" ++ x ++ ")"

/-- The code is whole instructions. As many of them push an immediate value as there are immediates,
and the listing has a line for each. If the length of the code fits into a word then every path stays
within the statement's depth and ends with the indices and one value on the stack, of which a run
takes the value. -/
structure Statement.WellFormed (p : Program) (s : Statement) : Prop where
  scan : ∃ sites, sites? s.code = some sites ∧ immediateCount sites = s.immediates.length ∧
    (∀ site ∈ sites, site.Proper p s.code.length ∧ site.Named p ∧
      (s.code.length < UInt32.size → site.Exact p)) ∧
    Listing.lines? p 0 s.immediates sites = some (Listing.code p 0 s.immediates s.code)
  paths : s.code.length < UInt32.size → s.start.Safe s.depth (s.kind.pathLength + 1)
  value : s.code.length < UInt32.size → ∀ callees v m m',
    Exec.value callees s m = .ok v m' → m'.stack.size = s.kind.pathLength

/-- Statements other than jumps have well formed code. Variables and slots correspond, a slot has the
name of its variable, and what a statement stores to has a name. -/
structure Program.WellFormed (p : Program) : Prop where
  statements : ∀ s ∈ p.statements, (∀ distance, s.kind ≠ .jump distance) → s.WellFormed p
  placed : ∀ x v, p.symbols.get? x = some (.var v) → v.slot < p.slots.length
  occupied : ∀ slot < p.slots.length, ∃! x, ∃ v, p.symbols.get? x = some (.var v) ∧ v.slot = slot
  slotName? : ∀ slot x, p.slotName? slot = some x ↔
    ∃ v, p.symbols.get? x = some (.var v) ∧ v.slot = slot
  targets : ∀ slot, p.StoresTo slot → ∃ x, p.slotName? slot = some x

section

variable {p : Program} {owner : String} {t : SharedTable}

theorem Site.Proper.named {size : Nat} {site : Site} (hs : site.Proper p size)
    (h : p.Linked owner t) : site.Named p := by
  intro hop
  obtain ⟨slot, hoperands, hslot⟩ := hs.var hop
  obtain ⟨x, hx⟩ := h.exists_slotName? hslot
  refine ⟨slot, x, hoperands, hx, ?_⟩
  rw [hop, hoperands]
  simp only [Listing.comment, hx]

theorem Statement.Shaped.wellFormed {s : Statement} (hs : s.Shaped p) (h : p.Linked owner t) :
    s.WellFormed p where
  scan := by
    obtain ⟨sites, hsites, hcount, hproper⟩ := hs.scans.alone
    exact ⟨sites, hsites, hcount,
      fun site hsite => ⟨hproper site hsite, (hproper site hsite).named h,
        (hproper site hsite).exact⟩,
      Listing.lines?_eq hsites 0 hcount⟩
  paths := hs.safe
  value hsize _ _ _ _ hvalue := Exec.size_of_value hs hsize hvalue

/-- A linked program is well formed. -/
theorem Program.Linked.wellFormed (h : p.Linked owner t) : p.WellFormed where
  statements s hs hkind := by
    rcases h.shaped s hs with hshaped | ⟨distance, hjump⟩
    · exact hshaped.wellFormed h
    · exact absurd hjump (hkind distance)
  placed x v hx := (List.getElem?_eq_some_iff.1 (h.placed x v hx).slot).1
  occupied slot hslot := by
    obtain ⟨x, v, hx, hv⟩ := h.named slot hslot
    refine ⟨x, ⟨v, hx, hv⟩, fun y ⟨u, hy, hu⟩ => ?_⟩
    exact h.apart y x u v hy hx (hu.trans hv.symm)
  slotName? _ _ := h.slotName?_eq_some
  targets _ hstores := h.exists_slotName? (h.owner_of_storesTo hstores).1

end

namespace Workspace

/-- Whatever text compiles, in whatever workspace actions lead to, gives a well formed program, and
so is every program of the workspace. -/
theorem wellFormed_compile {w : Workspace} (h : Reachable Setting.compile w) :
    (∀ name source p, (Setting.compile (w.setting name) source).1 = .ok p → p.WellFormed) ∧
    ∀ script p, w.scripts.program? script = some p → p.WellFormed := by
  obtain ⟨hw, -⟩ := sound_of_reachable Setting.sound_compile h
  exact ⟨fun name source p hp =>
      (Setting.sound_compile.linked _ source p (hw.toCounted.setting_ok name) hp).wellFormed,
    fun _ _ hp => (hw.toCounted.linked_program hp).wellFormed⟩

/-- A path with an index, guarded values with calls, and a null. -/
def guardedText : String :=
  "Real[] a; Natural n = 1; a = \x7b\x7d; a[n] = when n < 2: random() + 1.0 else sin(0.5);"

/-- The stack holds the index and two values of the sum. -/
theorem wellFormed_compile_guarded : ∃ p,
    (Setting.compile (new.setting "a") guardedText).1 = .ok p ∧ p.WellFormed ∧
      p.statements.map (·.depth) = [1, 1, 3] ∧ p.slotName? 1 = some "a" := by
  have hok : ((Setting.compile (new.setting "a") guardedText).1.toOption.map fun p =>
      (p.statements.map (·.depth), p.slotName? 1)) = some ([1, 1, 3], some "a") := by
    decide +kernel
  cases hp : (Setting.compile (new.setting "a") guardedText).1 with
  | error e =>
    rw [hp] at hok
    cases hok
  | ok p =>
    rw [hp] at hok
    have hfacts := Option.some.inj hok
    exact ⟨p, rfl, (wellFormed_compile .new).1 "a" guardedText p hp, congrArg Prod.fst hfacts,
      congrArg Prod.snd hfacts⟩

end Workspace

end VectorScript
