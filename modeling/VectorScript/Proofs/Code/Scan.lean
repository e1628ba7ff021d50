import VectorScript.Proofs.Code.Straight

/-!
# Scanning code

Code is scanned from its first word on, each instruction with its operand words (`sites?`). Code of the
shape that statements have scans to its last word. There is one instruction for every immediate value,
the operands of variables and calls name what the program has, and what a guard protects is whole
instructions (`Site.Proper`).

    s.Shaped p → Scans p s.code.length s.code s.immediates.length                      (scans)
-/

namespace VectorScript

/-! ## Sites -/

/-- An instruction where it stands: its word, what that decodes to, its operand words, and all the
words after them. -/
structure Site where
  word : UInt32
  op : Opcode
  pair : OperandPair
  operands : List UInt32
  after : List UInt32

/-- The instructions of code, if each of them decodes and the last one has all its operands. -/
def sites? : List UInt32 → Option (List Site)
  | [] => some []
  | word :: rest =>
    match Opcode.decode word with
    | none => none
    | some (op, pair) =>
      if rest.length < op.operands then none
      else
        (sites? (rest.drop op.operands)).map fun sites =>
          ⟨word, op, pair, rest.take op.operands, rest.drop op.operands⟩ :: sites
termination_by words => words.length
decreasing_by
  simp only [List.length_drop, List.length_cons]
  omega

/-- How many of the instructions push an immediate value. -/
def immediateCount (sites : List Site) : Nat := sites.countP fun site => site.op = .immed

theorem immediateCount_append (sites more : List Site) :
    immediateCount (sites ++ more) = immediateCount sites + immediateCount more :=
  List.countP_append

@[simp] theorem sites?_nil : sites? [] = some [] := by
  rw [sites?]

theorem sites?_encode (op : Opcode) (pair : Option OperandPair) {operands : List UInt32}
    (h : operands.length = op.operands) (rest : List UInt32) :
    sites? (op.encode pair :: (operands ++ rest)) = (sites? rest).map fun sites =>
      ⟨op.encode pair, op, Expr.tag pair, operands, rest⟩ :: sites := by
  have hroom : ¬(operands ++ rest).length < op.operands := by
    rw [List.length_append]
    omega
  rw [sites?, Opcode.decode_encode_tag]
  simp only [if_neg hroom, List.take_left' h, List.drop_left' h]

/-- A site has its operands, and what is after it is shorter than the code. -/
theorem length_of_sites? {words : List UInt32} {sites : List Site} (h : sites? words = some sites) :
    sites.length ≤ words.length ∧ ∀ site ∈ sites, site.operands.length = site.op.operands ∧
      site.after.length < words.length := by
  fun_induction sites? words generalizing sites with
  | case1 =>
    cases h
    exact ⟨Nat.le_refl _, fun _ h => nomatch h⟩
  | case2 => cases h
  | case3 => cases h
  | case4 word rest op pair hdecode hroom ih =>
    obtain ⟨later, hlater, rfl⟩ := Option.map_eq_some_iff.1 h
    obtain ⟨hlength, hall⟩ := ih hlater
    rw [List.length_drop] at hlength hall
    refine ⟨by simp only [List.length_cons]; omega, fun site hsite => ?_⟩
    rcases List.mem_cons.1 hsite with rfl | hsite
    · simp only [List.length_take, List.length_drop, List.length_cons]
      omega
    · obtain ⟨hoperands, hafter⟩ := hall site hsite
      exact ⟨hoperands, by simp only [List.length_cons]; omega⟩

/-! ## Proper instructions -/

/-- The instruction may stand in code of at most so many words: no bit above the operand types is set,
a variable is the program's, a call names a function of the program and the number of its parameters,
and a guard has the length of whole instructions that come right after it, and of their immediates.
Words hold these numbers as far as they fit. -/
structure Site.Proper (p : Program) (size : Nat) (site : Site) : Prop where
  bits : site.word >>> 20 = 0
  var : site.op = .var → ∃ slot, site.operands = [slot] ∧ slot.toNat < p.slots.length
  call : site.op = .fun → ∃ function f, p.functions[function]? = some f ∧ f.params.length ≤ size ∧
    site.operands = [UInt32.ofNat function, UInt32.ofNat f.params.length]
  guard : site.op = .guard → ∃ code rest inner later, site.after = code ++ rest ∧
    code.length ≤ size ∧ sites? code = some inner ∧ sites? rest = some later ∧
    site.operands = [UInt32.ofNat code.length, UInt32.ofNat (immediateCount inner)]

/-- The operands of a call and of a guard are what they stand for. -/
structure Site.Exact (p : Program) (site : Site) : Prop where
  call : p.functions.length ≤ UInt32.size → site.op = .fun → ∃ function count f,
    site.operands = [function, count] ∧ p.functions[function.toNat]? = some f ∧
      f.params.length = count.toNat
  guard : site.op = .guard → ∃ codeLength count inner later, site.operands = [codeLength, count] ∧
    codeLength.toNat ≤ site.after.length ∧
    sites? (site.after.take codeLength.toNat) = some inner ∧
    sites? (site.after.drop codeLength.toNat) = some later ∧ immediateCount inner = count.toNat

/-- In code whose length fits into a word every operand fits. -/
theorem Site.Proper.exact {p : Program} {size : Nat} {site : Site} (h : site.Proper p size)
    (hsize : size < UInt32.size) : site.Exact p where
  call hfunctions hop := by
    obtain ⟨function, f, hf, hcount, hoperands⟩ := h.call hop
    obtain ⟨hlt, -⟩ := List.getElem?_eq_some_iff.1 hf
    refine ⟨_, _, f, hoperands, ?_, ?_⟩
    · rw [UInt32.toNat_ofNat_of_lt' (by omega)]
      exact hf
    · rw [UInt32.toNat_ofNat_of_lt' (by omega)]
  guard hop := by
    obtain ⟨code, rest, inner, later, hafter, hlength, hinner, hlater, hoperands⟩ := h.guard hop
    have hcount : immediateCount inner ≤ code.length :=
      Nat.le_trans List.countP_le_length (length_of_sites? hinner).1
    refine ⟨_, _, inner, later, hoperands, ?_⟩
    rw [UInt32.toNat_ofNat_of_lt' (by omega), UInt32.toNat_ofNat_of_lt' (by omega), hafter,
      List.take_left, List.drop_left]
    exact ⟨by simp, hinner, hlater, rfl⟩

theorem Opcode.bits_encode_all : ∀ op ∈ all, ∀ l ∈ Base.all, ∀ r ∈ Base.all,
    op.encode (some ⟨l, r⟩) >>> 20 = 0 := by
  decide +kernel

/-- The high bits of an instruction are clear. -/
theorem Opcode.bits_encode (op : Opcode) (pair : Option OperandPair) :
    op.encode pair >>> 20 = 0 := by
  cases pair with
  | none => exact bits_encode_all op op.mem_all .integer (Base.mem_all _) .integer (Base.mem_all _)
  | some pair =>
    exact bits_encode_all op op.mem_all _ pair.left.mem_all _ pair.right.mem_all

theorem Plain.proper {p : Program} {op : Opcode} {operands : List UInt32} {n size : Nat}
    (h : Plain p op operands n) (hn : n ≤ size) (pair : Option OperandPair) (after : List UInt32) :
    Site.Proper p size ⟨op.encode pair, op, Expr.tag pair, operands, after⟩ where
  bits := op.bits_encode pair
  var hop := by
    obtain rfl : op = .var := hop
    obtain ⟨slot, hslot, rfl⟩ := h.slot_of_var
    refine ⟨_, rfl, Nat.lt_of_le_of_lt ?_ hslot⟩
    rw [UInt32.toNat_ofNat']
    exact Nat.mod_le _ _
  call hop := by
    obtain rfl : op = .fun := hop
    obtain ⟨function, f, hf, rfl, rfl⟩ := h.function_of_call
    exact ⟨function, f, hf, hn, rfl⟩
  guard hop := absurd hop h.ne.2

/-! ## Pieces of code -/

/-- Before any whole instructions, the words are whole instructions, of which so many push an
immediate value. -/
def Scans (p : Program) (size : Nat) (words : List UInt32) (count : Nat) : Prop :=
  ∀ rest sites, sites? rest = some sites → ∃ more, sites? (words ++ rest) = some (more ++ sites) ∧
    immediateCount more = count ∧ ∀ site ∈ more, site.Proper p size

section

variable {p : Program} {size : Nat} {ws vs us : List UInt32} {is js : List Value} {m n h k : Nat}

theorem Scans.nothing : Scans p size [] 0 :=
  fun _ _ h => ⟨[], h, rfl, fun _ h => nomatch h⟩

theorem Scans.append (hx : Scans p size ws m) (hy : Scans p size vs n) :
    Scans p size (ws ++ vs) (m + n) := by
  intro rest sites h
  obtain ⟨later, hlater, rfl, hproper⟩ := hy rest sites h
  obtain ⟨more, hmore, rfl, hproper'⟩ := hx _ _ hlater
  refine ⟨more ++ later, ?_, immediateCount_append _ _, fun site hsite => ?_⟩
  · rw [List.append_assoc, List.append_assoc]
    exact hmore
  · exact (List.mem_append.1 hsite).elim (hproper' site) (hproper site)

/-- The words on their own. -/
theorem Scans.alone (hx : Scans p size ws n) : ∃ sites, sites? ws = some sites ∧
    immediateCount sites = n ∧ ∀ site ∈ sites, site.Proper p size := by
  have h := hx [] [] sites?_nil
  simpa only [List.append_nil] using h

/-- One instruction with its operands. -/
theorem Scans.single {op : Opcode} {operands : List UInt32} (pair : Option OperandPair)
    (hlength : operands.length = op.operands)
    (hproper : ∀ rest sites, sites? rest = some sites →
      Site.Proper p size ⟨op.encode pair, op, Expr.tag pair, operands, rest⟩) :
    Scans p size (op.encode pair :: operands) (if op = .immed then 1 else 0) := by
  intro rest sites h
  refine ⟨[⟨op.encode pair, op, Expr.tag pair, operands, rest⟩], ?_, ?_, fun site hsite => ?_⟩
  · rw [List.cons_append, sites?_encode op pair hlength, h]
    rfl
  · simp [immediateCount, List.countP_cons]
  · obtain rfl := List.mem_singleton.1 hsite
    exact hproper rest sites h

theorem Straight.scans (hx : Straight p ws is n h) (hsize : ws.length ≤ size) :
    Scans p size ws is.length := by
  induction hx with
  | nothing => exact .nothing
  | literal v =>
    exact Scans.single none rfl fun rest _ _ => ⟨Opcode.bits_encode _ _, nofun, nofun, nofun⟩
  | seq _ _ ihx ihy =>
    rw [List.length_append] at hsize ⊢
    exact (ihx (by omega)).append (ihy (by omega))
  | plain hx pair hop ih =>
    rw [List.length_append, List.length_cons] at hsize
    have hn := hx.count_le.1
    have hproper := hop.proper (Nat.le_trans hn (Nat.le_trans (Nat.le_add_right _ _) hsize)) pair
    have hone := Scans.single pair hop.length_operands fun rest _ _ => hproper rest
    rw [if_neg hop.ne.1] at hone
    exact (ih (by omega)).append hone

/-- A guard protects the value that follows it. -/
theorem Straight.scans_guard (hvalue : Straight p vs js 1 k) (hrest : Scans p size us n)
    (hsize : vs.length ≤ size) : Scans p size
      (Opcode.guard.encode none :: UInt32.ofNat vs.length :: UInt32.ofNat js.length :: (vs ++ us))
      (js.length + n) := by
  have hscans := hvalue.scans hsize
  -- the value on its own, which is what the guard counts
  obtain ⟨inner, hinner, hcount, -⟩ := hscans.alone
  intro rest sites h
  obtain ⟨later, hlater, -⟩ := hrest rest sites h
  obtain ⟨more, hmore, hmoreCount, hproper⟩ := hscans.append hrest rest sites h
  let operands : List UInt32 := [UInt32.ofNat vs.length, UInt32.ofNat js.length]
  let site : Site :=
    ⟨Opcode.guard.encode none, .guard, Expr.tag none, operands, vs ++ us ++ rest⟩
  refine ⟨site :: more, ?_, ?_, fun other hother => ?_⟩
  · have hlength : operands.length = Opcode.guard.operands := rfl
    have hwords := sites?_encode .guard none hlength (vs ++ us ++ rest)
    rw [hmore] at hwords
    exact hwords
  · rw [← hmoreCount]
    rfl
  · rcases List.mem_cons.1 hother with rfl | hother
    · refine ⟨Opcode.bits_encode _ _, nofun, nofun, fun _ => ?_⟩
      exact ⟨vs, us ++ rest, inner, later ++ sites, List.append_assoc _ _ _, hsize, hinner, hlater,
        hcount ▸ rfl⟩
    · exact hproper other hother

theorem Chain.scans (hx : Chain p ws is h) (hsize : ws.length ≤ size) :
    Scans p size ws is.length := by
  induction hx with
  | nil => exact .nothing
  | cons hcondition hvalue _ ih =>
    simp only [List.length_append, List.length_cons] at hsize ⊢
    exact (hcondition.scans (by omega)).append
      (hvalue.scans_guard (ih (by omega)) (by omega))

end

/-- The code of a statement is whole instructions. -/
theorem Statement.Shaped.scans {p : Program} {s : Statement} (h : s.Shaped p) :
    Scans p s.code.length s.code s.immediates.length := by
  cases h with
  | straight h => exact h.scans (Nat.le_refl _)
  | @guarded ws vs is js _ _ hpath hchain _ hcode himmediates =>
    have hlength := congrArg List.length hcode
    rw [List.length_append] at hlength
    have hpath : Scans p s.code.length ws is.length := hpath.scans (by omega)
    have hchain : Scans p s.code.length vs js.length := hchain.scans (by omega)
    have h := hpath.append hchain
    rw [← hcode, ← List.length_append, ← himmediates] at h
    exact h

end VectorScript
