import Mathlib.Algebra.Group.Nat.Defs
import VectorScript.Value

/-!
# Which reals are zero

A real equals zero if it is one of the two zeros (`beq_zero_iff`), and widening keeps integers apart
from zero (`widen_beq_zero`): the real nearest to an integer other than zero is not zero, since
rounding never drops the leading bit of a number that is not below the least subnormal one.

    (x == 0) = true ↔ x = 0 ∨ x = -0                       (widen n == 0) = true ↔ n = 0
-/

namespace VectorScript

namespace Widening

open Float.Model (Format UnpackedFloat totalExponent)
open Float.Model.UnpackedFloat

/-! ## Rounding -/

/-- Shifting an extended mantissa drops its low bits. -/
theorem mantissa_shiftRight (em : ExtendedMantissa) (k : Nat) :
    (em >>> k).mantissa = em.mantissa / 2 ^ k := by
  induction k with
  | zero =>
    show em.mantissa = _
    simp
  | succ k ih =>
    show (em >>> k).mantissa / 2 = _
    rw [ih, Nat.div_div_eq_div_mul, Nat.pow_succ]

theorem mantissa_ofMantissaAndAccuracy (m : Nat) (a : Accuracy) :
    (ExtendedMantissa.ofMantissaAndAccuracy m a).mantissa = m := by
  unfold ExtendedMantissa.ofMantissaAndAccuracy
  split <;> rfl

/-- Rounding adds at most one to a mantissa. -/
theorem roundedMantissa_bounds (em : ExtendedMantissa) :
    em.mantissa ≤ em.roundedMantissa ∧ em.roundedMantissa ≤ em.mantissa + 1 := by
  obtain ⟨m, r, s⟩ := em
  cases r <;> cases s <;>
    simp only [ExtendedMantissa.roundedMantissa, ExtendedMantissa.accuracy,
      Accuracy.roundToNearestEven]
  all_goals omega

/-- The mantissa and the exponent fit the format. -/
def Fits (m : Nat) (e : Int) : Prop := m < 2 ^ 24 ∧ -149 ≤ e

/-- A number that is at least the least subnormal one fits after the shift to its exponent. -/
theorem fits_shift {m : Nat} {e : Int} (a : Accuracy) (hm : 0 < m) (he : -149 ≤ m.log2 + e) :
    0 < (shiftToTargetExponent .binary32 m e a).1.mantissa ∧
      Fits (shiftToTargetExponent .binary32 m e a).1.mantissa
        (shiftToTargetExponent .binary32 m e a).2 := by
  have ht : Format.binary32.targetExponent (totalExponent m e)
      = max (m.log2 + 1 + e - 24) (-149) := rfl
  unfold shiftToTargetExponent shiftToExponent
  rw [ht]
  dsimp only
  generalize hk : (max ((m.log2 : Int) + 1 + e - 24) (-149) - e).toNat = k
  rw [mantissa_shiftRight, mantissa_ofMantissaAndAccuracy]
  have hlow : k ≤ m.log2 := by omega
  have hhigh : m.log2 + 1 ≤ 24 + k := by omega
  refine ⟨?_, ?_, by omega⟩
  · apply Nat.div_pos _ (Nat.two_pow_pos k)
    exact Nat.le_trans (Nat.pow_le_pow_right (by omega) hlow) (Nat.log2_self_le (by omega))
  · rw [Nat.div_lt_iff_lt_mul (Nat.two_pow_pos k), ← Nat.pow_add]
    exact Nat.lt_of_lt_of_le Nat.lt_log2_self (Nat.pow_le_pow_right (by omega) hhigh)

/-- Rounding a number that is at least the least subnormal one gives a number that fits. -/
theorem roundWithAccuracy_fits {m : Nat} {e : Int} (s : Sign) (a : Accuracy) (hm : 0 < m)
    (he : -149 ≤ m.log2 + e) :
    ∃ m' e', ∃ h : 0 < m', roundWithAccuracy .binary32 s m e a = .finite s m' e' h ∧
      Fits m' e' := by
  obtain ⟨hpos, -, he₁⟩ := fits_shift a hm he
  unfold roundWithAccuracy
  generalize shiftToTargetExponent .binary32 m e a = first at *
  obtain ⟨em, e₁⟩ := first
  dsimp only at *
  have hr := (roundedMantissa_bounds em).1
  obtain ⟨hpos', hfits⟩ := fits_shift (e := e₁) .exact (Nat.lt_of_lt_of_le hpos hr) (by omega)
  generalize shiftToTargetExponent .binary32 em.roundedMantissa e₁ .exact = final at *
  rw [dif_neg (Nat.ne_of_gt hpos')]
  exact ⟨_, _, hpos', rfl, hfits⟩

/-! ## Packing -/

/-- The number is not zero, and a finite one fits the format. -/
def Apart : UnpackedFloat → Prop
  | .zero _ => False
  | .finite _ m e _ => Fits m e
  | _ => True

/-- Unless the exponent and the mantissa are both zero, the number is apart from zero. -/
theorem apart_unpack {b : BitVec 32}
    (h : @unpackExponent .binary32 b = 0#8 → @unpackMantissa .binary32 b ≠ 0#23) :
    Apart (UnpackedFloat.unpack .binary32 b) := by
  unfold UnpackedFloat.unpack
  dsimp only
  by_cases hones : @unpackExponent .binary32 b = -1#8
  · rw [if_pos hones]
    split <;> trivial
  · rw [if_neg hones]
    by_cases hexp : @unpackExponent .binary32 b = 0#8
    · rw [if_pos hexp, dif_neg (h hexp)]
      have hlt := (@unpackMantissa .binary32 b).isLt
      have he : -149 ≤ ((@unpackExponent .binary32 b).toNat : Int) - (127 + 23) + 1 := by omega
      exact ⟨Nat.lt_trans hlt (by decide), he⟩
    · rw [if_neg hexp]
      have hpos : (@unpackExponent .binary32 b).toNat ≠ 0 := by
        intro h0
        exact hexp (BitVec.eq_of_toNat_eq h0)
      have he : -149 ≤ ((@unpackExponent .binary32 b).toNat : Int) - (127 + 23) := by omega
      exact ⟨(1#1 ++ @unpackMantissa .binary32 b).isLt, he⟩

theorem apart_packComponents {s : Sign} {e : BitVec 8} {m : BitVec 23}
    (h : e = 0#8 → m ≠ 0#23) :
    Apart (UnpackedFloat.unpack .binary32 (packComponents .binary32 s e m)) := by
  apply apart_unpack
  intro he
  have hexp := @unpackExponent_packComponents .binary32 s e m
  have hman := @unpackMantissa_packComponents .binary32 s e m
  intro hm
  exact h (hexp.symm.trans he) (hman.symm.trans hm)

theorem ofNat_ne_zero {w n : Nat} (hpos : 0 < n) (hn : n < 2 ^ w) : BitVec.ofNat w n ≠ 0#w := by
  intro h
  have hmod : n % 2 ^ w = 0 := by simpa using congrArg BitVec.toNat h
  rw [Nat.mod_eq_of_lt hn] at hmod
  omega

/-- A number that fits is packed apart from zero: as infinite, as normal or as subnormal. -/
theorem apart_pack {m : Nat} {e : Int} (s : Sign) (h : 0 < m) (hf : Fits m e) :
    Apart (UnpackedFloat.unpack .binary32 (UnpackedFloat.pack .binary32 (.finite s m e h))) := by
  obtain ⟨hm, he⟩ := hf
  unfold UnpackedFloat.pack
  dsimp only
  split
  · apply apart_packComponents
    intro h0
    exact absurd h0 (by decide)
  · rename_i hlarge
    have hexp : ¬2 ^ 8 ≤ (e + 127 + 23).toNat + 1 := hlarge
    split
    · apply apart_packComponents
      intro h0
      exact absurd h0 (ofNat_ne_zero (n := (e + 127 + 23).toNat) (by omega) (by omega))
    · rename_i hbits
      have hlog : m.log2 ≠ 23 := by
        intro h23
        apply hbits
        rw [h23]
        rfl
      have hlt : m.log2 < 24 := (Nat.log2_lt (by omega)).mpr hm
      apply apart_packComponents
      intro _
      exact ofNat_ne_zero h ((Nat.log2_lt (by omega)).mp (by omega))

/-- What is rounded from at least the least subnormal number is packed apart from zero. -/
theorem apart_pack_round {m : Nat} {e : Int} (s : Sign) (a : Accuracy) (hm : 0 < m)
    (he : -149 ≤ m.log2 + e) :
    Apart (Float32.Model.pack (roundWithAccuracy .binary32 s m e a)).unpack := by
  obtain ⟨m', e', h, hround, hfits⟩ := roundWithAccuracy_fits s a hm he
  rw [hround]
  exact apart_pack s h hfits

/-! ## Widening -/

theorem log2_mul_two_pow {m : Nat} (hm : 0 < m) (k : Nat) : (m * 2 ^ k).log2 = m.log2 + k := by
  induction k with
  | zero => simp
  | succ k ih =>
    have hne : m * 2 ^ k ≠ 0 := Nat.ne_of_gt (Nat.mul_pos hm (Nat.two_pow_pos k))
    rw [show m * 2 ^ (k + 1) = 2 * (m * 2 ^ k) by rw [Nat.pow_succ]; ac_rfl,
      Nat.log2_two_mul hne, ih]
    omega

theorem apart_modelOfNat {n : Nat} (hn : 0 < n) : Apart (Float32.Model.ofNat n).unpack := by
  have hround : Float32.Model.ofNat n =
      Float32.Model.pack (UnpackedFloat.round .binary32 .positive n 0) := by
    unfold Float32.Model.ofNat UnpackedFloat.ofNat UnpackedFloat.ofInt UnpackedFloat.normalize
    rw [show compare (n : Int) 0 = .gt from Int.compare_eq_gt.mpr (by omega)]
    rfl
  rw [hround]
  unfold UnpackedFloat.round decreaseExponent
  dsimp only
  rw [Nat.shiftLeft_eq]
  apply apart_pack_round
  · exact Nat.mul_pos hn (Nat.two_pow_pos _)
  · rw [log2_mul_two_pow hn]
    omega

/-- One, as it is unpacked. -/
def unpackedOne : UnpackedFloat := .finite .positive (2 ^ 23) (-23) (by decide)

/-- The product of a number apart from zero and one is packed apart from zero. -/
theorem apart_mul_one {u : UnpackedFloat} (h : Apart u) :
    Apart (Float32.Model.pack (UnpackedFloat.mul .binary32 u unpackedOne)).unpack := by
  cases u with
  | zero s => cases h
  | notANumber => trivial
  | infinity s => cases s <;> trivial
  | finite s m e hm =>
    have he : -149 ≤ e := h.2
    apply apart_pack_round
    · omega
    · rw [log2_mul_two_pow hm]
      omega

/-- The real nearest to a small natural number is found by a product with one. -/
theorem ofNat_eq_mul {n : Nat} (hn : n < 2 ^ 23) :
    Float32.ofNat n = n.toUInt64.toFloat32 * Float32.ofBits 0x3F800000 := by
  show Float32.ofScientific n false 0 = _
  unfold Float32.ofScientific
  rw [dif_pos ⟨hn, by omega⟩]
  rfl

/-- The real nearest to a large natural number is rounded once. -/
theorem ofNat_eq_pack {n : Nat} (hn : 2 ^ 23 ≤ n) :
    Float32.ofNat n = .ofModel (Float32.Model.pack
      (roundWithAccuracy .binary32 .positive (n <<< 24 * 10 ^ 0) (-24 + 0) .exact)) := by
  show Float32.ofScientific n false 0 = _
  unfold Float32.ofScientific
  rw [dif_neg (by omega)]
  show Float32.ofModel (Float32.Model.pack (UnpackedFloat.ofScientific .binary32 n 0)) = _
  unfold UnpackedFloat.ofScientific
  rw [dif_neg (by omega), if_neg (by decide), if_neg, if_pos (by decide)]
  · rfl
  · show ¬(0 : Int) < -(2 ^ 8 + n.log2)
    omega

theorem mul_one_eq (x : Float32) : x * Float32.ofBits 0x3F800000 =
    .ofModel (Float32.Model.pack (UnpackedFloat.mul .binary32 x.toModel.unpack unpackedOne)) := rfl

theorem apart_ofNat {n : Nat} (hn : 0 < n) : Apart (Float32.ofNat n).toModel.unpack := by
  by_cases hsmall : n < 2 ^ 23
  · rw [ofNat_eq_mul hsmall, mul_one_eq]
    apply apart_mul_one
    apply apart_modelOfNat
    have hn64 : n.toUInt64.toNat = n := by
      simp [Nat.toUInt64]
      omega
    omega
  · rw [ofNat_eq_pack (by omega), Nat.shiftLeft_eq, Nat.pow_zero, Nat.mul_one]
    apply apart_pack_round
    · omega
    · rw [log2_mul_two_pow hn]
      omega

/-! ## Comparison with zero -/

/-- A number equals zero if it is zero, whatever its sign. -/
theorem compare_zero_iff (u : UnpackedFloat) (s : Sign) :
    (UnpackedFloat.compare u (.zero s) == some .eq) = true ↔ ∃ s', u = .zero s' := by
  cases u with
  | zero s' => exact ⟨fun _ => ⟨s', rfl⟩, fun _ => rfl⟩
  | notANumber =>
    constructor
    · intro h
      cases h
    · rintro ⟨_, ⟨⟩⟩
  | infinity s' | finite s' =>
    constructor
    · intro h
      cases s' <;> cases h
    · rintro ⟨_, ⟨⟩⟩

/-- Only the sign bit of a zero may be set. -/
theorem bits_of_unpack_zero {b : BitVec 32} {s : Sign}
    (h : UnpackedFloat.unpack .binary32 b = .zero s) : b = 0#32 ∨ b = 0x80000000#32 := by
  unfold UnpackedFloat.unpack at h
  dsimp only at h
  by_cases hones : @unpackExponent .binary32 b = -1#8
  · rw [if_pos hones] at h
    split at h <;> cases h
  · rw [if_neg hones] at h
    by_cases hexp : @unpackExponent .binary32 b = 0#8
    · rw [if_pos hexp] at h
      by_cases hman : @unpackMantissa .binary32 b = 0#23
      · have he : b.toNat >>> 23 % 2 ^ 8 = 0 := by
          simpa [unpackExponent] using congrArg BitVec.toNat hexp
        have hm : b.toNat % 2 ^ 23 = 0 := by
          simpa [unpackMantissa] using congrArg BitVec.toNat hman
        rw [Nat.shiftRight_eq_div_pow] at he
        have hb := b.isLt
        clear h
        bv_omega
      · rw [dif_neg hman] at h
        cases h
    · rw [if_neg hexp] at h
      cases h

theorem beq_zero_iff (x : Float32) : (x == 0) = true ↔ x = 0 ∨ x = -0 := by
  show (UnpackedFloat.compare x.toModel.unpack (.zero .positive) == some .eq) = true ↔ _
  rw [compare_zero_iff]
  constructor
  · rintro ⟨s, hs⟩
    obtain ⟨⟨⟨b⟩, hb⟩⟩ := x
    rcases bits_of_unpack_zero hs with h | h
    · subst h
      exact .inl rfl
    · subst h
      exact .inr rfl
  · rintro (rfl | rfl)
    · exact ⟨.positive, rfl⟩
    · exact ⟨.negative, rfl⟩

theorem beq_zero_of_apart {x : Float32} (h : Apart x.toModel.unpack) : (x == 0) = false := by
  rw [Bool.eq_false_iff]
  intro hx
  obtain ⟨s, hs⟩ := (compare_zero_iff _ .positive).mp hx
  rw [hs] at h
  exact h

theorem apart_neg {x : Float32} (h : Apart x.toModel.unpack) : Apart (-x).toModel.unpack := by
  show Apart (Float32.Model.pack x.toModel.unpack.neg).unpack
  cases hu : x.toModel.unpack with
  | zero s =>
    rw [hu] at h
    cases h
  | notANumber => trivial
  | infinity s => cases s <;> trivial
  | finite s m e hm =>
    rw [hu] at h
    exact apart_pack _ hm h

/-- Widening keeps integers apart from zero. -/
theorem apart_widen {n : Int32} (hn : n ≠ 0) : Apart (Value.widen n).toModel.unpack := by
  unfold Value.widen
  cases h : n.toInt with
  | ofNat k =>
    apply apart_ofNat
    apply Nat.pos_of_ne_zero
    rintro rfl
    exact hn (Int32.toInt_inj.mp h)
  | negSucc k =>
    apply apart_neg
    apply apart_ofNat
    omega

theorem widen_beq_zero (n : Int32) : (Value.widen n == 0) = true ↔ n = 0 := by
  constructor
  · intro h
    apply Classical.byContradiction
    intro hn
    rw [beq_zero_of_apart (apart_widen hn)] at h
    cases h
  · rintro rfl
    rfl

end Widening

end VectorScript
