import Mathlib.Data.BitVec

/-!
# Alignment of machine words

Powers of two as the bit test `x & (x - 1)`, and the mask that rounds down to a multiple
of one.
-/

namespace Lib.Align

variable {w : Nat}

/-- The bit test for a power of two. -/
def isPowerOfTwo (value : BitVec w) : Bool := value != 0 && (value &&& (value - 1)) == 0

/-- Round up to a multiple of a power of two, where `x + a` does not wrap. -/
def roundUp (x a : BitVec w) : BitVec w := (x + a - 1) &&& ~~~(a - 1)

theorem toNat_sub_one {a : BitVec w} (hnonzero : a ≠ 0) : (a - 1).toNat = a.toNat - 1 := by
  have hpositive : a.toNat ≠ 0 :=
    fun hzero => hnonzero (BitVec.eq_of_toNat_eq (by simpa using hzero))
  have hless := a.isLt
  have hone : 1 < 2 ^ w := by omega
  have hunit : (1 : BitVec w).toNat = 1 := by
    show 1 % 2 ^ w = 1
    exact Nat.mod_eq_of_lt hone
  rw [BitVec.toNat_sub, hunit]
  rw [show 2 ^ w - 1 + a.toNat = a.toNat - 1 + 2 ^ w by omega, Nat.add_mod_right,
    Nat.mod_eq_of_lt (by omega)]

/-- The bit trick of the word recognises exactly the powers of two. -/
theorem isPowerOfTwo_iff {a : BitVec w} : isPowerOfTwo a = true ↔ a.toNat.isPowerOfTwo := by
  rw [isPowerOfTwo, Bool.and_eq_true, bne_iff_ne, beq_iff_eq,
    ← Nat.ne_zero_and_sub_one_eq_zero_iff_isPowerOfTwo]
  have hnonzero : a ≠ 0 ↔ a.toNat ≠ 0 := by
    refine not_congr ⟨fun heq => by rw [heq]; exact Nat.zero_mod _, fun hzero =>
      BitVec.eq_of_toNat_eq ?_⟩
    rw [hzero]
    exact (Nat.zero_mod _).symm
  rw [← hnonzero]
  refine and_congr_right fun h => ?_
  have hbits : (a &&& (a - 1)).toNat = a.toNat &&& (a.toNat - 1) := by
    rw [BitVec.toNat_and, toNat_sub_one h]
  rw [← hbits]
  refine ⟨fun heq => by rw [heq]; exact Nat.zero_mod _, fun hzero => BitVec.eq_of_toNat_eq ?_⟩
  rw [hzero]
  exact (Nat.zero_mod _).symm

/-- The mask clears the low bits. -/
theorem toNat_and_not {x a : BitVec w} (hpower : isPowerOfTwo a = true) :
    (x &&& ~~~(a - 1)).toNat = x.toNat / a.toNat * a.toNat := by
  obtain ⟨k, heq⟩ := isPowerOfTwo_iff.1 hpower
  have hless : k < w := (Nat.pow_lt_pow_iff_right (by decide)).1 (heq ▸ a.isLt)
  have hnonzero : a ≠ 0 := fun hzero => by
    rw [hzero] at heq
    exact absurd heq.symm (Nat.ne_of_gt (lt_of_eq_of_lt (Nat.zero_mod _) (Nat.two_pow_pos k)))
  have hlow (i : Nat) : (a - 1).getLsbD i = decide (i < k) := by
    rw [← BitVec.testBit_toNat, toNat_sub_one hnonzero, heq, Nat.testBit_two_pow_sub_one]
  have hbits : x &&& ~~~(a - 1) = (x >>> k) <<< k := by
    refine BitVec.eq_of_getLsbD_eq fun i hinside => ?_
    rw [BitVec.getLsbD_and, BitVec.getLsbD_not, hlow, BitVec.getLsbD_shiftLeft,
      BitVec.getLsbD_ushiftRight]
    by_cases hbelow : i < k
    · simp [hbelow]
    · simp [hbelow, hinside, Nat.add_sub_cancel' (Nat.not_lt.1 hbelow)]
  rw [hbits, BitVec.toNat_shiftLeft, BitVec.toNat_ushiftRight, Nat.shiftLeft_eq,
    Nat.shiftRight_eq_div_pow, heq]
  exact Nat.mod_eq_of_lt (Nat.lt_of_le_of_lt (Nat.div_mul_le_self _ _) x.isLt)

/-- Where the sum does not wrap, the result is the least multiple that is not below. -/
theorem toNat_roundUp {x a : BitVec w} (hpower : isPowerOfTwo a = true)
    (hfits : x.toNat + a.toNat < 2 ^ w) :
    (x + a - 1).toNat = x.toNat + a.toNat - 1 ∧
      (roundUp x a).toNat = (x.toNat + a.toNat - 1) / a.toNat * a.toNat := by
  have hpositive : 0 < a.toNat := Nat.pos_of_isPowerOfTwo (isPowerOfTwo_iff.1 hpower)
  have hsum : (x + a).toNat = x.toNat + a.toNat := by
    rw [BitVec.toNat_add, Nat.mod_eq_of_lt hfits]
  have hnonzero : x + a ≠ 0 := fun hzero => by
    rw [hzero] at hsum
    have : (0 : BitVec w).toNat = 0 := Nat.zero_mod _
    omega
  have hbefore : (x + a - 1).toNat = x.toNat + a.toNat - 1 := by
    rw [toNat_sub_one hnonzero, hsum]
  exact ⟨hbefore, by rw [roundUp, toNat_and_not hpower, hbefore]⟩

theorem le_roundUp {x a : Nat} (hpositive : 0 < a) : x ≤ (x + a - 1) / a * a := by
  have hsplit := Nat.div_add_mod' (x + a - 1) a
  have hrest := Nat.mod_lt (x + a - 1) hpositive
  omega

/-- Of two powers of two the smaller divides the larger. -/
theorem dvd_of_le {a b : Nat} (hleft : a.isPowerOfTwo) (hright : b.isPowerOfTwo) (hle : a ≤ b) :
    a ∣ b := by
  obtain ⟨k, rfl⟩ := hleft
  obtain ⟨l, rfl⟩ := hright
  exact Nat.pow_dvd_pow 2 ((Nat.pow_le_pow_iff_right (by decide)).1 hle)

end Lib.Align
