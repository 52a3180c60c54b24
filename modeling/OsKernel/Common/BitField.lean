import Mathlib

/-!
# Fields of a machine word

What masks and shifts do to the number a word stands for: a field that is
masked and shifted down is a quotient and a remainder (`toNat_field`), a
field that is masked in place is a multiple of its lowest bit
(`toNat_mask`), the rest of the word is what remains (`toNat_mask_compl`),
and small values are packed into an aligned word by adding them
(`toNat_or`).
-/

namespace OsKernel.BitField

variable {w lo len : ℕ} {x y m : BitVec w}

/-- A field that is masked and shifted down. -/
theorem toNat_field (x : BitVec w) (hm : (m >>> lo).toNat = 2 ^ len - 1) :
    ((x &&& m) >>> lo).toNat = x.toNat / 2 ^ lo % 2 ^ len := by
  rw [BitVec.ushiftRight_and_distrib, BitVec.toNat_and, hm, Nat.and_two_pow_sub_one_eq_mod,
    BitVec.toNat_ushiftRight, Nat.shiftRight_eq_div_pow]

/-- A field that is masked in place. -/
theorem toNat_mask (x : BitVec w) (hm : m.toNat = (2 ^ len - 1) <<< lo) :
    (x &&& m).toNat = x.toNat / 2 ^ lo % 2 ^ len * 2 ^ lo := by
  rw [BitVec.toNat_and, hm, ← Nat.shiftLeft_eq, ← Nat.shiftRight_eq_div_pow]
  refine Nat.eq_of_testBit_eq fun i => ?_
  simp only [Nat.testBit_and, Nat.testBit_shiftLeft, Nat.testBit_two_pow_sub_one,
    Nat.testBit_mod_two_pow, Nat.testBit_shiftRight]
  -- bits below the field are masked out on both sides
  by_cases hi : lo ≤ i
  · rw [Nat.add_sub_cancel' hi]
    simp [hi, Bool.and_comm]
  · simp [hi]

/-- A mask and its complement take a word apart. -/
theorem toNat_mask_compl (x m : BitVec w) : (x &&& ~~~m).toNat = x.toNat - (x &&& m).toNat := by
  have hdisj : (x &&& m) &&& (x &&& ~~~m) = 0#w := by
    ext i hi
    simp only [BitVec.getElem_and, BitVec.getElem_not, BitVec.getElem_zero]
    cases x[i] <;> cases m[i] <;> rfl
  have hor : (x &&& m) ||| (x &&& ~~~m) = x := by
    ext i hi
    simp only [BitVec.getElem_or, BitVec.getElem_and, BitVec.getElem_not]
    cases x[i] <;> cases m[i] <;> rfl
  have hsum : (x &&& m) + (x &&& ~~~m) = x :=
    (BitVec.add_eq_or_of_and_eq_zero _ _ hdisj).trans hor
  have hle : x &&& m ≤ x := by
    rw [BitVec.le_def, BitVec.toNat_and]
    exact Nat.and_le_left
  have hsub : x &&& ~~~m = x - (x &&& m) := by
    rw [BitVec.eq_sub_iff_add_eq, BitVec.add_comm, hsum]
  rw [hsub, BitVec.toNat_sub_of_le hle]

/-- A small value is packed into an aligned word. -/
theorem toNat_or (lo : ℕ) (hx : x.toNat % 2 ^ lo = 0) (hy : y.toNat < 2 ^ lo) :
    (x ||| y).toNat = x.toNat + y.toNat := by
  have hmul : x.toNat = 2 ^ lo * (x.toNat / 2 ^ lo) := by
    rw [Nat.mul_div_cancel' (Nat.dvd_of_mod_eq_zero hx)]
  rw [BitVec.toNat_or, hmul, ← Nat.two_pow_add_eq_or_of_lt hy, ← hmul]

end OsKernel.BitField
