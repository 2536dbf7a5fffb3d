import Mathlib.Algebra.Group.Nat.Defs

/-! Rounding up to a multiple of an alignment, and the bit mask that computes it.

The mask is exact for every alignment that is a power of two, as long as the sum that
is masked does not overflow.
-/

set_option autoImplicit false

namespace Alignment

/-- The least multiple of the alignment that is not below the number. -/
def roundUp (alignment n : Nat) : Nat := (n + (alignment - 1)) / alignment * alignment

section RoundUp

variable {alignment m n : Nat}

theorem dvd_roundUp (alignment n : Nat) : alignment ∣ roundUp alignment n := Nat.dvd_mul_left ..

theorem le_roundUp (pos : 0 < alignment) (n : Nat) : n ≤ roundUp alignment n := by
  have division := Nat.div_add_mod (n + (alignment - 1)) alignment
  have remainder := Nat.mod_lt (n + (alignment - 1)) pos
  unfold roundUp
  rw [Nat.mul_comm]
  omega

theorem roundUp_le (pos : 0 < alignment) (le : n ≤ m) (dvd : alignment ∣ m) : roundUp alignment n ≤ m := by
  obtain ⟨q, rfl⟩ := dvd
  unfold roundUp
  rw [Nat.mul_comm]
  apply Nat.mul_le_mul_left
  apply Nat.le_of_lt_succ
  rw [Nat.div_lt_iff_lt_mul pos, Nat.succ_mul, Nat.mul_comm]
  omega

theorem roundUp_mono (alignment : Nat) (le : n ≤ m) : roundUp alignment n ≤ roundUp alignment m :=
  Nat.mul_le_mul_right _ (Nat.div_le_div_right (Nat.add_le_add_right le _))

end RoundUp

section Mask

variable {w k : Nat}

/-- Clearing the low bits rounds down. -/
theorem toNat_and_not_mask (x : BitVec w) (k : Nat) :
    (x &&& ~~~(BitVec.ofNat w (2 ^ k - 1))).toNat = x.toNat / 2 ^ k * 2 ^ k := by
  apply Nat.eq_of_testBit_eq
  intro i
  simp only [BitVec.testBit_toNat, BitVec.getLsbD_and, BitVec.getLsbD_not, BitVec.getLsbD_ofNat,
    Nat.testBit_two_pow_sub_one, Nat.testBit_mul_two_pow, Nat.testBit_div_two_pow]
  by_cases low : i < k
  · simp [low, Nat.not_le_of_lt low]
  · -- a bit above the mask is kept, and there is none outside of the word
    rw [Nat.sub_add_cancel (Nat.le_of_not_lt low)]
    cases set : x.getLsbD i with
    | false => simp
    | true => simp [low, Nat.le_of_not_lt low, BitVec.lt_of_getLsbD set]

/-- Adding all but one and clearing the low bits rounds up. -/
theorem toNat_add_and_not_mask (x : BitVec w) (fits : x.toNat + (2 ^ k - 1) < 2 ^ w) :
    ((x + BitVec.ofNat w (2 ^ k - 1)) &&& ~~~(BitVec.ofNat w (2 ^ k - 1))).toNat =
      roundUp (2 ^ k) x.toNat := by
  have sum : (x + BitVec.ofNat w (2 ^ k - 1)).toNat = x.toNat + (2 ^ k - 1) := by
    rw [BitVec.toNat_add, BitVec.toNat_ofNat, Nat.add_mod_mod, Nat.mod_eq_of_lt fits]
  rw [toNat_and_not_mask, sum, roundUp]

end Mask

end Alignment
