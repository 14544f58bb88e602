import Mathlib.Data.Nat.Basic
import Mathlib.Tactic.Ring

/-!
# Alignment by masking

Clearing the low bits of a machine word rounds it down to a power of two.  Rounding up is
rounding down after adding the largest remainder.
-/

namespace Blubos

/-- The largest multiple of `align` at or below `address`. -/
def roundDown (address align : ℕ) : ℕ := address / align * align

/-- The least multiple of `align` at or above `address`. -/
def roundUp (address align : ℕ) : ℕ := roundDown (address + (align - 1)) align

theorem lt_roundDown_add {address align : ℕ} (align_pos : 0 < align) :
    address < roundDown address align + align := by
  have split := Nat.div_add_mod address align
  have remainder := Nat.mod_lt address align_pos
  rw [roundDown, Nat.mul_comm]
  omega

theorem dvd_roundDown (address align : ℕ) : align ∣ roundDown address align :=
  Nat.dvd_mul_left align _

theorem dvd_roundUp (address align : ℕ) : align ∣ roundUp address align := dvd_roundDown _ _

theorem le_roundUp {address align : ℕ} (align_pos : 0 < align) :
    address ≤ roundUp address align := by
  have above := @lt_roundDown_add (address + (align - 1)) align align_pos
  rw [roundUp]
  omega

theorem roundUp_le {address align multiple : ℕ} (align_pos : 0 < align) (aligned : align ∣ multiple)
    (above : address ≤ multiple) : roundUp address align ≤ multiple := by
  obtain ⟨k, rfl⟩ := aligned
  have quotient : (address + (align - 1)) / align < k + 1 := by
    rw [Nat.div_lt_iff_lt_mul align_pos, Nat.succ_mul, Nat.mul_comm k]
    omega
  rw [roundUp, roundDown, Nat.mul_comm align k]
  exact Nat.mul_le_mul_right align (Nat.le_of_lt_succ quotient)

/-- Two addresses lie in one aligned window when they round down alike. -/
theorem roundDown_eq_roundDown {first last align : ℕ} (align_pos : 0 < align) :
    roundDown first align = roundDown last align ↔ first / align = last / align :=
  Nat.mul_left_inj align_pos.ne'

/-- Clearing the low `k` bits of a `w`-bit word rounds it down to a multiple of `2 ^ k`. -/
theorem land_complement_mask {address w k : ℕ} (word : address < 2 ^ w) (small : k ≤ w) :
    address &&& (2 ^ w - 1 - (2 ^ k - 1)) = roundDown address (2 ^ k) := by
  have mask_lt : 2 ^ k - 1 < 2 ^ w := by
    have := Nat.pow_le_pow_right (n := 2) (by decide) small
    have := Nat.two_pow_pos k
    omega
  have rearrange : 2 ^ w - 1 - (2 ^ k - 1) = 2 ^ w - (2 ^ k - 1 + 1) := by omega
  apply Nat.eq_of_testBit_eq
  intro i
  rw [roundDown, rearrange, Nat.testBit_and, Nat.testBit_two_pow_sub_succ mask_lt,
    Nat.testBit_two_pow_sub_one, Nat.testBit_mul_two_pow, Nat.testBit_div_two_pow]
  by_cases low : i < k
  · simp [low, Nat.not_le.mpr low]
  · have inner : i - k + k = i := by omega
    by_cases inWord : i < w
    · simp [low, inWord, Nat.not_lt.mp low, inner]
    · have clear : address.testBit i = false :=
        Nat.testBit_lt_two_pow (word.trans_le (Nat.pow_le_pow_right (by decide) (by omega)))
      simp [clear, inner]

end Blubos
