import Mathlib.Data.Nat.Basic

/-!
# Write-one-to-clear bits

A word in which some bits, those of a mask, are cleared by writing a one to them and left alone by a
zero.  The other bits take the value written.  Writing back a value that was read acknowledges every
such bit that was set when it was read and is still set when it is written.
-/

namespace Blubos

namespace WriteToClear

variable {w : ℕ}

/-- The word after a write. -/
def write (mask present written : BitVec w) : BitVec w :=
  (mask &&& present &&& ~~~written) ||| (~~~mask &&& written)

/-- The bits of the mask that a write clears: set before and not after. -/
def cleared (mask present written : BitVec w) : BitVec w :=
  mask &&& present &&& ~~~write mask present written

/-- A bit is cleared exactly when it is set and a one is written to it. -/
theorem getLsbD_cleared {mask present written : BitVec w} {bit : ℕ} :
    (cleared mask present written).getLsbD bit =
      (mask.getLsbD bit && present.getLsbD bit && written.getLsbD bit) := by
  by_cases range : bit < w
  · simp only [cleared, write, BitVec.getLsbD_and, BitVec.getLsbD_not, BitVec.getLsbD_or, range,
      decide_true, Bool.true_and]
    cases mask.getLsbD bit <;> cases present.getLsbD bit <;> cases written.getLsbD bit <;> rfl
  · rw [BitVec.getLsbD_of_ge _ _ (Nat.not_lt.mp range),
      BitVec.getLsbD_of_ge mask _ (Nat.not_lt.mp range)]
    rfl

/-- Writing back the bit that was read clears it exactly when it was set then and is set now. -/
theorem getLsbD_cleared_of_eq {mask seen present written : BitVec w} {bit : ℕ}
    (back : mask.getLsbD bit = true → written.getLsbD bit = seen.getLsbD bit) :
    (cleared mask present written).getLsbD bit = (mask &&& seen &&& present).getLsbD bit := by
  rw [getLsbD_cleared, BitVec.getLsbD_and, BitVec.getLsbD_and]
  cases masked : mask.getLsbD bit with
  | false => rfl
  | true =>
      rw [back masked, Bool.true_and, Bool.true_and, Bool.and_comm]

end WriteToClear

end Blubos
