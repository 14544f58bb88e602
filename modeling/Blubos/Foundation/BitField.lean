import Mathlib.Data.Nat.Basic
import Mathlib.Tactic.SplitIfs

/-!
# Bit fields of a word

Reading and writing a range of bits of a fixed-width word.  A write is seen by a read of the same
field and by no read of a field apart from it.
-/

namespace Blubos

namespace BitField

variable {w : ℕ}

/-- The `len` bits from `start` upwards. -/
def get (start len : ℕ) (word : BitVec w) : BitVec len := word.extractLsb' start len

/-- Ones in the `len` bits from `start` upwards. -/
def mask (w start len : ℕ) : BitVec w := (BitVec.allOnes len).setWidth w <<< start

/-- Replace the bits from `start` upwards by a value. -/
def set (start : ℕ) {len : ℕ} (value : BitVec len) (word : BitVec w) : BitVec w :=
  (word &&& ~~~mask w start len) ||| (value.setWidth w <<< start)

def flag (bit : ℕ) (word : BitVec w) : Bool := word.getLsbD bit

def setFlag (bit : ℕ) (value : Bool) (word : BitVec w) : BitVec w :=
  set bit (BitVec.ofBool value) word

theorem getLsbD_get {start len bit : ℕ} {word : BitVec w} :
    (get start len word).getLsbD bit = (decide (bit < len) && word.getLsbD (start + bit)) := by
  rw [get, BitVec.getLsbD_extractLsb']

theorem getLsbD_mask {start len bit : ℕ} :
    (mask w start len).getLsbD bit =
      (decide (bit < w) && decide (start ≤ bit ∧ bit < start + len)) := by
  by_cases range : bit < w
  · have inside : bit - start < w := by omega
    rw [mask, BitVec.getLsbD_shiftLeft, BitVec.getLsbD_setWidth, BitVec.getLsbD_allOnes,
      Bool.eq_iff_iff]
    simp only [range, inside, decide_true, Bool.true_and, Bool.and_eq_true, Bool.not_eq_true',
      decide_eq_true_eq, decide_eq_false_iff_not]
    omega
  · simp [mask, range]

theorem getLsbD_set {start len bit : ℕ} {value : BitVec len} {word : BitVec w} :
    (set start value word).getLsbD bit =
      if start ≤ bit ∧ bit < start + len then decide (bit < w) && value.getLsbD (bit - start)
      else word.getLsbD bit := by
  by_cases range : bit < w
  · have inside : bit - start < w := by omega
    simp only [set, BitVec.getLsbD_or, BitVec.getLsbD_and, BitVec.getLsbD_not, getLsbD_mask, range,
      decide_true, Bool.true_and, BitVec.getLsbD_shiftLeft, BitVec.getLsbD_setWidth, inside]
    split_ifs with field
    · simp [field, Nat.not_lt.mpr field.1]
    · by_cases below : bit < start
      · simp [below, field]
      · have beyond : value.getLsbD (bit - start) = false := by
          apply BitVec.getLsbD_of_ge
          omega
        simp [below, field, beyond]
  · simp [range, BitVec.getLsbD_of_ge _ _ (Nat.not_lt.mp range)]

theorem get_set {start len : ℕ} {value : BitVec len} {word : BitVec w} (fits : start + len ≤ w) :
    get start len (set start value word) = value := by
  apply BitVec.eq_of_getLsbD_eq
  intro bit range
  have inside : start + bit < w := by omega
  rw [get, BitVec.getLsbD_extractLsb', getLsbD_set]
  simp [range, inside]

/-- A write does not touch a field apart from it. -/
theorem get_set_of_apart {start len start' len' : ℕ} {value : BitVec len} {word : BitVec w}
    (apart : start + len ≤ start' ∨ start' + len' ≤ start) :
    get start' len' (set start value word) = get start' len' word := by
  apply BitVec.eq_of_getLsbD_eq
  intro bit range
  have outside : ¬(start ≤ start' + bit ∧ start' + bit < start + len) := by omega
  rw [get, get, BitVec.getLsbD_extractLsb', BitVec.getLsbD_extractLsb', getLsbD_set, if_neg outside]

theorem getLsbD_setFlag {bit bit' : ℕ} {value : Bool} {word : BitVec w} :
    (setFlag bit value word).getLsbD bit' =
      if bit' = bit then decide (bit < w) && value else word.getLsbD bit' := by
  have single : bit ≤ bit' ∧ bit' < bit + 1 ↔ bit' = bit := by omega
  simp only [setFlag, getLsbD_set, single]
  split_ifs with same
  · simp [same]
  · rfl

@[simp] theorem flag_setFlag {bit : ℕ} {value : Bool} {word : BitVec w} (fits : bit < w) :
    flag bit (setFlag bit value word) = value := by
  rw [flag, getLsbD_setFlag]
  simp [fits]

theorem flag_setFlag_of_ne {bit bit' : ℕ} {value : Bool} {word : BitVec w} (apart : bit' ≠ bit) :
    flag bit' (setFlag bit value word) = flag bit' word := by
  rw [flag, getLsbD_setFlag, if_neg apart, flag]

theorem flag_set_of_apart {start len bit : ℕ} {value : BitVec len} {word : BitVec w}
    (apart : bit < start ∨ start + len ≤ bit) :
    flag bit (set start value word) = flag bit word := by
  have outside : ¬(start ≤ bit ∧ bit < start + len) := by omega
  rw [flag, getLsbD_set, if_neg outside, flag]

theorem get_setFlag_of_apart {bit start len : ℕ} {value : Bool} {word : BitVec w}
    (apart : bit < start ∨ start + len ≤ bit) :
    get start len (setFlag bit value word) = get start len word :=
  get_set_of_apart (by omega)

@[simp] theorem setFlag_setFlag {bit : ℕ} {first second : Bool} {word : BitVec w} :
    setFlag bit second (setFlag bit first word) = setFlag bit second word := by
  apply BitVec.eq_of_getLsbD_eq
  intro bit' _
  simp only [getLsbD_setFlag]
  split_ifs <;> rfl

/-- Clearing one bit of a word of ones leaves out that bit. -/
theorem eq_of_getLsbD_not_setFlag {bit bit' : ℕ}
    (cleared : (~~~setFlag bit false (BitVec.allOnes w)).getLsbD bit' = true) : bit' = bit := by
  by_contra other
  rw [BitVec.getLsbD_not, getLsbD_setFlag, if_neg other, BitVec.getLsbD_allOnes,
    Bool.and_not_self] at cleared
  exact Bool.noConfusion cleared

theorem get_append_low {v : ℕ} (high : BitVec v) (low : BitVec w) :
    get 0 w (high ++ low) = low := by
  apply BitVec.eq_of_getLsbD_eq
  intro bit range
  rw [get, BitVec.getLsbD_extractLsb', BitVec.getLsbD_append, Nat.zero_add, if_pos range]
  simp [range]

theorem get_append_high {v : ℕ} (high : BitVec v) (low : BitVec w) :
    get w v (high ++ low) = high := by
  apply BitVec.eq_of_getLsbD_eq
  intro bit range
  have above : ¬w + bit < w := by omega
  rw [get, BitVec.getLsbD_extractLsb', BitVec.getLsbD_append, if_neg above, Nat.add_sub_cancel_left]
  simp [range]

theorem append_get {v : ℕ} (word : BitVec (v + w)) : get w v word ++ get 0 w word = word := by
  apply BitVec.eq_of_getLsbD_eq
  intro bit range
  rw [BitVec.getLsbD_append]
  split_ifs with low
  · simp [get, low]
  · have inside : bit - w < v := by omega
    rw [get, BitVec.getLsbD_extractLsb', Nat.add_sub_cancel' (Nat.not_lt.mp low)]
    simp [inside]

/-- A field is what is left after shifting it down. -/
theorem get_eq_ushiftRight {start len : ℕ} {word : BitVec w} :
    get start len word = (word >>> start).setWidth len :=
  BitVec.setWidth_ushiftRight_eq_extractLsb.symm

@[simp] theorem get_zero {start len : ℕ} : get start len (0 : BitVec w) = 0 :=
  BitVec.extractLsb'_zero

@[simp] theorem get_whole {word : BitVec w} : get 0 w word = word := by
  apply BitVec.eq_of_getLsbD_eq
  intro bit range
  rw [getLsbD_get, Nat.zero_add]
  simp [range]

@[simp] theorem set_whole {value word : BitVec w} : set 0 value word = value := by
  apply BitVec.eq_of_getLsbD_eq
  intro bit range
  rw [getLsbD_set, if_pos (by omega)]
  simp [range]

theorem get_zero_width {v start : ℕ} {word : BitVec w} : (get start 0 word).setWidth v = 0 := by
  apply BitVec.eq_of_getLsbD_eq
  intro bit range
  simp

theorem setWidth_get {start len len' : ℕ} {word : BitVec w} (shorter : len ≤ len') :
    (get start len' word).setWidth len = get start len word := by
  apply BitVec.eq_of_getLsbD_eq
  intro bit range
  have inside : bit < len' := by omega
  simp only [BitVec.getLsbD_setWidth, getLsbD_get, range, inside, decide_true, Bool.true_and]

theorem and_allOnes {len : ℕ} {word : BitVec w} :
    word &&& (BitVec.allOnes len).setWidth w = (word.setWidth len).setWidth w := by
  apply BitVec.eq_of_getLsbD_eq
  intro bit range
  simp [range, Bool.and_comm]

theorem get_append {v start len len' : ℕ} {word : BitVec w} :
    (get start len word).setWidth v ||| (get (start + len) len' word).setWidth v <<< len =
      (get start (len + len') word).setWidth v := by
  apply BitVec.eq_of_getLsbD_eq
  intro bit range
  simp only [BitVec.getLsbD_or, BitVec.getLsbD_shiftLeft, BitVec.getLsbD_setWidth, getLsbD_get,
    range, decide_true, Bool.true_and]
  by_cases first : bit < len
  · have whole : bit < len + len' := by omega
    simp [first, whole]
  · have inside : bit - len < v := by omega
    have place : start + len + (bit - len) = start + bit := by omega
    have piece : bit - len < len' ↔ bit < len + len' := by omega
    simp [first, inside, place, piece]

theorem set_zero_width {start : ℕ} {value : BitVec 0} {word : BitVec w} :
    set start value word = word := by
  apply BitVec.eq_of_getLsbD_eq
  intro bit range
  rw [getLsbD_set, if_neg (by omega)]

theorem set_append {v start len len' : ℕ} {value : BitVec v} {word : BitVec w} :
    set (start + len) ((value >>> len).setWidth len') (set start (value.setWidth len) word) =
      set start (value.setWidth (len + len')) word := by
  apply BitVec.eq_of_getLsbD_eq
  intro bit range
  simp only [getLsbD_set, BitVec.getLsbD_setWidth, BitVec.getLsbD_ushiftRight, range, decide_true,
    Bool.true_and]
  by_cases first : start ≤ bit ∧ bit < start + len
  · have later : ¬(start + len ≤ bit ∧ bit < start + len + len') := by omega
    have whole : start ≤ bit ∧ bit < start + (len + len') := by omega
    have inside : bit - start < len ∧ bit - start < len + len' := by omega
    simp [first, later, whole, inside]
  · by_cases later : start + len ≤ bit ∧ bit < start + len + len'
    · have whole : start ≤ bit ∧ bit < start + (len + len') := by omega
      have inside : bit - (start + len) < len' ∧ bit - start < len + len' := by omega
      have place : len + (bit - (start + len)) = bit - start := by omega
      simp [later, whole, inside, place]
    · have outside : ¬(start ≤ bit ∧ bit < start + (len + len')) := by omega
      rw [if_neg later, if_neg first, if_neg outside]

end BitField

end Blubos
