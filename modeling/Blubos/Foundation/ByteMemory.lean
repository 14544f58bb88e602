import Blubos.Foundation.PackedBytes
import Mathlib.Tactic.Common

/-!
# Byte-addressed memory

Memory holds a byte at every address.  A value of several bytes is one word, its lowest byte at the
lowest address.  A value is loaded and stored as a whole or piece by piece.
-/

namespace Blubos

def ByteMemory : Type := ℕ → BitVec 8

namespace ByteMemory

variable {m k address : ℕ} {memory : ByteMemory}

@[ext] theorem ext {first second : ByteMemory} (same : ∀ address, first address = second address) :
    first = second := funext same

/-- The value of `m` bytes at an address. -/
def load (memory : ByteMemory) (m address : ℕ) : BitVec (8 * m) :=
  PackedBytes.word (Vector.ofFn fun index : Fin m => memory (address + index))

/-- Replace the `m` bytes at an address by a value. -/
def store (memory : ByteMemory) (m address : ℕ) (value : BitVec (8 * m)) : ByteMemory :=
  fun other =>
    if address ≤ other ∧ other < address + m then BitField.get (8 * (other - address)) 8 value
    else memory other

theorem getLsbD_load {bit : ℕ} (range : bit < 8 * m) :
    (memory.load m address).getLsbD bit = (memory (address + bit / 8)).getLsbD (bit % 8) := by
  rw [load, PackedBytes.getLsbD_word (by omega), Vector.getElem_ofFn]

theorem store_inside {value : BitVec (8 * m)} {other : ℕ}
    (inside : address ≤ other ∧ other < address + m) :
    memory.store m address value other = BitField.get (8 * (other - address)) 8 value :=
  if_pos inside

theorem store_outside {value : BitVec (8 * m)} {other : ℕ}
    (outside : ¬(address ≤ other ∧ other < address + m)) :
    memory.store m address value other = memory other := if_neg outside

@[simp] theorem load_store (value : BitVec (8 * m)) :
    (memory.store m address value).load m address = value := by
  apply BitVec.eq_of_getLsbD_eq
  intro bit range
  have low : bit % 8 < 8 := Nat.mod_lt _ (by decide)
  have place : 8 * (address + bit / 8 - address) + bit % 8 = bit := by omega
  rw [getLsbD_load range, store_inside (by omega), BitField.getLsbD_get, place]
  simp [low]

@[simp] theorem store_load : memory.store m address (memory.load m address) = memory := by
  ext other : 1
  by_cases inside : address ≤ other ∧ other < address + m
  · rw [store_inside inside]
    apply BitVec.eq_of_getLsbD_eq
    intro bit range
    have place : address + (8 * (other - address) + bit) / 8 = other := by omega
    have low : (8 * (other - address) + bit) % 8 = bit := by omega
    rw [BitField.getLsbD_get, getLsbD_load (by omega), place, low]
    simp [range]
  · exact store_outside inside

theorem set_load {n : ℕ} {buffer : BitVec (8 * n)} :
    BitField.set (8 * m) (memory.load k (address + m))
        (BitField.set 0 (memory.load m address) buffer) =
      BitField.set 0 (memory.load (m + k) address) buffer := by
  apply BitVec.eq_of_getLsbD_eq
  intro bit range
  simp only [BitField.getLsbD_set, range, decide_true, Bool.true_and, Nat.zero_le, true_and,
    Nat.zero_add, Nat.sub_zero]
  by_cases first : bit < 8 * m
  · have whole : bit < 8 * (m + k) := by omega
    rw [if_neg (by omega), if_pos first, if_pos whole, getLsbD_load first, getLsbD_load whole]
  · by_cases later : bit < 8 * m + 8 * k
    · have whole : bit < 8 * (m + k) := by omega
      have place : address + m + (bit - 8 * m) / 8 = address + bit / 8 := by omega
      have low : (bit - 8 * m) % 8 = bit % 8 := by omega
      rw [if_pos (by omega), if_pos whole, getLsbD_load (by omega), getLsbD_load whole, place, low]
    · rw [if_neg (by omega), if_neg first, if_neg (by omega)]

theorem store_get {n : ℕ} {value : BitVec (8 * n)} :
    (memory.store m address (BitField.get 0 (8 * m) value)).store k (address + m)
        (BitField.get (8 * m) (8 * k) value) =
      memory.store (m + k) address (BitField.get 0 (8 * (m + k)) value) := by
  ext other : 1
  by_cases first : address ≤ other ∧ other < address + m
  · have whole : address ≤ other ∧ other < address + (m + k) := by omega
    rw [store_outside (by omega), store_inside first, store_inside whole]
    apply BitVec.eq_of_getLsbD_eq
    intro bit range
    have short : 8 * (other - address) + bit < 8 * m := by omega
    have long : 8 * (other - address) + bit < 8 * (m + k) := by omega
    simp only [BitField.getLsbD_get, range, short, long, decide_true, Bool.true_and]
  · by_cases later : address + m ≤ other ∧ other < address + m + k
    · have whole : address ≤ other ∧ other < address + (m + k) := by omega
      rw [store_inside later, store_inside whole]
      apply BitVec.eq_of_getLsbD_eq
      intro bit range
      have short : 8 * (other - (address + m)) + bit < 8 * k := by omega
      have long : 8 * (other - address) + bit < 8 * (m + k) := by omega
      have place : 8 * m + (8 * (other - (address + m)) + bit) = 8 * (other - address) + bit := by
        omega
      simp only [BitField.getLsbD_get, range, short, long, place, decide_true, Bool.true_and,
        Nat.zero_add]
    · rw [store_outside later, store_outside first, store_outside (by omega)]

end ByteMemory

end Blubos
