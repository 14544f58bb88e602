import Blubos.Foundation.BitField

/-!
# Bytes as one word

An array of bytes is a word, lowest byte first.  A field inside one byte is a field of the word, and
a longer field is read and written piece by piece, from the lowest bits upwards.
-/

namespace Blubos

namespace PackedBytes

variable {n : ℕ}

def word (bytes : Vector (BitVec 8) n) : BitVec (8 * n) :=
  (BitVec.iunfoldr (fun position state => (state,
    (bytes.get ⟨position / 8, Nat.div_lt_of_lt_mul position.isLt⟩).getLsbD (position % 8))) ()).2

theorem getLsbD_word {bytes : Vector (BitVec 8) n} {position : ℕ} (range : position / 8 < n) :
    (word bytes).getLsbD position = bytes[position / 8].getLsbD (position % 8) := by
  have inside : position < 8 * n := by omega
  exact BitVec.iunfoldr_getLsbD (fun _ => ()) ⟨position, inside⟩ fun _ => rfl

theorem word_replicate_zero : word (Vector.replicate n (0 : BitVec 8)) = 0 := by
  apply BitVec.eq_of_getLsbD_eq
  intro position range
  rw [getLsbD_word (by omega), Vector.getElem_replicate]
  simp

/-- A field of one byte is a field of the word. -/
theorem get_byte {bytes : Vector (BitVec 8) n} {index start len : ℕ} (range : index < n)
    (fits : start + len ≤ 8) :
    BitField.get start len bytes[index] = BitField.get (8 * index + start) len (word bytes) := by
  apply BitVec.eq_of_getLsbD_eq
  intro bit inside
  have quotient : (8 * index + start + bit) / 8 = index := by omega
  have remainder : (8 * index + start + bit) % 8 = start + bit := by omega
  rw [BitField.getLsbD_get, BitField.getLsbD_get, getLsbD_word (by omega)]
  simp only [quotient, remainder]

/-- Writing a field of one byte writes a field of the word. -/
theorem word_set {bytes : Vector (BitVec 8) n} {index start len : ℕ} {value : BitVec len}
    (range : index < n) (fits : start + len ≤ 8) :
    word (bytes.set index (BitField.set start value bytes[index])) =
      BitField.set (8 * index + start) value (word bytes) := by
  apply BitVec.eq_of_getLsbD_eq
  intro position inside
  have byte : position / 8 < n := by omega
  rw [BitField.getLsbD_set, getLsbD_word byte, getLsbD_word byte, Vector.getElem_set]
  by_cases same : index = position / 8
  · subst same
    have low : position % 8 < 8 := by omega
    have place : start ≤ position % 8 ∧ position % 8 < start + len ↔
        8 * (position / 8) + start ≤ position ∧
          position < 8 * (position / 8) + start + len := by omega
    have offset : position - (8 * (position / 8) + start) = position % 8 - start := by omega
    rw [if_pos rfl, BitField.getLsbD_set]
    simp only [place, offset, low, inside]
  · have outside : ¬(8 * index + start ≤ position ∧ position < 8 * index + start + len) := by omega
    rw [if_neg same, if_neg outside]

end PackedBytes

end Blubos
