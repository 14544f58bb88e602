import Blubos.Bitstruct.Layout
import Blubos.Foundation.PackedBytes

/-!
# Accessors of packed structures

The getter and the setter that `bitstruct!` generates for a field, each with one path for a field
inside a byte and one for a field that spans several.  They read and write the field's bits of the
array, taken as one word.
-/

namespace Blubos

open PackedBytes

namespace Bitstruct

section Checked

variable {w n : ℕ}

/-- Checked `<<`. -/
def shiftLeft (word : BitVec w) (amount : ℕ) : Except Fault (BitVec w) :=
  if amount < w then .ok (word <<< amount) else .error .overflow

/-- Checked `>>`. -/
def shiftRight (word : BitVec w) (amount : ℕ) : Except Fault (BitVec w) :=
  if amount < w then .ok (word >>> amount) else .error .overflow

/-- `(1u64 << width) - 1`. -/
def lowMask (width : ℕ) : Except Fault (BitVec 64) := do
  let bit ← shiftLeft 1 width
  .ok (bit - 1)

/-- `data[index]`. -/
def byteAt (data : Vector (BitVec 8) n) (index : ℕ) : Except Fault (BitVec 8) :=
  match data[index]? with
  | some byte => .ok byte
  | none => .error .outOfBounds

/-- `data[index] = byte`. -/
def setByte (data : Vector (BitVec 8) n) (index : ℕ) (byte : BitVec 8) :
    Except Fault (Vector (BitVec 8) n) :=
  if range : index < n then .ok (data.set index byte) else .error .outOfBounds

theorem shiftLeft_of_lt {word : BitVec w} {amount : ℕ} (range : amount < w) :
    shiftLeft word amount = .ok (word <<< amount) := if_pos range

theorem shiftRight_of_lt {word : BitVec w} {amount : ℕ} (range : amount < w) :
    shiftRight word amount = .ok (word >>> amount) := if_pos range

theorem byteAt_of_lt {data : Vector (BitVec 8) n} {index : ℕ} (range : index < n) :
    byteAt data index = .ok data[index] := by
  rw [byteAt, Vector.getElem?_eq_getElem range]

theorem setByte_of_lt {data : Vector (BitVec 8) n} {index : ℕ} {byte : BitVec 8}
    (range : index < n) :
    setByte data index byte = .ok (data.set index byte) := dif_pos range

theorem lowMask_of_lt {width : ℕ} (range : width < 64) :
    lowMask width = .ok ((BitVec.allOnes width).setWidth 64) := by
  rw [lowMask, shiftLeft_of_lt range, ok_bind]
  congr 1
  apply BitVec.eq_of_toNat_eq
  have bound : 2 ^ width < 2 ^ 64 := Nat.pow_lt_pow_right (by decide) range
  have positive := Nat.two_pow_pos width
  have one : (1 : BitVec 64).toNat = 1 := rfl
  rw [BitVec.toNat_setWidth, BitVec.toNat_allOnes, Nat.mod_eq_of_lt (by omega), BitVec.toNat_sub,
    BitVec.toNat_shiftLeft, Nat.shiftLeft_eq, one]
  omega

end Checked

namespace FieldType

/-- `__GetVal::get`. -/
def get : (ty : FieldType) → BitVec 64 → ty.Value
  | .bool, bits => bits &&& 1 != 0
  | .u8, bits => bits.setWidth 8
  | .u16, bits => bits.setWidth 16
  | .u32, bits => bits.setWidth 32
  | .u64, bits => bits

/-- `__ToBits::to_bits`. -/
def toBits : (ty : FieldType) → ty.Value → BitVec 64
  | .bool, value => if value then 1 else 0
  | .u8, value => value.setWidth 64
  | .u16, value => value.setWidth 64
  | .u32, value => value.setWidth 64
  | .u64, value => value

end FieldType

/-! ## Accessors -/

namespace FieldInfo

variable {Ty : Type} {n : ℕ}

/-- `start_bit_in_byte`, `start_offset`. -/
def startOffset (field : FieldInfo Ty) : ℕ := field.startBit % 8

/-- `start_byte..=end_byte`. -/
def byteRange (field : FieldInfo Ty) : List ℕ :=
  List.range' field.startByte (field.endByte + 1 - field.startByte)

/-- `bit_start_in_result`, `bit_start_in_value`: the bits of the field in the bytes before.  The
product does not overflow, as it is at most `end_bit`. -/
def bitStart (field : FieldInfo Ty) (byteIdx : ℕ) : Except Fault ℕ :=
  if byteIdx = field.startByte then .ok 0
  else U32.sub ((byteIdx - field.startByte) * 8) field.startOffset

/-- `bits_for_this_byte`. -/
def bitsForByte (field : FieldInfo Ty) (byteIdx : ℕ) : Except Fault ℕ :=
  if byteIdx = field.startByte then U32.sub 8 field.startOffset
  else if byteIdx = field.endByte then .ok (field.endBit % 8 + 1)
  else .ok 8

/-- `shift`: where the bits of the field start in a byte. -/
def shift (field : FieldInfo Ty) (byteIdx : ℕ) : ℕ :=
  if byteIdx = field.startByte then field.startOffset else 0

/-- `bits_from_byte`. -/
def bitsFromByte (field : FieldInfo Ty) (byteIdx : ℕ) (byteVal : BitVec 64) :
    Except Fault (BitVec 64) :=
  if byteIdx = field.startByte then shiftRight byteVal field.startOffset else .ok byteVal

/-- One round of the loop of the getter. -/
def gatherByte (field : FieldInfo Ty) (data : Vector (BitVec 8) n) (result : BitVec 64)
    (byteIdx : ℕ) : Except Fault (BitVec 64) := do
  let byte ← byteAt data byteIdx
  let bitStartInResult ← field.bitStart byteIdx
  let bitsFromByte ← field.bitsFromByte byteIdx (byte.setWidth 64)
  let positioned ← shiftLeft bitsFromByte bitStartInResult
  .ok (result ||| positioned)

/-- The bits that the getter of `generate_getter` converts to the field's type. -/
def getBits (field : FieldInfo Ty) (data : Vector (BitVec 8) n) : Except Fault (BitVec 64) :=
  if field.startByte = field.endByte then do
    let byte ← byteAt data field.startByte
    let shifted ← shiftRight byte field.startOffset
    let mask ← lowMask field.bitWidth
    .ok (shifted.setWidth 64 &&& mask)
  else do
    let result ← field.byteRange.foldlM (field.gatherByte data) 0
    let mask ← lowMask field.bitWidth
    .ok (result &&& mask)

def getter (field : FieldInfo FieldType) (data : Vector (BitVec 8) n) :
    Except Fault field.ty.Value := do
  let bits ← field.getBits data
  .ok (field.ty.get bits)

/-- One round of the loop of the setter. -/
def scatterByte (field : FieldInfo Ty) (valueMasked : BitVec 64) (data : Vector (BitVec 8) n)
    (byteIdx : ℕ) : Except Fault (Vector (BitVec 8) n) := do
  let bitStartInValue ← field.bitStart byteIdx
  let bitsForThisByte ← field.bitsForByte byteIdx
  let mask ← lowMask bitsForThisByte
  let byteMask := mask.setWidth 8
  let shifted ← shiftRight valueMasked bitStartInValue
  let valueForByte := (shifted &&& byteMask.setWidth 64).setWidth 8
  let positionedValue ← shiftLeft valueForByte (field.shift byteIdx)
  let positionedMask ← shiftLeft byteMask (field.shift byteIdx)
  let byte ← byteAt data byteIdx
  setByte data byteIdx ((byte &&& ~~~positionedMask) ||| positionedValue)

/-- The setter of `generate_setter`, after the conversion of the value to bits. -/
def setBits (field : FieldInfo Ty) (valueBits : BitVec 64) (data : Vector (BitVec 8) n) :
    Except Fault (Vector (BitVec 8) n) :=
  if field.startByte = field.endByte then do
    let mask ← lowMask field.bitWidth
    let positionedMask ← shiftLeft mask field.startOffset
    let clearMask := ~~~positionedMask.setWidth 8
    let valueMasked := (valueBits &&& mask).setWidth 8
    let valuePositioned ← shiftLeft valueMasked field.startOffset
    let byte ← byteAt data field.startByte
    setByte data field.startByte ((byte &&& clearMask) ||| valuePositioned)
  else do
    let mask ← lowMask field.bitWidth
    field.byteRange.foldlM (field.scatterByte (valueBits &&& mask)) data

def setter (field : FieldInfo FieldType) (value : field.ty.Value) (data : Vector (BitVec 8) n) :
    Except Fault (Vector (BitVec 8) n) :=
  field.setBits (field.ty.toBits value) data

theorem startOffset_lt (field : FieldInfo Ty) : field.startOffset < 8 := Nat.mod_lt _ (by decide)

theorem startByte_place (field : FieldInfo Ty) :
    8 * field.startByte + field.startOffset = field.startBit := Nat.div_add_mod _ _

theorem endByte_place (field : FieldInfo Ty) :
    8 * field.endByte + field.endBit % 8 = field.endBit :=
  Nat.div_add_mod _ _

theorem startByte_le_endByte (field : FieldInfo Ty) : field.startByte ≤ field.endByte :=
  Nat.div_le_div_right field.ordered

theorem bitWidth_place (field : FieldInfo Ty) :
    field.startBit + field.bitWidth = field.endBit + 1 := by
  have ordered := field.ordered
  rw [bitWidth]
  omega

section Bytes

variable {field : FieldInfo Ty} {byteIdx : ℕ}

theorem bitStart_spec (first : field.startByte ≤ byteIdx) :
    field.bitStart byteIdx = .ok (8 * byteIdx - field.startBit) := by
  have place := field.startByte_place
  have low := field.startOffset_lt
  rw [bitStart]
  split_ifs with same
  · congr 1
    omega
  · rw [U32.sub_of_le (by omega)]
    congr 1
    omega

theorem shift_place (first : field.startByte ≤ byteIdx) :
    8 * byteIdx + field.shift byteIdx = field.startBit + (8 * byteIdx - field.startBit) := by
  have place := field.startByte_place
  have low := field.startOffset_lt
  rw [shift]
  split_ifs <;> omega

theorem shift_lt (field : FieldInfo Ty) (byteIdx : ℕ) : field.shift byteIdx < 8 := by
  have low := field.startOffset_lt
  rw [shift]
  split_ifs <;> omega

theorem bitsFromByte_spec (byteVal : BitVec 64) :
    field.bitsFromByte byteIdx byteVal = .ok (byteVal >>> field.shift byteIdx) := by
  rw [bitsFromByte, shift]
  split_ifs
  · exact shiftRight_of_lt (field.startOffset_lt.trans (by decide))
  · rw [BitVec.ushiftRight_zero]

/-- The bits of the field that are below a byte. -/
def bitsBelow (field : FieldInfo Ty) (byteIdx : ℕ) : ℕ :=
  min (8 * byteIdx - field.startBit) field.bitWidth

theorem bitsForByte_spec (several : field.startByte < field.endByte)
    (first : field.startByte ≤ byteIdx)
    (last : byteIdx ≤ field.endByte) :
    ∃ bits, field.bitsForByte byteIdx = .ok bits ∧ field.shift byteIdx + bits ≤ 8 ∧
      8 * byteIdx - field.startBit + bits = field.bitsBelow (byteIdx + 1) := by
  have start := field.startByte_place
  have final := field.endByte_place
  have low := field.startOffset_lt
  have width := field.bitWidth_place
  rw [bitsForByte, shift, bitsBelow]
  split_ifs with opening closing
  · exact ⟨8 - field.startOffset, U32.sub_of_le low.le, by omega, by omega⟩
  · exact ⟨field.endBit % 8 + 1, rfl, by omega, by omega⟩
  · exact ⟨8, rfl, by omega, by omega⟩

end Bytes

theorem ushiftRight_byte (data : Vector (BitVec 8) n) {byteIdx offset : ℕ} (range : byteIdx < n)
    (low : offset ≤ 8) :
    data[byteIdx].setWidth 64 >>> offset =
      (BitField.get (8 * byteIdx + offset) (8 - offset) (word data)).setWidth 64 := by
  rw [← get_byte range (by omega)]
  apply BitVec.eq_of_getLsbD_eq
  intro bit inside
  simp only [BitVec.getLsbD_ushiftRight, BitVec.getLsbD_setWidth, BitField.getLsbD_get, inside,
    decide_true, Bool.true_and]
  by_cases whole : bit < 8 - offset
  · have upper : offset + bit < 64 := by omega
    simp [whole, upper]
  · have beyond : data[byteIdx].getLsbD (offset + bit) = false := by
      apply BitVec.getLsbD_of_ge
      omega
    simp [beyond]

theorem gatherByte_spec {field : FieldInfo Ty} (data : Vector (BitVec 8) n) {byteIdx : ℕ}
    (range : byteIdx < n) (first : field.startByte ≤ byteIdx) (last : byteIdx ≤ field.endByte)
    (narrow : field.bitWidth ≤ 64) :
    field.gatherByte data
        ((BitField.get field.startBit (8 * byteIdx - field.startBit) (word data)).setWidth 64)
        byteIdx =
      .ok ((BitField.get field.startBit (8 * (byteIdx + 1) - field.startBit)
        (word data)).setWidth 64) := by
  have width := field.bitWidth_place
  have final := field.endByte_place
  have low := field.shift_lt byteIdx
  have place := shift_place first
  have next : 8 * byteIdx - field.startBit + (8 - field.shift byteIdx) =
      8 * (byteIdx + 1) - field.startBit := by omega
  have appended := @BitField.get_append _ 64 field.startBit (8 * byteIdx - field.startBit)
    (8 - field.shift byteIdx) (word data)
  rw [← place, next, ← ushiftRight_byte data range low.le] at appended
  rw [gatherByte, byteAt_of_lt range, ok_bind, bitStart_spec first, ok_bind, bitsFromByte_spec,
    ok_bind, shiftLeft_of_lt (show 8 * byteIdx - field.startBit < 64 by omega), ok_bind, appended]

theorem gather_spec {field : FieldInfo Ty} (data : Vector (BitVec 8) n) (inside : field.endByte < n)
    (narrow : field.bitWidth ≤ 64) {byteIdx count : ℕ} (first : field.startByte ≤ byteIdx)
    (last : byteIdx + count ≤ field.endByte + 1) :
    (List.range' byteIdx count).foldlM (field.gatherByte data)
        ((BitField.get field.startBit (8 * byteIdx - field.startBit) (word data)).setWidth 64) =
      .ok ((BitField.get field.startBit (8 * (byteIdx + count) - field.startBit)
        (word data)).setWidth 64) := by
  induction count generalizing byteIdx with
  | zero => rfl
  | succ count induction =>
      rw [List.range'_succ, List.foldlM_cons,
        gatherByte_spec data (by omega) first (by omega) narrow, ok_bind,
        induction (by omega) (by omega), Nat.add_right_comm, Nat.add_assoc]

theorem getBits_spec (field : FieldInfo Ty) (data : Vector (BitVec 8) n)
    (inside : field.endByte < n)
    (narrow : field.bitWidth < 64) :
    field.getBits data =
      .ok ((BitField.get field.startBit field.bitWidth (word data)).setWidth 64) := by
  have place := field.startByte_place
  have final := field.endByte_place
  have low := field.startOffset_lt
  have width := field.bitWidth_place
  have order := field.startByte_le_endByte
  rw [getBits]
  by_cases single : field.startByte = field.endByte
  · have range : field.startByte < n := by omega
    have fits : field.startOffset + field.bitWidth ≤ 8 := by omega
    rw [if_pos single, byteAt_of_lt range, ok_bind, shiftRight_of_lt low, ok_bind,
      lowMask_of_lt narrow, ok_bind, BitField.and_allOnes,
      BitVec.setWidth_setWidth (show ¬(64 < 8 ∧ 64 < field.bitWidth) by omega),
      ← BitField.get_eq_ushiftRight, get_byte range fits, place]
  · have zero : (0 : BitVec 64) =
        (BitField.get field.startBit (8 * field.startByte - field.startBit)
          (word data)).setWidth 64 := by
      have none : 8 * field.startByte - field.startBit = 0 := by omega
      rw [none, BitField.get_zero_width]
    have count : field.startByte + (field.endByte + 1 - field.startByte) =
      field.endByte + 1 := by omega
    rw [if_neg single, zero, byteRange, gather_spec data inside narrow.le le_rfl count.le, ok_bind,
      lowMask_of_lt narrow, ok_bind, BitField.and_allOnes, count,
      BitVec.setWidth_setWidth_of_le _ narrow.le, BitField.setWidth_get (by omega)]

/-- Clearing a part of a byte and filling it with the lowest bits of a value. -/
theorem splice_byte (byte : BitVec 8) (value : BitVec 64) (shift : ℕ) {bits : ℕ}
    (low : bits ≤ 8) :
    (byte &&& ~~~(((BitVec.allOnes bits).setWidth 64).setWidth 8 <<< shift)) |||
        (value &&&
          (((BitVec.allOnes bits).setWidth 64).setWidth 8).setWidth 64).setWidth 8 <<< shift =
      BitField.set shift (value.setWidth bits) byte := by
  rw [BitVec.setWidth_setWidth_of_le _ (by decide),
    BitVec.setWidth_setWidth (show ¬(8 < bits ∧ 8 < 64) by omega), BitField.and_allOnes,
    BitVec.setWidth_setWidth_of_le _ (by decide), BitField.set, BitField.mask]

theorem scatterByte_spec {field : FieldInfo Ty} (value : BitVec 64) (data : Vector (BitVec 8) n)
    {byteIdx : ℕ} (range : byteIdx < n) (several : field.startByte < field.endByte)
    (first : field.startByte ≤ byteIdx) (last : byteIdx ≤ field.endByte)
    (narrow : field.bitWidth ≤ 64) {original : BitVec (8 * n)}
    (before : word data =
      BitField.set field.startBit (value.setWidth (field.bitsBelow byteIdx)) original) :
    ∃ data' : Vector (BitVec 8) n, field.scatterByte value data byteIdx = .ok data' ∧
      word data' =
        BitField.set field.startBit (value.setWidth (field.bitsBelow (byteIdx + 1))) original := by
  obtain ⟨bits, computed, fits, total⟩ := bitsForByte_spec several first last
  have place := shift_place first
  have final := field.endByte_place
  have width := field.bitWidth_place
  have below : field.bitsBelow byteIdx = 8 * byteIdx - field.startBit := by
    rw [bitsBelow]
    omega
  rw [scatterByte, bitStart_spec first, ok_bind, computed, ok_bind,
    lowMask_of_lt (show bits < 64 by omega), ok_bind,
    shiftRight_of_lt (show 8 * byteIdx - field.startBit < 64 by omega), ok_bind]
  dsimp only
  rw [shiftLeft_of_lt (field.shift_lt byteIdx), ok_bind, shiftLeft_of_lt (field.shift_lt byteIdx),
    ok_bind, byteAt_of_lt range, ok_bind, setByte_of_lt range, splice_byte _ _ _ (by omega)]
  refine ⟨_, rfl, ?_⟩
  rw [word_set range fits, place, before, below, BitField.set_append, total]

theorem scatter_spec {field : FieldInfo Ty} (value : BitVec 64) (inside : field.endByte < n)
    (several : field.startByte < field.endByte) (narrow : field.bitWidth ≤ 64)
    {original : BitVec (8 * n)} {data : Vector (BitVec 8) n} {byteIdx count : ℕ}
    (first : field.startByte ≤ byteIdx) (last : byteIdx + count ≤ field.endByte + 1)
    (before : word data =
      BitField.set field.startBit (value.setWidth (field.bitsBelow byteIdx)) original) :
    ∃ data' : Vector (BitVec 8) n,
      (List.range' byteIdx count).foldlM (field.scatterByte value) data = .ok data' ∧
      word data' =
        BitField.set field.startBit (value.setWidth (field.bitsBelow (byteIdx + count)))
          original := by
  induction count generalizing byteIdx data with
  | zero => exact ⟨data, rfl, before⟩
  | succ count induction =>
      obtain ⟨next, stepped, after⟩ :=
        scatterByte_spec value data (by omega) several first (by omega) narrow before
      obtain ⟨data', ran, written⟩ := induction (by omega) (by omega) after
      refine ⟨data', ?_, ?_⟩
      · rw [List.range'_succ, List.foldlM_cons, stepped, ok_bind, ran]
      · rw [written, Nat.add_right_comm, Nat.add_assoc]

theorem setBits_spec (field : FieldInfo Ty) (valueBits : BitVec 64) (data : Vector (BitVec 8) n)
    (inside : field.endByte < n) (narrow : field.bitWidth < 64) :
    ∃ data' : Vector (BitVec 8) n, field.setBits valueBits data = .ok data' ∧
      word data' =
        BitField.set field.startBit (valueBits.setWidth field.bitWidth) (word data) := by
  have place := field.startByte_place
  have final := field.endByte_place
  have low := field.startOffset_lt
  have width := field.bitWidth_place
  have order := field.startByte_le_endByte
  rw [setBits]
  by_cases single : field.startByte = field.endByte
  · have range : field.startByte < n := by omega
    have fits : field.startOffset + field.bitWidth ≤ 8 := by omega
    rw [if_pos single, lowMask_of_lt narrow, ok_bind,
      shiftLeft_of_lt (show field.startOffset < 64 by omega), ok_bind]
    dsimp only
    rw [shiftLeft_of_lt low, ok_bind, byteAt_of_lt range, ok_bind, setByte_of_lt range,
      BitVec.setWidth_shiftLeft_of_le (by decide), BitVec.setWidth_setWidth_of_le _ (by decide),
      BitField.and_allOnes, BitVec.setWidth_setWidth_of_le _ (by decide)]
    refine ⟨_, rfl, ?_⟩
    rw [← place, ← word_set range fits]
    rfl
  · have several : field.startByte < field.endByte := by omega
    have unwritten : word data = BitField.set field.startBit
        (((valueBits.setWidth field.bitWidth).setWidth 64).setWidth
          (field.bitsBelow field.startByte))
        (word data) := by
      have none : field.bitsBelow field.startByte = 0 := by
        rw [bitsBelow]
        omega
      rw [none, BitField.set_zero_width]
    have count : field.startByte + (field.endByte + 1 - field.startByte) =
      field.endByte + 1 := by omega
    have whole : field.bitsBelow (field.endByte + 1) = field.bitWidth := by
      rw [bitsBelow]
      omega
    obtain ⟨data', ran, written⟩ :=
      scatter_spec _ inside several narrow.le le_rfl count.le unwritten
    rw [if_neg single, lowMask_of_lt narrow, ok_bind, BitField.and_allOnes, byteRange]
    refine ⟨data', ran, ?_⟩
    rw [written, count, whole, BitVec.setWidth_setWidth_of_le _ narrow.le, BitVec.setWidth_eq]

end FieldInfo

end Bitstruct

end Blubos
