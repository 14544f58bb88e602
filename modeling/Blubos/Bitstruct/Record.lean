import Blubos.Bitstruct.Accessors
import Mathlib.Data.List.FinRange
import Mathlib.Logic.Function.Basic

/-!
# Packed structures as records

A generated structure is meant as a record with one value for each field.  When no two fields share
a bit, the setters update this record and the getters read it.
-/

namespace Blubos

open PackedBytes

namespace Bitstruct

namespace FieldType

def number : (ty : FieldType) → ty.Value → ℕ
  | .bool, value => Bool.toNat value
  | .u8, value => BitVec.toNat value
  | .u16, value => BitVec.toNat value
  | .u32, value => BitVec.toNat value
  | .u64, value => BitVec.toNat value

/-- The value that a number converts to. -/
def convert : (ty : FieldType) → ℕ → ty.Value
  | .bool, number => number % 2 == 1
  | .u8, number => BitVec.ofNat 8 number
  | .u16, number => BitVec.ofNat 16 number
  | .u32, number => BitVec.ofNat 32 number
  | .u64, number => BitVec.ofNat 64 number

theorem toNat_toBits (ty : FieldType) (value : ty.Value) :
    (ty.toBits value).toNat = ty.number value := by
  cases ty with
  | bool => cases value <;> rfl
  | u8 => exact BitVec.toNat_setWidth_of_le (by decide)
  | u16 => exact BitVec.toNat_setWidth_of_le (by decide)
  | u32 => exact BitVec.toNat_setWidth_of_le (by decide)
  | u64 => rfl

theorem get_eq_convert (ty : FieldType) (bits : BitVec 64) :
    ty.get bits = ty.convert bits.toNat := by
  cases ty with
  | bool =>
      have lowest : (bits &&& 1).toNat = bits.toNat % 2 := Nat.and_one_is_mod _
      rw [get, convert, ← lowest]
      rcases Nat.mod_two_eq_zero_or_one bits.toNat with even | odd
      · rw [← lowest] at even
        rw [BitVec.eq_of_toNat_eq (y := 0) even]
        rfl
      · rw [← lowest] at odd
        rw [BitVec.eq_of_toNat_eq (y := 1) odd]
        rfl
  | u8 => rfl
  | u16 => rfl
  | u32 => rfl
  | u64 => exact (BitVec.ofNat_toNat 64 bits).trans (BitVec.setWidth_eq bits) |>.symm

end FieldType

/-- A value as the field keeps it: reduced to the width and converted back. -/
def FieldInfo.reduce (field : FieldInfo FieldType) (value : field.ty.Value) : field.ty.Value :=
  field.ty.convert (field.ty.number value % 2 ^ field.bitWidth)

theorem FieldInfo.get_toBits (field : FieldInfo FieldType) (narrow : field.bitWidth ≤ 64)
    (value : field.ty.Value) :
    field.ty.get (((field.ty.toBits value).setWidth field.bitWidth).setWidth 64) =
      field.reduce value := by
  rw [FieldType.get_eq_convert, BitVec.toNat_setWidth_of_le narrow, BitVec.toNat_setWidth,
    FieldType.toNat_toBits, FieldInfo.reduce]

namespace Generated

/-- `new`. -/
def new (generated : Generated FieldType) : Vector (BitVec 8) generated.totalBytes :=
  Vector.replicate generated.totalBytes 0

/-- A call of a setter. -/
structure Call (generated : Generated FieldType) where
  field : Fin generated.fields.length
  value : generated.fields[field].ty.Value

/-- The array after some calls, the most recent first. -/
def run (generated : Generated FieldType) :
    List generated.Call → Except Fault (Vector (BitVec 8) generated.totalBytes)
  | [] => .ok generated.new
  | call :: earlier => do
      let data ← generated.run earlier
      generated.fields[call.field].setter call.value data

/-- The value last given to each field, or else zero. -/
def lastValues (generated : Generated FieldType) :
    List generated.Call → (field : Fin generated.fields.length) → generated.fields[field].ty.Value
  | [] => fun field => generated.fields[field].ty.convert 0
  | call :: earlier => Function.update (generated.lastValues earlier) call.field
      (generated.fields[call.field].reduce call.value)

/-- `with_fields`: the setters in the order of the declaration. -/
def withFields (generated : Generated FieldType)
    (values : (field : Fin generated.fields.length) → generated.fields[field].ty.Value) :
    Except Fault (Vector (BitVec 8) generated.totalBytes) :=
  (List.finRange generated.fields.length).foldlM
    (fun data field => generated.fields[field].setter (values field) data) generated.new

/-- The getters return the arguments of the constructor. -/
def KeepsArguments (generated : Generated FieldType) : Prop :=
  ∀ values, ∃ data, generated.withFields values = .ok data ∧
    ∀ field : Fin generated.fields.length, generated.fields[field].getter data = .ok (values field)

/-- The calls that the constructor makes, the most recent first. -/
def constructorCalls (generated : Generated FieldType)
    (values : (field : Fin generated.fields.length) → generated.fields[field].ty.Value) :
    List generated.Call :=
  ((List.finRange generated.fields.length).map fun field => ⟨field, values field⟩).reverse

/-- No two fields share a bit and none fills a word. -/
structure Separate (generated : Generated FieldType) : Prop where
  apart : generated.fields.Pairwise FieldInfo.Apart
  narrow : ∀ field ∈ generated.fields, field.bitWidth ≤ 63

/-- The array holds a record. -/
structure Holds (generated : Generated FieldType) (data : Vector (BitVec 8) generated.totalBytes)
    (record : (field : Fin generated.fields.length) → generated.fields[field].ty.Value) : Prop where
  /-- The bits of a field are its value. -/
  value : ∀ field : Fin generated.fields.length, generated.fields[field].ty.get
    ((BitField.get generated.fields[field].startBit generated.fields[field].bitWidth
      (word data)).setWidth 64) = record field
  /-- The bits of no field are zero. -/
  clear : ∀ position, (∀ field ∈ generated.fields, ¬field.Covers position) →
    (word data).getLsbD position = false

variable {generated : Generated FieldType} {data : Vector (BitVec 8) generated.totalBytes}
  {record : (field : Fin generated.fields.length) → generated.fields[field].ty.Value}

theorem Separate.apart_of_ne (separate : generated.Separate)
    {first second : Fin generated.fields.length}
    (different : first ≠ second) : generated.fields[first].Apart generated.fields[second] := by
  have apart := List.pairwise_iff_getElem.mp separate.apart
  rcases Nat.lt_or_gt_of_ne (Fin.val_ne_of_ne different) with below | above
  · exact apart first second first.isLt second.isLt below
  · exact (apart second first second.isLt first.isLt above).symm

theorem Holds.new (generated : Generated FieldType) :
    generated.Holds generated.new fun field => generated.fields[field].ty.convert 0 where
  value field := by
    rw [Generated.new, word_replicate_zero, BitField.get_zero, FieldType.get_eq_convert]
    congr 1
    simp
  clear position _ := by
    rw [Generated.new, word_replicate_zero]
    exact BitVec.getLsbD_zero

theorem Holds.getter (holds : generated.Holds data record) (separate : generated.Separate)
    (inside : ∀ field ∈ generated.fields, field.endByte < generated.totalBytes)
    (field : Fin generated.fields.length) :
    generated.fields[field].getter data = .ok (record field) := by
  have member : generated.fields[field] ∈ generated.fields := List.getElem_mem _
  rw [FieldInfo.getter, FieldInfo.getBits_spec _ _ (inside _ member)
    (Nat.lt_succ_of_le (separate.narrow _ member)), ok_bind, holds.value]

theorem Holds.setter (holds : generated.Holds data record) (separate : generated.Separate)
    (inside : ∀ field ∈ generated.fields, field.endByte < generated.totalBytes)
    (call : generated.Call) :
    ∃ data', generated.fields[call.field].setter call.value data = .ok data' ∧
      generated.Holds data' (Function.update record call.field
        (generated.fields[call.field].reduce call.value)) := by
  have member : generated.fields[call.field] ∈ generated.fields := List.getElem_mem _
  have narrow := separate.narrow _ member
  have fits := inside _ member
  obtain ⟨data', ran, written⟩ := generated.fields[call.field].setBits_spec
    (generated.fields[call.field].ty.toBits call.value) data fits (Nat.lt_succ_of_le narrow)
  have final := generated.fields[call.field].endByte_place
  have width := generated.fields[call.field].bitWidth_place
  refine ⟨data', ran, fun field => ?_, fun position outside => ?_⟩
  · rw [written]
    by_cases same : field = call.field
    · subst same
      rw [BitField.get_set (by omega), Function.update_self, FieldInfo.get_toBits _ (by omega)]
    · have apart := separate.apart_of_ne same
      have other := generated.fields[field].bitWidth_place
      rw [FieldInfo.Apart] at apart
      rw [BitField.get_set_of_apart (by omega), holds.value, Function.update_of_ne same]
  · have uncovered := outside _ member
    rw [FieldInfo.Covers] at uncovered
    rw [written, BitField.getLsbD_set, if_neg (by omega), holds.clear position outside]

/-- Every run of setters ends with an array that holds the last values. -/
theorem run_holds (separate : generated.Separate)
    (inside : ∀ field ∈ generated.fields, field.endByte < generated.totalBytes)
    (calls : List generated.Call) :
    ∃ data, generated.run calls = .ok data ∧ generated.Holds data (generated.lastValues calls) := by
  induction calls with
  | nil => exact ⟨_, rfl, .new generated⟩
  | cons call earlier induction =>
      obtain ⟨data, ran, holds⟩ := induction
      obtain ⟨data', set, holds'⟩ := holds.setter separate inside call
      refine ⟨data', ?_, holds'⟩
      rw [run, ran, ok_bind, set]

/-! ## The constructor -/

theorem run_eq_foldlM (calls : List generated.Call) :
    generated.run calls = calls.reverse.foldlM
      (fun data call => generated.fields[call.field].setter call.value data) generated.new := by
  induction calls with
  | nil => rfl
  | cons call earlier induction =>
      rw [run, induction, List.reverse_cons, List.foldlM_append]
      simp only [List.foldlM_cons, List.foldlM_nil, bind_pure]

theorem withFields_eq_run
    (values : (field : Fin generated.fields.length) → generated.fields[field].ty.Value) :
    generated.withFields values = generated.run (generated.constructorCalls values) := by
  rw [run_eq_foldlM, constructorCalls, List.reverse_reverse, List.foldlM_map]
  rfl

/-- A field that was set to its own value only has that value. -/
theorem lastValues_eq
    {values : (field : Fin generated.fields.length) → generated.fields[field].ty.Value}
    {calls : List generated.Call} (own : ∀ call ∈ calls, call.value = values call.field)
    {field : Fin generated.fields.length} (set : field ∈ calls.map Call.field) :
    generated.lastValues calls field = generated.fields[field].reduce (values field) := by
  induction calls with
  | nil => simp at set
  | cons call earlier induction =>
      rw [lastValues]
      by_cases same : field = call.field
      · subst same
        rw [Function.update_self, own call List.mem_cons_self]
      · rw [Function.update_of_ne same]
        rw [List.map_cons, List.mem_cons, or_iff_right same] at set
        exact induction (fun call member => own call (List.mem_cons_of_mem _ member)) set

theorem lastValues_constructorCalls
    (values : (field : Fin generated.fields.length) → generated.fields[field].ty.Value)
    (field : Fin generated.fields.length) :
    generated.lastValues (generated.constructorCalls values) field =
      generated.fields[field].reduce (values field) := by
  apply lastValues_eq
  · intro call member
    obtain ⟨field, -, rfl⟩ := List.mem_map.mp (List.mem_reverse.mp member)
    rfl
  · rw [constructorCalls, List.map_reverse, List.mem_reverse, List.map_map]
    exact List.mem_map.mpr ⟨field, List.mem_finRange field, rfl⟩

end Generated

/-- After any calls of setters every getter returns the last value of its field, reduced to its
width, and the bits of no field are zero. -/
theorem accessors_lossless {bitstruct : BitStruct FieldType} {generated : Generated FieldType}
    (expanded : generateBitstructCode FieldType.bitSize bitstruct = .ok generated)
    (separate : generated.Separate)
    (calls : List generated.Call) :
    ∃ data : Vector (BitVec 8) generated.totalBytes, generated.run calls = .ok data ∧
      (∀ field : Fin generated.fields.length,
        generated.fields[field].getter data = .ok (generated.lastValues calls field)) ∧
      ∀ index bit (range : index < generated.totalBytes), bit < 8 →
        (∀ field ∈ generated.fields, ¬field.Covers (8 * index + bit)) →
          data[index].getLsbD bit = false := by
  have inside (field : FieldInfo FieldType) (member : field ∈ generated.fields) :
      field.endByte < generated.totalBytes := endByte_lt_totalBytes expanded member
  obtain ⟨data, ran, holds⟩ := Generated.run_holds separate inside calls
  refine ⟨data, ran, fun field => holds.getter separate inside field, ?_⟩
  intro index bit range low outside
  have quotient : (8 * index + bit) / 8 = index := by omega
  have remainder : (8 * index + bit) % 8 = bit := by omega
  have clear := holds.clear _ outside
  rw [getLsbD_word (by omega)] at clear
  simpa only [quotient, remainder] using clear

/-- Two flags and a byte that spans two bytes of the array. -/
def basicBitstruct : BitStruct FieldType :=
  ⟨[⟨.bool, some (.single 0)⟩, ⟨.bool, none⟩, ⟨.u8, some (.inclusive 3 10)⟩]⟩

def basicGenerated : Generated FieldType :=
  ⟨2, [⟨.bool, 0, 0, le_rfl⟩, ⟨.bool, 1, 1, le_rfl⟩, ⟨.u8, 3, 10, by decide⟩]⟩

/-- Setting the byte and then the first flag. -/
def basicCalls : List basicGenerated.Call :=
  [⟨⟨0, Nat.zero_lt_succ 2⟩, true⟩, ⟨⟨2, Nat.lt_add_one 2⟩, (0x55 : BitVec 8)⟩]

theorem accessors_lossless_basic : ∃ data : Vector (BitVec 8) 2,
    basicGenerated.run basicCalls = .ok data ∧
      FieldInfo.getter ⟨.bool, 0, 0, le_rfl⟩ data = .ok true ∧
      FieldInfo.getter ⟨.bool, 1, 1, le_rfl⟩ data = .ok false ∧
      FieldInfo.getter ⟨.u8, 3, 10, by decide⟩ data = .ok (0x55 : BitVec 8) := by
  have expanded : generateBitstructCode FieldType.bitSize basicBitstruct = .ok basicGenerated :=
    rfl
  have separate : basicGenerated.Separate :=
    ⟨by simp [basicGenerated, FieldInfo.Apart], by simp [basicGenerated, FieldInfo.bitWidth]⟩
  obtain ⟨data, ran, getters, -⟩ := accessors_lossless expanded separate basicCalls
  exact ⟨data, ran, getters ⟨0, Nat.zero_lt_succ 2⟩, getters ⟨1, by decide⟩,
    getters ⟨2, Nat.lt_add_one 2⟩⟩

end Bitstruct

end Blubos
