import Blubos.Bitstruct.Record
import Mathlib.Algebra.BigOperators.Group.List.Basic
import Mathlib.Data.List.FinRange

/-!
# Automatic layout and the constructor

A declaration without ranges places its fields one after the other, and `with_fields` sets all of
them.  The result is the record of the arguments, unless a field fills a word: the mask of such a
field is made by a shift by the width of the word.
-/

namespace Blubos

namespace Bitstruct

/-- No field is declared with a range. -/
def BitStruct.Automatic (bitstruct : BitStruct FieldType) : Prop :=
  ∀ field ∈ bitstruct.fields, field.range = none

/-- The bits that values of some types take. -/
def bitCount (types : List FieldType) : ℕ := (types.map FieldType.bitSize).sum

/-- The fields follow one another from a bit on, each as wide as its type. -/
def Consecutive (first : ℕ) : List (FieldInfo FieldType) → Prop
  | [] => True
  | field :: rest => field.startBit = first ∧ field.bitWidth = field.ty.bitSize ∧
      Consecutive (field.endBit + 1) rest

@[simp] theorem bitCount_nil : bitCount [] = 0 := rfl

@[simp] theorem bitCount_cons (ty : FieldType) (types : List FieldType) :
    bitCount (ty :: types) = ty.bitSize + bitCount types := rfl

theorem FieldType.bitSize_pos (ty : FieldType) : 0 < ty.bitSize := by
  cases ty <;> decide

namespace Consecutive

variable {first : ℕ} {fields : List (FieldInfo FieldType)} {field : FieldInfo FieldType}

theorem bitWidth_eq (consecutive : Consecutive first fields) (member : field ∈ fields) :
    field.bitWidth = field.ty.bitSize := by
  induction fields generalizing first with
  | nil => simp at member
  | cons head rest induction =>
      obtain ⟨-, width, consecutive⟩ := consecutive
      rcases List.mem_cons.mp member with rfl | member
      · exact width
      · exact induction consecutive member

/-- Every field lies between the first bit and the first bit after all of them. -/
theorem bounds (consecutive : Consecutive first fields) (member : field ∈ fields) :
    first ≤ field.startBit ∧ field.endBit + 1 ≤ first + bitCount (fields.map (·.ty)) := by
  induction fields generalizing first with
  | nil => simp at member
  | cons head rest induction =>
      obtain ⟨start, width, consecutive⟩ := consecutive
      have place := head.bitWidth_place
      rw [List.map_cons, bitCount_cons]
      rcases List.mem_cons.mp member with rfl | member
      · omega
      · obtain ⟨above, below⟩ := induction consecutive member
        omega

theorem apart (consecutive : Consecutive first fields) : fields.Pairwise FieldInfo.Apart := by
  induction fields generalizing first with
  | nil => exact List.Pairwise.nil
  | cons head rest induction =>
      obtain ⟨-, -, consecutive⟩ := consecutive
      refine List.pairwise_cons.mpr ⟨fun field member => ?_, induction consecutive⟩
      exact .inl (consecutive.bounds member).1

theorem exists_last (consecutive : Consecutive first fields) (nonempty : fields ≠ []) :
    ∃ field ∈ fields, field.endBit + 1 = first + bitCount (fields.map (·.ty)) := by
  induction fields generalizing first with
  | nil => exact absurd rfl nonempty
  | cons head rest induction =>
      obtain ⟨start, width, consecutive⟩ := consecutive
      have place := head.bitWidth_place
      rw [List.map_cons, bitCount_cons]
      cases rest with
      | nil =>
          refine ⟨head, List.mem_singleton_self head, ?_⟩
          rw [List.map_nil, bitCount_nil]
          omega
      | cons next rest =>
          obtain ⟨field, member, ends⟩ := induction consecutive (List.cons_ne_nil next rest)
          exact ⟨field, List.mem_cons_of_mem _ member, by omega⟩

theorem maxBit_eq (consecutive : Consecutive 0 fields) (nonempty : fields ≠ []) :
    maxBit fields + 1 = bitCount (fields.map (·.ty)) := by
  obtain ⟨last, member, ends⟩ := consecutive.exists_last nonempty
  have above := endBit_le_maxBit member
  have found : ∃ field ∈ fields, field.endBit = maxBit fields := by
    have occupied : fields.map FieldInfo.endBit ≠ [] := by simpa using nonempty
    obtain ⟨largest, isLargest⟩ := Option.isSome_iff_exists.mp (List.isSome_max?_of_ne_nil occupied)
    obtain ⟨field, inside, same⟩ := List.mem_map.mp (List.max?_mem isLargest)
    refine ⟨field, inside, ?_⟩
    rw [maxBit, isLargest, same, Option.getD_some]
  obtain ⟨field, inside, same⟩ := found
  have below := (consecutive.bounds inside).2
  omega

end Consecutive

theorem BitField.bounds_eq_ok {field : BitField FieldType} (automatic : field.range = none)
    {currentBit startBit endBit : ℕ} :
    field.bounds FieldType.bitSize currentBit = .ok (startBit, endBit) ↔
      currentBit + field.ty.bitSize ≤ U32.max ∧ startBit = currentBit ∧
        endBit + 1 = currentBit + field.ty.bitSize := by
  have positive := field.ty.bitSize_pos
  rw [bounds, automatic]
  simp only [bind_eq_ok, U32.add_eq_ok]
  constructor
  · rintro ⟨_, ⟨fits, rfl⟩, last, ends, same⟩
    rw [U32.sub_of_le (by omega), Except.ok.injEq] at ends
    simp only [Except.ok.injEq, Prod.mk.injEq] at same
    exact ⟨fits, same.1.symm, by omega⟩
  · rintro ⟨fits, rfl, ends⟩
    refine ⟨_, ⟨fits, rfl⟩, endBit, ?_, rfl⟩
    rw [U32.sub_of_le (by omega), ← ends, Nat.add_sub_cancel]

theorem placeFields_eq_ok {fields : List (BitField FieldType)}
    (automatic : ∀ field ∈ fields, field.range = none) {currentBit : ℕ}
    {places : List (FieldInfo FieldType)}
    (placed : placeFields FieldType.bitSize currentBit fields = .ok places) :
    Consecutive currentBit places ∧ places.map (·.ty) = fields.map (·.ty) := by
  induction fields generalizing currentBit places with
  | nil =>
      obtain rfl := Except.ok.inj placed
      exact ⟨trivial, rfl⟩
  | cons field fields induction =>
      simp only [placeFields, bind_eq_ok, Prod.exists] at placed
      obtain ⟨startBit, endBit, bounds, next, advanced, placed⟩ := placed
      obtain ⟨fits, rfl, ends⟩ :=
        (BitField.bounds_eq_ok (automatic field List.mem_cons_self)).mp bounds
      obtain ⟨-, rfl⟩ := U32.add_eq_ok.mp advanced
      split_ifs at placed with ordered
      obtain ⟨rest, placedRest, same⟩ := bind_eq_ok.mp placed
      obtain rfl := Except.ok.inj same
      obtain ⟨consecutive, types⟩ :=
        induction (fun field member => automatic field (List.mem_cons_of_mem _ member)) placedRest
      refine ⟨⟨rfl, ?_, consecutive⟩, by rw [List.map_cons, List.map_cons, types]⟩
      rw [FieldInfo.bitWidth]
      dsimp only at ordered ⊢
      omega

theorem placeFields_isOk {fields : List (BitField FieldType)}
    (automatic : ∀ field ∈ fields, field.range = none) {currentBit : ℕ}
    (fits : currentBit + bitCount (fields.map (·.ty)) ≤ U32.max) :
    ∃ places, placeFields FieldType.bitSize currentBit fields = .ok places := by
  induction fields generalizing currentBit with
  | nil => exact ⟨[], rfl⟩
  | cons field fields induction =>
      have positive := field.ty.bitSize_pos
      rw [List.map_cons, bitCount_cons] at fits
      have bounds : field.bounds FieldType.bitSize currentBit =
          .ok (currentBit, currentBit + field.ty.bitSize - 1) :=
        (BitField.bounds_eq_ok (automatic field List.mem_cons_self)).mpr
          ⟨by omega, rfl, by omega⟩
      have advanced : U32.add (currentBit + field.ty.bitSize - 1) 1 =
          .ok (currentBit + field.ty.bitSize) :=
        U32.add_eq_ok.mpr ⟨by omega, by omega⟩
      have ordered : currentBit ≤ currentBit + field.ty.bitSize - 1 := by omega
      obtain ⟨rest, placed⟩ :=
        induction (fun field member => automatic field (List.mem_cons_of_mem _ member))
          (by omega : currentBit + field.ty.bitSize + bitCount (fields.map (·.ty)) ≤ U32.max)
      refine ⟨⟨field.ty, currentBit, currentBit + field.ty.bitSize - 1, ordered⟩ :: rest, ?_⟩
      rw [placeFields, bounds, ok_bind]
      simp only [advanced, ok_bind, dif_pos ordered, placed]

/-- A declaration without ranges expands when its bits, rounded up to bytes, can be counted. -/
theorem generateBitstructCode_isOk_iff {bitstruct : BitStruct FieldType}
    (automatic : bitstruct.Automatic)
    (nonempty : bitstruct.fields ≠ []) :
    (∃ generated, generateBitstructCode FieldType.bitSize bitstruct = .ok generated) ↔
      bitCount (bitstruct.fields.map (·.ty)) + 7 ≤ U32.max := by
  have size {places : List (FieldInfo FieldType)}
      (placed : placeFields FieldType.bitSize 0 bitstruct.fields = .ok places) :
      maxBit places + 1 = bitCount (bitstruct.fields.map (·.ty)) := by
    obtain ⟨consecutive, types⟩ := placeFields_eq_ok automatic placed
    rw [← types]
    apply consecutive.maxBit_eq
    rintro rfl
    exact nonempty (List.map_eq_nil_iff.mp types.symm)
  constructor
  · rintro ⟨generated, expanded⟩
    obtain ⟨places, placed, rest⟩ := bind_eq_ok.mp expanded
    obtain ⟨rounded, sum, -⟩ := bind_eq_ok.mp rest
    obtain ⟨fits, -⟩ := U32.add_eq_ok.mp sum
    have := size placed
    omega
  · intro fits
    obtain ⟨places, placed⟩ := @placeFields_isOk _ automatic 0 (by omega)
    have := size placed
    refine ⟨⟨(maxBit places + 8) / 8, places⟩, ?_⟩
    rw [generateBitstructCode, placed, ok_bind, U32.add_eq_ok.mpr ⟨by omega, rfl⟩]
    rfl

theorem generateBitstructCode_automatic {bitstruct : BitStruct FieldType}
    (automatic : bitstruct.Automatic) {generated : Generated FieldType}
    (expanded : generateBitstructCode FieldType.bitSize bitstruct = .ok generated) :
    Consecutive 0 generated.fields ∧
      generated.fields.map (·.ty) = bitstruct.fields.map (·.ty) := by
  obtain ⟨places, placed, rest⟩ := bind_eq_ok.mp expanded
  obtain ⟨rounded, sum, same⟩ := bind_eq_ok.mp rest
  obtain rfl := Except.ok.inj same
  exact placeFields_eq_ok automatic placed

/-- A mask as wide as the word is a shift by the width of the word. -/
theorem lowMask_eq_ok {width : ℕ} {mask : BitVec 64} (made : lowMask width = .ok mask) :
    width < 64 := by
  obtain ⟨bit, shifted, -⟩ := bind_eq_ok.mp made
  by_contra wide
  rw [shiftLeft, if_neg wide] at shifted
  cases shifted

/-- Only the getter of a field narrower than the word returns. -/
theorem FieldInfo.bitWidth_lt_of_getter {n : ℕ} {field : FieldInfo FieldType}
    {data : Vector (BitVec 8) n}
    {value : field.ty.Value} (read : field.getter data = .ok value) : field.bitWidth < 64 := by
  obtain ⟨bits, gathered, -⟩ := bind_eq_ok.mp read
  rw [getBits] at gathered
  split_ifs at gathered
  · obtain ⟨byte, -, gathered⟩ := bind_eq_ok.mp gathered
    obtain ⟨shifted, -, gathered⟩ := bind_eq_ok.mp gathered
    obtain ⟨mask, made, -⟩ := bind_eq_ok.mp gathered
    exact lowMask_eq_ok made
  · obtain ⟨result, -, gathered⟩ := bind_eq_ok.mp gathered
    obtain ⟨mask, made, -⟩ := bind_eq_ok.mp gathered
    exact lowMask_eq_ok made

namespace FieldType

theorem number_lt (ty : FieldType) (value : ty.Value) : ty.number value < 2 ^ ty.bitSize := by
  cases ty with
  | bool => cases value <;> decide
  | u8 => exact BitVec.isLt (w := 8) value
  | u16 => exact BitVec.isLt (w := 16) value
  | u32 => exact BitVec.isLt (w := 32) value
  | u64 => exact BitVec.isLt (w := 64) value

@[simp] theorem convert_number (ty : FieldType) (value : ty.Value) :
    ty.convert (ty.number value) = value := by
  cases ty with
  | bool => cases value <;> rfl
  | u8 => exact BitVec.ofNat_toNat 8 value |>.trans (BitVec.setWidth_eq _)
  | u16 => exact BitVec.ofNat_toNat 16 value |>.trans (BitVec.setWidth_eq _)
  | u32 => exact BitVec.ofNat_toNat 32 value |>.trans (BitVec.setWidth_eq _)
  | u64 => exact BitVec.ofNat_toNat 64 value |>.trans (BitVec.setWidth_eq _)

theorem bitSize_lt_of_ne {ty : FieldType} (narrow : ty ≠ .u64) : ty.bitSize < 64 := by
  cases ty with
  | u64 => exact absurd rfl narrow
  | bool | u8 | u16 | u32 => decide

end FieldType

/-- A field as wide as its type keeps the whole value. -/
theorem FieldInfo.reduce_of_whole {field : FieldInfo FieldType}
    (whole : field.bitWidth = field.ty.bitSize)
    (value : field.ty.Value) : field.reduce value = value := by
  rw [reduce, whole, Nat.mod_eq_of_lt (field.ty.number_lt value), FieldType.convert_number]

namespace Generated

/-- The structure is a record of values of the given types. -/
structure Faithful (generated : Generated FieldType) (types : List FieldType) : Prop where
  types : generated.fields.map (·.ty) = types
  /-- The fields follow one another from bit zero on, each as wide as its type. -/
  consecutive : Consecutive 0 generated.fields
  apart : generated.fields.Pairwise FieldInfo.Apart
  /-- Every field lies inside the bytes. -/
  inside : ∀ field ∈ generated.fields, field.endBit < 8 * generated.totalBytes
  /-- No accessor shifts by the width of a word or more: a shift that does is a fault. -/
  shifts : ∀ field ∈ generated.fields, ∀ data : Vector (BitVec 8) generated.totalBytes,
    (∃ value, field.getter data = .ok value) ∧
      ∀ value, ∃ data', field.setter value data = .ok data'
  /-- The getters return the arguments of the constructor. -/
  lossless : generated.KeepsArguments

variable {generated : Generated FieldType}

/-- Fields that follow one another, none of which fills a word, are a record. -/
theorem faithful_of_narrow (consecutive : Consecutive 0 generated.fields)
    (fits : ∀ field ∈ generated.fields, field.endByte < generated.totalBytes)
    (narrow : ∀ field ∈ generated.fields, field.ty ≠ .u64) :
    generated.Faithful (generated.fields.map (·.ty)) := by
  have width (field : FieldInfo FieldType) (member : field ∈ generated.fields) :
      field.bitWidth < 64 := by
    rw [consecutive.bitWidth_eq member]
    exact FieldType.bitSize_lt_of_ne (narrow field member)
  have separate : generated.Separate :=
    ⟨consecutive.apart, fun field member => Nat.le_of_lt_succ (width field member)⟩
  refine ⟨rfl, consecutive, consecutive.apart, ?_, ?_, ?_⟩
  · intro field member
    have place := field.endByte_place
    have := fits field member
    omega
  · intro field member data
    refine ⟨?_, fun value => ?_⟩
    · rw [FieldInfo.getter, field.getBits_spec data (fits field member) (width field member)]
      exact ⟨_, rfl⟩
    · obtain ⟨data', set, -⟩ := field.setBits_spec (field.ty.toBits value) data
        (fits field member) (width field member)
      exact ⟨data', set⟩
  · intro values
    obtain ⟨data, ran, holds⟩ := run_holds separate fits (generated.constructorCalls values)
    refine ⟨data, (withFields_eq_run values).trans ran, fun field => ?_⟩
    have whole : generated.fields[field].bitWidth = generated.fields[field].ty.bitSize :=
      consecutive.bitWidth_eq (List.getElem_mem field.isLt)
    rw [holds.getter separate fits, lastValues_constructorCalls, FieldInfo.reduce_of_whole whole]

/-- The getter of a field that fills a word never returns. -/
theorem Faithful.narrow {types : List FieldType} (faithful : generated.Faithful types)
    {field : FieldInfo FieldType} (member : field ∈ generated.fields) : field.ty ≠ .u64 := by
  intro wide
  obtain ⟨⟨value, read⟩, -⟩ := faithful.shifts field member generated.new
  have narrow := FieldInfo.bitWidth_lt_of_getter read
  rw [faithful.consecutive.bitWidth_eq member, wide] at narrow
  exact absurd narrow (by decide)

end Generated

/-- A declaration without ranges expands to a record of its types exactly when no field is of type
`u64` and the bits, rounded up to bytes, can be counted. -/
theorem faithful_iff {bitstruct : BitStruct FieldType} (automatic : bitstruct.Automatic)
    (nonempty : bitstruct.fields ≠ []) :
    (∃ generated, generateBitstructCode FieldType.bitSize bitstruct = .ok generated ∧
        generated.Faithful (bitstruct.fields.map (·.ty))) ↔
      (∀ field ∈ bitstruct.fields, field.ty ≠ .u64) ∧
        bitCount (bitstruct.fields.map (·.ty)) + 7 ≤ U32.max := by
  constructor
  · rintro ⟨generated, expanded, faithful⟩
    refine ⟨fun field member => ?_,
      (generateBitstructCode_isOk_iff automatic nonempty).mp ⟨generated, expanded⟩⟩
    have typed : field.ty ∈ generated.fields.map (·.ty) := by
      rw [faithful.types]
      exact List.mem_map_of_mem member
    obtain ⟨place, inside, same⟩ := List.mem_map.mp typed
    rw [← same]
    exact faithful.narrow inside
  · rintro ⟨narrow, counted⟩
    obtain ⟨generated, expanded⟩ :=
      (generateBitstructCode_isOk_iff automatic nonempty).mpr counted
    obtain ⟨consecutive, types⟩ := generateBitstructCode_automatic automatic expanded
    refine ⟨generated, expanded, ?_⟩
    rw [← types]
    apply Generated.faithful_of_narrow consecutive
    · exact fun field member => endByte_lt_totalBytes expanded member
    · intro field member
      have typed : field.ty ∈ bitstruct.fields.map (·.ty) := by
        rw [← types]
        exact List.mem_map_of_mem member
      obtain ⟨declared, inside, same⟩ := List.mem_map.mp typed
      rw [← same]
      exact narrow declared inside

/-- A flag, a word that spans five bytes, and a byte. -/
def mixedBitstruct : BitStruct FieldType := ⟨[⟨.bool, none⟩, ⟨.u32, none⟩, ⟨.u8, none⟩]⟩

theorem faithful_iff_mixed : ∃ generated,
    generateBitstructCode FieldType.bitSize mixedBitstruct = .ok generated ∧
    generated.Faithful [.bool, .u32, .u8] := by
  have automatic : mixedBitstruct.Automatic := by
    simp [BitStruct.Automatic, mixedBitstruct]
  have nonempty : mixedBitstruct.fields ≠ [] := List.cons_ne_nil _ _
  refine (faithful_iff automatic nonempty).mpr ⟨?_, ?_⟩
  · simp [mixedBitstruct]
  · decide

/-- A single word.  The accessors make their mask by shifting by the width of the word. -/
def wordBitstruct : BitStruct FieldType := ⟨[⟨.u64, none⟩]⟩

theorem word_unfaithful : wordBitstruct.Automatic ∧ wordBitstruct.fields ≠ [] ∧
    ¬∃ generated, generateBitstructCode FieldType.bitSize wordBitstruct = .ok generated ∧
      generated.Faithful [.u64] := by
  refine ⟨by simp [BitStruct.Automatic, wordBitstruct], List.cons_ne_nil _ _, ?_⟩
  rintro ⟨generated, expanded, faithful⟩
  have placed : generateBitstructCode FieldType.bitSize wordBitstruct =
      .ok ⟨8, [⟨.u64, 0, 63, by decide⟩]⟩ := rfl
  obtain rfl := Except.ok.inj (placed.symm.trans expanded)
  exact faithful.narrow List.mem_cons_self rfl

end Bitstruct

end Blubos
