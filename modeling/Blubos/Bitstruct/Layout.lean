import Blubos.Machine
import Mathlib.Data.List.Infix

/-!
# Layout of packed structures

`bitstruct!` places the fields of a declaration in an array of bytes.  A field has the range of bits
that it is declared with, or else follows the field before it and is as wide as its type.  The
macro's own arithmetic is checked here, as in a build with overflow checks.
-/

namespace Blubos

namespace U32

/-- `u32::MAX`. -/
def max : ℕ := 2 ^ 32 - 1

/-- Checked `+`. -/
def add (left right : ℕ) : Except Fault ℕ :=
  if left + right ≤ max then .ok (left + right) else .error .overflow

/-- Checked `-`. -/
def sub (left right : ℕ) : Except Fault ℕ :=
  if right ≤ left then .ok (left - right) else .error .overflow

theorem add_eq_ok {left right result : ℕ} :
    add left right = .ok result ↔ left + right ≤ max ∧ result = left + right := by
  unfold add
  split <;> simp_all [eq_comm]

theorem sub_of_le {left right : ℕ} (below : right ≤ left) : sub left right = .ok (left - right) :=
  if_pos below

end U32

namespace Bitstruct

/-- `estimate_custom_type_size`. -/
def estimateCustomTypeSize (typeName : String) : ℕ :=
  if "Enum".toList <:+: typeName.toList then 8
  else if "Data".toList <:+: typeName.toList then 24
  else
    match typeName with
    | "RandomData" => 24
    | "RandomEnum" => 8
    | _ => 8

/-- `get_type_bit_size` of a path with the given last segment, or of a type that is no path. -/
def getTypeBitSize : Option String → ℕ
  | none => 8
  | some "bool" => 1
  | some "u8" | some "i8" => 8
  | some "u16" | some "i16" => 16
  | some "u32" | some "i32" => 32
  | some "u64" | some "i64" => 64
  | some "usize" | some "isize" => 64
  | some typeName => estimateCustomTypeSize typeName

example : getTypeBitSize (some "RandomData") = 24 := by decide

/-- The types of fields for which accessors exist. -/
inductive FieldType where
  | bool | u8 | u16 | u32 | u64
deriving DecidableEq

namespace FieldType

def name : FieldType → String
  | .bool => "bool"
  | .u8 => "u8"
  | .u16 => "u16"
  | .u32 => "u32"
  | .u64 => "u64"

def bitSize : FieldType → ℕ
  | .bool => 1
  | .u8 => 8
  | .u16 => 16
  | .u32 => 32
  | .u64 => 64

theorem getTypeBitSize_name (ty : FieldType) : getTypeBitSize (some ty.name) = ty.bitSize := by
  cases ty <;> rfl

end FieldType

abbrev FieldType.Value : FieldType → Type
  | .bool => Bool
  | .u8 => BitVec 8
  | .u16 => BitVec 16
  | .u32 => BitVec 32
  | .u64 => BitVec 64

/-- The range that a field is declared with. -/
inductive RangeExpr where
  | single (bit : ℕ)
  | exclusive (startBit endBit : ℕ)
  | inclusive (startBit endBit : ℕ)

/-- `parse_range_expr`: the first and the last bit. -/
def parseRangeExpr : RangeExpr → Except Fault (ℕ × ℕ)
  | .single bit => .ok (bit, bit)
  | .exclusive startBit endBit => do
      let endBit ← U32.sub endBit 1
      .ok (startBit, endBit)
  | .inclusive startBit endBit => .ok (startBit, endBit)

/-- `BitField`: a declared field. -/
structure BitField (Ty : Type) where
  ty : Ty
  range : Option RangeExpr

/-- `BitStruct`: a declaration. -/
structure BitStruct (Ty : Type) where
  fields : List (BitField Ty)

/-- `FieldInfo`.  The accessors are generated only for a range that is not empty. -/
structure FieldInfo (Ty : Type) where
  ty : Ty
  startBit : ℕ
  endBit : ℕ
  /-- `end_bit - start_bit` does not overflow. -/
  ordered : startBit ≤ endBit

section Places

variable {Ty : Type}

namespace FieldInfo

/-- `bit_width`. -/
def bitWidth (field : FieldInfo Ty) : ℕ := field.endBit - field.startBit + 1

/-- `start_byte`. -/
def startByte (field : FieldInfo Ty) : ℕ := field.startBit / 8

/-- `end_byte`. -/
def endByte (field : FieldInfo Ty) : ℕ := field.endBit / 8

def Covers (field : FieldInfo Ty) (bit : ℕ) : Prop := field.startBit ≤ bit ∧ bit ≤ field.endBit

def Apart (first second : FieldInfo Ty) : Prop :=
  first.endBit < second.startBit ∨ second.endBit < first.startBit

end FieldInfo

/-- The range of a field whose predecessors end below the current bit. -/
def BitField.bounds (bitSize : Ty → ℕ) (field : BitField Ty) (currentBit : ℕ) :
    Except Fault (ℕ × ℕ) :=
  match field.range with
  | some range => parseRangeExpr range
  | none => do
      let next ← U32.add currentBit (bitSize field.ty)
      let endBit ← U32.sub next 1
      .ok (currentBit, endBit)

/-- The loop of `generate_bitstruct_code`, for any types and their sizes. -/
def placeFields (bitSize : Ty → ℕ) (currentBit : ℕ) :
    List (BitField Ty) → Except Fault (List (FieldInfo Ty))
  | [] => .ok []
  | field :: rest => do
      let (startBit, endBit) ← field.bounds bitSize currentBit
      let currentBit ← U32.add endBit 1
      if ordered : startBit ≤ endBit then
        let places ← placeFields bitSize currentBit rest
        .ok (⟨field.ty, startBit, endBit, ordered⟩ :: places)
      else
        -- The width of the field overflows when its accessors are generated.
        .error .overflow

/-- The structure that a declaration expands to. -/
structure Generated (Ty : Type) where
  /-- `total_bytes`. -/
  totalBytes : ℕ
  fields : List (FieldInfo Ty)

/-- `max_bit`. -/
def maxBit (fields : List (FieldInfo Ty)) : ℕ := (fields.map FieldInfo.endBit).max?.getD 0

/-- `generate_bitstruct_code`, but for the bodies of the accessors. -/
def generateBitstructCode (bitSize : Ty → ℕ) (bitstruct : BitStruct Ty) :
    Except Fault (Generated Ty) := do
  let fields ← placeFields bitSize 0 bitstruct.fields
  let rounded ← U32.add (maxBit fields) 8
  .ok ⟨rounded / 8, fields⟩

theorem endBit_le_maxBit {fields : List (FieldInfo Ty)} {field : FieldInfo Ty}
    (member : field ∈ fields) : field.endBit ≤ maxBit fields :=
  List.le_max?_getD_of_mem (List.mem_map_of_mem member)

/-- The array has a byte for every bit of a field. -/
theorem endByte_lt_totalBytes {bitSize : Ty → ℕ} {bitstruct : BitStruct Ty}
    {generated : Generated Ty} (expanded : generateBitstructCode bitSize bitstruct = .ok generated)
    {field : FieldInfo Ty} (member : field ∈ generated.fields) :
    field.endByte < generated.totalBytes := by
  obtain ⟨fields, -, rest⟩ := bind_eq_ok.mp expanded
  obtain ⟨rounded, sum, result⟩ := bind_eq_ok.mp rest
  obtain rfl := Except.ok.inj result
  obtain ⟨-, rfl⟩ := U32.add_eq_ok.mp sum
  have below : field.endBit ≤ maxBit fields := endBit_le_maxBit member
  simp only [FieldInfo.endByte]
  omega

section Map

variable {Ty' : Type} {bitSize : Ty → ℕ} {bitSize' : Ty' → ℕ} {name : Ty → Ty'}

def BitStruct.map (name : Ty → Ty') (bitstruct : BitStruct Ty) : BitStruct Ty' :=
  ⟨bitstruct.fields.map fun field => ⟨name field.ty, field.range⟩⟩

def FieldInfo.map (name : Ty → Ty') (field : FieldInfo Ty) : FieldInfo Ty' :=
  ⟨name field.ty, field.startBit, field.endBit, field.ordered⟩

def Generated.map (name : Ty → Ty') (generated : Generated Ty) : Generated Ty' :=
  ⟨generated.totalBytes, generated.fields.map (FieldInfo.map name)⟩

theorem placeFields_map (sizes : ∀ ty, bitSize' (name ty) = bitSize ty) (fields : List (BitField Ty))
    (currentBit : ℕ) :
    placeFields bitSize' currentBit (fields.map fun field => ⟨name field.ty, field.range⟩) =
      (placeFields bitSize currentBit fields).map (List.map (FieldInfo.map name)) := by
  induction fields generalizing currentBit with
  | nil => rfl
  | cons field fields induction =>
      have bounds : BitField.bounds bitSize' ⟨name field.ty, field.range⟩ currentBit =
          field.bounds bitSize currentBit := by
        simp only [BitField.bounds, sizes]
      rw [List.map_cons, placeFields, placeFields, bounds]
      rcases field.bounds bitSize currentBit with fault | ⟨startBit, endBit⟩
      · rfl
      · simp only [ok_bind]
        rcases U32.add endBit 1 with fault | next
        · rfl
        · simp only [ok_bind, induction]
          split_ifs
          · cases placeFields bitSize next fields <;> rfl
          · rfl

theorem generateBitstructCode_map (sizes : ∀ ty, bitSize' (name ty) = bitSize ty)
    (bitstruct : BitStruct Ty) :
    generateBitstructCode bitSize' (bitstruct.map name) =
      (generateBitstructCode bitSize bitstruct).map (Generated.map name) := by
  rw [generateBitstructCode, generateBitstructCode, BitStruct.map, placeFields_map sizes]
  cases placeFields bitSize 0 bitstruct.fields with
  | error fault => rfl
  | ok fields =>
      have ends : maxBit (fields.map (FieldInfo.map name)) = maxBit fields := by
        rw [maxBit, maxBit, List.map_map]
        rfl
      change (U32.add (maxBit (fields.map (FieldInfo.map name))) 8 >>= _) = _
      rw [ends]
      cases added : U32.add (maxBit fields) 8 <;> simp [Except.map, added, Generated.map]

end Map

end Places

end Bitstruct

end Blubos
