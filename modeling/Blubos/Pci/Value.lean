import Blubos.Foundation.ByteMemory
import Blubos.Machine

/-!
# Values in device memory

`PciValue` reads and writes a value of a type `T` through a pointer: in one access when the value
has eight bytes and the pointer is aligned to them, and in a loop over its dwords otherwise.  A
value of `T` is the word of its bytes.
-/

namespace Blubos

/-- `PciValue<T>`, for a type of `n` bytes. -/
structure PciValue (n : ℕ) where
  /-- The address of the value. -/
  ptr : ℕ
  dwords : n % 4 = 0

namespace PciValue

variable {n : ℕ}

/-- `new`.  A size that is not a multiple of a dword panics. -/
def new (n ptr : ℕ) : Except Fault (PciValue n) :=
  if dwords : n % 4 = 0 then .ok ⟨ptr, dwords⟩ else .error .assertion

/-- The loop of `read`.  The buffer is not initialised. -/
def readDwords (value : PciValue n) (uninit : BitVec (8 * n)) (memory : ByteMemory) :
    BitVec (8 * n) :=
  (List.range (n / 4)).foldl
    (fun buffer index =>
      BitField.set (32 * index) (memory.load 4 (value.ptr + index * 4)) buffer) uninit

/-- `read`. -/
def read (value : PciValue n) (uninit : BitVec (8 * n)) (memory : ByteMemory) : BitVec (8 * n) :=
  if single : n = 8 ∧ value.ptr % 8 = 0 then
    (memory.load 8 value.ptr).cast (by rw [single.1])
  else value.readDwords uninit memory

/-- The loop of `write`. -/
def writeDwords (value : PciValue n) (contents : BitVec (8 * n)) (memory : ByteMemory) :
    ByteMemory :=
  (List.range (n / 4)).foldl
    (fun memory index =>
      memory.store 4 (value.ptr + index * 4) (BitField.get (32 * index) 32 contents)) memory

/-- `write`. -/
def write (value : PciValue n) (contents : BitVec (8 * n)) (memory : ByteMemory) : ByteMemory :=
  if single : n = 8 ∧ value.ptr % 8 = 0 then
    memory.store 8 value.ptr (contents.cast (by rw [single.1]))
  else value.writeDwords contents memory

/-- `modify`. -/
def modify (value : PciValue n) (closure : BitVec (8 * n) → BitVec (8 * n))
    (uninit : BitVec (8 * n)) (memory : ByteMemory) : ByteMemory :=
  let contents := value.read uninit memory
  value.write (closure contents) memory

/-- Some rounds of the loop of `read` load a part of the value. -/
theorem readDwords_prefix (ptr : ℕ) (uninit : BitVec (8 * n)) (memory : ByteMemory) (count : ℕ) :
    (List.range count).foldl
        (fun buffer index => BitField.set (32 * index) (memory.load 4 (ptr + index * 4)) buffer)
        uninit =
      BitField.set 0 (memory.load (4 * count) ptr) uninit := by
  induction count with
  | zero => exact BitField.set_zero_width.symm
  | succ count induction =>
      have start : 32 * count = 8 * (4 * count) := by omega
      rw [List.range_succ, List.foldl_append, induction, List.foldl_cons, List.foldl_nil,
        Nat.mul_comm count 4, start]
      exact ByteMemory.set_load

/-- Some rounds of the loop of `write` store a part of the value. -/
theorem writeDwords_prefix (ptr : ℕ) (contents : BitVec (8 * n)) (memory : ByteMemory)
    (count : ℕ) :
    (List.range count).foldl
        (fun memory index =>
          memory.store 4 (ptr + index * 4) (BitField.get (32 * index) 32 contents)) memory =
      memory.store (4 * count) ptr (BitField.get 0 (8 * (4 * count)) contents) := by
  induction count with
  | zero =>
      ext address : 1
      exact (ByteMemory.store_outside (by omega)).symm
  | succ count induction =>
      have start : 32 * count = 8 * (4 * count) := by omega
      rw [List.range_succ, List.foldl_append, induction, List.foldl_cons, List.foldl_nil,
        Nat.mul_comm count 4, start]
      exact ByteMemory.store_get

theorem readDwords_eq (value : PciValue n) (uninit : BitVec (8 * n)) (memory : ByteMemory) :
    value.readDwords uninit memory = memory.load n value.ptr := by
  obtain ⟨count, rfl⟩ := Nat.dvd_of_mod_eq_zero value.dwords
  rw [readDwords, readDwords_prefix, Nat.mul_div_cancel_left count (by decide), BitField.set_whole]

theorem writeDwords_eq (value : PciValue n) (contents : BitVec (8 * n)) (memory : ByteMemory) :
    value.writeDwords contents memory = memory.store n value.ptr contents := by
  obtain ⟨count, rfl⟩ := Nat.dvd_of_mod_eq_zero value.dwords
  rw [writeDwords, writeDwords_prefix, Nat.mul_div_cancel_left count (by decide),
    BitField.get_whole]

/-- `read` loads the value. -/
theorem read_eq (value : PciValue n) (uninit : BitVec (8 * n)) (memory : ByteMemory) :
    value.read uninit memory = memory.load n value.ptr := by
  rw [read]
  split_ifs with single
  · obtain ⟨rfl, -⟩ := single
    rfl
  · exact value.readDwords_eq uninit memory

/-- `write` stores the value. -/
theorem write_eq (value : PciValue n) (contents : BitVec (8 * n)) (memory : ByteMemory) :
    value.write contents memory = memory.store n value.ptr contents := by
  rw [write]
  split_ifs with single
  · obtain ⟨rfl, -⟩ := single
    rfl
  · exact value.writeDwords_eq contents memory

theorem modify_eq (value : PciValue n) (closure : BitVec (8 * n) → BitVec (8 * n))
    (uninit : BitVec (8 * n)) (memory : ByteMemory) :
    value.modify closure uninit memory =
      memory.store n value.ptr (closure (memory.load n value.ptr)) := by
  rw [modify, write_eq, read_eq]

end PciValue

/-- A type of dwords has values at every pointer.  Both access paths read and write exactly the
bytes of the value, whatever the buffer of the loop contained, and a modification writes back what
it makes of the value that it read. -/
theorem pciValue_exact {n : ℕ} (dwords : n % 4 = 0) (ptr : ℕ) :
    ∃ value : PciValue n, PciValue.new n ptr = .ok value ∧ value.ptr = ptr ∧
      ∀ (memory : ByteMemory) (contents uninit : BitVec (8 * n)),
        value.read uninit (value.write contents memory) = contents ∧
        (∀ address, ¬(ptr ≤ address ∧ address < ptr + n) →
          value.write contents memory address = memory address) ∧
        value.write contents memory = value.writeDwords contents memory ∧
        value.read uninit memory = value.readDwords uninit memory ∧
        (∀ closure, value.modify closure uninit memory =
          value.write (closure (value.read uninit memory)) memory) ∧
        value.modify id uninit memory = memory := by
  refine ⟨⟨ptr, dwords⟩, dif_pos dwords, rfl, fun memory contents uninit => ?_⟩
  refine ⟨?_, fun address outside => ?_, ?_, ?_, fun closure => rfl, ?_⟩
  · rw [PciValue.write_eq, PciValue.read_eq, ByteMemory.load_store]
  · rw [PciValue.write_eq, ByteMemory.store_outside outside]
  · rw [PciValue.write_eq, PciValue.writeDwords_eq]
  · rw [PciValue.read_eq, PciValue.readDwords_eq]
  · rw [PciValue.modify_eq, id, ByteMemory.store_load]

/-- Eight bytes at an aligned pointer: one access instead of two. -/
theorem pciValue_exact_single : ∃ value : PciValue 8, PciValue.new 8 0x1008 = .ok value ∧
    ∀ (memory : ByteMemory) (contents : BitVec 64),
      value.write contents memory = value.writeDwords contents memory := by
  obtain ⟨value, created, -, exact⟩ := pciValue_exact (by decide : 8 % 4 = 0) 0x1008
  exact ⟨value, created, fun memory contents => (exact memory contents 0).2.2.1⟩

end Blubos
