import Mathlib.Data.Nat.Bitwise
import Mathlib.Tactic.IntervalCases
import Mathlib.Tactic.SplitIfs

/-!
# PCI configuration space

The accessors of configuration mechanism 1 and `read_pci_function`.  The address port keeps the
address of one double word, which the data port then reads; the space itself does not change during
a scan.
-/

namespace Blubos

/-- A double word for each bus, device, function and double word offset. -/
def ConfigSpace := BitVec 8 → BitVec 5 → BitVec 3 → BitVec 6 → BitVec 32

/-- `make_address`. -/
def makeAddress (bus dev func offset : BitVec 8) : BitVec 32 :=
  (1#32 <<< 31) ||| (bus.setWidth 32 <<< 16) ||| (dev.setWidth 32 <<< 11) |||
    (func.setWidth 32 <<< 8) ||| (offset.setWidth 32 &&& 0xFC#32)

namespace ConfigSpace

variable (space : ConfigSpace)

/-- What `PCI_CONFIG_DATA` reads after this address was written to `PCI_CONFIG_ADDRESS`. -/
def data (address : BitVec 32) : BitVec 32 :=
  space (address.extractLsb' 16 8) (address.extractLsb' 11 5) (address.extractLsb' 8 3)
    (address.extractLsb' 2 6)

/-- `cfg_read_u32`. -/
def cfgReadU32 (bus dev func offset : BitVec 8) : BitVec 32 :=
  space.data (makeAddress bus dev func offset)

/-- `cfg_read_u16`. -/
def cfgReadU16 (bus dev func offset : BitVec 8) : BitVec 16 :=
  let v := space.cfgReadU32 bus dev func (offset &&& ~~~2#8)
  if offset &&& 2#8 = 0 then (v &&& 0xFFFF#32).setWidth 16 else (v >>> 16).setWidth 16

/-- `cfg_read_u8`. -/
def cfgReadU8 (bus dev func offset : BitVec 8) : BitVec 8 :=
  let v := space.cfgReadU32 bus dev func (offset &&& ~~~3#8)
  ((v >>> ((offset &&& 3#8) * 8#8)) &&& 0xFF#32).setWidth 8

end ConfigSpace

/-- `PciId`. -/
structure PciId where
  vendor : BitVec 16
  device : BitVec 16
deriving DecidableEq, Repr

/-- `PciClass`. -/
structure PciClass where
  /-- `class`. -/
  baseClass : BitVec 8
  subclass : BitVec 8
  progIf : BitVec 8
  revision : BitVec 8
deriving DecidableEq, Repr

/-- `PciLocation`. -/
structure PciLocation where
  bus : BitVec 8
  device : BitVec 8
  function : BitVec 8
deriving DecidableEq, Repr

/-- `PciFunc`. -/
structure PciFunc where
  loc : PciLocation
  id : PciId
  /-- `class`. -/
  pciClass : PciClass
  headerType : BitVec 8
  bars : Vector (Option (BitVec 64)) 6
  irqLine : BitVec 8
  irqPin : BitVec 8
  secondaryBus : Option (BitVec 8)

/-- `is_multi_function`. -/
def isMultiFunction (headerType : BitVec 8) : Bool := headerType &&& 0x80#8 != 0

/-- `is_bridge`. -/
def isBridge (headerType : BitVec 8) : Bool := headerType &&& 0x7F#8 == 0x01#8

namespace ConfigSpace

variable (space : ConfigSpace)

/-- The loop of `read_bars` from register `i` on. -/
def readBarsFrom (bus dev func : BitVec 8) (barCount : ℕ) (room : barCount ≤ 6) (i : ℕ)
    (bars : Vector (Option (BitVec 64)) 6) : Vector (Option (BitVec 64)) 6 :=
  if inRange : i < barCount then
    let off := 0x10#8 + BitVec.ofNat 8 i * 4#8
    let barLo := space.cfgReadU32 bus dev func off
    if barLo = 0 then
      readBarsFrom bus dev func barCount room (i + 1) (bars.set i none)
    else if barLo &&& 1#32 ≠ 0 then
      let base := (barLo &&& 0xFFFFFFFC#32).setWidth 64
      readBarsFrom bus dev func barCount room (i + 1) (bars.set i (some base))
    else
      let typ := (barLo >>> 1) &&& 0x3#32
      if typ = 0x2#32 ∧ i + 1 < barCount then
        let barHi := (space.cfgReadU32 bus dev func (off + 4#8)).setWidth 64
        let base := (barHi <<< 32) ||| (barLo.setWidth 64 &&& 0xFFFFFFF0#64)
        readBarsFrom bus dev func barCount room (i + 2) (bars.set i (some base))
      else
        let base := (barLo &&& 0xFFFFFFF0#32).setWidth 64
        readBarsFrom bus dev func barCount room (i + 1) (bars.set i (some base))
  else
    bars
termination_by barCount - i

/-- `read_bars`. -/
def readBars (bus dev func headerType : BitVec 8) : Vector (Option (BitVec 64)) 6 :=
  if headerType &&& 0x7F#8 = 0x00#8 then
    space.readBarsFrom bus dev func 6 (by decide) 0 (.replicate 6 none)
  else
    space.readBarsFrom bus dev func 2 (by decide) 0 (.replicate 6 none)

/-- `read_pci_function`. -/
def readPciFunction (bus dev func : BitVec 8) : Option PciFunc :=
  let vendor := space.cfgReadU16 bus dev func 0x00#8
  if vendor = 0xFFFF#16 then
    none
  else
    let device := space.cfgReadU16 bus dev func 0x02#8
    let rev := space.cfgReadU8 bus dev func 0x08#8
    let progIf := space.cfgReadU8 bus dev func 0x09#8
    let subclass := space.cfgReadU8 bus dev func 0x0A#8
    let baseClass := space.cfgReadU8 bus dev func 0x0B#8
    let headerType := space.cfgReadU8 bus dev func 0x0E#8
    let bars := space.readBars bus dev func headerType
    let irqLine := space.cfgReadU8 bus dev func 0x3C#8
    let irqPin := space.cfgReadU8 bus dev func 0x3D#8
    let secondaryBus :=
      if isBridge headerType then some (space.cfgReadU8 bus dev func 0x19#8) else none
    some {
      loc := ⟨bus, dev, func⟩
      id := ⟨vendor, device⟩
      pciClass := ⟨baseClass, subclass, progIf, rev⟩
      headerType := headerType
      bars := bars
      irqLine := irqLine
      irqPin := irqPin
      secondaryBus := secondaryBus }

/-- The double word of a function at some byte offset. -/
def dword (loc : PciLocation) (offset : BitVec 8) : BitVec 32 :=
  space loc.bus (loc.device.setWidth 5) (loc.function.setWidth 3) (offset.extractLsb' 2 6)

/-- A byte of the configuration space of a function. -/
def byte (loc : PciLocation) (offset : BitVec 8) : BitVec 8 :=
  (space.dword loc offset).extractLsb' (8 * (offset.toNat % 4)) 8

/-- A little-endian word of the configuration space of a function. -/
def word (loc : PciLocation) (offset : BitVec 8) : BitVec 16 :=
  space.byte loc (offset + 1#8) ++ space.byte loc offset

end ConfigSpace

/-- A bus has 32 devices with eight functions each. -/
structure PciLocation.Valid (loc : PciLocation) : Prop where
  device : loc.device.toNat < 32
  function : loc.function.toNat < 8

section Bytes

variable {space : ConfigSpace} {loc : PciLocation}

theorem getLsbD_of_lt {w bound bit : ℕ} {word : BitVec w} (small : word.toNat < 2 ^ bound)
    (above : bound ≤ bit) : word.getLsbD bit = false := by
  rw [BitVec.getLsbD]
  exact Nat.testBit_lt_two_pow (small.trans_le (Nat.pow_le_pow_right (by decide) above))

theorem getLsbD_makeAddress (valid : loc.Valid) (offset : BitVec 8) {bit : ℕ} (below : bit < 31) :
    (makeAddress loc.bus loc.device loc.function offset).getLsbD bit =
      if bit < 8 then decide (2 ≤ bit) && offset.getLsbD bit
      else if bit < 11 then loc.function.getLsbD (bit - 8)
      else if bit < 16 then loc.device.getLsbD (bit - 11)
      else loc.bus.getLsbD (bit - 16) := by
  have device (bit : ℕ) (above : 5 ≤ bit) : loc.device.getLsbD bit = false :=
    getLsbD_of_lt valid.device above
  have function (bit : ℕ) (above : 3 ≤ bit) : loc.function.getLsbD bit = false :=
    getLsbD_of_lt valid.function above
  simp only [makeAddress, BitVec.getLsbD_or, BitVec.getLsbD_and, BitVec.getLsbD_shiftLeft,
    BitVec.getLsbD_setWidth]
  interval_cases bit <;> simp [device, function, -BitVec.getLsbD_eq_getElem]

theorem makeAddress_fields (valid : loc.Valid) (offset : BitVec 8) :
    (makeAddress loc.bus loc.device loc.function offset).extractLsb' 16 8 = loc.bus ∧
      (makeAddress loc.bus loc.device loc.function offset).extractLsb' 11 5 =
        loc.device.setWidth 5 ∧
      (makeAddress loc.bus loc.device loc.function offset).extractLsb' 8 3 =
        loc.function.setWidth 3 ∧
      (makeAddress loc.bus loc.device loc.function offset).extractLsb' 2 6 =
        offset.extractLsb' 2 6 := by
  have field {bit start : ℕ} (below : start + bit < 31) :=
    getLsbD_makeAddress valid offset below
  refine ⟨?_, ?_, ?_, ?_⟩
  · refine BitVec.eq_of_getLsbD_eq fun bit below => ?_
    rw [BitVec.getLsbD_extractLsb', field (by omega), if_neg (by omega), if_neg (by omega),
      if_neg (by omega), Nat.add_sub_cancel_left, decide_eq_true below, Bool.true_and]
  · refine BitVec.eq_of_getLsbD_eq fun bit below => ?_
    rw [BitVec.getLsbD_extractLsb', field (by omega), if_neg (by omega), if_neg (by omega),
      if_pos (by omega), Nat.add_sub_cancel_left, BitVec.getLsbD_setWidth]
  · refine BitVec.eq_of_getLsbD_eq fun bit below => ?_
    rw [BitVec.getLsbD_extractLsb', field (by omega), if_neg (by omega), if_pos (by omega),
      Nat.add_sub_cancel_left, BitVec.getLsbD_setWidth]
  · refine BitVec.eq_of_getLsbD_eq fun bit below => ?_
    rw [BitVec.getLsbD_extractLsb', field (by omega), if_pos (by omega),
      decide_eq_true (Nat.le_add_right 2 bit), Bool.true_and, BitVec.getLsbD_extractLsb']

/-- The data port finds the double word that the address names. -/
theorem ConfigSpace.cfgReadU32_eq (valid : loc.Valid) (offset : BitVec 8) :
    space.cfgReadU32 loc.bus loc.device loc.function offset = space.dword loc offset := by
  obtain ⟨bus, device, function, register⟩ := makeAddress_fields valid offset
  rw [cfgReadU32, data, bus, device, function, register, dword]

/-- Only the upper six bits of an offset choose the double word. -/
theorem ConfigSpace.dword_congr {offset offset' : BitVec 8}
    (same : offset.extractLsb' 2 6 = offset'.extractLsb' 2 6) :
    space.dword loc offset = space.dword loc offset' := by
  rw [dword, dword, same]

/-- `cfg_read_u8` reads one byte. -/
theorem ConfigSpace.cfgReadU8_eq (valid : loc.Valid) (offset : BitVec 8) :
    space.cfgReadU8 loc.bus loc.device loc.function offset = space.byte loc offset := by
  have same : space.dword loc (offset &&& ~~~3#8) = space.dword loc offset := by
    refine dword_congr (BitVec.eq_of_getLsbD_eq fun bit below => ?_)
    rw [BitVec.getLsbD_extractLsb', BitVec.getLsbD_extractLsb', BitVec.getLsbD_and,
      BitVec.getLsbD_not]
    interval_cases bit <;> simp
  have low : (offset &&& 3#8).toNat = offset.toNat % 4 := by
    rw [BitVec.toNat_and]
    exact Nat.and_two_pow_sub_one_eq_mod offset.toNat 2
  have shift : ((offset &&& 3#8) * 8#8).toNat = 8 * (offset.toNat % 4) := by
    rw [BitVec.toNat_mul, low, BitVec.toNat_ofNat]
    omega
  rw [cfgReadU8, cfgReadU32_eq valid, same, BitVec.ushiftRight_eq', shift, byte]
  refine BitVec.eq_of_getLsbD_eq fun bit below => ?_
  rw [BitVec.getLsbD_setWidth, BitVec.getLsbD_and, BitVec.getLsbD_ushiftRight,
    BitVec.getLsbD_extractLsb']
  interval_cases bit <;> simp [-BitVec.getLsbD_eq_getElem]

/-- `cfg_read_u16` reads two bytes. -/
theorem ConfigSpace.cfgReadU16_eq (valid : loc.Valid) {offset : BitVec 8}
    (even : offset.toNat % 2 = 0) :
    space.cfgReadU16 loc.bus loc.device loc.function offset = space.word loc offset := by
  have range := offset.isLt
  have next : (offset + 1#8).toNat = offset.toNat + 1 := by
    rw [BitVec.toNat_add, BitVec.toNat_ofNat]
    omega
  -- Both bytes lie in one double word, and the accessor names it.
  have upper : space.dword loc (offset + 1#8) = space.dword loc offset := by
    apply dword_congr
    apply BitVec.eq_of_toNat_eq
    simp only [BitVec.extractLsb'_toNat, next, Nat.shiftRight_eq_div_pow]
    omega
  have named : space.dword loc (offset &&& ~~~2#8) = space.dword loc offset := by
    refine dword_congr (BitVec.eq_of_getLsbD_eq fun bit below => ?_)
    rw [BitVec.getLsbD_extractLsb', BitVec.getLsbD_extractLsb', BitVec.getLsbD_and,
      BitVec.getLsbD_not]
    interval_cases bit <;> simp
  have half : offset &&& 2#8 = 0 ↔ offset.toNat % 4 = 0 := by
    have bit : (offset &&& 2#8).toNat = (offset.toNat.testBit 1).toNat * 2 ^ 1 := by
      rw [BitVec.toNat_and]
      exact Nat.and_two_pow offset.toNat 1
    have zero : (0 : BitVec 8).toNat = 0 := rfl
    rw [← BitVec.toNat_inj, bit, zero, Nat.testBit_eq_decide_div_mod_eq]
    by_cases odd : offset.toNat / 2 ^ 1 % 2 = 1
    · rw [decide_eq_true odd, Bool.toNat_true]
      omega
    · rw [decide_eq_false odd, Bool.toNat_false]
      omega
  rw [cfgReadU16, cfgReadU32_eq valid, named, word, byte, byte, upper, next]
  generalize space.dword loc offset = v
  simp only [half]
  split_ifs with low
  · have high : (offset.toNat + 1) % 4 = 1 := by omega
    have joined : v.extractLsb' (8 * 1) 8 ++ v.extractLsb' (8 * 0) 8 = v.extractLsb' 0 16 :=
      BitVec.extractLsb'_append_extractLsb'_eq_extractLsb' rfl
    rw [low, high, joined]
    refine BitVec.eq_of_getLsbD_eq fun bit below => ?_
    rw [BitVec.getLsbD_setWidth, BitVec.getLsbD_and, BitVec.getLsbD_extractLsb']
    interval_cases bit <;> simp [-BitVec.getLsbD_eq_getElem]
  · have middle : offset.toNat % 4 = 2 := by omega
    have high : (offset.toNat + 1) % 4 = 3 := by omega
    have joined : v.extractLsb' (8 * 3) 8 ++ v.extractLsb' (8 * 2) 8 = v.extractLsb' 16 16 :=
      BitVec.extractLsb'_append_extractLsb'_eq_extractLsb' rfl
    rw [middle, high, joined, BitVec.setWidth_ushiftRight_eq_extractLsb]

/-- What `read_pci_function` finds when a function is present. -/
structure Describes (space : ConfigSpace) (func : PciFunc) : Prop where
  vendor : func.id.vendor = space.word func.loc 0x00#8
  device : func.id.device = space.word func.loc 0x02#8
  revision : func.pciClass.revision = space.byte func.loc 0x08#8
  progIf : func.pciClass.progIf = space.byte func.loc 0x09#8
  subclass : func.pciClass.subclass = space.byte func.loc 0x0A#8
  baseClass : func.pciClass.baseClass = space.byte func.loc 0x0B#8
  headerType : func.headerType = space.byte func.loc 0x0E#8
  irqLine : func.irqLine = space.byte func.loc 0x3C#8
  irqPin : func.irqPin = space.byte func.loc 0x3D#8

/-- `read_pci_function` finds every function with a vendor and describes it by its bytes. -/
theorem ConfigSpace.readPciFunction_spec (valid : loc.Valid) :
    (space.readPciFunction loc.bus loc.device loc.function = none ∧
        space.word loc 0x00#8 = 0xFFFF#16) ∨
      ∃ func, space.readPciFunction loc.bus loc.device loc.function = some func ∧
        space.word loc 0x00#8 ≠ 0xFFFF#16 ∧ func.loc = loc ∧ Describes space func := by
  unfold readPciFunction
  rw [cfgReadU16_eq valid (by decide)]
  dsimp only
  by_cases absent : space.word loc 0x00#8 = 0xFFFF#16
  · rw [if_pos absent]
    exact .inl ⟨rfl, absent⟩
  · rw [if_neg absent]
    refine .inr ⟨_, rfl, absent, rfl, ?_⟩
    constructor
    · rfl
    · exact @cfgReadU16_eq space loc valid 0x02#8 (by decide)
    all_goals exact cfgReadU8_eq valid _

end Bytes

end Blubos
