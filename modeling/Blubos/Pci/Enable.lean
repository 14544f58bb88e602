import Blubos.Foundation.WriteToClear
import Blubos.Pci.Enumeration

/-!
# Enabling the controllers

`kernel_main` walks the functions that a scan found and lets those that are xHCI controllers decode
their memory and master the bus.  For this it writes one double word of configuration space, the
command register with the status register above it; the status bits are cleared by writing ones.
-/

namespace Blubos

namespace ConfigSpace

/-- The register of commands and status. -/
def commandRegister : BitVec 6 := 1

/-- The bits that are cleared by writing ones: the errors of the status register. -/
def writeToClearMask (register : BitVec 6) : BitVec 32 :=
  if register = commandRegister then 0xF9000000 else 0

/-- The space after `PCI_CONFIG_DATA` was written with this address in `PCI_CONFIG_ADDRESS`. -/
def writeData (space : ConfigSpace) (address value : BitVec 32) : ConfigSpace :=
  fun bus dev func register =>
    if address.extractLsb' 16 8 = bus ∧ address.extractLsb' 11 5 = dev ∧
        address.extractLsb' 8 3 = func ∧ address.extractLsb' 2 6 = register then
      WriteToClear.write (writeToClearMask register) (space bus dev func register) value
    else space bus dev func register

/-- `cfg_write_u32`. -/
def cfgWriteU32 (space : ConfigSpace) (bus dev func offset : BitVec 8) (value : BitVec 32) :
    ConfigSpace := space.writeData (makeAddress bus dev func offset) value

/-- `enable_mmio_and_bus_master`. -/
def enableMmioAndBusMaster (space : ConfigSpace) (loc : PciLocation) : ConfigSpace :=
  let cmd := space.cfgReadU16 loc.bus loc.device loc.function 0x04#8
  let cmd := cmd ||| (1#16 <<< 1) ||| (1#16 <<< 2)
  let v := space.cfgReadU32 loc.bus loc.device loc.function (0x04#8 &&& ~~~2#8)
  let shift := (0x04#32 &&& 2#32) * 8#32
  let new := (v &&& ~~~(0xFFFF#32 <<< shift)) ||| (cmd.setWidth 32 <<< shift)
  space.cfgWriteU32 loc.bus loc.device loc.function (0x04#8 &&& ~~~2#8) new

end ConfigSpace

/-- The functions that the loop of `kernel_main` takes. -/
def PciFunc.isXhci (func : PciFunc) : Bool :=
  func.pciClass.baseClass = 0x0C ∧ func.pciClass.subclass = 0x03 ∧ func.pciClass.progIf = 0x30

/-- The loop of `kernel_main`, as far as configuration space sees it: the rest of a pass is about the
registers of the controller. -/
def enableControllers (space : ConfigSpace) (funcs : List PciFunc) : ConfigSpace :=
  funcs.foldl (fun space func =>
    if func.isXhci then space.enableMmioAndBusMaster func.loc else space) space

/-- The register with memory decoding and bus mastering, and without the errors. -/
def enabled (register : BitVec 32) : BitVec 32 := (register &&& ~~~0xF9000000#32) ||| 6#32

theorem enabled_enabled (register : BitVec 32) : enabled (enabled register) = enabled register := by
  refine BitVec.eq_of_getLsbD_eq fun bit below => ?_
  simp only [enabled, BitVec.getLsbD_or, BitVec.getLsbD_and]
  cases register.getLsbD bit <;> cases (6#32).getLsbD bit <;>
    cases (~~~0xF9000000#32).getLsbD bit <;> rfl

/-- What `enable_mmio_and_bus_master` writes, as the register takes it. -/
theorem write_enabled (v : BitVec 32) :
    WriteToClear.write 0xF9000000#32 v ((v &&& ~~~(0xFFFF#32 <<< 0#32)) |||
      ((v.extractLsb' 0 16 ||| (1#16 <<< 1) ||| (1#16 <<< 2)).setWidth 32 <<< 0#32)) =
      enabled v := by
  refine BitVec.eq_of_getLsbD_eq fun bit below => ?_
  unfold enabled WriteToClear.write
  interval_cases bit <;> simp

section One

variable {space : ConfigSpace} {loc : PciLocation}

/-- Functions with the same fields of an address are the same. -/
theorem PciLocation.Valid.ext {loc' : PciLocation} (valid : loc.Valid) (valid' : loc'.Valid)
    (bus : loc.bus = loc'.bus) (device : loc.device.setWidth 5 = loc'.device.setWidth 5)
    (function : loc.function.setWidth 3 = loc'.function.setWidth 3) : loc = loc' := by
  have narrow {w : ℕ} {field field' : BitVec 8} (small : field.toNat < 2 ^ w)
      (small' : field'.toNat < 2 ^ w) (same : field.setWidth w = field'.setWidth w) :
      field = field' := by
    apply BitVec.eq_of_toNat_eq
    have equal := congrArg BitVec.toNat same
    rwa [BitVec.toNat_setWidth, BitVec.toNat_setWidth, Nat.mod_eq_of_lt small,
      Nat.mod_eq_of_lt small'] at equal
  obtain ⟨b, d, f⟩ := loc
  obtain ⟨b', d', f'⟩ := loc'
  obtain rfl : b = b' := bus
  obtain rfl : d = d' := @narrow 5 d d' valid.device valid'.device device
  obtain rfl : f = f' := @narrow 3 f f' valid.function valid'.function function
  rfl

/-- A write to configuration space changes the double word that is addressed and no other. -/
theorem ConfigSpace.dword_cfgWriteU32 (valid : loc.Valid) {loc' : PciLocation}
    (valid' : loc'.Valid) (offset offset' : BitVec 8) (value : BitVec 32) :
    (space.cfgWriteU32 loc.bus loc.device loc.function offset value).dword loc' offset' =
      if loc' = loc ∧ offset'.extractLsb' 2 6 = offset.extractLsb' 2 6 then
        WriteToClear.write (writeToClearMask (offset.extractLsb' 2 6)) (space.dword loc offset)
          value
      else space.dword loc' offset' := by
  obtain ⟨bus, device, function, register⟩ := makeAddress_fields valid offset
  rw [cfgWriteU32, dword, writeData, bus, device, function, register]
  split_ifs with addressed same same
  · obtain ⟨rfl, sameRegister⟩ := same
    rw [sameRegister, dword]
  · obtain ⟨sameBus, sameDevice, sameFunction, sameRegister⟩ := addressed
    exact absurd ⟨(valid.ext valid' sameBus sameDevice sameFunction).symm, sameRegister.symm⟩ same
  · obtain ⟨rfl, sameRegister⟩ := same
    exact absurd ⟨rfl, rfl, rfl, sameRegister.symm⟩ addressed
  · rfl

/-- `enable_mmio_and_bus_master` enables one function and leaves everything else alone. -/
theorem ConfigSpace.dword_enable (valid : loc.Valid) {loc' : PciLocation} (valid' : loc'.Valid)
    (offset : BitVec 8) :
    (space.enableMmioAndBusMaster loc).dword loc' offset =
      if loc' = loc ∧ offset.extractLsb' 2 6 = commandRegister then enabled (space.dword loc 0x04#8)
      else space.dword loc' offset := by
  have aligned : 0x04#8 &&& ~~~2#8 = 0x04#8 := by decide
  have shift : (0x04#32 &&& 2#32) * 8#32 = 0#32 := by decide
  have low : 0x04#8 &&& 2#8 = 0 := by decide
  have register : (0x04#8).extractLsb' 2 6 = commandRegister := by decide
  have half (v : BitVec 32) : (v &&& 0xFFFF#32).setWidth 16 = v.extractLsb' 0 16 := by
    refine BitVec.eq_of_getLsbD_eq fun bit below => ?_
    rw [BitVec.getLsbD_setWidth, BitVec.getLsbD_and, BitVec.getLsbD_extractLsb']
    interval_cases bit <;> simp
  have command : space.cfgReadU16 loc.bus loc.device loc.function 0x04#8 =
      (space.dword loc 0x04#8).extractLsb' 0 16 := by
    rw [cfgReadU16, if_pos low, aligned, cfgReadU32_eq valid, half]
  rw [enableMmioAndBusMaster, command, aligned, shift, cfgReadU32_eq valid,
    dword_cfgWriteU32 valid valid', register]
  have mask : writeToClearMask commandRegister = 0xF9000000#32 := if_pos rfl
  rw [mask, write_enabled]

end One

/-- The loop enables the functions it takes, once or several times, and nothing else. -/
theorem dword_enableControllers (funcs : List PciFunc) (valid : ∀ func ∈ funcs, func.loc.Valid)
    (space : ConfigSpace) {loc : PciLocation} (validLoc : loc.Valid) (offset : BitVec 8) :
    (enableControllers space funcs).dword loc offset =
      if (∃ func ∈ funcs, func.isXhci = true ∧ func.loc = loc) ∧
          offset.extractLsb' 2 6 = ConfigSpace.commandRegister then
        enabled (space.dword loc 0x04#8)
      else space.dword loc offset := by
  induction funcs generalizing space with
  | nil => simp [enableControllers]
  | cons func funcs induction =>
      obtain ⟨first, later⟩ := List.forall_mem_cons.mp valid
      have register : (0x04#8).extractLsb' 2 6 = ConfigSpace.commandRegister := by decide
      rw [enableControllers, List.foldl_cons, ← enableControllers, induction later]
      by_cases taken : func.isXhci = true
      · rw [if_pos taken, ConfigSpace.dword_enable first validLoc,
          ConfigSpace.dword_enable first validLoc]
        by_cases same : loc = func.loc
        · subst same
          simp only [register, and_self, if_true, enabled_enabled, true_and, List.mem_cons,
            exists_eq_or_imp, taken, true_or]
          split_ifs <;> first | rfl | simp_all
        · have other : ¬func.loc = loc := fun equal => same equal.symm
          simp [same, other]
      · rw [if_neg taken]
        simp [taken]

/-- An xHCI controller that a scan finds. -/
structure XhciPresent (space : ConfigSpace) (loc : PciLocation) : Prop where
  present : Present space loc
  baseClass : space.byte loc 0x0B#8 = 0x0C
  subclass : space.byte loc 0x0A#8 = 0x03
  progIf : space.byte loc 0x09#8 = 0x30

/-- The functions of a scanner that has found all that is there. -/
theorem PciScanner.mem_list_iff {space : ConfigSpace} {scanner : PciScanner}
    (entries : ∀ slot, scanner.functionAt slot = space.found slot.loc) {func : PciFunc} :
    func ∈ scanner.list ↔ func.loc.Valid ∧ space.found func.loc = some func := by
  rw [scanner.list_eq, List.mem_filterMap]
  constructor
  · rintro ⟨slot, -, found⟩
    rw [entries] at found
    obtain ⟨same, -⟩ := ConfigSpace.of_found slot.valid found
    exact ⟨same ▸ slot.valid, same ▸ found⟩
  · rintro ⟨valid, found⟩
    obtain ⟨slot, same⟩ := valid.exists_slot
    exact ⟨slot, mem_slots slot, by rw [entries, same, found]⟩

theorem PciScanner.isXhci_iff {space : ConfigSpace} {scanner : PciScanner}
    (entries : ∀ slot, scanner.functionAt slot = space.found slot.loc) {func : PciFunc}
    (member : func ∈ scanner.list) : func.isXhci = true ↔ XhciPresent space func.loc := by
  obtain ⟨valid, found⟩ := (PciScanner.mem_list_iff entries).mp member
  obtain ⟨-, described⟩ := ConfigSpace.of_found valid found
  constructor
  · intro xhci
    obtain ⟨baseClass, subclass, progIf⟩ := of_decide_eq_true xhci
    exact ⟨(space.found_iff valid).mp ⟨func, found⟩, described.baseClass ▸ baseClass,
      described.subclass ▸ subclass, described.progIf ▸ progIf⟩
  · rintro ⟨-, baseClass, subclass, progIf⟩
    rw [← described.baseClass] at baseClass
    rw [← described.subclass] at subclass
    rw [← described.progIf] at progIf
    exact decide_eq_true ⟨baseClass, subclass, progIf⟩

theorem PciScanner.exists_mem_of_xhci {space : ConfigSpace} {scanner : PciScanner}
    (entries : ∀ slot, scanner.functionAt slot = space.found slot.loc) {loc : PciLocation}
    (valid : loc.Valid) (xhci : XhciPresent space loc) : ∃ func ∈ scanner.list, func.loc = loc := by
  obtain ⟨func, found⟩ := (space.found_iff valid).mpr xhci.present
  obtain ⟨rfl, -⟩ := ConfigSpace.of_found valid found
  exact ⟨func, (PciScanner.mem_list_iff entries).mpr ⟨valid, found⟩, rfl⟩

/-- Scanning and walking the functions enables the xHCI controllers, which lose the errors of their
status registers, and leaves all other double words of all functions as they are.  A pass enables
its function before anything else, so where one of them does not return, this holds of the functions
whose passes have begun. -/
theorem enableControllers_exact (space : ConfigSpace) :
    ∃ scanner funcs, PciScanner.new.scan space = .ok scanner ∧
      Yields PciFuncIter.next scanner.iter funcs ∧
      ∀ begun, begun <+: funcs → ∀ loc, loc.Valid → ∀ offset,
        (XhciPresent space loc → (begun = funcs ∨ ∃ func ∈ begun, func.loc = loc) →
          offset.extractLsb' 2 6 = ConfigSpace.commandRegister →
          (enableControllers space begun).dword loc offset = enabled (space.dword loc 0x04#8)) ∧
        (¬XhciPresent space loc ∨ (∀ func ∈ begun, func.loc ≠ loc) ∨
            offset.extractLsb' 2 6 ≠ ConfigSpace.commandRegister →
          (enableControllers space begun).dword loc offset = space.dword loc offset) := by
  obtain ⟨scanner, scanned, entries⟩ := scan_functionAt space
  refine ⟨scanner, scanner.list, scanned, scanner.iter_yields,
    fun begun before loc valid offset => ?_⟩
  have members {func : PciFunc} (member : func ∈ begun) : func ∈ scanner.list :=
    before.subset member
  have valids : ∀ func ∈ begun, func.loc.Valid := fun func member =>
    ((PciScanner.mem_list_iff entries).mp (members member)).1
  rw [dword_enableControllers begun valids space valid]
  constructor
  · intro xhci reached register
    have taken : ∃ func ∈ begun, func.loc = loc := by
      rcases reached with rfl | taken
      · exact PciScanner.exists_mem_of_xhci entries valid xhci
      · exact taken
    obtain ⟨func, member, rfl⟩ := taken
    exact if_pos
      ⟨⟨func, member, (PciScanner.isXhci_iff entries (members member)).mpr xhci, rfl⟩, register⟩
  · rintro other
    refine if_neg ?_
    rintro ⟨⟨func, member, xhci, rfl⟩, register⟩
    rcases other with absent | later | elsewhere
    · exact absent ((PciScanner.isXhci_iff entries (members member)).mp xhci)
    · exact later func member rfl
    · exact elsewhere register

end Blubos
