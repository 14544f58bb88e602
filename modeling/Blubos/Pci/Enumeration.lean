import Blubos.Pci.Scanner
import Mathlib.Data.List.ReduceOption

/-!
# PCI enumeration is exact

A scan settles the entries of every device, and both iterators split off the first of the functions
that remain from their indices on.  Where an iterator stops within a device, that device is there;
so it makes no difference that one of them keeps the function index when it passes an absent
device.
-/

namespace Blubos

/-- The functions of a device from an index on. -/
def restFunctions (functions : Vector (Option PciFunc) 8) (f : ℕ) : List PciFunc :=
  (functions.toList.drop f).reduceOption

def PciDevice.list (dev : PciDevice) : List PciFunc := dev.functions.toList.reduceOption

/-- The functions of the devices of a bus from an index on. -/
def fromDevice (devices : Vector (Option PciDevice) 32) (d : ℕ) : List PciFunc :=
  (devices.toList.drop d).reduceOption.flatMap PciDevice.list

def PciBus.list (bus : PciBus) : List PciFunc := fromDevice bus.devices 0

/-- The functions of the buses from an index on. -/
def fromBus (buses : Vector (Option PciBus) 256) (b : ℕ) : List PciFunc :=
  (buses.toList.drop b).reduceOption.flatMap PciBus.list

/-- What remains on a bus within a device. -/
def restDevices (devices : Vector (Option PciDevice) 32) (d f : ℕ) : List PciFunc :=
  (devices[d]?.join.elim [] fun dev => restFunctions dev.functions f) ++ fromDevice devices (d + 1)

/-- What remains within a bus. -/
def restBuses (buses : Vector (Option PciBus) 256) (b d f : ℕ) : List PciFunc :=
  (buses[b]?.join.elim [] fun bus => restDevices bus.devices d f) ++ fromBus buses (b + 1)

section Walk

/-- The entry at an index heads what remains from there on. -/
theorem reduceOption_drop {α : Type} {n i : ℕ} (entries : Vector (Option α) n) (inRange : i < n) :
    (entries.toList.drop i).reduceOption =
      entries[i].toList ++ (entries.toList.drop (i + 1)).reduceOption := by
  have below : i < entries.toList.length := by simpa using inRange
  rw [List.drop_eq_getElem_cons below, Vector.getElem_toList]
  cases entries[i] with
  | none => rfl
  | some item => rfl

theorem reduceOption_drop_of_le {α : Type} {n i : ℕ} (entries : Vector (Option α) n)
    (beyond : n ≤ i) :
    (entries.toList.drop i).reduceOption = [] := by
  rw [List.drop_eq_nil_of_le (by simpa using beyond)]
  rfl

theorem nextFunction_spec (functions : Vector (Option PciFunc) 8) (f : ℕ) :
    ((nextFunction functions f).1 = none ∧ restFunctions functions f = []) ∨
      ∃ func f', nextFunction functions f = (some func, f') ∧
        restFunctions functions f = func :: restFunctions functions f' := by
  fun_induction nextFunction functions f with
  | case1 f inRange func found =>
      refine .inr ⟨func, f + 1, rfl, ?_⟩
      rw [restFunctions, reduceOption_drop functions inRange, found]
      rfl
  | case2 f inRange none induction =>
      have skip : restFunctions functions f = restFunctions functions (f + 1) := by
        rw [restFunctions, reduceOption_drop functions inRange, none]
        rfl
      rw [skip]
      exact induction
  | case3 f beyond =>
      exact .inl ⟨rfl, reduceOption_drop_of_le functions (not_lt.mp beyond)⟩

section Devices

variable {devices : Vector (Option PciDevice) 32} {d : ℕ}

theorem restDevices_some {dev : PciDevice} {inRange : d < 32} (found : devices[d] = some dev)
    (f : ℕ) :
    restDevices devices d f = restFunctions dev.functions f ++ fromDevice devices (d + 1) := by
  rw [restDevices, Vector.getElem?_eq_getElem inRange, found]
  rfl

theorem restDevices_none {inRange : d < 32} (absent : devices[d] = none) (f : ℕ) :
    restDevices devices d f = fromDevice devices (d + 1) := by
  rw [restDevices, Vector.getElem?_eq_getElem inRange, absent]
  rfl

theorem fromDevice_of_le (beyond : 32 ≤ d) : fromDevice devices d = [] := by
  rw [fromDevice, reduceOption_drop_of_le devices beyond]
  rfl

theorem restDevices_of_le (beyond : 32 ≤ d) (f : ℕ) : restDevices devices d f = [] := by
  rw [restDevices, Vector.getElem?_eq_none beyond, fromDevice_of_le (Nat.le_succ_of_le beyond)]
  rfl

/-- At function zero of a device everything from the device on remains. -/
theorem restDevices_zero (devices : Vector (Option PciDevice) 32) (d : ℕ) :
    restDevices devices d 0 = fromDevice devices d := by
  by_cases inRange : d < 32
  · cases found : devices[d] with
    | none =>
        rw [restDevices_none found, fromDevice, fromDevice, reduceOption_drop devices inRange,
          found]
        rfl
    | some dev =>
        rw [restDevices_some found, fromDevice, fromDevice, reduceOption_drop devices inRange,
          found]
        rfl
  · rw [restDevices_of_le (not_lt.mp inRange), fromDevice_of_le (not_lt.mp inRange)]

/-- The loop over the devices splits off the first function that remains on the bus and stops at a
device that is there. -/
theorem PciFuncIterMut.nextDevice_spec (devices : Vector (Option PciDevice) 32) (d f : ℕ) :
    ((nextDevice devices d f).1 = none ∧ restDevices devices d f = []) ∨
      ∃ func d' f', nextDevice devices d f = (some func, d', f') ∧
        (∃ dev, devices[d']?.join = some dev) ∧
        restDevices devices d f = func :: restDevices devices d' f' := by
  fun_induction nextDevice devices d f with
  | case1 d f inRange absent induction =>
      rw [restDevices_none absent, ← restDevices_zero]
      exact induction
  | case2 d f inRange dev found func f' advanced =>
      rcases nextFunction_spec dev.functions f with ⟨none, -⟩ | ⟨func', g, advanced', rest⟩
      · simp [advanced] at none
      · obtain ⟨rfl, rfl⟩ : func' = func ∧ g = f' := by
          simpa [advanced] using advanced'.symm
        refine .inr ⟨func', d, g, rfl, ⟨dev, ?_⟩, ?_⟩
        · rw [Vector.getElem?_eq_getElem inRange, found]
          rfl
        · rw [restDevices_some found, restDevices_some found, rest, List.cons_append]
  | case3 d f inRange dev found g exhausted induction =>
      rcases nextFunction_spec dev.functions f with ⟨-, rest⟩ | ⟨func', g, advanced', -⟩
      · rw [restDevices_some found, rest, List.nil_append, ← restDevices_zero]
        exact induction
      · simp [exhausted] at advanced'
  | case4 d f beyond => exact .inl ⟨rfl, restDevices_of_le (not_lt.mp beyond) f⟩

/-- From function zero, or from a device that is there, both loops over the devices do the same. -/
theorem PciFuncIter.nextDevice_eq (devices : Vector (Option PciDevice) 32) (d f : ℕ)
    (settled : f = 0 ∨ ∃ dev, devices[d]?.join = some dev) :
    nextDevice devices d f = PciFuncIterMut.nextDevice devices d f := by
  fun_induction nextDevice devices d f with
  | case1 d f inRange dev found func f' advanced =>
      rw [PciFuncIterMut.nextDevice, dif_pos inRange]
      simp [found, advanced]
  | case2 d f inRange dev found g exhausted induction =>
      rw [PciFuncIterMut.nextDevice, dif_pos inRange]
      simp [found, exhausted, induction]
  | case3 d f inRange absent induction =>
      have zero : f = 0 := by
        rcases settled with zero | ⟨dev, found⟩
        · exact zero
        · rw [Vector.getElem?_eq_getElem inRange, absent] at found
          simp at found
      rw [PciFuncIterMut.nextDevice, dif_pos inRange]
      subst zero
      simp [absent, induction (.inl rfl)]
  | case4 d f beyond => rw [PciFuncIterMut.nextDevice, dif_neg beyond]

end Devices

section Buses

variable {buses : Vector (Option PciBus) 256} {b : ℕ}

theorem restBuses_some {bus : PciBus} {inRange : b < 256} (found : buses[b] = some bus)
    (d f : ℕ) : restBuses buses b d f = restDevices bus.devices d f ++ fromBus buses (b + 1) := by
  rw [restBuses, Vector.getElem?_eq_getElem inRange, found]
  rfl

theorem restBuses_none {inRange : b < 256} (absent : buses[b] = none) (d f : ℕ) :
    restBuses buses b d f = fromBus buses (b + 1) := by
  rw [restBuses, Vector.getElem?_eq_getElem inRange, absent]
  rfl

theorem fromBus_of_le (beyond : 256 ≤ b) : fromBus buses b = [] := by
  rw [fromBus, reduceOption_drop_of_le buses beyond]
  rfl

theorem restBuses_of_le (beyond : 256 ≤ b) (d f : ℕ) : restBuses buses b d f = [] := by
  rw [restBuses, Vector.getElem?_eq_none beyond, fromBus_of_le (Nat.le_succ_of_le beyond)]
  rfl

/-- At the start of a bus everything from the bus on remains. -/
theorem restBuses_zero (buses : Vector (Option PciBus) 256) (b : ℕ) :
    restBuses buses b 0 0 = fromBus buses b := by
  by_cases inRange : b < 256
  · cases found : buses[b] with
    | none =>
        rw [restBuses_none found, fromBus, fromBus, reduceOption_drop buses inRange, found]
        rfl
    | some bus =>
        rw [restBuses_some found, restDevices_zero, fromBus, fromBus,
          reduceOption_drop buses inRange, found]
        rfl
  · rw [restBuses_of_le (not_lt.mp inRange), fromBus_of_le (not_lt.mp inRange)]

def deviceAt (buses : Vector (Option PciBus) 256) (b d : ℕ) : Option PciDevice :=
  buses[b]?.join.bind fun bus => bus.devices[d]?.join

theorem deviceAt_some {bus : PciBus} {inRange : b < 256} (found : buses[b] = some bus) (d : ℕ) :
    deviceAt buses b d = bus.devices[d]?.join := by
  rw [deviceAt, Vector.getElem?_eq_getElem inRange, found]
  rfl

/-- The loop over the buses splits off the first function that remains and stops at a device that
is there. -/
theorem PciFuncIterMut.nextBus_spec (buses : Vector (Option PciBus) 256) (b d f : ℕ) :
    ((nextBus buses b d f).1 = none ∧ restBuses buses b d f = []) ∨
      ∃ func b' d' f', nextBus buses b d f = (some func, b', d', f') ∧
        (∃ dev, deviceAt buses b' d' = some dev) ∧
        restBuses buses b d f = func :: restBuses buses b' d' f' := by
  fun_induction nextBus buses b d f with
  | case1 b d f inRange absent induction =>
      rw [restBuses_none absent, ← restBuses_zero]
      exact induction
  | case2 b d f inRange bus found func d' f' advanced =>
      rcases nextDevice_spec bus.devices d f with
        ⟨none, -⟩ | ⟨func', e, g, advanced', present, rest⟩
      · simp [advanced] at none
      · obtain ⟨rfl, rfl, rfl⟩ : func' = func ∧ e = d' ∧ g = f' := by
          simpa [advanced] using advanced'.symm
        refine .inr ⟨func', b, e, g, rfl, ?_, ?_⟩
        · rw [deviceAt_some found]
          exact present
        · rw [restBuses_some found, restBuses_some found, rest, List.cons_append]
  | case3 b d f inRange bus found e g exhausted induction =>
      rcases nextDevice_spec bus.devices d f with ⟨-, rest⟩ | ⟨func', e', g', advanced', -⟩
      · rw [restBuses_some found, rest, List.nil_append, ← restBuses_zero]
        exact induction
      · simp [exhausted] at advanced'
  | case4 b d f beyond => exact .inl ⟨rfl, restBuses_of_le (not_lt.mp beyond) d f⟩

/-- From function zero, or from a device that is there, both loops over the buses do the same. -/
theorem PciFuncIter.nextBus_eq (buses : Vector (Option PciBus) 256) (b d f : ℕ)
    (settled : f = 0 ∨ ∃ dev, deviceAt buses b d = some dev) :
    nextBus buses b d f = PciFuncIterMut.nextBus buses b d f := by
  fun_induction nextBus buses b d f with
  | case1 b d f inRange bus found func d' f' advanced =>
      rw [deviceAt_some found] at settled
      rw [nextDevice_eq bus.devices d f settled] at advanced
      rw [PciFuncIterMut.nextBus, dif_pos inRange]
      simp [found, advanced]
  | case2 b d f inRange bus found e g exhausted induction =>
      rw [deviceAt_some found] at settled
      rw [nextDevice_eq bus.devices d f settled] at exhausted
      rw [PciFuncIterMut.nextBus, dif_pos inRange]
      simp [found, exhausted, induction]
  | case3 b d f inRange absent induction =>
      rw [PciFuncIterMut.nextBus, dif_pos inRange]
      simp [absent, induction]
  | case4 b d f beyond => rw [PciFuncIterMut.nextBus, dif_neg beyond]

def PciScanner.list (self : PciScanner) : List PciFunc := fromBus self.buses 0

/-- `iter_mut` yields the functions of the scanner. -/
theorem PciScanner.iterMut_yields (self : PciScanner) :
    Yields PciFuncIterMut.next self.iterMut self.list := by
  rw [PciScanner.list, ← restBuses_zero]
  refine Yields.of_remaining (fun s : PciFuncIterMut => restBuses s.buses s.b s.d s.f)
    (fun _ => True) (fun s _ => ?_) trivial
  rcases PciFuncIterMut.nextBus_spec s.buses s.b s.d s.f with
    ⟨none, rest⟩ | ⟨func, b, d, f, advanced, -, rest⟩
  · exact .inl ⟨s.next.2, Prod.ext none rfl, rest⟩
  · exact .inr ⟨func, ⟨s.buses, b, d, f⟩, by rw [PciFuncIterMut.next, advanced], trivial, rest⟩

/-- So does `iter`. -/
theorem PciScanner.iter_yields (self : PciScanner) :
    Yields PciFuncIter.next self.iter self.list := by
  rw [PciScanner.list, ← restBuses_zero]
  refine Yields.of_remaining (fun s : PciFuncIter => restBuses s.buses s.b s.d s.f)
    (fun s => s.f = 0 ∨ ∃ dev, deviceAt s.buses s.b s.d = some dev) (fun s settled => ?_) (.inl rfl)
  have same := PciFuncIter.nextBus_eq s.buses s.b s.d s.f settled
  rcases PciFuncIterMut.nextBus_spec s.buses s.b s.d s.f with
    ⟨none, rest⟩ | ⟨func, b, d, f, advanced, present, rest⟩
  · rw [← same] at none
    exact .inl ⟨s.next.2, Prod.ext none rfl, rest⟩
  · rw [← same] at advanced
    exact .inr ⟨func, ⟨s.buses, b, d, f⟩, by rw [PciFuncIter.next, advanced], .inr present, rest⟩

end Buses

end Walk

/-! ## What a scan leaves -/

/-- Indices into the table of a scanner. -/
abbrev Slot := Fin 256 × Fin 32 × Fin 8

/-- The location that is stored at some indices. -/
def Slot.loc (slot : Slot) : PciLocation :=
  ⟨.ofNat 8 slot.1, .ofNat 8 slot.2.1, .ofNat 8 slot.2.2⟩

def PciScanner.functionAt (self : PciScanner) (slot : Slot) : Option PciFunc :=
  self.buses[slot.1].bind fun bus => bus.devices[slot.2.1].bind fun dev => dev.functions[slot.2.2]

theorem Slot.valid (slot : Slot) : (Slot.loc slot).Valid where
  device := by
    have := slot.2.1.isLt
    simp only [Slot.loc, BitVec.toNat_ofNat]
    omega
  function := by
    have := slot.2.2.isLt
    simp only [Slot.loc, BitVec.toNat_ofNat]
    omega

theorem devices_getD_default (bus : Option PciBus) {d : ℕ} (inRange : d < 32) :
    (bus.getD PciBus.default).devices[d] = bus.bind fun bus => bus.devices[d] := by
  cases bus with
  | none => simp [PciBus.default]
  | some bus => rfl

theorem functions_getD_default (dev : Option PciDevice) {f : ℕ} (inRange : f < 8) :
    (dev.getD PciDevice.default).functions[f] = dev.bind fun dev => dev.functions[f] := by
  cases dev with
  | none => simp [PciDevice.default]
  | some dev => rfl

theorem PciScanner.addFunction_spec (self : PciScanner) {func : PciFunc} {slot : Slot}
    (loc : func.loc = slot.loc) :
    ∃ next, self.addFunction func = .ok (func, next) ∧
      ∀ slot', next.functionAt slot' =
        if slot' = slot then some func else self.functionAt slot' := by
  obtain ⟨⟨b, onBus⟩, ⟨d, onDevice⟩, ⟨f, inDevice⟩⟩ := slot
  have indices :
      func.loc.bus.toNat = b ∧ func.loc.device.toNat = d ∧ func.loc.function.toNat = f := by
    simp only [loc, Slot.loc, BitVec.toNat_ofNat]
    omega
  obtain ⟨bus, device, function⟩ := indices
  unfold addFunction
  simp only [bus, device, function]
  rw [dif_pos ⟨onBus, onDevice, inDevice⟩]
  refine ⟨_, rfl, ?_⟩
  rintro ⟨⟨b', onBus'⟩, ⟨d', onDevice'⟩, ⟨f', inDevice'⟩⟩
  simp only [functionAt, Fin.getElem_fin, Prod.mk.injEq, Fin.mk.injEq, Vector.getElem_set]
  by_cases sameBus : b = b'
  · subst sameBus
    simp only [if_true, Option.bind_some, Vector.getElem_set, devices_getD_default]
    by_cases sameDevice : d = d'
    · subst sameDevice
      simp only [if_true, Option.bind_some, Vector.getElem_set, functions_getD_default,
        Option.bind_assoc, true_and, eq_comm]
    · have other : ¬(True ∧ d' = d ∧ f' = f) := fun same => sameDevice same.2.1.symm
      rw [if_neg sameDevice, if_neg other, Option.bind_assoc]
  · have other : ¬(b' = b ∧ d' = d ∧ f' = f) := fun same => sameBus same.1.symm
    rw [if_neg sameBus, if_neg other]

/-- The function of a slot is the first or one of the others. -/
theorem Slot.function_cases (slot : Slot) : slot.loc.function = 0 ∨
    slot.loc.function ∈ (List.range' 1 7).map (BitVec.ofNat 8) := by
  have all : ∀ f : Fin 8, BitVec.ofNat 8 f = 0 ∨
      BitVec.ofNat 8 f ∈ (List.range' 1 7).map (BitVec.ofNat 8) := by decide
  exact all slot.2.2

theorem PciLocation.Valid.exists_slot {loc : PciLocation} (valid : loc.Valid) :
    ∃ slot : Slot, slot.loc = loc := by
  refine ⟨(⟨loc.bus.toNat, loc.bus.isLt⟩, ⟨loc.device.toNat, valid.device⟩,
    ⟨loc.function.toNat, valid.function⟩), ?_⟩
  simp [Slot.loc]

theorem Slot.loc_inj {slot slot' : Slot} (same : slot.loc = slot'.loc) : slot = slot' := by
  obtain ⟨⟨b, onBus⟩, ⟨d, onDevice⟩, ⟨f, inDevice⟩⟩ := slot
  obtain ⟨⟨b', onBus'⟩, ⟨d', onDevice'⟩, ⟨f', inDevice'⟩⟩ := slot'
  simp only [Slot.loc, PciLocation.mk.injEq, ← BitVec.toNat_inj, BitVec.toNat_ofNat] at same
  simp only [Prod.mk.injEq, Fin.mk.injEq]
  omega

/-- What a scan finds at a location: function zero, or any function of a device that has more than
one. -/
def ConfigSpace.found (space : ConfigSpace) (loc : PciLocation) : Option PciFunc :=
  if loc.function = 0 ∨
      (space.readPciFunction loc.bus loc.device 0).any fun f0 => isMultiFunction f0.headerType then
    space.readPciFunction loc.bus loc.device loc.function
  else
    none

section Scan

variable {space : ConfigSpace}

/-- A scan so far: the covered slots hold what there is to be found. -/
def Scanned (space : ConfigSpace) (covered : PciLocation → Prop) (before after : PciScanner) :
    Prop :=
  Settles PciScanner.functionAt (fun slot => space.found slot.loc) (fun slot => covered slot.loc)
    before after

/-- Storing a function that is to be found there settles its slot. -/
theorem addFunction_scanned {func : PciFunc} (valid : func.loc.Valid)
    (found : space.found func.loc = some func) (self : PciScanner) :
    ∃ next, self.addFunction func = .ok (func, next) ∧ Scanned space (· = func.loc) self next := by
  obtain ⟨slot, loc⟩ := valid.exists_slot
  obtain ⟨next, returned, stored⟩ := self.addFunction_spec loc.symm
  refine ⟨next, returned, ?_⟩
  have settled : Settles PciScanner.functionAt (fun slot => space.found slot.loc)
      (fun other => other = slot) self next := by
    refine .of_store (by rw [loc]; exact found) fun other => ⟨fun same => ?_, fun other => ?_⟩
    · rw [stored, if_pos same]
    · rw [stored, if_neg other]
  refine settled.congr fun other => ?_
  rw [← loc]
  exact ⟨Slot.loc_inj, fun same => by rw [same]⟩

/-- Storing what `read_pci_function` returned for a location that is to be found. -/
theorem readFunction_scanned {loc : PciLocation} {func : PciFunc} (valid : loc.Valid)
    (found : space.found loc = space.readPciFunction loc.bus loc.device loc.function)
    (present : space.readPciFunction loc.bus loc.device loc.function = some func)
    (self : PciScanner) :
    ∃ next, self.addFunction func = .ok (func, next) ∧ Scanned space (· = loc) self next := by
  rcases space.readPciFunction_spec valid with ⟨absent, -⟩ | ⟨func', returned, -, same, -⟩
  · simp [present] at absent
  · obtain rfl := Option.some.inj (present.symm.trans returned)
    subst same
    exact addFunction_scanned valid (found.trans present) self

/-- The functions after the first of a device that has more than one. -/
theorem scanFunctions_scanned {bus dev : BitVec 8} (onBus : dev.toNat < 32)
    (multi : (space.readPciFunction bus dev 0).any fun f0 => isMultiFunction f0.headerType)
    (self : PciScanner) :
    ∃ next, ((List.range' 1 7).map (BitVec.ofNat 8)).foldlM (fun self func =>
        match space.readPciFunction bus dev func with
        | some f => do
            let (_, self) ← self.addFunction f
            .ok self
        | none => .ok self) self = (.ok next : Except Fault PciScanner) ∧
      Scanned space (fun loc => ∃ func ∈ (List.range' 1 7).map (BitVec.ofNat 8),
        loc = ⟨bus, dev, func⟩) self next := by
  refine foldlM_settles _ (fun self func member => ?_) self
  have small : func.toNat < 8 := by
    revert func
    decide
  have valid : PciLocation.Valid ⟨bus, dev, func⟩ := ⟨onBus, small⟩
  have found : space.found ⟨bus, dev, func⟩ = space.readPciFunction bus dev func :=
    if_pos (.inr multi)
  cases present : space.readPciFunction bus dev func with
  | none =>
      refine ⟨self, rfl, .of_none fun slot covered => ?_⟩
      rw [covered, found, present]
  | some f =>
      obtain ⟨next, returned, scanned⟩ := readFunction_scanned valid found present self
      refine ⟨next, ?_, scanned⟩
      simp only [returned, ok_bind]

/-- Without function zero nothing is to be found on a device. -/
theorem absent_scanned {bus dev : BitVec 8} (absent : space.readPciFunction bus dev 0 = none)
    (self : PciScanner) :
    Scanned space (fun loc => loc.bus = bus ∧ loc.device = dev) self self := by
  refine .of_none ?_
  rintro slot ⟨sameBus, sameDevice⟩
  rw [ConfigSpace.found, sameBus, sameDevice]
  split_ifs with reached
  · rcases reached with first | multi
    · rw [first, absent]
    · rw [absent] at multi
      simp at multi
  · rfl

/-- Nor are further functions, if function zero does not say that there are more. -/
theorem single_scanned {bus dev : BitVec 8} {f0 : PciFunc}
    (present : space.readPciFunction bus dev 0 = some f0)
    (single : ¬isMultiFunction f0.headerType = true) (self : PciScanner) :
    Scanned space (fun loc => loc.bus = bus ∧ loc.device = dev ∧ loc.function ≠ 0) self self := by
  refine .of_none ?_
  rintro slot ⟨sameBus, sameDevice, later⟩
  rw [ConfigSpace.found, sameBus, sameDevice, present]
  exact if_neg (not_or.mpr ⟨later, single⟩)

/-- One pass of the inner loop of `scan` settles a device. -/
theorem scanDevice_scanned {bus dev : BitVec 8} (onBus : dev.toNat < 32) (self : PciScanner) :
    ∃ next, self.scanDevice space bus dev = .ok next ∧
      Scanned space (fun loc => loc.bus = bus ∧ loc.device = dev) self next := by
  have zero : (0 : BitVec 8).toNat < 8 := by decide
  have valid : PciLocation.Valid ⟨bus, dev, 0⟩ := ⟨onBus, zero⟩
  have found : space.found ⟨bus, dev, 0⟩ = space.readPciFunction bus dev 0 := if_pos (.inl rfl)
  rw [PciScanner.scanDevice]
  cases present : space.readPciFunction bus dev 0 with
  | none => exact ⟨self, rfl, absent_scanned present self⟩
  | some f0 =>
      obtain ⟨first, returned, scanned⟩ := readFunction_scanned valid found present self
      simp only [returned, ok_bind]
      by_cases multi : isMultiFunction f0.headerType = true
      · rw [if_pos multi]
        obtain ⟨next, filled, others⟩ := @scanFunctions_scanned space bus dev onBus
          (by rw [present]; exact multi) first
        refine ⟨next, filled, (scanned.trans others).congr fun slot => ?_⟩
        have cases := slot.function_cases
        constructor
        · rintro ⟨rfl, rfl⟩
          exact cases.imp (fun first => by rw [← first]) fun other => ⟨_, other, rfl⟩
        · rintro (first | ⟨func, -, other⟩)
          · exact ⟨congrArg PciLocation.bus first, congrArg PciLocation.device first⟩
          · exact ⟨congrArg PciLocation.bus other, congrArg PciLocation.device other⟩
      · rw [if_neg multi]
        refine ⟨first, rfl, (scanned.trans (single_scanned present multi first)).congr
          fun slot => ?_⟩
        constructor
        · rintro ⟨rfl, rfl⟩
          by_cases zero : slot.loc.function = 0
          · exact .inl (by rw [← zero])
          · exact .inr ⟨rfl, rfl, zero⟩
        · rintro (same | ⟨sameBus, sameDevice, -⟩)
          · exact ⟨congrArg PciLocation.bus same, congrArg PciLocation.device same⟩
          · exact ⟨sameBus, sameDevice⟩

/-- One pass of the outer loop of `scan` settles a bus. -/
theorem scanBus_scanned (bus : BitVec 8) (self : PciScanner) :
    ∃ next, ((List.range 32).map (BitVec.ofNat 8)).foldlM (fun self dev =>
        self.scanDevice space bus dev) self = .ok next ∧
      Scanned space (fun loc => ∃ dev ∈ (List.range 32).map (BitVec.ofNat 8),
        loc.bus = bus ∧ loc.device = dev) self next := by
  refine foldlM_settles _ (fun self dev member => ?_) self
  have onBus : dev.toNat < 32 := by
    revert dev
    decide
  exact scanDevice_scanned onBus self

/-- After a scan of a fresh scanner every slot holds what is to be found there. -/
theorem scan_functionAt (space : ConfigSpace) :
    ∃ scanner, PciScanner.new.scan space = .ok scanner ∧
      ∀ slot, scanner.functionAt slot = space.found slot.loc := by
  obtain ⟨scanner, scanned, settled⟩ := foldlM_settles ((List.range 256).map (BitVec.ofNat 8))
    (fun self bus _ => @scanBus_scanned space bus self) PciScanner.new
  refine ⟨scanner, scanned, fun slot => ?_⟩
  have fresh : PciScanner.new.functionAt slot = none := by
    simp [PciScanner.functionAt, PciScanner.new]
  have filled := (settled slot).1
    ⟨_, List.mem_map.mpr ⟨slot.1, List.mem_range.mpr slot.1.isLt, rfl⟩, _,
     List.mem_map.mpr ⟨slot.2.1, List.mem_range.mpr slot.2.1.isLt, rfl⟩, rfl, rfl⟩
  rw [filled, fresh, Option.or_none]

end Scan

/-- Every slot, in the order of the locations. -/
def slots : List Slot :=
  (List.finRange 256).flatMap fun b => (List.finRange 32).flatMap fun d =>
    (List.finRange 8).map fun f => (b, d, f)

/-- The order of bus, device and function. -/
def PciLocation.Before (loc loc' : PciLocation) : Prop :=
  loc.bus < loc'.bus ∨ loc.bus = loc'.bus ∧ (loc.device < loc'.device ∨
    loc.device = loc'.device ∧ loc.function < loc'.function)

theorem mem_slots (slot : Slot) : slot ∈ slots := by
  simp [slots]

theorem slots_ordered : slots.Pairwise fun slot slot' => slot.loc.Before slot'.loc := by
  have ascending {n : ℕ} (range : n ≤ 256) (i j : Fin n) (order : i < j) :
      BitVec.ofNat 8 i < BitVec.ofNat 8 j := by
    have below := j.isLt
    rw [Fin.lt_def] at order
    rw [BitVec.lt_def, BitVec.toNat_ofNat, BitVec.toNat_ofNat]
    omega
  refine List.pairwise_flatMap.mpr ⟨fun b _ => List.pairwise_flatMap.mpr ⟨fun d _ => ?_, ?_⟩, ?_⟩
  · rw [List.pairwise_map]
    exact (List.pairwise_lt_finRange 8).imp fun {f f'} order =>
      .inr ⟨rfl, .inr ⟨rfl, ascending (by decide) f f' order⟩⟩
  · refine (List.pairwise_lt_finRange 32).imp fun {d d'} order slot member slot' member' => ?_
    obtain ⟨f, -, rfl⟩ := List.mem_map.mp member
    obtain ⟨f', -, rfl⟩ := List.mem_map.mp member'
    exact .inr ⟨rfl, .inl (ascending (by decide) d d' order)⟩
  · refine (List.pairwise_lt_finRange 256).imp fun {b b'} order slot member slot' member' => ?_
    obtain ⟨d, -, inDevice⟩ := List.mem_flatMap.mp member
    obtain ⟨f, -, rfl⟩ := List.mem_map.mp inDevice
    obtain ⟨d', -, inDevice'⟩ := List.mem_flatMap.mp member'
    obtain ⟨f', -, rfl⟩ := List.mem_map.mp inDevice'
    exact .inl (ascending le_rfl b b' order)

theorem toList_eq_map {α : Type} {n : ℕ} (entries : Vector α n) :
    entries.toList = (List.finRange n).map entries.get := by
  apply List.ext_getElem
  · simp
  · simp [Vector.get]

theorem reduceOption_flatMap {α β : Type} {n : ℕ} (entries : Vector (Option α) n)
    (g : α → List β) : entries.toList.reduceOption.flatMap g =
      (List.finRange n).flatMap fun i => (entries.get i).elim [] g := by
  have skips (list : List (Option α)) :
      list.reduceOption.flatMap g = list.flatMap fun entry => entry.elim [] g := by
    induction list with
    | nil => rfl
    | cons entry list induction =>
        cases entry with
        | none => exact induction
        | some item =>
            rw [List.reduceOption_cons_of_some, List.flatMap_cons, List.flatMap_cons, induction]
            rfl
  rw [skips, toList_eq_map, List.flatMap_map]

theorem PciDevice.list_eq (dev : PciDevice) :
    dev.list = (List.finRange 8).filterMap fun f => dev.functions[f] := by
  rw [PciDevice.list, toList_eq_map, List.reduceOption, List.filterMap_map]
  rfl

theorem PciBus.list_eq (bus : PciBus) :
    bus.list = (List.finRange 32).flatMap fun d => (List.finRange 8).filterMap fun f =>
      bus.devices[d].bind fun dev => dev.functions[f] := by
  rw [PciBus.list, fromDevice, List.drop_zero, reduceOption_flatMap]
  refine List.flatMap_congr fun d _ => ?_
  show bus.devices[d].elim [] PciDevice.list = _
  cases bus.devices[d] with
  | none => simp
  | some dev => exact dev.list_eq

/-- The functions of a scanner are those of its slots, in order. -/
theorem PciScanner.list_eq (self : PciScanner) : self.list = slots.filterMap self.functionAt := by
  rw [PciScanner.list, fromBus, List.drop_zero, reduceOption_flatMap, slots, List.filterMap_flatMap]
  refine List.flatMap_congr fun b _ => ?_
  show self.buses[b].elim [] PciBus.list = _
  rw [List.filterMap_flatMap]
  cases found : self.buses[b] with
  | none => simp [functionAt, found]
  | some bus =>
      rw [Option.elim_some, bus.list_eq]
      refine List.flatMap_congr fun d _ => ?_
      rw [List.filterMap_map]
      refine List.filterMap_congr fun f _ => ?_
      rw [Function.comp_apply, functionAt, found, Option.bind_some]

/-- What `scan` is to find: a function with a vendor that is the first of its device, or any other
of a device whose first function is there and says that there are more. -/
structure Present (space : ConfigSpace) (loc : PciLocation) : Prop where
  valid : loc.Valid
  vendor : space.word loc 0x00#8 ≠ 0xFFFF#16
  reached : loc.function = 0 ∨ (space.word { loc with function := 0 } 0x00#8 ≠ 0xFFFF#16 ∧
    (space.byte { loc with function := 0 } 0x0E#8).getLsbD 7 = true)

/-- The functions of a configuration space, in order. -/
structure Enumerates (space : ConfigSpace) (funcs : List PciFunc) : Prop where
  present : ∀ loc, (∃ func ∈ funcs, func.loc = loc) ↔ Present space loc
  ordered : funcs.Pairwise fun func func' => func.loc.Before func'.loc
  /-- They are described by the bytes of the space. -/
  described : ∀ func ∈ funcs, Describes space func

theorem isMultiFunction_eq (headerType : BitVec 8) :
    isMultiFunction headerType = headerType.getLsbD 7 := by
  revert headerType
  decide

/-- The first function of a device is there and says that there are more. -/
theorem ConfigSpace.any_multi (space : ConfigSpace) {loc : PciLocation} (valid : loc.Valid) :
    ((space.readPciFunction loc.bus loc.device 0).any fun f0 => isMultiFunction f0.headerType) =
        true ↔
      space.word { loc with function := 0 } 0x00#8 ≠ 0xFFFF#16 ∧
        (space.byte { loc with function := 0 } 0x0E#8).getLsbD 7 = true := by
  have zero : (0 : BitVec 8).toNat < 8 := by decide
  have validFirst : PciLocation.Valid { loc with function := 0 } := ⟨valid.device, zero⟩
  rcases space.readPciFunction_spec validFirst with
    ⟨absent, vendor⟩ | ⟨f0, returned, vendor, same, described⟩
  · simp only at absent
    rw [absent, Option.any_none]
    exact ⟨fun multi => by simp at multi, fun both => absurd vendor both.1⟩
  · simp only at returned
    rw [returned, Option.any_some, isMultiFunction_eq, described.headerType, same]
    exact ⟨fun multi => ⟨vendor, multi⟩, fun both => both.2⟩

/-- The table entry of a location is a function exactly when one is present. -/
theorem ConfigSpace.found_iff (space : ConfigSpace) {loc : PciLocation} (valid : loc.Valid) :
    (∃ func, space.found loc = some func) ↔ Present space loc := by
  have multi := space.any_multi valid
  unfold ConfigSpace.found
  rcases space.readPciFunction_spec valid with
    ⟨absent, vendor⟩ | ⟨func, returned, vendor, -, -⟩
  · rw [absent, ite_self]
    exact ⟨fun ⟨_, found⟩ => by simp at found, fun present => absurd vendor present.vendor⟩
  · rw [returned]
    split_ifs with reached
    · exact ⟨fun _ => ⟨valid, vendor, reached.imp_right multi.mp⟩, fun _ => ⟨func, rfl⟩⟩
    · exact ⟨fun ⟨_, found⟩ => by simp at found,
        fun present => absurd (present.reached.imp_right multi.mpr) reached⟩

theorem ConfigSpace.of_found {space : ConfigSpace} {loc : PciLocation} (valid : loc.Valid)
    {func : PciFunc} (found : space.found loc = some func) :
    func.loc = loc ∧ Describes space func := by
  unfold ConfigSpace.found at found
  split_ifs at found
  rcases space.readPciFunction_spec valid with ⟨absent, -⟩ | ⟨func', returned, -, same, described⟩
  · simp [found] at absent
  · obtain rfl := Option.some.inj (found.symm.trans returned)
    exact ⟨same, described⟩

/-- A scan of a fresh scanner returns, and both iterators then yield the functions of the
configuration space. -/
theorem scan_enumerates (space : ConfigSpace) :
    ∃ scanner funcs, PciScanner.new.scan space = .ok scanner ∧
      Yields PciFuncIter.next scanner.iter funcs ∧
      Yields PciFuncIterMut.next scanner.iterMut funcs ∧ Enumerates space funcs := by
  obtain ⟨scanner, scanned, entries⟩ := scan_functionAt space
  refine ⟨scanner, scanner.list, scanned, scanner.iter_yields, scanner.iterMut_yields, ?_⟩
  have listed (func : PciFunc) :
      func ∈ scanner.list ↔ ∃ slot : Slot, space.found slot.loc = some func := by
    rw [scanner.list_eq, List.mem_filterMap]
    exact ⟨fun ⟨slot, _, found⟩ => ⟨slot, by rw [← entries]; exact found⟩,
      fun ⟨slot, found⟩ => ⟨slot, mem_slots slot, by rw [entries]; exact found⟩⟩
  constructor
  · intro loc
    constructor
    · rintro ⟨func, member, rfl⟩
      obtain ⟨slot, found⟩ := (listed func).mp member
      rw [(ConfigSpace.of_found slot.valid found).1]
      exact (space.found_iff slot.valid).mp ⟨func, found⟩
    · intro present
      obtain ⟨func, found⟩ := (space.found_iff present.valid).mpr present
      obtain ⟨slot, rfl⟩ := present.valid.exists_slot
      exact ⟨func, (listed func).mpr ⟨slot, found⟩, (ConfigSpace.of_found slot.valid found).1⟩
  · rw [scanner.list_eq, List.pairwise_filterMap]
    refine slots_ordered.imp fun {slot slot'} order func found func' found' => ?_
    rw [entries] at found found'
    rw [(ConfigSpace.of_found slot.valid found).1, (ConfigSpace.of_found slot'.valid found').1]
    exact order
  · intro func member
    obtain ⟨slot, found⟩ := (listed func).mp member
    exact (ConfigSpace.of_found slot.valid found).2

end Blubos
