import Blubos.Foundation.Iteration
import Blubos.Machine
import Blubos.Pci.Config

/-!
# The PCI scanner

`scan` probes every device of every bus and fills a table of three levels, which `iter` and
`iter_mut` walk with the indices at which they stopped.  Both walk the table in the order of the
locations; they differ in when they go back to function zero.
-/

namespace Blubos

/-- `PciDevice`. -/
structure PciDevice where
  functions : Vector (Option PciFunc) 8

/-- `PciBus`. -/
structure PciBus where
  devices : Vector (Option PciDevice) 32

/-- `PciScanner`. -/
structure PciScanner where
  buses : Vector (Option PciBus) 256

/-- `PciDevice::default`. -/
def PciDevice.default : PciDevice := ⟨.replicate 8 none⟩

/-- `PciBus::default`. -/
def PciBus.default : PciBus := ⟨.replicate 32 none⟩

namespace PciScanner

/-- `PciScanner::new`. -/
def new : PciScanner := ⟨.replicate 256 none⟩

/-- `add_function`: the function that was stored and the scanner that has it. -/
def addFunction (self : PciScanner) (func : PciFunc) : Except Fault (PciFunc × PciScanner) :=
  let b := func.loc.bus.toNat
  let d := func.loc.device.toNat
  let f := func.loc.function.toNat
  if inRange : b < 256 ∧ d < 32 ∧ f < 8 then
    let bus := self.buses[b].getD PciBus.default
    let dev := bus.devices[d].getD PciDevice.default
    let dev : PciDevice := ⟨dev.functions.set f (some func)⟩
    let bus : PciBus := ⟨bus.devices.set d (some dev)⟩
    .ok (func, ⟨self.buses.set b (some bus)⟩)
  else
    .error .assertion

/-- The body of the two outer loops of `scan`. -/
def scanDevice (space : ConfigSpace) (self : PciScanner) (bus dev : BitVec 8) :
    Except Fault PciScanner :=
  match space.readPciFunction bus dev 0 with
  | none => .ok self
  | some f => do
      let (f0, self) ← self.addFunction f
      if isMultiFunction f0.headerType then
        ((List.range' 1 7).map (BitVec.ofNat 8)).foldlM (fun self func =>
          match space.readPciFunction bus dev func with
          | some f => do
              let (_, self) ← self.addFunction f
              .ok self
          | none => .ok self) self
      else
        .ok self

/-- `scan`. -/
def scan (space : ConfigSpace) (self : PciScanner) : Except Fault PciScanner :=
  ((List.range 256).map (BitVec.ofNat 8)).foldlM (fun self bus =>
    ((List.range 32).map (BitVec.ofNat 8)).foldlM (fun self dev =>
      self.scanDevice space bus dev) self) self

end PciScanner

/-- The innermost loop of both iterators. -/
def nextFunction (functions : Vector (Option PciFunc) 8) (f : ℕ) : Option PciFunc × ℕ :=
  if inRange : f < 8 then
    match functions[f] with
    | some func => (some func, f + 1)
    | none => nextFunction functions (f + 1)
  else
    (none, f)
termination_by 8 - f

/-- `PciFuncIter`. -/
structure PciFuncIter where
  buses : Vector (Option PciBus) 256
  b : ℕ
  d : ℕ
  f : ℕ

namespace PciFuncIter

/-- The loop over the devices of a bus: an absent device leaves `f` alone. -/
def nextDevice (devices : Vector (Option PciDevice) 32) (d f : ℕ) : Option PciFunc × ℕ × ℕ :=
  if inRange : d < 32 then
    match devices[d] with
    | some dev =>
        match nextFunction dev.functions f with
        | (some func, f) => (some func, d, f)
        | (none, _) => nextDevice devices (d + 1) 0
    | none => nextDevice devices (d + 1) f
  else
    (none, d, f)
termination_by 32 - d

/-- The loop over the buses. -/
def nextBus (buses : Vector (Option PciBus) 256) (b d f : ℕ) : Option PciFunc × ℕ × ℕ × ℕ :=
  if inRange : b < 256 then
    match buses[b] with
    | some bus =>
        match nextDevice bus.devices d f with
        | (some func, d, f) => (some func, b, d, f)
        | (none, _, _) => nextBus buses (b + 1) 0 0
    | none => nextBus buses (b + 1) 0 0
  else
    (none, b, d, f)
termination_by 256 - b

/-- `PciFuncIter::next`. -/
def next (self : PciFuncIter) : Option PciFunc × PciFuncIter :=
  let (func, b, d, f) := nextBus self.buses self.b self.d self.f
  (func, { self with b := b, d := d, f := f })

end PciFuncIter

/-- `PciFuncIterMut`. -/
structure PciFuncIterMut where
  buses : Vector (Option PciBus) 256
  b : ℕ
  d : ℕ
  f : ℕ

namespace PciFuncIterMut

/-- The loop over the devices of a bus: every step to a device goes back to function zero. -/
def nextDevice (devices : Vector (Option PciDevice) 32) (d f : ℕ) : Option PciFunc × ℕ × ℕ :=
  if inRange : d < 32 then
    match devices[d] with
    | none => nextDevice devices (d + 1) 0
    | some dev =>
        match nextFunction dev.functions f with
        | (some func, f) => (some func, d, f)
        | (none, _) => nextDevice devices (d + 1) 0
  else
    (none, d, f)
termination_by 32 - d

/-- The loop over the buses. -/
def nextBus (buses : Vector (Option PciBus) 256) (b d f : ℕ) : Option PciFunc × ℕ × ℕ × ℕ :=
  if inRange : b < 256 then
    match buses[b] with
    | none => nextBus buses (b + 1) 0 0
    | some bus =>
        match nextDevice bus.devices d f with
        | (some func, d, f) => (some func, b, d, f)
        | (none, _, _) => nextBus buses (b + 1) 0 0
  else
    (none, b, d, f)
termination_by 256 - b

/-- `PciFuncIterMut::next`. -/
def next (self : PciFuncIterMut) : Option PciFunc × PciFuncIterMut :=
  let (func, b, d, f) := nextBus self.buses self.b self.d self.f
  (func, { self with b := b, d := d, f := f })

end PciFuncIterMut

/-- `iter`. -/
def PciScanner.iter (self : PciScanner) : PciFuncIter := ⟨self.buses, 0, 0, 0⟩

/-- `iter_mut`. -/
def PciScanner.iterMut (self : PciScanner) : PciFuncIterMut := ⟨self.buses, 0, 0, 0⟩

end Blubos
