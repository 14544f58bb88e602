import Blubos.Xhci.CommandRing
import Blubos.Xhci.EventDelivery
import Blubos.Xhci.RegisterAccess

/-!
# Calls of the controller driver

The calls that modify registers, and the status bits that they acknowledge.  A modification writes a
whole block back, so that every write-one-to-clear bit which is set when the block is read, and
still when it is written, is cleared with it.  A call acknowledges only what it is meant to exactly
when its modifications find no other such bit.
-/

namespace Blubos

/-- What `setup_op_regs` takes from elsewhere. -/
structure OpSetup where
  /-- `max_device_slots` of the capabilities. -/
  maxDeviceSlots : BitVec 8
  /-- What the page-table mapper finds for the array of device contexts. -/
  dcbaa : Option (BitVec 64)
  /-- Whether the device contexts and scratchpads could be set up, which touches no register. -/
  contexts : Except Fault Unit
  /-- `XHCI_COMMAND_RING`. -/
  commandRing : XhciCommandRing

/-- A call of the driver. -/
inductive XhciCall where
  | reset
  | start
  | setupOpRegs (setup : OpSetup)
  | setupRuntimeRegs
  | ackInterrupt (interrupter : ℕ)
  /-- `dequeue_events`, with the ring as the loop leaves it. -/
  | dequeueEvents (ring : XhciEventRing)

namespace Driver

/-- `reset`; `rounds` bounds the polling. -/
def reset (rounds : ℕ) : Driver Unit := do
  modifyOp fun op => .ok { op with usbCmd := op.usbCmd.setRun false }
  poll (do return !(← readOp).usbStatus.hostControllerHalted) rounds
  modifyOp fun op => .ok { op with usbCmd := op.usbCmd.setReset true }
  -- The reset bit is printed.
  let _ ← readOp
  poll (do
    if (← readOp).usbCmd.reset then return true
    else return (← readOp).usbStatus.controllerNotReady) rounds

/-- `start`. -/
def start (rounds : ℕ) : Driver (Except Unit Unit) := do
  modifyOp fun op => .ok { op with usbCmd := (op.usbCmd.setRun true).setInterruptEnable true }
  poll (do return (← readOp).usbStatus.hostControllerHalted) rounds
  if (← readOp).usbStatus.controllerNotReady then return .error ()
  else return .ok ()

/-- `setup_op_regs`. -/
def setupOpRegs (setup : OpSetup) : Driver Unit := do
  modifyOp fun op => do
    let physicalDcbaa ← unwrap setup.dcbaa
    .ok { op with
      configure := op.configure.setDeviceSlotsEnabled setup.maxDeviceSlots
      notificationEnable := 0xffff
      deviceContextBaseAddressArray := physicalDcbaa }
  panicking setup.contexts
  modifyOp fun op => .ok { op with
    commandRingControl :=
      (op.commandRingControl.setCommandRingPointer
        ((setup.commandRing.trbPhysicalBase >>> 6).setWidth 58)).setRingCycleState
          setup.commandRing.cycleBit }

/-- Apply a change to an interrupter; an index past the array panics. -/
def onInterrupter (interrupter : ℕ) (change : XhciInterrupterRegister → XhciInterrupterRegister)
    (runtime : XhciRuntimeRegisters) : Except Fault XhciRuntimeRegisters :=
  if range : interrupter < 1 then
    .ok { runtime with
      interrupters := runtime.interrupters.set interrupter
        (change runtime.interrupters[interrupter]) }
  else .error .outOfBounds

/-- `ack_interrupt`. -/
def ackInterrupt (interrupter : ℕ) : Driver Unit := do
  modifyOp fun op => .ok { op with usbStatus := op.usbStatus.setEventInterrupt true }
  modifyRuntime <| onInterrupter interrupter fun register =>
    { register with iman := register.iman.zeroW1c.setInterruptPending true }

/-- `setup_runtime_regs`. -/
def setupRuntimeRegs : Driver Unit := do
  modifyRuntime <| onInterrupter 0 fun register =>
    { register with iman := register.iman.setInterruptEnable true }
  ackInterrupt 0

/-- The end of `dequeue_events`, the same on both of its ways out. -/
def publishDequeuePtr (ring : XhciEventRing) : Driver Unit :=
  modifyRuntime <| onInterrupter ring.interrupterIdx fun register =>
    { register with eventRingDequeuePtr := ring.publishedPtr }

end Driver

namespace XhciCall

def run (rounds : ℕ) : XhciCall → Driver Unit
  | reset => Driver.reset rounds
  | start => do
      let _ ← Driver.start rounds
  | setupOpRegs setup => Driver.setupOpRegs setup
  | setupRuntimeRegs => Driver.setupRuntimeRegs
  | ackInterrupt interrupter => Driver.ackInterrupt interrupter
  | dequeueEvents ring => Driver.publishDequeuePtr ring

/-- The event interrupt of the status register and the pending bit of an interrupter. -/
def InterruptBit (interrupter : ℕ) : RegisterBlockName → Fin 16 → ℕ → Prop
  | .op, dword, bit => dword = usbStatusDword ∧ bit = 3
  | .runtime, dword, bit => dword.val = imanDword.val + 8 * interrupter ∧ bit = 0

/-- The busy flag of an interrupter. -/
def BusyBit (interrupter : ℕ) : RegisterBlockName → Fin 16 → ℕ → Prop
  | .op, _, _ => False
  | .runtime, dword, bit => dword.val = dequeuePtrDword.val + 8 * interrupter ∧ bit = 3

/-- The bits that a call is meant to acknowledge. -/
def Means : XhciCall → RegisterBlockName → Fin 16 → ℕ → Prop
  | ackInterrupt interrupter => InterruptBit interrupter
  | setupRuntimeRegs => InterruptBit 0
  | dequeueEvents ring => BusyBit ring.interrupterIdx
  | _ => fun _ _ _ => False

/-- The modifications of a call on given registers in a given world. -/
def modifications (call : XhciCall) (rounds : ℕ) (file : RegisterFile)
    (world : ℕ → RegisterFile → RegisterFile) : List RegisterModify :=
  (call.run rounds ⟨file, world, 0, []⟩).2.log

/-- The writes of a call clear only bits that it is meant to acknowledge. -/
def AcknowledgesOnly (call : XhciCall) (rounds : ℕ) (file : RegisterFile)
    (world : ℕ → RegisterFile → RegisterFile) : Prop :=
  ∀ modify ∈ call.modifications rounds file world, ∀ dword bit,
    modify.Clears dword bit → call.Means modify.name dword bit

/-- The modifications of a call find only such bits set, both when they read and when they write. -/
def FindsOnly (call : XhciCall) (rounds : ℕ) (file : RegisterFile)
    (world : ℕ → RegisterFile → RegisterFile) : Prop :=
  ∀ modify ∈ call.modifications rounds file world, ∀ dword bit,
    modify.Finds dword bit → call.Means modify.name dword bit

end XhciCall

/-- A modification writes back what it read in every write-one-to-clear bit besides those meant. -/
def RegisterModify.Keeps (means : RegisterBlockName → Fin 16 → ℕ → Prop) (modify : RegisterModify) :
    Prop :=
  ∀ dword bit, ((writeToClearMask modify.name).dword dword).getLsbD bit = true →
    ¬means modify.name dword bit →
    (modify.written.dword dword).getLsbD bit = (modify.seen.dword dword).getLsbD bit

theorem RegisterModify.Keeps.clears_iff {means : RegisterBlockName → Fin 16 → ℕ → Prop}
    {modify : RegisterModify} (keeps : modify.Keeps means) {dword : Fin 16} {bit : ℕ}
    (other : ¬means modify.name dword bit) :
    modify.Clears dword bit ↔ modify.Finds dword bit := by
  rw [Clears, Finds, WriteToClear.getLsbD_cleared_of_eq fun masked => keeps dword bit masked other]

namespace Driver

variable {means : RegisterBlockName → Fin 16 → ℕ → Prop}

/-- A closure on the operational registers that keeps the status register, apart from bits meant. -/
theorem Records.modifyOp {closure : XhciOpRegisters → Except Fault XhciOpRegisters}
    (status : ∀ op op', closure op = .ok op' → ∀ bit, ¬means .op usbStatusDword bit →
      op'.usbStatus.raw.getLsbD bit = op.usbStatus.raw.getLsbD bit) :
    Records (RegisterModify.Keeps means) (modifyOp closure) := by
  apply Records.modify
  intro seen present written computed dword bit masked other
  obtain ⟨op', changed, same⟩ := bind_eq_ok.mp computed
  obtain rfl := Except.ok.inj same
  obtain rfl := mask_op masked
  exact status _ _ changed bit other

/-- A change of an interrupter that keeps its pending bit and its busy flag, unless they are
meant. -/
theorem Records.modifyRuntime {interrupter : ℕ}
    {change : XhciInterrupterRegister → XhciInterrupterRegister}
    (pending : ∀ register, interrupter = 0 → ¬means .runtime imanDword 0 →
      (change register).iman.raw.getLsbD 0 = register.iman.raw.getLsbD 0)
    (busy : ∀ register, ¬means .runtime dequeuePtrDword 3 →
      (change register).eventRingDequeuePtr.raw.getLsbD 3 =
        register.eventRingDequeuePtr.raw.getLsbD 3) :
    Records (RegisterModify.Keeps means) (modifyRuntime (onInterrupter interrupter change)) := by
  apply Records.modify
  intro seen present written computed dword bit masked other
  obtain ⟨runtime', changed, same⟩ := bind_eq_ok.mp computed
  obtain rfl := Except.ok.inj same
  unfold onInterrupter at changed
  split_ifs at changed with range
  have first : interrupter = 0 := by omega
  subst first
  obtain rfl := Except.ok.inj changed
  rcases mask_runtime masked with ⟨rfl, rfl⟩ | ⟨rfl, rfl⟩
  · exact pending _ rfl other
  · have low (raw : BitVec 64) : (BitField.get 0 32 raw).getLsbD 3 = raw.getLsbD 3 := by
      rw [BitField.get, BitVec.getLsbD_extractLsb']
      rfl
    let register := (XhciRuntimeRegisters.ofDwords seen).interrupters[0]
    exact calc
      _ = (BitField.get 0 32 (change register).eventRingDequeuePtr.raw).getLsbD 3 := rfl
      _ = (change register).eventRingDequeuePtr.raw.getLsbD 3 := low _
      _ = (seen[15] ++ seen[14]).getLsbD 3 := busy register other
      _ = (BitField.get 0 32 (seen[15] ++ seen[14])).getLsbD 3 := (low _).symm
      _ = seen[14].getLsbD 3 := by rw [BitField.get_append_low]

variable (rounds : ℕ)

theorem Records.readOp {condition : RegisterModify → Prop} : Records condition readOp :=
  (Records.read .op).bind fun _ => .pure _

theorem Records.modifyUsbCmd (change : XhciUsbCmd → XhciUsbCmd) :
    Records (RegisterModify.Keeps means)
      (Driver.modifyOp fun op => .ok { op with usbCmd := change op.usbCmd }) := by
  apply Records.modifyOp
  intro op op' changed bit _
  obtain rfl := Except.ok.inj changed
  rfl

theorem reset_keeps : Records (RegisterModify.Keeps means) (reset rounds) := by
  apply (Records.modifyUsbCmd (·.setRun false)).bind
  intro _
  apply (Records.poll (Records.readOp.bind fun _ => .pure _) rounds).bind
  intro _
  apply (Records.modifyUsbCmd (·.setReset true)).bind
  intro _
  apply Records.readOp.bind
  intro _
  apply Records.poll
  apply Records.readOp.bind
  intro op
  split
  · exact .pure _
  · exact Records.readOp.bind fun _ => .pure _

theorem start_keeps : Records (RegisterModify.Keeps means) (start rounds) := by
  apply (Records.modifyUsbCmd fun usbCmd => (usbCmd.setRun true).setInterruptEnable true).bind
  intro _
  apply (Records.poll (Records.readOp.bind fun _ => .pure _) rounds).bind
  intro _
  apply Records.readOp.bind
  intro op
  split
  · exact .pure _
  · exact .pure _

theorem setupOpRegs_keeps (setup : OpSetup) :
    Records (RegisterModify.Keeps means) (setupOpRegs setup) := by
  have first : Records (RegisterModify.Keeps means) (modifyOp fun op => do
      let physicalDcbaa ← unwrap setup.dcbaa
      .ok { op with
        configure := op.configure.setDeviceSlotsEnabled setup.maxDeviceSlots
        notificationEnable := 0xffff
        deviceContextBaseAddressArray := physicalDcbaa }) := by
    apply Records.modifyOp
    intro op op' changed bit _
    obtain ⟨_, -, same⟩ := bind_eq_ok.mp changed
    obtain rfl := Except.ok.inj same
    rfl
  apply first.bind
  intro _
  apply (Records.panicking setup.contexts).bind
  intro _
  apply Records.modifyOp
  intro op op' changed bit _
  obtain rfl := Except.ok.inj changed
  rfl

/-- Acknowledging an interrupt writes ones to the bits of that interrupt. -/
theorem ackInterrupt_keeps {interrupter : ℕ} (meant : means .op usbStatusDword 3)
    (meant_pending : interrupter = 0 → means .runtime imanDword 0) :
    Records (RegisterModify.Keeps means) (ackInterrupt interrupter) := by
  have status : Records (RegisterModify.Keeps means) (modifyOp fun op =>
      .ok { op with usbStatus := op.usbStatus.setEventInterrupt true }) := by
    apply Records.modifyOp
    intro op op' changed bit other
    obtain rfl := Except.ok.inj changed
    have apart : bit ≠ 3 := by
      rintro rfl
      exact other meant
    exact BitField.flag_setFlag_of_ne apart
  apply status.bind
  intro _
  apply Records.modifyRuntime
  · intro register first other
    exact absurd (meant_pending first) other
  · intro register _
    rfl

theorem setupRuntimeRegs_keeps (meant : means .op usbStatusDword 3)
    (meant_pending : means .runtime imanDword 0) :
    Records (RegisterModify.Keeps means) setupRuntimeRegs := by
  have enable : Records (RegisterModify.Keeps means)
      (modifyRuntime <| onInterrupter 0 fun register =>
        { register with iman := register.iman.setInterruptEnable true }) := by
    apply Records.modifyRuntime
    · intro register _ other
      exact absurd meant_pending other
    · intro register _
      rfl
  apply enable.bind
  intro _
  exact ackInterrupt_keeps meant fun _ => meant_pending

theorem publishDequeuePtr_keeps {ring : XhciEventRing} (meant : means .runtime dequeuePtrDword 3) :
    Records (RegisterModify.Keeps means) (publishDequeuePtr ring) := by
  apply Records.modifyRuntime
  · intro register _ _
    rfl
  · intro register other
    exact absurd meant other

end Driver

namespace XhciCall

/-- Every modification of every call keeps the bits that the call is not meant to acknowledge. -/
theorem run_keeps (call : XhciCall) (rounds : ℕ) :
    Driver.Records (RegisterModify.Keeps call.Means) (call.run rounds) := by
  cases call with
  | reset => exact Driver.reset_keeps rounds
  | start => exact (Driver.start_keeps rounds).bind fun _ => .pure _
  | setupOpRegs setup => exact Driver.setupOpRegs_keeps setup
  | setupRuntimeRegs => exact Driver.setupRuntimeRegs_keeps ⟨rfl, rfl⟩ ⟨rfl, rfl⟩
  | ackInterrupt interrupter =>
      apply Driver.ackInterrupt_keeps
      · exact ⟨rfl, rfl⟩
      · rintro rfl
        exact ⟨rfl, rfl⟩
  | dequeueEvents ring =>
      apply Driver.publishDequeuePtr_keeps
      have first : ring.interrupterIdx.val = 0 := Nat.lt_one_iff.mp ring.interrupterIdx.isLt
      exact ⟨by rw [first]; rfl, rfl⟩

theorem keeps_of_mem {call : XhciCall} {rounds : ℕ} {file : RegisterFile}
    {world : ℕ → RegisterFile → RegisterFile} {modify : RegisterModify}
    (member : modify ∈ call.modifications rounds file world) : modify.Keeps call.Means := by
  obtain ⟨new, logged, keeps⟩ := call.run_keeps rounds ⟨file, world, 0, []⟩
  rw [modifications, logged, List.nil_append] at member
  exact keeps modify member

end XhciCall

/-- A call acknowledges only what it is meant to exactly when its modifications find no other
write-one-to-clear bit set. -/
theorem acknowledgesOnly_iff (call : XhciCall) (rounds : ℕ) (file : RegisterFile)
    (world : ℕ → RegisterFile → RegisterFile) :
    call.AcknowledgesOnly rounds file world ↔ call.FindsOnly rounds file world := by
  constructor
  · intro acknowledges modify member dword bit finds
    by_contra other
    exact other (acknowledges modify member dword bit
      (((XhciCall.keeps_of_mem member).clears_iff other).mpr finds))
  · intro finds modify member dword bit clears
    by_contra other
    exact other (finds modify member dword bit
      (((XhciCall.keeps_of_mem member).clears_iff other).mp clears))

/-- Registers with the given status and all else zero. -/
def sampleRegisters (status : BitVec 32) : RegisterFile :=
  ⟨{ XhciOpRegisters.ofDwords .zero with usbStatus := ⟨status⟩ }.toDwords, .zero⟩

/-- `start` acknowledges a pending port change. -/
theorem acknowledgesOnly_false :
    ¬∀ (call : XhciCall) (rounds : ℕ) (file : RegisterFile)
      (world : ℕ → RegisterFile → RegisterFile),
      call.AcknowledgesOnly rounds file world := by
  intro acknowledges
  have cleared : ((XhciCall.start.modifications 1 (sampleRegisters 0x10) fun _ file => file).any
      fun modify => decide (modify.Clears usbStatusDword 4)) = true := by decide +kernel
  obtain ⟨modify, member, clears⟩ := List.any_eq_true.mp cleared
  exact acknowledges _ _ _ _ modify member usbStatusDword 4 (of_decide_eq_true clears)

end Blubos
