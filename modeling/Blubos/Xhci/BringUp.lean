import Blubos.Foundation.Triple
import Blubos.Xhci.Controller

/-!
# Bringing a controller up

What `kernel_main` does for every xHCI function it finds.  `XHCI_CONTROLLER` and the two rings are
made by the first one; for each later one the driver goes through all the steps again, on the
registers of the first.  The controller is a world that keeps the promises of its specification: it
does not start or reset itself, stays halted as long as it is not run, stays ready as long as it is
not reset, and keeps what the driver configures.
-/

namespace Blubos

/-! ## The loop of the kernel -/

/-- What the loop leaves in statics, and the answers of `start` that it prints. -/
structure XhciStatics where
  /-- `XHCI_COMMAND_RING`. -/
  commandRing : Option XhciCommandRing
  /-- `XHCI_EVENT_RING`. -/
  eventRing : Option XhciEventRing
  /-- The answers of `start`. -/
  started : List (Except Unit Unit)

/-- The memory that `XhciEventRing::init_ring` allocates. -/
structure EventRingMemory where
  /-- Physical address of the ring. -/
  segment : ℕ
  aligned : 64 ∣ segment
  /-- It does not wrap round the address space. -/
  fits : segment + 16 * XhciEventRing.segmentSize < 2 ^ 64
  /-- Physical address of the segment table. -/
  segmentTable : BitVec 64

def EventRingMemory.ring (memory : EventRingMemory) : XhciEventRing :=
  .initRing memory.segment memory.aligned memory.fits

/-- What one pass of the loop takes from elsewhere, each of which may panic, and how long it
polls. -/
structure BringUpPass where
  /-- The mapping of the registers and `XhciController::new`. -/
  mapped : Except Halt Unit
  /-- How often the loops of `reset` look. -/
  resetRounds : ℕ
  /-- The call of `wait_ms` in `reset`. -/
  rested : Except Halt Unit
  /-- Physical address of the command ring that is allocated. -/
  commandRing : Except Halt (BitVec 64)
  /-- Whether the device contexts and scratchpads could be set up. -/
  contexts : Except Fault Unit
  eventRing : Except Halt EventRingMemory
  /-- How often the loop of `start` looks, before it is left or a `wait_ms` in it is not. -/
  startRounds : ℕ

/-- A pass that gets all it takes from elsewhere. -/
structure ServedPass extends BringUpPass where
  commandBase : BitVec 64
  memory : EventRingMemory
  mapped_ok : mapped = .ok ()
  rested_ok : rested = .ok ()
  commandRing_ok : commandRing = .ok commandBase
  contexts_ok : contexts = .ok ()
  eventRing_ok : eventRing = .ok memory

theorem ServedPass.toBringUpPass_injective : Function.Injective toBringUpPass := by
  rintro ⟨pass, base, memory, _, _, commandRing, _, eventRing⟩
    ⟨_, base', memory', _, _, commandRing', _, eventRing'⟩ rfl
  obtain rfl := Except.ok.inj (commandRing.symm.trans commandRing')
  obtain rfl := Except.ok.inj (eventRing.symm.trans eventRing')
  rfl

namespace Driver

/-- The register access of `XhciEventRing::init_ring`. -/
def initEventRing (ring : XhciEventRing) (segmentTable : BitVec 64) : Driver Unit :=
  modifyRuntime <| onInterrupter 0 fun interrupter => { interrupter with
    erstSize := 1
    eventRingDequeuePtr :=
      (XhciEventRingDequeuePtr.fromPtr (.ofNat 64 ring.trbs.physicalAddr)).withHandlerBusy true
    eventRingSegmentTableAddress := segmentTable }

/-- What the driver does outside the registers. -/
def elsewhere {α : Type} (outcome : Except Halt α) : Driver α := fun bus => (outcome, bus)

/-- A pass of the loop of `kernel_main`, with the reads that it prints.  A ring that exists already
stays, and the one of this pass is dropped. -/
def bringUp (maxDeviceSlots : BitVec 8) (dcbaa : Option (BitVec 64)) (statics : XhciStatics)
    (pass : BringUpPass) : Driver XhciStatics := do
  elsewhere pass.mapped
  reset pass.resetRounds
  -- The last thing in `reset` is to wait.
  elsewhere pass.rested
  let commandBase ← elsewhere pass.commandRing
  let commandRing := statics.commandRing.getD (.initRing commandBase)
  setupOpRegs ⟨maxDeviceSlots, dcbaa, pass.contexts, commandRing⟩
  let _ ← read .op
  setupRuntimeRegs
  let memory ← elsewhere pass.eventRing
  initEventRing memory.ring memory.segmentTable
  let eventRing := statics.eventRing.getD memory.ring
  let _ ← read .op
  let _ ← read .runtime
  let result ← start pass.startRounds
  let _ ← read .op
  return ⟨some commandRing, some eventRing, statics.started ++ [result]⟩

/-- The loop, with the passes in the order of the functions. -/
def bringUpAll (maxDeviceSlots : BitVec 8) (dcbaa : Option (BitVec 64)) (statics : XhciStatics) :
    List BringUpPass → Driver XhciStatics
  | [] => pure statics
  | pass :: passes => do
      let statics ← bringUp maxDeviceSlots dcbaa statics pass
      bringUpAll maxDeviceSlots dcbaa statics passes

end Driver

def XhciStatics.new : XhciStatics := ⟨none, none, []⟩

def XhciStatics.after (statics : XhciStatics) (pass : ServedPass) : XhciStatics :=
  ⟨some (statics.commandRing.getD (.initRing pass.commandBase)),
    some (statics.eventRing.getD pass.memory.ring), statics.started ++ [.ok ()]⟩

/-! ## What the registers say -/

/-- The device contexts that the controller uses. -/
structure DeviceConfig where
  slots : BitVec 8
  /-- The array of contexts, without the six reserved bits of the register. -/
  dcbaa : BitVec 58
deriving DecidableEq

/-- The event ring that the controller uses. -/
structure RingConfig where
  size : BitVec 16
  /-- The segment table, without the six reserved bits of the register. -/
  table : BitVec 58
  /-- The dequeue pointer, without its four low bits. -/
  dequeue : BitVec 60
deriving DecidableEq

def XhciOpRegisters.deviceConfig (op : XhciOpRegisters) : DeviceConfig :=
  ⟨BitField.get 0 8 op.configure.raw, BitField.get 6 58 op.deviceContextBaseAddressArray⟩

/-- The device contexts that `setup_op_regs` publishes. -/
def OpSetup.deviceConfig (setup : OpSetup) : DeviceConfig :=
  ⟨setup.maxDeviceSlots, BitField.get 6 58 (setup.dcbaa.getD 0)⟩

def XhciInterrupterRegister.ringConfig (interrupter : XhciInterrupterRegister) : RingConfig :=
  ⟨BitField.get 0 16 interrupter.erstSize,
    BitField.get 6 58 interrupter.eventRingSegmentTableAddress,
    interrupter.eventRingDequeuePtr.dequeuePtr⟩

def EventRingMemory.ringConfig (memory : EventRingMemory) : RingConfig :=
  ⟨1, BitField.get 6 58 memory.segmentTable, memory.ring.getDequeuePtr.dequeuePtr⟩

namespace RegisterBlock

/-- Run/stop, of the operational registers. -/
def run (op : RegisterBlock) : Bool := BitField.flag 0 (XhciOpRegisters.ofDwords op).usbCmd.raw

/-- A reset is under way, of the operational registers. -/
def resetting (op : RegisterBlock) : Bool := (XhciOpRegisters.ofDwords op).usbCmd.reset

/-- The controller is halted, of the operational registers. -/
def halted (op : RegisterBlock) : Bool :=
  (XhciOpRegisters.ofDwords op).usbStatus.hostControllerHalted

/-- The controller is not ready, of the operational registers. -/
def notReady (op : RegisterBlock) : Bool :=
  (XhciOpRegisters.ofDwords op).usbStatus.controllerNotReady

/-- The controller may be configured. -/
structure Calm (op : RegisterBlock) : Prop where
  resetting : op.resetting = false
  ready : op.notReady = false

/-- The device contexts, of the operational registers. -/
def deviceConfig (op : RegisterBlock) : DeviceConfig := (XhciOpRegisters.ofDwords op).deviceConfig

/-- The command ring control, of the operational registers. -/
def commandRing (op : RegisterBlock) : BitVec 64 :=
  (XhciOpRegisters.ofDwords op).commandRingControl.raw

/-- The event ring, of the runtime registers. -/
def ringConfig (runtime : RegisterBlock) : RingConfig :=
  ((XhciRuntimeRegisters.ofDwords runtime).interrupters.get ⟨0, Nat.one_pos⟩).ringConfig

end RegisterBlock

/-- What a controller does by itself. -/
structure Obeys (world : ℕ → RegisterFile → RegisterFile) : Prop where
  run : ∀ time file, (world time file).op.run = true → file.op.run = true
  resetting : ∀ time file, (world time file).op.resetting = true → file.op.resetting = true
  /-- Halted and not run, it stays halted from one access to the next. -/
  halted : ∀ time file, (world time file).op.halted = true → (world time file).op.run = false →
    (world (time + 1) (world time file)).op.halted = true
  ready : ∀ time file, file.op.Calm → (world time file).op.notReady = false
  deviceConfig : ∀ time file, file.op.Calm →
    (world time file).op.deviceConfig = file.op.deviceConfig
  ringConfig : ∀ time file, file.op.Calm →
    (world time file).runtime.ringConfig = file.runtime.ringConfig

theorem Obeys.calm {world : ℕ → RegisterFile → RegisterFile} (obeys : Obeys world) {time : ℕ}
    {file : RegisterFile} (calm : file.op.Calm) : (world time file).op.Calm where
  resetting := by
    have stays := obeys.resetting time file
    rw [calm.resetting] at stays
    exact Bool.eq_false_iff.mpr fun begins => absurd (stays begins) Bool.false_ne_true
  ready := obeys.ready time file calm

theorem Obeys.stopped {world : ℕ → RegisterFile → RegisterFile} (obeys : Obeys world) {time : ℕ}
    {file : RegisterFile} (stopped : file.op.run = false) : (world time file).op.run = false := by
  have stays := obeys.run time file
  rw [stopped] at stays
  exact Bool.eq_false_iff.mpr fun starts => absurd (stays starts) Bool.false_ne_true

namespace RegisterModify

/-- A bit that is not cleared by writing ones takes what is written. -/
theorem getLsbD_after {modify : RegisterModify} {dword : Fin 16} {bit : ℕ} (below : bit < 32)
    (plain : ((writeToClearMask modify.name).dword dword).getLsbD bit = false) :
    (modify.after.dword dword).getLsbD bit = (modify.written.dword dword).getLsbD bit := by
  rw [after, RegisterBlock.dword, Fin.getElem_fin, Vector.getElem_ofFn, WriteToClear.write]
  simp only [Fin.eta, BitVec.getLsbD_or, BitVec.getLsbD_and, BitVec.getLsbD_not, plain, below,
    decide_true, Bool.false_and, Bool.false_or, Bool.not_false, Bool.true_and]

theorem dword_after {modify : RegisterModify} {dword : Fin 16}
    (plain : ∀ bit, ((writeToClearMask modify.name).dword dword).getLsbD bit = false) :
    modify.after.dword dword = modify.written.dword dword :=
  BitVec.eq_of_getLsbD_eq fun bit below => getLsbD_after below (plain bit)

/-- What the operational registers say after a write is what was written. -/
structure Takes (modify : RegisterModify) : Prop where
  run : modify.after.run = modify.written.run
  resetting : modify.after.resetting = modify.written.resetting
  notReady : modify.after.notReady = modify.written.notReady
  deviceConfig : modify.after.deviceConfig = modify.written.deviceConfig

theorem takes {modify : RegisterModify} (op : modify.name = .op) : modify.Takes := by
  have plain {dword : Fin 16} (other : dword ≠ usbStatusDword) :
      modify.after.dword dword = modify.written.dword dword := by
    refine dword_after fun bit => Bool.eq_false_iff.mpr fun masked => other ?_
    rw [op] at masked
    exact mask_op masked
  have command : modify.after.dword 0 = modify.written.dword 0 := plain (by decide)
  have status : (modify.after.dword usbStatusDword).getLsbD 11 =
      (modify.written.dword usbStatusDword).getLsbD 11 := by
    refine getLsbD_after (by decide) ?_
    rw [op]
    decide +kernel
  have low : modify.after.dword 12 = modify.written.dword 12 := plain (by decide)
  have high : modify.after.dword 13 = modify.written.dword 13 := plain (by decide)
  have configure : modify.after.dword 14 = modify.written.dword 14 := plain (by decide)
  constructor
  · exact congrArg (BitField.flag 0) command
  · exact congrArg (BitField.flag 1) command
  · exact status
  · change DeviceConfig.mk (BitField.get 0 8 (modify.after.dword 14))
      (BitField.get 6 58 (modify.after.dword 13 ++ modify.after.dword 12)) = _
    rw [low, high, configure]
    rfl

/-- The event ring that the runtime registers name after a write is the one written. -/
theorem ringConfig_after {modify : RegisterModify} (runtime : modify.name = .runtime) :
    modify.after.ringConfig = modify.written.ringConfig := by
  have plain {dword : Fin 16} (iman : dword ≠ imanDword) (pointer : dword ≠ dequeuePtrDword) :
      modify.after.dword dword = modify.written.dword dword := by
    refine dword_after fun bit => Bool.eq_false_iff.mpr fun masked => ?_
    rw [runtime] at masked
    rcases mask_runtime masked with ⟨same, -⟩ | ⟨same, -⟩
    · exact iman same
    · exact pointer same
  have size : modify.after.dword 10 = modify.written.dword 10 := plain (by decide) (by decide)
  have low : modify.after.dword 12 = modify.written.dword 12 := plain (by decide) (by decide)
  have high : modify.after.dword 13 = modify.written.dword 13 := plain (by decide) (by decide)
  have top : modify.after.dword 15 = modify.written.dword 15 := plain (by decide) (by decide)
  -- The busy flag shares its dword with the pointer.
  have pointer : BitField.get 4 60 (modify.after.dword 15 ++ modify.after.dword dequeuePtrDword) =
      BitField.get 4 60 (modify.written.dword 15 ++ modify.written.dword dequeuePtrDword) := by
    refine BitVec.eq_of_getLsbD_eq fun bit below => ?_
    rw [top, BitField.getLsbD_get, BitField.getLsbD_get, BitVec.getLsbD_append,
      BitVec.getLsbD_append]
    by_cases inside : 4 + bit < 32
    · rw [getLsbD_after inside]
      refine Bool.eq_false_iff.mpr fun masked => ?_
      rw [runtime] at masked
      rcases mask_runtime masked with ⟨same, -⟩ | ⟨-, same⟩
      · exact absurd same (by decide)
      · omega
    · rw [if_neg inside, if_neg inside]
  change RingConfig.mk (BitField.get 0 16 (modify.after.dword 10))
    (BitField.get 6 58 (modify.after.dword 13 ++ modify.after.dword 12))
    (BitField.get 4 60 (modify.after.dword 15 ++ modify.after.dword dequeuePtrDword)) = _
  rw [size, low, high, pointer]
  rfl

end RegisterModify

theorem XhciOpRegisters.deviceConfig_toDwords (op : XhciOpRegisters) :
    op.toDwords.deviceConfig = op.deviceConfig := by
  change DeviceConfig.mk (BitField.get 0 8 op.configure.raw)
    (BitField.get 6 58 (BitField.get 32 32 op.deviceContextBaseAddressArray ++
      BitField.get 0 32 op.deviceContextBaseAddressArray)) = _
  rw [BitField.append_get]
  rfl

theorem XhciOpRegisters.commandRing_toDwords (op : XhciOpRegisters) :
    op.toDwords.commandRing = op.commandRingControl.raw := BitField.append_get _

theorem XhciRuntimeRegisters.ringConfig_toDwords (runtime : XhciRuntimeRegisters) :
    runtime.toDwords.ringConfig = (runtime.interrupters.get ⟨0, Nat.one_pos⟩).ringConfig := by
  change RingConfig.mk (BitField.get 0 16 runtime.interrupters[0].erstSize)
    (BitField.get 6 58
      (BitField.get 32 32 runtime.interrupters[0].eventRingSegmentTableAddress ++
        BitField.get 0 32 runtime.interrupters[0].eventRingSegmentTableAddress))
    (BitField.get 4 60 (BitField.get 32 32 runtime.interrupters[0].eventRingDequeuePtr.raw ++
      BitField.get 0 32 runtime.interrupters[0].eventRingDequeuePtr.raw)) = _
  rw [BitField.append_get, BitField.append_get]
  rfl

/-! ## Programs of the driver -/

namespace Driver

variable {α β : Type} {before : RegisterBus → Prop} {stopped : RegisterBus → Prop}

/-- A triple for a program of the driver. -/
abbrev Triple (before : RegisterBus → Prop) (program : Driver α) (after : α → RegisterBus → Prop)
    (stopped : RegisterBus → Prop) : Prop :=
  Attempt.Triple before program after stopped

theorem bind_triple {first : Driver α} {next : α → Driver β} {after : α → RegisterBus → Prop}
    {later : β → RegisterBus → Prop} (triple : Triple before first after stopped)
    (second : ∀ value, Triple (after value) (next value) later stopped) :
    Triple before (first >>= next) later stopped := by
  have sequence : (first >>= next) = Attempt.andThen first next := by
    funext bus
    unfold Attempt.andThen
    dsimp only [Bind.bind]
    rcases first bus with ⟨_ | _, _⟩ <;> rfl
  rw [Triple, sequence]
  exact Attempt.Triple.andThen triple second

/-- The bus after a modification was written. -/
def record (bus : RegisterBus) (modify : RegisterModify) : RegisterBus :=
  { bus with file := bus.file.set modify.name modify.after, log := bus.log ++ [modify] }

theorem modify_triple {name : RegisterBlockName}
    {closure : RegisterBlock → Except Fault RegisterBlock} {after : RegisterBus → Prop}
    (fails : ∀ bus fault, before bus → closure ((settle bus).file.get name) = .error fault →
      stopped (settle bus))
    (writes : ∀ bus written, before bus → closure ((settle bus).file.get name) = .ok written →
      after (record (settle (settle bus)) ⟨name, (settle bus).file.get name,
        (settle (settle bus)).file.get name, written⟩)) :
    Triple before (modify name closure) (fun _ => after) stopped := by
  intro bus holds
  rw [modify]
  dsimp only
  cases computed : closure ((settle bus).file.get name) with
  | error fault => exact fails bus fault holds computed
  | ok written => exact writes bus written holds computed

theorem elsewhere_triple {outcome : Except Halt α}
    (fails : ∀ halt, outcome = .error halt → ∀ bus, before bus → stopped bus) :
    Triple before (elsewhere outcome) (fun value bus => outcome = .ok value ∧ before bus)
      stopped := by
  intro bus holds
  rw [elsewhere]
  cases outcome with
  | error halt => exact fails halt rfl bus holds
  | ok value => exact ⟨rfl, holds⟩

theorem poll_returns {busy : Driver Bool} {after : RegisterBus → Prop}
    {within : ℕ → RegisterBus → Prop}
    (round : ∀ n, Triple (within n) busy
      (fun waits bus => if waits then ∃ m < n, within m bus else after bus) stopped)
    {n rounds : ℕ} (enough : n < rounds) :
    Triple (within n) (poll busy rounds) (fun _ => after) stopped := by
  induction rounds generalizing n with
  | zero => exact absurd enough (Nat.not_lt_zero n)
  | succ rounds induction =>
      apply bind_triple (round n)
      intro waits
      cases waits with
      | true =>
          rintro bus ⟨m, less, holds⟩
          exact induction (by omega) bus holds
      | false => exact fun bus holds => holds

end Driver

/-- What holds of the modifications of a driver that publishes certain device contexts. -/
structure Orderly (device : DeviceConfig) (log : List RegisterModify) : Prop where
  halted : ∀ modify ∈ log, modify.name = .op → modify.written.resetting = true →
    modify.seen.resetting = true ∨ modify.present.halted = true
  /-- Once it was reset, only a ready controller is written. -/
  ready : ∀ modify ∈ log.drop 2, modify.name = .op → modify.present.Calm
  /-- Only a controller that has its device contexts is run, with the command ring that it shows. -/
  run : ∀ modify ∈ log, modify.name = .op → modify.written.run = true →
    modify.present.deviceConfig = device ∧ modify.written.commandRing = modify.seen.commandRing

theorem Orderly.nil {device : DeviceConfig} : Orderly device [] := ⟨by simp, by simp, by simp⟩

theorem Orderly.append {device : DeviceConfig} {log : List RegisterModify}
    (orderly : Orderly device log) {modify : RegisterModify}
    (halted : modify.name = .op → modify.written.resetting = true →
      modify.seen.resetting = true ∨ modify.present.halted = true)
    (ready : 2 ≤ log.length → modify.name = .op → modify.present.Calm)
    (run : modify.name = .op → modify.written.run = true →
      modify.present.deviceConfig = device ∧
        modify.written.commandRing = modify.seen.commandRing) :
    Orderly device (log ++ [modify]) where
  halted := by
    intro other member
    rcases List.mem_append.mp member with old | last
    · exact orderly.halted other old
    · obtain rfl := List.mem_singleton.mp last
      exact halted
  ready := by
    intro other member
    rw [List.drop_append] at member
    rcases List.mem_append.mp member with old | last
    · exact orderly.ready other old
    · obtain rfl := List.mem_singleton.mp (List.mem_of_mem_drop last)
      have some : 0 < ([other].drop (2 - log.length)).length := List.length_pos_of_mem last
      rw [List.length_drop, List.length_singleton] at some
      exact ready (by omega)
  run := by
    intro other member
    rcases List.mem_append.mp member with old | last
    · exact orderly.run other old
    · obtain rfl := List.mem_singleton.mp last
      exact run

end Blubos
