import Blubos.Foundation.BitField
import Mathlib.Tactic.IntervalCases

/-!
# Registers of the host controller

The two register blocks that the driver modifies, field by field, and their images in memory as
sixteen dwords.
-/

namespace Blubos

/-- `XhciUsbCmd`. -/
structure XhciUsbCmd where
  raw : BitVec 32
deriving DecidableEq

namespace XhciUsbCmd

def setRun (register : XhciUsbCmd) (value : Bool) : XhciUsbCmd :=
  ⟨BitField.setFlag 0 value register.raw⟩

def reset (register : XhciUsbCmd) : Bool := BitField.flag 1 register.raw

def setReset (register : XhciUsbCmd) (value : Bool) : XhciUsbCmd :=
  ⟨BitField.setFlag 1 value register.raw⟩

def setInterruptEnable (register : XhciUsbCmd) (value : Bool) : XhciUsbCmd :=
  ⟨BitField.setFlag 2 value register.raw⟩

end XhciUsbCmd

/-- `XhciUsbStatus`. -/
structure XhciUsbStatus where
  raw : BitVec 32
deriving DecidableEq

namespace XhciUsbStatus

def hostControllerHalted (register : XhciUsbStatus) : Bool := BitField.flag 0 register.raw

def setHostSystemError (register : XhciUsbStatus) (value : Bool) : XhciUsbStatus :=
  ⟨BitField.setFlag 2 value register.raw⟩

def setEventInterrupt (register : XhciUsbStatus) (value : Bool) : XhciUsbStatus :=
  ⟨BitField.setFlag 3 value register.raw⟩

def setPortChanged (register : XhciUsbStatus) (value : Bool) : XhciUsbStatus :=
  ⟨BitField.setFlag 4 value register.raw⟩

def setSaveRestoreError (register : XhciUsbStatus) (value : Bool) : XhciUsbStatus :=
  ⟨BitField.setFlag 10 value register.raw⟩

def controllerNotReady (register : XhciUsbStatus) : Bool := BitField.flag 11 register.raw

/-- `zero_w1c`. -/
def zeroW1c (register : XhciUsbStatus) : XhciUsbStatus :=
  register
    |>.setHostSystemError false
    |>.setEventInterrupt false
    |>.setPortChanged false
    |>.setSaveRestoreError false

end XhciUsbStatus

/-- `XhciCommandRingControl`. -/
structure XhciCommandRingControl where
  raw : BitVec 64
deriving DecidableEq

namespace XhciCommandRingControl

def setRingCycleState (register : XhciCommandRingControl) (value : Bool) : XhciCommandRingControl :=
  ⟨BitField.setFlag 0 value register.raw⟩

def setCommandRingPointer (register : XhciCommandRingControl) (value : BitVec 58) :
    XhciCommandRingControl := ⟨BitField.set 6 value register.raw⟩

end XhciCommandRingControl

/-- `XhciConfigure`. -/
structure XhciConfigure where
  raw : BitVec 32
deriving DecidableEq

def XhciConfigure.setDeviceSlotsEnabled (register : XhciConfigure) (value : BitVec 8) :
    XhciConfigure := ⟨BitField.set 0 value register.raw⟩

/-- `XhciInterrupterManagement`. -/
structure XhciInterrupterManagement where
  raw : BitVec 32
deriving DecidableEq

namespace XhciInterrupterManagement

def setInterruptPending (register : XhciInterrupterManagement) (value : Bool) :
    XhciInterrupterManagement := ⟨BitField.setFlag 0 value register.raw⟩

def setInterruptEnable (register : XhciInterrupterManagement) (value : Bool) :
    XhciInterrupterManagement := ⟨BitField.setFlag 1 value register.raw⟩

/-- `zero_w1c`. -/
def zeroW1c (register : XhciInterrupterManagement) : XhciInterrupterManagement :=
  register.setInterruptPending false

end XhciInterrupterManagement

/-- `XhciInterrupterModeration`. -/
structure XhciInterrupterModeration where
  raw : BitVec 32
deriving DecidableEq

/-- `XhciEventRingDequeuePtr`. -/
structure XhciEventRingDequeuePtr where
  raw : BitVec 64
deriving DecidableEq

namespace XhciEventRingDequeuePtr

/-- `new`: all bits are zero. -/
def new : XhciEventRingDequeuePtr := ⟨0⟩

def dequeuePtr (pointer : XhciEventRingDequeuePtr) : BitVec 60 := BitField.get 4 60 pointer.raw

def withDequeuePtr (pointer : XhciEventRingDequeuePtr) (value : BitVec 60) :
    XhciEventRingDequeuePtr := ⟨BitField.set 4 value pointer.raw⟩

def withHandlerBusy (pointer : XhciEventRingDequeuePtr) (bit : Bool) : XhciEventRingDequeuePtr :=
  ⟨BitField.setFlag 3 bit pointer.raw⟩

def setHandlerBusy (pointer : XhciEventRingDequeuePtr) (bit : Bool) : XhciEventRingDequeuePtr :=
  ⟨BitField.setFlag 3 bit pointer.raw⟩

/-- `zero_w1c`. -/
def zeroW1c (pointer : XhciEventRingDequeuePtr) : XhciEventRingDequeuePtr :=
  pointer.setHandlerBusy false

/-- `from_ptr`: the four low bits of the address are dropped, so that the value fits. -/
def fromPtr (ptr : BitVec 64) : XhciEventRingDequeuePtr :=
  new.withDequeuePtr ((ptr >>> 4).setWidth 60)

/-- The address that the controller reads from the register. -/
def address (pointer : XhciEventRingDequeuePtr) : ℕ := 16 * pointer.dequeuePtr.toNat

@[simp] theorem address_withHandlerBusy (pointer : XhciEventRingDequeuePtr) (bit : Bool) :
    (pointer.withHandlerBusy bit).address = pointer.address := by
  rw [address, address, dequeuePtr, dequeuePtr, withHandlerBusy,
    BitField.get_setFlag_of_apart (by decide)]

theorem address_fromPtr {ptr : ℕ} (aligned : 16 ∣ ptr) (range : ptr < 2 ^ 64) :
    (fromPtr (BitVec.ofNat 64 ptr)).address = ptr := by
  obtain ⟨index, rfl⟩ := aligned
  rw [address, dequeuePtr, fromPtr, withDequeuePtr, BitField.get_set (by decide),
    BitVec.toNat_setWidth, BitVec.toNat_ushiftRight, BitVec.toNat_ofNat, Nat.shiftRight_eq_div_pow]
  omega

end XhciEventRingDequeuePtr

/-! ## Register blocks -/

/-- `XhciOpRegisters`. -/
structure XhciOpRegisters where
  usbCmd : XhciUsbCmd
  usbStatus : XhciUsbStatus
  pageSize : BitVec 32
  r1 : Vector (BitVec 32) 2
  notificationEnable : BitVec 16
  r2 : BitVec 16
  commandRingControl : XhciCommandRingControl
  r3 : Vector (BitVec 32) 4
  deviceContextBaseAddressArray : BitVec 64
  configure : XhciConfigure
  /-- The last four bytes, which the alignment of the structure adds. -/
  padding : BitVec 32

/-- `XhciInterrupterRegister`. -/
structure XhciInterrupterRegister where
  iman : XhciInterrupterManagement
  iMod : XhciInterrupterModeration
  erstSize : BitVec 32
  rsvd : BitVec 32
  eventRingSegmentTableAddress : BitVec 64
  eventRingDequeuePtr : XhciEventRingDequeuePtr

/-- `XhciRuntimeRegisters`. -/
structure XhciRuntimeRegisters where
  mfIndex : BitVec 32
  r1 : Vector (BitVec 32) 7
  interrupters : Vector XhciInterrupterRegister 1

abbrev RegisterBlock := Vector (BitVec 32) 16

namespace RegisterBlock

def dword (block : RegisterBlock) (index : Fin 16) : BitVec 32 := block[index]

def zero : RegisterBlock := Vector.replicate 16 0

end RegisterBlock

namespace XhciOpRegisters

def ofDwords (dwords : RegisterBlock) : XhciOpRegisters where
  usbCmd := ⟨dwords[0]⟩
  usbStatus := ⟨dwords[1]⟩
  pageSize := dwords[2]
  r1 := #v[dwords[3], dwords[4]]
  notificationEnable := BitField.get 0 16 dwords[5]
  r2 := BitField.get 16 16 dwords[5]
  commandRingControl := ⟨dwords[7] ++ dwords[6]⟩
  r3 := #v[dwords[8], dwords[9], dwords[10], dwords[11]]
  deviceContextBaseAddressArray := dwords[13] ++ dwords[12]
  configure := ⟨dwords[14]⟩
  padding := dwords[15]

def toDwords (op : XhciOpRegisters) : RegisterBlock :=
  #v[op.usbCmd.raw, op.usbStatus.raw, op.pageSize, op.r1[0], op.r1[1],
    op.r2 ++ op.notificationEnable,
    BitField.get 0 32 op.commandRingControl.raw, BitField.get 32 32 op.commandRingControl.raw,
    op.r3[0], op.r3[1], op.r3[2], op.r3[3],
    BitField.get 0 32 op.deviceContextBaseAddressArray,
    BitField.get 32 32 op.deviceContextBaseAddressArray,
    op.configure.raw, op.padding]

theorem toDwords_ofDwords (dwords : RegisterBlock) : (ofDwords dwords).toDwords = dwords := by
  apply Vector.ext
  intro i range
  interval_cases i
  all_goals first
    | rfl
    | exact BitField.append_get _
    | exact BitField.get_append_low _ _
    | exact BitField.get_append_high _ _

end XhciOpRegisters

namespace XhciRuntimeRegisters

def ofDwords (dwords : RegisterBlock) : XhciRuntimeRegisters where
  mfIndex := dwords[0]
  r1 := #v[dwords[1], dwords[2], dwords[3], dwords[4], dwords[5], dwords[6], dwords[7]]
  interrupters := #v[{
    iman := ⟨dwords[8]⟩
    iMod := ⟨dwords[9]⟩
    erstSize := dwords[10]
    rsvd := dwords[11]
    eventRingSegmentTableAddress := dwords[13] ++ dwords[12]
    eventRingDequeuePtr := ⟨dwords[15] ++ dwords[14]⟩ }]

def toDwords (runtime : XhciRuntimeRegisters) : RegisterBlock :=
  let interrupter := runtime.interrupters[0]
  #v[runtime.mfIndex, runtime.r1[0], runtime.r1[1], runtime.r1[2], runtime.r1[3], runtime.r1[4],
    runtime.r1[5], runtime.r1[6],
    interrupter.iman.raw, interrupter.iMod.raw, interrupter.erstSize, interrupter.rsvd,
    BitField.get 0 32 interrupter.eventRingSegmentTableAddress,
    BitField.get 32 32 interrupter.eventRingSegmentTableAddress,
    BitField.get 0 32 interrupter.eventRingDequeuePtr.raw,
    BitField.get 32 32 interrupter.eventRingDequeuePtr.raw]

theorem toDwords_ofDwords (dwords : RegisterBlock) : (ofDwords dwords).toDwords = dwords := by
  apply Vector.ext
  intro i range
  interval_cases i
  all_goals first
    | rfl
    | exact BitField.get_append_low _ _
    | exact BitField.get_append_high _ _

end XhciRuntimeRegisters

/-! ## Write-one-to-clear bits -/

/-- The two blocks that the driver modifies. -/
inductive RegisterBlockName where
  | op
  | runtime
deriving DecidableEq

/-- Where the operational registers hold the status. -/
def usbStatusDword : Fin 16 := 1

/-- Where the runtime registers hold the management register of the interrupter. -/
def imanDword : Fin 16 := 8

/-- Where the runtime registers hold the lower half of the dequeue pointer. -/
def dequeuePtrDword : Fin 16 := 14

/-- The bits that the `zero_w1c` methods name, in their blocks. -/
def writeToClearMask : RegisterBlockName → RegisterBlock
  | .op =>
      RegisterBlock.zero.set usbStatusDword (~~~(XhciUsbStatus.zeroW1c ⟨BitVec.allOnes 32⟩).raw)
  | .runtime =>
      (RegisterBlock.zero.set imanDword
        (~~~(XhciInterrupterManagement.zeroW1c ⟨BitVec.allOnes 32⟩).raw)).set dequeuePtrDword
          (BitField.get 0 32 (~~~(XhciEventRingDequeuePtr.zeroW1c ⟨BitVec.allOnes 64⟩).raw))

example : (writeToClearMask .op).dword usbStatusDword = 0x41c ∧
    (writeToClearMask .runtime).dword imanDword = 0x1 ∧
    (writeToClearMask .runtime).dword dequeuePtrDword = 0x8 := by decide +kernel

theorem dword_set {block : RegisterBlock} {index dword : Fin 16} {value : BitVec 32} :
    RegisterBlock.dword (block.set index value) dword =
      if dword = index then value else block.dword dword := by
  simp only [RegisterBlock.dword, Fin.getElem_fin, Vector.getElem_set, Fin.ext_iff, eq_comm]

theorem mask_op {dword : Fin 16} {bit : ℕ}
    (masked : ((writeToClearMask .op).dword dword).getLsbD bit = true) :
    dword = usbStatusDword := by
  by_contra other
  rw [writeToClearMask, dword_set, if_neg other] at masked
  simp [RegisterBlock.zero, RegisterBlock.dword] at masked

theorem mask_runtime {dword : Fin 16} {bit : ℕ}
    (masked : ((writeToClearMask .runtime).dword dword).getLsbD bit = true) :
    dword = imanDword ∧ bit = 0 ∨ dword = dequeuePtrDword ∧ bit = 3 := by
  rw [writeToClearMask, dword_set, dword_set] at masked
  split_ifs at masked with busy pending
  · rw [BitField.get, BitVec.getLsbD_extractLsb', Nat.zero_add, Bool.and_eq_true] at masked
    exact .inr ⟨busy, BitField.eq_of_getLsbD_not_setFlag masked.2⟩
  · exact .inl ⟨pending, BitField.eq_of_getLsbD_not_setFlag masked⟩
  · simp [RegisterBlock.zero, RegisterBlock.dword] at masked

end Blubos
