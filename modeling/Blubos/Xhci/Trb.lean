import Blubos.Foundation.BitField
import Mathlib.Tactic.IntervalCases

/-!
# Transfer request blocks

The 128-bit blocks that the driver and the host controller pass to each other.  Normal and link
blocks fill all sixteen bytes; an empty block has thirteen, so that a union made from one leaves the
last three bytes unspecified.
-/

namespace Blubos

/-- `XhciTrbType`. -/
inductive XhciTrbType where
  | normal | setupStage | dataStage | statusStage | isoch | link | eventData | noOp
  | enableSlotCommand | disableSlotCommand | addressDeviceCommand | configureEndpointCommand
  | evaluateContextCommand | resetEndpointCommand | stopEndpointCommand
  | setTRDequeuePointerCommand | resetDeviceCommand | forceEventCommand
  | negotiateBandwidthCommand | setLatencyToleranceValueCommand | getPortBandwidthCommand
  | forceHeaderCommand | noOpCommand | getExtendedPropertyCommand | setExtendedPropertyCommand
  | transferEvent | commandCompletionEvent | portStatusChangeEvent | bandwidthRequestEvent
  | doorbellEvent | hostControllerEvent | deviceNotificationEvent | mfindexWrapEvent
deriving DecidableEq

namespace XhciTrbType

/-- The discriminant, in the six bits of the specifier. -/
def toBits (trbType : XhciTrbType) : BitVec 6 :=
  if trbType.ctorIdx < 25 then BitVec.ofNat 6 (trbType.ctorIdx + 1)
  else BitVec.ofNat 6 (trbType.ctorIdx + 7)

end XhciTrbType

example : XhciTrbType.toBits .link = 6 ∧ XhciTrbType.toBits .setExtendedPropertyCommand = 25 ∧
    XhciTrbType.toBits .transferEvent = 32 ∧ XhciTrbType.toBits .mfindexWrapEvent = 39 := by decide

/-- Position of the cycle bit in every kind of block. -/
def cycleBitPosition : ℕ := 96

/-- Position of the type in normal and link blocks. -/
def trbTypePosition : ℕ := 106

/-- `XhciNormalTrb`. -/
structure XhciNormalTrb where
  /-- The sixteen bytes. -/
  raw : BitVec 128
deriving DecidableEq

/-- `XhciLinkTrb`. -/
structure XhciLinkTrb where
  /-- The sixteen bytes. -/
  raw : BitVec 128
deriving DecidableEq

/-- `XhciEmptyTrb`. -/
structure XhciEmptyTrb where
  /-- The thirteen bytes. -/
  raw : BitVec 104
deriving DecidableEq

namespace XhciNormalTrb

def setCycleBit (trb : XhciNormalTrb) (bit : Bool) : XhciNormalTrb :=
  ⟨BitField.setFlag cycleBitPosition bit trb.raw⟩

/-- The six bits of `trb_type`. -/
def rawType (trb : XhciNormalTrb) : BitVec 6 := BitField.get trbTypePosition 6 trb.raw

end XhciNormalTrb

namespace XhciLinkTrb

/-- `new`: all bits are zero. -/
def new : XhciLinkTrb := ⟨0⟩

def ringSegmentPointer (trb : XhciLinkTrb) : BitVec 64 := BitField.get 0 64 trb.raw

def setRingSegmentPointer (trb : XhciLinkTrb) (pointer : BitVec 64) : XhciLinkTrb :=
  ⟨BitField.set 0 pointer trb.raw⟩

def setCycleBit (trb : XhciLinkTrb) (bit : Bool) : XhciLinkTrb :=
  ⟨BitField.setFlag cycleBitPosition bit trb.raw⟩

def setToggleCycle (trb : XhciLinkTrb) (bit : Bool) : XhciLinkTrb :=
  ⟨BitField.setFlag 97 bit trb.raw⟩

def setChainBit (trb : XhciLinkTrb) (bit : Bool) : XhciLinkTrb :=
  ⟨BitField.setFlag 100 bit trb.raw⟩

def setInterruptOnCompletion (trb : XhciLinkTrb) (bit : Bool) : XhciLinkTrb :=
  ⟨BitField.setFlag 101 bit trb.raw⟩

def setTrbType (trb : XhciLinkTrb) (trbType : XhciTrbType) : XhciLinkTrb :=
  ⟨BitField.set trbTypePosition trbType.toBits trb.raw⟩

end XhciLinkTrb

namespace XhciEmptyTrb

/-- `new`: all bits are zero. -/
def new : XhciEmptyTrb := ⟨0⟩

def setCycleBit (trb : XhciEmptyTrb) (bit : Bool) : XhciEmptyTrb :=
  ⟨BitField.setFlag cycleBitPosition bit trb.raw⟩

def newCycleBit (bit : Bool) : XhciEmptyTrb := new.setCycleBit bit

end XhciEmptyTrb

/-- `XhciTrbUnion`: sixteen bytes, whatever kind of block they are. -/
structure XhciTrbUnion where
  /-- The bytes in little-endian order. -/
  raw : BitVec 128
deriving DecidableEq

namespace XhciTrbUnion

/-- `core::mem::zeroed`. -/
def zeroed : XhciTrbUnion := ⟨0⟩

/-- The fourth dword. -/
def controlDword (trb : XhciTrbUnion) : BitVec 32 := BitField.get 96 32 trb.raw

/-- Bit 0 of the fourth dword. -/
def cycleBit (trb : XhciTrbUnion) : Bool := trb.controlDword &&& 1 != 0

/-- Bits 10 to 15 of the fourth dword, not decoded. -/
def rawType (trb : XhciTrbUnion) : BitVec 6 := (trb.controlDword >>> 10 &&& 0x3f).setWidth 6

/-- Bit 1 of the fourth dword, which a link inverts the cycle state with. -/
def toggleCycle (trb : XhciTrbUnion) : Bool := BitField.flag 97 trb.raw

/-- `Empty: x` of the union: the last three bytes are unspecified. -/
def ofEmpty (trb : XhciEmptyTrb) (padding : BitVec 24) : XhciTrbUnion := ⟨padding ++ trb.raw⟩

/-- The block as a producer writes it in a given cycle state. -/
def withCycle (trb : XhciTrbUnion) (bit : Bool) : XhciTrbUnion :=
  ⟨BitField.setFlag cycleBitPosition bit trb.raw⟩

theorem cycleBit_eq_flag (trb : XhciTrbUnion) :
    trb.cycleBit = BitField.flag cycleBitPosition trb.raw := by
  have lowest : trb.controlDword.getLsbD 0 = BitField.flag cycleBitPosition trb.raw := by
    rw [controlDword, BitField.get, BitVec.getLsbD_extractLsb']
    rfl
  have masked := BitVec.and_one_eq_setWidth_ofBool_getLsbD (x := trb.controlDword)
  rw [lowest] at masked
  rw [cycleBit, show (1 : BitVec 32) = 1#32 from rfl, masked]
  cases BitField.flag cycleBitPosition trb.raw <;> rfl

theorem rawType_eq_get (trb : XhciTrbUnion) :
    trb.rawType = BitField.get trbTypePosition 6 trb.raw := by
  apply BitVec.eq_of_getLsbD_eq
  intro bit range
  have ones : (0x3f : BitVec 32).getLsbD bit = true := by
    interval_cases bit <;> rfl
  have inside : 10 + bit < 32 := by omega
  rw [rawType, BitVec.getLsbD_setWidth, BitVec.getLsbD_and, BitVec.getLsbD_ushiftRight, ones,
    controlDword, BitField.get, BitField.get, BitVec.getLsbD_extractLsb',
    BitVec.getLsbD_extractLsb', trbTypePosition, ← Nat.add_assoc]
  simp only [range, inside, decide_true, Bool.true_and, Bool.and_true]

@[simp] theorem cycleBit_zeroed : zeroed.cycleBit = false := rfl

@[simp] theorem cycleBit_withCycle (trb : XhciTrbUnion) (bit : Bool) :
    (trb.withCycle bit).cycleBit = bit := by
  rw [cycleBit_eq_flag, withCycle, BitField.flag_setFlag (by decide)]

theorem cycleBit_ofEmpty (trb : XhciEmptyTrb) (padding : BitVec 24) :
    (ofEmpty trb padding).cycleBit = BitField.flag cycleBitPosition trb.raw := by
  rw [cycleBit_eq_flag, ofEmpty, BitField.flag, BitVec.getLsbD_append, if_pos (by decide)]
  rfl

@[simp] theorem cycleBit_ofEmpty_newCycleBit (bit : Bool) (padding : BitVec 24) :
    (ofEmpty (.newCycleBit bit) padding).cycleBit = bit := by
  rw [cycleBit_ofEmpty, XhciEmptyTrb.newCycleBit, XhciEmptyTrb.setCycleBit]
  exact BitField.flag_setFlag (by decide)

end XhciTrbUnion

/-- `XhciTrbTag`. -/
inductive XhciTrbTag where
  | normal | link | empty
deriving DecidableEq

/-- `XhciTrb`. -/
inductive XhciTrb where
  | normal (trb : XhciNormalTrb)
  | link (trb : XhciLinkTrb)
  | empty (trb : XhciEmptyTrb)
deriving DecidableEq

namespace XhciTrb

def setCycleBit (trb : XhciTrb) (bit : Bool) : XhciTrb :=
  match trb with
  | .normal normalTrb => .normal (normalTrb.setCycleBit bit)
  | .link linkTrb => .link (linkTrb.setCycleBit bit)
  | .empty emptyTrb => .empty (emptyTrb.setCycleBit bit)

/-- `to_union`, which never returns `None`; `padding` stands in the bytes that an empty block leaves
unspecified. -/
def toUnion (trb : XhciTrb) (padding : BitVec 24) : XhciTrbUnion :=
  match trb with
  | .normal normalTrb => ⟨normalTrb.raw⟩
  | .link linkTrb => ⟨linkTrb.raw⟩
  | .empty emptyTrb => .ofEmpty emptyTrb padding

def toTag : XhciTrb → XhciTrbTag
  | .normal _ => .normal
  | .link _ => .link
  | .empty _ => .empty

/-- `from_raw`: read the union as the kind that the tag names. -/
def fromRaw (union : XhciTrbUnion) : XhciTrbTag → XhciTrb
  | .normal => .normal ⟨union.raw⟩
  | .link => .link ⟨union.raw⟩
  | .empty => .empty ⟨union.raw.setWidth 104⟩

@[simp] theorem fromRaw_toUnion (trb : XhciTrb) (padding : BitVec 24) :
    fromRaw (trb.toUnion padding) trb.toTag = trb := by
  cases trb with
  | normal normalTrb => rfl
  | link linkTrb => rfl
  | empty emptyTrb =>
      rw [toUnion, toTag, XhciTrbUnion.ofEmpty, fromRaw, BitVec.setWidth_append_eq_right]

/-- Every kind of block keeps its cycle bit where the controller looks for it. -/
@[simp] theorem cycleBit_setCycleBit (trb : XhciTrb) (bit : Bool) (padding : BitVec 24) :
    ((trb.setCycleBit bit).toUnion padding).cycleBit = bit := by
  cases trb with
  | normal normalTrb => exact XhciTrbUnion.cycleBit_withCycle ⟨normalTrb.raw⟩ bit
  | link linkTrb => exact XhciTrbUnion.cycleBit_withCycle ⟨linkTrb.raw⟩ bit
  | empty emptyTrb =>
      rw [setCycleBit, toUnion, XhciTrbUnion.cycleBit_ofEmpty, XhciEmptyTrb.setCycleBit]
      exact BitField.flag_setFlag (by decide)

end XhciTrb

end Blubos
