import Blubos.Foundation.CycleRing
import Blubos.Machine
import Blubos.Xhci.Trb
import Mathlib.Data.Fin.Basic

/-!
# The command ring

The ring through which the driver hands commands to the host controller.  Commands are collected in
a staging array and copied to the shared slots; the last slot is a link back to the first.  A slot
belongs to the controller when its cycle bit is the one of the current lap.
-/

namespace Blubos

/-- `XhciCommandRing`.  The index never passes the slot of the link. -/
structure XhciCommandRing where
  trbs : Vector XhciTrbUnion 64
  /-- The kind of block last submitted to each slot. -/
  trbTags : Vector XhciTrbTag 64
  stagingTrbs : Vector XhciTrb 64
  /-- The number of commands staged in this lap. -/
  stagingEnqueueTrbIndex : Fin 64
  cycleBit : Bool
  /-- Physical address of the slots. -/
  trbPhysicalBase : BitVec 64

namespace XhciCommandRing

/-- `MAX_TRB_COUNT`. -/
def maxTrbCount : ℕ := 64

/-- The link that `init_ring` and `flip_ring` build. -/
def linkTrb (pointer : BitVec 64) (cycle : Bool) : XhciLinkTrb :=
  XhciLinkTrb.new
    |>.setRingSegmentPointer pointer
    |>.setCycleBit cycle
    |>.setToggleCycle true
    |>.setChainBit false
    |>.setInterruptOnCompletion false
    |>.setTrbType .link

/-- `init_ring`, for slots at the given physical address. -/
def initRing (physicalBase : BitVec 64) : XhciCommandRing where
  trbs := (Vector.replicate 64 .zeroed).set 63 ⟨(linkTrb physicalBase true).raw⟩
  trbTags := .replicate 64 .empty
  stagingTrbs :=
    (Vector.replicate 64 (.empty (.newCycleBit false))).set 63 (.link (linkTrb physicalBase true))
  stagingEnqueueTrbIndex := 0
  cycleBit := true
  trbPhysicalBase := physicalBase

/-- `add_trb`. -/
def addTrb (ring : XhciCommandRing) (trb : XhciTrb) :
    Except Fault (Option Unit × XhciCommandRing) :=
  if full : ring.stagingEnqueueTrbIndex.val = maxTrbCount - 1 then .ok (none, ring)
  else if trb.toTag = .empty then .error .assertion
  else
    let index := ring.stagingEnqueueTrbIndex
    have inside : index.val + 1 < maxTrbCount :=
      Nat.lt_of_le_of_ne index.isLt fun last => full (Nat.eq_sub_of_add_eq last)
    .ok (some (), { ring with
      stagingTrbs := ring.stagingTrbs.set index (trb.setCycleBit ring.cycleBit)
      stagingEnqueueTrbIndex := ⟨index.val + 1, inside⟩ })

/-- One round of the loop of `submit_trbs`. -/
def submitSlot (ring : XhciCommandRing) (slot : Fin 64) (padding : BitVec 24) : XhciCommandRing :=
  { ring with
    trbs := ring.trbs.set slot (ring.stagingTrbs[slot].toUnion padding)
    trbTags := ring.trbTags.set slot ring.stagingTrbs[slot].toTag }

/-- The first slot that `submit_trbs` writes. -/
def firstSlot : Fin 64 := 0

/-- The slot that `submit_trbs` writes after the given one; the range includes the index itself. -/
def nextSlot (ring : XhciCommandRing) (slot : Fin 64) : Option (Fin 64) :=
  if slot = ring.stagingEnqueueTrbIndex then none else some (slot + 1)

/-- `flip_ring`; `padding` stands in the bytes of each slot that an empty block leaves
unspecified. -/
def flipRing (ring : XhciCommandRing) (padding : Fin 64 → BitVec 24) : XhciCommandRing :=
  let nextState := !ring.cycleBit
  let link := linkTrb ring.trbPhysicalBase nextState
  let empty := XhciEmptyTrb.newCycleBit !nextState
  { ring with
    trbs := (Vector.ofFn fun slot => .ofEmpty empty (padding slot)).set 63 ⟨link.raw⟩
    trbTags := .replicate 64 .empty
    stagingTrbs := (Vector.replicate 64 (.empty empty)).set 63 (.link link)
    stagingEnqueueTrbIndex := 0
    cycleBit := nextState }

theorem nextSlot_eq_none {ring : XhciCommandRing} {slot : Fin 64} :
    ring.nextSlot slot = none ↔ slot = ring.stagingEnqueueTrbIndex := by
  simp [nextSlot]

theorem nextSlot_eq_some {ring : XhciCommandRing} {slot next : Fin 64}
    (inside : slot.val ≤ ring.stagingEnqueueTrbIndex.val)
    (follows : ring.nextSlot slot = some next) :
    slot.val < ring.stagingEnqueueTrbIndex.val ∧ next.val = slot.val + 1 := by
  rw [nextSlot] at follows
  split_ifs at follows with last
  obtain rfl := Option.some.inj follows
  have below : slot.val < ring.stagingEnqueueTrbIndex.val :=
    Nat.lt_of_le_of_ne inside fun same => last (Fin.ext same)
  exact ⟨below, Fin.val_add_one_of_lt' (by omega)⟩

@[simp] theorem linkTrb_cycleBit (pointer : BitVec 64) (cycle : Bool) :
    XhciTrbUnion.cycleBit ⟨(linkTrb pointer cycle).raw⟩ = cycle := by
  rw [XhciTrbUnion.cycleBit_eq_flag]
  exact calc
    _ = BitField.flag cycleBitPosition
        (BitField.setFlag 101 false (BitField.setFlag 100 false (BitField.setFlag 97 true
          (BitField.setFlag cycleBitPosition cycle (BitField.set 0 pointer 0))))) :=
      BitField.flag_set_of_apart (by decide)
    _ = BitField.flag cycleBitPosition
        (BitField.setFlag cycleBitPosition cycle (BitField.set 0 pointer 0)) := by
      rw [BitField.flag_setFlag_of_ne (by decide), BitField.flag_setFlag_of_ne (by decide),
        BitField.flag_setFlag_of_ne (by decide)]
    _ = cycle := BitField.flag_setFlag (by decide)

@[simp] theorem linkTrb_rawType (pointer : BitVec 64) (cycle : Bool) :
    XhciTrbUnion.rawType ⟨(linkTrb pointer cycle).raw⟩ = XhciTrbType.link.toBits := by
  rw [XhciTrbUnion.rawType_eq_get]
  exact BitField.get_set (by decide)

@[simp] theorem linkTrb_toggleCycle (pointer : BitVec 64) (cycle : Bool) :
    XhciTrbUnion.toggleCycle ⟨(linkTrb pointer cycle).raw⟩ = true := calc
  _ = BitField.flag 97
      (BitField.setFlag 101 false (BitField.setFlag 100 false (BitField.setFlag 97 true
        (BitField.setFlag cycleBitPosition cycle (BitField.set 0 pointer 0))))) :=
    BitField.flag_set_of_apart (by decide)
  _ = BitField.flag 97
      (BitField.setFlag 97 true
        (BitField.setFlag cycleBitPosition cycle (BitField.set 0 pointer 0))) := by
    rw [BitField.flag_setFlag_of_ne (by decide), BitField.flag_setFlag_of_ne (by decide)]
  _ = true := BitField.flag_setFlag (by decide)

@[simp] theorem linkTrb_ringSegmentPointer (pointer : BitVec 64) (cycle : Bool) :
    (linkTrb pointer cycle).ringSegmentPointer = pointer := calc
  _ = BitField.get 0 64
      (BitField.setFlag 101 false (BitField.setFlag 100 false (BitField.setFlag 97 true
        (BitField.setFlag cycleBitPosition cycle (BitField.set 0 pointer 0))))) :=
    BitField.get_set_of_apart (by decide)
  _ = BitField.get 0 64 (BitField.set 0 pointer (0 : BitVec 128)) := by
    rw [BitField.get_setFlag_of_apart (by decide), BitField.get_setFlag_of_apart (by decide),
      BitField.get_setFlag_of_apart (by decide), BitField.get_setFlag_of_apart (by decide)]
  _ = pointer := BitField.get_set (by decide)

end XhciCommandRing

/-- A staged command: a normal block that the controller does not take for a link, with the cycle
state of its lap. -/
def XhciTrb.IsCommand (cycle : Bool) (trb : XhciTrb) : Prop :=
  ∃ command : XhciNormalTrb, trb = .normal command ∧
    command.rawType ≠ XhciTrbType.link.toBits ∧ XhciTrbUnion.cycleBit ⟨command.raw⟩ = cycle

theorem XhciNormalTrb.isCommand {trb : XhciNormalTrb} (kind : trb.rawType ≠ XhciTrbType.link.toBits)
    (cycle : Bool) : (XhciTrb.normal (trb.setCycleBit cycle)).IsCommand cycle := by
  refine ⟨trb.setCycleBit cycle, rfl, ?_, XhciTrbUnion.cycleBit_withCycle ⟨trb.raw⟩ cycle⟩
  have same : (trb.setCycleBit cycle).rawType = trb.rawType :=
    BitField.get_setFlag_of_apart (by decide)
  rw [same]
  exact kind

namespace XhciTrb.IsCommand

variable {cycle : Bool} {trb : XhciTrb}

theorem cycleBit_toUnion (command : trb.IsCommand cycle) (padding : BitVec 24) :
    (trb.toUnion padding).cycleBit = cycle := by
  obtain ⟨_, rfl, -, bit⟩ := command
  exact bit

theorem rawType_toUnion (command : trb.IsCommand cycle) (padding : BitVec 24) :
    (trb.toUnion padding).rawType ≠ XhciTrbType.link.toBits := by
  obtain ⟨_, rfl, kind, -⟩ := command
  rw [XhciTrbUnion.rawType_eq_get]
  exact kind

theorem toTag (command : trb.IsCommand cycle) : trb.toTag = .normal := by
  obtain ⟨_, rfl, -, -⟩ := command
  rfl

end XhciTrb.IsCommand

/-- A block without its cycle bit, which `add_trb` overwrites. -/
def XhciTrb.strip (trb : XhciTrb) : XhciTrb := trb.setCycleBit false

@[simp] theorem XhciTrb.strip_setCycleBit (trb : XhciTrb) (bit : Bool) :
    (trb.setCycleBit bit).strip = trb.strip := by
  cases trb with
  | normal trb => exact congrArg (fun raw => normal ⟨raw⟩) BitField.setFlag_setFlag
  | link trb => exact congrArg (fun raw => link ⟨raw⟩) BitField.setFlag_setFlag
  | empty trb => exact congrArg (fun raw => empty ⟨raw⟩) BitField.setFlag_setFlag

/-! ## Coherence of the ring -/

namespace XhciCommandRing

def staged (ring : XhciCommandRing) : List XhciTrb :=
  ring.stagingTrbs.toList.take ring.stagingEnqueueTrbIndex

/-- Staging holds commands and then empty blocks; a slot with the cycle bit of the lap holds the
command staged for it. -/
structure Coherent (ring : XhciCommandRing) : Prop where
  /-- The last slot is the link of this lap. -/
  link : ring.trbs[63] = ⟨(linkTrb ring.trbPhysicalBase ring.cycleBit).raw⟩
  stagedLink : ring.stagingTrbs[63] = .link (linkTrb ring.trbPhysicalBase ring.cycleBit)
  commands : ∀ i (range : i < 64), i < ring.stagingEnqueueTrbIndex.val →
    ring.stagingTrbs[i].IsCommand ring.cycleBit
  /-- From the index on there are empty blocks with the other cycle bit. -/
  vacant : ∀ i (range : i < 64), ring.stagingEnqueueTrbIndex.val ≤ i → i < 63 →
    ring.stagingTrbs[i] = .empty (.newCycleBit !ring.cycleBit)
  /-- What the controller owns was submitted in this lap. -/
  owned : ∀ i (range : i < 64), i < 63 → ring.trbs[i].cycleBit = ring.cycleBit →
    i < ring.stagingEnqueueTrbIndex.val ∧
      XhciTrb.fromRaw ring.trbs[i] ring.trbTags[i] = ring.stagingTrbs[i] ∧
      ring.trbs[i].rawType ≠ XhciTrbType.link.toBits

variable {ring : XhciCommandRing}

theorem length_staged (ring : XhciCommandRing) :
    ring.staged.length = ring.stagingEnqueueTrbIndex.val := by
  have range := ring.stagingEnqueueTrbIndex.isLt
  rw [staged, List.length_take_of_le]
  rw [Vector.length_toList]
  omega

theorem staged_drop {i : ℕ} (range : i < 64) (below : i < ring.stagingEnqueueTrbIndex.val) :
    ring.staged.drop i = ring.stagingTrbs[i] :: ring.staged.drop (i + 1) := by
  have inside : i < ring.staged.length := by
    rw [length_staged]
    exact below
  rw [List.drop_eq_getElem_cons inside]
  simp [staged]

theorem Coherent.init (physicalBase : BitVec 64) : (initRing physicalBase).Coherent where
  link := by simp [initRing]
  stagedLink := by simp [initRing]
  commands _ _ below := absurd below (Nat.not_lt_zero _)
  vacant i range _ inside := by
    have apart : 63 ≠ i := by omega
    simp [initRing, apart]
  owned i range inside owned := by
    have apart : 63 ≠ i := by omega
    simp [initRing, apart] at owned

theorem Coherent.flipRing (ring : XhciCommandRing) (padding : Fin 64 → BitVec 24) :
    (ring.flipRing padding).Coherent where
  link := by simp [XhciCommandRing.flipRing]
  stagedLink := by simp [XhciCommandRing.flipRing]
  commands _ _ below := absurd below (Nat.not_lt_zero _)
  vacant i range _ inside := by
    have apart : 63 ≠ i := by omega
    simp [XhciCommandRing.flipRing, apart]
  owned i range inside owned := by
    have apart : 63 ≠ i := by omega
    simp [XhciCommandRing.flipRing, apart] at owned

theorem addTrb_eq_ok {trb : XhciNormalTrb} {accepted : Option Unit} {ring' : XhciCommandRing}
    (returned : ring.addTrb (.normal trb) = .ok (accepted, ring')) :
    (ring.stagingEnqueueTrbIndex.val = 63 ∧ accepted = none ∧ ring' = ring) ∨
      ∃ inside : ring.stagingEnqueueTrbIndex.val + 1 < 64, accepted = some () ∧
        ring' = { ring with
          stagingTrbs := ring.stagingTrbs.set ring.stagingEnqueueTrbIndex
            (.normal (trb.setCycleBit ring.cycleBit))
          stagingEnqueueTrbIndex := ⟨ring.stagingEnqueueTrbIndex.val + 1, inside⟩ } := by
  rw [addTrb] at returned
  split at returned
  · rename_i full
    obtain ⟨rfl, rfl⟩ := Prod.mk.inj (Except.ok.inj returned)
    exact .inl ⟨full, rfl, rfl⟩
  · obtain ⟨rfl, rfl⟩ := Prod.mk.inj (Except.ok.inj returned)
    right
    refine ⟨?_, rfl, rfl⟩
    have range := ring.stagingEnqueueTrbIndex.isLt
    rename_i full
    simp only [maxTrbCount] at full
    omega

theorem staged_stage {trb : XhciTrb} (inside : ring.stagingEnqueueTrbIndex.val + 1 < 64) :
    staged { ring with
      stagingTrbs := ring.stagingTrbs.set ring.stagingEnqueueTrbIndex trb
      stagingEnqueueTrbIndex := ⟨ring.stagingEnqueueTrbIndex.val + 1, inside⟩ } =
      ring.staged ++ [trb] := by
  rw [staged, Vector.toList_set]
  apply take_set_succ
  rw [Vector.length_toList]
  exact ring.stagingEnqueueTrbIndex.isLt

theorem Coherent.stage (coherent : ring.Coherent) {trb : XhciTrb}
    (command : trb.IsCommand ring.cycleBit)
    (inside : ring.stagingEnqueueTrbIndex.val + 1 < 64) :
    Coherent { ring with
      stagingTrbs := ring.stagingTrbs.set ring.stagingEnqueueTrbIndex trb
      stagingEnqueueTrbIndex := ⟨ring.stagingEnqueueTrbIndex.val + 1, inside⟩ } where
  link := coherent.link
  stagedLink := by
    have apart : ring.stagingEnqueueTrbIndex.val ≠ 63 := by omega
    rw [Vector.getElem_set_ne _ _ apart]
    exact coherent.stagedLink
  commands i range below := by
    by_cases newest : ring.stagingEnqueueTrbIndex.val = i
    · subst newest
      simpa using command
    · have older : i < ring.stagingEnqueueTrbIndex.val := by
        dsimp only at below
        omega
      rw [Vector.getElem_set_ne _ _ newest]
      exact coherent.commands i range older
  vacant i range above below := by
    dsimp only at above
    rw [Vector.getElem_set_ne _ _ (by omega)]
    exact coherent.vacant i range (by omega) below
  owned i range below owned := by
    obtain ⟨older, stored, kind⟩ := coherent.owned i range below owned
    have apart : ring.stagingEnqueueTrbIndex.val ≠ i := by omega
    refine ⟨Nat.lt_succ_of_lt older, ?_, kind⟩
    rw [Vector.getElem_set_ne _ _ apart]
    exact stored

/-- `submit_trbs` writes what is staged for a slot and leaves the others alone. -/
theorem submitSlot_getElem (slot : Fin 64) (padding : BitVec 24) {i : ℕ} (range : i < 64) :
    (ring.submitSlot slot padding).trbs[i] =
        (if slot.val = i then ring.stagingTrbs[i].toUnion padding else ring.trbs[i]) ∧
      (ring.submitSlot slot padding).trbTags[i] =
        if slot.val = i then ring.stagingTrbs[i].toTag else ring.trbTags[i] := by
  by_cases same : slot.val = i
  · subst same
    simp [submitSlot]
  · simp [submitSlot, same]

/-- A command is owned by the controller once it is submitted. -/
theorem Coherent.submitSlot_own (coherent : ring.Coherent) {slot : Fin 64} (padding : BitVec 24)
    (inside : slot.val < ring.stagingEnqueueTrbIndex.val) :
    (ring.submitSlot slot padding).trbs[slot.val].cycleBit = ring.cycleBit := by
  rw [(submitSlot_getElem slot padding slot.isLt).1, if_pos rfl]
  exact (coherent.commands slot slot.isLt inside).cycleBit_toUnion padding

theorem Coherent.submitSlot_keep (coherent : ring.Coherent) {slot : Fin 64} (padding : BitVec 24)
    {i : ℕ} (range : i < 64) (owned : ring.trbs[i].cycleBit = ring.cycleBit) :
    (ring.submitSlot slot padding).trbs[i].cycleBit = ring.cycleBit := by
  rw [(submitSlot_getElem slot padding range).1]
  split_ifs with same
  · by_cases below : i < 63
    · have older := (coherent.owned i range below owned).1
      exact (coherent.commands i range older).cycleBit_toUnion padding
    · have last : i = 63 := by omega
      subst last
      rw [coherent.stagedLink]
      exact linkTrb_cycleBit _ _
  · exact owned

theorem Coherent.submitSlot (coherent : ring.Coherent) (slot : Fin 64) (padding : BitVec 24) :
    (ring.submitSlot slot padding).Coherent where
  link := by
    rw [(submitSlot_getElem slot padding (by decide)).1]
    split_ifs
    · rw [coherent.stagedLink]
      rfl
    · exact coherent.link
  stagedLink := coherent.stagedLink
  commands := coherent.commands
  vacant := coherent.vacant
  owned i range below owned := by
    obtain ⟨content, tag⟩ := @submitSlot_getElem ring slot padding i range
    rw [content] at owned ⊢
    rw [tag]
    split_ifs at owned ⊢ with same
    · have older : i < ring.stagingEnqueueTrbIndex.val := by
        by_contra above
        rw [coherent.vacant i range (Nat.not_lt.mp above) below, XhciTrb.toUnion,
          XhciTrbUnion.cycleBit_ofEmpty_newCycleBit] at owned
        exact (Bool.not_eq_self _).mp owned
      have command := coherent.commands i range older
      exact ⟨older, XhciTrb.fromRaw_toUnion _ _, command.rawType_toUnion padding⟩
    · exact coherent.owned i range below owned

end XhciCommandRing

end Blubos
