import Blubos.Foundation.CycleRing
import Blubos.Foundation.Run
import Blubos.Machine
import Blubos.Xhci.Registers
import Blubos.Xhci.Trb
import Mathlib.Data.List.Infix

/-!
# The event ring

The segment in which the host controller reports events, read by the driver one block at a time.
The controller writes each event with its cycle state; the driver compares that bit with its own and
counts its laps.  Over any run the blocks that the driver takes are the events in order, and a test
that finds nothing means that nothing waits.
-/

namespace Blubos

/-- A block of TRBs from the controller's allocator, with the address that `to_physical_addr` finds
for it: aligned to 64 bytes as the rings request it, and inside the 64-bit address space. -/
structure TrbBox (count : ℕ) where
  trbs : Vector XhciTrbUnion count
  /-- Physical address of the array. -/
  physicalAddr : ℕ
  aligned : 64 ∣ physicalAddr
  /-- The array does not wrap round the address space. -/
  fits : physicalAddr + 16 * count < 2 ^ 64

/-- `XhciEventRing`.  The segment table, which only the controller reads, is left out; the
interrupter is an index into an array of one. -/
structure XhciEventRing where
  trbs : TrbBox 128
  cycleBit : Bool
  dequeueIdx : Fin 128
  interrupterIdx : Fin 1

namespace XhciEventRing

/-- `SEGMENT_SIZE`. -/
def segmentSize : ℕ := 128

/-- The ring that `init_ring` builds in a zeroed segment. -/
def initRing (physicalAddr : ℕ) (aligned : 64 ∣ physicalAddr)
    (fits : physicalAddr + 16 * segmentSize < 2 ^ 64) : XhciEventRing where
  trbs := ⟨Vector.replicate segmentSize .zeroed, physicalAddr, aligned, fits⟩
  cycleBit := true
  dequeueIdx := 0
  interrupterIdx := 0

/-- `get_dequeue_ptr`. -/
def getDequeuePtr (ring : XhciEventRing) : XhciEventRingDequeuePtr :=
  .fromPtr (BitVec.ofNat 64 (ring.trbs.physicalAddr + 16 * ring.dequeueIdx.val))

/-- `dequeue_trb`. -/
def dequeueTrb (ring : XhciEventRing) : Option XhciTrbUnion × XhciEventRing :=
  if ring.trbs.trbs[ring.dequeueIdx].cycleBit ≠ ring.cycleBit then (none, ring)
  else
    let trb := ring.trbs.trbs[ring.dequeueIdx]
    if wrap : ring.dequeueIdx.val + 1 = segmentSize then
      (some trb, { ring with dequeueIdx := 0, cycleBit := !ring.cycleBit })
    else
      (some trb, { ring with
        dequeueIdx := ⟨ring.dequeueIdx.val + 1, Nat.lt_of_le_of_ne ring.dequeueIdx.isLt wrap⟩ })

def cursor (ring : XhciEventRing) : Cursor 128 := ⟨ring.dequeueIdx, ring.cycleBit⟩

theorem getDequeuePtr_address (ring : XhciEventRing) :
    ring.getDequeuePtr.address = ring.trbs.physicalAddr + 16 * ring.dequeueIdx.val := by
  have aligned := ring.trbs.aligned
  have fits := ring.trbs.fits
  have range := ring.dequeueIdx.isLt
  apply XhciEventRingDequeuePtr.address_fromPtr
  · omega
  · omega

theorem dequeueTrb_of_ne {ring : XhciEventRing}
    (unowned : ring.trbs.trbs[ring.dequeueIdx].cycleBit ≠ ring.cycleBit) :
    ring.dequeueTrb = (none, ring) := by
  rw [dequeueTrb, if_pos unowned]

theorem dequeueTrb_of_eq {ring : XhciEventRing}
    (owned : ring.trbs.trbs[ring.dequeueIdx].cycleBit = ring.cycleBit) :
    ∃ ring', ring.dequeueTrb = (some ring.trbs.trbs[ring.dequeueIdx], ring') ∧
      ring'.trbs = ring.trbs ∧ ring'.cursor = ring.cursor.next := by
  rw [dequeueTrb, if_neg (not_not.mpr owned)]
  dsimp only
  split_ifs with wrap
  · refine ⟨_, rfl, rfl, ?_⟩
    have outside : ¬ring.dequeueIdx.val + 1 < 128 := by
      rw [wrap]
      exact Nat.lt_irrefl 128
    exact (ring.cursor.next_of_not_lt outside).symm
  · refine ⟨_, rfl, rfl, ?_⟩
    have inside : ring.dequeueIdx.val + 1 < 128 := Nat.lt_of_le_of_ne ring.dequeueIdx.isLt wrap
    exact (ring.cursor.next_of_lt inside).symm

end XhciEventRing

/-! ## The controller as a producer -/

/-- The ring, the controller's position in it and the events that the controller has written. -/
structure EventChannel where
  /-- `XHCI_EVENT_RING`, with the segment that both sides see. -/
  ring : XhciEventRing
  /-- Where and in which cycle state the controller writes next. -/
  producer : Cursor 128
  /-- The events written so far, as they were written. -/
  enqueued : List XhciTrbUnion

namespace EventChannel

def init (ring : XhciEventRing) : EventChannel := ⟨ring, ⟨0, true⟩, []⟩

/-- The controller writes an event with its cycle state into the next slot. -/
def enqueue (channel : EventChannel) (event : XhciTrbUnion) : EventChannel :=
  let written := event.withCycle channel.producer.cycle
  { ring := { channel.ring with
      trbs := { channel.ring.trbs with
        trbs := channel.ring.trbs.trbs.set channel.producer.index written } }
    producer := channel.producer.next
    enqueued := channel.enqueued ++ [written] }

/-- The driver has taken the first `consumed` events, and no event was overwritten before. -/
structure Tracks (channel : EventChannel) (consumed : ℕ) : Prop where
  holds : RingHolds XhciTrbUnion.cycleBit channel.ring.trbs.trbs channel.enqueued
  producer : channel.producer = .after 128 channel.enqueued.length
  consumer : channel.ring.cursor = .after 128 consumed
  behind : consumed ≤ channel.enqueued.length
  /-- The events not yet taken fit in the segment. -/
  room : channel.enqueued.length ≤ consumed + 128

variable {channel : EventChannel} {consumed : ℕ}

theorem Tracks.init {physicalAddr : ℕ} (aligned : 64 ∣ physicalAddr)
    (fits : physicalAddr + 16 * XhciEventRing.segmentSize < 2 ^ 64) :
    (init (.initRing physicalAddr aligned fits)).Tracks 0 where
  holds := .empty fun i => by
    have zeroed : (Vector.replicate 128 XhciTrbUnion.zeroed)[i.val].cycleBit = false := by simp
    exact zeroed
  producer := Cursor.after_zero.symm
  consumer := Cursor.after_zero.symm
  behind := Nat.le_refl 0
  room := Nat.zero_le _

theorem Tracks.enqueue (tracks : channel.Tracks consumed) (event : XhciTrbUnion)
    (free : channel.enqueued.length < consumed + 128) :
    (channel.enqueue event).Tracks consumed := by
  have position := tracks.producer
  have behind := tracks.behind
  refine ⟨?_, ?_, tracks.consumer, ?_, ?_⟩
  · simp only [EventChannel.enqueue, position]
    exact tracks.holds.push (XhciTrbUnion.cycleBit_withCycle _ _)
  · simp only [EventChannel.enqueue, position, Cursor.next_after, List.length_append,
      List.length_singleton]
  · simp only [EventChannel.enqueue, List.length_append]
    omega
  · simp only [EventChannel.enqueue, List.length_append, List.length_singleton]
    omega

/-- What a look at the ring finds: nothing exactly when every event was taken, else the first event
not taken. -/
theorem Tracks.dequeueTrb_cases (tracks : channel.Tracks consumed) :
    (consumed = channel.enqueued.length ∧ channel.ring.dequeueTrb = (none, channel.ring)) ∨
      ∃ (waiting : consumed < channel.enqueued.length) (ring : XhciEventRing),
        channel.ring.dequeueTrb = (some channel.enqueued[consumed], ring) ∧
        ring.trbs = channel.ring.trbs ∧ { channel with ring }.Tracks (consumed + 1) := by
  have test := tracks.holds.owned_iff tracks.behind tracks.room
  have index : channel.ring.dequeueIdx = Fin.ofNat 128 consumed :=
    congrArg Cursor.index tracks.consumer
  have cycle : channel.ring.cycleBit = lapFlag 128 consumed := congrArg Cursor.cycle tracks.consumer
  by_cases waiting : consumed < channel.enqueued.length
  · right
    have owned := test.mpr waiting
    have stored := tracks.holds.stored consumed waiting tracks.room
    rw [← cycle] at owned
    simp only [← index] at owned stored
    obtain ⟨ring, taken, same, advanced⟩ := XhciEventRing.dequeueTrb_of_eq owned
    rw [stored] at taken
    refine ⟨waiting, ring, taken, same, ?_, tracks.producer, ?_, waiting, ?_⟩
    · rw [same]
      exact tracks.holds
    · rw [advanced, tracks.consumer, Cursor.next_after]
    · have room := tracks.room
      dsimp only
      omega
  · left
    have unowned := mt test.mp waiting
    rw [← cycle] at unowned
    simp only [← index] at unowned
    have behind := tracks.behind
    exact ⟨by omega, XhciEventRing.dequeueTrb_of_ne unowned⟩

/-- The dequeue pointer names the slot of the first event not taken. -/
theorem Tracks.address (tracks : channel.Tracks consumed) :
    channel.ring.getDequeuePtr.address =
      channel.ring.trbs.physicalAddr + 16 * (consumed % 128) := by
  have index : channel.ring.dequeueIdx = Fin.ofNat 128 consumed :=
    congrArg Cursor.index tracks.consumer
  rw [XhciEventRing.getDequeuePtr_address, index, Fin.val_ofNat]

end EventChannel

/-- A run in which the driver takes single blocks. -/
structure TrbRun where
  channel : EventChannel
  /-- The results of `dequeue_trb`, those that found nothing left out. -/
  returned : List XhciTrbUnion

/-- A step of the controller or of the driver. -/
inductive TrbRunStep where
  | enqueue (event : XhciTrbUnion)
  /-- The driver calls `dequeue_trb`. -/
  | dequeueTrb

namespace TrbRun

/-- The effect of `dequeue_trb`. -/
def dequeueTrb (s : TrbRun) : TrbRun :=
  let (found, ring) := s.channel.ring.dequeueTrb
  ⟨{ s.channel with ring }, s.returned ++ found.toList⟩

/-- The effect of a step; the controller keeps one slot free. -/
def perform (s : TrbRun) : TrbRunStep → Option TrbRun
  | .enqueue event =>
      if s.channel.enqueued.length < s.returned.length + (XhciEventRing.segmentSize - 1) then
        some { s with channel := s.channel.enqueue event }
      else none
  | .dequeueTrb => some s.dequeueTrb

def init (ring : XhciEventRing) : TrbRun := ⟨.init ring, []⟩

end TrbRun

/-- The runs in which both sides move in any order. -/
def trbSystem : Behaviour TrbRun TrbRunStep :=
  .ofPerform (fun s => ∃ physicalAddr aligned fits, s = .init (.initRing physicalAddr aligned fits))
    TrbRun.perform

/-- The driver has taken the events in order. -/
structure TrbRun.Follows (s : TrbRun) : Prop where
  /-- The ring agrees with the number of events taken. -/
  tracks : s.channel.Tracks s.returned.length
  inOrder : s.returned <+: s.channel.enqueued

namespace TrbRun.Follows

variable {s : TrbRun}

theorem enqueue (follows : s.Follows) (event : XhciTrbUnion)
    (free : s.channel.enqueued.length < s.returned.length + 127) :
    Follows { s with channel := s.channel.enqueue event } where
  tracks := follows.tracks.enqueue event (by omega)
  inOrder := follows.inOrder.trans (List.prefix_append _ _)

theorem dequeueTrb (follows : s.Follows) : s.dequeueTrb.Follows := by
  rcases follows.tracks.dequeueTrb_cases with ⟨-, nothing⟩ | ⟨waiting, ring, taken, -, tracks⟩
  · have unchanged : s.dequeueTrb = s := by
      simp [TrbRun.dequeueTrb, nothing]
    rw [unchanged]
    exact follows
  · have advanced : s.dequeueTrb =
        ⟨{ s.channel with ring }, s.returned ++ [s.channel.enqueued[s.returned.length]]⟩ := by
      simp [TrbRun.dequeueTrb, taken]
    rw [advanced]
    constructor
    · simpa using tracks
    · have first := List.prefix_iff_eq_take.mp follows.inOrder
      have next := List.take_append_getElem waiting
      rw [← first] at next
      dsimp only
      rw [next]
      exact List.take_prefix _ _

theorem of_reachable (reach : trbSystem.Reachable s) : s.Follows := by
  refine @Behaviour.Reach.invariant _ _ _ _ Follows ?_ ?_ s reach
  · rintro _ ⟨physicalAddr, aligned, fits, rfl⟩
    exact ⟨.init aligned fits, List.prefix_refl _⟩
  · intro s step s' follows _ taken
    cases step with
    | enqueue event =>
        obtain ⟨free, effect⟩ := Option.ite_none_right_eq_some.mp taken
        exact Option.some.inj effect ▸ follows.enqueue event free
    | dequeueTrb => exact Option.some.inj taken ▸ follows.dequeueTrb

end TrbRun.Follows

/-- Over any run the driver takes the events in order, finds nothing exactly when it has taken all
of them, and its index and dequeue pointer count the events taken. -/
theorem dequeueTrb_in_order {s : TrbRun} (reach : trbSystem.Reachable s) :
    s.returned <+: s.channel.enqueued ∧
      (s.channel.ring.dequeueTrb.1 = none ↔ s.returned = s.channel.enqueued) ∧
      s.channel.ring.dequeueIdx.val = s.returned.length % XhciEventRing.segmentSize ∧
      s.channel.ring.getDequeuePtr.address =
        s.channel.ring.trbs.physicalAddr +
          16 * (s.returned.length % XhciEventRing.segmentSize) := by
  have follows := TrbRun.Follows.of_reachable reach
  have index := congrArg Cursor.index follows.tracks.consumer
  refine ⟨follows.inOrder, ?_, congrArg Fin.val index, follows.tracks.address⟩
  rcases follows.tracks.dequeueTrb_cases with ⟨drained, nothing⟩ | ⟨waiting, ring, taken, -, -⟩
  · have all := follows.inOrder.eq_of_length drained
    simp [nothing, all]
  · have missing : s.returned ≠ s.channel.enqueued := by
      intro all
      rw [all] at waiting
      exact Nat.lt_irrefl _ waiting
    simp [taken, missing]

/-- A ring at 64 KiB. -/
def sampleEventRing : XhciEventRing := .initRing 0x10000 (by decide) (by decide)

def sampleEvent (param : ℕ) : XhciTrbUnion := ⟨.ofNat 128 param⟩

/-- 130 events, each taken at once, and a look that finds nothing: the last two events belong to the
second lap. -/
def sampleTrbSteps : List TrbRunStep :=
  (List.range 130).flatMap (fun param => [.enqueue (sampleEvent param), .dequeueTrb]) ++
    [.dequeueTrb]

theorem dequeueTrb_in_order_laps :
    ∃ s : TrbRun, (s.returned.length, s.returned[127]?, s.returned[129]?,
        s.channel.ring.dequeueIdx) =
          (130, some ((sampleEvent 127).withCycle true), some ((sampleEvent 129).withCycle false),
            2) ∧
      s.returned <+: s.channel.enqueued ∧
      (s.channel.ring.dequeueTrb.1 = none ↔ s.returned = s.channel.enqueued) ∧
      s.channel.ring.dequeueIdx.val = s.returned.length % XhciEventRing.segmentSize ∧
      s.channel.ring.getDequeuePtr.address =
        s.channel.ring.trbs.physicalAddr +
          16 * (s.returned.length % XhciEventRing.segmentSize) := by
  have executed :
      (Behaviour.run TrbRun.perform (fun _ _ => True) (.init sampleEventRing) sampleTrbSteps).map
          (fun s => (s.returned.length, s.returned[127]?, s.returned[129]?,
            s.channel.ring.dequeueIdx)) =
        some (130, some ((sampleEvent 127).withCycle true),
          some ((sampleEvent 129).withCycle false), 2) := by decide +kernel
  have start : trbSystem.initial (.init sampleEventRing) := ⟨_, _, _, rfl⟩
  obtain ⟨s, reach, value⟩ := Behaviour.exists_reach start executed
  exact ⟨s, value, dequeueTrb_in_order reach⟩

end Blubos
