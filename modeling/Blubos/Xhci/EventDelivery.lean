import Blubos.Xhci.EventRing

/-!
# Delivery of events

Runs of `dequeue_events`, one round of its loop at a time, with the controller writing events in
between.  The loop takes a block from the ring before it asks whether the buffer has room, so a call
whose buffer is full while events wait takes one that it does not deliver, and publishes a dequeue
pointer past it.  As long as no call looks for an event with a full buffer while one waits, every
event is delivered once, in order, and the published pointer names the first event not delivered.
-/

namespace Blubos

/-- `XhciEventRingDequeueResult`. -/
inductive XhciEventRingDequeueResult where
  | finished (count : ℕ)
  | bufferToSmall (count : ℕ)
deriving DecidableEq

/-- The number of events that a result reports. -/
def XhciEventRingDequeueResult.count : XhciEventRingDequeueResult → ℕ
  | .finished count => count
  | .bufferToSmall count => count

/-- The locals of a running `dequeue_events`. -/
structure DequeueEvents where
  buffer : List XhciTrbUnion
  idx : ℕ
deriving DecidableEq

/-- What a round of the loop leads to. -/
inductive DequeueEventsRound where
  | again (call : DequeueEvents)
  /-- The pointer is written to the interrupter and the call returns. -/
  | returned (published : XhciEventRingDequeuePtr) (result : XhciEventRingDequeueResult)

namespace XhciEventRing

/-- The pointer that `dequeue_events` writes to the interrupter. -/
def publishedPtr (ring : XhciEventRing) : XhciEventRingDequeuePtr :=
  ring.getDequeuePtr.withHandlerBusy true

/-- One round of the loop of `dequeue_events`. -/
def dequeueEventsRound (ring : XhciEventRing) (call : DequeueEvents) :
    DequeueEventsRound × XhciEventRing :=
  match ring.dequeueTrb with
  | (some trb, ring) =>
      if call.idx < call.buffer.length then
        (.again ⟨call.buffer.set call.idx trb, call.idx + 1⟩, ring)
      else (.returned ring.publishedPtr (.bufferToSmall call.idx), ring)
  | (none, ring) => (.returned ring.publishedPtr (.finished call.idx), ring)

end XhciEventRing

/-- The ring and the controller, the pointer register between them, and the callers' view. -/
structure EventDelivery where
  channel : EventChannel
  /-- The number of blocks taken from the ring. -/
  consumed : ℕ
  /-- The number of blocks that had been taken when the pointer was published last. -/
  released : ℕ
  published : XhciEventRingDequeuePtr
  call : Option DequeueEvents
  /-- The first `n` entries of the buffers of all calls that returned `n`. -/
  delivered : List XhciTrbUnion

/-- A step of the controller or of the driver. -/
inductive EventDeliveryStep where
  | enqueue (event : XhciTrbUnion)
  /-- `dequeue_events` is called with a buffer. -/
  | dequeueEvents (buffer : List XhciTrbUnion)
  /-- The running call does one round of its loop. -/
  | round

namespace EventDelivery

/-- After `init_ring`. -/
def init (ring : XhciEventRing) : EventDelivery where
  channel := .init ring
  consumed := 0
  released := 0
  published :=
    (XhciEventRingDequeuePtr.fromPtr (.ofNat 64 ring.trbs.physicalAddr)).withHandlerBusy true
  call := none
  delivered := []

def round (s : EventDelivery) (call : DequeueEvents) : EventDelivery :=
  let consumed := s.consumed + s.channel.ring.dequeueTrb.1.toList.length
  match s.channel.ring.dequeueEventsRound call with
  | (.again call, ring) =>
      { s with channel := { s.channel with ring }, consumed, call := some call }
  | (.returned published result, ring) =>
      { channel := { s.channel with ring }
        consumed
        released := consumed
        published
        call := none
        delivered := s.delivered ++ call.buffer.take result.count }

/-- The effect of a step.  The controller overwrites no slot that the published pointer has not
released. -/
def perform (s : EventDelivery) : EventDeliveryStep → Option EventDelivery
  | .enqueue event =>
      if s.channel.enqueued.length < s.released + XhciEventRing.segmentSize then
        some { s with channel := s.channel.enqueue event }
      else none
  | .dequeueEvents buffer =>
      if s.call = none then some { s with call := some ⟨buffer, 0⟩ } else none
  | .round => s.call.map s.round

/-- Nothing waits when the loop looks for an event with its buffer full. -/
def HasRoom (s : EventDelivery) : EventDeliveryStep → Prop
  | .round => ∀ call ∈ s.call,
      call.idx < call.buffer.length ∨ s.consumed = s.channel.enqueued.length
  | _ => True

/-- The events of the buffers are the first events in order, and between calls the published pointer
names the slot of the first event not delivered. -/
structure Lossless (s : EventDelivery) : Prop where
  inOrder : s.delivered <+: s.channel.enqueued
  pointer : s.call = none → s.published.address =
    s.channel.ring.trbs.physicalAddr + 16 * (s.delivered.length % XhciEventRing.segmentSize)

/-- What the running call has stored so far. -/
def stored (s : EventDelivery) : List XhciTrbUnion :=
  match s.call with
  | none => []
  | some call => call.buffer.take call.idx

/-- The events taken from the ring are those delivered and those stored by the running call. -/
structure Accounts (s : EventDelivery) : Prop where
  /-- The ring agrees with the number of blocks taken. -/
  tracks : s.channel.Tracks s.consumed
  /-- Every block taken was delivered or is in the buffer. -/
  handedOver : s.delivered ++ s.stored = s.channel.enqueued.take s.consumed
  inside : ∀ call ∈ s.call, call.idx ≤ call.buffer.length
  released : s.released = s.delivered.length
  room : s.channel.enqueued.length ≤ s.released + 128
  /-- The pointer names the slot of the first event not released. -/
  pointer : s.published.address = s.channel.ring.trbs.physicalAddr + 16 * (s.released % 128)

end EventDelivery

/-- The runs in which the controller and the driver move in any order. -/
def deliverySystem : Behaviour EventDelivery EventDeliveryStep :=
  .ofPerform (fun s => ∃ physicalAddr aligned fits, s = .init (.initRing physicalAddr aligned fits))
    EventDelivery.perform

namespace EventDelivery.Accounts

variable {s : EventDelivery}

theorem init {physicalAddr : ℕ} (aligned : 64 ∣ physicalAddr)
    (fits : physicalAddr + 16 * XhciEventRing.segmentSize < 2 ^ 64) :
    (init (.initRing physicalAddr aligned fits)).Accounts where
  tracks := .init aligned fits
  handedOver := rfl
  inside := by simp [EventDelivery.init]
  released := rfl
  room := Nat.zero_le _
  pointer := by
    rw [EventDelivery.init, XhciEventRingDequeuePtr.address_withHandlerBusy]
    apply XhciEventRingDequeuePtr.address_fromPtr
    · exact Nat.dvd_trans (by decide) aligned
    · exact Nat.lt_of_le_of_lt (Nat.le_add_right _ _) fits

theorem released_le (accounts : s.Accounts) : s.released ≤ s.consumed := by
  have taken := congrArg List.length accounts.handedOver
  have behind := accounts.tracks.behind
  have released := accounts.released
  rw [List.length_append, List.length_take_of_le behind] at taken
  omega

theorem enqueue (accounts : s.Accounts) (event : XhciTrbUnion)
    (free : s.channel.enqueued.length < s.released + 128) :
    Accounts { s with channel := s.channel.enqueue event } where
  tracks := accounts.tracks.enqueue event (by
    have released := accounts.released_le
    omega)
  handedOver := by
    have same : (s.channel.enqueue event).enqueued.take s.consumed =
        s.channel.enqueued.take s.consumed :=
      List.take_append_of_le_length accounts.tracks.behind
    rw [same]
    exact accounts.handedOver
  inside := accounts.inside
  released := accounts.released
  room := by
    simp only [EventChannel.enqueue, List.length_append, List.length_singleton]
    omega
  pointer := accounts.pointer

theorem begin (accounts : s.Accounts) (idle : s.call = none) (buffer : List XhciTrbUnion) :
    Accounts { s with call := some ⟨buffer, 0⟩ } where
  tracks := accounts.tracks
  handedOver := by
    have same : stored { s with call := some ⟨buffer, 0⟩ } = s.stored := by
      simp [stored, idle]
    rw [same]
    exact accounts.handedOver
  inside := by simp
  released := accounts.released
  room := accounts.room
  pointer := accounts.pointer

/-- A round that finds nothing returns what is stored and publishes the pointer. -/
theorem round_drained (accounts : s.Accounts) {call : DequeueEvents} (running : s.call = some call)
    (drained : s.consumed = s.channel.enqueued.length)
    (nothing : s.channel.ring.dequeueTrb = (none, s.channel.ring)) : (s.round call).Accounts := by
  have effect : s.round call =
      { s with
        released := s.consumed
        published := s.channel.ring.publishedPtr
        call := none
        delivered := s.delivered ++ call.buffer.take call.idx } := by
    simp [round, XhciEventRing.dequeueEventsRound, nothing, XhciEventRingDequeueResult.count]
  have handedOver := accounts.handedOver
  simp only [stored, running] at handedOver
  rw [effect]
  refine ⟨accounts.tracks, ?_, ?_, ?_, ?_, ?_⟩
  · simpa [stored] using handedOver
  · simp
  · dsimp only
    rw [handedOver, List.length_take_of_le accounts.tracks.behind]
  · dsimp only
    omega
  · rw [XhciEventRing.publishedPtr, XhciEventRingDequeuePtr.address_withHandlerBusy]
    exact accounts.tracks.address

/-- A round that finds an event with room in the buffer stores it. -/
theorem round_stored (accounts : s.Accounts) {call : DequeueEvents} (running : s.call = some call)
    (free : call.idx < call.buffer.length) (waiting : s.consumed < s.channel.enqueued.length)
    {ring : XhciEventRing}
    (taken : s.channel.ring.dequeueTrb = (some s.channel.enqueued[s.consumed], ring))
    (same : ring.trbs = s.channel.ring.trbs)
    (tracks : { s.channel with ring }.Tracks (s.consumed + 1)) : (s.round call).Accounts := by
  have effect : s.round call =
      { s with
        channel := { s.channel with ring }
        consumed := s.consumed + 1
        call := some ⟨call.buffer.set call.idx s.channel.enqueued[s.consumed], call.idx + 1⟩ } := by
    simp [round, XhciEventRing.dequeueEventsRound, taken, free]
  have handedOver := accounts.handedOver
  simp only [stored, running] at handedOver
  rw [effect]
  refine ⟨tracks, ?_, ?_, accounts.released, accounts.room, ?_⟩
  · simp only [stored]
    rw [take_set_succ free, ← List.append_assoc, handedOver, List.take_append_getElem waiting]
  · intro call' present
    obtain rfl := Option.some.inj present
    rw [List.length_set]
    exact free
  · dsimp only
    rw [same]
    exact accounts.pointer

theorem round (accounts : s.Accounts) {call : DequeueEvents} (running : s.call = some call)
    (room : s.HasRoom .round) : (s.round call).Accounts := by
  rcases accounts.tracks.dequeueTrb_cases with
    ⟨drained, nothing⟩ | ⟨waiting, ring, taken, same, tracks⟩
  · exact accounts.round_drained running drained nothing
  · rcases room call running with free | drained
    · exact accounts.round_stored running free waiting taken same tracks
    · omega

theorem lossless (accounts : s.Accounts) : s.Lossless := by
  have inOrder : s.delivered <+: s.channel.enqueued := by
    have part := List.prefix_append s.delivered s.stored
    rw [accounts.handedOver] at part
    exact part.trans (List.take_prefix _ _)
  constructor
  · exact inOrder
  · intro _
    rw [accounts.pointer, accounts.released]
    rfl

theorem of_reach (reach : deliverySystem.Reach EventDelivery.HasRoom s) : s.Accounts := by
  refine @Behaviour.Reach.invariant _ _ _ _ Accounts ?_ ?_ s reach
  · rintro _ ⟨physicalAddr, aligned, fits, rfl⟩
    exact init aligned fits
  · intro s step s' accounts room taken
    cases step with
    | enqueue event =>
        obtain ⟨free, effect⟩ := Option.ite_none_right_eq_some.mp taken
        exact Option.some.inj effect ▸ accounts.enqueue event free
    | dequeueEvents buffer =>
        obtain ⟨idle, effect⟩ := Option.ite_none_right_eq_some.mp taken
        exact Option.some.inj effect ▸ accounts.begin idle buffer
    | round =>
        obtain ⟨call, running, rfl⟩ := Option.map_eq_some_iff.mp taken
        exact accounts.round running room

end EventDelivery.Accounts

/-- The condition is exact: a round that finds an event with the buffer full drops it and publishes
the pointer past it. -/
theorem not_lossless_of_full {s s' : EventDelivery}
    (reach : deliverySystem.Reach EventDelivery.HasRoom s)
    (taken : deliverySystem.step s .round s') (full : ¬s.HasRoom .round) : ¬s'.Lossless := by
  have accounts := EventDelivery.Accounts.of_reach reach
  obtain ⟨call, running, rfl⟩ := Option.map_eq_some_iff.mp taken
  have full : ¬(call.idx < call.buffer.length) ∧ s.consumed ≠ s.channel.enqueued.length := by
    simpa [EventDelivery.HasRoom, running] using full
  rcases accounts.tracks.dequeueTrb_cases with
    ⟨drained, -⟩ | ⟨waiting, ring, taken, same, tracks⟩
  · exact absurd drained full.2
  have handedOver := accounts.handedOver
  simp only [EventDelivery.stored, running] at handedOver
  have effect : s.round call =
      { s with
        channel := { s.channel with ring }
        consumed := s.consumed + 1
        released := s.consumed + 1
        published := ring.publishedPtr
        call := none
        delivered := s.channel.enqueued.take s.consumed } := by
    simp [EventDelivery.round, XhciEventRing.dequeueEventsRound, taken, full.1,
      XhciEventRingDequeueResult.count, handedOver]
  intro lossless
  rw [effect] at lossless
  have pointer := lossless.pointer rfl
  have address := tracks.address
  simp only [XhciEventRing.publishedPtr, XhciEventRingDequeuePtr.address_withHandlerBusy,
    XhciEventRing.segmentSize, List.length_take_of_le accounts.tracks.behind] at pointer
  dsimp only at address
  omega

/-- In every run in which no call looks for an event with a full buffer while one waits, events are
delivered in order and the published pointer counts them. -/
theorem lossless_of_reach {s : EventDelivery}
    (reach : deliverySystem.Reach EventDelivery.HasRoom s) :
    s.Lossless := (EventDelivery.Accounts.of_reach reach).lossless

instance (s : EventDelivery) (step : EventDeliveryStep) : Decidable (s.HasRoom step) :=
  match step with
  | .enqueue _ => .isTrue trivial
  | .dequeueEvents _ => .isTrue trivial
  | .round =>
      decidable_of_iff (s.call.all fun call =>
        decide (call.idx < call.buffer.length ∨ s.consumed = s.channel.enqueued.length)) (by
          unfold EventDelivery.HasRoom
          cases s.call <;> simp)

/-- An event before a call with a buffer of two and an event during it. -/
theorem lossless_of_reach_calls :
    ∃ s : EventDelivery, (s.delivered, s.call, s.published.address) =
        ([(sampleEvent 1).withCycle true, (sampleEvent 2).withCycle true], none, 0x10020) ∧
      s.Lossless := by
  have executed :
      (Behaviour.run EventDelivery.perform EventDelivery.HasRoom (.init sampleEventRing)
        [.enqueue (sampleEvent 1), .dequeueEvents [.zeroed, .zeroed], .round,
          .enqueue (sampleEvent 2), .round, .round]).map
          (fun s => (s.delivered, s.call, s.published.address)) =
        some ([(sampleEvent 1).withCycle true, (sampleEvent 2).withCycle true], none, 0x10020) := by
    decide +kernel
  have start : deliverySystem.initial (.init sampleEventRing) := ⟨_, _, _, rfl⟩
  obtain ⟨s, reach, value⟩ := Behaviour.exists_reach start executed
  exact ⟨s, value, lossless_of_reach reach⟩

/-- Three events wait for two calls with buffers of one: the second event is taken by the first call
and delivered by neither. -/
theorem lossless_of_reachable_false : ¬∀ s, deliverySystem.Reachable s → s.Lossless := by
  intro lossless
  have executed :
      (Behaviour.run EventDelivery.perform (fun _ _ => True) (.init sampleEventRing)
        [.enqueue (sampleEvent 1), .enqueue (sampleEvent 2), .enqueue (sampleEvent 3),
          .dequeueEvents [.zeroed], .round, .round, .dequeueEvents [.zeroed], .round, .round]).map
          (fun s => (s.delivered, s.channel.enqueued)) =
        some ([(sampleEvent 1).withCycle true, (sampleEvent 3).withCycle true],
          [(sampleEvent 1).withCycle true, (sampleEvent 2).withCycle true,
            (sampleEvent 3).withCycle true]) := by
    decide +kernel
  have start : deliverySystem.initial (.init sampleEventRing) := ⟨_, _, _, rfl⟩
  obtain ⟨s, reach, value⟩ := Behaviour.exists_reach start executed
  have inOrder := (lossless s reach).inOrder
  obtain ⟨delivered, enqueued⟩ := Prod.mk.inj value
  rw [delivered, enqueued] at inOrder
  exact absurd inOrder (by decide)

end Blubos
