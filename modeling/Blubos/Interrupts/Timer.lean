import Blubos.Foundation.BitField
import Blubos.Interrupts.Service

/-!
# The timer

Channel 0 of the timer counts clocks and asks for service at the end of every period.  `pit_init`
sets the period before interrupts are enabled.  From then on the ticks that the kernel counts are
compared with the clocks that have passed, whatever else happens in between.
-/

namespace Blubos

/-- Channel 0 of the timer. -/
structure Pit where
  /-- Which bytes of a count are written. -/
  access : BitVec 2
  mode : BitVec 3
  decimal : Bool
  /-- The low byte of a count whose high byte is not written yet. -/
  low : Option (BitVec 8)
  /-- The count that was written since the last control word. -/
  count : Option (BitVec 16)
  /-- The clocks since the last request. -/
  elapsed : ℕ

namespace Pit

/-- A control word; those of other channels and the latch command do not change channel 0. -/
def control (pit : Pit) (value : BitVec 8) : Pit :=
  if value.extractLsb' 6 2 = 0 ∧ value.extractLsb' 4 2 ≠ 0 then
    ⟨value.extractLsb' 4 2, value.extractLsb' 1 3, value.getLsbD 0, none, none, 0⟩
  else pit

/-- A complete count. -/
def load (pit : Pit) (count : BitVec 16) : Pit :=
  { pit with low := none, count := some count, elapsed := 0 }

/-- A byte of a count. -/
def data (pit : Pit) (value : BitVec 8) : Pit :=
  if pit.access = 1 then pit.load (value.setWidth 16)
  else if pit.access = 2 then pit.load (value ++ (0 : BitVec 8))
  else pit.low.elim { pit with low := some value } fun low => pit.load (value ++ low)

/-- `outb`, as far as channel 0 sees it. -/
def outb (pit : Pit) (port : BitVec 16) (value : BitVec 8) : Pit :=
  if port = 0x43 then pit.control value
  else if port = 0x40 then pit.data value
  else pit

/-- The clocks from one request to the next, where requests are repeated and the count is binary;
zero stands for the largest count, and one is not allowed. -/
def period (pit : Pit) : Option ℕ :=
  pit.count.bind fun count =>
    if pit.mode.getLsbD 1 ∧ pit.decimal = false ∧ count ≠ 1 then
      some (if count = 0 then 2 ^ 16 else count.toNat)
    else none

/-- The last clock of a period asks for service. -/
def asks (pit : Pit) : Bool := pit.period.any fun period => period ≤ pit.elapsed + 1

def clock (pit : Pit) : Pit := { pit with elapsed := if pit.asks then 0 else pit.elapsed + 1 }

end Pit

/-- `PIT_FREQUENCY`. -/
def pitFrequency : BitVec 32 := 1193182

/-- `pit_init`; without a result it panics. -/
def pitInit (hz : BitVec 32) (pit : Pit) : Option Pit :=
  if hz = 0 then none
  else
    let divisor : BitVec 16 := (pitFrequency / hz).setWidth 16
    some (((pit.outb 0x43 0x36).outb 0x40 ((divisor &&& 0xFF).setWidth 8)).outb 0x40
      ((divisor >>> 8).setWidth 8))

theorem append_bytes (word : BitVec 16) :
    (word >>> 8).setWidth 8 ++ (word &&& 0xFF).setWidth 8 = word := by
  have mask : (0xFF : BitVec 16) = (BitVec.allOnes 8).setWidth 16 := rfl
  have low : (word &&& 0xFF).setWidth 8 = BitField.get 0 8 word := by
    rw [mask, BitField.and_allOnes, BitVec.setWidth_setWidth_of_le _ (by omega),
      BitVec.setWidth_eq, BitField.get_eq_ushiftRight, BitVec.ushiftRight_zero]
  rw [low, ← BitField.get_eq_ushiftRight]
  exact @BitField.append_get 8 8 word

/-- The control word of `pit_init` and the bytes of a count start the channel, whatever its state
was. -/
theorem Pit.outb_word (pit : Pit) (word : BitVec 16) :
    ((pit.outb 0x43 0x36).outb 0x40 ((word &&& 0xFF).setWidth 8)).outb 0x40
      ((word >>> 8).setWidth 8) = ⟨3, 3, false, none, some word, 0⟩ := by
  change Pit.mk 3 3 false none (some _) 0 = _
  rw [append_bytes]

/-- `pit_init` sets the period that was asked for, whatever state the timer was in. -/
theorem period_pitInit {hz : BitVec 32} {pit pit' : Pit} (slow : 19 ≤ hz.toNat)
    (fast : hz.toNat ≤ 596591) (set : pitInit hz pit = some pit') :
    pit'.period = some (1193182 / hz.toNat) ∧ pit'.elapsed = 0 := by
  have least : 2 ≤ 1193182 / hz.toNat := (Nat.le_div_iff_mul_le (by omega)).mpr (by omega)
  have most : 1193182 / hz.toNat < 2 ^ 16 := by
    rw [Nat.div_lt_iff_lt_mul (by omega)]
    omega
  have divisor : ((pitFrequency / hz).setWidth 16).toNat = 1193182 / hz.toNat := by
    rw [BitVec.toNat_setWidth, BitVec.toNat_udiv, Nat.mod_eq_of_lt]
    · rfl
    · exact most
  have nonzero : hz ≠ 0 := by
    rintro rfl
    exact absurd slow (by decide)
  rw [pitInit, if_neg nonzero] at set
  have loaded := (Option.some.inj set).symm.trans (pit.outb_word _)
  generalize (pitFrequency / hz).setWidth 16 = word at divisor loaded
  rw [loaded]
  refine ⟨?_, rfl⟩
  rw [← divisor] at least ⊢
  have counts : (3 : BitVec 3).getLsbD 1 ∧ false = false ∧ word ≠ 1 := by
    refine ⟨rfl, rfl, ?_⟩
    rintro rfl
    exact absurd least (by decide)
  have nonzero' : word ≠ 0 := by
    rintro rfl
    exact absurd least (by decide)
  exact (if_pos counts).trans (congrArg some (if_neg nonzero'))

/-! ## The kernel and its clock -/

/-- The kernel with its timer, from `pit_init` on. -/
structure TimedState where
  kernel : InterruptState
  pit : Pit
  /-- The clocks that have passed. -/
  clocks : ℕ
  /-- Periods that ended while the request of an earlier one was not accepted. -/
  missed : ℕ
  /-- When `wait_ms` was called. -/
  since : ℕ
  /-- Calls of `wait_ms` that returned, with the clocks they took. -/
  lasted : List (ℕ × ℕ)

/-- A request of the timer. -/
def InterruptEvent.fromTimer : InterruptEvent → Bool
  | raise line => line = .master Pics.timerLine
  | _ => false

inductive TimedEvent where
  | clock
  | kernel (event : InterruptEvent)

namespace TimedState

def pending (s : TimedState) : Prop := s.kernel.pics.requested (.master Pics.timerLine)

instance (s : TimedState) : Decidable s.pending := inferInstanceAs (Decidable (Pics.requested _ _))

/-- What an event of the kernel changes. -/
def follow (s : TimedState) (kernel : InterruptState) : TimedState :=
  { s with
    kernel
    since := if s.kernel.waiting.isSome then s.since else s.clocks
    lasted := if kernel.waiting.isSome then s.lasted
      else (s.kernel.waiting.toList.map fun wait => (wait.ms, s.clocks - s.since)) ++ s.lasted }

/-- The effect of an event, where it can happen. -/
def perform (s : TimedState) : TimedEvent → Option TimedState
  | .clock =>
      let later := { s with pit := s.pit.clock, clocks := s.clocks + 1 }
      if s.pit.asks then
        (s.kernel.perform (.raise (.master Pics.timerLine))).map fun kernel =>
          { later with kernel, missed := if s.pending then s.missed + 1 else s.missed }
      else some later
  | .kernel event =>
      if event.fromTimer then none else (s.kernel.perform event).map s.follow

end TimedState

/-- The runs of the kernel with its timer: at `pit_init`, which comes before `sti`, the controllers
and the timer are in any state. -/
def timedSystem (hz : BitVec 32) : Behaviour TimedState TimedEvent :=
  .ofPerform (fun s => ∃ kernel pit pit', interruptSystem.Reachable kernel ∧
    kernel.enabled = false ∧ kernel.waiting = none ∧ pitInit hz pit = some pit' ∧
    s = ⟨kernel, pit', 0, 0, 0, []⟩) TimedState.perform

/-- What a step of the kernel does to the requests of the timer and to `wait_ms`. -/
structure Follows (event : InterruptEvent) (s s' : InterruptState) : Prop where
  disabled : s'.enabled = false → s.enabled = false ∧ s'.served = s.served
  raised : event.fromTimer = false →
    s'.raised.count (.master Pics.timerLine) = s.raised.count (.master Pics.timerLine)
  waiting : s'.waiting = s.waiting ∨
    (s.waiting = none ∧ ∃ wait, s'.waiting = some wait ∧ wait.since = s.timerServed) ∨
    ∃ wait, s.waiting = some wait ∧ s'.waiting = none ∧
      s'.waited = (wait.ms, s.timerServed - wait.since) :: s.waited

theorem Follows.of_eq {event : InterruptEvent} {s s' : InterruptState}
    (served : s'.served = s.served) (raised : s'.raised = s.raised)
    (waiting : s'.waiting = s.waiting) (enabled : s'.enabled = s.enabled) : Follows event s s' :=
  ⟨fun disabled => ⟨enabled ▸ disabled, served⟩, fun _ => by rw [raised], .inl waiting⟩

namespace InterruptState

variable {s s' : InterruptState}

theorem follows_execute {event : InterruptEvent} (status : BitVec 8) (step : HandlerStep)
    (rest : List HandlerStep) : Follows event s (s.execute status rest step) := by
  cases step with
  | countTick | readStatus | readData | outb => exact .of_eq rfl rfl rfl rfl
  | countKey =>
      unfold execute
      cases s.keypressCount with
      | none => exact .of_eq rfl rfl rfl rfl
      | some count =>
          dsimp only
          split_ifs <;> exact .of_eq rfl rfl rfl rfl

theorem follows_perform {event : InterruptEvent} (performed : s.perform event = some s') :
    Follows event s s' := by
  cases event with
  | raise line =>
      by_cases chain : line = .master Pics.cascade
      · rw [perform, if_pos chain] at performed
        cases performed
      rw [perform, if_neg chain] at performed
      obtain rfl := Option.some.inj performed
      refine ⟨fun disabled => ⟨disabled, rfl⟩, fun other => ?_, .inl rfl⟩
      have apart : line ≠ .master Pics.timerLine := of_decide_eq_false other
      dsimp only
      split_ifs
      · rfl
      · exact List.count_cons_of_ne apart
  | accept =>
      obtain ⟨enabled, -, line, vector, pics, -, rfl⟩ := perform_accept performed
      cases (idt vector).bind IdtEntry.steps with
      | none | some steps =>
          exact ⟨fun disabled => Bool.noConfusion (enabled.symm.trans disabled), fun _ => rfl,
            .inl rfl⟩
  | handle status =>
      simp only [perform] at performed
      split_ifs at performed
      split at performed
      · cases performed
      · exact Option.some.inj performed ▸ .of_eq rfl rfl rfl rfl
      · exact Option.some.inj performed ▸ follows_execute _ _ _
  | sti =>
      simp only [perform] at performed
      split_ifs at performed
      obtain rfl := Option.some.inj performed
      exact ⟨fun disabled => Bool.noConfusion disabled, fun _ => rfl, .inl rfl⟩
  | initCount =>
      simp only [perform] at performed
      split_ifs at performed
      exact Option.some.inj performed ▸ .of_eq rfl rfl rfl rfl
  | wait ms =>
      simp only [perform] at performed
      split_ifs at performed with waits
      split at performed
      · exact Option.some.inj performed ▸ .of_eq rfl rfl rfl rfl
      · obtain rfl := Option.some.inj performed
        exact ⟨fun disabled => ⟨disabled, rfl⟩, fun _ => rfl,
          .inr (.inl ⟨Option.isNone_iff_eq_none.mp waits.2.2, _, rfl, rfl⟩)⟩
  | poll =>
      simp only [perform] at performed
      split_ifs at performed
      split at performed
      · cases performed
      · rename_i waiting present
        split_ifs at performed
        · exact Option.some.inj performed ▸ .of_eq rfl rfl rfl rfl
        · obtain rfl := Option.some.inj performed
          exact ⟨fun disabled => ⟨disabled, rfl⟩, fun _ => rfl,
            .inr (.inr ⟨waiting, present, rfl, rfl⟩)⟩

/-- Before `sti` no interrupt is accepted. -/
theorem served_of_disabled (reach : interruptSystem.Reachable s) :
    s.enabled = false → s.served = [] := by
  refine @Behaviour.Reach.invariant _ _ _ _ (fun s => s.enabled = false → s.served = []) ?_
    (fun s event s' none _ taken disabled => ?_) _ reach
  · rintro _ ⟨pics, rfl⟩ -
    rfl
  · obtain ⟨before, same⟩ := (follows_perform taken).disabled disabled
    exact same.trans (none before)

end InterruptState

/-! ## Time -/

theorem lasts {n ms since clocks : ℕ} (positive : 0 < n)
    (ended : ms + since / n ≤ clocks / n + 1) (ordered : since ≤ clocks) :
    ms * n < clocks - since + 2 * n := by
  have whole : (ms + since / n) * n ≤ (clocks / n + 1) * n := Nat.mul_le_mul_right n ended
  have early : since < (since / n + 1) * n := Nat.lt_mul_of_div_lt (Nat.lt_succ_self _) positive
  have late : clocks / n * n ≤ clocks := Nat.div_mul_le_self clocks n
  rw [Nat.add_mul] at whole early
  rw [Nat.add_mul] at whole
  omega

/-- A clock within a period, and the last one of it. -/
theorem divMod_succ {n clocks : ℕ} (positive : 0 < n) :
    ((clocks + 1) / n, (clocks + 1) % n) =
      if n ≤ clocks % n + 1 then (clocks / n + 1, 0) else (clocks / n, clocks % n + 1) := by
  have split := Nat.div_add_mod clocks n
  have within := Nat.mod_lt clocks positive
  split_ifs with last
  · have whole : clocks + 1 = n * (clocks / n + 1) := by
      rw [Nat.mul_add]
      omega
    rw [whole, Nat.mul_div_cancel_left _ positive, Nat.mul_mod_right]
  · obtain ⟨quotient, remainder⟩ := (Nat.div_mod_unique positive).mpr
      ⟨(by omega : clocks % n + 1 + n * (clocks / n) = clocks + 1), not_le.mp last⟩
    rw [quotient, remainder]

/-- What holds of time while the kernel runs. -/
structure Timed (n : ℕ) (s : TimedState) : Prop where
  controlled : Controlled s.kernel
  counted : Counted s.kernel
  period : s.pit.period = some n
  elapsed : s.pit.elapsed = s.clocks % n
  /-- Every period that has ended made a request, but for those that were missed. -/
  least : s.clocks / n ≤ s.kernel.raised.count (.master Pics.timerLine) + s.missed
  most : s.kernel.raised.count (.master Pics.timerLine) + s.missed ≤ s.clocks / n + 1
  /-- While `wait_ms` waits, requests are those of the periods that end, and one from before. -/
  waiting : ∀ wait ∈ s.kernel.waiting, s.since ≤ s.clocks ∧
    s.kernel.raised.count (.master Pics.timerLine) + s.since / n ≤ wait.since + s.clocks / n + 1 ∧
    wait.since + s.clocks / n ≤
      s.kernel.raised.count (.master Pics.timerLine) + s.missed + s.since / n
  lasted : ∀ wait ∈ s.lasted, wait.1 * n < wait.2 + 2 * n

namespace Timed

variable {n : ℕ} {s : TimedState}

theorem raised (timed : Timed n s) :
    s.kernel.raised.count (.master Pics.timerLine) =
      s.kernel.timerServed + if s.pending then 1 else 0 :=
  timed.controlled.ledger _

theorem follow {event : InterruptEvent} {kernel : InterruptState} (positive : 0 < n)
    (timed : Timed n s) (other : event.fromTimer = false)
    (performed : s.kernel.perform event = some kernel) : Timed n (s.follow kernel) := by
  have taken := InterruptState.perform_step performed
  have controlled := timed.controlled.step taken
  have counted := timed.counted.step timed.controlled taken
  obtain ⟨-, same, change⟩ := InterruptState.follows_perform performed
  have requests := same other
  refine ⟨controlled, counted, timed.period, timed.elapsed, ?_, ?_, ?_, ?_⟩
  · exact requests ▸ timed.least
  · exact requests ▸ timed.most
  · intro wait waits
    change wait ∈ kernel.waiting at waits
    change (if s.kernel.waiting.isSome then s.since else s.clocks) ≤ s.clocks ∧
      kernel.raised.count (.master Pics.timerLine) +
        (if s.kernel.waiting.isSome then s.since else s.clocks) / n ≤
        wait.since + s.clocks / n + 1 ∧
      wait.since + s.clocks / n ≤ kernel.raised.count (.master Pics.timerLine) + s.missed +
        (if s.kernel.waiting.isSome then s.since else s.clocks) / n
    rw [requests]
    rcases change with goes | ⟨rested, begun, begins, since⟩ | ⟨_, _, ends, _⟩
    · rw [goes] at waits
      rw [if_pos (by rw [Option.mem_def.mp waits]; rfl)]
      exact timed.waiting wait waits
    · obtain rfl := Option.some.inj (begins.symm.trans waits)
      rw [rested, if_neg (by simp), since, timed.raised]
      refine ⟨le_rfl, ?_⟩
      split_ifs
      · omega
      · omega
    · rw [ends] at waits
      cases waits
  · change ∀ wait ∈ (if kernel.waiting.isSome then s.lasted else
      (s.kernel.waiting.toList.map fun wait => (wait.ms, s.clocks - s.since)) ++ s.lasted), _
    split_ifs with goes
    · exact timed.lasted
    · intro wait waits
      rcases List.mem_append.mp waits with ended | before
      · obtain ⟨call, called, rfl⟩ := List.mem_map.mp ended
        have present : s.kernel.waiting = some call := Option.mem_toList.mp called
        obtain ⟨ordered, requested, -⟩ := timed.waiting call present
        rcases change with same | ⟨rested, _⟩ | ⟨call', present', ends, waited⟩
        · rw [same, present] at goes
          exact absurd rfl goes
        · rw [rested] at present
          cases present
        · obtain rfl := Option.some.inj (present'.symm.trans present)
          have long : call'.ms ≤ s.kernel.timerServed - call'.since :=
            counted.waited _ (waited ▸ List.mem_cons_self)
          have since := (timed.counted.waiting call' present).1
          have raised := timed.raised
          exact lasts positive (by omega) ordered
      · exact timed.lasted wait before

/-- A clock in which as many requests are made or missed as periods end. -/
theorem pass {kernel : InterruptState} {missed ended : ℕ} (timed : Timed n s)
    (controlled : Controlled kernel) (counted : Counted kernel)
    (waiting : kernel.waiting = s.kernel.waiting)
    (divided : ((s.clocks + 1) / n, (s.clocks + 1) % n) =
      (s.clocks / n + ended, s.pit.clock.elapsed))
    (few : kernel.raised.count (.master Pics.timerLine) ≤
      s.kernel.raised.count (.master Pics.timerLine) + ended)
    (requests : kernel.raised.count (.master Pics.timerLine) + missed =
      s.kernel.raised.count (.master Pics.timerLine) + s.missed + ended) :
    Timed n { s with kernel, missed, pit := s.pit.clock, clocks := s.clocks + 1 } := by
  obtain ⟨quotient, remainder⟩ := Prod.mk.inj divided
  obtain ⟨-, -, period, -, least, most, waits, lasted⟩ := timed
  refine ⟨controlled, counted, period, remainder.symm, ?_, ?_, fun wait member => ?_, lasted⟩
  · rw [quotient, requests]
    omega
  · rw [quotient, requests]
    omega
  · obtain ⟨ordered, requested, made⟩ := waits wait (waiting ▸ member)
    refine ⟨ordered.trans (Nat.le_succ _), ?_⟩
    dsimp only
    rw [quotient]
    omega

/-- A clock that ends a period makes a request, or misses it. -/
theorem clock {s' : TimedState} (positive : 0 < n) (timed : Timed n s)
    (performed : s.perform .clock = some s') : Timed n s' := by
  have asks : s.pit.asks = true ↔ n ≤ s.clocks % n + 1 := by
    rw [Pit.asks, timed.period, Option.any_some, timed.elapsed, decide_eq_true_iff]
  have apart : IrqLine.master Pics.timerLine ≠ .master Pics.cascade := by decide
  have divided := @divMod_succ n s.clocks positive
  by_cases last : s.pit.asks = true
  · have elapsed : s.pit.clock.elapsed = 0 := if_pos last
    rw [if_pos (asks.mp last), ← elapsed] at divided
    rw [TimedState.perform, if_pos last, InterruptState.perform, if_neg apart] at performed
    obtain rfl := Option.some.inj performed
    refine timed.pass (timed.controlled.raise apart)
      (timed.counted.step timed.controlled (.raise _ apart)) rfl divided ?_ ?_
    · dsimp only
      split_ifs
      · exact Nat.le_succ _
      · exact List.count_cons_self.le
    · change (if s.pending then _ else _ :: _).count _ + (if s.pending then _ else _) = _
      split_ifs
      · rfl
      · rw [List.count_cons_self]
        omega
  · have elapsed : s.pit.clock.elapsed = s.clocks % n + 1 := by
      rw [← timed.elapsed]
      exact if_neg last
    rw [if_neg (fun full => last (asks.mpr full)), ← elapsed] at divided
    rw [TimedState.perform, if_neg last] at performed
    obtain rfl := Option.some.inj performed
    exact @pass n s s.kernel s.missed 0 timed timed.controlled timed.counted rfl divided le_rfl rfl

/-- When enough periods have ended, `wait_ms` returns. -/
theorem returns (positive : 0 < n) (timed : Timed n s) (resting : s.kernel.running = none)
    (alive : s.kernel.crash = none) (few : s.kernel.timerServed < 2 ^ 64) {wait : Waiting}
    (waits : s.kernel.waiting = some wait)
    (long : (wait.ms + s.missed + 1) * n ≤ s.clocks - s.since) :
    ∃ s', s.perform (.kernel .poll) = some s' ∧ s'.kernel.waiting = none ∧
      s'.lasted = (wait.ms, s.clocks - s.since) :: s.lasted := by
  obtain ⟨ordered, -, made⟩ := timed.waiting wait waits
  obtain ⟨since, target⟩ := timed.counted.waiting wait waits
  have periods : wait.ms + s.missed + 1 + s.since / n ≤ s.clocks / n := by
    rw [Nat.le_div_iff_mul_le positive, Nat.add_mul]
    have before : s.since / n * n ≤ s.since := Nat.div_mul_le_self s.since n
    omega
  have served : wait.since + wait.ms ≤ s.kernel.timerServed := by
    have raised := timed.raised
    split_ifs at raised
    · omega
    · omega
  have reached : ¬s.kernel.ticks.toNat < wait.target := by
    rw [timed.counted.toNat_ticks resting, Nat.mod_eq_of_lt few, target,
      Nat.mod_eq_of_lt (since.trans_lt few)]
    exact not_lt.mpr served
  have polled : s.kernel.perform .poll = some { s.kernel with
      waiting := none
      waited := (wait.ms, s.kernel.timerServed - wait.since) :: s.kernel.waited } := by
    rw [InterruptState.perform, if_pos ⟨by rw [resting]; rfl, by rw [alive]; rfl⟩, waits]
    exact if_neg reached
  have performed : s.perform (.kernel .poll) = (s.kernel.perform .poll).map s.follow := rfl
  rw [polled] at performed
  refine ⟨_, performed, rfl, ?_⟩
  change (s.kernel.waiting.toList.map fun wait => (wait.ms, s.clocks - s.since)) ++ s.lasted = _
  rw [waits]
  rfl

theorem start {hz : BitVec 32} {kernel : InterruptState} {pit pit' : Pit} (slow : 19 ≤ hz.toNat)
    (fast : hz.toNat ≤ 596591) (controlled : Controlled kernel) (counted : Counted kernel)
    (unserved : kernel.served = []) (rested : kernel.waiting = none)
    (set : pitInit hz pit = some pit') :
    Timed (1193182 / hz.toNat) ⟨kernel, pit', 0, 0, 0, []⟩ := by
  obtain ⟨period, elapsed⟩ := period_pitInit slow fast set
  have ledger := controlled.ledger (.master Pics.timerLine)
  rw [unserved] at ledger
  refine ⟨controlled, counted, period, by rw [elapsed, Nat.zero_mod], ?_, ?_, ?_, by simp⟩
  · rw [Nat.zero_div]
    exact Nat.zero_le _
  · rw [Nat.zero_div, ledger]
    split_ifs <;> simp
  · rw [rested]
    simp

end Timed

/-- The kernel keeps time: its timer has the given period, in clocks. -/
structure Timekeeping (period : ℕ) (s : TimedState) : Prop where
  /-- Each period that ended since `pit_init` was counted, is about to be, or was missed while the
  request of an earlier one was not accepted; one more tick may be due to an earlier request. -/
  ledger : ∃ early ≤ 1, s.kernel.timerServed + (if s.pending then 1 else 0) + s.missed =
    s.clocks / period + early
  /-- `TICKS` is what was counted. -/
  ticks : s.kernel.running = none → s.kernel.ticks.toNat = s.kernel.timerServed % 2 ^ 64
  /-- `wait_ms` takes more than all but two of the periods it is asked for. -/
  lasted : ∀ wait ∈ s.lasted, wait.1 * period < wait.2 + 2 * period
  /-- It returns as soon as it looks at `TICKS` after the periods it is asked for, those that were
  missed and one more, as long as `TICKS` has not come round. -/
  returns : s.kernel.running = none → s.kernel.crash = none → s.kernel.timerServed < 2 ^ 64 →
    ∀ wait ∈ s.kernel.waiting, (wait.ms + s.missed + 1) * period ≤ s.clocks - s.since →
      ∃ s', s.perform (.kernel .poll) = some s' ∧ s'.kernel.waiting = none ∧
        s'.lasted = (wait.ms, s.clocks - s.since) :: s.lasted

/-- In every run, for every frequency that fits the timer. -/
theorem timekeeping_of_reachable {hz : BitVec 32} {s : TimedState} (slow : 19 ≤ hz.toNat)
    (fast : hz.toNat ≤ 596591) (reach : (timedSystem hz).Reachable s) :
    Timekeeping (1193182 / hz.toNat) s := by
  have positive : 0 < 1193182 / hz.toNat := Nat.div_pos (by omega) (by omega)
  have timed : Timed (1193182 / hz.toNat) s := by
    refine @Behaviour.Reach.invariant _ _ _ _ (Timed (1193182 / hz.toNat)) ?_
      (fun s event s' timed _ taken => ?_) _ reach
    · rintro _ ⟨kernel, pit, pit', reached, disabled, rested, set, rfl⟩
      obtain ⟨controlled, counted⟩ := counted_of_reachable reached
      exact .start slow fast controlled counted
        (InterruptState.served_of_disabled reached disabled) rested set
    · cases event with
      | clock => exact timed.clock positive taken
      | kernel event =>
          change (if event.fromTimer then none else _) = some s' at taken
          split_ifs at taken with other
          obtain ⟨kernel, performed, rfl⟩ := Option.map_eq_some_iff.mp taken
          exact timed.follow positive (Bool.eq_false_iff.mpr other) performed
  have raised := timed.raised
  have least := timed.least
  have most := timed.most
  rw [raised] at least most
  exact ⟨⟨_, Nat.sub_le_iff_le_add'.mpr most, (Nat.add_sub_cancel' least).symm⟩,
    timed.counted.toNat_ticks, timed.lasted,
    fun resting alive few wait waits => timed.returns positive resting alive few waits⟩

/-- Three periods of two clocks are asked for in the last clock of one, when a request waits. -/
def timedEvents : List TimedEvent :=
  [.clock, .kernel .sti, .clock, .clock, .kernel (.wait 3), .kernel .accept, .kernel (.handle 0),
    .kernel (.handle 0), .kernel (.handle 0), .clock, .kernel .accept, .kernel (.handle 0),
    .kernel (.handle 0), .kernel (.handle 0), .kernel .poll, .clock, .clock, .kernel .accept,
    .kernel (.handle 0), .kernel (.handle 0), .kernel (.handle 0), .kernel .poll]

/-- The shortest wait for three periods is one clock longer than one of them. -/
theorem timekeeping_of_reachable_shortest :
    ∃ s, (timedSystem 596591).Reachable s ∧ s.lasted = [(3, 3)] ∧ s.clocks = 6 ∧
      Timekeeping 2 s := by
  have executed : (Behaviour.run TimedState.perform (fun _ _ => True)
      ⟨⟨picRemap ⟨powerOnPic, powerOnPic⟩, false, none, 0, none, none, none, [], [], [], []⟩,
        ⟨3, 3, false, none, some 2, 0⟩, 0, 0, 0, []⟩ timedEvents).map
      (fun s => (s.lasted, s.clocks)) = some ([(3, 3)], 6) := by decide +kernel
  have start : (timedSystem 596591).initial
      ⟨⟨picRemap ⟨powerOnPic, powerOnPic⟩, false, none, 0, none, none, none, [], [], [], []⟩,
        ⟨3, 3, false, none, some 2, 0⟩, 0, 0, 0, []⟩ :=
    ⟨_, ⟨0, 0, false, none, none, 0⟩, _, .start ⟨_, rfl⟩, rfl, rfl, rfl, rfl⟩
  obtain ⟨s, reach, evaluated⟩ := Behaviour.exists_reach start executed
  obtain ⟨lasted, clocks⟩ := Prod.mk.inj evaluated
  exact ⟨s, reach, lasted, clocks, timekeeping_of_reachable (by decide) (by decide) reach⟩

end Blubos
