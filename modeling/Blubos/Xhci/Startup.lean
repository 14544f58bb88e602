import Blubos.Xhci.Phases

/-!
# Controllers that are brought up

However long the driver polls and wherever it stops, a controller is reset only when it is halted,
written only when it is ready, and run only when its device contexts and an event ring are
published.  On a controller that answers in time the loop ends.  It then holds the rings of the
first function, while the registers name the ring of the last.
-/

namespace Blubos

/-- A controller that does everything between two accesses. -/
def simpleController (_ : ℕ) (file : RegisterFile) : RegisterFile :=
  let op := XhciOpRegisters.ofDwords file.op
  { file with op := { op with
      usbCmd := op.usbCmd.setReset false
      usbStatus := ⟨BitField.setFlag 0 (!file.op.run)
        (BitField.setFlag 11 false op.usbStatus.raw)⟩ }.toDwords }

section Simple

variable (time : ℕ) (file : RegisterFile)

theorem simpleController_run : (simpleController time file).op.run = file.op.run :=
  BitField.flag_setFlag_of_ne (by decide)

theorem simpleController_halted : (simpleController time file).op.halted = !file.op.run :=
  BitField.getLsbD_setFlag.trans (by simp)

theorem simpleController_calm : (simpleController time file).op.Calm where
  resetting := BitField.getLsbD_setFlag.trans (by simp)
  ready := (BitField.flag_setFlag_of_ne (by decide)).trans
    (BitField.getLsbD_setFlag.trans (by simp))

end Simple

theorem simpleController_obeys : Obeys simpleController where
  run := fun time file runs => simpleController_run time file ▸ runs
  resetting := fun time file begins =>
    absurd ((simpleController_calm time file).resetting.symm.trans begins) Bool.false_ne_true
  halted := fun time file _ run => by rw [simpleController_halted, run, Bool.not_false]
  ready := fun time file _ => (simpleController_calm time file).ready
  deviceConfig := fun _ _ _ => XhciOpRegisters.deviceConfig_toDwords _
  ringConfig := fun _ _ _ => rfl

/-- Where the sample passes have their event rings. -/
def sampleSegment (index : Fin 2) : ℕ := 0x10000 * (index.val + 1)

theorem sampleSegment_aligned (index : Fin 2) : 64 ∣ sampleSegment index := by
  unfold sampleSegment
  omega

theorem sampleSegment_fits (index : Fin 2) :
    sampleSegment index + 16 * XhciEventRing.segmentSize < 2 ^ 64 := by
  unfold sampleSegment XhciEventRing.segmentSize
  omega

def sampleMemory (index : Fin 2) : EventRingMemory :=
  ⟨sampleSegment index, sampleSegment_aligned index, sampleSegment_fits index, 0x9000⟩

def samplePass (index : Fin 2) : ServedPass where
  mapped := .ok ()
  resetRounds := 2
  rested := .ok ()
  commandRing := .ok 0x8000
  contexts := .ok ()
  eventRing := .ok (sampleMemory index)
  startRounds := 2
  commandBase := 0x8000
  memory := sampleMemory index
  mapped_ok := rfl
  rested_ok := rfl
  commandRing_ok := rfl
  contexts_ok := rfl
  eventRing_ok := rfl

/-! ## Wherever the loop stops -/

namespace Driver

variable {world : ℕ → RegisterFile → RegisterFile} {device : DeviceConfig}
  {passes : List BringUpPass}

end Driver

/-- The registers some accesses later, none of which writes. -/
def idle (world : ℕ → RegisterFile → RegisterFile) (time : ℕ) (file : RegisterFile) :
    ℕ → RegisterFile
  | 0 => file
  | n + 1 => idle world (time + 1) (world time file) n

/-- A controller that answers within a number of accesses. -/
structure Prompt (world : ℕ → RegisterFile → RegisterFile) (bound : ℕ) : Prop where
  halts : ∀ time file, file.op.run = false →
    ∃ n < bound, (idle world time file (n + 1)).op.halted = true
  readies : ∀ time file, ∃ n < bound, (idle world time file n).op.Calm
  starts : ∀ time file, file.op.run = true → file.op.Calm →
    ∃ n < bound, (idle world time file (n + 1)).op.halted = false

theorem simpleController_prompt : Prompt simpleController 2 where
  halts := fun time file run => by
    refine ⟨0, by decide, ?_⟩
    rw [idle, idle, simpleController_halted, run, Bool.not_false]
  readies := fun time file => ⟨1, by decide, simpleController_calm time file⟩
  starts := fun time file run _ => by
    refine ⟨0, by decide, ?_⟩
    rw [idle, idle, simpleController_halted, run, Bool.not_true]

namespace Driver

variable {world : ℕ → RegisterFile → RegisterFile} {device : DeviceConfig} {bound rounds : ℕ}
  {stopped : RegisterBus → Prop} {configured : DeviceConfig → RingConfig → Prop}

theorem settle_file {bus : RegisterBus} (inWorld : bus.world = world) :
    (settle bus).file = world bus.time bus.file := by
  rw [settle, inWorld]

theorem notHalted_returns (obeys : Obeys world) (prompt : Prompt world bound)
    (enough : bound ≤ rounds) :
    Triple (Stopping world device) (poll notHalted rounds) (fun _ => Halted world device)
      stopped := by
  let within (n : ℕ) (bus : RegisterBus) : Prop := Stopping world device bus ∧
    (idle world bus.time bus.file (n + 1)).op.halted = true
  have round (n : ℕ) : Triple (within n) notHalted
      (fun waits bus => if waits then ∃ m < n, within m bus else Halted world device bus)
      stopped := by
    rintro bus ⟨stopping, answers⟩
    rw [idle, ← settle_file stopping.inWorld] at answers
    change if (!(settle bus).file.op.halted) = true then _ else _
    split_ifs with waits
    · cases n with
      | zero =>
          change (settle bus).file.op.halted = true at answers
          simp [answers] at waits
      | succ n => exact ⟨n, n.lt_succ_self, stopping.settle obeys, answers⟩
    · exact stopping.found obeys (by simpa using waits)
  intro bus stopping
  obtain ⟨n, less, answers⟩ := prompt.halts bus.time bus.file stopping.run
  exact poll_returns round (less.trans_le enough) bus ⟨stopping, answers⟩

/-- One access brings a controller that gets ready closer to it. -/
theorem calm_settle (obeys : Obeys world) {bus : RegisterBus} (inWorld : bus.world = world) {n : ℕ}
    (answers : (idle world bus.time bus.file n).op.Calm) :
    (idle world (settle bus).time (settle bus).file (n - 1)).op.Calm := by
  rw [settle_file inWorld]
  cases n with
  | zero => exact obeys.calm answers
  | succ n => exact answers

theorem notReset_returns (obeys : Obeys world) (prompt : Prompt world bound)
    (enough : bound ≤ rounds) :
    Triple (Resetting world device) (poll notReset rounds)
      (fun _ => Quiet world device false fun _ _ => True) stopped := by
  let within (n : ℕ) (bus : RegisterBus) : Prop := Resetting world device bus ∧
    (idle world bus.time bus.file n).op.Calm
  have round (n : ℕ) : Triple (within n) notReset
      (fun waits bus => if waits then ∃ m < n, within m bus
        else Quiet world device false (fun _ _ => True) bus) stopped := by
    rintro bus ⟨resetting, answers⟩
    have seen := resetting.settle obeys
    have soon := calm_settle obeys resetting.inWorld answers
    have sooner := calm_settle obeys seen.inWorld soon
    rw [notReset_eq]
    split_ifs with resets
    · cases n with
      | zero => exact absurd (soon.resetting.symm.trans resets) Bool.false_ne_true
      | succ n => exact ⟨n, n.lt_succ_self, seen, soon⟩
    · change if (settle (settle bus)).file.op.notReady = true then _ else _
      split_ifs with waits
      · cases n with
        | zero => exact absurd (sooner.ready.symm.trans waits) Bool.false_ne_true
        | succ n => exact ⟨n - 1, by omega, seen.settle obeys, sooner⟩
      · exact seen.quiet obeys (by simpa using resets) (by simpa using waits)
  intro bus resetting
  obtain ⟨n, less, answers⟩ := prompt.readies bus.time bus.file
  exact poll_returns round (less.trans_le enough) bus ⟨resetting, answers⟩

theorem notStarted_returns (obeys : Obeys world) (prompt : Prompt world bound)
    (enough : bound ≤ rounds) :
    Triple (fun bus => Quiet world device true configured bus ∧ bus.file.op.run = true)
      (poll notStarted rounds) (fun _ => Quiet world device true configured) stopped := by
  let within (n : ℕ) (bus : RegisterBus) : Prop := Quiet world device true configured bus ∧
    (idle world bus.time bus.file (n + 1)).op.halted = false
  have round (n : ℕ) : Triple (within n) notStarted
      (fun waits bus => if waits then ∃ m < n, within m bus
        else Quiet world device true configured bus) stopped := by
    rintro bus ⟨quiet, answers⟩
    rw [idle, ← settle_file quiet.inWorld] at answers
    change if (settle bus).file.op.halted = true then _ else _
    split_ifs with waits
    · cases n with
      | zero => exact absurd (answers.symm.trans waits) Bool.false_ne_true
      | succ n => exact ⟨n, n.lt_succ_self, quiet.settle obeys, answers⟩
    · exact quiet.settle obeys
  rintro bus ⟨quiet, runs⟩
  obtain ⟨n, less, answers⟩ := prompt.starts bus.time bus.file runs quiet.calm
  exact poll_returns round (less.trans_le enough) bus ⟨quiet, answers⟩

/-- A pass that gets all it needs, on a controller that answers, does not stop. -/
theorem stops_never (obeys : Obeys world) (prompt : Prompt world bound) {passes : List BringUpPass}
    (physical : BitVec 64) (pass : ServedPass) (resets : bound ≤ pass.resetRounds)
    (starts : bound ≤ pass.startRounds) :
    Stops world device (some physical) passes (fun _ => False) pass.toBringUpPass where
  unmapped := fun failed => absurd pass.mapped_ok failed
  resets := ⟨notHalted_returns obeys prompt resets, notReset_returns obeys prompt resets⟩
  aborts := by
    rintro (failed | failed | missing | failed | failed)
    · exact nomatch failed.symm.trans pass.rested_ok
    · exact nomatch failed.symm.trans pass.commandRing_ok
    · exact nomatch missing
    · exact absurd pass.contexts_ok failed
    · exact nomatch failed.symm.trans pass.eventRing_ok
  starts := fun _ _ => notStarted_returns obeys prompt starts

end Driver

theorem XhciStatics.foldl_after (passes : List ServedPass) (commandRing : XhciCommandRing)
    (eventRing : XhciEventRing) (started : List (Except Unit Unit)) :
    passes.foldl after ⟨some commandRing, some eventRing, started⟩ =
      ⟨some commandRing, some eventRing, started ++ List.replicate passes.length (.ok ())⟩ := by
  induction passes generalizing started with
  | nil => rw [List.foldl_nil, List.length_nil, List.replicate_zero, List.append_nil]
  | cons pass passes induction =>
      rw [List.foldl_cons, after, Option.getD_some, Option.getD_some, induction, List.append_assoc,
        List.singleton_append, ← List.replicate_succ, List.length_cons]

theorem EventRingMemory.segment_eq {memory other : EventRingMemory}
    (same : memory.ring.getDequeuePtr.dequeuePtr = other.ring.getDequeuePtr.dequeuePtr) :
    memory.segment = other.segment := by
  have first : memory.ring.getDequeuePtr.address = memory.segment :=
    memory.ring.getDequeuePtr_address
  have second : other.ring.getDequeuePtr.address = other.segment :=
    other.ring.getDequeuePtr_address
  rw [← first, ← second, XhciEventRingDequeuePtr.address, XhciEventRingDequeuePtr.address, same]

/-- On a controller that keeps its promises and answers within the rounds of the polling, with all
that every pass takes from elsewhere, the loop returns and every start succeeds.  The driver then
holds the rings of the first pass, while the registers name the event ring of the last: as the first
ring stays allocated, the two are the same exactly when there is one function. -/
theorem bringUp_returns {world : ℕ → RegisterFile → RegisterFile} {bound : ℕ} (obeys : Obeys world)
    (prompt : Prompt world bound) (slots : BitVec 8) (physical : BitVec 64) (first : ServedPass)
    (rest : List ServedPass)
    (patient : ∀ pass ∈ first :: rest, bound ≤ pass.resetRounds ∧ bound ≤ pass.startRounds)
    (allocated : ∀ pass ∈ rest, pass.memory.segment ≠ first.memory.segment) (file : RegisterFile) :
    ∃ bus, Driver.bringUpAll slots (some physical) .new
        ((first :: rest).map ServedPass.toBringUpPass) ⟨file, world, 0, []⟩ =
        (.ok ⟨some (.initRing first.commandBase), some first.memory.ring,
          List.replicate (rest.length + 1) (.ok ())⟩, bus) ∧
      bus.file.op.Calm ∧
      bus.file.op.deviceConfig = ⟨slots, BitField.get 6 58 physical⟩ ∧
      bus.file.runtime.ringConfig = (rest.getLastD first).memory.ringConfig ∧
      (bus.file.runtime.ringConfig.dequeue = first.memory.ring.getDequeuePtr.dequeuePtr ↔
        rest = []) := by
  let device : DeviceConfig := ⟨slots, BitField.get 6 58 physical⟩
  let passes := rest.map ServedPass.toBringUpPass
  have entered : Driver.Entered world device ⟨file, world, 0, []⟩ := ⟨rfl, .nil, .inl rfl⟩
  have stops : ∀ other ∈ first.toBringUpPass :: passes,
      Driver.Stops world device (some physical) (first.toBringUpPass :: passes) (fun _ => False)
        other := by
    intro other member
    rw [← List.map_cons] at member
    obtain ⟨pass, among, rfl⟩ := List.mem_map.mp member
    exact Driver.stops_never obeys prompt physical pass (patient pass among).1
      (patient pass among).2
  have triple := @Driver.bringUpAll_quiet world device (fun _ => False) slots (some physical)
    (first.toBringUpPass :: passes) obeys .new first.toBringUpPass passes
    (Driver.Entered world device) rfl (fun _ enters => enters)
    (fun failed => absurd first.mapped_ok failed) (List.Subset.refl _) stops
  obtain ⟨_, bus, ran, served, later, same, rfl, quiet⟩ := triple.returns entered
  obtain ⟨rfl, rfl⟩ :=
    List.cons.inj (ServedPass.toBringUpPass_injective.list_map same)
  refine ⟨bus, ?_, quiet.calm, quiet.configured.1, quiet.configured.2, ?_⟩
  · rw [List.map_cons, ran, List.foldl_cons, XhciStatics.after, XhciStatics.foldl_after]
    rfl
  · rw [quiet.configured.2]
    constructor
    · intro equal
      cases later with
      | nil => rfl
      | cons next later =>
          have last : (next :: later).getLastD served ∈ next :: later := by
            rw [List.getLastD_cons, ← List.getLast_eq_getLastD (List.cons_ne_nil next later)]
            exact List.getLast_mem _
          exact absurd (EventRingMemory.segment_eq equal) (allocated _ last)
    · rintro rfl
      rfl

/-- With two functions the registers name a ring that the driver does not hold. -/
theorem bringUp_returns_two : ∃ bus,
    Driver.bringUpAll 8 (some 0x1000) .new
      [(samplePass 0).toBringUpPass, (samplePass 1).toBringUpPass]
      ⟨sampleRegisters 0x800, simpleController, 0, []⟩ =
        (.ok ⟨some (.initRing 0x8000), some (sampleMemory 0).ring, [.ok (), .ok ()]⟩, bus) ∧
      bus.file.runtime.ringConfig.dequeue ≠ (sampleMemory 0).ring.getDequeuePtr.dequeuePtr := by
  obtain ⟨bus, ran, -, -, -, same⟩ := bringUp_returns simpleController_obeys simpleController_prompt
    8 0x1000 (samplePass 0) [samplePass 1] (by simp [samplePass])
    (by simp [samplePass, sampleMemory, sampleSegment]) (sampleRegisters 0x800)
  exact ⟨bus, ran, fun equal => absurd (same.mp equal) (List.cons_ne_nil _ _)⟩

end Blubos
