import Blubos.Foundation.Run
import Blubos.Interrupts.Pic

/-!
# Interrupts while the kernel runs

The kernel with interrupts, from `pic_remap` on.  Devices ask for service at any moment, also while
a handler runs; the processor accepts an interrupt when they are enabled and no handler runs, and a
handler does one access after the other.  Every interrupt finds the handler of its line, every
handler ends the interrupt at the controllers that have it in service, and nothing is counted twice
or lost.
-/

namespace Blubos

/-- The entries of the interrupt descriptor table. -/
inductive IdtEntry where
  | exception
  | catchAllIrq
  | irq0
  | keyboard
deriving DecidableEq

abbrev Idt : Type := BitVec 8 → Option IdtEntry

/-- `set_handler_fn`. -/
def Idt.setHandlerFn (table : Idt) (vector : BitVec 8) (entry : IdtEntry) : Idt := fun other =>
  if other = vector then some entry else table other

/-- `IDT`. -/
def idt : Idt :=
  let table : Idt := fun _ => none
  let table := (List.range' 32 16).foldl
    (fun table i => table.setHandlerFn (.ofNat 8 i) .catchAllIrq) table
  let table := (table.setHandlerFn 0x20 .irq0).setHandlerFn 0x21 .keyboard
  [3, 13, 8, 14, 6].foldl (fun table vector => table.setHandlerFn vector .exception) table

/-- What a handler does at a time. -/
inductive HandlerStep where
  /-- `TICKS.fetch_add(1)`. -/
  | countTick
  /-- `inb(0x64)`; with data there, the data is read and counted. -/
  | readStatus
  /-- `inb(0x60)`. -/
  | readData
  /-- `*KEYPRSS_COUNT.get_mut().unwrap() += 1`. -/
  | countKey
  /-- `outb`. -/
  | outb (port : BitVec 16) (value : BitVec 8)
deriving DecidableEq

/-- `catch_all_irq`. -/
def catchAllIrq : List HandlerStep := [.outb 0xA0 0x20, .outb 0x20 0x20]

/-- `irq0_handler`. -/
def irq0Handler : List HandlerStep := [.countTick, .outb 0x20 0x20]

/-- `keyboard_handler`. -/
def keyboardHandler : List HandlerStep := [.readStatus, .outb 0xA0 0x20, .outb 0x20 0x20]

/-- The steps of the handler of an interrupt. -/
def IdtEntry.steps : IdtEntry → Option (List HandlerStep)
  | exception => none
  | catchAllIrq => some Blubos.catchAllIrq
  | irq0 => some irq0Handler
  | keyboard => some keyboardHandler

/-! ## The kernel -/

/-- Why the kernel has stopped. -/
inductive Crash where
  /-- An interrupt arrived at no handler, or at that of an exception. -/
  | unhandled
  | panic (fault : Fault)
deriving DecidableEq

/-- A call of `wait_ms` that has not returned. -/
structure Waiting where
  ms : ℕ
  /-- The value of `TICKS` it waits for. -/
  target : ℕ
  since : ℕ

/-- The kernel, and what has happened so far. -/
structure InterruptState where
  pics : Pics
  enabled : Bool
  /-- What the running handler still has to do. -/
  running : Option (List HandlerStep)
  /-- `TICKS`. -/
  ticks : BitVec 64
  /-- `KEYPRSS_COUNT`, once it is initialised. -/
  keypressCount : Option ℕ
  /-- The call of `wait_ms` in `kernel_main`. -/
  waiting : Option Waiting
  crash : Option Crash
  raised : List IrqLine
  served : List IrqLine
  /-- What the keyboard reported whenever its status was read. -/
  statuses : List (BitVec 8)
  /-- Calls of `wait_ms` that returned, with the timer interrupts accepted meanwhile. -/
  waited : List (ℕ × ℕ)

/-- What happens. -/
inductive InterruptEvent where
  | raise (line : IrqLine)
  | accept
  /-- The handler does its next step; the keyboard would report this status. -/
  | handle (status : BitVec 8)
  /-- `sti`. -/
  | sti
  /-- `KEYPRSS_COUNT.call_once`. -/
  | initCount
  /-- `wait_ms` is called. -/
  | wait (ms : ℕ)
  /-- `wait_ms` looks at `TICKS`. -/
  | poll

namespace InterruptState

def timerServed (s : InterruptState) : ℕ := s.served.count (.master Pics.timerLine)

/-- The reports that said that there was data. -/
def keystrokes (s : InterruptState) : ℕ := s.statuses.countP fun status => status &&& 0x01 ≠ 0

/-- The steps that the running handler still has to do. -/
def remaining (s : InterruptState) : List HandlerStep := s.running.getD []

/-- A step of a handler, before the rest of it. -/
def execute (s : InterruptState) (status : BitVec 8) (rest : List HandlerStep) :
    HandlerStep → InterruptState
  | .countTick => { s with ticks := s.ticks + 1, running := some rest }
  | .readStatus => { s with
      statuses := status :: s.statuses
      running := some (if status &&& 0x01 ≠ 0 then .readData :: .countKey :: rest else rest) }
  | .readData => { s with running := some rest }
  | .countKey =>
      match s.keypressCount with
      | none => { s with crash := some (.panic .unwrapNone) }
      | some count =>
          if count + 1 < 2 ^ 128 then
            { s with keypressCount := some (count + 1), running := some rest }
          else { s with crash := some (.panic .overflow) }
  | .outb port value => { s with pics := s.pics.outb port value, running := some rest }

/-- The effect of an event, where it can happen. -/
def perform (s : InterruptState) : InterruptEvent → Option InterruptState
  | .raise line =>
      if line = .master Pics.cascade then none
      else some { s with
        pics := s.pics.raise line
        raised := if s.pics.requested line then s.raised else line :: s.raised }
  | .accept =>
      if s.enabled ∧ s.running.isNone ∧ s.crash.isNone then
        match s.pics.acknowledge with
        | none => none
        | some (line, vector, pics) =>
            let s := { s with pics := pics, served := line :: s.served }
            match (idt vector).bind IdtEntry.steps with
            | none => some { s with crash := some .unhandled }
            | some steps => some { s with running := some steps }
      else none
  | .handle status =>
      if s.crash.isNone then
        match s.running with
        | none => none
        | some [] => some { s with running := none }
        | some (step :: rest) => some (s.execute status rest step)
      else none
  | .sti => if s.enabled then none else some { s with enabled := true }
  | .initCount =>
      if s.enabled ∧ s.running.isNone ∧ s.crash.isNone ∧ s.keypressCount.isNone then
        some { s with keypressCount := some 0 }
      else none
  | .wait ms =>
      if s.running.isNone ∧ s.crash.isNone ∧ s.waiting.isNone then
        match Usize.add s.ticks.toNat ms with
        | .error fault => some { s with crash := some (.panic fault) }
        | .ok target => some { s with waiting := some ⟨ms, target, s.timerServed⟩ }
      else none
  | .poll =>
      if s.running.isNone ∧ s.crash.isNone then
        match s.waiting with
        | none => none
        | some waiting =>
            if s.ticks.toNat < waiting.target then some s
            else some { s with
              waiting := none
              waited := (waiting.ms, s.timerServed - waiting.since) :: s.waited }
      else none

end InterruptState

/-- The runs of the kernel with interrupts. -/
def interruptSystem : Behaviour InterruptState InterruptEvent :=
  .ofPerform (fun s => ∃ pics, s = ⟨picRemap pics, false, none, 0, none, none, none, [], [], [], []⟩)
    InterruptState.perform

/-- The outcomes of an event. -/
inductive InterruptStep (s : InterruptState) : InterruptState → Prop
  | raise (line : IrqLine) : line ≠ .master Pics.cascade → InterruptStep s { s with
      pics := s.pics.raise line
      raised := if s.pics.requested line then s.raised else line :: s.raised }
  | accept {line : IrqLine} {vector : BitVec 8} {pics : Pics} {steps : List HandlerStep} :
      s.running = none → s.pics.acknowledge = some (line, vector, pics) →
      (idt vector).bind IdtEntry.steps = some steps → InterruptStep s { s with
        pics := pics
        served := line :: s.served
        running := some steps }
  | unhandled {line : IrqLine} {vector : BitVec 8} {pics : Pics} :
      s.running = none → s.pics.acknowledge = some (line, vector, pics) →
      (idt vector).bind IdtEntry.steps = none → InterruptStep s { s with
        pics := pics
        served := line :: s.served
        crash := some .unhandled }
  | leave : s.running = some [] → InterruptStep s { s with running := none }
  | execute (status : BitVec 8) {step : HandlerStep} {rest : List HandlerStep} :
      s.crash = none → s.running = some (step :: rest) →
        InterruptStep s (s.execute status rest step)
  | sti : InterruptStep s { s with enabled := true }
  | initCount : s.running = none → s.crash = none → s.keypressCount = none →
      InterruptStep s { s with keypressCount := some 0 }
  | waitPanic {fault : Fault} : fault ≠ .unwrapNone →
      InterruptStep s { s with crash := some (.panic fault) }
  | wait {ms target : ℕ} : s.running = none → target = s.ticks.toNat + ms →
      InterruptStep s { s with waiting := some ⟨ms, target, s.timerServed⟩ }
  | pollAgain : InterruptStep s s
  | pollDone {waiting : Waiting} : s.running = none → s.waiting = some waiting →
      waiting.target ≤ s.ticks.toNat → InterruptStep s { s with
        waiting := none
        waited := (waiting.ms, s.timerServed - waiting.since) :: s.waited }

/-- An accepted interrupt came between two instructions of the kernel, and starts the entry of its
vector. -/
theorem InterruptState.perform_accept {s s' : InterruptState}
    (performed : s.perform .accept = some s') :
    s.enabled = true ∧ s.running = none ∧ ∃ line vector pics,
      s.pics.acknowledge = some (line, vector, pics) ∧
      s' = match (idt vector).bind IdtEntry.steps with
        | none => { s with
            pics := pics
            served := line :: s.served
            crash := some .unhandled }
        | some steps => { s with
            pics := pics
            served := line :: s.served
            running := some steps } := by
  simp only [perform] at performed
  split_ifs at performed with accepts
  refine ⟨accepts.1, Option.isNone_iff_eq_none.mp accepts.2.1, ?_⟩
  cases accepted : s.pics.acknowledge with
  | none =>
      rw [accepted] at performed
      cases performed
  | some outcome =>
      obtain ⟨line, vector, pics⟩ := outcome
      refine ⟨line, vector, pics, rfl, ?_⟩
      rw [accepted] at performed
      cases found : (idt vector).bind IdtEntry.steps with
      | none | some steps =>
          simp only [found] at performed ⊢
          exact (Option.some.inj performed).symm

theorem InterruptState.perform_step {s s' : InterruptState} {event : InterruptEvent}
    (performed : s.perform event = some s') : InterruptStep s s' := by
  cases event with
  | raise line =>
      rw [perform] at performed
      by_cases chain : line = .master Pics.cascade
      · rw [if_pos chain] at performed
        cases performed
      · rw [if_neg chain] at performed
        exact Option.some.inj performed ▸ .raise line chain
  | accept =>
      obtain ⟨-, resting, line, vector, pics, accepted, rfl⟩ := perform_accept performed
      cases found : (idt vector).bind IdtEntry.steps with
      | none => exact .unhandled resting accepted found
      | some steps => exact .accept resting accepted found
  | handle status =>
      simp only [perform] at performed
      split_ifs at performed with alive
      split at performed
      · cases performed
      · rename_i left
        exact Option.some.inj performed ▸ .leave left
      · rename_i running
        exact Option.some.inj performed ▸
          .execute status (Option.isNone_iff_eq_none.mp alive) running
  | sti =>
      simp only [perform] at performed
      split_ifs at performed
      exact Option.some.inj performed ▸ .sti
  | initCount =>
      simp only [perform] at performed
      split_ifs at performed with fresh
      obtain ⟨-, resting, alive, absent⟩ := fresh
      exact Option.some.inj performed ▸ .initCount (Option.isNone_iff_eq_none.mp resting)
        (Option.isNone_iff_eq_none.mp alive) (Option.isNone_iff_eq_none.mp absent)
  | wait ms =>
      simp only [perform] at performed
      split_ifs at performed with waits
      split at performed
      · rename_i fault overflows
        have other : fault ≠ .unwrapNone := by
          rintro rfl
          exact Usize.add_noUnwrap _ _ overflows
        exact Option.some.inj performed ▸ .waitPanic other
      · rename_i target added
        exact Option.some.inj performed ▸
          .wait (Option.isNone_iff_eq_none.mp waits.1) (Usize.add_eq_ok.mp added).2
  | poll =>
      simp only [perform] at performed
      split_ifs at performed with polls
      split at performed
      · cases performed
      · rename_i waiting present
        split_ifs at performed with early
        · exact Option.some.inj performed ▸ .pollAgain
        · exact Option.some.inj performed ▸
            .pollDone (Option.isNone_iff_eq_none.mp polls.1) present (not_lt.mp early)

/-! ## The controllers -/

def IrqLine.handler : IrqLine → List HandlerStep
  | .master 0 => irq0Handler
  | .master 1 => keyboardHandler
  | _ => catchAllIrq

theorem IrqLine.handler_of_ne {line : IrqLine} (timer : line ≠ .master Pics.timerLine)
    (keyboard : line ≠ .master Pics.keyboardLine) : line.handler = catchAllIrq := by
  unfold IrqLine.handler
  split
  · exact absurd rfl timer
  · exact absurd rfl keyboard
  · rfl

/-- What the rest of a handler does to the controllers. -/
def finish (pics : Pics) (steps : List HandlerStep) : Pics :=
  steps.foldl (fun pics step =>
    match step with
    | .outb port value => pics.outb port value
    | _ => pics) pics

/-- A step that only ends interrupts, if it is for the controllers at all. -/
def HandlerStep.EndsOnly : HandlerStep → Prop
  | .outb port value => (port = 0x20 ∨ port = 0xA0) ∧ value = 0x20
  | _ => True

theorem finish_forget (pics : Pics) (steps : List HandlerStep) :
    (finish pics steps).forget = finish pics.forget steps := by
  induction steps generalizing pics with
  | nil => rfl
  | cons step steps induction =>
      cases step with
      | outb port value =>
          exact (induction _).trans (congrArg (finish · steps) (pics.forget_outb port value))
      | _ => exact induction pics

theorem idle_finish_raise {pics : Pics} {steps : List HandlerStep} {line : IrqLine} :
    (finish (pics.raise line) steps).Idle ↔ (finish pics steps).Idle := by
  change (finish (pics.raise line) steps).forget.Idle ↔ (finish pics steps).forget.Idle
  rw [finish_forget, finish_forget, Pics.forget_raise]

theorem outb_endsOnly {pics : Pics} {port : BitVec 16} {value : BitVec 8}
    (ends : (HandlerStep.outb port value).EndsOnly) :
    pics.outb port value = ⟨pics.master.endOfInterrupt, pics.slave⟩ ∨
      pics.outb port value = ⟨pics.master, pics.slave.endOfInterrupt⟩ := by
  obtain ⟨rfl | rfl, rfl⟩ := ends
  · exact .inl rfl
  · exact .inr rfl

theorem finish_both {pics : Pics} :
    finish pics catchAllIrq = ⟨pics.master.endOfInterrupt, pics.slave.endOfInterrupt⟩ := rfl

theorem endsOnly_handler (line : IrqLine) : ∀ step ∈ line.handler, step.EndsOnly := by
  have both : ∀ step ∈ catchAllIrq, step.EndsOnly := by
    simp [catchAllIrq, HandlerStep.EndsOnly]
  unfold IrqLine.handler
  split
  · simp [irq0Handler, HandlerStep.EndsOnly]
  · simp [keyboardHandler, HandlerStep.EndsOnly]
  · exact both

/-- An interrupt that is accepted finds the handler of its line, which ends it. -/
theorem acknowledge_spec {pics pics' : Pics} {line : IrqLine} {vector : BitVec 8}
    (remapped : Remapped pics) (idle : pics.Idle) (chain : ¬pics.requested (.master Pics.cascade))
    (accepted : pics.acknowledge = some (line, vector, pics')) :
    (idt vector).bind IdtEntry.steps = some line.handler ∧ (finish pics' line.handler).Idle ∧
      Remapped pics' ∧ pics.requested line ∧
      ∀ other, pics'.requested other ↔ other ≠ line ∧ pics.requested other := by
  have masked : ∀ k : Fin 8, k ≠ Pics.cascade → (0xF8 : BitVec 8).getLsbD k.val = false →
      k = 0 ∨ k = 1 := by decide
  have found : ∀ k : Fin 8, (idt (0x28 + .ofNat 8 k.val)).bind IdtEntry.steps =
      some catchAllIrq := by decide
  have none : pics.master.inService = ∅ := idle.1
  rcases Pics.acknowledge_cases idle accepted with
    ⟨k, apart, rfl, rfl, requested, unmasked, rfl⟩ | ⟨k, rfl, rfl, requested, rfl⟩
  · have single : (pics.master.acknowledge k).inService = {k} := by
      rw [Pic.acknowledge, none, insert_empty_eq]
    have ended : (pics.master.acknowledge k).endOfInterrupt.Idle := by
      rw [Pic.endOfInterrupt_of_single single]
      rfl
    rw [remapped.masks.1] at unmasked
    refine ⟨?_, ?_, remapped.of_settings rfl rfl, requested, ?_⟩
    · rw [Pic.vector, remapped.offsets.1]
      rcases masked k apart unmasked with rfl | rfl <;> decide
    · rcases masked k apart unmasked with rfl | rfl
      · exact ⟨ended, idle.2⟩
      · have kept : pics.slave.endOfInterrupt.Idle := by
          rw [idle.2.endOfInterrupt]
          exact idle.2
        exact ⟨ended, kept⟩
    · rintro (other | other)
      · simp [Pics.requested, Pic.acknowledge]
      · simp [Pics.requested]
  · have single : (pics.slave.acknowledge k).inService = {k} := by
      rw [Pic.acknowledge, idle.2, insert_empty_eq]
    refine ⟨?_, ?_, remapped.of_settings rfl rfl, requested, ?_⟩
    · rw [Pic.vector, remapped.offsets.2]
      exact found k
    · change (finish _ catchAllIrq).Idle
      rw [finish_both, Pic.endOfInterrupt_of_single single, Pic.endOfInterrupt_of_single rfl]
      exact ⟨rfl, rfl⟩
    · rintro (other | other)
      · have apart (member : other ∈ pics.master.requests) : other ≠ Pics.cascade := by
          rintro rfl
          exact chain member
        simp only [Pics.requested, Finset.mem_erase, ne_eq, reduceCtorEq, not_false_eq_true,
          true_and, and_iff_right_iff_imp]
        exact apart
      · simp [Pics.requested, Pic.acknowledge]

/-- What holds of the controllers while the kernel runs. -/
structure Controlled (s : InterruptState) : Prop where
  remapped : Remapped s.pics
  /-- No device is at the line of the chain. -/
  chain : ¬s.pics.requested (.master Pics.cascade)
  endsOnly : ∀ step ∈ s.remaining, step.EndsOnly
  /-- When it is through, nothing is in service. -/
  ends : (finish s.pics s.remaining).Idle
  /-- Every request was served or is still there. -/
  ledger : ∀ line,
    s.raised.count line = s.served.count line + if s.pics.requested line then 1 else 0
  handled : s.crash ≠ some .unhandled

namespace Controlled

variable {s s' : InterruptState}

/-- Events that leave the controllers, the handler and the ledger alone. -/
theorem of_eq (controlled : Controlled s) (pics : s'.pics = s.pics)
    (remaining : s'.remaining = s.remaining) (raised : s'.raised = s.raised)
    (served : s'.served = s.served) (handled : s'.crash ≠ some .unhandled) : Controlled s' where
  remapped := pics ▸ controlled.remapped
  chain := pics ▸ controlled.chain
  endsOnly := remaining ▸ controlled.endsOnly
  ends := by
    rw [pics, remaining]
    exact controlled.ends
  ledger := by
    rw [pics, raised, served]
    exact controlled.ledger
  handled := handled

theorem raise (controlled : Controlled s) {line : IrqLine} (apart : line ≠ .master Pics.cascade) :
    Controlled { s with
      pics := s.pics.raise line
      raised := if s.pics.requested line then s.raised else line :: s.raised } where
  remapped := by
    apply controlled.remapped.of_settings
    · cases line <;> rfl
    · cases line <;> rfl
  chain := by
    rw [Pics.requested_raise]
    rintro (same | requested)
    · exact apart same.symm
    · exact controlled.chain requested
  endsOnly := controlled.endsOnly
  ends := idle_finish_raise.mpr controlled.ends
  ledger := by
    intro other
    have before := controlled.ledger other
    simp only [Pics.requested_raise]
    by_cases same : other = line
    · subst same
      by_cases requested : s.pics.requested other
      · simp only [requested, if_true, or_true] at before ⊢
        exact before
      · simp only [requested, if_false, true_or, if_true, List.count_cons_self] at before ⊢
        omega
    · have counted : (if s.pics.requested line then s.raised else line :: s.raised).count other =
          s.raised.count other := by
        split_ifs
        · rfl
        · exact List.count_cons_of_ne (Ne.symm same)
      rw [counted, before]
      simp [same]
  handled := controlled.handled

theorem idle (controlled : Controlled s) (resting : s.running = none) : s.pics.Idle := by
  have ends := controlled.ends
  rwa [InterruptState.remaining, resting] at ends

theorem accept (controlled : Controlled s) (resting : s.running = none) {line : IrqLine}
    {vector : BitVec 8} {pics : Pics} (accepted : s.pics.acknowledge = some (line, vector, pics)) :
    (idt vector).bind IdtEntry.steps = some line.handler ∧
      Controlled { s with
        pics := pics
        served := line :: s.served
        running := some line.handler } := by
  obtain ⟨found, ends, remapped, requested, others⟩ :=
    acknowledge_spec controlled.remapped (controlled.idle resting) controlled.chain accepted
  refine ⟨found, remapped, ?_, endsOnly_handler line, ends, ?_, controlled.handled⟩
  · rw [others]
    exact fun both => controlled.chain both.2
  · intro other
    have before := controlled.ledger other
    simp only [others]
    by_cases same : other = line
    · subst same
      simp only [requested, if_true] at before
      simp only [List.count_cons_self, before, ne_eq, not_true_eq_false, false_and, if_false]
    · rw [List.count_cons_of_ne (Ne.symm same), before]
      simp [same]

/-- The interrupt that the processor accepts starts the handler of its line. -/
theorem dispatched (controlled : Controlled s) (performed : s.perform .accept = some s') :
    ∃ line, s.pics.requested line ∧ s'.served = line :: s.served ∧
      s'.running = some line.handler := by
  obtain ⟨-, resting, line, vector, pics, accepted, rfl⟩ :=
    InterruptState.perform_accept performed
  obtain ⟨found, -, -, requested, -⟩ :=
    acknowledge_spec controlled.remapped (controlled.idle resting) controlled.chain accepted
  rw [found]
  exact ⟨line, requested, rfl, rfl⟩

theorem execute (controlled : Controlled s) (status : BitVec 8) {step : HandlerStep}
    {rest : List HandlerStep} (running : s.running = some (step :: rest)) :
    Controlled (s.execute status rest step) := by
  have remaining : s.remaining = step :: rest := by
    rw [InterruptState.remaining, running]
    rfl
  have endsOnly := controlled.endsOnly
  have ends := controlled.ends
  rw [remaining] at endsOnly ends
  obtain ⟨first, later⟩ := List.forall_mem_cons.mp endsOnly
  cases step with
  | outb port value =>
      obtain ⟨master, slave, requested⟩ : (s.pics.outb port value).master.settings =
          s.pics.master.settings ∧ (s.pics.outb port value).slave.settings = s.pics.slave.settings ∧
          ∀ line, (s.pics.outb port value).requested line ↔ s.pics.requested line := by
        rcases outb_endsOnly first with same | same
        · rw [same]
          refine ⟨Pic.settings_endOfInterrupt _, rfl, ?_⟩
          rintro (line | line)
          · rw [Pics.requested, Pic.requests_endOfInterrupt, Pics.requested]
          · exact Iff.rfl
        · rw [same]
          refine ⟨rfl, Pic.settings_endOfInterrupt _, ?_⟩
          rintro (line | line)
          · exact Iff.rfl
          · rw [Pics.requested, Pic.requests_endOfInterrupt, Pics.requested]
      exact ⟨controlled.remapped.of_settings master slave, by
        rw [InterruptState.execute, requested]
        exact controlled.chain, later, ends, by
        intro line
        simp only [InterruptState.execute, requested]
        exact controlled.ledger line, controlled.handled⟩
  | countTick =>
      exact ⟨controlled.remapped, controlled.chain, later, ends, controlled.ledger,
        controlled.handled⟩
  | readStatus =>
      have steps : (s.execute status rest .readStatus).remaining =
          if status &&& 0x01 ≠ 0 then .readData :: .countKey :: rest else rest := rfl
      refine ⟨controlled.remapped, controlled.chain, ?_, ?_, controlled.ledger,
        controlled.handled⟩
      · rw [steps]
        split_ifs
        · exact List.forall_mem_cons.mpr ⟨trivial, List.forall_mem_cons.mpr ⟨trivial, later⟩⟩
        · exact later
      · rw [steps]
        split_ifs <;> exact ends
  | readData =>
      exact ⟨controlled.remapped, controlled.chain, later, ends, controlled.ledger,
        controlled.handled⟩
  | countKey =>
      unfold InterruptState.execute
      cases s.keypressCount with
      | none => exact controlled.of_eq rfl rfl rfl rfl (by simp)
      | some count =>
          dsimp only
          split_ifs
          · exact ⟨controlled.remapped, controlled.chain, later, ends, controlled.ledger,
              controlled.handled⟩
          · exact controlled.of_eq rfl rfl rfl rfl (by simp)

theorem step (controlled : Controlled s) (taken : InterruptStep s s') : Controlled s' := by
  cases taken with
  | raise line apart => exact controlled.raise apart
  | accept resting accepted found =>
      obtain ⟨found', next⟩ := controlled.accept resting accepted
      obtain rfl := Option.some.inj (found.symm.trans found')
      exact next
  | unhandled resting accepted found =>
      obtain ⟨found', -⟩ := controlled.accept resting accepted
      rw [found] at found'
      cases found'
  | leave left =>
      have remaining : s.remaining = [] := by
        rw [InterruptState.remaining, left]
        rfl
      exact controlled.of_eq rfl remaining.symm rfl rfl controlled.handled
  | execute status _ running => exact controlled.execute status running
  | waitPanic => exact controlled.of_eq rfl rfl rfl rfl (by simp)
  | sti | initCount | wait | pollDone =>
      exact controlled.of_eq rfl rfl rfl rfl controlled.handled
  | pollAgain => exact controlled

theorem start (pics : Pics) :
    Controlled ⟨picRemap pics, false, none, 0, none, none, none, [], [], [], []⟩ := by
  obtain ⟨remapped, idle, quiet⟩ := picRemap_spec pics
  refine ⟨remapped, quiet _, by simp [InterruptState.remaining], idle, fun line => ?_, by simp⟩
  rw [if_neg (quiet line)]
  rfl

end Controlled

/-! ## The counts -/

/-- What holds of the counts while the kernel runs. -/
structure Counted (s : InterruptState) : Prop where
  ticks : s.ticks + .ofNat 64 (s.remaining.count .countTick) = .ofNat 64 s.timerServed
  keys : s.keypressCount.getD 0 + s.remaining.count .countKey = s.keystrokes
  /-- For every interrupt of the keyboard its status is read once. -/
  reads : s.statuses.length + s.remaining.count .readStatus =
    s.served.count (.master Pics.keyboardLine)
  /-- An `unwrap` fails only for a keystroke before the count is initialised. -/
  early : s.crash = some (.panic .unwrapNone) → s.keypressCount = none ∧ 0 < s.keystrokes
  /-- A wait goes on until `TICKS` has grown enough. -/
  waiting : ∀ wait ∈ s.waiting, wait.since ≤ s.timerServed ∧
    wait.target = wait.since % 2 ^ 64 + wait.ms
  waited : ∀ wait ∈ s.waited, wait.1 ≤ wait.2

theorem count_handler (line : IrqLine) :
    line.handler.count .countTick = (if line = .master Pics.timerLine then 1 else 0) ∧
      line.handler.count .countKey = 0 ∧
      line.handler.count .readStatus = (if line = .master Pics.keyboardLine then 1 else 0) := by
  unfold IrqLine.handler
  split
  · exact ⟨rfl, rfl, rfl⟩
  · exact ⟨rfl, rfl, rfl⟩
  · rename_i timer keyboard
    rw [if_neg timer, if_neg keyboard]
    exact ⟨rfl, rfl, rfl⟩

namespace Counted

variable {s s' : InterruptState}

theorem toNat_ticks (counted : Counted s) (resting : s.running = none) :
    s.ticks.toNat = s.timerServed % 2 ^ 64 := by
  have ticks := counted.ticks
  rw [InterruptState.remaining, resting] at ticks
  have same : s.ticks = .ofNat 64 s.timerServed := by simpa using ticks
  rw [same, BitVec.toNat_ofNat]

theorem execute (counted : Counted s) (status : BitVec 8) {step : HandlerStep}
    {rest : List HandlerStep} (alive : s.crash = none) (running : s.running = some (step :: rest)) :
    Counted (s.execute status rest step) := by
  obtain ⟨ticks, keys, reads, early, waiting, waited⟩ := counted
  have remaining : s.remaining = step :: rest := by
    rw [InterruptState.remaining, running]
    rfl
  rw [remaining] at ticks keys reads
  have calm : s.crash ≠ some (.panic .unwrapNone) := by
    rw [alive]
    simp
  cases step with
  | countTick =>
      refine ⟨?_, keys, reads, fun crash => absurd crash calm, waiting, waited⟩
      rw [List.count_cons_self, Nat.add_comm, BitVec.ofNat_add] at ticks
      exact (BitVec.add_assoc ..).trans ticks
  | readStatus =>
      rw [List.count_cons_self] at reads
      rw [List.count_cons_of_ne (by decide)] at ticks keys
      have strokes : (s.execute status rest .readStatus).keystrokes =
          s.keystrokes + if status &&& 0x01 ≠ 0 then 1 else 0 := by
        simp [InterruptState.keystrokes, InterruptState.execute, List.countP_cons]
      have steps : (s.execute status rest .readStatus).remaining =
          if status &&& 0x01 ≠ 0 then .readData :: .countKey :: rest else rest := rfl
      refine ⟨?_, ?_, ?_, fun crash => absurd crash calm, waiting, waited⟩
      · rw [steps]
        split_ifs <;> exact ticks
      · rw [strokes, steps, ← keys]
        split_ifs
        · rw [List.count_cons_of_ne (by decide), List.count_cons_self]
          rfl
        · rfl
      · rw [steps]
        change (status :: s.statuses).length + _ = s.served.count _
        rw [← reads, List.length_cons]
        split_ifs
        · rw [List.count_cons_of_ne (by decide), List.count_cons_of_ne (by decide)]
          omega
        · omega
  | readData => exact ⟨ticks, keys, reads, fun crash => absurd crash calm, waiting, waited⟩
  | outb port value =>
      exact ⟨ticks, keys, reads, fun crash => absurd crash calm, waiting, waited⟩
  | countKey =>
      have keys' : s.keypressCount.getD 0 + s.remaining.count .countKey = s.keystrokes :=
        remaining ▸ keys
      rw [List.count_cons_self] at keys
      cases present : s.keypressCount with
      | none =>
          have executed : s.execute status rest .countKey =
              { s with crash := some (.panic .unwrapNone) } := by
            simp only [InterruptState.execute, present]
          rw [executed]
          refine ⟨remaining ▸ ticks, keys', remaining ▸ reads, fun _ => ⟨present, ?_⟩, waiting,
            waited⟩
          change 0 < s.keystrokes
          omega
      | some count =>
          have executed : s.execute status rest .countKey = if count + 1 < 2 ^ 128 then
              { s with keypressCount := some (count + 1), running := some rest }
              else { s with crash := some (.panic .overflow) } := by
            simp only [InterruptState.execute, present]
          rw [executed]
          split_ifs
          · refine ⟨ticks, ?_, reads, fun crash => absurd crash calm, waiting, waited⟩
            change count + 1 + rest.count .countKey = s.keystrokes
            rw [← keys, present]
            change count + 1 + _ = count + _
            omega
          · exact ⟨remaining ▸ ticks, keys', remaining ▸ reads, by simp, waiting, waited⟩

theorem accept (counted : Counted s) (resting : s.running = none) (line : IrqLine) (pics : Pics) :
    Counted { s with
      pics := pics
      served := line :: s.served
      running := some line.handler } := by
  obtain ⟨ticks, keys, reads, early, waiting, waited⟩ := counted
  rw [InterruptState.remaining, resting] at ticks keys reads
  obtain ⟨counts, none, asks⟩ := count_handler line
  refine ⟨?_, ?_, ?_, early, fun wait waits => ?_, waited⟩
  · change s.ticks + .ofNat 64 (line.handler.count .countTick) =
      .ofNat 64 ((line :: s.served).count (.master Pics.timerLine))
    have before : s.ticks = .ofNat 64 s.timerServed := by simpa using ticks
    rw [counts, before, ← BitVec.ofNat_add, List.count_cons]
    simp [InterruptState.timerServed]
  · change s.keypressCount.getD 0 + line.handler.count .countKey = s.keystrokes
    rw [none]
    exact keys
  · change s.statuses.length + line.handler.count .readStatus =
      (line :: s.served).count (.master Pics.keyboardLine)
    rw [asks, List.count_cons, ← reads]
    simp
  · obtain ⟨since, target⟩ := waiting wait waits
    exact ⟨since.trans List.count_le_count_cons, target⟩

theorem step (counted : Counted s) (controlled : Controlled s) (taken : InterruptStep s s') :
    Counted s' := by
  cases taken with
  | raise line apart =>
      exact ⟨counted.ticks, counted.keys, counted.reads, counted.early, counted.waiting,
        counted.waited⟩
  | accept resting accepted found =>
      obtain ⟨found', -⟩ := controlled.accept resting accepted
      obtain rfl := Option.some.inj (found.symm.trans found')
      exact counted.accept resting _ _
  | unhandled resting accepted found =>
      obtain ⟨found', -⟩ := controlled.accept resting accepted
      rw [found] at found'
      cases found'
  | leave left =>
      obtain ⟨ticks, keys, reads, early, waiting, waited⟩ := counted
      rw [InterruptState.remaining, left] at ticks keys reads
      exact ⟨ticks, keys, reads, early, waiting, waited⟩
  | execute status alive running => exact counted.execute status alive running
  | sti =>
      exact ⟨counted.ticks, counted.keys, counted.reads, counted.early, counted.waiting,
        counted.waited⟩
  | initCount resting alive absent =>
      refine ⟨counted.ticks, ?_, counted.reads, fun crash => ?_, counted.waiting, counted.waited⟩
      · have keys := counted.keys
        rwa [absent] at keys
      · rw [alive] at crash
        cases crash
  | waitPanic other =>
      refine ⟨counted.ticks, counted.keys, counted.reads, fun crash => ?_, counted.waiting,
        counted.waited⟩
      exact absurd (Crash.panic.inj (Option.some.inj crash)) other
  | wait resting target =>
      refine ⟨counted.ticks, counted.keys, counted.reads, counted.early, ?_, counted.waited⟩
      rintro _ ⟨⟩
      exact ⟨le_rfl, by rw [target, counted.toNat_ticks resting]⟩
  | pollAgain => exact counted
  | pollDone resting present reached =>
      refine ⟨counted.ticks, counted.keys, counted.reads, counted.early, by simp, ?_⟩
      refine List.forall_mem_cons.mpr ⟨?_, counted.waited⟩
      rename_i waiting
      obtain ⟨since, target⟩ := counted.waiting waiting present
      rw [target, counted.toNat_ticks resting] at reached
      have before := Nat.div_add_mod waiting.since (2 ^ 64)
      have after := Nat.div_add_mod s.timerServed (2 ^ 64)
      have laps : waiting.since / 2 ^ 64 ≤ s.timerServed / 2 ^ 64 := Nat.div_le_div_right since
      change waiting.ms ≤ s.timerServed - waiting.since
      omega

theorem start (pics : Pics) :
    Counted ⟨picRemap pics, false, none, 0, none, none, none, [], [], [], []⟩ :=
  ⟨rfl, rfl, rfl, by simp, by simp, by simp⟩

end Counted

theorem counted_of_reachable {s : InterruptState} (reach : interruptSystem.Reachable s) :
    Controlled s ∧ Counted s := by
  refine @Behaviour.Reach.invariant _ _ _ _ (fun s => Controlled s ∧ Counted s) ?_
    (fun s event s' invariant _ taken => ?_) _ reach
  · rintro _ ⟨pics, rfl⟩
    exact ⟨.start pics, .start pics⟩
  · have step := InterruptState.perform_step taken
    exact ⟨invariant.1.step step, invariant.2.step invariant.1 step⟩

/-- Interrupts are served: none is left in service, none is lost, and all are counted. -/
structure Serviced (s : InterruptState) : Prop where
  /-- The controllers are as `pic_remap` set them up. -/
  remapped : Remapped s.pics
  ended : s.running = none → s.pics.Idle
  /-- Every request that was latched was served once or is still there. -/
  ledger : ∀ line,
    s.raised.count line = s.served.count line + if s.pics.requested line then 1 else 0
  /-- An interrupt that is accepted is one that was requested and starts the handler of its line. -/
  dispatched : ∀ s', s.perform .accept = some s' →
    ∃ line, s.pics.requested line ∧ s'.served = line :: s.served ∧
      (line = .master Pics.timerLine → s'.running = some irq0Handler) ∧
      (line = .master Pics.keyboardLine → s'.running = some keyboardHandler) ∧
      (line ≠ .master Pics.timerLine → line ≠ .master Pics.keyboardLine →
        s'.running = some catchAllIrq)
  /-- None ever arrived at no handler or at that of an exception. -/
  handled : s.crash ≠ some .unhandled
  /-- `TICKS` counts the timer interrupts. -/
  ticks : s.running = none → s.ticks.toNat = s.timerServed % 2 ^ 64
  /-- The status of the keyboard is read once for every interrupt of it. -/
  reads : s.running = none → s.statuses.length = s.served.count (.master Pics.keyboardLine)
  /-- `KEYPRSS_COUNT` counts those that found a keystroke, and without it there was none. -/
  keys : s.running = none → s.crash = none → s.keypressCount.getD 0 = s.keystrokes
  /-- An `unwrap` fails only for a keystroke before the count is initialised. -/
  early : s.crash = some (.panic .unwrapNone) → s.keypressCount = none ∧ 0 < s.keystrokes
  /-- `wait_ms` returns after at least as many timer interrupts. -/
  waited : ∀ wait ∈ s.waited, wait.1 ≤ wait.2
  /-- Timer, keyboard and the lines of the second controller interrupt whatever came before. -/
  responsive : s.enabled → s.running = none → s.crash = none →
    ∀ line, s.pics.requested line → s.pics.Unmasked line → ∃ s', s.perform .accept = some s'

/-- In every run, however the devices, the handlers and `kernel_main` interleave. -/
theorem serviced_of_reachable {s : InterruptState} (reach : interruptSystem.Reachable s) :
    Serviced s := by
  obtain ⟨controlled, counted⟩ := counted_of_reachable reach
  refine ⟨controlled.remapped, controlled.idle, controlled.ledger, fun s' accepts => ?_,
    controlled.handled, counted.toNat_ticks, fun resting => ?_, fun resting _ => ?_, counted.early,
    counted.waited, ?_⟩
  · obtain ⟨line, requested, served, running⟩ := controlled.dispatched accepts
    refine ⟨line, requested, served, ?_, ?_, fun timer keyboard => ?_⟩
    · rintro rfl
      exact running
    · rintro rfl
      exact running
    · rw [running, IrqLine.handler_of_ne timer keyboard]
  · have reads := counted.reads
    rwa [InterruptState.remaining, resting] at reads
  · have keys := counted.keys
    rwa [InterruptState.remaining, resting] at keys
  · intro enabled resting alive line requested unmasked
    have apart : line ≠ .master Pics.cascade := by
      rintro rfl
      exact controlled.chain requested
    obtain ⟨⟨accepted, vector, pics⟩, acknowledged⟩ :=
      Pics.exists_acknowledge (controlled.idle resting) requested apart unmasked
    obtain ⟨found, -⟩ := controlled.accept resting acknowledged
    rw [InterruptState.perform, if_pos ⟨enabled, by rw [resting]; rfl, by rw [alive]; rfl⟩,
      acknowledged]
    dsimp only
    rw [found]
    exact ⟨_, rfl⟩

/-- A key is pressed while the handler of the timer runs, `wait_ms` returns after it, and then the
mouse moves. -/
def sampleEvents : List InterruptEvent :=
  [.sti, .initCount, .wait 1, .raise (.master Pics.timerLine), .accept, .handle 0,
    .raise (.master Pics.keyboardLine), .handle 0, .handle 0, .poll, .accept, .handle 1, .handle 0,
    .handle 0, .handle 0, .handle 0, .handle 0, .raise (.slave Pics.mouseLine), .accept, .handle 0,
    .handle 0, .handle 0]

def powerOnPic : Pic := ⟨[], 0, 0, 0, 0, ∅, ∅⟩

/-- All three interrupts are served. -/
theorem serviced_of_reachable_sample :
    ∃ s, interruptSystem.Reachable s ∧ s.served = [.slave 4, .master 1, .master 0] ∧ s.ticks = 1 ∧
      s.keypressCount = some 1 ∧ s.waited = [(1, 1)] ∧ Serviced s := by
  have executed : (Behaviour.run InterruptState.perform (fun _ _ => True)
      ⟨picRemap ⟨powerOnPic, powerOnPic⟩, false, none, 0, none, none, none, [], [], [], []⟩
      sampleEvents).map (fun s => (s.served, s.ticks, s.keypressCount, s.waited)) =
      some ([.slave 4, .master 1, .master 0], 1, some 1, [(1, 1)]) := by decide +kernel
  have start : interruptSystem.initial ⟨picRemap ⟨powerOnPic, powerOnPic⟩, false, none, 0, none,
      none, none, [], [], [], []⟩ := ⟨_, rfl⟩
  obtain ⟨s, reach, evaluated⟩ := Behaviour.exists_reach start executed
  simp only [Prod.mk.injEq] at evaluated
  obtain ⟨served, ticks, count, waited⟩ := evaluated
  exact ⟨s, reach, served, ticks, count, waited, serviced_of_reachable reach⟩

end Blubos
