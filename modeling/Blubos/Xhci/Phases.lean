import Blubos.Xhci.BringUp

/-!
# The phases of bringing a controller up

What holds of the registers and of the modifications so far at each point of a pass, with one triple
for each access of the driver.  A controller is stopped, found halted and reset; from when it is
found ready again it is quiet, and each further modification adds to what it is configured to.
-/

namespace Blubos

namespace Driver

section Phases

variable (world : ℕ → RegisterFile → RegisterFile) (device : DeviceConfig)

/-- Before a pass. -/
structure Entered (bus : RegisterBus) : Prop where
  inWorld : bus.world = world
  orderly : Orderly device bus.log
  fresh : bus.log = [] ∨ 2 ≤ bus.log.length ∧ bus.file.op.Calm

/-- Run was cleared. -/
structure Stopping (bus : RegisterBus) : Prop where
  inWorld : bus.world = world
  orderly : Orderly device bus.log
  run : bus.file.op.run = false
  fresh : bus.log.length = 1 ∨ 2 ≤ bus.log.length ∧ bus.file.op.Calm

/-- The controller was found halted by the last access. -/
structure Halted (bus : RegisterBus) : Prop extends Stopping world device bus where
  halted : bus.file.op.halted = true
  found : ∃ time file, bus.time = time + 1 ∧ bus.file = world time file

/-- Reset was set. -/
structure Resetting (bus : RegisterBus) : Prop where
  inWorld : bus.world = world
  orderly : Orderly device bus.log
  run : bus.file.op.run = false
  begun : 2 ≤ bus.log.length

/-- The controller is ready, and its configuration has a property. -/
structure Quiet (running : Bool) (configured : DeviceConfig → RingConfig → Prop)
    (bus : RegisterBus) : Prop where
  inWorld : bus.world = world
  orderly : Orderly device bus.log
  begun : 2 ≤ bus.log.length
  calm : bus.file.op.Calm
  run : bus.file.op.run = true → running = true
  configured : configured bus.file.op.deviceConfig bus.file.runtime.ringConfig

end Phases

variable {world : ℕ → RegisterFile → RegisterFile} {device : DeviceConfig} {bus : RegisterBus}
  {stopped : RegisterBus → Prop} {configured : DeviceConfig → RingConfig → Prop} {running : Bool}

theorem Entered.settle (entered : Entered world device bus) (obeys : Obeys world) :
    Entered world device (settle bus) where
  inWorld := entered.inWorld
  orderly := entered.orderly
  fresh := by
    rcases entered.fresh with first | ⟨begun, calm⟩
    · exact .inl first
    · refine .inr ⟨begun, ?_⟩
      rw [Driver.settle, entered.inWorld]
      exact obeys.calm calm

theorem Stopping.settle (stopping : Stopping world device bus) (obeys : Obeys world) :
    Stopping world device (settle bus) where
  inWorld := stopping.inWorld
  orderly := stopping.orderly
  run := by
    rw [Driver.settle, stopping.inWorld]
    exact obeys.stopped stopping.run
  fresh := by
    rcases stopping.fresh with first | ⟨begun, calm⟩
    · exact .inl first
    · refine .inr ⟨begun, ?_⟩
      rw [Driver.settle, stopping.inWorld]
      exact obeys.calm calm

theorem Halted.settle (halted : Halted world device bus) (obeys : Obeys world) :
    Halted world device (settle bus) where
  toStopping := halted.toStopping.settle obeys
  halted := by
    obtain ⟨time, file, now, found⟩ := halted.found
    have run := halted.run
    have still := halted.halted
    rw [found] at run still
    rw [Driver.settle, halted.inWorld, now, found]
    exact obeys.halted time file still run
  found := ⟨bus.time, bus.file, rfl, by rw [Driver.settle, halted.inWorld]⟩

theorem Resetting.settle (resetting : Resetting world device bus) (obeys : Obeys world) :
    Resetting world device (settle bus) where
  inWorld := resetting.inWorld
  orderly := resetting.orderly
  run := by
    rw [Driver.settle, resetting.inWorld]
    exact obeys.stopped resetting.run
  begun := resetting.begun

theorem Quiet.settle (quiet : Quiet world device running configured bus) (obeys : Obeys world) :
    Quiet world device running configured (settle bus) where
  inWorld := quiet.inWorld
  orderly := quiet.orderly
  begun := quiet.begun
  calm := by
    rw [Driver.settle, quiet.inWorld]
    exact obeys.calm quiet.calm
  run := by
    rw [Driver.settle, quiet.inWorld]
    exact fun runs => quiet.run (obeys.run bus.time bus.file runs)
  configured := by
    rw [Driver.settle, quiet.inWorld]
    dsimp only
    rw [obeys.deviceConfig bus.time bus.file quiet.calm,
      obeys.ringConfig bus.time bus.file quiet.calm]
    exact quiet.configured

theorem modifyOp_triple {before after : RegisterBus → Prop}
    {change : XhciOpRegisters → XhciOpRegisters}
    (writes : ∀ bus, before bus → after (record (settle (settle bus)) ⟨.op, (settle bus).file.op,
      (settle (settle bus)).file.op, (change (.ofDwords (settle bus).file.op)).toDwords⟩)) :
    Triple before (modifyOp fun op => .ok (change op)) (fun _ => after) stopped := by
  refine modify_triple (fun bus fault _ failed => absurd failed (by simp)) ?_
  intro bus written holds computed
  obtain rfl := Except.ok.inj computed
  exact writes bus holds

theorem stop_triple (obeys : Obeys world) :
    Triple (Entered world device)
      (modifyOp fun op => .ok { op with usbCmd := op.usbCmd.setRun false })
      (fun _ => Stopping world device) stopped := by
  refine modifyOp_triple fun bus entered => ?_
  have seen := entered.settle obeys
  have present := seen.settle obeys
  let op := XhciOpRegisters.ofDwords (Driver.settle bus).file.op
  let modify : RegisterModify := ⟨.op, (Driver.settle bus).file.op,
    (Driver.settle (Driver.settle bus)).file.op,
    { op with usbCmd := op.usbCmd.setRun false }.toDwords⟩
  have takes : modify.Takes := RegisterModify.takes rfl
  have stops : modify.written.run = false := BitField.getLsbD_setFlag.trans (by simp)
  have same : modify.written.resetting = modify.seen.resetting :=
    BitField.flag_setFlag_of_ne (by decide)
  refine ⟨present.inWorld, ?_, takes.run.trans stops, ?_⟩
  · refine present.orderly.append (fun _ resets => .inl (same ▸ resets)) (fun begun _ => ?_)
      fun _ runs => absurd (stops.symm.trans runs) Bool.false_ne_true
    rcases present.fresh with first | ⟨-, calm⟩
    · rw [first] at begun
      exact absurd begun (by decide)
    · exact calm
  · rcases seen.fresh with first | ⟨begun, calm⟩
    · refine .inl ?_
      change (_ ++ [_]).length = 1
      rw [show (Driver.settle (Driver.settle bus)).log = [] from first]
      rfl
    · refine .inr ⟨?_, ⟨takes.resetting.trans (same.trans calm.resetting),
        takes.notReady.trans calm.ready⟩⟩
      exact begun.trans (List.length_append ▸ Nat.le_add_right _ _)

theorem reset_triple (obeys : Obeys world) :
    Triple (Halted world device)
      (modifyOp fun op => .ok { op with usbCmd := op.usbCmd.setReset true })
      (fun _ => Resetting world device) stopped := by
  refine modifyOp_triple fun bus halted => ?_
  have seen := halted.settle obeys
  have present := seen.settle obeys
  let op := XhciOpRegisters.ofDwords (Driver.settle bus).file.op
  let modify : RegisterModify := ⟨.op, (Driver.settle bus).file.op,
    (Driver.settle (Driver.settle bus)).file.op,
    { op with usbCmd := op.usbCmd.setReset true }.toDwords⟩
  have takes : modify.Takes := RegisterModify.takes rfl
  have stops : modify.written.run = false :=
    (BitField.flag_setFlag_of_ne (by decide)).trans seen.run
  refine ⟨present.inWorld, ?_, takes.run.trans stops, ?_⟩
  · refine present.orderly.append (fun _ _ => .inr present.halted) (fun begun _ => ?_)
      fun _ runs => absurd (stops.symm.trans runs) Bool.false_ne_true
    rcases present.fresh with first | ⟨-, calm⟩
    · rw [first] at begun
      exact absurd begun (by decide)
    · exact calm
  · change 2 ≤ (_ ++ [_]).length
    rw [List.length_append, List.length_singleton]
    rcases present.fresh with first | ⟨begun, -⟩ <;> omega

/-! ## A quiet controller -/

theorem quietOp_triple (obeys : Obeys world) {running' : Bool}
    {configured' : DeviceConfig → RingConfig → Prop} {change : XhciOpRegisters → XhciOpRegisters}
    (reset : ∀ op, (change op).usbCmd.reset = op.usbCmd.reset)
    (ready : ∀ op,
      (change op).usbStatus.controllerNotReady = op.usbStatus.controllerNotReady)
    (run : ∀ op, BitField.flag 0 (change op).usbCmd.raw = true →
      BitField.flag 0 op.usbCmd.raw = true ∨ running' = true ∧
        (change op).commandRingControl = op.commandRingControl ∧
        ∀ device' ring, configured device' ring → device' = device)
    (adds : ∀ op ring,
      configured op.deviceConfig ring → configured' (change op).deviceConfig ring) :
    Triple (Quiet world device false configured) (modifyOp fun op => .ok (change op))
      (fun _ => Quiet world device running' configured') stopped := by
  refine modifyOp_triple fun bus quiet => ?_
  have seen := quiet.settle obeys
  have present := seen.settle obeys
  let op := XhciOpRegisters.ofDwords (Driver.settle bus).file.op
  let modify : RegisterModify := ⟨.op, (Driver.settle bus).file.op,
    (Driver.settle (Driver.settle bus)).file.op, (change op).toDwords⟩
  have takes : modify.Takes := RegisterModify.takes rfl
  have resetting : modify.written.resetting = modify.seen.resetting := reset op
  have runs : modify.written.run = true → running' = true ∧
      (change op).commandRingControl = op.commandRingControl ∧
      ∀ device' ring, configured device' ring → device' = device := by
    intro starts
    rcases run op starts with ran | allowed
    · exact absurd (seen.run ran) Bool.false_ne_true
    · exact allowed
  refine ⟨present.inWorld, ?_, ?_, ?_, fun starts => (runs (takes.run ▸ starts)).1, ?_⟩
  · exact present.orderly.append (fun _ resets => .inl (resetting ▸ resets))
      (fun _ _ => present.calm) fun _ starts =>
        ⟨(runs starts).2.2 _ _ present.configured, (XhciOpRegisters.commandRing_toDwords _).trans
          (congrArg XhciCommandRingControl.raw (runs starts).2.1)⟩
  · change 2 ≤ (_ ++ [_]).length
    exact present.begun.trans (List.length_append ▸ Nat.le_add_right _ _)
  · exact ⟨takes.resetting.trans (resetting.trans seen.calm.resetting),
      takes.notReady.trans ((ready op).trans seen.calm.ready)⟩
  · have holds := present.configured
    have kept : (Driver.settle (Driver.settle bus)).file.op.deviceConfig = op.deviceConfig := by
      rw [Driver.settle, seen.inWorld]
      exact obeys.deviceConfig _ _ seen.calm
    rw [kept] at holds
    change configured' modify.after.deviceConfig _
    rw [takes.deviceConfig, XhciOpRegisters.deviceConfig_toDwords]
    exact adds op _ holds

theorem quietRuntime_triple (obeys : Obeys world) {configured' : DeviceConfig → RingConfig → Prop}
    {change : XhciInterrupterRegister → XhciInterrupterRegister}
    (adds : ∀ interrupter device', configured device' interrupter.ringConfig →
      configured' device' (change interrupter).ringConfig) :
    Triple (Quiet world device false configured) (modifyRuntime (onInterrupter 0 change))
      (fun _ => Quiet world device false configured') stopped := by
  refine modify_triple (fun bus fault _ failed => ?_) ?_
  · exact absurd failed (by simp [onInterrupter])
  intro bus written quiet computed
  obtain rfl := Except.ok.inj computed
  have seen := quiet.settle obeys
  have present := seen.settle obeys
  let interrupter :=
    (XhciRuntimeRegisters.ofDwords (Driver.settle bus).file.runtime).interrupters[0]
  have apart : RegisterBlockName.runtime ≠ .op := by decide
  refine ⟨present.inWorld, ?_, ?_, present.calm, present.run, ?_⟩
  · exact present.orderly.append (fun other => absurd other apart)
      (fun _ other => absurd other apart) fun other => absurd other apart
  · change 2 ≤ (_ ++ [_]).length
    exact present.begun.trans (List.length_append ▸ Nat.le_add_right _ _)
  · have holds := present.configured
    have kept : (Driver.settle (Driver.settle bus)).file.runtime.ringConfig =
        interrupter.ringConfig := by
      rw [Driver.settle, seen.inWorld]
      exact obeys.ringConfig _ _ seen.calm
    rw [kept] at holds
    change configured' _ (RegisterModify.after _).ringConfig
    rw [RegisterModify.ringConfig_after rfl, XhciRuntimeRegisters.ringConfig_toDwords]
    exact adds interrupter _ holds

theorem quietRead_triple (obeys : Obeys world) (name : RegisterBlockName) :
    Triple (Quiet world device running configured) (read name)
      (fun _ => Quiet world device running configured) stopped :=
  fun _ quiet => quiet.settle obeys

theorem readOp_triple {before : RegisterBus → Prop} {after : XhciOpRegisters → RegisterBus → Prop}
    (reads : ∀ bus, before bus → after (.ofDwords (settle bus).file.op) (settle bus)) :
    Triple before readOp after stopped :=
  fun bus holds => reads bus holds

/-- The first condition of `reset`. -/
def notHalted : Driver Bool := do
  return !(← readOp).usbStatus.hostControllerHalted

/-- The second condition of `reset`. -/
def notReset : Driver Bool := do
  if (← readOp).usbCmd.reset then return true
  else return (← readOp).usbStatus.controllerNotReady

/-- The condition of `start`. -/
def notStarted : Driver Bool := do
  return (← readOp).usbStatus.hostControllerHalted

theorem Stopping.found (stopping : Stopping world device bus) (obeys : Obeys world)
    (halted : (Driver.settle bus).file.op.halted = true) :
    Halted world device (Driver.settle bus) where
  toStopping := stopping.settle obeys
  halted := halted
  found := ⟨bus.time, bus.file, rfl, by rw [Driver.settle, stopping.inWorld]⟩

/-- The condition reads a second time when the first reading shows no reset. -/
theorem notReset_eq (bus : RegisterBus) : notReset bus =
    if (Driver.settle bus).file.op.resetting = true then (.ok true, Driver.settle bus)
    else (.ok (Driver.settle (Driver.settle bus)).file.op.notReady,
      Driver.settle (Driver.settle bus)) := by
  change (if (Driver.settle bus).file.op.resetting = true then (pure true : Driver Bool)
    else do return (← readOp).usbStatus.controllerNotReady) (Driver.settle bus) = _
  split_ifs <;> rfl

theorem Resetting.quiet (resetting : Resetting world device bus) (obeys : Obeys world)
    (done : bus.file.op.resetting = false) (ready : (Driver.settle bus).file.op.notReady = false) :
    Quiet world device false (fun _ _ => True) (Driver.settle bus) where
  inWorld := resetting.inWorld
  orderly := resetting.orderly
  begun := resetting.begun
  calm := by
    refine ⟨Bool.eq_false_iff.mpr fun begins => ?_, ready⟩
    rw [Driver.settle, resetting.inWorld] at begins
    exact absurd (obeys.resetting _ _ begins) (by simp [done])
  run := fun runs => (resetting.settle obeys).run.symm.trans runs
  configured := trivial

/-- What the polling of `reset` leads to, with a bound on its rounds. -/
structure ResetPolls (world : ℕ → RegisterFile → RegisterFile) (device : DeviceConfig)
    (stopped : RegisterBus → Prop) (rounds : ℕ) : Prop where
  halts : Triple (Stopping world device) (poll notHalted rounds) (fun _ => Halted world device)
    stopped
  readies : Triple (Resetting world device) (poll notReset rounds)
    (fun _ => Quiet world device false fun _ _ => True) stopped

theorem reset_quiet (obeys : Obeys world) {rounds : ℕ}
    (polls : ResetPolls world device stopped rounds) :
    Triple (Entered world device) (reset rounds)
      (fun _ => Quiet world device false fun _ _ => True) stopped := by
  refine bind_triple (stop_triple obeys) fun _ => ?_
  refine bind_triple polls.halts fun _ => ?_
  refine bind_triple (reset_triple obeys) fun _ => ?_
  refine bind_triple (@readOp_triple _ _ (fun _ => Resetting world device)
    fun _ resetting => resetting.settle obeys) fun _ => ?_
  exact polls.readies

theorem setupOpRegs_quiet (obeys : Obeys world) {setup : OpSetup}
    (aborts : setup.dcbaa = none ∨ setup.contexts ≠ .ok () →
      ∀ bus configured, Quiet world device false configured bus → stopped bus) :
    Triple (Quiet world device false fun _ _ => True) (setupOpRegs setup)
      (fun _ bus => setup.contexts = .ok () ∧
        Quiet world device false (fun device' _ => device' = setup.deviceConfig) bus) stopped := by
  obtain ⟨slots, dcbaa, contexts, commandRing⟩ := setup
  cases dcbaa with
  | none =>
      refine bind_triple (@modify_triple _ _ _ _ (fun _ => False) (fun bus _ quiet _ => ?_) ?_)
        fun _ => ?_
      · exact aborts (.inl rfl) _ _ (quiet.settle obeys)
      · exact fun _ _ _ computed => nomatch computed
      · exact fun _ impossible => False.elim impossible
  | some physical =>
      let setup : OpSetup := ⟨slots, some physical, contexts, commandRing⟩
      have publishes : Triple (Quiet world device false fun _ _ => True)
          (modifyOp fun op => .ok { op with
            configure := op.configure.setDeviceSlotsEnabled slots
            notificationEnable := 0xffff
            deviceContextBaseAddressArray := physical })
          (fun _ => Quiet world device false fun device' _ =>
            device' = setup.deviceConfig) stopped := by
        refine quietOp_triple obeys (fun _ => rfl) (fun _ => rfl) (fun _ runs => .inl runs) ?_
        intro op _ _
        exact congrArg (DeviceConfig.mk · _) (BitField.get_set (by decide))
      refine bind_triple publishes fun _ => ?_
      refine @bind_triple _ _ _ _ _ _ (fun _ bus => contexts = .ok () ∧
        Quiet world device false (fun device' _ => device' = setup.deviceConfig) bus) _ ?_
        fun _ => Attempt.Triple.assume fun served => ?_
      · intro bus quiet
        cases contexts with
        | ok => exact ⟨rfl, quiet⟩
        | error fault => exact aborts (.inr (by simp)) _ _ quiet
      · exact Attempt.Triple.weaken (quietOp_triple obeys (fun _ => rfl) (fun _ => rfl)
          (fun _ runs => .inl runs) fun _ _ holds => holds) (fun _ holds => holds)
          (fun _ _ quiet => ⟨served, quiet⟩) fun _ stops => stops

theorem setupRuntimeRegs_quiet (obeys : Obeys world) :
    Triple (Quiet world device false configured) setupRuntimeRegs
      (fun _ => Quiet world device false configured) stopped := by
  have same {change : XhciInterrupterRegister → XhciInterrupterRegister}
      (keeps : ∀ interrupter, (change interrupter).ringConfig = interrupter.ringConfig) :
      Triple (Quiet world device false configured) (modifyRuntime (onInterrupter 0 change))
        (fun _ => Quiet world device false configured) stopped := by
    refine quietRuntime_triple obeys fun interrupter device' holds => ?_
    rwa [keeps]
  have acknowledges : Triple (Quiet world device false configured)
      (modifyOp fun op => .ok { op with usbStatus := op.usbStatus.setEventInterrupt true })
      (fun _ => Quiet world device false configured) stopped :=
    quietOp_triple obeys (fun _ => rfl) (fun _ => BitField.flag_setFlag_of_ne (by decide))
      (fun _ runs => .inl runs) fun _ _ holds => holds
  refine bind_triple (same fun _ => rfl) fun _ => ?_
  refine bind_triple acknowledges fun _ => ?_
  exact same fun _ => rfl

theorem initEventRing_quiet (obeys : Obeys world) (memory : EventRingMemory) :
    Triple (Quiet world device false fun device' _ => device' = device)
      (initEventRing memory.ring memory.segmentTable)
      (fun _ => Quiet world device false fun device' ring =>
        device' = device ∧ ring = memory.ringConfig) stopped := by
  refine quietRuntime_triple obeys fun interrupter device' holds => ⟨holds, ?_⟩
  exact congrArg (RingConfig.mk _ _) (BitField.get_setFlag_of_apart (by decide))

theorem start_quiet (obeys : Obeys world) {rounds : ℕ}
    (contexts : ∀ device' ring, configured device' ring → device' = device)
    (starts : Triple
      (fun bus => Quiet world device true configured bus ∧ bus.file.op.run = true)
      (poll notStarted rounds) (fun _ => Quiet world device true configured) stopped) :
    Triple (Quiet world device false configured) (start rounds)
      (fun result bus => result = .ok () ∧ Quiet world device true configured bus) stopped := by
  have runs (usbCmd : XhciUsbCmd) :
      BitField.flag 0 ((usbCmd.setRun true).setInterruptEnable true).raw = true :=
    (BitField.flag_setFlag_of_ne (by decide)).trans (BitField.getLsbD_setFlag.trans (by simp))
  have writes : Triple (Quiet world device false configured)
      (modifyOp fun op => .ok { op with
        usbCmd := (op.usbCmd.setRun true).setInterruptEnable true })
      (fun _ bus => Quiet world device true configured bus ∧ bus.file.op.run = true) stopped := by
    refine Attempt.Triple.and (quietOp_triple obeys (fun op => ?_) (fun _ => rfl)
      (fun _ _ => .inr ⟨rfl, rfl, contexts⟩) fun _ _ holds => holds)
        (modifyOp_triple fun bus _ => ?_)
    · exact (BitField.flag_setFlag_of_ne (by decide)).trans
        (BitField.flag_setFlag_of_ne (by decide))
    · exact (RegisterModify.takes rfl).run.trans (runs _)
  refine bind_triple writes fun _ => ?_
  refine bind_triple starts fun _ => ?_
  refine bind_triple (@readOp_triple _ _ (fun op bus => Quiet world device true configured bus ∧
    op.usbStatus.controllerNotReady = bus.file.op.notReady)
    fun _ quiet => ⟨quiet.settle obeys, rfl⟩) ?_
  rintro op bus ⟨quiet, seen⟩
  rw [quiet.calm.ready] at seen
  rw [seen]
  exact ⟨rfl, quiet⟩

/-! ## A pass -/

def Publishes (device : DeviceConfig) (memory : EventRingMemory) (device' : DeviceConfig)
    (ring : RingConfig) : Prop :=
  device' = device ∧ ring = memory.ringConfig

/-- A pass does not get what it takes from elsewhere once the registers are mapped. -/
inductive Fails (dcbaa : Option (BitVec 64)) (pass : BringUpPass) : Prop
  | rested {halt : Halt} : pass.rested = .error halt → Fails dcbaa pass
  | commandRing {halt : Halt} : pass.commandRing = .error halt → Fails dcbaa pass
  | dcbaa : dcbaa = none → Fails dcbaa pass
  | contexts : pass.contexts ≠ .ok () → Fails dcbaa pass
  | eventRing {halt : Halt} : pass.eventRing = .error halt → Fails dcbaa pass

/-- How a pass may stop, of a loop over some passes. -/
structure Stops (world : ℕ → RegisterFile → RegisterFile) (device : DeviceConfig)
    (dcbaa : Option (BitVec 64)) (passes : List BringUpPass) (stopped : RegisterBus → Prop)
    (pass : BringUpPass) : Prop where
  /-- Before it touches the registers, after another pass. -/
  unmapped : pass.mapped ≠ .ok () → ∀ served : ServedPass, served.toBringUpPass ∈ passes →
    ∀ bus, Quiet world device true (Publishes device served.memory) bus → stopped bus
  resets : ResetPolls world device stopped pass.resetRounds
  aborts : Fails dcbaa pass → ∀ bus configured, Quiet world device false configured bus →
    stopped bus
  starts : ∀ memory, pass.eventRing = .ok memory → Triple
    (fun bus => Quiet world device true (Publishes device memory) bus ∧ bus.file.op.run = true)
    (poll notStarted pass.startRounds) (fun _ => Quiet world device true (Publishes device memory))
    stopped

variable {slots : BitVec 8} {dcbaa : Option (BitVec 64)} {passes : List BringUpPass}

theorem bringUp_quiet (obeys : Obeys world) (statics : XhciStatics) {pass : BringUpPass}
    {before : RegisterBus → Prop} (contexts : device = ⟨slots, BitField.get 6 58 (dcbaa.getD 0)⟩)
    (enters : ∀ bus, before bus → Entered world device bus)
    (unmapped : pass.mapped ≠ .ok () → ∀ bus, before bus → stopped bus)
    (stops : Stops world device dcbaa passes stopped pass) :
    Triple before (bringUp slots dcbaa statics pass)
      (fun statics' bus => ∃ served : ServedPass, served.toBringUpPass = pass ∧
        statics' = statics.after served ∧
        Quiet world device true (Publishes device served.memory) bus) stopped := by
  subst contexts
  refine bind_triple (elsewhere_triple fun halt failed => unmapped (by rw [failed]; simp))
    fun _ => Attempt.Triple.assume fun mapped => ?_
  refine bind_triple ((reset_quiet obeys stops.resets).weaken enters (fun _ _ quiet => quiet)
    fun _ stops => stops) fun _ => ?_
  refine bind_triple (elsewhere_triple fun halt failed bus => stops.aborts (.rested failed) bus _)
    fun _ => Attempt.Triple.assume fun rested => ?_
  refine bind_triple
    (elsewhere_triple fun halt failed bus => stops.aborts (.commandRing failed) bus _)
    fun commandBase => Attempt.Triple.assume fun commandRing => ?_
  refine bind_triple (setupOpRegs_quiet obeys fun missing =>
    stops.aborts (missing.elim .dcbaa .contexts)) fun _ =>
      Attempt.Triple.assume fun contexts => ?_
  refine bind_triple (quietRead_triple obeys .op) fun _ => ?_
  refine bind_triple (setupRuntimeRegs_quiet obeys) fun _ => ?_
  refine bind_triple
    (elsewhere_triple fun halt failed bus => stops.aborts (.eventRing failed) bus _)
    fun memory => Attempt.Triple.assume fun eventRing => ?_
  refine bind_triple (initEventRing_quiet obeys memory) fun _ => ?_
  refine bind_triple (quietRead_triple obeys .op) fun _ => ?_
  refine bind_triple (quietRead_triple obeys .runtime) fun _ => ?_
  refine bind_triple (start_quiet obeys (fun _ _ published => published.1)
    (stops.starts memory eventRing)) fun result => ?_
  rintro bus ⟨rfl, quiet⟩
  exact ⟨⟨pass, commandBase, memory, mapped, rested, commandRing, contexts, eventRing⟩, rfl, rfl,
    quiet.settle obeys⟩

/-- The loop ends with the statics of all passes and the configuration of the last. -/
theorem bringUpAll_quiet (obeys : Obeys world) (statics : XhciStatics) {pass : BringUpPass}
    {rest : List BringUpPass} {before : RegisterBus → Prop}
    (contexts : device = ⟨slots, BitField.get 6 58 (dcbaa.getD 0)⟩)
    (enters : ∀ bus, before bus → Entered world device bus)
    (unmapped : pass.mapped ≠ .ok () → ∀ bus, before bus → stopped bus)
    (members : pass :: rest ⊆ passes)
    (stops : ∀ other ∈ pass :: rest, Stops world device dcbaa passes stopped other) :
    Triple before (bringUpAll slots dcbaa statics (pass :: rest))
      (fun statics' bus => ∃ first later, (first :: later).map ServedPass.toBringUpPass =
          pass :: rest ∧ statics' = (first :: later).foldl XhciStatics.after statics ∧
        Quiet world device true (Publishes device (later.getLastD first).memory) bus) stopped := by
  have begins := bringUp_quiet obeys statics contexts enters unmapped
    (stops pass List.mem_cons_self)
  induction rest generalizing pass statics before with
  | nil =>
      refine bind_triple begins fun statics' => ?_
      rintro bus ⟨served, rfl, rfl, quiet⟩
      exact ⟨served, [], rfl, rfl, quiet⟩
  | cons next rest induction =>
      obtain ⟨member, others⟩ := List.cons_subset.mp members
      obtain ⟨-, later⟩ := List.forall_mem_cons.mp stops
      refine bind_triple begins fun statics' => ?_
      rintro bus ⟨served, rfl, rfl, quiet⟩
      let published (bus : RegisterBus) : Prop :=
        Quiet world device true (Publishes device served.memory) bus
      have entered : ∀ bus, published bus → Entered world device bus := fun bus quiet =>
        ⟨quiet.inWorld, quiet.orderly, .inr ⟨quiet.begun, quiet.calm⟩⟩
      have unmapped : next.mapped ≠ .ok () → ∀ bus, published bus → stopped bus :=
        fun failed => (later next List.mem_cons_self).unmapped failed served member
      have outcome := induction (statics.after served) entered unmapped others later
        (bringUp_quiet obeys _ contexts entered unmapped (later next List.mem_cons_self)) bus quiet
      split at outcome
      · obtain ⟨first, more, same, ended, last⟩ := outcome
        refine ⟨served, first :: more, congrArg _ same, ended, ?_⟩
        rwa [List.getLastD_cons]
      · exact outcome

end Driver

end Blubos
