import Blubos.Foundation.BitField
import Blubos.Serial.Uart
import Mathlib.Data.List.Infix

/-!
# Output on the serial port

The driver sets the port up and then writes one byte after another, each when none waits.  Between
two accesses the transmitter gets as far as it does.  From any state of the port and at any speed of
the transmitter the bytes leave in order, in one format, and none of them is lost.
-/

namespace Blubos

/-- The port, and what happens to it before each access. -/
structure SerialBus where
  uart : Uart
  /-- How many steps the transmitter does before an access, and the bits of the status that are not
  about sending. -/
  world : ℕ → ℕ × BitVec 8
  time : ℕ

/-- Programs of the driver, which may wait for ever. -/
def Console (α : Type) : Type := Attempt SerialBus Unit α

/-- `COM1`. -/
def com1 : ℕ := 0x3F8

namespace Console

instance : Monad Console where
  pure value bus := (.ok value, bus)
  bind := Attempt.andThen

/-- The port as the next access finds it. -/
def settle (bus : SerialBus) : SerialBus :=
  { bus with uart := Uart.transmit^[(bus.world bus.time).1] bus.uart, time := bus.time + 1 }

/-- `outb`. -/
def outb (port : ℕ) (value : BitVec 8) : Console Unit := fun bus =>
  (.ok (), { settle bus with uart := (settle bus).uart.write (port - com1) value })

/-- `inb`, of the line status. -/
def inb (port : ℕ) : Console (BitVec 8) := fun bus =>
  let others := (bus.world bus.time).2
  (.ok (if port - com1 = 5 then (settle bus).uart.lineStatus others else others), settle bus)

/-- `serial_init`. -/
def serialInit : Console Unit := do
  outb (com1 + 1) 0x00
  outb (com1 + 3) 0x80
  outb (com1 + 0) 0x03
  outb (com1 + 1) 0x00
  outb (com1 + 3) 0x03
  outb (com1 + 2) 0xC7
  outb (com1 + 4) 0x0B

/-- The loop of `serial_write_byte`; after the given number of rounds it still waits. -/
def waitEmpty : ℕ → Console Unit
  | 0 => fun bus => (.error (), bus)
  | rounds + 1 => do
      if (← inb (com1 + 5)) &&& 0x20 = 0 then waitEmpty rounds

/-- `serial_write_byte`. -/
def serialWriteByte (rounds : ℕ) (c : BitVec 8) : Console Unit := do
  waitEmpty rounds
  outb com1 c

/-- `serial_write_str`. -/
def serialWriteStr (rounds : ℕ) : List (BitVec 8) → Console Unit
  | [] => pure ()
  | c :: s => do
      serialWriteByte rounds c
      serialWriteStr rounds s

/-- The calls of `write_str` that `serial_print` makes. -/
def serialPrint (rounds : ℕ) : List (List (BitVec 8)) → Console Unit
  | [] => pure ()
  | s :: texts => do
      serialWriteStr rounds s
      serialPrint rounds texts

/-- The kernel sets the port up and prints. -/
def print (rounds : ℕ) (texts : List (List (BitVec 8))) : Console Unit := do
  serialInit
  serialPrint rounds texts

variable {α β : Type} {before stopped : SerialBus → Prop} {world : ℕ → ℕ × BitVec 8}

/-- A triple for a program of the driver. -/
abbrev Triple (before : SerialBus → Prop) (program : Console α) (after : α → SerialBus → Prop)
    (stopped : SerialBus → Prop) : Prop :=
  Attempt.Triple before program after stopped

theorem bind_triple {first : Console α} {next : α → Console β} {after : α → SerialBus → Prop}
    {later : β → SerialBus → Prop} (triple : Triple before first after stopped)
    (second : ∀ value, Triple (after value) (next value) later stopped) :
    Triple before (first >>= next) later stopped :=
  Attempt.Triple.andThen triple second

/-- The port while it is set up: bytes that waited may have been dropped. -/
structure SettingUp (world : ℕ → ℕ × BitVec 8) (start : Uart) (config : UartConfig) (cleared : Bool)
    (bus : SerialBus) : Prop where
  inWorld : bus.world = world
  config : bus.uart.config = config
  lost : bus.uart.lost = start.lost
  stream : bus.uart.stream <+: start.stream
  waiting : cleared = true → bus.uart.waiting = []

theorem SettingUp.settle {start : Uart} {config : UartConfig} {cleared : Bool} {bus : SerialBus}
    (settingUp : SettingUp world start config cleared bus) :
    SettingUp world start config cleared (settle bus) := by
  have transmits := bus.uart.transmits_iterate (bus.world bus.time).1
  refine ⟨settingUp.inWorld, transmits.config.trans settingUp.config,
    transmits.lost.trans settingUp.lost, ?_, ?_⟩
  · rw [Console.settle, transmits.stream]
    exact settingUp.stream
  · intro cleared
    obtain ⟨gone, waited⟩ := transmits.waiting
    rw [settingUp.waiting cleared] at waited
    exact (List.append_eq_nil_iff.mp waited.symm).2

theorem outb_settingUp {start : Uart} {config : UartConfig} {cleared : Bool} {offset : ℕ}
    {value : BitVec 8} (silent : offset ≠ 0 ∨ config.latch = true) :
    Triple (SettingUp world start config cleared) (outb (com1 + offset) value)
      (fun _ => SettingUp world start (config.write offset value)
        (cleared || offset == 2 && value.getLsbD 2)) stopped := by
  intro bus settingUp
  have settled := settingUp.settle
  have quiet : ¬(offset = 0 ∧ (settle bus).uart.config.latch = false) := by
    rw [settled.config]
    rintro ⟨zero, hidden⟩
    rcases silent with other | latched
    · exact other zero
    · exact absurd (latched.symm.trans hidden) (by decide)
  change SettingUp _ _ _ _ { settle bus with
    uart := (settle bus).uart.write (com1 + offset - com1) value }
  rw [Nat.add_sub_cancel_left, Uart.write, if_neg quiet]
  split_ifs with clears
  · refine ⟨settled.inWorld, congrArg (UartConfig.write · offset value) settled.config,
      settled.lost, ?_, fun _ => rfl⟩
    refine List.IsPrefix.trans ⟨(settle bus).uart.waiting, ?_⟩ settled.stream
    rw [Uart.stream, Uart.stream, List.append_nil]
  · refine ⟨settled.inWorld, congrArg (UartConfig.write · offset value) settled.config,
      settled.lost, settled.stream, fun some => settled.waiting ?_⟩
    simp only [Bool.or_eq_true, Bool.and_eq_true, beq_iff_eq] at some
    rcases some with earlier | ⟨two, bit⟩
    · exact earlier
    · exact absurd ⟨two, .inl bit⟩ clears

/-- What the port is set up to.  When the latch is open at first, the first write reaches the
divisor and the interrupts stay as they were. -/
def configured (config : UartConfig) : UartConfig where
  divisor := 3
  interruptEnable := if config.latch then config.interruptEnable else 0
  lineControl := 0x03
  modemControl := 0x0B
  fifoControl := 0xC7

theorem writes_eq (config : UartConfig) :
    ((((((config.write 1 0x00).write 3 0x80).write 0 0x03).write 1 0x00).write 3 0x03).write
      2 0xC7).write 4 0x0B = configured config := by
  have divisor (word : BitVec 16) :
      (0#8 ++ (word.extractLsb' 8 8 ++ 3#8).extractLsb' 0 8 : BitVec 16) = 3 :=
    congrArg (0#8 ++ ·) (BitField.get_append_low (word.extractLsb' 8 8) 3#8)
  have opened (config : UartConfig) :
      ((config.write 3 0x80).write 0 0x03).write 1 0x00 = { config with
        divisor := 0#8 ++ (config.divisor.extractLsb' 8 8 ++ 3#8).extractLsb' 0 8
        lineControl := 0x80 } := by
    have latch : BitVec.getLsbD (0x80 : BitVec 8) 7 = true := by decide
    simp only [UartConfig.write, UartConfig.latch, latch, if_true]
    rfl
  rw [opened, divisor]
  cases latch : config.latch with
  | false =>
      rw [UartConfig.write, latch, configured, latch]
      rfl
  | true =>
      rw [UartConfig.write, latch, configured, latch]
      rfl

theorem serialInit_triple {start : Uart} :
    Triple (SettingUp world start start.config false) serialInit
      (fun _ => SettingUp world start (configured start.config) true) stopped := by
  have latch (config : UartConfig) : (config.write 3 0x80).latch = true :=
    show BitVec.getLsbD (0x80 : BitVec 8) 7 = true by decide
  rw [← writes_eq]
  refine bind_triple (outb_settingUp (.inl (by decide))) fun _ => ?_
  refine bind_triple (outb_settingUp (.inl (by decide))) fun _ => ?_
  refine bind_triple (outb_settingUp (.inr (latch _))) fun _ => ?_
  refine bind_triple (outb_settingUp (.inl (by decide))) fun _ => ?_
  refine bind_triple (outb_settingUp (.inl (by decide))) fun _ => ?_
  refine bind_triple (outb_settingUp (.inl (by decide))) fun _ => ?_
  exact outb_settingUp (.inl (by decide))

/-! ## Printing -/

/-- The port while bytes are written. -/
structure Printing (world : ℕ → ℕ × BitVec 8) (start : Uart) (base handed : List (BitVec 8))
    (bus : SerialBus) : Prop where
  inWorld : bus.world = world
  config : bus.uart.config = configured start.config
  lost : bus.uart.lost = start.lost
  /-- The bytes follow those of before. -/
  stream : bus.uart.stream = base ++ handed
  formed : ∀ frame ∈ bus.uart.sent.drop base.length,
    frame.divisor = 3 ∧ frame.format = 3
  few : bus.uart.waiting.length ≤ 1

variable {start : Uart} {base handed text total : List (BitVec 8)} {bus : SerialBus} {rounds : ℕ}

/-- After the port was set up, what is left of the bytes of before is sent first. -/
theorem SettingUp.printing (settingUp : SettingUp world start (configured start.config) true bus) :
    Printing world start bus.uart.stream [] bus where
  inWorld := settingUp.inWorld
  config := settingUp.config
  lost := settingUp.lost
  stream := (List.append_nil _).symm
  formed := by
    have short : bus.uart.sent.length ≤ bus.uart.stream.length := by
      rw [Uart.stream, List.length_append, List.length_append, List.length_map]
      omega
    rw [List.drop_eq_nil_of_le short]
    simp
  few := by
    rw [settingUp.waiting rfl]
    exact Nat.zero_le 1

theorem Printing.settle (printing : Printing world start base handed bus) :
    Printing world start base handed (settle bus) := by
  have transmits := bus.uart.transmits_iterate (bus.world bus.time).1
  refine ⟨printing.inWorld, transmits.config.trans printing.config,
    transmits.lost.trans printing.lost, transmits.stream.trans printing.stream, ?_, ?_⟩
  · obtain ⟨frames, sent, formed⟩ := transmits.sent
    intro frame member
    rw [Console.settle, sent, List.drop_append] at member
    rcases List.mem_append.mp member with old | new
    · exact printing.formed frame old
    · have shape := formed frame (List.mem_of_mem_drop new)
      rw [printing.config] at shape
      exact shape
  · obtain ⟨gone, waited⟩ := transmits.waiting
    have few := printing.few
    rw [waited, List.length_append] at few
    change (Uart.transmit^[_] bus.uart).waiting.length ≤ 1
    omega

theorem outb_printing (c : BitVec 8) :
    Triple (fun bus => Printing world start base handed bus ∧ bus.uart.waiting = []) (outb com1 c)
      (fun _ => Printing world start base (handed ++ [c])) stopped := by
  rintro bus ⟨printing, empty⟩
  have settled := printing.settle
  have none : (settle bus).uart.waiting = [] := by
    obtain ⟨gone, waited⟩ := (bus.uart.transmits_iterate (bus.world bus.time).1).waiting
    rw [empty] at waited
    exact (List.append_eq_nil_iff.mp waited.symm).2
  have latch : (settle bus).uart.config.latch = false := by
    rw [settled.config]
    show BitVec.getLsbD (0x03 : BitVec 8) 7 = false
    decide
  have room : (settle bus).uart.waiting.length < (settle bus).uart.config.capacity := by
    rw [none, settled.config]
    show 0 < if BitVec.getLsbD (0xC7 : BitVec 8) 0 then 16 else 1
    decide
  change Printing _ _ _ _ { settle bus with uart := (settle bus).uart.write (com1 - com1) c }
  rw [Nat.sub_self, Uart.write, if_pos ⟨rfl, latch⟩, Uart.push, if_pos room]
  refine ⟨settled.inWorld, settled.config, settled.lost, ?_, settled.formed, ?_⟩
  · have stream := settled.stream
    rw [Uart.stream] at stream
    rw [Uart.stream, ← List.append_assoc base, ← stream]
    simp only [List.append_assoc]
  · simp [none]

theorem waitEmpty_succ (rounds : ℕ) (bus : SerialBus) :
    waitEmpty (rounds + 1) bus =
      if (settle bus).uart.waiting = [] then (.ok (), settle bus)
      else waitEmpty rounds (settle bus) := by
  change (if (settle bus).uart.lineStatus (bus.world bus.time).2 &&& 0x20 = 0
    then waitEmpty rounds else pure ()) (settle bus) = _
  rw [Uart.lineStatus_and]
  split_ifs with empty zero zero
  · exact absurd zero (by decide)
  · rfl
  · rfl
  · exact absurd rfl zero

theorem waitEmpty_triple (waits : ∀ bus, Printing world start base handed bus → stopped bus)
    (rounds : ℕ) :
    Triple (Printing world start base handed) (waitEmpty rounds)
      (fun _ bus => Printing world start base handed bus ∧ bus.uart.waiting = []) stopped := by
  induction rounds with
  | zero => exact fun bus printing => waits bus printing
  | succ rounds induction =>
      intro bus printing
      rw [waitEmpty_succ]
      split_ifs with empty
      · exact ⟨printing.settle, empty⟩
      · exact induction (settle bus) printing.settle

/-- How many steps the transmitter needs for all bytes. -/
def pending (uart : Uart) : ℕ := 2 * uart.waiting.length + uart.shifting.toList.length

theorem pending_transmit (uart : Uart) : pending uart.transmit = pending uart - 1 := by
  obtain ⟨config, waiting, shifting, sent, lost⟩ := uart
  match shifting, waiting with
  | some byte, waiting => simp [pending, Uart.transmit]
  | none, byte :: waiting => simp [pending, Uart.transmit]; omega
  | none, [] => simp [pending, Uart.transmit]

theorem pending_iterate (uart : Uart) (steps : ℕ) :
    pending (Uart.transmit^[steps] uart) = pending uart - steps := by
  induction steps generalizing uart with
  | zero => rfl
  | succ steps induction =>
      rw [Function.iterate_succ_apply, induction, pending_transmit]
      omega

/-- A transmitter that does not rest sends the byte that waits. -/
theorem waitEmpty_returns (busy : ∀ time, 1 ≤ (world time).1) (enough : 2 ≤ rounds) :
    Triple (Printing world start base handed) (waitEmpty rounds)
      (fun _ bus => Printing world start base handed bus ∧ bus.uart.waiting = []) stopped := by
  have soon (rounds : ℕ) (some : 1 ≤ rounds) :
      Triple (fun bus => Printing world start base handed bus ∧ pending bus.uart ≤ rounds + 1)
        (waitEmpty rounds)
        (fun _ bus => Printing world start base handed bus ∧ bus.uart.waiting = []) stopped := by
    induction rounds with
    | zero => exact absurd some (by decide)
    | succ rounds induction =>
        rintro bus ⟨printing, near⟩
        rw [waitEmpty_succ]
        split_ifs with empty
        · exact ⟨printing.settle, empty⟩
        · have nearer := pending_iterate bus.uart (bus.world bus.time).1
          have step := busy bus.time
          rw [← printing.inWorld] at step
          have byte : 2 ≤ pending (settle bus).uart := by
            have := List.length_pos_iff.mpr empty
            unfold pending
            omega
          change pending (settle bus).uart = _ at nearer
          exact induction (by omega) (settle bus) ⟨printing.settle, by omega⟩
  intro bus printing
  refine soon rounds (by omega) bus ⟨printing, ?_⟩
  have few := printing.few
  have one : bus.uart.shifting.toList.length ≤ 1 := by cases bus.uart.shifting <;> simp
  unfold pending
  omega

/-- What holds of the loop when a byte is written. -/
def Waits (world : ℕ → ℕ × BitVec 8) (start : Uart) (base total : List (BitVec 8)) (rounds : ℕ)
    (stopped : SerialBus → Prop) : Prop :=
  ∀ handed, handed <+: total → Triple (Printing world start base handed) (waitEmpty rounds)
    (fun _ bus => Printing world start base handed bus ∧ bus.uart.waiting = []) stopped

theorem serialWriteStr_triple (waits : Waits world start base total rounds stopped)
    (fits : handed ++ text <+: total) :
    Triple (Printing world start base handed) (serialWriteStr rounds text)
      (fun _ => Printing world start base (handed ++ text)) stopped := by
  induction text generalizing handed with
  | nil =>
      rw [List.append_nil]
      exact fun bus printing => printing
  | cons c text induction =>
      rw [List.append_cons] at fits ⊢
      have first : handed <+: total := by
        rw [List.append_assoc] at fits
        exact (List.prefix_append _ _).trans fits
      refine bind_triple (bind_triple (waits handed first) fun _ => outb_printing c) fun _ => ?_
      exact induction fits

theorem serialPrint_triple (waits : Waits world start base total rounds stopped)
    (texts : List (List (BitVec 8))) (fits : handed ++ texts.flatten <+: total) :
    Triple (Printing world start base handed) (serialPrint rounds texts)
      (fun _ => Printing world start base (handed ++ texts.flatten)) stopped := by
  induction texts generalizing handed with
  | nil =>
      rw [List.flatten_nil, List.append_nil]
      exact fun bus printing => printing
  | cons text texts induction =>
      rw [List.flatten_cons, ← List.append_assoc] at fits ⊢
      refine bind_triple (serialWriteStr_triple waits ((List.prefix_append _ _).trans fits))
        fun _ => ?_
      exact induction fits

/-- Setting up and printing, when each loop may stop where the whole may. -/
theorem print_triple {rounds : ℕ} (texts : List (List (BitVec 8)))
    (waits : ∀ base, base <+: start.stream → Waits world start base texts.flatten rounds stopped) :
    Triple (SettingUp world start start.config false) (print rounds texts)
      (fun _ bus => ∃ base, base <+: start.stream ∧
        Printing world start base texts.flatten bus) stopped := by
  refine bind_triple serialInit_triple fun _ bus settingUp => ?_
  have prints := @serialPrint_triple _ _ _ _ [] _ _ (waits _ settingUp.stream) texts
    (List.prefix_refl _)
  exact prints.weaken (fun _ printing => printing)
    (fun _ _ printing => ⟨_, settingUp.stream, printing⟩) (fun _ stops => stops) bus
    settingUp.printing

end Console

/-- What has become of some texts. -/
structure Delivered (start : Uart) (texts : List (List (BitVec 8))) (outcome : Except Unit Unit)
    (uart : Uart) : Prop where
  config : uart.config = Console.configured start.config
  lost : uart.lost = start.lost
  /-- After some of what the port had before, the bytes handed over leave in order and in one
  format. -/
  stream : ∃ base handed, base <+: start.stream ∧ uart.stream = base ++ handed ∧
    handed <+: texts.flatten ∧ (outcome = .ok () → handed = texts.flatten) ∧
    ∀ frame ∈ uart.sent.drop base.length, frame.divisor = 3 ∧ frame.format = 3

/-- From any state of the port, for any speed of the transmitter and wherever the driver stops, the
port is set up and the bytes printed leave in order, none lost or repeated; and when the transmitter
never rests printing returns. -/
theorem print_delivers (start : Uart) (world : ℕ → ℕ × BitVec 8) (rounds : ℕ)
    (texts : List (List (BitVec 8))) :
    Delivered start texts (Console.print rounds texts ⟨start, world, 0⟩).1
        (Console.print rounds texts ⟨start, world, 0⟩).2.uart ∧
      ((∀ time, 1 ≤ (world time).1) → 2 ≤ rounds →
        (Console.print rounds texts ⟨start, world, 0⟩).1 = .ok ()) := by
  have settingUp : Console.SettingUp world start start.config false ⟨start, world, 0⟩ :=
    ⟨rfl, rfl, rfl, List.prefix_refl _, fun cleared => nomatch cleared⟩
  constructor
  · let stopped (bus : SerialBus) : Prop := ∃ base handed, base <+: start.stream ∧
      handed <+: texts.flatten ∧ Console.Printing world start base handed bus
    have triple : Console.Triple (Console.SettingUp world start start.config false)
        (Console.print rounds texts) _ stopped := Console.print_triple texts
      fun base early handed fits => Console.waitEmpty_triple
        (fun _ printing => ⟨base, handed, early, fits, printing⟩) rounds
    have outcome := triple _ settingUp
    split at outcome
    · rename_i ran
      obtain ⟨base, early, printing⟩ := outcome
      rw [ran]
      exact ⟨printing.config, printing.lost, base, texts.flatten, early, printing.stream,
        List.prefix_refl _, fun _ => rfl, printing.formed⟩
    · rename_i ran
      obtain ⟨base, handed, early, fits, printing⟩ := outcome
      rw [ran]
      exact ⟨printing.config, printing.lost, base, handed, early, printing.stream, fits,
        (fun returned => nomatch returned), printing.formed⟩
  · intro busy enough
    have triple : Console.Triple (Console.SettingUp world start start.config false)
        (Console.print rounds texts) _ fun _ => False := Console.print_triple texts
      fun base _ handed _ => Console.waitEmpty_returns busy enough
    obtain ⟨value, bus, ran, -⟩ := triple.returns settingUp
    rw [ran]

end Blubos
