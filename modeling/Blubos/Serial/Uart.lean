import Blubos.Foundation.Triple
import Mathlib.Logic.Function.Iterate
import Mathlib.Tactic.IntervalCases
import Mathlib.Tactic.SplitIfs

/-!
# The serial port

The transmitting half of a 16550: its registers, the bytes that wait to be sent and the one that is
being sent.  The divisor hides behind two other registers while the divisor latch access bit is set.
A byte leaves with the divisor and the format that are set when its sending ends.
-/

namespace Blubos

/-- A byte on the line, as the receiver sees it. -/
structure SerialFrame where
  byte : BitVec 8
  divisor : BitVec 16
  /-- Word length, stop bits and parity. -/
  format : BitVec 7
deriving DecidableEq

/-- The registers that are written. -/
structure UartConfig where
  divisor : BitVec 16
  interruptEnable : BitVec 8
  lineControl : BitVec 8
  modemControl : BitVec 8
  fifoControl : BitVec 8
deriving DecidableEq

namespace UartConfig

def latch (config : UartConfig) : Bool := config.lineControl.getLsbD 7

def capacity (config : UartConfig) : ℕ := if config.fifoControl.getLsbD 0 then 16 else 1

/-- A write to the register at an offset, apart from a byte to send. -/
def write (config : UartConfig) (offset : ℕ) (value : BitVec 8) : UartConfig :=
  match offset with
  | 0 => if config.latch then { config with divisor := config.divisor.extractLsb' 8 8 ++ value }
      else config
  | 1 => if config.latch then { config with divisor := value ++ config.divisor.extractLsb' 0 8 }
      else { config with interruptEnable := value }
  | 2 => { config with fifoControl := value }
  | 3 => { config with lineControl := value }
  | 4 => { config with modemControl := value }
  | _ => config

end UartConfig

/-- The serial port. -/
structure Uart where
  config : UartConfig
  /-- The bytes that wait. -/
  waiting : List (BitVec 8)
  shifting : Option (BitVec 8)
  sent : List SerialFrame
  /-- How many bytes were written when there was no room. -/
  lost : ℕ

namespace Uart

def push (uart : Uart) (byte : BitVec 8) : Uart :=
  if uart.waiting.length < uart.config.capacity then { uart with waiting := uart.waiting ++ [byte] }
  else { uart with lost := uart.lost + 1 }

/-- A write to the register at an offset.  Bit 2 of the FIFO control drops the bytes that wait, and
so does switching the FIFO. -/
def write (uart : Uart) (offset : ℕ) (value : BitVec 8) : Uart :=
  let config := uart.config.write offset value
  if offset = 0 ∧ uart.config.latch = false then uart.push value
  else if offset = 2 ∧ (value.getLsbD 2 ∨
      value.getLsbD 0 ≠ uart.config.fifoControl.getLsbD 0) then
    { uart with config, waiting := [] }
  else { uart with config }

/-- The line status, with the bits that are not about sending. -/
def lineStatus (uart : Uart) (others : BitVec 8) : BitVec 8 :=
  (others &&& 0x9F) ||| (if uart.waiting = [] then 0x20 else 0) |||
    if uart.waiting = [] ∧ uart.shifting = none then 0x40 else 0

/-- The transmitter ends the sending of a byte, or begins that of the next. -/
def transmit (uart : Uart) : Uart :=
  match uart.shifting, uart.waiting with
  | some byte, _ => { uart with
      shifting := none
      sent := uart.sent ++ [⟨byte, uart.config.divisor, uart.config.lineControl.setWidth 7⟩] }
  | none, byte :: waiting => { uart with shifting := some byte, waiting }
  | none, [] => uart

/-- All bytes, in the order in which they are sent. -/
def stream (uart : Uart) : List (BitVec 8) :=
  uart.sent.map SerialFrame.byte ++ uart.shifting.toList ++ uart.waiting

/-- What the transmitter does to the bytes of a port. -/
structure Transmits (before after : Uart) : Prop where
  config : after.config = before.config
  lost : after.lost = before.lost
  stream : after.stream = before.stream
  waiting : ∃ gone, before.waiting = gone ++ after.waiting
  sent : ∃ frames, after.sent = before.sent ++ frames ∧ ∀ frame ∈ frames,
    frame.divisor = before.config.divisor ∧ frame.format = before.config.lineControl.setWidth 7

theorem Transmits.refl (uart : Uart) : Transmits uart uart :=
  ⟨rfl, rfl, rfl, ⟨[], rfl⟩, [], (List.append_nil _).symm, by simp⟩

theorem Transmits.trans {first second third : Uart} (early : Transmits first second)
    (late : Transmits second third) : Transmits first third where
  config := late.config.trans early.config
  lost := late.lost.trans early.lost
  stream := late.stream.trans early.stream
  waiting := by
    obtain ⟨gone, waited⟩ := early.waiting
    obtain ⟨more, waits⟩ := late.waiting
    exact ⟨gone ++ more, by rw [waited, waits, List.append_assoc]⟩
  sent := by
    obtain ⟨frames, sent, formed⟩ := early.sent
    obtain ⟨more, later, formed'⟩ := late.sent
    refine ⟨frames ++ more, by rw [later, sent, List.append_assoc], fun frame member => ?_⟩
    rcases List.mem_append.mp member with old | new
    · exact formed frame old
    · rw [← early.config]
      exact formed' frame new

theorem transmits_transmit (uart : Uart) : Transmits uart uart.transmit := by
  obtain ⟨config, waiting, shifting, sent, lost⟩ := uart
  match shifting, waiting with
  | some byte, waiting =>
      exact ⟨rfl, rfl, by simp [transmit, stream], ⟨[], rfl⟩, _, rfl, by simp⟩
  | none, byte :: waiting =>
      exact ⟨rfl, rfl, by simp [transmit, stream], ⟨[byte], rfl⟩, [], (List.append_nil _).symm,
        by simp⟩
  | none, [] => exact .refl _

theorem transmits_iterate (uart : Uart) (steps : ℕ) : Transmits uart (transmit^[steps] uart) := by
  induction steps generalizing uart with
  | zero => exact .refl uart
  | succ steps induction => exact (transmits_transmit uart).trans (induction _)

theorem lineStatus_and (uart : Uart) (others : BitVec 8) :
    uart.lineStatus others &&& 0x20 = if uart.waiting = [] then 0x20 else 0 := by
  refine BitVec.eq_of_getLsbD_eq fun bit below => ?_
  rw [lineStatus]
  split_ifs <;> interval_cases bit <;> simp_all

end Uart

end Blubos
