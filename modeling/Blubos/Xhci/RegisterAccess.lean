import Blubos.Foundation.WriteToClear
import Blubos.Machine
import Blubos.Xhci.Registers

/-!
# Access to the registers

Programs of the driver over the two register blocks.  The controller changes its registers between
any two accesses, as the world of a bus says.  A modification reads a block, changes a copy and
writes all of it back; every modification is recorded with what it read, what the block held when it
was written and what was written.
-/

namespace Blubos

structure RegisterFile where
  op : RegisterBlock
  runtime : RegisterBlock

namespace RegisterFile

def get (file : RegisterFile) : RegisterBlockName → RegisterBlock
  | .op => file.op
  | .runtime => file.runtime

def set (file : RegisterFile) (name : RegisterBlockName) (block : RegisterBlock) : RegisterFile :=
  match name with
  | .op => { file with op := block }
  | .runtime => { file with runtime := block }

end RegisterFile

/-- A modification of a block. -/
structure RegisterModify where
  name : RegisterBlockName
  seen : RegisterBlock
  /-- What the block held when it was written. -/
  present : RegisterBlock
  written : RegisterBlock

namespace RegisterModify

def after (modify : RegisterModify) : RegisterBlock :=
  .ofFn fun dword => WriteToClear.write ((writeToClearMask modify.name).dword dword)
    (modify.present.dword dword) (modify.written.dword dword)

def Clears (modify : RegisterModify) (dword : Fin 16) (bit : ℕ) : Prop :=
  (WriteToClear.cleared ((writeToClearMask modify.name).dword dword) (modify.present.dword dword)
    (modify.written.dword dword)).getLsbD bit = true

/-- A write-one-to-clear bit was set when the block was read and still when it was written. -/
def Finds (modify : RegisterModify) (dword : Fin 16) (bit : ℕ) : Prop :=
  (((writeToClearMask modify.name).dword dword) &&& (modify.seen.dword dword) &&&
    (modify.present.dword dword)).getLsbD bit = true

instance (modify : RegisterModify) (dword : Fin 16) (bit : ℕ) :
    Decidable (modify.Clears dword bit) :=
  inferInstanceAs (Decidable (_ = _))

instance (modify : RegisterModify) (dword : Fin 16) (bit : ℕ) :
    Decidable (modify.Finds dword bit) :=
  inferInstanceAs (Decidable (_ = _))

end RegisterModify

/-! ## Programs -/

/-- The registers, what the controller does to them by itself before each access, and the
modifications of the driver so far. -/
structure RegisterBus where
  file : RegisterFile
  /-- What happens to the registers before an access. -/
  world : ℕ → RegisterFile → RegisterFile
  time : ℕ
  log : List RegisterModify

/-- Why a program has not returned. -/
inductive Halt where
  | panic (fault : Fault)
  | waiting
deriving DecidableEq

def Driver (α : Type) : Type := RegisterBus → Except Halt α × RegisterBus

namespace Driver

variable {α β : Type}

instance : Monad Driver where
  pure value bus := (.ok value, bus)
  bind first next bus :=
    match first bus with
    | (.ok value, bus) => next value bus
    | (.error halt, bus) => (.error halt, bus)

/-- The registers as the next access finds them. -/
def settle (bus : RegisterBus) : RegisterBus :=
  { bus with file := bus.world bus.time bus.file, time := bus.time + 1 }

/-- `PciValue::read` of a block. -/
def read (name : RegisterBlockName) : Driver RegisterBlock := fun bus =>
  (.ok ((settle bus).file.get name), settle bus)

/-- `PciValue::modify` of a block; a closure that panics leaves the block unwritten. -/
def modify (name : RegisterBlockName) (closure : RegisterBlock → Except Fault RegisterBlock) :
    Driver Unit := fun bus =>
  let before := settle bus
  match closure (before.file.get name) with
  | .error fault => (.error (.panic fault), before)
  | .ok written =>
      let now := settle before
      let modification : RegisterModify := ⟨name, before.file.get name, now.file.get name, written⟩
      (.ok (), { now with
        file := now.file.set name modification.after
        log := now.log ++ [modification] })

def readOp : Driver XhciOpRegisters := do
  return .ofDwords (← read .op)

def modifyOp (closure : XhciOpRegisters → Except Fault XhciOpRegisters) : Driver Unit :=
  modify .op fun block => do
    let op ← closure (.ofDwords block)
    .ok op.toDwords

def modifyRuntime (closure : XhciRuntimeRegisters → Except Fault XhciRuntimeRegisters) :
    Driver Unit :=
  modify .runtime fun block => do
    let runtime ← closure (.ofDwords block)
    .ok runtime.toDwords

/-- What memory the driver touches outside the registers, which may panic. -/
def panicking (outcome : Except Fault Unit) : Driver Unit := fun bus =>
  match outcome with
  | .ok () => (.ok (), bus)
  | .error fault => (.error (.panic fault), bus)

/-- A loop that polls until a condition no longer holds; after the given number of rounds it still
waits. -/
def poll (busy : Driver Bool) : ℕ → Driver Unit
  | 0 => fun bus => (.error .waiting, bus)
  | rounds + 1 => do
      if ← busy then poll busy rounds

/-- A program returns, whatever the registers hold and the controller does meanwhile. -/
def Returns (program : Driver α) : Prop := ∀ bus, ∃ value bus', program bus = (.ok value, bus')

theorem Returns.bind {first : Driver α} {next : α → Driver β} (before : Returns first)
    (after : ∀ value, Returns (next value)) : Returns (first >>= next) := by
  intro bus
  obtain ⟨value, middle, returned⟩ := before bus
  change ∃ _ _, (match first bus with
    | (.ok value, bus) => next value bus
    | (.error halt, bus) => (.error halt, bus)) = _
  rw [returned]
  exact after value middle

theorem Returns.panicking {outcome : Except Fault Unit} (returned : outcome = .ok ()) :
    Returns (panicking outcome) := by
  subst returned
  exact fun bus => ⟨(), bus, rfl⟩

/-- A change of the operational registers that does not panic returns. -/
theorem Returns.modifyOp {closure : XhciOpRegisters → Except Fault XhciOpRegisters}
    (changes : ∀ op, ∃ op', closure op = .ok op') : Returns (modifyOp closure) := by
  intro bus
  obtain ⟨op', changed⟩ := changes (.ofDwords ((settle bus).file.get .op))
  have computed : (do
      let op ← closure (.ofDwords ((settle bus).file.get .op))
      .ok op.toDwords) = Except.ok op'.toDwords := by
    rw [changed, ok_bind]
  rw [Driver.modifyOp, modify]
  dsimp only
  rw [computed]
  exact ⟨(), _, rfl⟩

/-- Every modification that a program makes satisfies a condition. -/
def Records (condition : RegisterModify → Prop) (program : Driver α) : Prop :=
  ∀ bus, ∃ new, (program bus).2.log = bus.log ++ new ∧ ∀ modify ∈ new, condition modify

variable {condition : RegisterModify → Prop}

theorem Records.pure (value : α) : Records condition (Pure.pure value : Driver α) := by
  intro bus
  exact ⟨[], (List.append_nil _).symm, by simp⟩

theorem Records.bind {first : Driver α} {next : α → Driver β} (before : Records condition first)
    (after : ∀ value, Records condition (next value)) : Records condition (first >>= next) := by
  intro bus
  obtain ⟨new, logged, holds⟩ := before bus
  change ∃ new, (match first bus with
    | (.ok value, bus) => next value bus
    | (.error halt, bus) => (.error halt, bus)).2.log = _ ∧ _
  cases outcome : first bus with
  | mk result middle =>
      rw [outcome] at logged
      cases result with
      | error halt => exact ⟨new, logged, holds⟩
      | ok value =>
          obtain ⟨more, logged', holds'⟩ := after value middle
          refine ⟨new ++ more, ?_, ?_⟩
          · dsimp only at logged ⊢
            rw [logged', logged, List.append_assoc]
          · intro modify member
            rcases List.mem_append.mp member with old | late
            · exact holds modify old
            · exact holds' modify late

theorem Records.read (name : RegisterBlockName) : Records condition (read name) := by
  intro bus
  exact ⟨[], (List.append_nil _).symm, by simp⟩

theorem Records.panicking (outcome : Except Fault Unit) :
    Records condition (panicking outcome) := by
  intro bus
  cases outcome with
  | ok value => exact ⟨[], (List.append_nil _).symm, by simp⟩
  | error fault => exact ⟨[], (List.append_nil _).symm, by simp⟩

theorem Records.modify {name : RegisterBlockName}
    {closure : RegisterBlock → Except Fault RegisterBlock}
    (spec : ∀ seen present written, closure seen = .ok written →
      condition ⟨name, seen, present, written⟩) : Records condition (modify name closure) := by
  intro bus
  unfold Driver.modify
  dsimp only
  split
  · exact ⟨[], (List.append_nil _).symm, by simp⟩
  · rename_i written computed
    refine ⟨[_], rfl, ?_⟩
    intro modify member
    obtain rfl := List.mem_singleton.mp member
    exact spec _ _ _ computed

theorem Records.poll {busy : Driver Bool} (quiet : Records condition busy) (rounds : ℕ) :
    Records condition (poll busy rounds) := by
  induction rounds with
  | zero =>
      intro bus
      exact ⟨[], (List.append_nil _).symm, by simp⟩
  | succ rounds induction =>
      apply quiet.bind
      intro waits
      cases waits with
      | true => exact induction
      | false => exact .pure ()

end Driver

end Blubos
