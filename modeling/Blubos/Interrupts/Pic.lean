import Blubos.Machine
import Mathlib.Data.Finset.Basic
import Mathlib.Data.Fintype.Basic

/-!
# The interrupt controllers

Two chained controllers of eight lines each, as the ports show them.  A controller latches requests,
offers the most urgent one that is neither masked nor kept back by one in service, and takes the
most urgent one out of service at the end of an interrupt.  `pic_remap` brings the pair from any
state to the one that the kernel relies on.
-/

namespace Blubos

/-- The most urgent of some lines, the one with the lowest number. -/
def mostUrgent {n : ℕ} (lines : Finset (Fin n)) : Option (Fin n) :=
  (List.finRange n).find? fun line => line ∈ lines

section Lines

variable {n : ℕ} {lines : Finset (Fin n)} {line : Fin n}

theorem mem_of_mostUrgent (urgent : mostUrgent lines = some line) : line ∈ lines := by
  rw [mostUrgent] at urgent
  simpa using List.find?_some urgent

theorem mostUrgent_eq_none : mostUrgent lines = none ↔ lines = ∅ := by
  rw [mostUrgent, List.find?_eq_none, Finset.eq_empty_iff_forall_notMem]
  simp [List.mem_finRange]

@[simp] theorem mostUrgent_empty : mostUrgent (∅ : Finset (Fin n)) = none :=
  mostUrgent_eq_none.mpr rfl

@[simp] theorem mostUrgent_singleton (line : Fin n) : mostUrgent {line} = some line := by
  cases urgent : mostUrgent {line} with
  | none => exact absurd (mostUrgent_eq_none.mp urgent) (Finset.singleton_ne_empty line)
  | some found => rw [Finset.mem_singleton.mp (mem_of_mostUrgent urgent)]

end Lines

/-- An initialisation word that the data port expects. -/
inductive Icw where
  | icw2 | icw3 | icw4
deriving DecidableEq

/-- A controller. -/
structure Pic where
  /-- What the next bytes on the data port are; without any they are masks. -/
  expecting : List Icw
  offset : BitVec 8
  wiring : BitVec 8
  mode : BitVec 8
  mask : BitVec 8
  requests : Finset (Fin 8)
  inService : Finset (Fin 8)

namespace Pic

/-- Take the most urgent line out of service. -/
def endOfInterrupt (pic : Pic) : Pic :=
  match mostUrgent pic.inService with
  | none => pic
  | some line => { pic with inService := pic.inService.erase line }

/-- A byte on the command port: the start of an initialisation or the end of an interrupt. -/
def command (pic : Pic) (value : BitVec 8) : Pic :=
  if value.getLsbD 4 then
    { pic with
      expecting := .icw2 :: ((if value.getLsbD 1 then [] else [.icw3]) ++
        if value.getLsbD 0 then [.icw4] else [])
      mode := 0
      mask := 0
      requests := ∅
      inService := ∅ }
  else if value = 0x20 then pic.endOfInterrupt
  else pic

/-- A byte on the data port. -/
def data (pic : Pic) (value : BitVec 8) : Pic :=
  match pic.expecting with
  | [] => { pic with mask := value }
  | .icw2 :: rest => { pic with expecting := rest, offset := value &&& 0xF8 }
  | .icw3 :: rest => { pic with expecting := rest, wiring := value }
  | .icw4 :: rest => { pic with expecting := rest, mode := value }

/-- A device asks for service. -/
def raise (pic : Pic) (line : Fin 8) : Pic := { pic with requests := insert line pic.requests }

/-- The requests that may interrupt what is in service. -/
def ready (pic : Pic) : Finset (Fin 8) :=
  pic.requests.filter fun line =>
    pic.mask.getLsbD line.val = false ∧ ∀ served ∈ pic.inService, line < served

def acknowledge (pic : Pic) (line : Fin 8) : Pic :=
  { pic with
    requests := pic.requests.erase line
    inService := insert line pic.inService }

def vector (pic : Pic) (line : Fin 8) : BitVec 8 := pic.offset + .ofNat 8 line.val

def Idle (pic : Pic) : Prop := pic.inService = ∅

theorem Idle.endOfInterrupt {pic : Pic} (idle : pic.Idle) : pic.endOfInterrupt = pic := by
  rw [Pic.endOfInterrupt, idle, mostUrgent_empty]

theorem endOfInterrupt_of_single {pic : Pic} {line : Fin 8} (single : pic.inService = {line}) :
    pic.endOfInterrupt = { pic with inService := ∅ } := by
  rw [Pic.endOfInterrupt, single, mostUrgent_singleton]
  simp

/-- With nothing in service every request is ready, unless it is masked. -/
theorem Idle.mem_ready {pic : Pic} (idle : pic.Idle) {line : Fin 8} :
    line ∈ pic.ready ↔ line ∈ pic.requests ∧ pic.mask.getLsbD line.val = false := by
  rw [ready, Finset.mem_filter, idle]
  simp

theorem requests_of_mem_ready {pic : Pic} {line : Fin 8} (ready : line ∈ pic.ready) :
    line ∈ pic.requests := (Finset.mem_filter.mp ready).1

/-- What initialisation sets. -/
def settings (pic : Pic) : List Icw × BitVec 8 × BitVec 8 × BitVec 8 :=
  (pic.expecting, pic.offset, pic.wiring, pic.mask)

theorem settings_endOfInterrupt (pic : Pic) : pic.endOfInterrupt.settings = pic.settings := by
  unfold endOfInterrupt
  cases mostUrgent pic.inService <;> rfl

theorem requests_endOfInterrupt (pic : Pic) : pic.endOfInterrupt.requests = pic.requests := by
  unfold endOfInterrupt
  cases mostUrgent pic.inService <;> rfl

/-- The controller without its requests. -/
def forget (pic : Pic) : Pic := { pic with requests := ∅ }

/-- What the ports do to the rest does not depend on the requests. -/
theorem forget_command (pic : Pic) (value : BitVec 8) :
    (pic.command value).forget = pic.forget.command value := by
  unfold command
  by_cases starts : value.getLsbD 4 = true
  · rw [if_pos starts, if_pos starts]
    rfl
  · rw [if_neg starts, if_neg starts]
    split_ifs
    · unfold endOfInterrupt
      change _ = (match mostUrgent pic.inService with
        | none => pic.forget
        | some line => { pic.forget with inService := pic.inService.erase line })
      cases mostUrgent pic.inService <;> rfl
    · rfl

theorem forget_data (pic : Pic) (value : BitVec 8) :
    (pic.data value).forget = pic.forget.data value := by
  rcases pic with ⟨_ | ⟨_ | _ | _, rest⟩, offset, wiring, mode, mask, requests, inService⟩ <;> rfl

end Pic

/-! ## The pair -/

/-- A line of one of the controllers. -/
inductive IrqLine where
  | master (line : Fin 8)
  | slave (line : Fin 8)
deriving DecidableEq

/-- The two controllers; the second one asks the first for service on its line 2. -/
structure Pics where
  master : Pic
  slave : Pic

namespace Pics

/-- `outb`, as far as the controllers see it. -/
def outb (pics : Pics) (port : BitVec 16) (value : BitVec 8) : Pics :=
  if port = 0x20 then { pics with master := pics.master.command value }
  else if port = 0x21 then { pics with master := pics.master.data value }
  else if port = 0xA0 then { pics with slave := pics.slave.command value }
  else if port = 0xA1 then { pics with slave := pics.slave.data value }
  else pics

/-- The line through which the second controller asks. -/
def cascade : Fin 8 := 2

abbrev timerLine : Fin 8 := 0

abbrev keyboardLine : Fin 8 := 1

/-- The line of the mouse, on the second controller. -/
abbrev mouseLine : Fin 8 := 4

/-- The first controller, with the request of the second one. -/
def chained (pics : Pics) : Pic :=
  if (mostUrgent pics.slave.ready).isSome then pics.master.raise cascade
  else { pics.master with requests := pics.master.requests.erase cascade }

def raise (pics : Pics) : IrqLine → Pics
  | .master line => { pics with master := pics.master.raise line }
  | .slave line => { pics with slave := pics.slave.raise line }

/-- The processor accepts an interrupt: its line, its vector and what the controllers become. -/
def acknowledge (pics : Pics) : Option (IrqLine × BitVec 8 × Pics) :=
  match mostUrgent pics.chained.ready with
  | none => none
  | some line =>
      if line = cascade then
        match mostUrgent pics.slave.ready with
        | none => none
        | some slaveLine =>
            some (.slave slaveLine, pics.slave.vector slaveLine,
              ⟨pics.chained.acknowledge cascade, pics.slave.acknowledge slaveLine⟩)
      else some (.master line, pics.master.vector line, ⟨pics.master.acknowledge line, pics.slave⟩)

def requested (pics : Pics) : IrqLine → Prop
  | .master line => line ∈ pics.master.requests
  | .slave line => line ∈ pics.slave.requests

instance (pics : Pics) (line : IrqLine) : Decidable (pics.requested line) :=
  match line with
  | .master line => inferInstanceAs (Decidable (line ∈ pics.master.requests))
  | .slave line => inferInstanceAs (Decidable (line ∈ pics.slave.requests))

def Idle (pics : Pics) : Prop := pics.master.Idle ∧ pics.slave.Idle

def forget (pics : Pics) : Pics := ⟨pics.master.forget, pics.slave.forget⟩

theorem forget_outb (pics : Pics) (port : BitVec 16) (value : BitVec 8) :
    (pics.outb port value).forget = pics.forget.outb port value := by
  unfold outb
  split_ifs
  · exact congrArg (Pics.mk · pics.slave.forget) (pics.master.forget_command value)
  · exact congrArg (Pics.mk · pics.slave.forget) (pics.master.forget_data value)
  · exact congrArg (Pics.mk pics.master.forget) (pics.slave.forget_command value)
  · exact congrArg (Pics.mk pics.master.forget) (pics.slave.forget_data value)
  · rfl

theorem forget_raise (pics : Pics) (line : IrqLine) : (pics.raise line).forget = pics.forget := by
  cases line <;> rfl

theorem requested_raise {pics : Pics} {line other : IrqLine} :
    (pics.raise line).requested other ↔ other = line ∨ pics.requested other := by
  rcases line with line | line <;> rcases other with other | other <;>
    simp [raise, requested, Pic.raise]

/-- The chain is a request of the first controller and nothing else. -/
theorem exists_chained (pics : Pics) : ∃ requests, requests.erase cascade =
    pics.master.requests.erase cascade ∧
    pics.chained = { pics.master with requests := requests } := by
  unfold chained
  split_ifs
  · exact ⟨_, Finset.erase_insert_eq_erase _ _, rfl⟩
  · exact ⟨_, Finset.erase_idem, rfl⟩

/-- The two ways in which an interrupt is accepted when none is in service. -/
theorem acknowledge_cases {pics pics' : Pics} {line : IrqLine} {vector : BitVec 8}
    (idle : pics.Idle) (accepted : pics.acknowledge = some (line, vector, pics')) :
    (∃ k ≠ cascade, line = .master k ∧ vector = pics.master.vector k ∧ k ∈ pics.master.requests ∧
      pics.master.mask.getLsbD k.val = false ∧ pics' = ⟨pics.master.acknowledge k, pics.slave⟩) ∨
    ∃ k, line = .slave k ∧ vector = pics.slave.vector k ∧ k ∈ pics.slave.requests ∧
      pics' = ⟨{ pics.master with
        requests := pics.master.requests.erase cascade
        inService := {cascade} }, pics.slave.acknowledge k⟩ := by
  obtain ⟨requests, same, chained⟩ := pics.exists_chained
  have none : pics.master.inService = ∅ := idle.1
  unfold acknowledge at accepted
  split at accepted
  · cases accepted
  · rename_i k urgent
    have ready := mem_of_mostUrgent urgent
    rw [chained] at ready accepted
    by_cases chain : k = cascade
    · rw [if_pos chain] at accepted
      cases slaveUrgent : mostUrgent pics.slave.ready with
      | none =>
          rw [slaveUrgent] at accepted
          cases accepted
      | some slaveLine =>
          rw [slaveUrgent] at accepted
          obtain ⟨rfl, rest⟩ := Prod.mk.inj (Option.some.inj accepted)
          obtain ⟨rfl, rfl⟩ := Prod.mk.inj rest
          have requested := Pic.requests_of_mem_ready (mem_of_mostUrgent slaveUrgent)
          refine .inr ⟨slaveLine, rfl, rfl, requested, ?_⟩
          simp only [Pic.acknowledge, same, none, insert_empty_eq]
    · rw [if_neg chain] at accepted
      obtain ⟨rfl, rest⟩ := Prod.mk.inj (Option.some.inj accepted)
      obtain ⟨rfl, rfl⟩ := Prod.mk.inj rest
      obtain ⟨requested, unmasked, -⟩ := Finset.mem_filter.mp ready
      have kept : k ∈ pics.master.requests.erase cascade :=
        same ▸ Finset.mem_erase.mpr ⟨chain, requested⟩
      exact .inl ⟨k, chain, rfl, rfl, Finset.mem_of_mem_erase kept, unmasked, rfl⟩

/-- A line that no mask holds back. -/
def Unmasked (pics : Pics) : IrqLine → Prop
  | .master line => pics.master.mask.getLsbD line.val = false
  | .slave line => pics.slave.mask.getLsbD line.val = false ∧
      pics.master.mask.getLsbD cascade.val = false

/-- A request that is not masked gets an interrupt accepted when none is in service. -/
theorem exists_acknowledge {pics : Pics} {line : IrqLine} (idle : pics.Idle)
    (requested : pics.requested line) (apart : line ≠ .master cascade)
    (unmasked : pics.Unmasked line) : ∃ accepted, pics.acknowledge = some accepted := by
  have slaveAsks (urgent : (mostUrgent pics.slave.ready).isSome) :
      pics.chained = pics.master.raise cascade := if_pos urgent
  have ready : pics.chained.ready ≠ ∅ := by
    cases line with
    | master k =>
        obtain ⟨requests, same, chained⟩ := pics.exists_chained
        have kept : k ∈ requests.erase cascade :=
          same ▸ Finset.mem_erase.mpr ⟨fun chain => apart (by rw [chain]), requested⟩
        have idle' : ({ pics.master with requests := requests } : Pic).Idle := idle.1
        rw [chained]
        exact Finset.ne_empty_of_mem (idle'.mem_ready.mpr
          ⟨Finset.mem_of_mem_erase kept, unmasked⟩)
    | slave k =>
        have asks : (mostUrgent pics.slave.ready).isSome := by
          have member : k ∈ pics.slave.ready := idle.2.mem_ready.mpr ⟨requested, unmasked.1⟩
          rw [Option.isSome_iff_ne_none]
          exact fun none => Finset.ne_empty_of_mem member (mostUrgent_eq_none.mp none)
        have idle' : (pics.master.raise cascade).Idle := idle.1
        rw [slaveAsks asks]
        exact Finset.ne_empty_of_mem (idle'.mem_ready.mpr
          ⟨Finset.mem_insert_self _ _, unmasked.2⟩)
  unfold acknowledge
  cases urgent : mostUrgent pics.chained.ready with
  | none => exact absurd (mostUrgent_eq_none.mp urgent) ready
  | some k =>
      dsimp only
      split_ifs with chain
      · cases slaveUrgent : mostUrgent pics.slave.ready with
        | some slaveLine => exact ⟨_, rfl⟩
        | none =>
            have member := Pic.requests_of_mem_ready (mem_of_mostUrgent urgent)
            rw [chained, slaveUrgent, chain] at member
            exact absurd rfl (Finset.mem_erase.mp member).1
      · exact ⟨_, rfl⟩

end Pics

/-! ## Initialisation -/

/-- The bytes that `pic_remap` writes, with their ports. -/
def picRemapBytes : List (BitVec 16 × BitVec 8) :=
  [(0x20, 0x11), (0xA0, 0x11), (0x21, 0x20), (0xA1, 0x28), (0x21, 4), (0xA1, 2), (0x21, 1),
    (0xA1, 1), (0x21, 0xF8), (0xA1, 0x00)]

/-- `pic_remap`. -/
def picRemap (pics : Pics) : Pics :=
  picRemapBytes.foldl (fun pics byte => pics.outb byte.1 byte.2) pics

/-- What `pic_remap` sets up and nothing changes later. -/
structure Remapped (pics : Pics) : Prop where
  complete : pics.master.expecting = [] ∧ pics.slave.expecting = []
  /-- The lines have the vectors from 32 and from 40. -/
  offsets : pics.master.offset = 0x20 ∧ pics.slave.offset = 0x28
  wirings : pics.master.wiring = 4 ∧ pics.slave.wiring = 2
  /-- Of the first controller, only timer, keyboard and chain are served. -/
  masks : pics.master.mask = 0xF8 ∧ pics.slave.mask = 0

theorem Remapped.of_settings {pics pics' : Pics} (remapped : Remapped pics)
    (master : pics'.master.settings = pics.master.settings)
    (slave : pics'.slave.settings = pics.slave.settings) : Remapped pics' := by
  simp only [Pic.settings, Prod.mk.injEq] at master slave
  obtain ⟨complete, offsets, wirings, masks⟩ := remapped
  obtain ⟨expecting, offset, wiring, mask⟩ := master
  obtain ⟨expecting', offset', wiring', mask'⟩ := slave
  exact ⟨⟨expecting.trans complete.1, expecting'.trans complete.2⟩,
    ⟨offset.trans offsets.1, offset'.trans offsets.2⟩,
    ⟨wiring.trans wirings.1, wiring'.trans wirings.2⟩, ⟨mask.trans masks.1, mask'.trans masks.2⟩⟩

theorem picRemap_spec (pics : Pics) :
    Remapped (picRemap pics) ∧ (picRemap pics).Idle ∧ ∀ line, ¬(picRemap pics).requested line := by
  refine ⟨⟨⟨rfl, rfl⟩, ⟨rfl, rfl⟩, ⟨rfl, rfl⟩, ⟨rfl, rfl⟩⟩, ⟨rfl, rfl⟩, ?_⟩
  rintro (line | line)
  · exact Finset.notMem_empty line
  · exact Finset.notMem_empty line

end Blubos
