import Blubos.Foundation.Run
import Blubos.Xhci.CommandRing
import Mathlib.Data.List.Infix

/-!
# The command-ring protocol

Runs of the command ring against a controller that executes the blocks it owns and follows the link
at the end of a lap.  The driver's calls, the single slot writes of `submit_trbs` and the
controller's steps come in any order; the ring is flipped only after the controller has followed the
link.  The controller executes the accepted commands in order and none besides.
-/

namespace Blubos

/-- The controller's position on the command ring. -/
structure CommandController where
  index : ℕ
  /-- The cycle state in which slots belong to the controller. -/
  cycle : Bool

/-- The ring, a running `submit_trbs`, the controller and what passed between them. -/
structure CommandRun where
  /-- `XHCI_COMMAND_RING`, with the slots that both sides see. -/
  ring : XhciCommandRing
  /-- The slot that a running `submit_trbs` writes next. -/
  submitting : Option (Fin 64)
  /-- The number of commands of this lap that a finished `submit_trbs` has copied. -/
  submitted : ℕ
  controller : CommandController
  /-- The controller has followed the link of this lap. -/
  followed : Bool
  /-- The commands that `add_trb` accepted, as they were passed. -/
  accepted : List XhciTrb
  executed : List XhciTrb

/-- A step of the driver or of the controller. -/
inductive CommandRunStep where
  /-- `add_trb` of a normal block. -/
  | addTrb (trb : XhciNormalTrb)
  /-- `submit_trbs` is called. -/
  | submitTrbs
  /-- The running `submit_trbs` writes a slot. -/
  | submitSlot (padding : BitVec 24)
  /-- `flip_ring`. -/
  | flipRing (padding : Fin 64 → BitVec 24)
  | controller

namespace CommandRun

/-- Both sides before the first command. -/
def init (physicalBase : BitVec 64) : CommandRun where
  ring := .initRing physicalBase
  submitting := none
  submitted := 0
  controller := ⟨0, (XhciCommandRing.initRing physicalBase).cycleBit⟩
  followed := false
  accepted := []
  executed := []

/-- The controller executes an owned block and advances; an owned link leads back to the first slot
and inverts the cycle state if it says so.  Otherwise the controller stops. -/
def controllerStep (s : CommandRun) : Option CommandRun :=
  if range : s.controller.index < 64 then
    let trb := s.ring.trbs[s.controller.index]
    if trb.cycleBit ≠ s.controller.cycle then none
    else if trb.rawType = XhciTrbType.link.toBits then
      some { s with
        controller := ⟨0, s.controller.cycle ^^ trb.toggleCycle⟩
        followed := true }
    else
      some { s with
        controller := ⟨s.controller.index + 1, s.controller.cycle⟩
        executed := s.executed ++ [.fromRaw trb s.ring.trbTags[s.controller.index]] }
  else none

/-- The effect of a step.  The driver's calls do not overlap, and the ring is flipped only after the
controller has followed the link.  A block with the type of a link is a link to the controller,
however the driver built it, so the normal blocks are those of any other type. -/
def perform (s : CommandRun) : CommandRunStep → Option CommandRun
  | .addTrb trb =>
      if s.submitting = none ∧ trb.rawType ≠ XhciTrbType.link.toBits then
        match s.ring.addTrb (.normal trb) with
        | .ok (some (), ring) => some { s with ring, accepted := s.accepted ++ [.normal trb] }
        | .ok (none, ring) => some { s with ring }
        | .error _ => none
      else none
  | .submitTrbs =>
      if s.submitting = none then some { s with submitting := some XhciCommandRing.firstSlot }
      else none
  | .submitSlot padding =>
      s.submitting.map fun slot =>
        { s with
          ring := s.ring.submitSlot slot padding
          submitting := s.ring.nextSlot slot
          submitted :=
            if s.ring.nextSlot slot = none then s.ring.stagingEnqueueTrbIndex.val
            else s.submitted }
  | .flipRing padding =>
      if s.submitting = none ∧ s.followed then
        some { s with ring := s.ring.flipRing padding, submitted := 0, followed := false }
      else none
  | .controller => s.controllerStep

/-- A step of the controller follows an owned link or executes another owned block. -/
theorem controllerStep_cases {s s' : CommandRun} (effect : s.controllerStep = some s') :
    ∃ range : s.controller.index < 64,
      s.ring.trbs[s.controller.index].cycleBit = s.controller.cycle ∧
        (s.ring.trbs[s.controller.index].rawType = XhciTrbType.link.toBits ∧
            s' = { s with
              controller :=
                ⟨0, s.controller.cycle ^^ s.ring.trbs[s.controller.index].toggleCycle⟩
              followed := true } ∨
          s.ring.trbs[s.controller.index].rawType ≠ XhciTrbType.link.toBits ∧
            s' = { s with
              controller := ⟨s.controller.index + 1, s.controller.cycle⟩
              executed := s.executed ++
                [.fromRaw s.ring.trbs[s.controller.index]
                  s.ring.trbTags[s.controller.index]] }) := by
  unfold controllerStep at effect
  dsimp only at effect
  split_ifs at effect with range stopped link
  · exact ⟨range, not_not.mp stopped, .inl ⟨link, (Option.some.inj effect).symm⟩⟩
  · exact ⟨range, not_not.mp stopped, .inr ⟨link, (Option.some.inj effect).symm⟩⟩

/-- The controller is on the way through the slots of the lap. -/
structure InLap (s : CommandRun) : Prop where
  cycle : s.controller.cycle = s.ring.cycleBit
  behind : s.controller.index ≤ s.ring.stagingEnqueueTrbIndex.val
  /-- The slots behind it are of this lap. -/
  owned : ∀ i (range : i < 64), i < s.controller.index → s.ring.trbs[i].cycleBit = s.ring.cycleBit
  /-- The accepted commands are those executed and the staged ones from its slot on. -/
  accounts : (s.executed ++ s.ring.staged.drop s.controller.index).map XhciTrb.strip =
    s.accepted.map XhciTrb.strip

/-- The controller has followed the link and waits for the next lap. -/
structure PastLink (s : CommandRun) : Prop where
  /-- It owns the blocks of the next lap. -/
  cycle : s.controller.cycle = !s.ring.cycleBit
  index : s.controller.index = 0
  full : s.ring.stagingEnqueueTrbIndex.val = 63
  owned : ∀ i (range : i < 64), s.ring.trbs[i].cycleBit = s.ring.cycleBit
  accounts : s.executed.map XhciTrb.strip = s.accepted.map XhciTrb.strip

/-- What every run keeps. -/
structure Agrees (s : CommandRun) : Prop where
  coherent : s.ring.Coherent
  /-- A running `submit_trbs` stays below the end of its range and has copied what lies behind. -/
  running : ∀ slot ∈ s.submitting, slot.val ≤ s.ring.stagingEnqueueTrbIndex.val ∧
    ∀ i (range : i < 64), i < slot.val → s.ring.trbs[i].cycleBit = s.ring.cycleBit
  /-- What was submitted is owned by the controller. -/
  submitted : s.submitted ≤ s.ring.stagingEnqueueTrbIndex.val ∧
    ∀ i (range : i < 64), i < s.submitted → s.ring.trbs[i].cycleBit = s.ring.cycleBit
  position : (s.followed = false ∧ s.InLap) ∨ (s.followed = true ∧ s.PastLink)
  kinds : ∀ trb ∈ s.executed, trb.toTag = .normal

end CommandRun

/-- The runs in which the driver and the controller move in any order. -/
def commandSystem : Behaviour CommandRun CommandRunStep :=
  .ofPerform (fun s => ∃ physicalBase, s = .init physicalBase) CommandRun.perform

namespace CommandRun.Agrees

variable {s : CommandRun}

theorem init (physicalBase : BitVec 64) : (init physicalBase).Agrees where
  coherent := .init physicalBase
  running := by simp [CommandRun.init]
  submitted := ⟨Nat.le_refl 0, fun _ _ below => absurd below (Nat.not_lt_zero _)⟩
  position := .inl ⟨rfl, rfl, Nat.le_refl 0, fun _ _ below => absurd below (Nat.not_lt_zero _), rfl⟩
  kinds := by simp [CommandRun.init]

theorem addTrb (agrees : s.Agrees) (idle : s.submitting = none) {trb : XhciNormalTrb}
    (kind : trb.rawType ≠ XhciTrbType.link.toBits)
    (inside : s.ring.stagingEnqueueTrbIndex.val + 1 < 64) :
    Agrees { s with
      ring := { s.ring with
        stagingTrbs := s.ring.stagingTrbs.set s.ring.stagingEnqueueTrbIndex
          (.normal (trb.setCycleBit s.ring.cycleBit))
        stagingEnqueueTrbIndex := ⟨s.ring.stagingEnqueueTrbIndex.val + 1, inside⟩ }
      accepted := s.accepted ++ [.normal trb] } where
  coherent := agrees.coherent.stage (trb.isCommand kind s.ring.cycleBit) inside
  running := by simp [idle]
  submitted := ⟨Nat.le_succ_of_le agrees.submitted.1, agrees.submitted.2⟩
  position := by
    rcases agrees.position with ⟨before, lap⟩ | ⟨-, past⟩
    · refine .inl ⟨before, lap.cycle, Nat.le_succ_of_le lap.behind, lap.owned, ?_⟩
      have behind : s.controller.index ≤ s.ring.staged.length := by
        rw [XhciCommandRing.length_staged]
        exact lap.behind
      have same : (XhciTrb.normal (trb.setCycleBit s.ring.cycleBit)).strip =
          (XhciTrb.normal trb).strip := XhciTrb.strip_setCycleBit (.normal trb) _
      rw [XhciCommandRing.staged_stage, List.drop_append_of_le_length behind, ← List.append_assoc,
        List.map_append, lap.accounts, List.map_append, List.map_singleton, List.map_singleton,
        same]
    · have full := past.full
      omega
  kinds := agrees.kinds

theorem submitTrbs (agrees : s.Agrees) :
    Agrees { s with submitting := some XhciCommandRing.firstSlot } where
  coherent := agrees.coherent
  running := by
    intro slot present
    obtain rfl := Option.some.inj present
    exact ⟨Nat.zero_le _, fun _ _ below => absurd below (Nat.not_lt_zero _)⟩
  submitted := agrees.submitted
  position := by
    rcases agrees.position with ⟨before, lap⟩ | ⟨after, past⟩
    · exact .inl ⟨before, lap.cycle, lap.behind, lap.owned, lap.accounts⟩
    · exact .inr ⟨after, past.cycle, past.index, past.full, past.owned, past.accounts⟩
  kinds := agrees.kinds

/-- A slot write of `submit_trbs`. -/
theorem submitSlot (agrees : s.Agrees) {slot : Fin 64} (running : s.submitting = some slot)
    (padding : BitVec 24) :
    Agrees { s with
      ring := s.ring.submitSlot slot padding
      submitting := s.ring.nextSlot slot
      submitted :=
        if s.ring.nextSlot slot = none then s.ring.stagingEnqueueTrbIndex.val
        else s.submitted } := by
  have keep {i : ℕ} (range : i < 64) := @agrees.coherent.submitSlot_keep _ slot padding i range
  obtain ⟨inside, behind⟩ := agrees.running slot running
  refine ⟨agrees.coherent.submitSlot slot padding, ?_, ?_, ?_, agrees.kinds⟩
  · intro next present
    obtain ⟨below, successor⟩ := XhciCommandRing.nextSlot_eq_some inside present
    rw [successor]
    refine ⟨below, fun i range written => ?_⟩
    by_cases newest : i = slot.val
    · subst newest
      exact agrees.coherent.submitSlot_own padding below
    · exact keep range (behind i range (by omega))
  · split_ifs with last
    · obtain rfl := XhciCommandRing.nextSlot_eq_none.mp last
      exact ⟨Nat.le_refl _, fun i range below => keep range (behind i range below)⟩
    · exact ⟨agrees.submitted.1, fun i range below => keep range (agrees.submitted.2 i range below)⟩
  · rcases agrees.position with ⟨before, lap⟩ | ⟨after, past⟩
    · exact .inl ⟨before, lap.cycle, lap.behind,
        fun i range below => keep range (lap.owned i range below), lap.accounts⟩
    · exact .inr ⟨after, past.cycle, past.index, past.full,
        fun i range => keep range (past.owned i range), past.accounts⟩

theorem flipRing (agrees : s.Agrees) (idle : s.submitting = none) (followed : s.followed = true)
    (padding : Fin 64 → BitVec 24) :
    Agrees { s with ring := s.ring.flipRing padding, submitted := 0, followed := false } where
  coherent := .flipRing s.ring padding
  running := by simp [idle]
  submitted := ⟨Nat.zero_le _, fun _ _ below => absurd below (Nat.not_lt_zero _)⟩
  position := by
    rcases agrees.position with ⟨before, -⟩ | ⟨-, past⟩
    · rw [followed] at before
      exact Bool.noConfusion before
    · have start : ∀ i, ¬i < s.controller.index := by
        rw [past.index]
        exact Nat.not_lt_zero
      have nothing : (s.ring.flipRing padding).staged.drop s.controller.index = [] := by
        rw [past.index]
        rfl
      refine .inl ⟨rfl, past.cycle, ?_, fun i _ below => absurd below (start i), ?_⟩
      · rw [past.index]
        exact Nat.zero_le _
      · rw [nothing, List.append_nil]
        exact past.accounts
  kinds := agrees.kinds

theorem execute (agrees : s.Agrees) (before : s.followed = false) (lap : s.InLap)
    (range : s.controller.index < 64)
    (below : s.controller.index < s.ring.stagingEnqueueTrbIndex.val)
    (owned : s.ring.trbs[s.controller.index].cycleBit = s.ring.cycleBit)
    (stored : XhciTrb.fromRaw s.ring.trbs[s.controller.index] s.ring.trbTags[s.controller.index] =
      s.ring.stagingTrbs[s.controller.index]) :
    Agrees { s with
      controller := ⟨s.controller.index + 1, s.controller.cycle⟩
      executed := s.executed ++
        [.fromRaw s.ring.trbs[s.controller.index] s.ring.trbTags[s.controller.index]] } where
  coherent := agrees.coherent
  running := agrees.running
  submitted := agrees.submitted
  position := by
    refine .inl ⟨before, lap.cycle, below, fun i range behind => ?_, ?_⟩
    · by_cases newest : i = s.controller.index
      · subst newest
        exact owned
      · exact lap.owned i range (by dsimp only at behind; omega)
    · rw [stored, List.append_assoc, List.singleton_append,
        ← XhciCommandRing.staged_drop range below]
      exact lap.accounts
  kinds := by
    intro trb member
    rcases List.mem_append.mp member with old | new
    · exact agrees.kinds trb old
    · obtain rfl := List.mem_singleton.mp new
      rw [stored]
      exact (agrees.coherent.commands _ range below).toTag

/-- The controller follows the link when every command of a full lap was executed. -/
theorem follow (agrees : s.Agrees) (lap : s.InLap) (last : s.controller.index = 63) :
    Agrees { s with controller := ⟨0, s.controller.cycle ^^ true⟩, followed := true } where
  coherent := agrees.coherent
  running := agrees.running
  submitted := agrees.submitted
  position := by
    have behind := lap.behind
    have full : s.ring.stagingEnqueueTrbIndex.val = 63 := by omega
    refine .inr ⟨rfl, ?_, rfl, full, fun i range => ?_, ?_⟩
    · rw [lap.cycle]
      exact Bool.xor_true _
    · by_cases link : i = 63
      · subst link
        dsimp only
        rw [agrees.coherent.link]
        exact XhciCommandRing.linkTrb_cycleBit _ _
      · exact lap.owned i range (by omega)
    · have accounts := lap.accounts
      have nothing : s.ring.staged.drop s.controller.index = [] := by
        apply List.drop_eq_nil_of_le
        rw [XhciCommandRing.length_staged]
        omega
      rw [nothing, List.append_nil] at accounts
      exact accounts
  kinds := agrees.kinds

theorem controllerStep (agrees : s.Agrees) {s' : CommandRun}
    (effect : s.controllerStep = some s') : s'.Agrees := by
  obtain ⟨range, owned, outcome⟩ := controllerStep_cases effect
  rcases agrees.position with ⟨before, lap⟩ | ⟨-, past⟩
  · rw [lap.cycle] at owned
    by_cases inside : s.controller.index < 63
    · obtain ⟨below, stored, kind⟩ := agrees.coherent.owned _ range inside owned
      rcases outcome with ⟨link, -⟩ | ⟨-, rfl⟩
      · exact absurd link kind
      · exact agrees.execute before lap range below owned stored
    · have last : s.controller.index = 63 := by omega
      have link : s.ring.trbs[s.controller.index] =
          ⟨(XhciCommandRing.linkTrb s.ring.trbPhysicalBase s.ring.cycleBit).raw⟩ := by
        simp only [last]
        exact agrees.coherent.link
      rw [link, XhciCommandRing.linkTrb_rawType, XhciCommandRing.linkTrb_toggleCycle] at outcome
      rcases outcome with ⟨-, rfl⟩ | ⟨other, -⟩
      · exact agrees.follow lap last
      · exact absurd rfl other
  · -- Every slot is of the lap before, so the controller stops.
    rw [past.owned _ range, past.cycle] at owned
    exact absurd owned (Bool.eq_not_self _).mp

theorem of_reachable (reach : commandSystem.Reachable s) : s.Agrees := by
  refine @Behaviour.Reach.invariant _ _ _ _ Agrees ?_ ?_ s reach
  · rintro _ ⟨physicalBase, rfl⟩
    exact init physicalBase
  · intro s step s' agrees _ taken
    cases step with
    | addTrb trb =>
        obtain ⟨⟨idle, kind⟩, effect⟩ := Option.ite_none_right_eq_some.mp taken
        split at effect
        · rename_i ring returned
          rcases XhciCommandRing.addTrb_eq_ok returned with ⟨-, none, -⟩ | ⟨inside, -, rfl⟩
          · cases none
          · exact Option.some.inj effect ▸ agrees.addTrb idle kind inside
        · rename_i ring returned
          rcases XhciCommandRing.addTrb_eq_ok returned with ⟨-, -, rfl⟩ | ⟨-, some, -⟩
          · exact Option.some.inj effect ▸ agrees
          · cases some
        · cases effect
    | submitTrbs =>
        obtain ⟨-, effect⟩ := Option.ite_none_right_eq_some.mp taken
        exact Option.some.inj effect ▸ agrees.submitTrbs
    | submitSlot padding =>
        obtain ⟨slot, running, rfl⟩ := Option.map_eq_some_iff.mp taken
        exact agrees.submitSlot running padding
    | flipRing padding =>
        obtain ⟨⟨idle, followed⟩, effect⟩ := Option.ite_none_right_eq_some.mp taken
        exact Option.some.inj effect ▸ agrees.flipRing idle followed padding
    | controller => exact agrees.controllerStep taken

/-- With every staged command submitted, a controller that stops has executed all of them. -/
theorem executed_of_stopped (agrees : s.Agrees)
    (submitted : s.submitted = s.ring.stagingEnqueueTrbIndex.val)
    (stopped : s.controllerStep = none) :
    s.executed.map XhciTrb.strip = s.accepted.map XhciTrb.strip := by
  rcases agrees.position with ⟨-, lap⟩ | ⟨-, past⟩
  · have range := s.ring.stagingEnqueueTrbIndex.isLt
    have behind := lap.behind
    -- A submitted command at the controller's slot would be owned, and the controller would move.
    have done : ¬s.controller.index < s.ring.stagingEnqueueTrbIndex.val := by
      intro waiting
      have inside : s.controller.index < 64 := by omega
      have owned := agrees.submitted.2 _ inside (submitted.symm ▸ waiting)
      unfold CommandRun.controllerStep at stopped
      rw [dif_pos inside, lap.cycle] at stopped
      dsimp only at stopped
      rw [if_neg (not_not.mpr owned)] at stopped
      split_ifs at stopped
    have accounts := lap.accounts
    have nothing : s.ring.staged.drop s.controller.index = [] := by
      apply List.drop_eq_nil_of_le
      rw [XhciCommandRing.length_staged]
      exact Nat.not_lt.mp done
    rw [nothing, List.append_nil] at accounts
    exact accounts
  · exact past.accounts

theorem inOrder (agrees : s.Agrees) :
    s.executed.map XhciTrb.strip <+: s.accepted.map XhciTrb.strip := by
  rcases agrees.position with ⟨-, lap⟩ | ⟨-, past⟩
  · rw [← lap.accounts, List.map_append]
    exact List.prefix_append _ _
  · rw [past.accounts]

end CommandRun.Agrees

/-- Over any run the controller executes the accepted commands in order, apart from the cycle bits
that the ring assigns, and no empty block; it stays on the ring; and when it stops with every staged
command submitted it has executed all of them. -/
theorem executed_in_order {s : CommandRun} (reach : commandSystem.Reachable s) :
    s.executed.map XhciTrb.strip <+: s.accepted.map XhciTrb.strip ∧
      (∀ trb ∈ s.executed, trb.toTag = .normal) ∧
      s.controller.index < XhciCommandRing.maxTrbCount ∧
      (s.submitted = s.ring.stagingEnqueueTrbIndex.val → s.controllerStep = none →
        s.executed.map XhciTrb.strip = s.accepted.map XhciTrb.strip) := by
  have agrees := CommandRun.Agrees.of_reachable reach
  refine ⟨agrees.inOrder, agrees.kinds, ?_, agrees.executed_of_stopped⟩
  have range := s.ring.stagingEnqueueTrbIndex.isLt
  rw [XhciCommandRing.maxTrbCount]
  rcases agrees.position with ⟨-, lap⟩ | ⟨-, past⟩
  · have behind := lap.behind
    omega
  · have index := past.index
    omega

def sampleCommand (param : ℕ) : XhciNormalTrb := ⟨.ofNat 128 param⟩

/-- A full lap, the flip and a command of the next lap. -/
def sampleCommandSteps : List CommandRunStep :=
  (List.range 63).map (fun param => .addTrb (sampleCommand param)) ++
    .submitTrbs :: List.replicate 64 (.submitSlot 0) ++
    List.replicate 64 .controller ++
    [.flipRing fun _ => 0, .addTrb (sampleCommand 63), .submitTrbs, .submitSlot 0, .submitSlot 0,
      .controller]

theorem executed_in_order_laps :
    ∃ s : CommandRun, (s.executed.length, s.accepted.length, s.controller.index, s.ring.cycleBit) =
        (64, 64, 1, false) ∧
      s.executed.map XhciTrb.strip <+: s.accepted.map XhciTrb.strip ∧
      (∀ trb ∈ s.executed, trb.toTag = .normal) ∧
      s.controller.index < XhciCommandRing.maxTrbCount ∧
      (s.submitted = s.ring.stagingEnqueueTrbIndex.val → s.controllerStep = none →
        s.executed.map XhciTrb.strip = s.accepted.map XhciTrb.strip) := by
  have executed :
      (Behaviour.run CommandRun.perform (fun _ _ => True) (.init 0x10000) sampleCommandSteps).map
          (fun s => (s.executed.length, s.accepted.length, s.controller.index, s.ring.cycleBit)) =
        some (64, 64, 1, false) := by decide +kernel
  have start : commandSystem.initial (.init 0x10000) := ⟨_, rfl⟩
  obtain ⟨s, reach, value⟩ := Behaviour.exists_reach start executed
  exact ⟨s, value, executed_in_order reach⟩

end Blubos
