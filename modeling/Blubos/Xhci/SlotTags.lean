import Blubos.Xhci.CommandRing

/-!
# The tags of the command ring

The ring remembers in a tag which kind of block it last wrote to each slot.  `init_ring` and
`flip_ring` write the link to the last slot but tag it as empty; the tag becomes right when
`submit_trbs` reaches that slot, which it does once the lap is full.
-/

namespace Blubos

namespace XhciCommandRing

/-- `MAX_TRB_COUNT - 1`, the slot of the link. -/
def lastSlot : Fin 64 := Fin.last 63

/-- The slots that `submit_trbs` copies, from the first to the index itself. -/
def submittedSlots (ring : XhciCommandRing) : List (Fin 64) :=
  (List.finRange 64).filter fun slot => slot ≤ ring.stagingEnqueueTrbIndex

/-- `submit_trbs`; `padding` stands in the bytes of each slot that an empty block leaves
unspecified. -/
def submitTrbs (ring : XhciCommandRing) (padding : Fin 64 → BitVec 24) : XhciCommandRing :=
  ring.submittedSlots.foldl (fun ring slot => ring.submitSlot slot (padding slot)) ring

/-- Copying slots changes their contents and their tags and nothing else. -/
structure Submitted (slots : List (Fin 64)) (padding : Fin 64 → BitVec 24)
    (ring ring' : XhciCommandRing) : Prop where
  /-- What is staged for a slot is copied to it. -/
  copied : ∀ slot ∈ slots, ring'.trbs.get slot = (ring.stagingTrbs.get slot).toUnion (padding slot)
  tagged : ∀ slot ∈ slots, ring'.trbTags.get slot = (ring.stagingTrbs.get slot).toTag
  kept : ∀ slot ∉ slots, ring'.trbs.get slot = ring.trbs.get slot
  keptTags : ∀ slot ∉ slots, ring'.trbTags.get slot = ring.trbTags.get slot
  stagingTrbs : ring'.stagingTrbs = ring.stagingTrbs
  stagingEnqueueTrbIndex : ring'.stagingEnqueueTrbIndex = ring.stagingEnqueueTrbIndex
  cycleBit : ring'.cycleBit = ring.cycleBit
  trbPhysicalBase : ring'.trbPhysicalBase = ring.trbPhysicalBase

theorem submitSlot_get (ring : XhciCommandRing) (slot : Fin 64) (padding : BitVec 24) :
    (ring.submitSlot slot padding).trbs.get slot = (ring.stagingTrbs.get slot).toUnion padding ∧
      (ring.submitSlot slot padding).trbTags.get slot = (ring.stagingTrbs.get slot).toTag := by
  obtain ⟨trbs, trbTags⟩ := @submitSlot_getElem ring slot padding slot slot.isLt
  exact ⟨trbs.trans (if_pos rfl), trbTags.trans (if_pos rfl)⟩

theorem submitSlot_get_of_ne (ring : XhciCommandRing) {slot other : Fin 64} (padding : BitVec 24)
    (apart : other ≠ slot) :
    (ring.submitSlot slot padding).trbs.get other = ring.trbs.get other ∧
      (ring.submitSlot slot padding).trbTags.get other = ring.trbTags.get other := by
  obtain ⟨trbs, trbTags⟩ := @submitSlot_getElem ring slot padding other other.isLt
  have different : ¬slot.val = other.val := fun same => apart (Fin.ext same.symm)
  exact ⟨trbs.trans (if_neg different), trbTags.trans (if_neg different)⟩

theorem submitted_foldl (slots : List (Fin 64)) (padding : Fin 64 → BitVec 24)
    (ring : XhciCommandRing) : Submitted slots padding ring
      (slots.foldl (fun ring slot => ring.submitSlot slot (padding slot)) ring) := by
  induction slots generalizing ring with
  | nil => exact ⟨nofun, nofun, fun _ _ => rfl, fun _ _ => rfl, rfl, rfl, rfl, rfl⟩
  | cons first slots induction =>
      obtain ⟨copied, tagged, kept, keptTags, staging, index, cycle, base⟩ :=
        induction (ring.submitSlot first (padding first))
      refine ⟨fun slot member => ?_, fun slot member => ?_, fun slot outside => ?_,
        fun slot outside => ?_, staging, index, cycle, base⟩
      · by_cases later : slot ∈ slots
        · exact copied slot later
        · obtain rfl := (List.mem_cons.mp member).resolve_right later
          exact (kept slot later).trans (ring.submitSlot_get slot (padding slot)).1
      · by_cases later : slot ∈ slots
        · exact tagged slot later
        · obtain rfl := (List.mem_cons.mp member).resolve_right later
          exact (keptTags slot later).trans (ring.submitSlot_get slot (padding slot)).2
      · obtain ⟨apart, later⟩ := not_or.mp (mt List.mem_cons.mpr outside)
        exact (kept slot later).trans (ring.submitSlot_get_of_ne (padding first) apart).1
      · obtain ⟨apart, later⟩ := not_or.mp (mt List.mem_cons.mpr outside)
        exact (keptTags slot later).trans (ring.submitSlot_get_of_ne (padding first) apart).2

theorem submitTrbs_spec (ring : XhciCommandRing) (padding : Fin 64 → BitVec 24) :
    Submitted ring.submittedSlots padding ring (ring.submitTrbs padding) :=
  submitted_foldl ring.submittedSlots padding ring

theorem mem_submittedSlots {ring : XhciCommandRing} {i : Fin 64} :
    i ∈ ring.submittedSlots ↔ i.val ≤ ring.stagingEnqueueTrbIndex.val := by
  rw [submittedSlots, List.mem_filter, decide_eq_true_eq]
  exact ⟨fun both => both.2, fun below => ⟨List.mem_finRange i, below⟩⟩

end XhciCommandRing

/-- A call of the driver. -/
inductive RingCall where
  /-- `add_trb` of a normal block. -/
  | add (trb : XhciNormalTrb)
  /-- `submit_trbs`. -/
  | submit (padding : Fin 64 → BitVec 24)
  /-- `flip_ring`. -/
  | flip (padding : Fin 64 → BitVec 24)

/-- The ring with what was written to its slots and accepted in this lap. -/
structure Ledger where
  ring : XhciCommandRing
  written : Fin 64 → XhciTrb
  /-- The blocks that `add_trb` accepted since the last `flip_ring`. -/
  accepted : List XhciNormalTrb

/-- A link in the last slot and empty blocks in all others. -/
def cleared (link : XhciLinkTrb) (empty : XhciEmptyTrb) (slot : Fin 64) : XhciTrb :=
  if slot.val = 63 then .link link else .empty empty

theorem cleared_last (link : XhciLinkTrb) (empty : XhciEmptyTrb) :
    cleared link empty XhciCommandRing.lastSlot = .link link := if_pos rfl

theorem cleared_of_lt {link : XhciLinkTrb} {empty : XhciEmptyTrb} {slot : Fin 64}
    (before : slot.val < 63) : cleared link empty slot = .empty empty := if_neg before.ne

namespace Ledger

/-- After `init_ring`. -/
def init (physicalBase : BitVec 64) : Ledger where
  ring := XhciCommandRing.initRing physicalBase
  written := cleared (XhciCommandRing.linkTrb physicalBase true) .new
  accepted := []

def perform (ledger : Ledger) : RingCall → Except Fault Ledger
  | .add trb => do
      match ← ledger.ring.addTrb (.normal trb) with
      | (some (), ring) => .ok { ledger with ring := ring, accepted := ledger.accepted ++ [trb] }
      | (none, ring) => .ok { ledger with ring := ring }
  | .submit padding => .ok { ledger with
      ring := ledger.ring.submitTrbs padding
      written := fun slot =>
        if slot.val ≤ ledger.ring.stagingEnqueueTrbIndex.val then ledger.ring.stagingTrbs.get slot
        else ledger.written slot }
  | .flip padding =>
      let ring := ledger.ring.flipRing padding
      .ok {
        ring := ring
        written := cleared (XhciCommandRing.linkTrb ring.trbPhysicalBase ring.cycleBit)
          (.newCycleBit !ring.cycleBit)
        accepted := [] }

/-- The calls after `init_ring`, the most recent first. -/
def run (physicalBase : BitVec 64) : List RingCall → Except Fault Ledger
  | [] => .ok (init physicalBase)
  | call :: earlier => do
      let ledger ← run physicalBase earlier
      ledger.perform call

end Ledger

/-- A block links back to the start of the ring in the cycle state of the lap. -/
structure XhciCommandRing.LinksBack (ring : XhciCommandRing) (trb : XhciTrbUnion) : Prop where
  kind : trb.rawType = XhciTrbType.link.toBits
  pointer : BitField.get 0 64 trb.raw = ring.trbPhysicalBase
  toggles : trb.toggleCycle = true
  cycleBit : trb.cycleBit = ring.cycleBit

/-- The tag of a slot names what was written there and recovers it. -/
def Ledger.Tagged (ledger : Ledger) (slot : Fin 64) : Prop :=
  ledger.ring.trbTags.get slot = (ledger.written slot).toTag ∧
    XhciTrb.fromRaw (ledger.ring.trbs.get slot) (ledger.ring.trbTags.get slot) = ledger.written slot

/-- The representation of the command ring, with the tags of the slots below a bound. -/
structure Ledger.Represents (ledger : Ledger) (bound : ℕ) : Prop where
  tags : ∀ slot : Fin 64, slot.val < bound → ledger.Tagged slot
  link : ledger.ring.LinksBack (ledger.ring.trbs.get XhciCommandRing.lastSlot)
  stagedLink : ∃ trb, ledger.ring.stagingTrbs.get XhciCommandRing.lastSlot = .link trb ∧
    ledger.ring.LinksBack ⟨trb.raw⟩
  /-- Below the index the blocks accepted in this lap are staged with the cycle bit of the lap. -/
  commands : ledger.ring.staged =
    ledger.accepted.map fun trb => .normal (trb.setCycleBit ledger.ring.cycleBit)
  /-- From the index on there are empty blocks with the other cycle bit. -/
  vacant : ∀ slot : Fin 64, ledger.ring.stagingEnqueueTrbIndex.val ≤ slot.val → slot.val < 63 →
    ledger.ring.stagingTrbs.get slot = .empty (.newCycleBit !ledger.ring.cycleBit)

/-- The calls of `add_trb` since the last `flip_ring`. -/
def lapAdds : List RingCall → ℕ
  | [] => 0
  | .add _ :: earlier => lapAdds earlier + 1
  | .submit _ :: earlier => lapAdds earlier
  | .flip _ :: _ => 0

/-- Since `init_ring` or the last `flip_ring`, `submit_trbs` was called with 63 blocks staged. -/
def LinkSubmitted : List RingCall → Prop
  | [] => False
  | .add _ :: earlier => LinkSubmitted earlier
  | .submit _ :: earlier => 63 ≤ lapAdds earlier ∨ LinkSubmitted earlier
  | .flip _ :: _ => False

def XhciCommandRing.lapLink (ring : XhciCommandRing) : XhciLinkTrb :=
  linkTrb ring.trbPhysicalBase ring.cycleBit

theorem XhciCommandRing.linksBack_lapLink (ring : XhciCommandRing) :
    ring.LinksBack ⟨ring.lapLink.raw⟩ where
  kind := linkTrb_rawType _ _
  pointer := linkTrb_ringSegmentPointer _ _
  toggles := linkTrb_toggleCycle _ _
  cycleBit := linkTrb_cycleBit _ _

/-- The invariant of runs. -/
structure Kept (calls : List RingCall) (ledger : Ledger) : Prop where
  /-- The index counts the blocks of the lap up to the link. -/
  index : ledger.ring.stagingEnqueueTrbIndex.val = min (lapAdds calls) 63
  tags : ∀ slot : Fin 64, slot.val < 63 → ledger.Tagged slot
  /-- The link was written to the last slot. -/
  written : ledger.written XhciCommandRing.lastSlot = .link ledger.ring.lapLink
  link : ledger.ring.trbs.get XhciCommandRing.lastSlot = ⟨ledger.ring.lapLink.raw⟩
  stagedLink : ledger.ring.stagingTrbs.get XhciCommandRing.lastSlot = .link ledger.ring.lapLink
  /-- Its tag says so once it was submitted. -/
  tag : (LinkSubmitted calls ∧ ledger.ring.trbTags.get XhciCommandRing.lastSlot = .link) ∨
    (¬LinkSubmitted calls ∧ ledger.ring.trbTags.get XhciCommandRing.lastSlot = .empty)
  /-- Below the index the blocks of the lap are staged. -/
  commands : ledger.ring.staged =
    ledger.accepted.map fun trb => .normal (trb.setCycleBit ledger.ring.cycleBit)
  /-- From the index on there are empty blocks. -/
  vacant : ∀ slot : Fin 64, ledger.ring.stagingEnqueueTrbIndex.val ≤ slot.val → slot.val < 63 →
    ledger.ring.stagingTrbs.get slot = .empty (.newCycleBit !ledger.ring.cycleBit)

namespace Kept

open XhciCommandRing (lastSlot)

variable {calls : List RingCall} {ledger : Ledger}

theorem init (physicalBase : BitVec 64) : Kept [] (.init physicalBase) := by
  have coherent := XhciCommandRing.Coherent.init physicalBase
  have contents (slot : Fin 64) (before : slot.val < 63) :
      (XhciCommandRing.initRing physicalBase).trbs.get slot = .zeroed := by
    have apart : 63 ≠ slot.val := by omega
    exact (Vector.getElem_set_ne (by decide) _ apart).trans (Vector.getElem_replicate _)
  have untagged (slot : Fin 64) :
      (XhciCommandRing.initRing physicalBase).trbTags.get slot = .empty :=
    Vector.getElem_replicate _
  have written := cleared_last (XhciCommandRing.linkTrb physicalBase true) .new
  refine ⟨rfl, fun slot before => ?_, written, coherent.link, coherent.stagedLink,
    .inr ⟨id, untagged lastSlot⟩, rfl, fun slot => coherent.vacant slot slot.isLt⟩
  simp only [Ledger.Tagged, Ledger.init, contents slot before, cleared_of_lt before, untagged slot]
  exact ⟨rfl, rfl⟩

/-- `flip_ring` starts a lap. -/
theorem flip (calls : List RingCall) (ledger : Ledger) (padding : Fin 64 → BitVec 24) :
    ∃ next, ledger.perform (.flip padding) = .ok next ∧ Kept (.flip padding :: calls) next := by
  refine ⟨_, rfl, ?_⟩
  have coherent := XhciCommandRing.Coherent.flipRing ledger.ring padding
  have contents (slot : Fin 64) (before : slot.val < 63) :
      (ledger.ring.flipRing padding).trbs.get slot =
        .ofEmpty (.newCycleBit !(ledger.ring.flipRing padding).cycleBit) (padding slot) := by
    have apart : 63 ≠ slot.val := by omega
    exact (Vector.getElem_set_ne (by decide) _ apart).trans (Vector.getElem_ofFn _)
  have untagged (slot : Fin 64) : (ledger.ring.flipRing padding).trbTags.get slot = .empty :=
    Vector.getElem_replicate _
  have unstaged : (ledger.ring.flipRing padding).staged = [] := List.take_zero
  have first : (ledger.ring.flipRing padding).stagingEnqueueTrbIndex.val = 0 := rfl
  -- Only these facts about the new ring matter from here on.
  generalize ledger.ring.flipRing padding = ring at *
  have written := cleared_last ring.lapLink (.newCycleBit !ring.cycleBit)
  refine ⟨?_, fun slot before => ?_, written, coherent.link, coherent.stagedLink,
    .inr ⟨id, untagged lastSlot⟩, unstaged, fun slot => coherent.vacant slot slot.isLt⟩
  · rw [lapAdds]
    exact first
  · simp only [Ledger.Tagged, contents slot before, cleared_of_lt before, untagged slot]
    exact ⟨rfl, XhciTrb.fromRaw_toUnion (.empty _) (padding slot)⟩

/-- `submit_trbs` tags what it copies. -/
theorem submit (kept : Kept calls ledger) (padding : Fin 64 → BitVec 24) :
    ∃ next, ledger.perform (.submit padding) = .ok next ∧
      Kept (.submit padding :: calls) next := by
  refine ⟨_, rfl, ?_⟩
  obtain ⟨copied, tagged, same, sameTags, staging, index, cycle, base⟩ :=
    ledger.ring.submitTrbs_spec padding
  have link : (ledger.ring.submitTrbs padding).lapLink = ledger.ring.lapLink := by
    rw [XhciCommandRing.lapLink, base, cycle, XhciCommandRing.lapLink]
  have last : lastSlot ∈ ledger.ring.submittedSlots ↔ 63 ≤ lapAdds calls := by
    have counted := kept.index
    rw [XhciCommandRing.mem_submittedSlots]
    show 63 ≤ _ ↔ _
    omega
  refine ⟨?_, fun slot before => ?_, ?_, ?_, ?_, ?_, ?_, ?_⟩
  · simp only [index, lapAdds]
    exact kept.index
  · by_cases within : slot.val ≤ ledger.ring.stagingEnqueueTrbIndex.val
    · have member := XhciCommandRing.mem_submittedSlots.mpr within
      simp only [Ledger.Tagged, copied slot member, tagged slot member, if_pos within,
        XhciTrb.fromRaw_toUnion, and_self]
    · have outside := mt XhciCommandRing.mem_submittedSlots.mp within
      simp only [Ledger.Tagged, same slot outside, sameTags slot outside, if_neg within]
      exact kept.tags slot before
  · simp only [link, kept.written, kept.stagedLink, ite_self]
  · simp only [link]
    by_cases full : lastSlot ∈ ledger.ring.submittedSlots
    · rw [copied _ full, kept.stagedLink, XhciTrb.toUnion]
    · rw [same _ full, kept.link]
  · simp only [link, staging]
    exact kept.stagedLink
  · simp only [LinkSubmitted, ← last]
    by_cases full : lastSlot ∈ ledger.ring.submittedSlots
    · rw [tagged _ full, kept.stagedLink]
      exact .inl ⟨.inl full, rfl⟩
    · rw [sameTags _ full]
      simpa only [full, false_or] using kept.tag
  · simp only [XhciCommandRing.staged, staging, index, cycle]
    exact kept.commands
  · simp only [cycle, index, staging]
    exact kept.vacant

/-- `add_trb` stages the block unless the lap is full. -/
theorem add (kept : Kept calls ledger) (trb : XhciNormalTrb) :
    ∃ next, ledger.perform (.add trb) = .ok next ∧ Kept (.add trb :: calls) next := by
  rw [Ledger.perform]
  cases returned : ledger.ring.addTrb (.normal trb) with
  | error fault =>
      rw [XhciCommandRing.addTrb] at returned
      split at returned <;> simp [XhciTrb.toTag] at returned
  | ok value =>
      obtain ⟨accepted, ring⟩ := value
      have counted := kept.index
      rcases XhciCommandRing.addTrb_eq_ok returned with
        ⟨full, rfl, rfl⟩ | ⟨inside, rfl, rfl⟩
      · refine ⟨ledger, rfl, { kept with index := ?_ }⟩
        rw [lapAdds]
        omega
      · refine ⟨_, rfl, { kept with index := ?_, stagedLink := ?_, commands := ?_, vacant := ?_ }⟩
        · simp only [lapAdds]
          omega
        · have apart : ledger.ring.stagingEnqueueTrbIndex.val ≠ lastSlot.val := by
            show _ ≠ 63
            omega
          exact (Vector.getElem_set_ne ledger.ring.stagingEnqueueTrbIndex.isLt _ apart).trans
            kept.stagedLink
        · rw [XhciCommandRing.staged_stage inside, kept.commands, List.map_append]
          rfl
        · intro slot above below
          simp only at above
          have newer : ledger.ring.stagingEnqueueTrbIndex.val ≠ slot.val := by omega
          exact (Vector.getElem_set_ne ledger.ring.stagingEnqueueTrbIndex.isLt _ newer).trans
            (kept.vacant slot (by omega) below)

theorem represents (kept : Kept calls ledger) {bound : ℕ}
    (tags : ∀ slot : Fin 64, slot.val < bound → ledger.Tagged slot) : ledger.Represents bound where
  tags := tags
  link := kept.link ▸ ledger.ring.linksBack_lapLink
  stagedLink := ⟨_, kept.stagedLink, ledger.ring.linksBack_lapLink⟩
  commands := kept.commands
  vacant := kept.vacant

theorem tagged_iff (kept : Kept calls ledger) : ledger.Tagged lastSlot ↔ LinkSubmitted calls := by
  rw [Ledger.Tagged, kept.written, kept.link]
  rcases kept.tag with ⟨submitted, tag⟩ | ⟨unsubmitted, tag⟩
  · rw [tag]
    exact iff_of_true ⟨rfl, rfl⟩ submitted
  · rw [tag]
    exact iff_of_false (fun tagged => XhciTrbTag.noConfusion tagged.1) unsubmitted

theorem represents_iff (kept : Kept calls ledger) : ledger.Represents 64 ↔ LinkSubmitted calls := by
  rw [← kept.tagged_iff]
  constructor
  · intro represents
    exact represents.tags lastSlot lastSlot.isLt
  · intro tagged
    refine kept.represents fun slot range => ?_
    by_cases before : slot.val < 63
    · exact kept.tags slot before
    · obtain rfl : slot = lastSlot := Fin.ext (by
        show slot.val = 63
        omega)
      exact tagged

end Kept

/-- In every run the ring has its representation but for the tag of the last slot, and that tag
names the link there exactly when a full lap has been submitted. -/
theorem ring_represents_iff (physicalBase : BitVec 64) (calls : List RingCall) :
    ∃ ledger, Ledger.run physicalBase calls = .ok ledger ∧ ledger.Represents 63 ∧
      (ledger.Represents 64 ↔ LinkSubmitted calls) := by
  have runs : ∃ ledger, Ledger.run physicalBase calls = .ok ledger ∧ Kept calls ledger := by
    induction calls with
    | nil => exact ⟨_, rfl, .init physicalBase⟩
    | cons call earlier induction =>
        obtain ⟨ledger, ran, kept⟩ := induction
        rw [Ledger.run, ran, ok_bind]
        cases call with
        | add trb => exact kept.add trb
        | submit padding => exact kept.submit padding
        | flip padding => exact Kept.flip earlier ledger padding
  obtain ⟨ledger, ran, kept⟩ := runs
  exact ⟨ledger, ran, kept.represents kept.tags, kept.represents_iff⟩

/-- `init_ring` leaves the link with the tag of an empty block. -/
theorem ring_represents_false : ¬∀ (physicalBase : BitVec 64) (calls : List RingCall)
    (ledger : Ledger), Ledger.run physicalBase calls = .ok ledger → ledger.Represents 64 := by
  intro represents
  exact (Kept.init 0).represents_iff.mp (represents 0 [] (.init 0) rfl)

end Blubos
