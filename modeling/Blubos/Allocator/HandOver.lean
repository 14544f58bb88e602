import Blubos.Allocator.TreeUpdates
import Blubos.Foundation.Run

/-!
# From the bump heap to the tree heap

The two initialisers read the memory map of the boot loader one after the other: `init_bump_alloc`
puts the bump heap at the start of an area, and `TreeAlloc::init` hands all areas to the tree,
without the part that the bump heap took.  Bump allocations come before and after that, the nodes of
the tree among them.
-/

namespace Blubos

/-- `usize::mb`. -/
def mb (count : ℕ) : ℕ := count * 1024 ^ 2

/-! ## The memory map -/

/-- `EntryType` of the memory map. -/
inductive EntryType where
  | usable
  | reserved
  | acpiReclaimable
  | acpiNvs
  | badMemory
  | bootloaderReclaimable
  | executableAndModules
  | framebuffer
  | other (code : ℕ)
deriving DecidableEq, Repr

/-- An entry of the memory map. -/
structure Entry where
  /-- Physical base address. -/
  base : ℕ
  /-- Length in bytes. -/
  length : ℕ
  entryType : EntryType

/-- The test of `find_heap_areas`. -/
def Entry.accepted (entry : Entry) : Bool :=
  (entry.entryType = .usable || entry.entryType = .bootloaderReclaimable) &&
    decide (0x100000 ≤ entry.base)

/-- The answers of the boot loader, which do not change. -/
structure BootInfo where
  /-- Response to `MEMMAP_REQ`. -/
  memoryMap : Option (List Entry)
  /-- Response to `HHDM_REQ`. -/
  hhdmOffset : Option ℕ
  bounded : ∀ entries ∈ memoryMap, ∀ hhdm ∈ hhdmOffset, ∀ entry ∈ entries, entry.accepted →
    hhdm + entry.base + entry.length ≤ Usize.max + 1

/-- The loop of `find_heap_areas`, with the areas found so far. -/
def collectAreas (hhdm capacity : ℕ) : List Region → List Entry → Except Fault (List Region)
  | areas, [] => .ok areas
  | areas, entry :: entries =>
      if entry.accepted then do
        let base ← Usize.add hhdm entry.base
        if areas.length < capacity then
          collectAreas hhdm capacity (areas ++ [⟨base, entry.length⟩]) entries
        else
          .error .outOfBounds
      else
        collectAreas hhdm capacity areas entries

namespace BootInfo

/-- `find_heap_areas` with room for some number of areas. -/
def findHeapAreas (boot : BootInfo) (capacity : ℕ) : Except Fault (Option (List Region)) :=
  match boot.memoryMap, boot.hhdmOffset with
  | some entries, some hhdm => do
      let areas ← collectAreas hhdm capacity [] entries
      .ok (some areas)
  | _, _ => .ok none

/-- The areas of the accepted entries in the higher half. -/
def acceptedAreas (boot : BootInfo) : List Region :=
  match boot.memoryMap, boot.hhdmOffset with
  | some entries, some hhdm =>
      (entries.filter Entry.accepted).map fun entry => ⟨hhdm + entry.base, entry.length⟩
  | _, _ => []

end BootInfo

theorem collectAreas_eq_ok {hhdm capacity : ℕ} {areas areas' : List Region} {entries : List Entry}
    (collected : collectAreas hhdm capacity areas entries = .ok areas') :
    areas' = areas ++ (entries.filter Entry.accepted).map fun entry =>
      ⟨hhdm + entry.base, entry.length⟩ := by
  induction entries generalizing areas with
  | nil =>
      rw [List.filter_nil, List.map_nil, List.append_nil]
      exact (Except.ok.inj collected).symm
  | cons entry entries induction =>
      rw [collectAreas] at collected
      by_cases accepted : entry.accepted = true
      · rw [if_pos accepted] at collected
        simp only [bind_eq_ok, Usize.add_eq_ok] at collected
        obtain ⟨_, ⟨-, rfl⟩, collected⟩ := collected
        by_cases room : areas.length < capacity
        · rw [if_pos room] at collected
          rw [induction collected, List.filter_cons_of_pos accepted, List.map_cons,
            List.append_assoc, List.singleton_append]
        · rw [if_neg room] at collected
          simp at collected
      · rw [if_neg accepted] at collected
        rw [induction collected, List.filter_cons_of_neg accepted]

namespace BootInfo

variable {boot : BootInfo}

/-- Whatever room there is, the areas found are those of the accepted entries. -/
theorem findHeapAreas_eq_ok {capacity : ℕ} {areas : List Region}
    (found : boot.findHeapAreas capacity = .ok (some areas)) : areas = boot.acceptedAreas := by
  unfold findHeapAreas at found
  unfold acceptedAreas
  split at found
  · rename_i entries hhdm hasMap hasOffset
    simp only [bind_eq_ok, Except.ok.injEq, Option.some.injEq] at found
    obtain ⟨_, collected, rfl⟩ := found
    simpa [hasMap, hasOffset] using collectAreas_eq_ok collected
  · simp at found

/-- An accepted area lies in the higher half, above the first megabyte. -/
theorem acceptedAreas_bounded {r : Region} (member : r ∈ boot.acceptedAreas) :
    0x100000 ≤ r.base ∧ r.stop ≤ Usize.max + 1 := by
  unfold acceptedAreas at member
  split at member
  · rename_i entries hhdm hasMap hasOffset
    simp only [List.mem_map, List.mem_filter] at member
    obtain ⟨entry, ⟨listed, accepted⟩, rfl⟩ := member
    have inside := boot.bounded entries hasMap hhdm hasOffset entry listed accepted
    have high : 0x100000 ≤ entry.base := by
      rw [Entry.accepted, Bool.and_eq_true, decide_eq_true_eq] at accepted
      exact accepted.2
    exact ⟨high.trans (Nat.le_add_left _ _), inside⟩
  · simp at member

/-- `init_bump_alloc`; without a suitable area it panics. -/
def initBumpAlloc (boot : BootInfo) : Except Fault (Option BumpHeap) :=
  match found : boot.findHeapAreas 256 with
  | .error fault => .error fault
  | .ok none => .ok none
  | .ok (some areas) =>
      match suitable : areas.find? fun area => decide (mb 5 ≤ area.size) with
      | none => .ok none
      | some area =>
          have range : 0x100000 ≤ area.base ∧ area.stop ≤ Usize.max + 1 :=
            acceptedAreas_bounded (findHeapAreas_eq_ok found ▸ List.mem_of_find?_eq_some suitable)
          have large : mb 5 ≤ area.size := by simpa using List.find?_some suitable
          .ok (some {
            base := area.base
            size := mb 4
            next := area.base
            bounded := by
              simp only [Span.stop, mb] at range large ⊢
              omega
            nonnull := fun _ => by omega
            base_le_next := le_rfl })

end BootInfo

/-- A block that is not null, with the layout it was requested for. -/
structure Block where
  address : ℕ
  layout : Layout

def Block.span (block : Block) : Span := ⟨block.address, block.layout.size⟩

def BumpHeap.span (heap : BumpHeap) : Span := ⟨heap.base, heap.size⟩

/-- Blocks, most recent first, that a bump heap handed out. -/
structure HandedOut (heap : BumpHeap) (blocks : List Block) : Prop where
  cursor : heap.next ≤ heap.span.stop
  aligned : ∀ block ∈ blocks, block.layout.align ∣ block.address
  /-- Blocks lie between the base and the cursor. -/
  inside : ∀ block ∈ blocks, heap.base ≤ block.address ∧ block.span.stop ≤ heap.next
  /-- Each block starts where an older one has ended. -/
  apart : blocks.Pairwise fun block older => older.span.stop ≤ block.address

theorem Layout.align_pos (layout : Layout) : 0 < layout.align := by
  obtain ⟨k, power⟩ := layout.power
  exact power ▸ Nat.two_pow_pos k

/-- `alloc` returns the null pointer and changes nothing, or it returns the first aligned address
at or after the cursor, which moves behind the block. -/
theorem BumpAlloc.alloc_cases {heap heap' : BumpHeap} {layout : Layout} {address : ℕ}
    (step : BumpAlloc.alloc heap layout = .ok (address, heap')) :
    (address = 0 ∧ heap' = heap) ∨
      (heap.next ≤ address ∧ layout.align ∣ address ∧ heap'.next = address + layout.size ∧
        heap'.next ≤ heap.span.stop ∧ heap'.span = heap.span) := by
  unfold BumpAlloc.alloc at step
  split at step
  · simp at step
  · rename_i current aligned
    simp only at step
    split_ifs at step with full
    · obtain ⟨rfl, rfl⟩ := Prod.mk.inj (Except.ok.inj step)
      exact .inl ⟨rfl, rfl⟩
    · obtain ⟨rfl, rfl⟩ := Prod.mk.inj (Except.ok.inj step)
      have room := heap.bounded
      have saturated : Usize.saturatingAdd current layout.size = current + layout.size := by
        simp only [Usize.saturatingAdd] at full ⊢
        omega
      refine .inr ⟨BumpAlloc.le_alignCursor aligned,
        BumpAlloc.dvd_alignCursor layout.align_pos aligned, saturated, not_lt.mp full, rfl⟩

theorem BumpAlloc.alignCursor_of_alloc {heap : BumpHeap} {layout : Layout} {fault : Fault}
    (step : BumpAlloc.alloc heap layout = .error fault) :
    BumpAlloc.alignCursor heap.next layout.align = .error fault := by
  unfold BumpAlloc.alloc at step
  split at step
  · rename_i failed rounding
    rw [rounding, Except.error.inj step]
  · simp only at step
    split_ifs at step

theorem BumpAlloc.alloc_null {heap heap' : BumpHeap} {layout : Layout}
    (step : BumpAlloc.alloc heap layout = .ok (0, heap')) : heap' = heap := by
  rcases BumpAlloc.alloc_cases step with ⟨-, same⟩ | ⟨after, -, moved, room, same⟩
  · exact same
  · -- Only a heap without a single byte starts at zero.
    obtain ⟨base, size⟩ := Span.mk.inj same
    have started := heap.base_le_next
    have empty : heap.size = 0 := by
      by_contra occupied
      have := heap.nonnull (Nat.pos_of_ne_zero occupied)
      omega
    simp only [BumpHeap.span, Span.stop_mk] at room
    have next : heap'.next = heap.next := by omega
    cases heap
    cases heap'
    simp_all

namespace HandedOut

variable {heap heap' : BumpHeap} {blocks : List Block}

theorem alloc (handed : HandedOut heap blocks) {layout : Layout} {address : ℕ}
    (nonnull : address ≠ 0) (step : BumpAlloc.alloc heap layout = .ok (address, heap')) :
    HandedOut heap' (⟨address, layout⟩ :: blocks) ∧ heap'.span = heap.span := by
  rcases BumpAlloc.alloc_cases step with
    ⟨null, -⟩ | ⟨after, aligned, moved, room, same⟩
  · exact absurd null nonnull
  · refine ⟨⟨?_, ?_, ?_, ?_⟩, same⟩
    · rw [same]
      exact room
    · simpa using ⟨aligned, handed.aligned⟩
    · have base : heap'.base = heap.base := congrArg Span.base same
      have started := heap.base_le_next
      intro block member
      rw [List.mem_cons] at member
      rcases member with rfl | member
      · exact ⟨by rw [base]; exact started.trans after, moved.ge⟩
      · obtain ⟨above, below⟩ := handed.inside block member
        refine ⟨by rw [base]; exact above, ?_⟩
        omega
    · refine List.pairwise_cons.mpr ⟨fun older member => ?_, handed.apart⟩
      exact (handed.inside older member).2.trans after

theorem boxNewIn (handed : HandedOut heap blocks) {layout : Layout} {box : ℕ}
    (step : BumpAlloc.boxNewIn heap layout = .ok (box, heap')) :
    HandedOut heap' (⟨box, layout⟩ :: blocks) ∧ heap'.span = heap.span := by
  obtain ⟨null, allocated⟩ := BumpAlloc.alloc_of_boxNewIn step
  exact handed.alloc null allocated

/-- The boxes that a tree took, as blocks. -/
def nodes (tree : RBTreeAlloc) : List Block := tree.taken.map (⟨·, TreeRegion.layout⟩)

theorem insert {self self' : RBTreeAlloc} {region : Region}
    (handed : HandedOut heap (nodes self ++ blocks))
    (step : self.insert heap region = .ok (self', heap')) :
    HandedOut heap' (nodes self' ++ blocks) ∧ heap'.span = heap.span := by
  rw [RBTreeAlloc.insert] at step
  split_ifs at step with empty
  · obtain ⟨rfl, rfl⟩ := Prod.mk.inj (Except.ok.inj step)
    exact ⟨handed, rfl⟩
  · rcases allocNode_cases self heap region.base region.size with
      ⟨color, next, head, r, -, allocated⟩ |
      ⟨-, ⟨box, heap', boxed, allocated⟩ | ⟨fault, -, allocated⟩⟩
    · simp only [allocated, ok_bind, bind_eq_ok, Except.ok.injEq, Prod.mk.injEq] at step
      obtain ⟨_, -, rfl, rfl⟩ := step
      exact ⟨handed, rfl⟩
    · simp only [allocated, ok_bind, bind_eq_ok, Except.ok.injEq, Prod.mk.injEq] at step
      obtain ⟨_, -, rfl, rfl⟩ := step
      exact handed.boxNewIn boxed
    · simp [allocated] at step

theorem insertAll {self self' : RBTreeAlloc} {areas : List Region}
    (handed : HandedOut heap (nodes self ++ blocks))
    (step : self.insertAll heap areas = .ok (self', heap')) :
    HandedOut heap' (nodes self' ++ blocks) ∧ heap'.span = heap.span := by
  induction areas generalizing self heap with
  | nil =>
      obtain ⟨rfl, rfl⟩ := Prod.mk.inj (Except.ok.inj step)
      exact ⟨handed, rfl⟩
  | cons area areas induction =>
      simp only [RBTreeAlloc.insertAll, bind_eq_ok, Prod.exists] at step
      obtain ⟨mid, heapMid, first, rest⟩ := step
      obtain ⟨handedMid, same⟩ := handed.insert first
      obtain ⟨handed', same'⟩ := induction handedMid rest
      exact ⟨handed', same'.trans same⟩

end HandedOut

/-! ## The second initialiser -/

/-- The first loop of `TreeAlloc::init`: the bump heap is cut off the area that starts with it. -/
def cutBumpHeap (heap : BumpHeap) : List Region → Except Fault (List Region)
  | [] => .ok []
  | r :: areas => do
      let r ← if r.base = heap.base then do
          let base ← Usize.add r.base heap.size
          let size ← Usize.sub r.size heap.size
          .ok ⟨base, size⟩
        else .ok r
      let areas ← cutBumpHeap heap areas
      .ok (r :: areas)

/-- `TreeAlloc::init`: the regions it inserts, the tree and what it leaves of the bump heap. -/
def TreeAlloc.init (boot : BootInfo) (tree : RBTreeAlloc) (heap : BumpHeap) :
    Except Fault (List Region × RBTreeAlloc × BumpHeap) := do
  let areas ← unwrap (← boot.findHeapAreas 128)
  let areas ← cutBumpHeap heap areas
  let (tree, heap) ← tree.insertAll heap areas
  .ok (areas, tree, heap)

/-- The part of an area that the bump heap leaves. -/
def BumpHeap.rest (heap : BumpHeap) (area : Region) : Region :=
  ⟨area.base + heap.size, area.size - heap.size⟩

theorem cutBumpHeap_apart {heap : BumpHeap} {areas areas' : List Region}
    (away : ∀ r ∈ areas, r.base ≠ heap.base) (cut : cutBumpHeap heap areas = .ok areas') :
    areas' = areas := by
  induction areas generalizing areas' with
  | nil => exact (Except.ok.inj cut).symm
  | cons r areas induction =>
      simp only [cutBumpHeap, if_neg (away r List.mem_cons_self), ok_bind, bind_eq_ok,
        Except.ok.injEq] at cut
      obtain ⟨rest, inner, rfl⟩ := cut
      rw [induction (fun q member => away q (List.mem_cons_of_mem _ member)) inner]

/-- Only the area that starts with the bump heap is cut. -/
theorem cutBumpHeap_middle {heap : BumpHeap} {before after areas' : List Region} {area : Region}
    (start : area.base = heap.base)
    (away : ∀ r ∈ before ++ after, r.base ≠ heap.base)
    (cut : cutBumpHeap heap (before ++ area :: after) = .ok areas') :
    areas' = before ++ heap.rest area :: after := by
  induction before generalizing areas' with
  | nil =>
      simp only [List.nil_append, cutBumpHeap, if_pos start, bind_eq_ok, Usize.add_eq_ok,
        Usize.sub_eq_ok, Except.ok.injEq] at cut
      obtain ⟨_, ⟨-, rfl⟩, _, ⟨-, rfl⟩, _, rfl, rest, inner, rfl⟩ := cut
      rw [cutBumpHeap_apart (fun q member => away q (by simpa using member)) inner]
      rfl
  | cons r before induction =>
      simp only [List.cons_append, cutBumpHeap, if_neg (away r (by simp)), ok_bind, bind_eq_ok,
        Except.ok.injEq] at cut
      obtain ⟨rest, inner, rfl⟩ := cut
      have away' : ∀ q ∈ before ++ after, q.base ≠ heap.base :=
        fun q member => away q (List.mem_cons_of_mem _ member)
      rw [induction away' inner, List.cons_append]

def Entry.span (entry : Entry) : Span := ⟨entry.base, entry.length⟩

/-- The entries of the memory map do not meet and none is empty. -/
structure DisjointMap (boot : BootInfo) : Prop where
  apart : ∀ entries ∈ boot.memoryMap,
    entries.Pairwise fun entry entry' => Disjoint entry.span.addresses entry'.span.addresses
  positive : ∀ entries ∈ boot.memoryMap, ∀ entry ∈ entries, 0 < entry.length

/-- Where the bump heap lies: at the start of an accepted area that is larger. -/
structure Chosen (boot : BootInfo) (heap : BumpHeap) (before : List Region) (area : Region)
    (after : List Region) : Prop where
  /-- The area is one of the accepted ones. -/
  split : boot.acceptedAreas = before ++ area :: after
  base : area.base = heap.base
  size : heap.size < area.size

/-- `init_bump_alloc` sets up an empty bump heap at the start of an area. -/
theorem initBumpAlloc_chosen {boot : BootInfo} {heap : BumpHeap}
    (initialised : boot.initBumpAlloc = .ok (some heap)) :
    heap.next = heap.base ∧ ∃ before area after, Chosen boot heap before area after := by
  unfold BootInfo.initBumpAlloc at initialised
  split at initialised
  · simp at initialised
  · simp at initialised
  · rename_i areas found
    split at initialised
    · simp at initialised
    · rename_i area suitable
      obtain rfl := Option.some.inj (Except.ok.inj initialised)
      obtain ⟨before, after, rfl⟩ := List.append_of_mem (List.mem_of_find?_eq_some suitable)
      have large : mb 5 ≤ area.size := by simpa using List.find?_some suitable
      refine ⟨rfl, before, area, after, (BootInfo.findHeapAreas_eq_ok found).symm, rfl, ?_⟩
      have smaller : mb 4 < mb 5 := by decide
      exact smaller.trans_le large

section Areas

variable {boot : BootInfo} (disjoint : DisjointMap boot)
include disjoint

theorem DisjointMap.acceptedAreas_apart :
    boot.acceptedAreas.Pairwise fun r r' => Disjoint r.addresses r'.addresses := by
  unfold BootInfo.acceptedAreas
  split
  · rename_i entries hhdm hasMap hasOffset
    rw [List.pairwise_map]
    refine (List.Pairwise.filter _ (disjoint.apart entries hasMap)).imp ?_
    intro entry entry' apart
    -- The direct map shifts both areas by the same offset.
    rw [Span.disjoint_iff] at apart ⊢
    intro address above below above' below'
    simp only [Entry.span, Span.stop] at *
    exact apart (address - hhdm) (by omega) (by omega) (by omega) (by omega)
  · exact List.Pairwise.nil

theorem DisjointMap.acceptedAreas_positive : ∀ r ∈ boot.acceptedAreas, 0 < r.size := by
  unfold BootInfo.acceptedAreas
  split
  · rename_i entries hhdm hasMap hasOffset
    intro r member
    obtain ⟨entry, listed, rfl⟩ := List.mem_map.mp member
    exact disjoint.positive entries hasMap entry (List.mem_filter.mp listed).1
  · simp

variable {heap : BumpHeap} {before after : List Region} {area : Region}

theorem DisjointMap.away (chosen : Chosen boot heap before area after) :
    ∀ r ∈ before ++ after, r.base ≠ heap.base := by
  have apart := disjoint.acceptedAreas_apart
  have positive := disjoint.acceptedAreas_positive
  rw [chosen.split] at apart positive
  obtain ⟨-, beforePairs, afterPairs⟩ := Span.pairwise_middle.mp apart
  have inArea : area.base ∈ area.addresses := ⟨le_rfl, by
    have occupied := positive area (by simp)
    simp only [Span.stop]
    omega⟩
  rw [← chosen.base]
  intro r member same
  have inOther : area.base ∈ r.addresses := ⟨same.le, by
    have occupied := positive r (by
      rw [List.mem_append] at member
      simp only [List.mem_append, List.mem_cons]
      tauto)
    simp only [Span.stop]
    omega⟩
  rcases List.mem_append.mp member with member | member
  · exact Set.disjoint_left.mp (beforePairs r member) inOther inArea
  · exact Set.disjoint_left.mp (afterPairs r member) inArea inOther

theorem DisjointMap.disjoint_rest (chosen : Chosen boot heap before area after) :
    Disjoint heap.span.addresses (Span.cover (before ++ heap.rest area :: after)) := by
  have apart := disjoint.acceptedAreas_apart
  rw [chosen.split] at apart
  obtain ⟨-, beforePairs, afterPairs⟩ := Span.pairwise_middle.mp apart
  have small := chosen.size
  have inside : heap.span.addresses ⊆ area.addresses := by
    refine Span.addresses_subset chosen.base.le ?_
    simp only [BumpHeap.span, Span.stop, chosen.base]
    omega
  rw [Span.disjoint_cover]
  intro r member
  rw [List.mem_append, List.mem_cons] at member
  rcases member with member | rfl | member
  · exact ((beforePairs r member).mono_right inside).symm
  · refine Span.disjoint_of_stop_le ?_
    rw [BumpHeap.rest, chosen.base]
    exact le_rfl
  · exact (afterPairs r member).mono_left inside

omit disjoint in
/-- Together with the bump heap the remaining regions cover the accepted areas. -/
theorem Chosen.cover_rest (chosen : Chosen boot heap before area after) :
    Span.cover (before ++ heap.rest area :: after) ∪ heap.span.addresses =
      Span.cover boot.acceptedAreas := by
  have joined : heap.span.addresses ∪ (heap.rest area).addresses = area.addresses := by
    have parts := Span.addresses_append heap.base heap.size (area.size - heap.size)
    rw [Nat.add_sub_of_le chosen.size.le] at parts
    rw [BumpHeap.span, BumpHeap.rest, chosen.base, parts, ← chosen.base]
  rw [chosen.split, Span.cover_append, Span.cover_append, Span.cover_cons, Span.cover_cons,
    ← joined]
  ext address
  simp only [Set.mem_union]
  tauto

end Areas

/-! ## Runs -/

/-- `KernelAllocMode`. -/
inductive KernelAllocMode where
  | uninit
  | bump
  | tree
deriving DecidableEq, Repr

/-- The heaps after `init_bump_alloc`. -/
structure BootState where
  heap : BumpHeap
  /-- `TREE_ALLOCATOR_DATA`. -/
  tree : RBTreeAlloc
  /-- `KERNEL_ALLOC_MODE`. -/
  mode : KernelAllocMode
  /-- The blocks of the bump heap, most recent first. -/
  blocks : List Block
  /-- The regions that `TreeAlloc::init` inserted. -/
  inserted : List Region

/-- What happens to the heaps. -/
inductive BootCall where
  /-- `BumpAlloc::alloc`, for the kernel or for a node of the tree. -/
  | alloc (layout : Layout)
  /-- `TreeAlloc::init`. -/
  | init

namespace BootState

def Permits (s : BootState) : BootCall → Prop
  | .alloc _ => True
  | .init => s.mode = .bump

instance (s : BootState) (call : BootCall) : Decidable (s.Permits call) :=
  match call with
  | .alloc _ => inferInstanceAs (Decidable True)
  | .init => inferInstanceAs (Decidable (s.mode = .bump))

def perform (boot : BootInfo) (s : BootState) : BootCall → Except Fault BootState
  | .alloc layout => do
      let (address, heap) ← BumpAlloc.alloc s.heap layout
      .ok { s with
        heap := heap
        blocks := if address = 0 then s.blocks else ⟨address, layout⟩ :: s.blocks }
  | .init => do
      let (areas, tree, heap) ← TreeAlloc.init boot s.tree s.heap
      .ok ⟨heap, tree, .tree, HandedOut.nodes tree ++ s.blocks, areas⟩

end BootState

/-- The runs of the heaps on a machine. -/
def bootSystem (boot : BootInfo) : Behaviour BootState BootCall :=
  .ofPerform (fun s => ∃ heap, boot.initBumpAlloc = .ok (some heap) ∧
      s = ⟨heap, .new, .bump, [], []⟩)
    fun s call => (s.perform boot call).toOption

/-- The bump heap and the tree heap do not overlap and leave nothing of the memory out. -/
structure HeapsApart (boot : BootInfo) (s : BootState) : Prop where
  /-- The bump heap lies where `init_bump_alloc` put it. -/
  heap : ∃ heap, boot.initBumpAlloc = .ok (some heap) ∧ s.heap.span = heap.span
  aligned : ∀ block ∈ s.blocks, block.layout.align ∣ block.address
  inside : ∀ block ∈ s.blocks, s.heap.base ≤ block.address ∧ block.span.stop ≤ s.heap.span.stop
  apart : s.blocks.Pairwise fun block other => Disjoint block.span.addresses other.span.addresses
  /-- A call that fails leaves the cursor where it is. -/
  fails : ∀ layout heap, BumpAlloc.alloc s.heap layout = .ok (0, heap) → heap.next = s.heap.next
  /-- A call returns unless rounding the cursor up overflows. -/
  returns : ∀ layout fault, BumpAlloc.alloc s.heap layout = .error fault →
    BumpAlloc.alignCursor s.heap.next layout.align = .error fault
  /-- Blocks do not meet the regions of the tree. -/
  separate : ∀ block ∈ s.blocks, ∀ r ∈ s.inserted, Disjoint block.span.addresses r.addresses
  /-- The bump heap and those regions cover the accepted areas. -/
  cover : s.mode = .tree →
    Span.cover s.inserted ∪ s.heap.span.addresses = Span.cover boot.acceptedAreas

/-- The invariant of these runs. -/
structure Booted (boot : BootInfo) (s : BootState) : Prop where
  /-- The bump heap lies where `init_bump_alloc` put it. -/
  heap : ∃ heap, boot.initBumpAlloc = .ok (some heap) ∧ s.heap.span = heap.span
  handed : HandedOut s.heap s.blocks
  fresh : s.mode ≠ .tree → s.tree = .new ∧ s.inserted = []
  /-- After it the tree has all that the bump heap leaves. -/
  inserted : s.mode = .tree → ∃ before area after, Chosen boot s.heap before area after ∧
    s.inserted = before ++ s.heap.rest area :: after

section Runs

variable {boot : BootInfo} {s : BootState}

/-- Wherever the heap of a run stands, it is the first part of an accepted area. -/
theorem Booted.chosen (booted : Booted boot s) :
    ∃ before area after, Chosen boot s.heap before area after := by
  obtain ⟨heap, initialised, same⟩ := booted.heap
  obtain ⟨-, before, area, after, chosen⟩ := initBumpAlloc_chosen initialised
  obtain ⟨base, size⟩ := Span.mk.inj same
  exact ⟨before, area, after, chosen.split, chosen.base.trans base.symm, size.trans_lt chosen.size⟩

theorem Booted.start {heap : BumpHeap} (initialised : boot.initBumpAlloc = .ok (some heap)) :
    Booted boot ⟨heap, .new, .bump, [], []⟩ where
  heap := ⟨heap, initialised, rfl⟩
  handed := by
    obtain ⟨start, -⟩ := initBumpAlloc_chosen initialised
    refine ⟨?_, by simp, by simp, .nil⟩
    rw [start]
    exact Nat.le_add_right _ _
  fresh _ := ⟨rfl, rfl⟩
  inserted entered := by simp at entered

theorem Booted.step (disjoint : DisjointMap boot) {s' : BootState} {call : BootCall}
    (booted : Booted boot s) (permitted : s.Permits call)
    (performed : s.perform boot call = .ok s') : Booted boot s' := by
  obtain ⟨heap, initialised, same⟩ := booted.heap
  cases call with
  | alloc layout =>
      simp only [BootState.perform, bind_eq_ok, Prod.exists, Except.ok.injEq] at performed
      obtain ⟨address, heap', allocated, rfl⟩ := performed
      have both :
          HandedOut heap' (if address = 0 then s.blocks else ⟨address, layout⟩ :: s.blocks) ∧
            heap'.span = s.heap.span := by
        split_ifs with null
        · subst null
          obtain rfl := BumpAlloc.alloc_null allocated
          exact ⟨booted.handed, rfl⟩
        · exact booted.handed.alloc null allocated
      obtain ⟨handed, kept⟩ := both
      refine ⟨⟨heap, initialised, kept.trans same⟩, handed, booted.fresh, fun entered => ?_⟩
      obtain ⟨before, area, after, chosen, inserted⟩ := booted.inserted entered
      obtain ⟨base, size⟩ := Span.mk.inj kept
      refine ⟨before, area, after, ⟨chosen.split, chosen.base.trans base.symm,
        size.trans_lt chosen.size⟩, ?_⟩
      rw [inserted, BumpHeap.rest, BumpHeap.rest, size]
  | init =>
      have bump : s.mode = .bump := permitted
      obtain ⟨new, -⟩ := booted.fresh (by simp [bump])
      simp only [BootState.perform, TreeAlloc.init, bind_eq_ok, unwrap_eq_ok, Prod.exists,
        Except.ok.injEq, Prod.mk.injEq] at performed
      obtain ⟨_, _, _, ⟨_, found, areas, rfl, _, cut, tree, heap', filled, rfl, rfl, rfl⟩, rfl⟩ :=
        performed
      obtain rfl := BootInfo.findHeapAreas_eq_ok found
      obtain ⟨before, area, after, chosen⟩ := booted.chosen
      rw [chosen.split] at cut
      obtain rfl := cutBumpHeap_middle chosen.base (disjoint.away chosen) cut
      have handed : HandedOut s.heap (HandedOut.nodes s.tree ++ s.blocks) := by
        rw [new]
        exact booted.handed
      obtain ⟨handed', kept⟩ := handed.insertAll filled
      obtain ⟨base, size⟩ := Span.mk.inj kept
      refine ⟨⟨heap, initialised, kept.trans same⟩, handed', by simp, fun _ => ?_⟩
      refine ⟨before, area, after, ⟨chosen.split, chosen.base.trans base.symm,
        size.trans_lt chosen.size⟩, ?_⟩
      rw [BumpHeap.rest, BumpHeap.rest, size]

theorem Booted.heapsApart (disjoint : DisjointMap boot) (booted : Booted boot s) :
    HeapsApart boot s where
  heap := booted.heap
  aligned := booted.handed.aligned
  inside block member := by
    obtain ⟨above, below⟩ := booted.handed.inside block member
    exact ⟨above, below.trans booted.handed.cursor⟩
  apart := booted.handed.apart.imp fun order => (Span.disjoint_of_stop_le order).symm
  fails layout heap failed := congrArg BumpHeap.next (BumpAlloc.alloc_null failed)
  returns layout fault := BumpAlloc.alignCursor_of_alloc
  separate block member r listed := by
    have entered : s.mode = .tree := by
      by_contra mode
      rw [(booted.fresh mode).2] at listed
      simp at listed
    obtain ⟨before, area, after, chosen, inserted⟩ := booted.inserted entered
    obtain ⟨above, below⟩ := booted.handed.inside block member
    have within : block.span.addresses ⊆ s.heap.span.addresses :=
      Span.addresses_subset above (below.trans booted.handed.cursor)
    rw [inserted] at listed
    exact (Span.disjoint_cover.mp (disjoint.disjoint_rest chosen) r listed).mono_left within
  cover entered := by
    obtain ⟨before, area, after, chosen, inserted⟩ := booted.inserted entered
    rw [inserted]
    exact chosen.cover_rest

/-- In every state of every run the bump heap and the tree heap are apart and share the accepted
areas between them. -/
theorem heapsApart_of_reach (disjoint : DisjointMap boot)
    (reach : (bootSystem boot).Reach BootState.Permits s) : HeapsApart boot s := by
  have booted : Booted boot s := by
    refine reach.invariant ?_ fun s call next booted permitted taken => ?_
    · rintro s ⟨heap, initialised, rfl⟩
      exact .start initialised
    · exact booted.step disjoint permitted (toOption_eq_some.mp taken)
  exact booted.heapsApart disjoint

end Runs

/-- A memory map with a hole, of which the second usable area is large enough for the bump heap. -/
def sampleMap : BootInfo where
  memoryMap := some [⟨0, 0xA0000, .usable⟩, ⟨0x100000, 0x100000, .bootloaderReclaimable⟩,
    ⟨0x200000, 0x100000, .reserved⟩, ⟨0x300000, 0x600000, .usable⟩]
  hhdmOffset := some 0x10000000
  bounded := by decide

theorem sampleMap_disjoint : DisjointMap sampleMap where
  apart := by
    rintro _ ⟨⟩
    refine List.Pairwise.imp (fun order => Span.disjoint_of_stop_le order) ?_
    decide
  positive := by
    rintro _ ⟨⟩
    decide

/-- Two blocks, the hand-over, a request that fails and one more block. -/
def sampleCalls : List BootCall :=
  [.alloc ⟨0x100, 8, TreeRegion.layout.power, by decide⟩,
    .alloc ⟨0x10, 0x1000, ⟨12, rfl⟩, by decide⟩, .init,
    .alloc ⟨0x800000, 1, Nat.isPowerOfTwo_one, by decide⟩,
    .alloc ⟨0x100, 8, TreeRegion.layout.power, by decide⟩]

/-- The nodes of the two regions lie between the blocks, and the regions start after the first
megabyte and after the bump heap. -/
theorem heapsApart_of_reach_calls :
    ∃ s, (bootSystem sampleMap).Reach BootState.Permits s ∧ s.mode = .tree ∧
      s.blocks.map (·.address) = [0x10301090, 0x10301050, 0x10301010, 0x10301000, 0x10300000] ∧
      s.inserted = [⟨0x10100000, 0x100000⟩, ⟨0x10700000, 0x200000⟩] ∧ HeapsApart sampleMap s := by
  have booted : ∃ heap, sampleMap.initBumpAlloc = .ok (some heap) ∧
      (Behaviour.run (fun s call => (s.perform sampleMap call).toOption) BootState.Permits
        ⟨heap, .new, .bump, [], []⟩ sampleCalls).map
          (fun s => (s.mode, s.blocks.map (·.address), s.inserted)) =
        some (.tree, [0x10301090, 0x10301050, 0x10301010, 0x10301000, 0x10300000],
          [⟨0x10100000, 0x100000⟩, ⟨0x10700000, 0x200000⟩]) :=
    ⟨_, rfl, by decide +kernel⟩
  obtain ⟨heap, initialised, executed⟩ := booted
  have start : (bootSystem sampleMap).initial ⟨heap, .new, .bump, [], []⟩ :=
    ⟨heap, initialised, rfl⟩
  obtain ⟨s, reach, evaluated⟩ := Behaviour.exists_reach start executed
  simp only [Prod.mk.injEq] at evaluated
  obtain ⟨mode, blocks, inserted⟩ := evaluated
  exact ⟨s, reach, mode, blocks, inserted, heapsApart_of_reach sampleMap_disjoint reach⟩

end Blubos
