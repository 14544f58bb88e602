import Blubos.Allocator.Conservation
import Blubos.Allocator.FrontEnds
import Blubos.Allocator.HandOver
import Blubos.Allocator.Paging

/-!
# The memory of the kernel

Everything the kernel allocates from the hand-over of the boot loader on: its stack and the nodes of
the tree from the bump heap, what the global allocator and the allocator of the controller hand out,
and the frames of page tables.  On a machine whose accepted areas do not touch, no two of these ever
share an address.
-/

namespace Blubos

/-- `alloc_stack`: the top of a new stack. -/
def allocStack (heap : BumpHeap) (size : ℕ) : Except Fault (Option ℕ × BumpHeap) := do
  let layout ← unwrap (Layout.fromSizeAlign size 16)
  let (ptr, heap) ← BumpAlloc.alloc heap layout
  if ptr = 0 then
    .ok (none, heap)
  else do
    let top ← Usize.add ptr size
    .ok (some (top &&& Usize.not 0xf), heap)

theorem frameRequest_power : Nat.isPowerOfTwo 0x1000 := ⟨12, rfl⟩

/-- The request of `allocate_frame`. -/
def frameRequest : Request := ⟨0x1000, 0x1000, frameRequest_power, none, none⟩

/-- `allocate_frame` of the tree: the physical address of a frame.  It panics when the tree has no
page or the address is no physical one. -/
def RBTreeAlloc.allocateFrame (addressing : Addressing) (self : RBTreeAlloc) (map : AddressMap)
    (hhdmOffset : Option ℕ) : Except Fault (ℕ × RBTreeAlloc) := do
  let hhdmOffset ← unwrap hhdmOffset
  let (out, self) ← self.alloc map frameRequest
  match out with
  | none => .error .assertion
  | some virt => do
      let phys ← Usize.sub virt hhdmOffset
      let phys ← addressing.physAddr phys
      .ok (addressing.containingAddress phys, self)

def boxSpans (tree : RBTreeAlloc) : List Span := tree.taken.map (⟨·, TreeRegion.layout.size⟩)

structure Statics extends KernelHeap where
  /-- `KERNEL_ALLOC_MODE`. -/
  allocMode : KernelAllocMode

/-- `GlobalAlloc::alloc` for `KernelAlloc`, with zero for the null pointer. -/
def KernelAlloc.alloc (s : Statics) (layout : Layout) : Except Fault (ℕ × Statics) :=
  match s.allocMode with
  | .uninit => .error .assertion
  | .bump => do
      let (ptr, bump) ← BumpAlloc.alloc s.bump layout
      .ok (ptr, { s with bump := bump })
  | .tree => do
      let (ptr, heap) ← TreeAlloc.alloc ⟨none, none⟩ s.toKernelHeap layout
      .ok (ptr, { s with toKernelHeap := heap })

/-- `TREE_ALLOCATOR_DATA.free`. -/
def KernelHeap.freeTree (heap : KernelHeap) (block : Span) : Except Fault KernelHeap := do
  let (tree, bump) ← heap.tree.free heap.bump block.base block.size
  .ok { heap with tree := tree, bump := bump }

/-- `GlobalAlloc::dealloc` for `KernelAlloc`.  The bump allocator takes nothing back. -/
def KernelAlloc.dealloc (s : Statics) (block : Span) : Except Fault Statics :=
  match s.allocMode with
  | .uninit => .error .assertion
  | .bump => .ok s
  | .tree => do
      let heap ← s.toKernelHeap.freeTree block
      .ok { s with toKernelHeap := heap }

/-! ## Runs of the kernel -/

/-- The allocators with all that was handed out. -/
structure KernelMemory extends Statics where
  kernelStacks : List Span
  /-- Physical addresses of the frames of page tables. -/
  frames : List ℕ
  /-- Blocks of the global allocator and of the controller's allocator that were not freed. -/
  live : List Span

/-- What happens to the memory. -/
inductive KernelCall where
  /-- `alloc_stack`. -/
  | stack (size : ℕ)
  /-- `TreeAlloc::init`. -/
  | init
  /-- `PAGE_TABLE_MAPPER` is initialised, or its tables change. -/
  | translate (map : AddressMap)
  /-- `XHCI_ADDRESS_MODE` is set. -/
  | addressMode (mode : AddressMode)
  /-- `KernelAlloc::alloc`. -/
  | alloc (layout : Layout)
  /-- `KernelAlloc::dealloc`. -/
  | dealloc (block : Span)
  /-- `XhciAllocator::allocate`. -/
  | xhciAllocate (self : XhciAllocator) (layout : Layout)
  /-- `XhciAllocator::deallocate`. -/
  | xhciDeallocate (block : Span)
  /-- `allocate_frame`. -/
  | frame

namespace KernelMemory

/-- What callers promise: the tree is set up once and nothing is freed through it before, no
allocation is empty, and only live blocks are freed, with their size. -/
def Permits (m : KernelMemory) : KernelCall → Prop
  | .init => m.allocMode = .bump
  | .alloc layout | .xhciAllocate _ layout => 0 < layout.size
  | .dealloc block => block ∈ m.live
  | .xhciDeallocate block => block ∈ m.live ∧ m.allocMode = .tree
  | _ => True

instance (m : KernelMemory) (call : KernelCall) : Decidable (m.Permits call) :=
  match call with
  | .init => inferInstanceAs (Decidable (m.allocMode = .bump))
  | .alloc layout | .xhciAllocate _ layout => inferInstanceAs (Decidable (0 < layout.size))
  | .dealloc block => inferInstanceAs (Decidable (block ∈ m.live))
  | .xhciDeallocate block => inferInstanceAs (Decidable (block ∈ m.live ∧ m.allocMode = .tree))
  | .stack _ | .translate _ | .addressMode _ | .frame => inferInstanceAs (Decidable True)

/-- A block that is not null becomes live. -/
def own (m : KernelMemory) (ptr size : ℕ) : KernelMemory :=
  { m with live := if ptr = 0 then m.live else ⟨ptr, size⟩ :: m.live }

def perform (addressing : Addressing) (boot : BootInfo) (m : KernelMemory) :
    KernelCall → Except Fault KernelMemory
  | .stack size => do
      let (top, bump) ← allocStack m.bump size
      .ok { m with
        bump := bump
        kernelStacks :=
          if top.isSome then ⟨bump.next - size, size⟩ :: m.kernelStacks else m.kernelStacks }
  | .init => do
      let (_, tree, bump) ← TreeAlloc.init boot m.tree m.bump
      .ok { m with tree := tree, bump := bump, allocMode := .tree }
  | .translate map => .ok { m with map := map }
  | .addressMode mode => .ok { m with mode := some mode }
  | .alloc layout => do
      let (ptr, s) ← KernelAlloc.alloc m.toStatics layout
      .ok ({ m with toStatics := s }.own ptr layout.size)
  | .dealloc block => do
      let s ← KernelAlloc.dealloc m.toStatics block
      .ok { m with toStatics := s, live := m.live.erase block }
  | .xhciAllocate self layout => do
      let (result, heap) ← self.allocate m.toKernelHeap layout
      match result with
      | .ok block => .ok ({ m with toKernelHeap := heap }.own block.base layout.size)
      | .error _ => .ok { m with toKernelHeap := heap }
  | .xhciDeallocate block => do
      let heap ← m.toKernelHeap.freeTree block
      .ok { m with toKernelHeap := heap, live := m.live.erase block }
  | .frame => do
      let (frame, tree) ← m.tree.allocateFrame addressing m.map boot.hhdmOffset
      .ok { m with tree := tree, frames := frame :: m.frames }

/-- The page of the direct map through which a frame is written. -/
def page (boot : BootInfo) (frame : ℕ) : Span := ⟨frame + boot.hhdmOffset.getD 0, pageSize⟩

def nodes (m : KernelMemory) : List Span := boxSpans m.tree

/-- All that was handed out: nodes, kernelStacks, frames and live blocks. -/
def objects (boot : BootInfo) (m : KernelMemory) : List Span :=
  m.nodes ++ m.kernelStacks ++ (m.frames.map (page boot) ++ m.live)

/-- What the allocators have still to give: the regions of the tree and the rest of the bump
heap. -/
def unused (m : KernelMemory) : Set ℕ :=
  Span.cover (regions m.tree.root) ∪ Set.Ico m.bump.next m.bump.span.stop

end KernelMemory

/-- The runs of the kernel's memory on a machine. -/
def memorySystem (addressing : Addressing) (boot : BootInfo) :
    Behaviour KernelMemory KernelCall :=
  .ofPerform (fun m => ∃ bump map, boot.initBumpAlloc = .ok (some bump) ∧
      m = ⟨⟨⟨bump, .new, map, none⟩, .bump⟩, [], [], []⟩)
    fun m call => (m.perform addressing boot call).toOption

/-- No two things that were handed out overlap, and none of them is still to be given. -/
structure MemorySafe (boot : BootInfo) (m : KernelMemory) : Prop where
  apart : (m.objects boot).Pairwise fun object other => Disjoint object.addresses other.addresses
  /-- No allocator has an address of an object to give. -/
  used : ∀ object ∈ m.objects boot, Disjoint object.addresses m.unused
  inside : ∀ object ∈ m.objects boot, object.addresses ⊆ Span.cover boot.acceptedAreas
  /-- Every node of the tree and of its freelist lives in a box of its own. -/
  boxed : (boxes m.tree.root ++ boxes m.tree.freelist).Perm (m.nodes.map (·.base))
  /-- Frames start at multiples of the page size. -/
  aligned : ∀ frame ∈ m.frames, pageSize ∣ frame

/-! ## The bump heap -/

/-- Spans that were cut off a bump heap, with some addresses that are known elsewhere. -/
structure CutOff (heap : BumpHeap) (spans : List Span) (known : Set ℕ) : Prop where
  cursor : heap.next ≤ heap.span.stop
  inside : ∀ span ∈ spans, heap.base ≤ span.base ∧ span.stop ≤ heap.next
  apart : spans.Pairwise fun span other => Disjoint span.addresses other.addresses
  foreign : ∀ span ∈ spans, Disjoint span.addresses known
  /-- Nor is what lies ahead of the cursor. -/
  ahead : Disjoint (Set.Ico heap.next heap.span.stop) known

/-- The cursor of a bump heap moves over a block. -/
structure Advances (heap : BumpHeap) (block : Span) (heap' : BumpHeap) : Prop where
  /-- The block starts at or after the cursor. -/
  starts : heap.next ≤ block.base
  moves : heap'.next = block.stop
  /-- That is not past the end of the heap. -/
  room : heap'.next ≤ heap.span.stop
  same : heap'.span = heap.span

theorem BumpAlloc.alloc_advances {heap heap' : BumpHeap} {layout : Layout} {ptr : ℕ}
    (nonnull : ptr ≠ 0) (allocated : BumpAlloc.alloc heap layout = .ok (ptr, heap')) :
    Advances heap ⟨ptr, layout.size⟩ heap' := by
  rcases BumpAlloc.alloc_cases allocated with ⟨null, -⟩ | ⟨starts, -, moves, room, same⟩
  · exact absurd null nonnull
  · exact ⟨starts, moves, room, same⟩

theorem BumpAlloc.boxNewIn_advances {heap heap' : BumpHeap} {layout : Layout} {box : ℕ}
    (boxed : BumpAlloc.boxNewIn heap layout = .ok (box, heap')) :
    Advances heap ⟨box, layout.size⟩ heap' := by
  obtain ⟨null, allocated⟩ := BumpAlloc.alloc_of_boxNewIn boxed
  exact BumpAlloc.alloc_advances null allocated

namespace Advances

variable {heap heap' : BumpHeap} {block : Span}

theorem subset_ahead (advances : Advances heap block heap') :
    block.addresses ⊆ Set.Ico heap.next heap.span.stop := by
  rintro address ⟨above, below⟩
  exact ⟨advances.starts.trans above, below.trans_le (advances.moves ▸ advances.room)⟩

theorem ahead_subset (advances : Advances heap block heap') :
    Set.Ico heap'.next heap'.span.stop ⊆ Set.Ico heap.next heap.span.stop := by
  rintro address ⟨above, below⟩
  have starts := advances.starts
  have moves := advances.moves
  have order := block.base_le_stop
  exact ⟨by omega, by rwa [← advances.same]⟩

theorem subset_span (advances : Advances heap block heap') :
    block.addresses ⊆ heap.span.addresses :=
  advances.subset_ahead.trans fun _ inside => ⟨heap.base_le_next.trans inside.1, inside.2⟩

end Advances

namespace CutOff

variable {heap heap' : BumpHeap} {spans : List Span} {known : Set ℕ} {block : Span}

theorem mono (cutOff : CutOff heap spans known) {known' : Set ℕ} (smaller : known' ⊆ known) :
    CutOff heap spans known' :=
  ⟨cutOff.cursor, cutOff.inside, cutOff.apart,
    fun span member => (cutOff.foreign span member).mono_right smaller,
    cutOff.ahead.mono_right smaller⟩

theorem perm (cutOff : CutOff heap spans known) {spans' : List Span} (perm : spans.Perm spans') :
    CutOff heap spans' known :=
  ⟨cutOff.cursor, fun span member => cutOff.inside span (perm.symm.subset member),
    cutOff.apart.perm perm fun apart => apart.symm,
    fun span member => cutOff.foreign span (perm.symm.subset member), cutOff.ahead⟩

theorem subset_span (cutOff : CutOff heap spans known) {span : Span} (member : span ∈ spans) :
    span.addresses ⊆ heap.span.addresses := by
  obtain ⟨above, below⟩ := cutOff.inside span member
  exact Span.addresses_subset above (below.trans cutOff.cursor)

theorem union (cutOff : CutOff heap spans known) {set : Set ℕ}
    (outside : Disjoint heap.span.addresses set) : CutOff heap spans (known ∪ set) := by
  refine ⟨cutOff.cursor, cutOff.inside, cutOff.apart, fun span member => ?_, ?_⟩
  · exact Set.disjoint_union_right.mpr ⟨cutOff.foreign span member,
      outside.mono_left (cutOff.subset_span member)⟩
  · refine Set.disjoint_union_right.mpr ⟨cutOff.ahead, outside.mono_left ?_⟩
    exact fun _ inside => ⟨heap.base_le_next.trans inside.1, inside.2⟩

theorem cons (cutOff : CutOff heap spans known) (advances : Advances heap block heap') :
    CutOff heap' (block :: spans) known := by
  have base : heap'.base = heap.base := congrArg Span.base advances.same
  have moves := advances.moves
  have order := block.base_le_stop
  have starts := advances.starts
  refine ⟨advances.same ▸ advances.room, ?_, ?_, ?_, cutOff.ahead.mono_left advances.ahead_subset⟩
  · refine List.forall_mem_cons.mpr ⟨⟨?_, moves.ge⟩, fun span member => ?_⟩
    · exact base ▸ heap.base_le_next.trans starts
    · obtain ⟨above, below⟩ := cutOff.inside span member
      exact ⟨base ▸ above, by omega⟩
  · refine List.pairwise_cons.mpr ⟨fun span member => ?_, cutOff.apart⟩
    exact (Span.disjoint_of_stop_le ((cutOff.inside span member).2.trans starts)).symm
  · exact List.forall_mem_cons.mpr
      ⟨cutOff.ahead.mono_left advances.subset_ahead, cutOff.foreign⟩

theorem insert (cutOff : CutOff heap spans known) (advances : Advances heap block heap') :
    CutOff heap' spans (known ∪ block.addresses) := by
  obtain ⟨cursor, inside, apart, foreign, ahead⟩ := cutOff.cons advances
  refine ⟨cursor, fun span member => inside span (List.mem_cons_of_mem _ member),
    (List.pairwise_cons.mp apart).2, fun span member => ?_, ?_⟩
  · exact Set.disjoint_union_right.mpr ⟨foreign span (List.mem_cons_of_mem _ member),
      ((List.pairwise_cons.mp apart).1 span member).symm⟩
  · refine Set.disjoint_union_right.mpr ⟨ahead, (Set.disjoint_left.mpr ?_).symm⟩
    rintro address ⟨-, below⟩ ⟨above, -⟩
    have moves := advances.moves
    omega

end CutOff

section Tree

variable {areas : List Region} {s s' : HeapState} {spans : List Span} {known : Set ℕ}

/-- An insertion cuts at most one box off the bump heap. -/
theorem CutOff.insertNode {self self' : RBTreeAlloc} {bump bump' : BumpHeap} {region : Region}
    (cutOff : CutOff bump (boxSpans self ++ spans) known)
    (step : self.insert bump region = .ok (self', bump')) :
    CutOff bump' (boxSpans self' ++ spans) known ∧ bump'.span = bump.span := by
  rw [RBTreeAlloc.insert] at step
  split_ifs at step
  · obtain ⟨rfl, rfl⟩ := Prod.mk.inj (Except.ok.inj step)
    exact ⟨cutOff, rfl⟩
  · rcases allocNode_cases self bump region.base region.size with
      ⟨_, _, _, _, -, allocated⟩ | ⟨-, ⟨box, bump', boxed, allocated⟩ | ⟨fault, -, allocated⟩⟩
    · simp only [allocated, ok_bind, bind_eq_ok, Except.ok.injEq, Prod.mk.injEq] at step
      obtain ⟨_, -, rfl, rfl⟩ := step
      exact ⟨cutOff, rfl⟩
    · simp only [allocated, ok_bind, bind_eq_ok, Except.ok.injEq, Prod.mk.injEq] at step
      obtain ⟨_, -, rfl, rfl⟩ := step
      have advances := BumpAlloc.boxNewIn_advances boxed
      exact ⟨cutOff.cons advances, advances.same⟩
    · simp [allocated] at step

theorem CutOff.insertAll {self self' : RBTreeAlloc} {bump bump' : BumpHeap} {areas : List Region}
    (cutOff : CutOff bump (boxSpans self ++ spans) known)
    (step : self.insertAll bump areas = .ok (self', bump')) :
    CutOff bump' (boxSpans self' ++ spans) known ∧ bump'.span = bump.span := by
  induction areas generalizing self bump with
  | nil =>
      obtain ⟨rfl, rfl⟩ := Prod.mk.inj (Except.ok.inj step)
      exact ⟨cutOff, rfl⟩
  | cons area areas induction =>
      simp only [RBTreeAlloc.insertAll, bind_eq_ok, Prod.exists] at step
      obtain ⟨mid, bumpMid, first, rest⟩ := step
      obtain ⟨cutOffMid, same⟩ := cutOff.insertNode first
      obtain ⟨cutOff', same'⟩ := induction cutOffMid rest
      exact ⟨cutOff', same'.trans same⟩

/-- No call makes an address free or live that was neither before. -/
theorem Spaced.known_shrinks {call : HeapCall} (spaced : Spaced areas s)
    (taken : (heapSystem areas).step s call s') : s'.known ⊆ s.known := by
  obtain ⟨permitted, performed⟩ := taken
  rcases HeapState.perform_cases performed with
    ⟨map, request, tree, rfl, searched, rfl⟩ | ⟨map, request, tree, a, rfl, searched, rfl⟩ |
    ⟨block, alloc, bump, rfl, freed, rfl⟩
  · cases (allocRec_spec searched).2 with
    | refused same =>
        rw [HeapState.known, HeapState.free, regions_paint, same]
        exact subset_rfl
  · rw [HeapState.known, HeapState.free, regions_paint, Span.cover_cons, ← Set.union_assoc]
    refine Set.union_subset_union_left _ ?_
    cases (allocRec_spec searched).2 with
    | @took before after _ _ r split shrunk _ serves _ _ =>
        rw [shrunk, HeapState.free, split, Span.cover_append, Span.cover_append, Span.cover_cons,
          Span.cover_cons]
        refine Set.union_subset (Set.union_subset_union_right _ (Set.union_subset_union_left _
          serves.remainder_subset)) ?_
        exact serves.block_subset.trans (Set.subset_union_left.trans Set.subset_union_right)
  · have clear := spaced.owned.clear permitted
    obtain ⟨-, grown⟩ := free_regions clear
      (fun p _ _ _ => keySorted_of_gapped spaced.gapped p.base) freed
    refine Set.union_subset (grown.trans (Set.union_subset ?_ Set.subset_union_left)) ?_
    · exact (Span.addresses_subset_cover permitted).trans Set.subset_union_right
    · refine Set.Subset.trans ?_ Set.subset_union_right
      rintro address ⟨span, member, inside⟩
      exact ⟨span, List.mem_of_mem_erase member, inside⟩

/-- A call cuts at most one box off the bump heap. -/
theorem CutOff.step {call : HeapCall} (cutOff : CutOff s.bump (boxSpans s.alloc ++ spans) s.known)
    (spaced : Spaced areas s) (taken : (heapSystem areas).step s call s') :
    CutOff s'.bump (boxSpans s'.alloc ++ spans) s'.known ∧ s'.bump.span = s.bump.span := by
  have shrinks := spaced.known_shrinks taken
  obtain ⟨permitted, performed⟩ := taken
  rcases HeapState.perform_cases performed with
    ⟨map, request, tree, rfl, searched, rfl⟩ | ⟨map, request, tree, a, rfl, searched, rfl⟩ |
    ⟨block, alloc, bump, rfl, freed, rfl⟩
  · exact ⟨cutOff.mono shrinks, rfl⟩
  · exact ⟨cutOff.mono shrinks, rfl⟩
  · obtain ⟨left, whole, -, -, merged, -⟩ := free_cases freed
    obtain ⟨kept, -, -, -, -, same, continues⟩ :=
      spaced.intact.free (spaced.owned.clear permitted) merged
        (fun k _ => keySorted_of_gapped spaced.gapped k)
        (fun k _ => keySorted_of_gapped spaced.gapped k) s.bump
    have kept' : CutOff s.bump (boxSpans kept ++ spans) s.known := by
      rw [boxSpans, same]
      exact cutOff
    obtain ⟨cutOff', span⟩ := kept'.insertNode (continues.symm.trans freed)
    exact ⟨cutOff'.mono shrinks, span⟩

theorem Spaced.relive {live : List Span} (spaced : Spaced areas s) (fewer : live.Subperm s.live) :
    Spaced areas { s with live := live } := by
  have member {block : Span} (inside : block ∈ live) : block ∈ s.live := fewer.subset inside
  obtain ⟨part, perm, sub⟩ := fewer
  obtain ⟨⟨apart, pairs, liveFree, positive, inside, liveInside⟩, intact, gapped⟩ := spaced
  refine ⟨⟨apart, ?_, ?_, ?_, inside, ?_⟩, intact, gapped⟩
  · exact (pairs.sublist sub).perm perm fun disjoint => disjoint.symm
  · exact fun block listed => liveFree block (member listed)
  · exact fun block listed => positive block (member listed)
  · exact fun block listed => liveInside block (member listed)

theorem HeapState.known_relive {live : List Span} (fewer : live.Subperm s.live) :
    ({ s with live := live } : HeapState).known ⊆ s.known :=
  Set.union_subset_union_right _ fun _ ⟨span, member, inside⟩ =>
    ⟨span, fewer.subset member, inside⟩

end Tree

/-! ## Steps of the kernel -/

/-- The tree heap as its callers see it, with the frames among the live blocks. -/
def KernelMemory.state (boot : BootInfo) (m : KernelMemory) : HeapState :=
  ⟨m.tree, m.bump, m.frames.map (KernelMemory.page boot) ++ m.live⟩

theorem KernelMemory.live_cons (boot : BootInfo) (m : KernelMemory) (block : Span) :
    (m.frames.map (KernelMemory.page boot) ++ block :: m.live).Perm
      (block :: (m.state boot).live) := List.perm_middle

theorem KernelMemory.known_cons (boot : BootInfo) (m : KernelMemory) (bump : BumpHeap)
    (block : Span) :
    (KernelMemory.state boot { m with bump := bump, live := block :: m.live }).known =
      (m.state boot).known ∪ block.addresses := by
  rw [HeapState.known, HeapState.known, Set.union_assoc]
  refine congrArg (Span.cover (m.state boot).free ∪ ·) ?_
  rw [KernelMemory.state, Span.cover_perm (m.live_cons boot block), Span.cover_cons,
    Set.union_comm]

/-- The invariant of the kernel's memory. -/
structure KernelMemory.Invariant (boot : BootInfo) (m : KernelMemory) : Prop where
  /-- The bump heap is the first part of an accepted area. -/
  chosen : ∃ before area after, Chosen boot m.bump before area after
  spaced : Spaced boot.acceptedAreas (m.state boot)
  /-- Nodes and stacks were cut off the bump heap. -/
  cutOff : CutOff m.bump (boxSpans m.tree ++ m.kernelStacks) (m.state boot).known
  /-- Before the hand-over the tree is empty and all blocks are from the bump heap. -/
  fresh : m.allocMode ≠ .tree →
    m.tree = .new ∧ (m.state boot).known ⊆ m.bump.span.addresses
  /-- Frames start at multiples of the page size. -/
  aligned : ∀ frame ∈ m.frames, pageSize ∣ frame

theorem Chosen.of_span {boot : BootInfo} {heap heap' : BumpHeap} (same : heap'.span = heap.span)
    (chosen : ∃ before area after, Chosen boot heap before area after) :
    ∃ before area after, Chosen boot heap' before area after := by
  obtain ⟨before, area, after, split, base, size⟩ := chosen
  obtain ⟨base', size'⟩ := Span.mk.inj same
  exact ⟨before, area, after, split, base.trans base'.symm, size'.trans_lt size⟩

namespace KernelMemory.Invariant

variable {boot : BootInfo} {m m' : KernelMemory}

theorem span_subset (invariant : m.Invariant boot) :
    m.bump.span.addresses ⊆ Span.cover boot.acceptedAreas := by
  obtain ⟨before, area, after, chosen⟩ := invariant.chosen
  rw [← chosen.cover_rest]
  exact Set.subset_union_right

/-- A step of the tree heap with fewer live blocks after it. -/
theorem of_step {call : HeapCall} {s' : HeapState} (invariant : m.Invariant boot)
    (taken : (heapSystem boot.acceptedAreas).step (m.state boot) call s')
    (tree : m'.tree = s'.alloc) (bump : m'.bump = s'.bump) (mode : m'.allocMode = m.allocMode)
    (entered : m.allocMode ≠ .tree → m'.tree = .new)
    (fewer : (m'.state boot).live.Subperm s'.live) (stacks' : m'.kernelStacks = m.kernelStacks)
    (aligned : ∀ frame ∈ m'.frames, pageSize ∣ frame) : m'.Invariant boot := by
  obtain ⟨cutOff, same⟩ := invariant.cutOff.step invariant.spaced taken
  have state : m'.state boot = { s' with live := (m'.state boot).live } := by
    rw [KernelMemory.state, tree, bump]
  have shrinks : (m'.state boot).known ⊆ s'.known := by
    rw [state]
    exact HeapState.known_relive fewer
  refine ⟨Chosen.of_span ?_ invariant.chosen, ?_, ?_, fun before => ⟨entered (mode ▸ before), ?_⟩,
    aligned⟩
  · rw [bump]
    exact same
  · rw [state]
    exact (invariant.spaced.step taken).relive fewer
  · rw [tree, bump, stacks']
    exact cutOff.mono shrinks
  · rw [bump, same]
    exact (shrinks.trans (invariant.spaced.known_shrinks taken)).trans
      (invariant.fresh (mode ▸ before)).2

theorem tree_alloc {map : AddressMap} {request : Request} {out : Option ℕ} {tree : RBTreeAlloc}
    (invariant : m.Invariant boot) (positive : 0 < request.size)
    (allocated : m.tree.alloc map request = .ok (out, tree))
    (same : m'.tree = tree) (bump : m'.bump = m.bump) (mode : m'.allocMode = m.allocMode)
    (fewer : (m'.state boot).live.Subperm
      (out.toList.map (⟨·, request.size⟩) ++ (m.state boot).live))
    (stacks' : m'.kernelStacks = m.kernelStacks)
    (aligned : ∀ frame ∈ m'.frames, pageSize ∣ frame) : m'.Invariant boot := by
  have taken : (heapSystem boot.acceptedAreas).step (m.state boot) (.alloc map request)
      ⟨tree, m.bump, out.toList.map (⟨·, request.size⟩) ++ (m.state boot).live⟩ := by
    refine ⟨positive, ?_⟩
    rw [HeapState.perform, KernelMemory.state, allocated]
    rfl
  refine invariant.of_step taken same bump mode (fun before => ?_) fewer stacks' aligned
  have new := (invariant.fresh before).1
  rw [new] at allocated
  obtain ⟨rfl, rfl⟩ := Prod.mk.inj (Except.ok.inj allocated)
  exact same

theorem tree_free {block : Span} {heap : KernelHeap} (invariant : m.Invariant boot)
    (entered : m.allocMode = .tree) (member : block ∈ m.live)
    (freed : m.toKernelHeap.freeTree block = .ok heap) :
    ({ m with toKernelHeap := heap, live := m.live.erase block } : KernelMemory).Invariant
      boot := by
  simp only [KernelHeap.freeTree, bind_eq_ok, Prod.exists, Except.ok.injEq] at freed
  obtain ⟨tree, bump, freed, rfl⟩ := freed
  have listed : block ∈ (m.state boot).live := List.mem_append_right _ member
  have taken : (heapSystem boot.acceptedAreas).step (m.state boot) (.free block)
      ⟨tree, bump, (m.state boot).live.erase block⟩ := by
    refine ⟨listed, ?_⟩
    rw [HeapState.perform, KernelMemory.state, freed]
    rfl
  refine @of_step _ _ _ _ _ invariant taken rfl rfl rfl (fun before => absurd entered before) ?_ rfl
    invariant.aligned
  have back : (block :: (m.frames.map (KernelMemory.page boot) ++ m.live.erase block)).Perm
      (m.state boot).live :=
    List.perm_middle.symm.trans ((List.perm_cons_erase member).symm.append_left _)
  exact (List.Perm.cons_inv (back.trans (List.perm_cons_erase listed))).subperm

/-- A block of the bump heap becomes live, before the hand-over. -/
theorem bump_alloc {layout : Layout} {ptr : ℕ} {bump : BumpHeap} (invariant : m.Invariant boot)
    (before : m.allocMode ≠ .tree) (positive : 0 < layout.size)
    (allocated : BumpAlloc.alloc m.bump layout = .ok (ptr, bump)) :
    ({ m with bump := bump }.own ptr layout.size : KernelMemory).Invariant boot := by
  obtain ⟨new, known⟩ := invariant.fresh before
  by_cases null : ptr = 0
  · subst null
    obtain rfl := BumpAlloc.alloc_null allocated
    exact invariant
  · have advances := BumpAlloc.alloc_advances null allocated
    have own : (({ m with bump := bump }.own ptr layout.size : KernelMemory)) =
        { m with bump := bump, live := ⟨ptr, layout.size⟩ :: m.live } := by
      rw [KernelMemory.own, if_neg null]
    rw [own]
    have perm := m.live_cons boot ⟨ptr, layout.size⟩
    have none : (m.state boot).free = [] := by
      rw [HeapState.free, KernelMemory.state, new]
      rfl
    have owned := invariant.spaced.owned
    have fresh : ∀ block ∈ (m.state boot).live,
        Disjoint (⟨ptr, layout.size⟩ : Span).addresses block.addresses := fun block member =>
      (invariant.cutOff.ahead.mono_left advances.subset_ahead).mono_right
        ((Span.addresses_subset_cover member).trans Set.subset_union_right)
    have larger := KernelMemory.known_cons boot m bump ⟨ptr, layout.size⟩
    refine ⟨Chosen.of_span advances.same invariant.chosen, ?_, ?_, fun _ => ⟨new, ?_⟩,
      invariant.aligned⟩
    · refine @Spaced.relive boot.acceptedAreas
        ⟨m.tree, bump, ⟨ptr, layout.size⟩ :: (m.state boot).live⟩ _ ?_ perm.subperm
      have free : HeapState.free ⟨m.tree, bump, ⟨ptr, layout.size⟩ :: (m.state boot).live⟩ = [] :=
        none
      refine ⟨⟨?_, ?_, ?_, ?_, ?_, ?_⟩, invariant.spaced.intact, ?_⟩
      · rw [free]
        exact List.Pairwise.nil
      · exact List.pairwise_cons.mpr ⟨fresh, owned.live⟩
      · rw [free, Span.cover_nil]
        exact fun _ _ => Set.disjoint_empty _
      · exact List.forall_mem_cons.mpr ⟨positive, owned.positive⟩
      · rw [free, Span.cover_nil]
        exact Set.empty_subset _
      · exact List.forall_mem_cons.mpr
          ⟨advances.subset_span.trans invariant.span_subset, owned.live_inside⟩
      · rw [free]
        exact List.Pairwise.nil
    · rw [larger]
      exact invariant.cutOff.insert advances
    · rw [larger]
      refine Set.union_subset (known.trans ?_) (advances.subset_span.trans ?_)
      · exact (congrArg Span.addresses advances.same).ge
      · exact (congrArg Span.addresses advances.same).ge

theorem stack {size : ℕ} {top : Option ℕ} {bump : BumpHeap} (invariant : m.Invariant boot)
    (allocated : allocStack m.bump size = .ok (top, bump)) :
    ({ m with
      bump := bump
      kernelStacks := if top.isSome then ⟨bump.next - size, size⟩ :: m.kernelStacks
        else m.kernelStacks } : KernelMemory).Invariant boot := by
  simp only [allocStack, bind_eq_ok, unwrap_eq_ok, Prod.exists] at allocated
  obtain ⟨layout, valid, ptr, heap, allocated, chosen⟩ := allocated
  have sized : layout.size = size := by
    rw [Layout.fromSizeAlign] at valid
    split_ifs at valid
    rw [← Option.some.inj valid]
  split_ifs at chosen with null
  · subst null
    obtain ⟨rfl, rfl⟩ := Prod.mk.inj (Except.ok.inj chosen)
    obtain rfl := BumpAlloc.alloc_null allocated
    exact invariant
  · obtain ⟨_, -, chosen⟩ := bind_eq_ok.mp chosen
    obtain ⟨rfl, rfl⟩ := Prod.mk.inj (Except.ok.inj chosen)
    have advances := BumpAlloc.alloc_advances null allocated
    have start : heap.next - size = ptr := by
      have moves := advances.moves
      rw [Span.stop_mk, sized] at moves
      omega
    rw [Option.isSome_some, if_pos rfl, start, ← sized]
    obtain ⟨owned, intact, gapped⟩ := invariant.spaced
    refine ⟨Chosen.of_span advances.same invariant.chosen, ⟨owned.of_eq rfl rfl, intact, gapped⟩,
      ?_, fun before => ?_, invariant.aligned⟩
    · exact (invariant.cutOff.cons advances).perm List.perm_middle.symm
    · obtain ⟨new, known⟩ := invariant.fresh before
      exact ⟨new, known.trans (congrArg Span.addresses advances.same).ge⟩

end KernelMemory.Invariant

/-- A gap that separates an area from the others separates what the bump heap leaves of it. -/
theorem Chosen.separated {boot : BootInfo} {heap : BumpHeap} {before after : List Region}
    {area : Region} (chosen : Chosen boot heap before area after)
    (gaps : GapSeparated boot.acceptedAreas) :
    GapSeparated (before ++ heap.rest area :: after) := by
  obtain ⟨gaps, occupied⟩ := gaps
  rw [chosen.split] at gaps occupied
  have smaller := chosen.size
  obtain ⟨others, left, right⟩ := Span.pairwise_middle.mp gaps
  refine ⟨Span.pairwise_middle.mpr ⟨others, fun r member => ?_, fun r member => ?_⟩, ?_⟩
  · have apart := left r member
    simp only [Separated, BumpHeap.rest, Span.stop] at apart ⊢
    omega
  · have apart := right r member
    simp only [Separated, BumpHeap.rest, Span.stop] at apart ⊢
    omega
  · intro r member
    rcases List.mem_append.mp member with member | member
    · exact occupied r (List.mem_append_left _ member)
    · rcases List.mem_cons.mp member with rfl | member
      · simp only [BumpHeap.rest]
        omega
      · exact occupied r (List.mem_append_right _ (List.mem_cons_of_mem _ member))

namespace KernelMemory.Invariant

variable {boot : BootInfo} {m : KernelMemory}

/-- The hand-over gives the tree all that the bump heap leaves. -/
theorem init (disjoint : DisjointMap boot) (gaps : GapSeparated boot.acceptedAreas)
    (invariant : m.Invariant boot) (before : m.allocMode = .bump) {areas : List Region}
    {tree : RBTreeAlloc} {bump : BumpHeap}
    (initialised : TreeAlloc.init boot m.tree m.bump = .ok (areas, tree, bump)) :
    ({ m with tree := tree, bump := bump, allocMode := .tree } : KernelMemory).Invariant boot := by
  obtain ⟨new, known⟩ := invariant.fresh (by simp [before])
  simp only [TreeAlloc.init, bind_eq_ok, unwrap_eq_ok, Prod.exists, Except.ok.injEq,
    Prod.mk.injEq] at initialised
  obtain ⟨_, found, areas, rfl, _, cut, tree, heap', filled, rfl, rfl, rfl⟩ := initialised
  obtain rfl := BootInfo.findHeapAreas_eq_ok found
  obtain ⟨before, area, after, chosen⟩ := invariant.chosen
  rw [chosen.split] at cut
  obtain rfl := cutBumpHeap_middle chosen.base (disjoint.away chosen) cut
  have outside := disjoint.disjoint_rest chosen
  rw [new] at filled
  obtain ⟨spaced, perm⟩ := @GapSeparated.start _ ⟨tree, heap', []⟩ (chosen.separated gaps)
    ⟨m.bump, filled, rfl⟩
  have covered : Span.cover (regions tree.root) =
      Span.cover (before ++ m.bump.rest area :: after) := Span.cover_perm perm
  have live : Span.cover (m.state boot).live ⊆ m.bump.span.addresses :=
    Set.subset_union_right.trans known
  have cutOff : CutOff m.bump (boxSpans RBTreeAlloc.new ++ m.kernelStacks)
      ((m.state boot).known ∪ Span.cover (regions tree.root)) := by
    rw [covered]
    exact new ▸ invariant.cutOff.union outside
  obtain ⟨cutOff', same⟩ := cutOff.insertAll filled
  have owned := invariant.spaced.owned
  refine ⟨Chosen.of_span same ⟨before, area, after, chosen⟩, ⟨⟨spaced.owned.apart, owned.live, ?_,
    owned.positive, ?_, owned.live_inside⟩, spaced.intact, spaced.gapped⟩, cutOff'.mono ?_,
    by simp, invariant.aligned⟩
  · intro block member
    have inside := (Span.addresses_subset_cover member).trans live
    exact (covered ▸ outside : Disjoint _ (Span.cover (regions tree.root))).mono_left inside
  · refine Set.Subset.trans ?_ (chosen.cover_rest ▸ Set.subset_union_left)
    exact covered.le
  · refine Set.union_subset Set.subset_union_right ?_
    exact Set.subset_union_right.trans Set.subset_union_left

theorem frame {addressing : Addressing} (documented : addressing.Documented)
    (pages : ∀ hhdm ∈ boot.hhdmOffset, pageSize ∣ hhdm) {frame : ℕ} {tree : RBTreeAlloc}
    (invariant : m.Invariant boot)
    (allocated : m.tree.allocateFrame addressing m.map boot.hhdmOffset = .ok (frame, tree)) :
    ({ m with tree := tree, frames := frame :: m.frames } : KernelMemory).Invariant boot := by
  simp only [RBTreeAlloc.allocateFrame, bind_eq_ok, unwrap_eq_ok, Prod.exists] at allocated
  obtain ⟨hhdm, present, out, tree', served, chosen⟩ := allocated
  cases out with
  | none => simp at chosen
  | some virt =>
      simp only [bind_eq_ok, Usize.sub_eq_ok, Except.ok.injEq, Prod.mk.injEq] at chosen
      obtain ⟨_, ⟨above, rfl⟩, phys, translated, rfl, rfl⟩ := chosen
      obtain rfl := documented.physAddr_eq translated
      -- A page-aligned offset leaves the aligned block aligned.
      have aligned : pageSize ∣ virt - hhdm := by
        obtain ⟨_, -, -, -, searched⟩ := alloc_spec served
        cases searched with
        | @took _ _ _ _ r => exact Nat.dvd_sub (frameRequest.dvd_start r) (pages hhdm present)
      have start : addressing.containingAddress (virt - hhdm) = virt - hhdm := by
        rw [documented.containingAddress_eq, roundDown_of_dvd aligned]
      have page : KernelMemory.page boot (virt - hhdm) = ⟨virt, 0x1000⟩ := by
        rw [KernelMemory.page, present, Option.getD_some, Nat.sub_add_cancel above]
        rfl
      refine invariant.tree_alloc (by decide) served rfl rfl rfl ?_ rfl ?_
      · rw [KernelMemory.state, start, List.map_cons, page]
        exact List.Subperm.refl _
      · rw [start]
        exact List.forall_mem_cons.mpr ⟨aligned, invariant.aligned⟩

theorem tree_own {layout : Layout} {out : Option ℕ} {tree : RBTreeAlloc}
    (invariant : m.Invariant boot) (positive : 0 < layout.size)
    (served : m.tree.alloc m.map (.ofLayout layout) = .ok (out, tree)) :
    ({ m with tree := tree }.own (out.getD 0) layout.size : KernelMemory).Invariant boot := by
  refine @tree_alloc boot m _ m.map (.ofLayout layout) _ _ invariant positive served rfl rfl rfl ?_
    rfl invariant.aligned
  cases out with
  | none => exact List.Subperm.refl _
  | some ptr =>
      rw [KernelMemory.own, KernelMemory.state, Option.getD_some]
      dsimp only
      split_ifs
      · exact (List.sublist_cons_self _ _).subperm
      · exact (m.live_cons boot _).subperm

/-- The bump allocator takes no block back, so it is lost. -/
theorem lose (invariant : m.Invariant boot) (block : Span) :
    ({ m with live := m.live.erase block } : KernelMemory).Invariant boot := by
  have fewer : (KernelMemory.state boot { m with live := m.live.erase block }).live.Subperm
      (m.state boot).live :=
    ((List.erase_sublist (a := block)).append_left _).subperm
  have shrinks := HeapState.known_relive fewer
  exact ⟨invariant.chosen, invariant.spaced.relive fewer, invariant.cutOff.mono shrinks,
    fun before => ⟨(invariant.fresh before).1, shrinks.trans (invariant.fresh before).2⟩,
    invariant.aligned⟩

theorem alloc {layout : Layout} {ptr : ℕ} {s : Statics} (invariant : m.Invariant boot)
    (positive : 0 < layout.size) (allocated : KernelAlloc.alloc m.toStatics layout = .ok (ptr, s)) :
    ({ m with toStatics := s }.own ptr layout.size : KernelMemory).Invariant boot := by
  unfold KernelAlloc.alloc at allocated
  split at allocated
  · cases allocated
  · rename_i mode
    simp only [bind_eq_ok, Prod.exists, Except.ok.injEq, Prod.mk.injEq] at allocated
    obtain ⟨_, bump, allocated, rfl, rfl⟩ := allocated
    exact invariant.bump_alloc (by simp [mode]) positive allocated
  · simp only [TreeAlloc.alloc, bind_eq_ok, Prod.exists, Except.ok.injEq,
      Prod.mk.injEq] at allocated
    obtain ⟨_, heap, ⟨out, tree, served, chosen⟩, rfl, rfl⟩ := allocated
    have owned := invariant.tree_own positive served
    cases out with
    | none =>
        obtain ⟨rfl, rfl⟩ := Prod.mk.inj (Except.ok.inj chosen)
        exact owned
    | some addr =>
        obtain ⟨rfl, rfl⟩ := Prod.mk.inj (Except.ok.inj chosen)
        exact owned

theorem dealloc {block : Span} {s : Statics} (invariant : m.Invariant boot)
    (member : block ∈ m.live) (freed : KernelAlloc.dealloc m.toStatics block = .ok s) :
    ({ m with toStatics := s, live := m.live.erase block } : KernelMemory).Invariant boot := by
  unfold KernelAlloc.dealloc at freed
  split at freed
  · cases freed
  · obtain rfl := Except.ok.inj freed
    exact invariant.lose block
  · rename_i mode
    simp only [bind_eq_ok, Except.ok.injEq] at freed
    obtain ⟨heap, freed, rfl⟩ := freed
    exact invariant.tree_free mode member freed

theorem step {addressing : Addressing} (documented : addressing.Documented)
    (disjoint : DisjointMap boot) (gaps : GapSeparated boot.acceptedAreas)
    (pages : ∀ hhdm ∈ boot.hhdmOffset, pageSize ∣ hhdm) {m' : KernelMemory} {call : KernelCall}
    (invariant : m.Invariant boot) (permitted : m.Permits call)
    (performed : m.perform addressing boot call = .ok m') : m'.Invariant boot := by
  cases call with
  | stack size =>
      simp only [KernelMemory.perform, bind_eq_ok, Prod.exists, Except.ok.injEq] at performed
      obtain ⟨top, bump, allocated, rfl⟩ := performed
      exact invariant.stack allocated
  | init =>
      simp only [KernelMemory.perform, bind_eq_ok, Prod.exists, Except.ok.injEq] at performed
      obtain ⟨areas, tree, bump, initialised, rfl⟩ := performed
      exact invariant.init disjoint gaps permitted initialised
  | translate map =>
      obtain rfl := Except.ok.inj performed
      exact ⟨invariant.chosen, invariant.spaced, invariant.cutOff, invariant.fresh,
        invariant.aligned⟩
  | addressMode mode =>
      obtain rfl := Except.ok.inj performed
      exact ⟨invariant.chosen, invariant.spaced, invariant.cutOff, invariant.fresh,
        invariant.aligned⟩
  | alloc layout =>
      simp only [KernelMemory.perform, bind_eq_ok, Prod.exists, Except.ok.injEq] at performed
      obtain ⟨ptr, s, allocated, rfl⟩ := performed
      exact invariant.alloc permitted allocated
  | dealloc block =>
      simp only [KernelMemory.perform, bind_eq_ok, Except.ok.injEq] at performed
      obtain ⟨s, freed, rfl⟩ := performed
      exact invariant.dealloc permitted freed
  | xhciAllocate self layout =>
      simp only [KernelMemory.perform, bind_eq_ok, Prod.exists] at performed
      obtain ⟨result, heap, allocated, performed⟩ := performed
      obtain ⟨out, tree, served, rfl, rfl⟩ := xhci_allocate_cases allocated
      have owned := invariant.tree_own permitted served
      by_cases null : out.getD 0 = 0
      · rw [null] at performed owned
        exact Except.ok.inj performed ▸ owned
      · rw [okUnchecked_of_ne null] at performed
        exact Except.ok.inj performed ▸ owned
  | xhciDeallocate block =>
      simp only [KernelMemory.perform, bind_eq_ok, Except.ok.injEq] at performed
      obtain ⟨heap, freed, rfl⟩ := performed
      exact invariant.tree_free permitted.2 permitted.1 freed
  | frame =>
      simp only [KernelMemory.perform, bind_eq_ok, Prod.exists, Except.ok.injEq] at performed
      obtain ⟨frame, tree, allocated, rfl⟩ := performed
      exact invariant.frame documented pages allocated

theorem start {bump : BumpHeap} (map : AddressMap)
    (initialised : boot.initBumpAlloc = .ok (some bump)) :
    KernelMemory.Invariant boot ⟨⟨⟨bump, .new, map, none⟩, .bump⟩, [], [], []⟩ := by
  obtain ⟨begins, chosen⟩ := initBumpAlloc_chosen initialised
  have known :
      (KernelMemory.state boot ⟨⟨⟨bump, .new, map, none⟩, .bump⟩, [], [], []⟩).known = ∅ := by
    rw [HeapState.known]
    exact (congrArg₂ _ Span.cover_nil Span.cover_nil).trans (Set.union_empty ∅)
  refine ⟨chosen, ⟨⟨List.Pairwise.nil, List.Pairwise.nil, by simp [KernelMemory.state],
    by simp [KernelMemory.state], ?_, by simp [KernelMemory.state]⟩, RBTreeAlloc.Intact.new,
    List.Pairwise.nil⟩, ?_, fun _ => ⟨rfl, ?_⟩, by simp⟩
  · exact Span.cover_nil.le.trans (Set.empty_subset _)
  · rw [known]
    refine ⟨?_, by simp [boxSpans, RBTreeAlloc.new], List.Pairwise.nil,
      by simp [boxSpans, RBTreeAlloc.new], Set.disjoint_empty _⟩
    exact begins.trans_le (Nat.le_add_right _ _)
  · rw [known]
    exact Set.empty_subset _

theorem safe (invariant : m.Invariant boot) : MemorySafe boot m := by
  obtain ⟨-, ⟨owned, intact, -⟩, cutOff, -, aligned⟩ := id invariant
  have blocks {block : Span} (member : block ∈ m.frames.map (KernelMemory.page boot) ++ m.live) :
      block.addresses ⊆ (m.state boot).known :=
    (Span.addresses_subset_cover member).trans Set.subset_union_right
  refine ⟨?_, ?_, ?_, ?_, aligned⟩
  · refine List.pairwise_append.mpr ⟨cutOff.apart, owned.live, fun span cut block member => ?_⟩
    exact (cutOff.foreign span cut).mono_right (blocks member)
  · intro object member
    rcases List.mem_append.mp member with cut | block
    · refine Set.disjoint_union_right.mpr ⟨?_, ?_⟩
      · exact (cutOff.foreign object cut).mono_right Set.subset_union_left
      · refine Set.disjoint_left.mpr ?_
        rintro address ⟨-, below⟩ ⟨above, -⟩
        have := (cutOff.inside object cut).2
        omega
    · exact Set.disjoint_union_right.mpr
        ⟨owned.live_free object block, (cutOff.ahead.mono_right (blocks block)).symm⟩
  · intro object member
    rcases List.mem_append.mp member with cut | block
    · exact (cutOff.subset_span cut).trans invariant.span_subset
    · exact owned.live_inside object block
  · have boxed : m.nodes.map (·.base) = m.tree.taken := by
      simp [KernelMemory.nodes, boxSpans, Function.comp_def]
    rw [boxed]
    exact intact.kept

end KernelMemory.Invariant

/-- On a machine whose accepted areas do not touch, in every state of every run of the kernel's
allocators no two of the things handed out overlap: stacks, nodes of the tree, frames of page tables
and live blocks. -/
theorem memorySafe_of_reach {addressing : Addressing} (documented : addressing.Documented)
    {boot : BootInfo} (disjoint : DisjointMap boot) (gaps : GapSeparated boot.acceptedAreas)
    (pages : ∀ hhdm ∈ boot.hhdmOffset, pageSize ∣ hhdm) {m : KernelMemory}
    (reach : (memorySystem addressing boot).Reach KernelMemory.Permits m) : MemorySafe boot m := by
  have invariant : m.Invariant boot := by
    refine reach.invariant ?_ fun m call next invariant permitted taken => ?_
    · rintro _ ⟨bump, map, initialised, rfl⟩
      exact .start map initialised
    · exact invariant.step documented disjoint gaps pages permitted (toOption_eq_some.mp taken)
  exact invariant.safe

theorem sampleLayout_fits : 0x100 + (8 - 1) < 2 ^ 63 := by decide

def sampleLayout : Layout := ⟨0x100, 8, TreeRegion.layout.power, sampleLayout_fits⟩

/-- A stack, a block from the bump heap, the hand-over, a block and a frame from the tree, and the
first block freed into the tree. -/
def sampleKernelCalls : List KernelCall :=
  [.stack 0x1000, .alloc sampleLayout, .init, .translate ⟨none, 0x10000000⟩, .alloc sampleLayout,
    .frame, .dealloc ⟨0x10301000, 0x100⟩]

/-- The block that came from the bump heap goes to the tree, and nothing overlaps. -/
theorem memorySafe_of_reach_calls :
    ∃ m, (memorySystem plainAddressing sampleMap).Reach KernelMemory.Permits m ∧
      m.kernelStacks = [⟨0x10300000, 0x1000⟩] ∧ m.frames = [0x101000] ∧
      m.live = [⟨0x10100000, 0x100⟩] ∧ (regions m.tree.root).head? = some ⟨0x10102000, 0xFE000⟩ ∧
      MemorySafe sampleMap m := by
  have booted : ∃ bump, sampleMap.initBumpAlloc = .ok (some bump) ∧
      (Behaviour.run
        (fun m call => (KernelMemory.perform plainAddressing sampleMap m call).toOption)
        KernelMemory.Permits ⟨⟨⟨bump, .new, ⟨none, 0⟩, none⟩, .bump⟩, [], [], []⟩
        sampleKernelCalls).map
          (fun m => (m.kernelStacks, m.frames, m.live, (regions m.tree.root).head?)) =
        some ([⟨0x10300000, 0x1000⟩], [0x101000], [⟨0x10100000, 0x100⟩],
          some ⟨0x10102000, 0xFE000⟩) :=
    ⟨_, rfl, by decide +kernel⟩
  obtain ⟨bump, initialised, executed⟩ := booted
  have start : (memorySystem plainAddressing sampleMap).initial
      ⟨⟨⟨bump, .new, ⟨none, 0⟩, none⟩, .bump⟩, [], [], []⟩ := ⟨bump, ⟨none, 0⟩, initialised, rfl⟩
  obtain ⟨m, reach, evaluated⟩ := Behaviour.exists_reach start executed
  simp only [Prod.mk.injEq] at evaluated
  obtain ⟨stack, frames, live, first⟩ := evaluated
  have gaps : GapSeparated sampleMap.acceptedAreas := ⟨by decide, by decide⟩
  have pages : ∀ hhdm ∈ sampleMap.hhdmOffset, pageSize ∣ hhdm := by
    rintro _ ⟨⟩
    decide
  exact ⟨m, reach, stack, frames, live, first,
    memorySafe_of_reach plainAddressing_documented sampleMap_disjoint gaps pages reach⟩

end Blubos
