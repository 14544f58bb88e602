import Blubos.Allocator.Exclusive

/-!
# The allocator front ends

The three implementations of `Allocator`: the bump allocator, the tree allocator and the allocator
for memory the xHCI controller accesses.  The last one hands its address limit and its boundary to
a `TreeAlloc`, whose `alloc` looks at neither, and reports the null pointer of a failed allocation
without a test of its own: an `Ok` of it is an `Err`.
-/

namespace Blubos

/-- `AddressMode` of the controller. -/
inductive AddressMode where
  | bit32
  | bit64
deriving DecidableEq, Repr

/-- `usize::gb`. -/
def gb (count : ℕ) : ℕ := count * 1024 ^ 3

/-- The statics the front ends read and write. -/
structure KernelHeap where
  bump : BumpHeap
  /-- `TREE_ALLOCATOR_DATA`. -/
  tree : RBTreeAlloc
  map : AddressMap
  /-- `XHCI_ADDRESS_MODE`, absent before the controller is set up. -/
  mode : Option AddressMode

/-- The request for a layout that `TreeAlloc` makes: neither a limit nor a boundary. -/
def Request.ofLayout (layout : Layout) : Request :=
  ⟨layout.size, layout.align, layout.power, none, none⟩

/-- `TreeAlloc`. -/
structure TreeAlloc where
  maxAddress : Option ℕ
  boundary : Option ℕ

/-- `GlobalAlloc::alloc` for `TreeAlloc`, with zero for the null pointer.  The fields are not
read. -/
def TreeAlloc.alloc (_self : TreeAlloc) (heap : KernelHeap) (layout : Layout) :
    Except Fault (ℕ × KernelHeap) := do
  let (out, tree) ← heap.tree.alloc heap.map (.ofLayout layout)
  match out with
  | some addr => .ok (addr, { heap with tree := tree })
  | none => .ok (0, { heap with tree := tree })

/-- `Allocator::allocate` for `TreeAlloc`. -/
def TreeAlloc.allocate (heap : KernelHeap) (layout : Layout) :
    Except Fault (AllocResult × KernelHeap) := do
  let (out, tree) ← heap.tree.alloc heap.map (.ofLayout layout)
  match out with
  | some addr => .ok (okUnchecked addr layout.size, { heap with tree := tree })
  | none => .ok (.error .allocError, { heap with tree := tree })

/-- `XhciAllocator`. -/
structure XhciAllocator where
  boundary : Option ℕ

/-- `Allocator::allocate` for `XhciAllocator`: `new_unchecked` of whatever `TreeAlloc` returns. -/
def XhciAllocator.allocate (self : XhciAllocator) (heap : KernelHeap) (layout : Layout) :
    Except Fault (AllocResult × KernelHeap) := do
  let mode ← unwrap heap.mode
  let maxAddress := match mode with
    | .bit32 => some (gb 4)
    | .bit64 => none
  let (ptr, heap) ← TreeAlloc.alloc ⟨maxAddress, self.boundary⟩ heap layout
  .ok (okUnchecked ptr layout.size, heap)

/-- The implementations of `Allocator`. -/
inductive FrontEnd where
  | bump
  | tree
  | xhci (self : XhciAllocator)

/-- `Allocator::allocate`. -/
def FrontEnd.allocate (heap : KernelHeap) (layout : Layout) :
    FrontEnd → Except Fault (AllocResult × KernelHeap)
  | .bump => do
      let (result, bumpHeap) ← BumpAlloc.allocate heap.bump layout
      .ok (result, { heap with bump := bumpHeap })
  | .tree => TreeAlloc.allocate heap layout
  | .xhci self => self.allocate heap layout

/-- `Layout::from_size_align`. -/
def Layout.fromSizeAlign (size align : ℕ) : Option Layout :=
  if valid : align.isPowerOfTwo ∧ size + (align - 1) < 2 ^ 63 then
    some ⟨size, align, valid.1, valid.2⟩
  else
    none

/-- `Box::new_in_aligned` for a value of some size: the address it writes the value to. -/
def FrontEnd.newInAligned (heap : KernelHeap) (size align : ℕ) (alloc : FrontEnd) :
    Except Fault (ℕ × KernelHeap) := do
  let layout ← unwrap (Layout.fromSizeAlign size align)
  match ← alloc.allocate heap layout with
  | (.ok block, heap) => .ok (block.base, heap)
  | (.error _, _) => .error .outOfMemory

/-- The first region, in the order of the search, that can serve the request. -/
def firstFit (heap : KernelHeap) (layout : Layout) : Option Region :=
  (visible layout.size heap.tree.root).find? fun r =>
    decide (Serves heap.map (.ofLayout layout) r)

/-- The tree allocator takes the block from the first fit, or leaves the regions alone when there is
none. -/
theorem tree_alloc_spec {heap : KernelHeap} {layout : Layout} {out : Option ℕ} {tree : RBTreeAlloc}
    (step : heap.tree.alloc heap.map (.ofLayout layout) = .ok (out, tree)) :
    (out = none ∧ firstFit heap layout = none ∧ regions tree.root = regions heap.tree.root) ∨
      ∃ r before after, out = some ((Request.ofLayout layout).start r) ∧
        firstFit heap layout = some r ∧ regions heap.tree.root = before ++ r :: after ∧
        regions tree.root = before ++ (Request.ofLayout layout).remainder r :: after ∧
        Serves heap.map (.ofLayout layout) r := by
  obtain ⟨root, -, rfl, -, searched⟩ := alloc_spec step
  simp only [regions_paint]
  cases searched with
  | refused same refused _ =>
      refine .inl ⟨rfl, ?_, same⟩
      rw [firstFit, List.find?_eq_none]
      intro q member
      simpa using refused q member
  | @took before after seen unseen r split shrunk order serves refused _ =>
      refine .inr ⟨r, before, after, rfl, ?_, split, shrunk, serves⟩
      rw [firstFit, List.find?_eq_some_iff_append]
      refine ⟨decide_eq_true serves, seen, unseen, order, fun q member => ?_⟩
      simpa using refused q member

/-- What `XhciAllocator` is asked for: alignment, one window, and an address the controller can
reach. -/
structure Honours (allocator : XhciAllocator) (heap : KernelHeap) (layout : Layout) (a : ℕ) :
    Prop where
  aligned : layout.align ∣ a
  /-- First and last byte lie in one boundary window. -/
  window : ∀ boundary ∈ allocator.boundary, a / boundary = (a + layout.size - 1) / boundary
  /-- With 32-bit addresses the block ends at or below 4 GiB. -/
  low : heap.mode = some .bit32 →
    ∃ physical, heap.map.toPhysicalAddr a = .ok physical ∧ physical + layout.size ≤ gb 4

/-- The first fit happens to lie well: its first aligned address is null or the block from there
stays in one window and, with 32-bit addresses, below 4 GiB. -/
def LandsWell (self : XhciAllocator) (heap : KernelHeap) (layout : Layout) : Prop :=
  ∀ r ∈ firstFit heap layout, roundUp r.base layout.align ≠ 0 →
    (∀ boundary ∈ self.boundary, roundUp r.base layout.align / boundary =
      (roundUp r.base layout.align + layout.size - 1) / boundary) ∧
    (heap.mode = some .bit32 → ∃ physical,
      heap.map.toPhysicalAddr (roundUp r.base layout.align) = .ok physical ∧
        physical + layout.size ≤ gb 4)

/-- The ways `XhciAllocator` returns. -/
theorem xhci_allocate_cases {self : XhciAllocator} {heap heap' : KernelHeap} {layout : Layout}
    {result : AllocResult} (step : self.allocate heap layout = .ok (result, heap')) :
    ∃ out tree, heap.tree.alloc heap.map (.ofLayout layout) = .ok (out, tree) ∧
      heap' = { heap with tree := tree } ∧ result = okUnchecked (out.getD 0) layout.size := by
  simp only [XhciAllocator.allocate, TreeAlloc.alloc, bind_eq_ok, Except.ok.injEq, Prod.mk.injEq,
    Prod.exists] at step
  obtain ⟨mode, -, ptr, mid, ⟨out, tree, searched, found⟩, rfl, same⟩ := step
  subst same
  cases out with
  | none =>
      simp only [Except.ok.injEq, Prod.mk.injEq] at found
      obtain ⟨rfl, rfl⟩ := found
      exact ⟨none, tree, searched, rfl, rfl⟩
  | some addr =>
      simp only [Except.ok.injEq, Prod.mk.injEq] at found
      obtain ⟨rfl, rfl⟩ := found
      exact ⟨some addr, tree, searched, rfl, rfl⟩

/-- `XhciAllocator` honours its constraints exactly when the first fit, found without them, happens
to lie well. -/
theorem xhci_honours_iff {self : XhciAllocator} {heap heap' : KernelHeap} {layout : Layout}
    {result : AllocResult} (returned : self.allocate heap layout = .ok (result, heap')) :
    (∀ block, result = .ok block → block.base ≠ 0 → Honours self heap layout block.base) ↔
      LandsWell self heap layout := by
  obtain ⟨out, tree, searched, rfl, rfl⟩ := xhci_allocate_cases returned
  rcases tree_alloc_spec searched with
    ⟨rfl, none, -⟩ | ⟨r, before, after, rfl, found, -, -, -⟩
  · rw [LandsWell, none]
    simp
  · rw [LandsWell, found]
    constructor
    · intro honours r' same present
      obtain rfl := Option.some.inj same
      have kept := honours _ (okUnchecked_of_ne present _) present
      exact ⟨kept.window, kept.low⟩
    · intro lands block same present
      have start := congrArg Span.base (okUnchecked_eq_ok.mp same)
      rw [start] at present ⊢
      obtain ⟨window, low⟩ := lands r rfl present
      exact ⟨Request.dvd_start _ _, window, low⟩

/-- A heap whose tree holds one region. -/
def oneRegion (bump : BumpHeap) (mode : AddressMode) (region : Region) : KernelHeap where
  bump := bump
  tree := ⟨.node .black .nil ⟨region, bump.base, region.size⟩ .nil, .nil, [bump.base], []⟩
  map := ⟨none, 0⟩
  mode := some mode

/-- A bump heap of 64 KiB at 1 MiB from which one box was taken. -/
def usedBump : BumpHeap where
  base := 0x200000
  size := 0x10000
  next := 0x200040
  bounded := by decide
  nonnull := by decide
  base_le_next := by decide

/-- 512 bytes with the alignment of a word. -/
def smallLayout : Layout := ⟨0x200, 8, TreeRegion.layout.power, by decide⟩

/-- A region that starts a window serves a small block well. -/
theorem xhci_honours_iff_small :
    ∃ block heap', (⟨some 0x1000⟩ : XhciAllocator).allocate
        (oneRegion usedBump .bit32 ⟨0x2000, 0x1000⟩) smallLayout = .ok (.ok block, heap') ∧
      Honours ⟨some 0x1000⟩ (oneRegion usedBump .bit32 ⟨0x2000, 0x1000⟩) smallLayout
        block.base := by
  have evaluated : ((⟨some 0x1000⟩ : XhciAllocator).allocate
      (oneRegion usedBump .bit32 ⟨0x2000, 0x1000⟩) smallLayout).toOption.map Prod.fst =
      some (.ok ⟨⟨0x2000, 0x200⟩, by decide⟩) := by decide +kernel
  have lands : LandsWell ⟨some 0x1000⟩ (oneRegion usedBump .bit32 ⟨0x2000, 0x1000⟩)
      smallLayout := by
    have found : firstFit (oneRegion usedBump .bit32 ⟨0x2000, 0x1000⟩) smallLayout =
        some ⟨0x2000, 0x1000⟩ := by decide +kernel
    rw [LandsWell, found]
    intro r same _
    obtain rfl := Option.some.inj same
    refine ⟨fun boundary member => ?_, fun _ => ⟨0x2000, by decide, by decide⟩⟩
    obtain rfl := Option.some.inj member
    decide
  obtain ⟨⟨result, heap'⟩, returned, rfl⟩ := Option.map_eq_some_iff.mp evaluated
  rw [toOption_eq_some] at returned
  exact ⟨_, heap', returned, (xhci_honours_iff returned).mpr lands _ rfl (by decide)⟩

/-- A region that starts just below a window boundary: the block crosses it. -/
theorem xhci_honours_false :
    ¬∀ (self : XhciAllocator) (heap heap' : KernelHeap) (layout : Layout) (result : AllocResult),
      0 < layout.size → (∀ boundary ∈ self.boundary, boundary.isPowerOfTwo) →
      self.allocate heap layout = .ok (result, heap') →
      ∀ block, result = .ok block → block.base ≠ 0 → Honours self heap layout block.base := by
  intro always
  have evaluated : ((⟨some 0x1000⟩ : XhciAllocator).allocate
      (oneRegion usedBump .bit64 ⟨0x1F00, 0x1000⟩) smallLayout).toOption.map Prod.fst =
      some (.ok ⟨⟨0x1F00, 0x200⟩, by decide⟩) := by decide +kernel
  obtain ⟨⟨result, heap'⟩, returned, rfl⟩ := Option.map_eq_some_iff.mp evaluated
  have power : ∀ boundary ∈ (some 0x1000 : Option ℕ), boundary.isPowerOfTwo := by decide
  have kept := always _ _ _ _ _ (by decide) power (toOption_eq_some.mp returned) _ rfl (by decide)
  exact absurd (kept.window 0x1000 rfl) (by decide)

/-! ## Failure -/

/-- What the allocator behind a front end finds: the bump allocator a place between its cursor and
its end, the other two a region of the tree. -/
def FrontEnd.backing (heap : KernelHeap) (layout : Layout) : FrontEnd → Except Fault (Option ℕ)
  | .bump => do
      let current ← BumpAlloc.alignCursor heap.bump.next layout.align
      .ok (if current + layout.size ≤ heap.bump.base + heap.bump.size then some current else none)
  | .tree | .xhci _ => do
      let (out, _) ← heap.tree.alloc heap.map (.ofLayout layout)
      .ok out

/-- The addresses the allocator behind a front end has to give. -/
def FrontEnd.free (heap : KernelHeap) : FrontEnd → Set ℕ
  | .bump => Set.Ico heap.bump.next (heap.bump.base + heap.bump.size)
  | .tree | .xhci _ => Span.cover (regions heap.tree.root)

/-- Failure is reported as failure, and success is a block that is taken out of the free
addresses. -/
structure Reports (kind : FrontEnd) (heap : KernelHeap) (layout : Layout) (result : AllocResult)
    (heap' : KernelHeap) : Prop where
  /-- When there is no block the result is an error and nothing has changed. -/
  failure : kind.backing heap layout = .ok none →
    result = .error .allocError ∧ kind.free heap' = kind.free heap ∧
      heap'.bump.next = heap.bump.next
  /-- When there is one the result is that block, which is not null, was free and is not free
  now. -/
  success : ∀ a, kind.backing heap layout = .ok (some a) →
    ∃ block, result = .ok block ∧ block.toSpan = ⟨a, layout.size⟩ ∧
      block.addresses ⊆ kind.free heap ∧ Disjoint block.addresses (kind.free heap')
  /-- Without a block the `expect` of `new_in_aligned` fires. -/
  fires : kind.backing heap layout = .ok none →
    kind.newInAligned heap layout.size layout.align = .error .outOfMemory
  /-- No box is written through the null pointer. -/
  boxed : ∀ ptr heap'', kind.newInAligned heap layout.size layout.align = .ok (ptr, heap'') →
    ptr ≠ 0

/-- The first fit does not start with the null address, and no other region covers its block. -/
def OwnBlock (heap : KernelHeap) (layout : Layout) : Prop :=
  ∀ r ∈ firstFit heap layout, roundUp r.base layout.align ≠ 0 ∧
    Disjoint (⟨roundUp r.base layout.align, layout.size⟩ : Span).addresses
      (Span.cover ((regions heap.tree.root).erase r))

/-- The condition under which a front end reports failure as failure. -/
def FrontEnd.Sound (heap : KernelHeap) (layout : Layout) : FrontEnd → Prop
  | .bump => True
  | .tree | .xhci _ => OwnBlock heap layout

theorem Layout.fromSizeAlign_self (layout : Layout) :
    Layout.fromSizeAlign layout.size layout.align = some layout := by
  rw [Layout.fromSizeAlign, dif_pos ⟨layout.power, layout.fits⟩]

section NewInAligned

variable {kind : FrontEnd} {heap heap' : KernelHeap} {layout : Layout}

theorem FrontEnd.newInAligned_ok {block : NonNull}
    (returned : kind.allocate heap layout = .ok (.ok block, heap')) :
    kind.newInAligned heap layout.size layout.align = .ok (block.base, heap') := by
  rw [FrontEnd.newInAligned, Layout.fromSizeAlign_self, unwrap_some, ok_bind, returned]
  rfl

/-- The `expect` fires when the allocator reports a failure. -/
theorem FrontEnd.newInAligned_error {error : AllocError}
    (returned : kind.allocate heap layout = .ok (.error error, heap')) :
    kind.newInAligned heap layout.size layout.align = .error .outOfMemory := by
  rw [FrontEnd.newInAligned, Layout.fromSizeAlign_self, unwrap_some, ok_bind, returned]
  rfl

theorem FrontEnd.newInAligned_ne_zero {result : AllocResult}
    (returned : kind.allocate heap layout = .ok (result, heap')) (ptr : ℕ) (heap'' : KernelHeap)
    (written : kind.newInAligned heap layout.size layout.align = .ok (ptr, heap'')) : ptr ≠ 0 := by
  cases result with
  | error error => simp [FrontEnd.newInAligned_error returned] at written
  | ok block =>
      rw [FrontEnd.newInAligned_ok returned, Except.ok.injEq, Prod.mk.injEq] at written
      exact written.1 ▸ block.nonnull

end NewInAligned

/-- The block of the first fit is disjoint from the free addresses that remain exactly when no other
region covers it. -/
theorem disjoint_remaining_iff {request : Request} {before after : List Region} {r : Region} :
    Disjoint (⟨request.start r, request.size⟩ : Span).addresses
        (Span.cover (before ++ request.remainder r :: after)) ↔
      Disjoint (⟨request.start r, request.size⟩ : Span).addresses
        (Span.cover ((before ++ r :: after).erase r)) := by
  have others : ((before ++ r :: after).erase r).Perm (before ++ after) := by
    have moved := (@List.perm_middle _ r before after).erase r
    rwa [List.erase_cons_head] at moved
  have apart : Disjoint (⟨request.start r, request.size⟩ : Span).addresses
      (request.remainder r).addresses := Span.disjoint_of_stop_le le_rfl
  simp only [Span.disjoint_cover, List.mem_append, List.mem_cons, others.mem_iff]
  constructor
  · exact fun all span member => all span (member.imp_right .inr)
  · rintro all span (earlier | rfl | later)
    · exact all span (.inl earlier)
    · exact apart
    · exact all span (.inr later)

theorem bump_reports {heap heap' : KernelHeap} {layout : Layout} {result : AllocResult}
    (positive : 0 < layout.size)
    (returned : FrontEnd.bump.allocate heap layout = .ok (result, heap')) :
    Reports .bump heap layout result heap' := by
  have call := returned
  simp only [FrontEnd.allocate, BumpAlloc.allocate, bind_eq_ok, Prod.exists, Except.ok.injEq,
    Prod.mk.injEq] at call
  obtain ⟨_, bumpHeap, ⟨ptr, mid, cursor, reported⟩, rfl, rfl⟩ := call
  unfold BumpAlloc.alloc at cursor
  split at cursor
  · simp at cursor
  · rename_i current aligned
    have bounded := heap.bump.bounded
    have started := heap.bump.base_le_next
    have forward := BumpAlloc.le_alignCursor aligned
    by_cases room : current + layout.size ≤ heap.bump.base + heap.bump.size
    · have next : Usize.saturatingAdd current layout.size = current + layout.size := by
        simp only [Usize.saturatingAdd]
        omega
      have present : current ≠ 0 := by
        have := heap.bump.nonnull (by omega)
        omega
      rw [if_neg (by rw [next]; omega), Except.ok.injEq, Prod.mk.injEq] at cursor
      obtain ⟨rfl, rfl⟩ := cursor
      simp only [present, if_false, okUnchecked_of_ne present, Except.ok.injEq,
        Prod.mk.injEq] at reported
      obtain ⟨rfl, rfl⟩ := reported
      have found : FrontEnd.bump.backing heap layout = .ok (some current) := by
        simp [FrontEnd.backing, aligned, room]
      refine ⟨fun missing => ?_, fun a given => ⟨_, rfl, ?_, ?_, ?_⟩, fun missing => ?_,
        FrontEnd.newInAligned_ne_zero returned⟩
      · simp [found] at missing
      · rw [found, Except.ok.injEq, Option.some.injEq] at given
        exact given ▸ rfl
      · rintro address ⟨above, below⟩
        simp only [Span.stop] at above below
        exact ⟨forward.trans above, by omega⟩
      · rw [Set.disjoint_left]
        rintro address ⟨-, below⟩ ⟨above, -⟩
        simp only [Span.stop, next] at above below
        omega
      · simp [found] at missing
    · have beyond : heap.bump.base + heap.bump.size < Usize.saturatingAdd current layout.size := by
        simp only [Usize.saturatingAdd]
        omega
      rw [if_pos beyond, Except.ok.injEq, Prod.mk.injEq] at cursor
      obtain ⟨rfl, rfl⟩ := cursor
      simp only [if_true, Except.ok.injEq, Prod.mk.injEq] at reported
      obtain ⟨rfl, rfl⟩ := reported
      refine ⟨fun _ => ⟨rfl, rfl, rfl⟩, fun a given => ?_,
        fun _ => FrontEnd.newInAligned_error returned, FrontEnd.newInAligned_ne_zero returned⟩
      simp [FrontEnd.backing, aligned, room] at given

section Tree

variable {kind : FrontEnd} {heap heap' : KernelHeap} {layout : Layout} {result : AllocResult}

/-- The two front ends of the tree allocator report what the tree gives, where it gives the null
address as an error. -/
theorem FrontEnd.allocate_tree (notBump : kind ≠ .bump)
    (returned : kind.allocate heap layout = .ok (result, heap')) :
    ∃ out tree, heap.tree.alloc heap.map (.ofLayout layout) = .ok (out, tree) ∧
      heap' = { heap with tree := tree } ∧ result = okUnchecked (out.getD 0) layout.size ∧
      kind.backing heap layout = .ok out := by
  cases kind with
  | bump => exact absurd rfl notBump
  | tree =>
      simp only [FrontEnd.allocate, TreeAlloc.allocate, bind_eq_ok, Prod.exists] at returned
      obtain ⟨out, tree, searched, reported⟩ := returned
      have backing : FrontEnd.tree.backing heap layout = .ok out := by
        rw [FrontEnd.backing, searched]
        rfl
      cases out <;>
        · obtain ⟨rfl, rfl⟩ := Prod.mk.inj (Except.ok.inj reported)
          exact ⟨_, tree, searched, rfl, rfl, backing⟩
  | xhci self =>
      obtain ⟨out, tree, searched, same, reported⟩ := xhci_allocate_cases returned
      refine ⟨out, tree, searched, same, reported, ?_⟩
      rw [FrontEnd.backing, searched]
      rfl

theorem FrontEnd.free_tree (notBump : kind ≠ .bump) (heap : KernelHeap) :
    kind.free heap = Span.cover (regions heap.tree.root) := by
  cases kind with
  | bump => exact absurd rfl notBump
  | tree => rfl
  | xhci => rfl

/-- A front end of the tree allocator reports failure as failure exactly when its first fit has a
block of its own. -/
theorem tree_reports_iff (notBump : kind ≠ .bump)
    (returned : kind.allocate heap layout = .ok (result, heap')) :
    Reports kind heap layout result heap' ↔ OwnBlock heap layout := by
  have free := FrontEnd.free_tree notBump
  have boxed := FrontEnd.newInAligned_ne_zero returned
  obtain ⟨out, tree, searched, rfl, rfl, backing⟩ := FrontEnd.allocate_tree notBump returned
  rcases tree_alloc_spec searched with
    ⟨rfl, missing, same⟩ | ⟨r, before, after, rfl, found, split, shrunk, serves⟩
  · refine ⟨fun _ => by simp [OwnBlock, missing], fun _ => ⟨fun _ => ?_, fun a given => ?_,
      fun _ => FrontEnd.newInAligned_error returned, boxed⟩⟩
    · exact ⟨rfl, by rw [free, free, same], rfl⟩
    · simp [backing] at given
  · have own : OwnBlock heap layout ↔ (Request.ofLayout layout).start r ≠ 0 ∧
        Disjoint (⟨(Request.ofLayout layout).start r, layout.size⟩ : Span).addresses
          (kind.free { heap with tree := tree }) := by
      have remaining := @disjoint_remaining_iff (.ofLayout layout) before after r
      rw [← shrunk, ← split] at remaining
      rw [OwnBlock, found, free]
      simp only [Option.mem_some_iff, forall_eq']
      exact and_congr_right fun _ => remaining.symm
    rw [own]
    constructor
    · intro reports
      obtain ⟨block, -, same, -, apart⟩ := reports.success _ backing
      have start : block.base = (Request.ofLayout layout).start r := congrArg Span.base same
      exact ⟨start ▸ block.nonnull, same ▸ apart⟩
    · rintro ⟨present, apart⟩
      refine ⟨fun missing => ?_, fun a given => ⟨_, okUnchecked_of_ne present _, ?_, ?_, apart⟩,
        fun missing => ?_, boxed⟩
      · simp [backing] at missing
      · rw [backing, Except.ok.injEq, Option.some.injEq] at given
        exact given ▸ rfl
      · have member : r ∈ regions heap.tree.root := by simp [split]
        rw [free]
        exact serves.block_subset.trans (Span.addresses_subset_cover member)
      · simp [backing] at missing

end Tree

/-- A front end reports failure as failure exactly when it is the bump allocator, or its first fit
has a block of its own that is not null. -/
theorem reports_iff {kind : FrontEnd} {heap heap' : KernelHeap} {layout : Layout}
    {result : AllocResult} (positive : 0 < layout.size)
    (returned : kind.allocate heap layout = .ok (result, heap')) :
    Reports kind heap layout result heap' ↔ kind.Sound heap layout := by
  cases kind with
  | bump => exact ⟨fun _ => trivial, fun _ => bump_reports positive returned⟩
  | tree => exact tree_reports_iff (by simp) returned
  | xhci => exact tree_reports_iff (by simp) returned

/-- The controller's allocator takes a block from the only region. -/
theorem reports_iff_xhci :
    ∃ result heap', (FrontEnd.xhci ⟨none⟩).allocate (oneRegion usedBump .bit32 ⟨0x2000, 0x1000⟩)
        smallLayout = .ok (result, heap') ∧
      Reports (.xhci ⟨none⟩) (oneRegion usedBump .bit32 ⟨0x2000, 0x1000⟩) smallLayout result
        heap' := by
  have returns : ((FrontEnd.xhci ⟨none⟩).allocate (oneRegion usedBump .bit32 ⟨0x2000, 0x1000⟩)
      smallLayout).toBool = true := by decide +kernel
  have found : firstFit (oneRegion usedBump .bit32 ⟨0x2000, 0x1000⟩) smallLayout =
      some ⟨0x2000, 0x1000⟩ := by decide +kernel
  have sound : (FrontEnd.xhci ⟨none⟩).Sound (oneRegion usedBump .bit32 ⟨0x2000, 0x1000⟩)
      smallLayout := by
    rw [FrontEnd.Sound, OwnBlock, found]
    intro r same
    obtain rfl := Option.some.inj same
    refine ⟨by decide, ?_⟩
    have alone : (regions (oneRegion usedBump .bit32 ⟨0x2000, 0x1000⟩).tree.root).erase
        ⟨0x2000, 0x1000⟩ = [] := by decide
    rw [alone, Span.cover_nil]
    exact Set.disjoint_empty _
  cases returned : (FrontEnd.xhci ⟨none⟩).allocate
      (oneRegion usedBump .bit32 ⟨0x2000, 0x1000⟩) smallLayout with
  | error fault => simp [returned, Except.toBool] at returns
  | ok value => exact ⟨value.1, value.2, rfl, (reports_iff (by decide) returned).mpr sound⟩

/-- After the run that leaves the second area in the tree twice, a block from one of the two
remains free in the other. -/
theorem reports_false :
    ¬∀ (kind : FrontEnd) (heap heap' : KernelHeap) (layout : Layout) (result : AllocResult),
      (∃ areas, HeapAreas areas ∧ ∃ s, (heapSystem areas).Reachable s ∧ heap.tree = s.alloc) →
      0 < layout.size → kind.allocate heap layout = .ok (result, heap') →
      Reports kind heap layout result heap' := by
  intro always
  have executed : ((HeapState.boot sampleBump touchingAreas).bind
      (Behaviour.run HeapState.attempt (fun _ _ => True) · sharedBaseCalls)).map (fun s =>
        (s.alloc.alloc directMap (.ofLayout smallLayout)).toOption.map fun served =>
          (served.1, regions served.2.root)) =
      some (some (some 0x2000, [⟨0x1000, 0x100⟩, ⟨0x2200, 0xE00⟩, ⟨0x2000, 0x2000⟩])) := by
    decide +kernel
  obtain ⟨s, reach, evaluated⟩ := HeapState.exists_reach executed
  obtain ⟨⟨out, tree⟩, served, outcome⟩ := Option.map_eq_some_iff.mp evaluated
  rw [toOption_eq_some] at served
  obtain ⟨rfl, free⟩ := Prod.mk.inj outcome
  let heap : KernelHeap := ⟨s.bump, s.alloc, directMap, some .bit64⟩
  have returned : FrontEnd.tree.allocate heap smallLayout =
      .ok (okUnchecked 0x2000 0x200, { heap with tree := tree }) := by
    rw [FrontEnd.allocate, TreeAlloc.allocate, served]
    rfl
  have backing : FrontEnd.tree.backing heap smallLayout = .ok (some 0x2000) := by
    rw [FrontEnd.backing, served]
    rfl
  have reports := always _ heap _ _ _ ⟨_, touchingAreas_valid, s, reach, rfl⟩ (by decide) returned
  obtain ⟨block, -, same, -, apart⟩ := reports.success _ backing
  have listed : regions tree.root = _ := free
  have twice : (⟨0x2000, 0x2000⟩ : Region) ∈ regions tree.root := by simp [listed]
  rw [same] at apart
  have meet := Span.disjoint_cover.mp apart _ twice
  exact Span.disjoint_iff.mp meet 0x2000 (by decide) (by decide) (by decide) (by decide)

end Blubos
