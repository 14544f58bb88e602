import Blubos.Allocator.FrontEnds
import Blubos.Allocator.Search
import Blubos.Allocator.Separated
import Blubos.Allocator.Sizes

/-!
# Enough memory

A call that allocates several blocks one after the other finds enough memory when each of its
requests is served by what the earlier ones left.  The blocks are then disjoint parts of what was
free at the beginning.  One large free region is enough for any list of requests.
-/

namespace Blubos

/-- What the page-table mapper does with some memory. -/
structure MappedMemory (translate : ℕ → Option ℕ) (memory : Set ℕ) : Prop where
  /-- Every address is mapped to a physical address with the same offset in its page. -/
  total : ∀ a ∈ memory, ∃ physical, translate a = some physical ∧ physical < 2 ^ 52 ∧
    physical % 0x1000 = a % 0x1000
  injective : Set.InjOn translate memory

/-- Free regions that are apart from each other, in memory that is mapped and does not reach to
either end of the address space. -/
structure Provisioned (translate : ℕ → Option ℕ) (spans : List Region) : Prop where
  apart : Span.Apart spans
  nonnull : 0 ∉ Span.cover spans
  ends : ∀ r ∈ spans, r.stop + 0xfff ≤ Usize.max
  mapped : MappedMemory translate (Span.cover spans)

/-- A block of at least one byte, aligned to a page at most. -/
structure Layout.Modest (layout : Layout) : Prop where
  positive : 0 < layout.size
  small : layout.align ≤ 0x1000

/-- Requests are served one after the other, by a scan of the free regions. -/
def Provides (map : AddressMap) : List Region → List Layout → Prop
  | _, [] => True
  | spans, layout :: layouts => (firstFitScan map (.ofLayout layout) spans).1.isSome ∧
      Provides map (firstFitScan map (.ofLayout layout) spans).2 layouts

theorem MappedMemory.mono {translate : ℕ → Option ℕ} {memory part : Set ℕ}
    (mapped : MappedMemory translate memory) (inside : part ⊆ memory) :
    MappedMemory translate part :=
  ⟨fun a member => mapped.total a (inside member), mapped.injective.mono inside⟩

section Scan

variable {translate : ℕ → Option ℕ} {map : AddressMap} {spans : List Region} {layout : Layout}
  {layouts : List Layout} {r : Region}

theorem toPhysicalAddr_of_some (present : map.mapper = some translate) {a physical : ℕ}
    (mapped : translate a = some physical) : map.toPhysicalAddr a = .ok physical := by
  simp only [AddressMap.toPhysicalAddr, present, mapped]

theorem Request.start_lt (request : Request) (r : Region) :
    request.start r < r.base + request.align := by
  obtain ⟨k, power⟩ := request.power
  have positive : 0 < request.align := power ▸ Nat.two_pow_pos k
  have below : request.start r ≤ r.base + (request.align - 1) := Nat.div_mul_le_self _ _
  omega

theorem Provisioned.start_mapped (provisioned : Provisioned translate spans)
    (modest : layout.Modest) (member : r ∈ spans)
    (room : (Request.ofLayout layout).start r + layout.size ≤ r.stop) :
    ∃ physical, translate ((Request.ofLayout layout).start r) = some physical ∧
      physical < 2 ^ 52 := by
  have inside : (Request.ofLayout layout).start r ∈ Span.cover spans := by
    have positive := modest.positive
    exact ⟨r, member, (Request.ofLayout layout).le_start r, by omega⟩
  obtain ⟨physical, mapped, low, -⟩ := provisioned.mapped.total _ inside
  exact ⟨physical, mapped, low⟩

/-- The arithmetic of a search stays in `usize`. -/
theorem Provisioned.inRange (provisioned : Provisioned translate spans)
    (present : map.mapper = some translate) (modest : layout.Modest) (member : r ∈ spans) :
    InRange map (.ofLayout layout) r := by
  have ends := provisioned.ends r member
  have order := r.base_le_stop
  have small := modest.small
  have below := (Request.ofLayout layout).start_lt r
  have fits := layout.fits
  have align : (Request.ofLayout layout).align = layout.align := rfl
  have size : (Request.ofLayout layout).size = layout.size := rfl
  refine ⟨by omega, ?_, fun room => ?_⟩
  · rw [Usize.max] at ends ⊢
    omega
  · have above := (Request.ofLayout layout).le_start r
    have stop : (Request.ofLayout layout).start r + layout.size ≤ r.stop := by
      rw [Span.stop]
      omega
    obtain ⟨physical, mapped, low⟩ := provisioned.start_mapped modest member stop
    refine ⟨by omega, physical, toPhysicalAddr_of_some present mapped, ?_⟩
    rw [Usize.max]
    omega

theorem exists_first_fit {request : Request} (fits : ∃ r ∈ spans, Fits map request r) :
    ∃ r before after, spans = before ++ r :: after ∧ Fits map request r ∧
      ∀ q ∈ before, ¬Fits map request q := by
  obtain ⟨q, listed, fitting⟩ := fits
  obtain ⟨r, first⟩ := Option.isSome_iff_exists.mp (List.find?_isSome.mpr
    ⟨q, listed, decide_eq_true fitting⟩ : (spans.find? fun r => decide (Fits map request r)).isSome)
  obtain ⟨found, before, after, split, earlier⟩ := List.find?_eq_some_iff_append.mp first
  exact ⟨r, before, after, split, of_decide_eq_true found, fun q inside => by
    simpa using earlier q inside⟩

theorem firstFitScan_isSome_iff {request : Request} :
    (firstFitScan map request spans).1.isSome ↔ ∃ r ∈ spans, Fits map request r := by
  constructor
  · intro found
    by_contra none
    push Not at none
    rw [firstFitScan_none none] at found
    cases found
  · intro fits
    obtain ⟨r, before, after, rfl, found, earlier⟩ := exists_first_fit fits
    rw [firstFitScan_some earlier found, Option.isSome_some]

/-- What a scan that finds a region takes and leaves. -/
structure ScanTakes (translate : ℕ → Option ℕ) (spans : List Region) (layout : Layout) (a : ℕ)
    (rest : List Region) : Prop where
  aligned : layout.align ∣ a
  nonnull : 0 < a
  inside : (⟨a, layout.size⟩ : Span).addresses ⊆ Span.cover spans
  gone : Disjoint (⟨a, layout.size⟩ : Span).addresses (Span.cover rest)
  shrinks : Span.cover rest ⊆ Span.cover spans
  provisioned : Provisioned translate rest

/-- A scan that finds a region takes its first aligned block. -/
theorem firstFitScan_takes (provisioned : Provisioned translate spans)
    (present : map.mapper = some translate) (modest : layout.Modest)
    (found : (firstFitScan map (.ofLayout layout) spans).1.isSome) :
    ∃ r before after, spans = before ++ r :: after ∧
      firstFitScan map (.ofLayout layout) spans = (some ((Request.ofLayout layout).start r),
        before ++ (Request.ofLayout layout).remainder r :: after) ∧
      ScanTakes translate spans layout ((Request.ofLayout layout).start r)
        (before ++ (Request.ofLayout layout).remainder r :: after) := by
  obtain ⟨r, before, after, rfl, fits, earlier⟩ :=
    exists_first_fit (firstFitScan_isSome_iff.mp found)
  have member : r ∈ before ++ r :: after := by simp
  have serves : Serves map (.ofLayout layout) r :=
    (serves_iff_fits modest.positive (by simp [Request.ofLayout])
      (provisioned.inRange present modest member)).mpr fits
  have shrinks : Span.cover (before ++ (Request.ofLayout layout).remainder r :: after) ⊆
      Span.cover (before ++ r :: after) := by
    rw [Span.cover_append, Span.cover_append, Span.cover_cons, Span.cover_cons]
    exact Set.union_subset_union_right _
      (Set.union_subset_union_left _ serves.remainder_subset)
  have inside : (⟨(Request.ofLayout layout).start r, layout.size⟩ : Span).addresses ⊆
      Span.cover (before ++ r :: after) :=
    serves.block_subset.trans (Span.addresses_subset_cover member)
  refine ⟨r, before, after, rfl, firstFitScan_some earlier fits,
    (Request.ofLayout layout).dvd_start r, ?_, ?_, serves.block_disjoint provisioned.apart.disjoint,
    shrinks, ?_⟩
  · refine Nat.pos_of_ne_zero fun null => provisioned.nonnull (inside ⟨null.le, ?_⟩)
    rw [Span.stop, null, Nat.zero_add]
    exact modest.positive
  · exact inside
  · refine ⟨provisioned.apart.shrink ((Request.ofLayout layout).base_le_remainder r)
      serves.remainder_stop.le, fun null => provisioned.nonnull (shrinks null), fun q inside => ?_,
      provisioned.mapped.mono shrinks⟩
    · rcases List.mem_append.mp inside with inside | inside
      · exact provisioned.ends q (by simp [inside])
      · rcases List.mem_cons.mp inside with rfl | inside
        · rw [serves.remainder_stop]
          exact provisioned.ends r member
        · exact provisioned.ends q (by simp [inside])

/-- A region that is large enough for all requests serves them, even when every request loses its
alignment. -/
theorem provides_of_region (provisioned : Provisioned translate spans)
    (present : map.mapper = some translate) (modest : ∀ layout ∈ layouts, layout.Modest)
    (member : r ∈ spans)
    (large : (layouts.map fun layout => layout.size + layout.align).sum ≤ r.size) :
    Provides map spans layouts := by
  induction layouts generalizing spans r with
  | nil => trivial
  | cons layout layouts induction =>
      have modest' := modest layout List.mem_cons_self
      rw [List.map_cons, List.sum_cons] at large
      have below := (Request.ofLayout layout).start_lt r
      have align : (Request.ofLayout layout).align = layout.align := rfl
      have above := (Request.ofLayout layout).le_start r
      have room : (Request.ofLayout layout).start r + layout.size ≤ r.stop := by
        rw [Span.stop]
        omega
      have fits : Fits map (.ofLayout layout) r := by
        obtain ⟨physical, mapped, low⟩ := provisioned.start_mapped modest' member room
        have size : (Request.ofLayout layout).size = layout.size := rfl
        have bound := layout.fits
        refine ⟨by omega, ⟨physical, toPhysicalAddr_of_some present mapped, ?_⟩,
          by simp [Request.ofLayout]⟩
        change physical + layout.size ≤ Usize.max
        rw [Usize.max]
        omega
      have found := firstFitScan_isSome_iff.mpr ⟨r, member, fits⟩
      obtain ⟨first, before, after, rfl, scanned, takes⟩ :=
        firstFitScan_takes provisioned present modest' found
      refine ⟨found, ?_⟩
      rw [scanned]
      have later : ∀ layout ∈ layouts, layout.Modest :=
        fun layout inside => modest layout (List.mem_cons_of_mem _ inside)
      rcases List.mem_append.mp member with inside | inside
      · exact induction takes.provisioned later (List.mem_append_left _ inside) (by omega)
      · rcases List.mem_cons.mp inside with rfl | inside
        · refine induction takes.provisioned later
            (List.mem_append_right _ List.mem_cons_self) ?_
          simp only [Request.remainder, Span.stop, Request.ofLayout] at above below room align ⊢
          omega
        · exact induction takes.provisioned later
            (List.mem_append_right _ (List.mem_cons_of_mem _ inside)) (by omega)

end Scan

/-! ## Allocations of the kernel -/

/-- The kernel's heap when the controller is set up: the tree allocator is intact, its memory is
mapped, and the address mode of the controller is known. -/
structure KernelHeap.Ready (heap : KernelHeap) (translate : ℕ → Option ℕ) : Prop where
  exact : MaxSizesExact heap.tree.root
  present : heap.map.mapper = some translate
  mode : heap.mode.isSome
  provisioned : Provisioned translate (regions heap.tree.root)

/-- The free addresses. -/
def KernelHeap.free (heap : KernelHeap) : Set ℕ := Span.cover (regions heap.tree.root)

/-- The free memory serves some layouts one after the other. -/
def KernelHeap.Provides (heap : KernelHeap) (layouts : List Layout) : Prop :=
  Blubos.Provides heap.map (regions heap.tree.root) layouts

/-- Allocations have taken some blocks. -/
structure Takes (heap : KernelHeap) (blocks : List Span) (heap' : KernelHeap) : Prop where
  inside : ∀ block ∈ blocks, block.addresses ⊆ heap.free
  gone : ∀ block ∈ blocks, Disjoint block.addresses heap'.free
  apart : blocks.Pairwise fun first second => Disjoint first.addresses second.addresses
  shrinks : heap'.free ⊆ heap.free
  map : heap'.map = heap.map

namespace Takes

variable {heap middle heap' : KernelHeap} {blocks later : List Span}

theorem nothing (heap : KernelHeap) : Takes heap [] heap :=
  ⟨by simp, by simp, List.Pairwise.nil, subset_rfl, rfl⟩

theorem trans (first : Takes heap blocks middle) (second : Takes middle later heap') :
    Takes heap (blocks ++ later) heap' := by
  refine ⟨fun block member => ?_, fun block member => ?_, ?_,
    second.shrinks.trans first.shrinks, second.map.trans first.map⟩
  · rcases List.mem_append.mp member with member | member
    · exact first.inside block member
    · exact (second.inside block member).trans first.shrinks
  · rcases List.mem_append.mp member with member | member
    · exact (first.gone block member).mono_right second.shrinks
    · exact second.gone block member
  · refine List.pairwise_append.mpr ⟨first.apart, second.apart, fun block taken block' member => ?_⟩
    exact (first.gone block taken).mono_right (second.inside block' member)

theorem sublist {fewer : List Span} (takes : Takes heap blocks heap')
    (part : fewer.Sublist blocks) : Takes heap fewer heap' :=
  ⟨fun block member => takes.inside block (part.subset member),
    fun block member => takes.gone block (part.subset member), takes.apart.sublist part,
    takes.shrinks, takes.map⟩

end Takes

section Alloc

variable {translate : ℕ → Option ℕ} {heap : KernelHeap} {layout : Layout} {layouts : List Layout}

theorem TreeAlloc.alloc_takes (self : TreeAlloc) (ready : heap.Ready translate)
    (modest : layout.Modest) (provides : heap.Provides (layout :: layouts)) :
    ∃ a heap', self.alloc heap layout = .ok (a, heap') ∧ layout.align ∣ a ∧ 0 < a ∧
      heap'.Ready translate ∧ Takes heap [⟨a, layout.size⟩] heap' ∧ heap'.Provides layouts := by
  obtain ⟨found, rest⟩ := provides
  obtain ⟨r, before, after, -, scanned, takes⟩ :=
    firstFitScan_takes ready.provisioned ready.present modest found
  obtain ⟨tree, searched, remains, exact, -⟩ := alloc_eq_scan ready.exact modest.positive
    (by simp [Request.ofLayout]) fun r member =>
      ready.provisioned.inRange ready.present modest member
  rw [scanned] at searched remains rest
  refine ⟨_, { heap with tree := tree }, ?_, takes.aligned, takes.nonnull,
    ⟨exact, ready.present, ready.mode, remains ▸ takes.provisioned⟩, ?_, ?_⟩
  · rw [TreeAlloc.alloc, searched]
    rfl
  · refine ⟨by simpa [KernelHeap.free] using takes.inside, ?_, List.pairwise_singleton _ _, ?_, rfl⟩
    · simpa [KernelHeap.free, remains] using takes.gone
    · simpa [KernelHeap.free, remains] using takes.shrinks
  · rw [KernelHeap.Provides, remains]
    exact rest

theorem XhciAllocator.allocate_takes (self : XhciAllocator) (ready : heap.Ready translate)
    (modest : layout.Modest) (provides : heap.Provides (layout :: layouts)) :
    ∃ a heap', (∃ present, self.allocate heap layout =
        .ok (.ok ⟨⟨a, layout.size⟩, present⟩, heap')) ∧ layout.align ∣ a ∧ heap'.Ready translate ∧
      Takes heap [⟨a, layout.size⟩] heap' ∧ heap'.Provides layouts := by
  obtain ⟨mode, known⟩ := Option.isSome_iff_exists.mp ready.mode
  obtain ⟨a, heap', allocated, aligned, present, ready', takes, rest⟩ :=
    TreeAlloc.alloc_takes ⟨none, none⟩ ready modest provides
  refine ⟨a, heap', ⟨present.ne', ?_⟩, aligned, ready', takes, rest⟩
  have unread : self.allocate heap layout = TreeAlloc.alloc ⟨none, none⟩ heap layout >>=
      fun served => .ok (okUnchecked served.1 layout.size, served.2) := by
    rw [XhciAllocator.allocate, known, unwrap_some, ok_bind]
    rfl
  rw [unread, allocated, ok_bind, okUnchecked_of_ne present.ne']

/-- The first address of a block that was free is mapped, at the same place of its page. -/
theorem Takes.mapped {heap' : KernelHeap} {a size : ℕ} (takes : Takes heap [⟨a, size⟩] heap')
    (ready : heap.Ready translate) (positive : 0 < size) :
    a ∈ heap.free ∧ ∃ physical, translate a = some physical ∧ physical % 0x1000 = a % 0x1000 := by
  have inside : a ∈ heap.free := by
    refine takes.inside _ (List.mem_singleton_self _) ⟨le_rfl, ?_⟩
    exact Nat.lt_add_of_pos_right positive
  obtain ⟨physical, mapped, -, offset⟩ := ready.provisioned.mapped.total a inside
  exact ⟨inside, physical, mapped, offset⟩

end Alloc

/-- The kernel's heap is ready in every state of every run on heap areas with gaps between them,
when these are mapped and do not reach to the ends of the address space. -/
theorem GapSeparated.ready {areas : List Region} (separated : GapSeparated areas)
    (nonnull : 0 ∉ Span.cover areas) (ends : ∀ r ∈ areas, r.stop ≤ Usize.max - 0xfff)
    {translate : ℕ → Option ℕ} (mapped : MappedMemory translate (Span.cover areas))
    {s : HeapState} (reach : (heapSystem areas).Reachable s) {heap : KernelHeap}
    (tree : heap.tree = s.alloc) (present : heap.map.mapper = some translate)
    (mode : heap.mode.isSome) : heap.Ready translate := by
  obtain ⟨owned, intact, -⟩ := separated.spaced reach
  have bounded := separated.bounded ends reach
  refine ⟨tree ▸ intact.exact, present, mode, ?_⟩
  rw [tree]
  refine ⟨owned.apart, fun null => nonnull (owned.inside null), fun r member => ?_,
    mapped.mono owned.inside⟩
  have := bounded r member
  rw [Usize.max] at this ⊢
  omega

end Blubos
