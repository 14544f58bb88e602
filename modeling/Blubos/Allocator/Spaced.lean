import Blubos.Allocator.Intact
import Mathlib.Data.List.Nodup

/-!
# Runs with gaps between the free regions

Gaps between the free regions survive every call: an allocation shrinks one of them, and a freed
extent is merged with the regions that touch it.  No two nodes share a base then, so the deletions
of `free` keep the structural invariant.
-/

namespace Blubos

/-- With gaps between the regions, every node has its base to itself. -/
theorem Span.Gapped.count_base {spans : List Region} (gapped : Span.Gapped spans) {r : Region}
    (member : r ∈ spans) : (spans.map (·.base)).count r.base = 1 := by
  have distinct : (spans.map (·.base)).Nodup := by
    rw [List.Nodup, List.pairwise_map]
    exact gapped.imp fun {left _} order => (left.base_le_stop.trans_lt order).ne
  exact List.count_eq_one_of_mem distinct (List.mem_map.mpr ⟨r, member, rfl⟩)

theorem soleKeys_of_gapped {s : HeapState} (gapped : Span.Gapped s.free) (call : HeapCall) :
    SoleKeys s call := by
  cases call with
  | alloc => trivial
  | free =>
      exact ⟨fun p member _ _ => gapped.count_base member,
        fun q member _ _ _ => gapped.count_base member⟩

section Extent

variable {self : RBTreeAlloc} {block : Span} {left whole : RBTreeAlloc.Extent} {r : Region}

/-- The remaining regions that start no later than the extent end strictly before it. -/
theorem Merged.stop_lt (merged : Merged self block left whole)
    (clear : Clear (regions self.root) block) (gapped : Span.Gapped (regions self.root))
    (member : r ∈ regions self.root) (order : r.base ≤ whole.base)
    (otherLeft : left.key ≠ some r.base) (otherWhole : whole.key ≠ some r.base) :
    r.stop < whole.base := by
  rcases mergePredecessor_spec clear merged.1 with
    ⟨rfl, below⟩ | ⟨p, before, after, split, small, touches, later, rfl⟩
  · have positive := clear.positive
    rcases mergeSuccessor_spec clear.apart.sorted merged.2 with
      ⟨rfl, beyond⟩ | ⟨s, before, after, split, earlier, large, -, rfl⟩
    · have strict : r.base < block.base := by
        by_contra above
        have := beyond r member (not_lt.mp above)
        simp only at this order
        omega
      exact below r member strict
    · have strict : r.base < block.base := by
        rw [split, Span.Gapped, Span.pairwise_middle] at gapped
        rw [split, List.mem_append, List.mem_cons] at member
        rcases member with member | rfl | member
        · exact earlier r member
        · exact absurd rfl otherWhole
        · have := gapped.2.2 r member
          have := s.base_le_stop
          simp only at order
          omega
      exact below r member strict
  · have wholeBase : whole.base = p.base := merged.base_eq clear
    rw [wholeBase] at order ⊢
    rw [split, Span.Gapped, Span.pairwise_middle] at gapped
    rw [split, List.mem_append, List.mem_cons] at member
    rcases member with member | rfl | member
    · exact gapped.2.1 r member
    · exact absurd rfl otherLeft
    · have := later r member
      omega

/-- The remaining regions that start after the extent's base start strictly after its end. -/
theorem Merged.stop_lt_base (merged : Merged self block left whole)
    (clear : Clear (regions self.root) block) (gapped : Span.Gapped (regions self.root))
    (member : r ∈ regions self.root) (order : whole.base < r.base)
    (otherWhole : whole.key ≠ some r.base) : whole.base + whole.size < r.base := by
  have above := merged.block_base_le clear member order
  obtain ⟨starts, -⟩ := mergePredecessor_reach clear merged.1
  rcases mergeSuccessor_spec clear.apart.sorted merged.2 with
    ⟨rfl, beyond⟩ | ⟨s, before, after, split, earlier, large, -, rfl⟩
  · exact beyond r member above
  · have ends : left.base + (s.stop - left.base) = s.stop := by
      have := s.base_le_stop
      omega
    rw [ends]
    rw [split, Span.Gapped, Span.pairwise_middle] at gapped
    rw [split, List.mem_append, List.mem_cons] at member
    rcases member with member | rfl | member
    · exact absurd above (not_le.mpr (earlier r member))
    · exact absurd rfl otherWhole
    · exact gapped.2.2 r member

end Extent

theorem keySorted_of_gapped {spans : List Region} (gapped : Span.Gapped spans) (key : ℕ) :
    KeySorted key spans :=
  gapped.imp fun {left right} order => by
    have := left.base_le_stop
    omega

/-- What `free` of a live block leaves when gaps separate the free regions. -/
structure FreedBetweenGaps (s : HeapState) (block : Span) (left whole : RBTreeAlloc.Extent)
    (kept alloc : RBTreeAlloc) : Prop where
  /-- The extent is the one the two searches found. -/
  merged : Merged s.alloc block left whole
  /-- The deletions removed nothing but the absorbed regions. -/
  keeps : ∀ r ∈ s.free, r ∈ regions kept.root ∨ left.key = some r.base ∨ whole.key = some r.base
  drops : ∀ r ∈ regions kept.root, r ∈ s.free ∧ left.key ≠ some r.base ∧ whole.key ≠ some r.base
  gapped : Span.Gapped (regions alloc.root)
  /-- The free addresses are those of the extent and of the regions kept. -/
  cover : Span.cover (regions alloc.root) =
    (⟨whole.base, whole.size⟩ : Span).addresses ∪ Span.cover (regions kept.root)
  /-- A free region is an old one or the extent, which is not empty then. -/
  origin : ∀ r ∈ regions alloc.root, r ∈ s.free ∨ r = ⟨whole.base, whole.size⟩ ∧ 0 < r.size

section Runs

variable {areas : List Region} {s : HeapState}

theorem freedBetweenGaps {block : Span} {alloc : RBTreeAlloc} {bump : BumpHeap}
    (owned : Owned areas s) (intact : s.alloc.Intact) (gapped : Span.Gapped s.free)
    (member : block ∈ s.live)
    (freed : s.alloc.free s.bump block.base block.size = .ok (alloc, bump)) :
    ∃ left whole kept, FreedBetweenGaps s block left whole kept alloc := by
  have clear := owned.clear member
  obtain ⟨left, whole, -, -, merged, -⟩ := free_cases freed
  obtain ⟨kept, -, sub, keeps, drops, -, reached⟩ := intact.free clear merged
    (fun k _ => keySorted_of_gapped gapped k) (fun k _ => keySorted_of_gapped gapped k) s.bump
  rw [reached] at freed
  have gappedKept : Span.Gapped (regions kept.root) := gapped.sublist sub
  refine ⟨left, whole, kept, merged, keeps,
    fun r inside => ⟨sub.subset inside, drops r inside⟩, ?_, ?_, ?_⟩
  all_goals
    rcases insert_regions freed with ⟨empty, rfl⟩ | ⟨positive, before, after, split, joined, placed⟩
  · exact gappedKept
  · obtain ⟨small, large⟩ := placed gappedKept.apart.sorted
    rw [joined, Span.Gapped, Span.pairwise_middle, ← split]
    refine ⟨gappedKept, fun r inside => ?_, fun r inside => ?_⟩
    · have insideKept : r ∈ regions kept.root := by simp [split, inside]
      obtain ⟨otherLeft, otherWhole⟩ := drops r insideKept
      exact merged.stop_lt clear gapped (sub.subset insideKept) (small r inside) otherLeft
        otherWhole
    · have insideKept : r ∈ regions kept.root := by simp [split, inside]
      exact merged.stop_lt_base clear gapped (sub.subset insideKept) (large r inside)
        (drops r insideKept).2
  · rw [Span.addresses_of_empty empty, Set.empty_union]
  · rw [joined, split, Span.cover_append, Span.cover_append, Span.cover_cons]
    exact Set.union_left_comm _ _ _
  · exact fun r inside => .inl (sub.subset inside)
  · intro r inside
    rw [joined, List.mem_append, List.mem_cons] at inside
    rcases inside with earlier | rfl | later
    · exact .inl (sub.subset (by simp [split, earlier]))
    · exact .inr ⟨rfl, positive⟩
    · exact .inl (sub.subset (by simp [split, later]))

/-- The invariant of runs on areas with gaps. -/
structure Spaced (areas : List Region) (s : HeapState) : Prop where
  owned : Owned areas s
  intact : s.alloc.Intact
  gapped : Span.Gapped s.free

theorem Spaced.step {s' : HeapState} {call : HeapCall} (spaced : Spaced areas s)
    (taken : (heapSystem areas).step s call s') : Spaced areas s' := by
  have sole := soleKeys_of_gapped spaced.gapped call
  refine ⟨spaced.owned.step sole.soleBase taken,
    intact_step spaced.owned spaced.intact sole taken, ?_⟩
  obtain ⟨permitted, performed⟩ := taken
  rcases HeapState.perform_cases performed with
    ⟨map, request, tree, rfl, searched, rfl⟩ | ⟨map, request, tree, a, rfl, searched, rfl⟩ |
    ⟨block, alloc, bump, rfl, freed, rfl⟩
  · rw [HeapState.free, regions_paint]
    cases (allocRec_spec searched).2 with
    | refused same =>
        rw [same]
        exact spaced.gapped
  · rw [HeapState.free, regions_paint]
    cases (allocRec_spec searched).2 with
    | @took before after _ _ r split shrunk _ serves _ _ =>
        have gapped := spaced.gapped
        rw [HeapState.free, split] at gapped
        rw [shrunk]
        exact gapped.shrink (request.base_le_remainder r) serves.remainder_stop.le
  · obtain ⟨_, _, _, between⟩ :=
      freedBetweenGaps spaced.owned spaced.intact spaced.gapped permitted freed
    exact between.gapped

/-- A block does not reach past a limit that the heap areas keep. -/
theorem Owned.stop_le {limit : ℕ} (owned : Owned areas s) (ends : ∀ r ∈ areas, r.stop ≤ limit)
    {block : Span} (member : block ∈ s.live) : block.stop ≤ limit := by
  have positive := owned.positive block member
  have last : block.stop - 1 ∈ block.addresses := by
    simp only [Span.mem_addresses, Span.stop]
    omega
  obtain ⟨r, inside, -, below⟩ := owned.live_inside block member last
  have := ends r inside
  omega

/-- An allocation takes away from the start of a region, if anything. -/
theorem bounded_alloc {limit : ℕ} {map : AddressMap} {request : Request} {tree : Link}
    {out : Option ℕ}
    (bounded : ∀ r ∈ s.free, r.stop ≤ limit)
    (searched : RBTreeAlloc.allocRec map request s.alloc.root = .ok (tree, out)) :
    ∀ r ∈ regions tree, r.stop ≤ limit := by
  cases (allocRec_spec searched).2 with
  | refused same =>
      rw [same]
      exact bounded
  | @took before after _ _ r split shrunk _ serves _ _ =>
      rw [HeapState.free, split] at bounded
      rw [shrunk]
      intro q member
      rw [List.mem_append, List.mem_cons] at member
      rcases member with member | rfl | member
      · exact bounded q (by simp [member])
      · rw [serves.remainder_stop]
        exact bounded r (by simp)
      · exact bounded q (by simp [member])

/-- The merged extent ends where the block or a region ends. -/
theorem bounded_free {limit : ℕ} {block : Span} {left whole : RBTreeAlloc.Extent}
    {kept alloc : RBTreeAlloc}
    (between : FreedBetweenGaps s block left whole kept alloc) (clear : Clear s.free block)
    (bounded : ∀ r ∈ s.free, r.stop ≤ limit) (fits : block.stop ≤ limit) :
    ∀ r ∈ regions alloc.root, r.stop ≤ limit := by
  obtain ⟨-, reach⟩ := mergePredecessor_reach clear between.merged.1
  intro r member
  rcases between.origin r member with old | ⟨rfl, -⟩
  · exact bounded r old
  · rcases mergeSuccessor_spec clear.apart.sorted between.merged.2 with
      ⟨rfl, -⟩ | ⟨q, before, after, split, -, large, -, rfl⟩
    · exact reach.trans fits
    · have inside := bounded q (by rw [HeapState.free, split]; simp)
      simp only [Span.stop] at inside ⊢
      omega

theorem Spaced.bounded_step {limit : ℕ} {s' : HeapState} {call : HeapCall} (spaced : Spaced areas s)
    (ends : ∀ r ∈ areas, r.stop ≤ limit) (bounded : ∀ r ∈ s.free, r.stop ≤ limit)
    (taken : (heapSystem areas).step s call s') : ∀ r ∈ s'.free, r.stop ≤ limit := by
  obtain ⟨permitted, performed⟩ := taken
  rcases HeapState.perform_cases performed with
    ⟨map, request, tree, rfl, searched, rfl⟩ | ⟨map, request, tree, a, rfl, searched, rfl⟩ |
    ⟨block, alloc, bump, rfl, freed, rfl⟩
  · rw [HeapState.free, regions_paint]
    exact bounded_alloc bounded searched
  · rw [HeapState.free, regions_paint]
    exact bounded_alloc bounded searched
  · obtain ⟨left, whole, _, between⟩ :=
      freedBetweenGaps spaced.owned spaced.intact spaced.gapped permitted freed
    exact bounded_free between (spaced.owned.clear permitted) bounded
      (spaced.owned.stop_le ends permitted)

end Runs

end Blubos
