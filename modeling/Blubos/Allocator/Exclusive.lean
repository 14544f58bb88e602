import Blubos.Allocator.Runs

/-!
# Nobody gets an address twice

The live blocks and the free regions never meet, as long as `free` deletes the region that ends at
the freed block and not another node with the same base.  A region that `alloc` has used up stays
in the tree as an empty node, whose base moves to the end of the region; where the next heap area
begins there, two nodes share a base and `free` may delete the wrong one.
-/

namespace Blubos

/-- No address is handed out twice and none is made up. -/
structure Exclusive (areas : List Region) (s : HeapState) : Prop where
  live : s.live.Pairwise fun left right => Disjoint left.addresses right.addresses
  /-- A live block is disjoint from every free region. -/
  live_free : ∀ block ∈ s.live, ∀ r ∈ s.free, Disjoint block.addresses r.addresses
  free : s.free.Pairwise fun left right => Disjoint left.addresses right.addresses
  inside : ∀ r ∈ s.free, r.addresses ⊆ Span.cover areas
  live_inside : ∀ block ∈ s.live, block.addresses ⊆ Span.cover areas

/-- The invariant of the runs: the free regions are in order, and every block came from the heap
areas and is disjoint from the rest. -/
structure Owned (areas : List Region) (s : HeapState) : Prop where
  /-- Free regions are in order; they may touch and may be empty. -/
  apart : Span.Apart s.free
  live : s.live.Pairwise fun left right => Disjoint left.addresses right.addresses
  live_free : ∀ block ∈ s.live, Disjoint block.addresses (Span.cover s.free)
  positive : ∀ block ∈ s.live, 0 < block.size
  inside : Span.cover s.free ⊆ Span.cover areas
  live_inside : ∀ block ∈ s.live, block.addresses ⊆ Span.cover areas

theorem Owned.exclusive {areas : List Region} {s : HeapState} (owned : Owned areas s) :
    Exclusive areas s where
  live := owned.live
  live_free block member := Span.disjoint_cover.mp (owned.live_free block member)
  free := owned.apart.disjoint
  inside := Span.cover_subset.mp owned.inside
  live_inside := owned.live_inside

theorem Owned.of_eq {areas : List Region} {s s' : HeapState} (owned : Owned areas s)
    (free : s'.free = s.free) (live : s'.live = s.live) : Owned areas s' where
  apart := free ▸ owned.apart
  live := live ▸ owned.live
  live_free := by
    rw [free, live]
    exact owned.live_free
  positive := live ▸ owned.positive
  inside := free ▸ owned.inside
  live_inside := live ▸ owned.live_inside

/-- What `free` relies on for a live block. -/
theorem Owned.clear {areas : List Region} {s : HeapState} (owned : Owned areas s) {block : Span}
    (member : block ∈ s.live) : Clear s.free block where
  apart := owned.apart
  disjoint r inside := (Span.disjoint_cover.mp (owned.live_free block member) r inside).symm
  positive := owned.positive block member

/-- The condition on a call: the region that ends at a freed block shares its base with no other
node of the tree. -/
def SoleBase (s : HeapState) : HeapCall → Prop
  | .alloc _ _ => True
  | .free block => ∀ p ∈ s.free, p.base < block.base → p.stop = block.base →
      (s.free.map (·.base)).count p.base = 1

instance (s : HeapState) (call : HeapCall) : Decidable (SoleBase s call) :=
  match call with
  | .alloc _ _ => inferInstanceAs (Decidable True)
  | .free block => inferInstanceAs (Decidable (∀ p ∈ s.free, p.base < block.base →
      p.stop = block.base → (s.free.map (·.base)).count p.base = 1))

/-- Regions in order, at most one of which starts at the key. -/
theorem keySorted_of_count {spans : List Region} {key : ℕ} (sorted : Sorted spans)
    (once : (spans.map (·.base)).count key ≤ 1) : KeySorted key spans := by
  induction spans with
  | nil => exact List.Pairwise.nil
  | cons span spans induction =>
      obtain ⟨least, sortedRest⟩ := List.pairwise_cons.mp sorted
      rw [List.map_cons, List.count_cons] at once
      refine List.pairwise_cons.mpr ⟨fun r member => ⟨least r member, fun hit same => ?_⟩, ?_⟩
      · have found : 0 < (spans.map (·.base)).count key :=
          List.count_pos_iff.mpr (List.mem_map.mpr ⟨r, member, same⟩)
        simp only [hit, beq_self_eq_true, if_true] at once
        omega
      · exact induction sortedRest (by omega)

section Steps

variable {areas : List Region} {s : HeapState}

/-- A search that serves a request moves a block from the free regions to the live blocks. -/
theorem Owned.alloc {map : AddressMap} {request : Request} {tree : Link} {a : ℕ}
    (owned : Owned areas s) (positive : 0 < request.size)
    (searched : RBTreeAlloc.allocRec map request s.alloc.root = .ok (tree, some a)) :
    Owned areas { s with
      alloc := { s.alloc with root := tree.paint .black }
      live := ⟨a, request.size⟩ :: s.live } := by
  obtain ⟨-, outcome⟩ := allocRec_spec searched
  cases outcome with
  | @took before after seen unseen r split shrunk _ serves _ _ =>
      have splitFree : s.free = before ++ r :: after := split
      have apart := owned.apart
      rw [splitFree] at apart
      have blockInside : (⟨request.start r, request.size⟩ : Span).addresses ⊆ Span.cover s.free :=
        serves.block_subset.trans (Span.addresses_subset_cover (by simp [splitFree]))
      have kept : Span.cover (before ++ request.remainder r :: after) ⊆ Span.cover s.free := by
        rw [splitFree, Span.cover_append, Span.cover_append, Span.cover_cons, Span.cover_cons]
        exact Set.union_subset_union_right _
          (Set.union_subset_union_left _ serves.remainder_subset)
      have free' : HeapState.free ⟨{ s.alloc with root := tree.paint .black }, s.bump,
          ⟨request.start r, request.size⟩ :: s.live⟩ = before ++ request.remainder r :: after := by
        rw [HeapState.free, regions_paint, shrunk]
      refine ⟨?_, ?_, ?_, ?_, ?_, ?_⟩
      · rw [free']
        exact apart.shrink (request.base_le_remainder r) serves.remainder_stop.le
      · refine List.pairwise_cons.mpr ⟨fun block member => ?_, owned.live⟩
        exact ((owned.live_free block member).mono_right blockInside).symm
      · rw [free']
        exact List.forall_mem_cons.mpr ⟨serves.block_disjoint apart.disjoint,
          fun block member => (owned.live_free block member).mono_right kept⟩
      · exact List.forall_mem_cons.mpr ⟨positive, owned.positive⟩
      · rw [free']
        exact kept.trans owned.inside
      · exact List.forall_mem_cons.mpr ⟨blockInside.trans owned.inside, owned.live_inside⟩

/-- `free` of a live block moves it back. -/
theorem Owned.free {block : Span} {alloc : RBTreeAlloc} {bump : BumpHeap}
    (owned : Owned areas s) (member : block ∈ s.live) (sole : SoleBase s (.free block))
    (freed : s.alloc.free s.bump block.base block.size = .ok (alloc, bump)) :
    Owned areas ⟨alloc, bump, s.live.erase block⟩ := by
  obtain ⟨apart, grown⟩ := free_regions (owned.clear member)
    (fun p inside below touches => keySorted_of_count owned.apart.sorted
      (sole p inside below touches).le) freed
  have others : ∀ other ∈ s.live.erase block, Disjoint other.addresses block.addresses := by
    have rearranged := owned.live.perm (List.perm_cons_erase member) fun apart => apart.symm
    exact fun other inside => ((List.pairwise_cons.mp rearranged).1 other inside).symm
  refine ⟨apart, ?_, ?_, ?_, ?_, ?_⟩
  · exact owned.live.sublist List.erase_sublist
  · intro other inside
    refine Set.disjoint_of_subset_right grown (Set.disjoint_union_right.mpr ⟨?_, ?_⟩)
    · exact others other inside
    · exact owned.live_free other (List.mem_of_mem_erase inside)
  · exact fun other inside => owned.positive other (List.mem_of_mem_erase inside)
  · exact grown.trans (Set.union_subset (owned.live_inside block member) owned.inside)
  · exact fun other inside => owned.live_inside other (List.mem_of_mem_erase inside)

theorem Owned.step {s' : HeapState} {call : HeapCall} (owned : Owned areas s)
    (sole : SoleBase s call) (taken : (heapSystem areas).step s call s') : Owned areas s' := by
  obtain ⟨permitted, performed⟩ := taken
  rcases HeapState.perform_cases performed with
    ⟨map, request, tree, rfl, searched, rfl⟩ | ⟨map, request, tree, a, rfl, searched, rfl⟩ |
    ⟨block, alloc, bump, rfl, freed, rfl⟩
  · obtain ⟨-, outcome⟩ := allocRec_spec searched
    cases outcome with
    | refused same =>
        refine owned.of_eq ?_ rfl
        rw [HeapState.free, regions_paint, same]
        rfl
  · exact owned.alloc permitted searched
  · exact owned.free permitted sole freed

end Steps

theorem Owned.start {areas : List Region} (valid : HeapAreas areas) {s : HeapState}
    (initial : (heapSystem areas).initial s) : Owned areas s := by
  have same := initial_free valid initial
  obtain ⟨-, -, dead⟩ := initial
  refine ⟨same ▸ valid.apart, ?_, ?_, ?_, same ▸ le_rfl, ?_⟩ <;> simp [dead]

/-- The invariant holds in every state of a run whose calls all meet the condition. -/
theorem owned_of_reach {areas : List Region} (valid : HeapAreas areas) {s : HeapState}
    (reach : (heapSystem areas).Reach SoleBase s) : Owned areas s :=
  reach.invariant (fun _ => Owned.start valid) fun _ _ _ owned sole taken => owned.step sole taken

/-- In a run in which no freed block ends a region that shares its base with another node, no
address is handed out twice. -/
theorem exclusive_of_reach {areas : List Region} (valid : HeapAreas areas) {s : HeapState}
    (reach : (heapSystem areas).Reach SoleBase s) : Exclusive areas s :=
  (owned_of_reach valid reach).exclusive

/-- Three heap areas that touch. -/
def touchingAreas : List Region := [⟨0x1000, 0x1000⟩, ⟨0x2000, 0x1000⟩, ⟨0x3000, 0x2000⟩]

theorem touchingAreas_valid : HeapAreas touchingAreas where
  apart := by decide
  occupied := by decide

/-- The first area is used up in two pieces, so that its node sits at the base of the second; the
first piece comes back and the third area is taken and freed. -/
def sharedBaseCalls : List HeapCall :=
  [.alloc directMap (.bytes 0x100), .alloc directMap (.bytes 0xF00), .free ⟨0x1000, 0x100⟩,
    .alloc directMap (.bytes 0x2000), .free ⟨0x3000, 0x2000⟩]

/-- The last `free` deletes the used-up node instead of the second area, and the area ends up in the
tree twice. -/
theorem exclusive_of_reachable_false :
    ¬∀ areas, HeapAreas areas → ∀ s, (heapSystem areas).Reachable s → Exclusive areas s := by
  intro always
  have executed : ((HeapState.boot sampleBump touchingAreas).bind
      (Behaviour.run HeapState.attempt (fun _ _ => True) · sharedBaseCalls)).map HeapState.free =
      some [⟨0x1000, 0x100⟩, ⟨0x2000, 0x1000⟩, ⟨0x2000, 0x2000⟩] := by decide +kernel
  obtain ⟨s, reach, free⟩ := HeapState.exists_reach executed
  have apart := (always touchingAreas touchingAreas_valid s reach.reachable).free
  rw [free] at apart
  have meet := Span.disjoint_iff.mp ((List.pairwise_cons.mp (List.pairwise_cons.mp apart).2).1
    ⟨0x2000, 0x2000⟩ (by decide))
  exact meet 0x2000 (by decide) (by decide) (by decide) (by decide)

/-- A run on the same areas that frees a block behind the second area, whose base no other node
shares. -/
theorem exclusive_of_reach_touching :
    ∃ s, (heapSystem touchingAreas).Reach SoleBase s ∧ s.live = [⟨0x1000, 0x100⟩] ∧
      Exclusive touchingAreas s := by
  have executed : ((HeapState.boot sampleBump touchingAreas).bind
      (Behaviour.run HeapState.attempt SoleBase ·
        [.alloc directMap (.bytes 0x100), .alloc directMap (.bytes 0x2000),
          .free ⟨0x3000, 0x2000⟩])).map HeapState.live = some [⟨0x1000, 0x100⟩] := by
    decide +kernel
  obtain ⟨s, reach, live⟩ := HeapState.exists_reach executed
  exact ⟨s, reach, live, exclusive_of_reach touchingAreas_valid reach⟩

end Blubos
