import Blubos.Allocator.RoundTrip

/-!
# Nothing is lost

When no allocation skips addresses to align its block and no freed block is obstructed, every
address of the heap areas is at any time either free or part of a live block.  Once all blocks are
free again, so are the heap areas, each as one region.
-/

namespace Blubos

/-- The condition on a call: the region that serves an allocation starts at an aligned address, and
nothing obstructs a freed block. -/
def Conserves (s : HeapState) : HeapCall → Prop
  | .alloc map request => ServedAligned s map request
  | .free block => Unobstructed s block

instance (s : HeapState) (call : HeapCall) : Decidable (Conserves s call) :=
  match call with
  | .alloc map request => inferInstanceAs (Decidable (ServedAligned s map request))
  | .free block => inferInstanceAs (Decidable (Unobstructed s block))

/-- The addresses that are free or live. -/
def HeapState.known (s : HeapState) : Set ℕ := Span.cover s.free ∪ Span.cover s.live

/-- Nothing is lost, and what is free after all blocks were freed is what was free at first. -/
structure Conserved (areas : List Region) (s : HeapState) : Prop where
  /-- Free regions and live blocks cover the heap areas. -/
  known : s.known = Span.cover areas
  /-- Without live blocks the regions that are not empty are the heap areas. -/
  whole : s.live = [] → (s.free.filter fun r => decide (0 < r.size)).Perm areas

section Steps

variable {areas : List Region} {s : HeapState}

/-- An aligned block is taken from the front of its region. -/
theorem Spaced.known_alloc (spaced : Spaced areas s) {map : AddressMap} {request : Request}
    {tree : Link} {a : ℕ} (positive : 0 < request.size) (aligned : ServedAligned s map request)
    (searched : RBTreeAlloc.allocRec map request s.alloc.root = .ok (tree, some a)) :
    Span.cover (regions tree) ∪ (⟨a, request.size⟩ : Span).addresses = Span.cover s.free := by
  cases (allocRec_spec searched).2 with
  | @took before after _ _ r split shrunk _ serves _ first =>
      have gapped : Span.Gapped (before ++ r :: after) := split ▸ spaced.gapped
      have found : s.free.find? (fun q => decide (Serves map request q)) = some r := by
        rw [List.find?_eq_some_iff_append]
        refine ⟨decide_eq_true serves, before, after, split, fun q member => ?_⟩
        simpa using first spaced.intact.exact q member
      have start : request.start r = r.base :=
        Request.start_eq_base.mpr (aligned r (Option.mem_def.mpr found))
      have room := serves.room
      rw [shrunk, serves.cover_carved, HeapState.free, split]
      exact (cover_from_iff gapped (request.le_start r) (by omega)).mpr start

/-- A call that conserves addresses leaves the same ones free or live. -/
theorem Spaced.known_step (spaced : Spaced areas s) {s' : HeapState} {call : HeapCall}
    (conserves : Conserves s call) (taken : (heapSystem areas).step s call s') :
    s'.known = s.known := by
  obtain ⟨permitted, performed⟩ := taken
  rcases HeapState.perform_cases performed with
    ⟨map, request, tree, rfl, searched, rfl⟩ | ⟨map, request, tree, a, rfl, searched, rfl⟩ |
    ⟨block, alloc, bump, rfl, freed, rfl⟩
  · cases (allocRec_spec searched).2 with
    | refused same => rw [HeapState.known, HeapState.free, regions_paint, same]; rfl
  · rw [HeapState.known, HeapState.free, regions_paint, Span.cover_cons, ← Set.union_assoc,
      spaced.known_alloc permitted conserves searched]
    rfl
  · have clear := spaced.owned.clear permitted
    obtain ⟨_, _, _, between⟩ :=
      freedBetweenGaps spaced.owned spaced.intact spaced.gapped permitted freed
    have live : Span.cover s.live = block.addresses ∪ Span.cover (s.live.erase block) := by
      rw [Span.cover_perm (List.perm_cons_erase permitted), Span.cover_cons]
    rw [HeapState.known, HeapState.free, between.restores clear spaced.gapped conserves,
      HeapState.known, live, Set.union_assoc]

/-- Free regions that cover the heap areas are the heap areas. -/
theorem Spaced.whole (spaced : Spaced areas s) (separated : GapSeparated areas)
    (sorted : ∃ free, Span.Gapped free ∧ free.Perm areas)
    (covered : Span.cover s.free = Span.cover areas) :
    (s.free.filter fun r => decide (0 < r.size)).Perm areas := by
  obtain ⟨free, gapped, perm⟩ := sorted
  have same : (s.free.filter fun r => decide (0 < r.size)) = free := by
    refine (spaced.gapped.sublist List.filter_sublist).eq_of_cover gapped (fun r member => ?_)
      (fun r member => separated.occupied r (perm.subset member)) ?_
    · exact of_decide_eq_true (List.mem_filter.mp member).2
    · rw [Span.cover_filter_occupied, covered, Span.cover_perm perm]
  exact same ▸ perm

end Steps

/-- In a run whose allocations are served at the start of a region and whose freed blocks are not
obstructed, no address is ever lost, and when all blocks are free the heap is as it was at first. -/
theorem conserved_of_reach {areas : List Region} (separated : GapSeparated areas) {s : HeapState}
    (reach : (heapSystem areas).Reach Conserves s) : Conserved areas s := by
  have invariant : Spaced areas s ∧ s.known = Span.cover areas ∧
      ∃ free, Span.Gapped free ∧ free.Perm areas := by
    refine @Behaviour.Reach.invariant _ _ _ _ (fun s => Spaced areas s ∧
      s.known = Span.cover areas ∧ ∃ free, Span.Gapped free ∧ free.Perm areas) ?_ ?_ s reach
    · intro s initial
      obtain ⟨spaced, perm⟩ := separated.start initial
      obtain ⟨-, -, dead⟩ := initial
      refine ⟨spaced, ?_, s.free, spaced.gapped, perm⟩
      rw [HeapState.known, dead, Span.cover_nil, Set.union_empty, Span.cover_perm perm]
    · rintro s call next ⟨spaced, known, sorted⟩ conserves taken
      exact ⟨spaced.step taken, (spaced.known_step conserves taken).trans known, sorted⟩
  obtain ⟨spaced, known, sorted⟩ := invariant
  refine ⟨known, fun dead => spaced.whole separated sorted ?_⟩
  rw [← known, HeapState.known, dead, Span.cover_nil, Set.union_empty]

/-- Both areas are used up in three blocks, which are freed again. -/
theorem conserved_of_reach_swapped :
    ∃ s, (heapSystem swappedAreas).Reach Conserves s ∧
      s.free = [⟨0x1000, 0x1000⟩, ⟨0x4000, 0x2000⟩] ∧
      Conserved swappedAreas s := by
  have executed : ((HeapState.boot sampleBump swappedAreas).bind
      (Behaviour.run HeapState.attempt Conserves ·
        [.alloc directMap (.bytes 0x800), .alloc directMap (.bytes 0x800),
          .alloc directMap (.bytes 0x2000), .free ⟨0x1800, 0x800⟩, .free ⟨0x4000, 0x2000⟩,
          .free ⟨0x1000, 0x800⟩])).map
        HeapState.free = some [⟨0x1000, 0x1000⟩, ⟨0x4000, 0x2000⟩] := by
    decide +kernel
  obtain ⟨s, reach, free⟩ := HeapState.exists_reach executed
  exact ⟨s, reach, free, conserved_of_reach swappedAreas_separated reach⟩

end Blubos
