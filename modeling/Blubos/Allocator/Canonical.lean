import Blubos.Allocator.Separated

/-!
# Canonical free lists

Even with gaps between the heap areas two things go wrong.  A region that a request uses up exactly
stays in the tree as an empty node, and a block that touches a region on its left, or has a used-up
node at its start or inside, does not come back whole.
-/

namespace Blubos

/-- No free region is empty and gaps separate them all. -/
structure Canonical (s : HeapState) : Prop where
  occupied : ∀ r ∈ s.free, 0 < r.size
  /-- Every region ends strictly below the next one. -/
  gapped : Span.Gapped s.free

/-- The condition on a call: the first region that can serve a request is not used up by it. -/
def NotUsedUp (s : HeapState) : HeapCall → Prop
  | .alloc map request =>
      ∀ r ∈ s.free.find? fun q => decide (Serves map request q),
        request.start r + request.size ≠ r.stop
  | .free _ => True

instance (s : HeapState) (call : HeapCall) : Decidable (NotUsedUp s call) :=
  match call with
  | .alloc map request => inferInstanceAs (Decidable
      (∀ r ∈ s.free.find? fun q => decide (Serves map request q), _ ≠ _))
  | .free _ => inferInstanceAs (Decidable True)

/-- A call that uses up no region leaves no empty one. -/
theorem Canonical.step {areas : List Region} {s s' : HeapState} {call : HeapCall}
    (spaced : Spaced areas s) (canonical : Canonical s) (remains : NotUsedUp s call)
    (taken : (heapSystem areas).step s call s') : Canonical s' := by
  refine ⟨?_, (spaced.step taken).gapped⟩
  obtain ⟨permitted, performed⟩ := taken
  rcases HeapState.perform_cases performed with
    ⟨map, request, tree, rfl, searched, rfl⟩ | ⟨map, request, tree, a, rfl, searched, rfl⟩ |
    ⟨block, alloc, bump, rfl, freed, rfl⟩
  · rw [HeapState.free, regions_paint]
    cases (allocRec_spec searched).2 with
    | refused same =>
        rw [same]
        exact canonical.occupied
  · rw [HeapState.free, regions_paint]
    cases (allocRec_spec searched).2 with
    | @took before after _ _ r split shrunk _ serves _ first =>
        have found : r ∈ s.free.find? fun q => decide (Serves map request q) := by
          rw [Option.mem_def, List.find?_eq_some_iff_append]
          refine ⟨decide_eq_true serves, before, after, split, fun q member => ?_⟩
          simpa using first spaced.intact.exact q member
        have room := serves.room
        have kept := remains r found
        have occupied := canonical.occupied
        rw [HeapState.free, split] at occupied
        rw [shrunk]
        intro q member
        rw [List.mem_append, List.mem_cons] at member
        rcases member with member | rfl | member
        · exact occupied q (by simp [member])
        · simp only [Request.remainder]
          omega
        · exact occupied q (by simp [member])
  · obtain ⟨_, _, _, between⟩ :=
      freedBetweenGaps spaced.owned spaced.intact spaced.gapped permitted freed
    intro r member
    rcases between.origin r member with old | ⟨-, positive⟩
    · exact canonical.occupied r old
    · exact positive

/-- In a run on areas with gaps in which no request uses up the region that serves it, the free
list is canonical in every state. -/
theorem canonical_of_reach {areas : List Region} (separated : GapSeparated areas) {s : HeapState}
    (reach : (heapSystem areas).Reach NotUsedUp s) : Canonical s := by
  have both : Spaced areas s ∧ Canonical s := by
    refine @Behaviour.Reach.invariant _ _ _ _ (fun s => Spaced areas s ∧ Canonical s) ?_ ?_ s reach
    · intro s initial
      obtain ⟨spaced, sorted⟩ := separated.start initial
      exact ⟨spaced, fun r member => separated.occupied r (sorted.subset member), spaced.gapped⟩
    · rintro s call next ⟨spaced, canonical⟩ remains taken
      exact ⟨spaced.step taken, canonical.step spaced remains taken⟩
  exact both.2

/-- A run that takes a block from each of two areas and frees the first. -/
theorem canonical_of_reach_swapped :
    ∃ s, (heapSystem swappedAreas).Reach NotUsedUp s ∧ s.live = [⟨0x4000, 0x1800⟩] ∧
      Canonical s := by
  have executed : ((HeapState.boot sampleBump swappedAreas).bind
      (Behaviour.run HeapState.attempt NotUsedUp ·
        [.alloc directMap (.bytes 0x100), .alloc directMap (.bytes 0x1800),
          .free ⟨0x1000, 0x100⟩])).map (fun s => s.live) = some [⟨0x4000, 0x1800⟩] := by
    decide +kernel
  obtain ⟨s, reach, live⟩ := HeapState.exists_reach executed
  exact ⟨s, reach, live, canonical_of_reach swappedAreas_separated reach⟩

/-- Taking the whole lower area leaves its node in the tree, empty. -/
theorem canonical_of_reachable_false :
    ¬∀ areas, GapSeparated areas → ∀ s, (heapSystem areas).Reachable s → Canonical s := by
  intro always
  have executed : ((HeapState.boot sampleBump swappedAreas).bind
      (Behaviour.run HeapState.attempt (fun _ _ => True) · [.alloc directMap (.bytes 0x1000)])).map
        HeapState.free = some [⟨0x2000, 0⟩, ⟨0x4000, 0x2000⟩] := by
    decide +kernel
  obtain ⟨s, reach, free⟩ := HeapState.exists_reach executed
  have occupied := (always swappedAreas swappedAreas_separated s reach.reachable).occupied
  rw [free] at occupied
  exact absurd (occupied ⟨0x2000, 0⟩ (by simp)) (by decide)

/-- No free region ends at the block and no node starts inside it. -/
def Unobstructed (s : HeapState) (block : Span) : Prop :=
  ∀ r ∈ s.free, r.stop ≠ block.base ∧ ¬(block.base ≤ r.base ∧ r.base < block.stop)

instance (s : HeapState) (block : Span) : Decidable (Unobstructed s block) :=
  inferInstanceAs (Decidable (∀ r ∈ s.free, _ ∧ ¬_))

section Extent

variable {self : RBTreeAlloc} {block : Span} {left whole : RBTreeAlloc.Extent} {r : Region}

/-- With a region that ends at the block, or a node that starts inside it, the extent misses the
last address of the block. -/
theorem Merged.short (merged : Merged self block left whole)
    (clear : Clear (regions self.root) block) (member : r ∈ regions self.root)
    (obstructs : r.stop = block.base ∨ block.base ≤ r.base ∧ r.base < block.stop) :
    whole.base + whole.size < block.stop := by
  have positive := clear.positive
  rcases mergePredecessor_spec clear merged.1 with
    ⟨rfl, below⟩ | ⟨p, before, after, split, small, touches, -, rfl⟩
  · have inside : block.base ≤ r.base ∧ r.base < block.stop := by
      rcases obstructs with ends | inside
      · have above : block.base ≤ r.base := by
          by_contra early
          have := below r member (not_le.mp early)
          omega
        have := r.base_le_stop
        exact ⟨above, by simp only [Span.stop] at *; omega⟩
      · exact inside
    rcases mergeSuccessor_spec clear.apart.sorted merged.2 with
      ⟨rfl, beyond⟩ | ⟨s, before, after, split, earlier, large, -, rfl⟩
    · have := beyond r member inside.1
      simp only [Span.stop] at this inside
      omega
    · have first : s.base ≤ r.base := by
        have pairs := clear.apart.sorted
        rw [split, Span.pairwise_middle] at pairs
        rw [split, List.mem_append, List.mem_cons] at member
        rcases member with member | rfl | member
        · exact absurd inside.1 (not_le.mpr (earlier r member))
        · exact le_rfl
        · exact pairs.2.2 r member
      have empty := clear.size_eq_zero (r := s) (by simp [split]) large (by omega)
      simp only [Span.stop] at inside empty ⊢
      omega
  · have shorter : p.base + max block.size p.size < block.stop := by
      simp only [Span.stop] at touches ⊢
      omega
    rcases mergeSuccessor_spec clear.apart.sorted merged.2 with
      ⟨rfl, -⟩ | ⟨s, before', after', split', -, large, reach, rfl⟩
    · exact shorter
    · simp only at reach
      have empty := clear.size_eq_zero (r := s) (by simp [split']) large (by omega)
      simp only [Span.stop] at shorter empty ⊢
      omega

/-- Without an obstacle the extent is the block with the region that starts at its end, if there is
one. -/
theorem Merged.exact (merged : Merged self block left whole)
    (clear : Clear (regions self.root) block) (gapped : Span.Gapped (regions self.root))
    (clearWay : ∀ r ∈ regions self.root, r.stop ≠ block.base ∧
      ¬(block.base ≤ r.base ∧ r.base < block.stop)) :
    left.key = none ∧ ((whole = ⟨block.base, block.size, none⟩) ∨
      ∃ s ∈ regions self.root, s.base = block.stop ∧
        whole = ⟨block.base, s.stop - block.base, some s.base⟩ ∧
        ∀ r ∈ regions self.root, r.base = s.base → r = s) := by
  rcases mergePredecessor_spec clear merged.1 with
    ⟨rfl, -⟩ | ⟨p, before, after, split, -, touches, -, -⟩
  · refine ⟨rfl, ?_⟩
    rcases mergeSuccessor_spec clear.apart.sorted merged.2 with
      ⟨rfl, -⟩ | ⟨s, before, after, split, earlier, large, reach, rfl⟩
    · exact .inl rfl
    · have member : s ∈ regions self.root := by simp [split]
      have away := (clearWay s member).2
      refine .inr ⟨s, member, ?_, rfl, fun r inside same => ?_⟩
      · simp only [Span.stop] at reach away ⊢
        omega
      · rw [split, Span.Gapped, Span.pairwise_middle] at gapped
        rw [split, List.mem_append, List.mem_cons] at inside
        rcases inside with inside | rfl | inside
        · have := earlier r inside
          omega
        · rfl
        · have := gapped.2.2 r inside
          have := s.base_le_stop
          omega
  · exact absurd touches (clearWay p (by simp [split])).1

end Extent

/-- When something obstructs the block, its last address is not given back. -/
theorem FreedBetweenGaps.unobstructed {s : HeapState} {block : Span}
    {left whole : RBTreeAlloc.Extent} {kept alloc : RBTreeAlloc}
    (between : FreedBetweenGaps s block left whole kept alloc) (clear : Clear s.free block)
    (same : Span.cover (regions alloc.root) = Span.cover s.free ∪ block.addresses) :
    Unobstructed s block := by
  have positive := clear.positive
  rw [between.cover] at same
  intro r member
  by_contra both
  have obstructs : r.stop = block.base ∨ block.base ≤ r.base ∧ r.base < block.stop := by
    simpa [not_and_or, -not_and, -not_lt] using both
  have short := between.merged.short clear member obstructs
  have last : block.stop - 1 ∈ block.addresses := by
    simp only [Span.mem_addresses, Span.stop]
    omega
  have covered := same.ge (Set.mem_union_right _ last)
  rcases covered with inside | ⟨q, inside, covers⟩
  · have below := inside.2
    simp only [Span.stop_mk] at below
    omega
  · exact Set.disjoint_left.mp (clear.disjoint q (between.drops q inside).1) covers last

/-- When nothing obstructs the block, the merged extent is the block with the region behind it. -/
theorem FreedBetweenGaps.restores {s : HeapState} {block : Span}
    {left whole : RBTreeAlloc.Extent} {kept alloc : RBTreeAlloc}
    (between : FreedBetweenGaps s block left whole kept alloc) (clear : Clear s.free block)
    (gapped : Span.Gapped s.free) (clearWay : Unobstructed s block) :
    Span.cover (regions alloc.root) = Span.cover s.free ∪ block.addresses := by
  rw [between.cover]
  obtain ⟨noLeft, shape⟩ := between.merged.exact clear gapped clearWay
  rcases shape with rfl | ⟨q, memberQ, touches, rfl, sole⟩
  · -- Nothing was absorbed, so every region is kept.
    have sameCover : Span.cover (regions kept.root) = Span.cover s.free := by
      apply Set.Subset.antisymm
      · rintro address ⟨r, inside, covers⟩
        exact ⟨r, (between.drops r inside).1, covers⟩
      · rintro address ⟨r, inside, covers⟩
        refine ⟨r, (between.keeps r inside).resolve_right ?_, covers⟩
        simp [noLeft]
    rw [sameCover, Set.union_comm]
  · have memberAddress (address : ℕ) :
        address ∈ (⟨block.base, q.stop - block.base⟩ : Span).addresses ↔
          address ∈ block.addresses ∨ address ∈ q.addresses := by
      simp only [Span.mem_addresses, Span.stop] at touches ⊢
      omega
    ext address
    rw [Set.mem_union, Set.mem_union, memberAddress]
    constructor
    · rintro ((inBlock | inside) | ⟨r, inside, covers⟩)
      · exact .inr inBlock
      · exact .inl ⟨q, memberQ, inside⟩
      · exact .inl ⟨r, (between.drops r inside).1, covers⟩
    · rintro (⟨r, inside, covers⟩ | inBlock)
      · rcases between.keeps r inside with stays | hit | hit
        · exact .inr ⟨r, stays, covers⟩
        · simp [noLeft] at hit
        · obtain rfl := sole r inside (Option.some.inj hit).symm
          exact .inl (.inr covers)
      · exact .inl (.inl inBlock)

section Restore

variable {areas : List Region} {s : HeapState}

/-- `free` of a live block comes to the insertion of an extent into a tree without the regions that
it absorbed; whether the block comes back whole depends on what obstructs it. -/
structure FreeOutcome (s : HeapState) (block : Span) (left whole : RBTreeAlloc.Extent)
    (kept : RBTreeAlloc) : Prop where
  /-- The extent is the one the two searches found. -/
  merged : Merged s.alloc block left whole
  intact : kept.Intact
  /-- They take no node from the bump heap. -/
  taken : kept.taken = s.alloc.taken
  sub : (regions kept.root).Sublist s.free
  /-- The region behind the block is gone if it was absorbed. -/
  drops : ∀ r ∈ regions kept.root, whole.key ≠ some r.base
  /-- The insertion is what remains to be done. -/
  continues : s.alloc.free s.bump block.base block.size =
    kept.insert s.bump ⟨whole.base, whole.size⟩
  /-- If it returns, an unobstructed block comes back whole and no other does. -/
  restores : ∀ alloc bump, s.alloc.free s.bump block.base block.size = .ok (alloc, bump) →
    (Span.cover (regions alloc.root) = Span.cover s.free ∪ block.addresses ↔ Unobstructed s block)

theorem Spaced.free_outcome (spaced : Spaced areas s) (bounded : ∀ r ∈ s.free, r.stop ≤ Usize.max)
    {block : Span} (member : block ∈ s.live) (fits : block.stop ≤ Usize.max) :
    ∃ left whole kept, FreeOutcome s block left whole kept := by
  have clear := spaced.owned.clear member
  obtain ⟨left, before⟩ := mergePredecessor_isOk clear bounded fits
  obtain ⟨starts, reached⟩ := mergePredecessor_reach clear before
  obtain ⟨whole, after⟩ :=
    mergeSuccessor_isOk clear.apart.sorted bounded starts (reached.trans fits)
  obtain ⟨kept, intactKept, sub, -, drops, taken, continues⟩ :=
    spaced.intact.free clear ⟨before, after⟩ (fun k _ => keySorted_of_gapped spaced.gapped k)
      (fun k _ => keySorted_of_gapped spaced.gapped k) s.bump
  refine ⟨left, whole, kept, ⟨before, after⟩, intactKept, taken, sub,
    fun r inside => (drops r inside).2, continues, fun alloc bump freed => ?_⟩
  obtain ⟨_, _, _, between⟩ :=
    freedBetweenGaps spaced.owned spaced.intact spaced.gapped member freed
  exact ⟨between.unobstructed clear, between.restores clear spaced.gapped⟩

/-- `free` of a live block returns unless it needs a node that the bump heap does not have, and it
gives back exactly the block if and only if no free region ends at the block and no node starts
inside it. -/
theorem free_restores_iff (separated : GapSeparated areas) (ends : ∀ r ∈ areas, r.stop ≤ Usize.max)
    (reach : (heapSystem areas).Reachable s) {block : Span} (member : block ∈ s.live) :
    (∃ alloc bump, s.alloc.free s.bump block.base block.size = .ok (alloc, bump) ∧
        (Span.cover (regions alloc.root) = Span.cover s.free ∪ block.addresses ↔
          Unobstructed s block)) ∨
      ∃ fault, s.alloc.free s.bump block.base block.size = .error fault ∧
        BumpAlloc.boxNewIn s.bump TreeRegion.layout = .error fault := by
  have spaced := separated.spaced reach
  have bounded := separated.bounded ends reach
  obtain ⟨left, whole, kept, outcome⟩ := spaced.free_outcome bounded member
    (spaced.owned.stop_le ends member)
  rcases outcome.intact.insert s.bump ⟨whole.base, whole.size⟩ with
    ⟨alloc, bump, inserted, -⟩ | ⟨fault, failed, boxed⟩
  · have freed := outcome.continues.trans inserted
    exact .inl ⟨alloc, bump, freed, outcome.restores _ _ freed⟩
  · exact .inr ⟨fault, outcome.continues.trans failed, boxed⟩

/-- A block at the start of the lower area comes back whole. -/
theorem free_restores_iff_swapped :
    ∃ s, (heapSystem swappedAreas).Reachable s ∧ s.live = [⟨0x1000, 0x100⟩] ∧
      ∃ alloc bump, s.alloc.free s.bump 0x1000 0x100 = .ok (alloc, bump) ∧
        Span.cover (regions alloc.root) =
          Span.cover s.free ∪ (⟨0x1000, 0x100⟩ : Span).addresses := by
  have executed : ((HeapState.boot sampleBump swappedAreas).bind
      (Behaviour.run HeapState.attempt (fun _ _ => True) · [.alloc directMap (.bytes 0x100)])).map
        (fun s => (s.live, s.free, (s.alloc.free s.bump 0x1000 0x100).toBool)) =
      some ([⟨0x1000, 0x100⟩], [⟨0x1100, 0xF00⟩, ⟨0x4000, 0x2000⟩], true) := by
    decide +kernel
  obtain ⟨s, reach, evaluated⟩ := HeapState.exists_reach executed
  simp only [Prod.mk.injEq] at evaluated
  obtain ⟨live, free, returns⟩ := evaluated
  have ends : ∀ r ∈ swappedAreas, r.stop ≤ Usize.max := by decide
  have member : (⟨0x1000, 0x100⟩ : Span) ∈ s.live := by simp [live]
  refine ⟨s, reach.reachable, live, ?_⟩
  rcases free_restores_iff swappedAreas_separated ends reach.reachable member with
    ⟨alloc, bump, freed, restores⟩ | ⟨fault, failed, -⟩
  · refine ⟨alloc, bump, freed, restores.mpr ?_⟩
    rw [Unobstructed, free]
    decide
  · rw [failed] at returns
    simp [Except.toBool] at returns

/-- Of two neighbouring blocks freed in order, the second is lost. -/
theorem free_restores_false :
    ¬∀ areas, GapSeparated areas → (∀ r ∈ areas, r.stop ≤ Usize.max) →
      ∀ s, (heapSystem areas).Reachable s → ∀ block ∈ s.live, ∀ alloc bump,
        s.alloc.free s.bump block.base block.size = .ok (alloc, bump) →
        Span.cover (regions alloc.root) = Span.cover s.free ∪ block.addresses := by
  intro always
  have executed : ((HeapState.boot sampleBump swappedAreas).bind
      (Behaviour.run HeapState.attempt (fun _ _ => True) ·
        [.alloc directMap (.bytes 0x100), .alloc directMap (.bytes 0x100),
          .free ⟨0x1000, 0x100⟩])).map
        (fun s => (s.live,
          (s.alloc.free s.bump 0x1100 0x100).toOption.map fun freed => regions freed.1.root)) =
      some ([⟨0x1100, 0x100⟩],
        some [⟨0x1000, 0x100⟩, ⟨0x1200, 0xE00⟩, ⟨0x4000, 0x2000⟩]) := by
    decide +kernel
  obtain ⟨s, reach, evaluated⟩ := HeapState.exists_reach executed
  simp only [Prod.mk.injEq] at evaluated
  obtain ⟨live, result⟩ := evaluated
  have ends : ∀ r ∈ swappedAreas, r.stop ≤ Usize.max := by decide
  have member : (⟨0x1100, 0x100⟩ : Span) ∈ s.live := by simp [live]
  cases freed : s.alloc.free s.bump 0x1100 0x100 with
  | error fault => simp [freed, Except.toOption] at result
  | ok value =>
      have same := always swappedAreas swappedAreas_separated ends s reach.reachable
        ⟨0x1100, 0x100⟩ member value.1 value.2 freed
      have left : regions value.1.root =
          [⟨0x1000, 0x100⟩, ⟨0x1200, 0xE00⟩, ⟨0x4000, 0x2000⟩] := by
        simpa [freed, Except.toOption] using result
      have lost : 0x1100 ∈ Span.cover (regions value.1.root) := by
        rw [same]
        exact .inr ⟨by decide, by decide⟩
      rw [left] at lost
      obtain ⟨r, memberR, above, below⟩ := lost
      have checked : ∀ r ∈ ([⟨0x1000, 0x100⟩, ⟨0x1200, 0xE00⟩, ⟨0x4000, 0x2000⟩] : List Region),
          ¬(r.base ≤ 0x1100 ∧ 0x1100 < r.stop) := by decide
      exact checked r memberR ⟨above, below⟩

end Restore

end Blubos
