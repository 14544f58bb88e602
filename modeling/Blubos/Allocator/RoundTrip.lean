import Blubos.Allocator.Canonical
import Blubos.Allocator.TreeUpdates

/-!
# Allocating and freeing at once

A block that is freed right after it was allocated always comes back whole: what is left of the
region that served it, empty or not, starts where the block ends.  What the allocation skipped to
align the block does not come back, since neither the block nor any free region covers it.
-/

namespace Blubos

/-- The first region that can serve the request starts at an aligned address. -/
def ServedAligned (s : HeapState) (map : AddressMap) (request : Request) : Prop :=
  ∀ r ∈ s.free.find? fun q => decide (Serves map request q), request.align ∣ r.base

instance (s : HeapState) (map : AddressMap) (request : Request) :
    Decidable (ServedAligned s map request) :=
  inferInstanceAs (Decidable (∀ r ∈ s.free.find? fun q => decide (Serves map request q), _))

theorem Request.start_eq_base {request : Request} {r : Region} :
    request.start r = r.base ↔ request.align ∣ r.base := by
  have align_pos : 0 < request.align := by
    obtain ⟨k, power⟩ := request.power
    exact power ▸ Nat.two_pow_pos k
  constructor
  · intro same
    exact same ▸ request.dvd_start r
  · intro aligned
    exact le_antisymm (roundUp_le align_pos aligned le_rfl) (request.le_start r)

section Carved

variable {map : AddressMap} {request : Request} {before after : List Region} {r : Region}

/-- Nothing obstructs a block that was just taken from a region. -/
theorem Serves.unobstructed (serves : Serves map request r) (positive : 0 < request.size)
    (gapped : Span.Gapped (before ++ r :: after)) {q : Region}
    (member : q ∈ before ++ request.remainder r :: after) :
    q.stop ≠ request.start r ∧
      ¬(request.start r ≤ q.base ∧ q.base < request.start r + request.size) := by
  obtain ⟨-, earlier, later⟩ := Span.pairwise_middle.mp gapped
  have room := serves.room
  have above := request.le_start r
  have order := q.base_le_stop
  rw [List.mem_append, List.mem_cons] at member
  rcases member with member | rfl | member
  · have := earlier q member
    omega
  · rw [serves.remainder_stop]
    simp only [Request.remainder]
    omega
  · have := later q member
    omega

/-- The block and what is left of its region cover the region from the block on. -/
theorem Serves.cover_carved (serves : Serves map request r) :
    Span.cover (before ++ request.remainder r :: after) ∪
        (⟨request.start r, request.size⟩ : Span).addresses =
      Span.cover before ∪ (Set.Ico (request.start r) r.stop ∪ Span.cover after) := by
  have room := serves.room
  have joined : (request.remainder r).addresses ∪
      (⟨request.start r, request.size⟩ : Span).addresses = Set.Ico (request.start r) r.stop := by
    ext address
    rw [Set.mem_union, Span.mem_addresses, Span.mem_addresses, serves.remainder_stop, Set.mem_Ico]
    simp only [Request.remainder, Span.stop_mk]
    omega
  rw [← joined, Span.cover_append, Span.cover_cons]
  ext address
  simp only [Set.mem_union]
  tauto

/-- Regions with gaps cover as much from an address of one of them on as before exactly when that
is where the region starts. -/
theorem cover_from_iff (gapped : Span.Gapped (before ++ r :: after)) {start : ℕ}
    (above : r.base ≤ start) (below : start < r.stop) :
    Span.cover before ∪ (Set.Ico start r.stop ∪ Span.cover after) =
      Span.cover (before ++ r :: after) ↔ start = r.base := by
  rw [Span.cover_append, Span.cover_cons]
  constructor
  · intro same
    by_contra later
    have first : r.base ∈ r.addresses := ⟨le_rfl, by omega⟩
    obtain ⟨-, beforePairs, afterPairs⟩ := Span.pairwise_middle.mp gapped.apart.disjoint
    have beforeApart : r.base ∉ Span.cover before := fun ⟨q, member, covers⟩ =>
      Set.disjoint_left.mp (beforePairs q member) covers first
    have afterApart : r.base ∉ Span.cover after := fun ⟨q, member, covers⟩ =>
      Set.disjoint_left.mp (afterPairs q member) first covers
    rcases same.ge (.inr (.inl first)) with covers | ⟨starts, -⟩ | covers
    · exact beforeApart covers
    · omega
    · exact afterApart covers
  · rintro rfl
    rfl

end Carved

/-- A node on the freelist is enough for an insertion to return. -/
theorem RBTreeAlloc.Intact.insert_reuses {self : RBTreeAlloc} (intact : self.Intact)
    (node : self.freelist ≠ .nil) (bump : BumpHeap) (region : Region) :
    ∃ self', self.insert bump region = .ok (self', bump) := by
  rw [RBTreeAlloc.insert]
  split_ifs with empty
  · exact ⟨self, rfl⟩
  · rcases allocNode_cases self bump region.base region.size with
      ⟨color, next, head, r, -, allocated⟩ | ⟨none, -⟩
    · obtain ⟨n, leaning⟩ := intact.leaning
      obtain ⟨tree, m, inserted, -⟩ := insertNode_root ⟨region, head.box, region.size⟩ leaning
      refine ⟨{ self with root := tree.paint .black, freelist := next }, ?_⟩
      rw [allocated, ok_bind]
      simp only [inserted]
      rfl
    · exact absurd none node

section Runs

variable {areas : List Region} {s : HeapState}

/-- When the region behind the block was absorbed, its node is on the freelist. -/
theorem FreeOutcome.freelist {block : Span} {left whole : RBTreeAlloc.Extent} {kept : RBTreeAlloc}
    (outcome : FreeOutcome s block left whole kept) (intact : s.alloc.Intact) {q : Region}
    (member : q ∈ s.free) (absorbed : whole.key = some q.base) : kept.freelist ≠ .nil := by
  intro none
  have gone : q ∉ regions kept.root := fun inside => outcome.drops q inside absorbed
  have fewer : (regions kept.root).length < s.free.length := by
    refine lt_of_le_of_ne outcome.sub.length_le fun same => gone ?_
    rw [outcome.sub.eq_of_length same]
    exact member
  have keptCount := outcome.intact.kept.length_eq
  have count := intact.kept.length_eq
  rw [none, outcome.taken] at keptCount
  simp only [HeapState.free, length_regions, List.length_append, length_boxes, boxes_nil,
    List.length_nil] at fewer keptCount count
  omega

/-- Without an obstacle, a node that starts where the block ends is absorbed. -/
theorem Merged.absorbs {self : RBTreeAlloc} {block : Span} {left whole : RBTreeAlloc.Extent}
    (merged : Merged self block left whole) (clear : Clear (regions self.root) block)
    (gapped : Span.Gapped (regions self.root))
    (clearWay : ∀ r ∈ regions self.root, r.stop ≠ block.base ∧
      ¬(block.base ≤ r.base ∧ r.base < block.stop))
    {q : Region} (member : q ∈ regions self.root) (touches : q.base = block.stop) :
    whole.key = some q.base := by
  obtain ⟨-, shape⟩ := merged.exact clear gapped clearWay
  rcases shape with alone | ⟨p, -, touchesP, rfl, -⟩
  · rcases mergeSuccessor_spec clear.apart.sorted merged.2 with
      ⟨same, beyond⟩ | ⟨p, before, after, -, -, -, -, same⟩
    · obtain ⟨base, size, -⟩ := RBTreeAlloc.Extent.mk.inj (alone.symm.trans same)
      have := beyond q member (touches ▸ block.base_le_stop)
      simp only [Span.stop] at touches
      omega
    · have keys := congrArg RBTreeAlloc.Extent.key (alone.symm.trans same)
      simp at keys
  · rw [touches, touchesP]

/-- Allocating a block and freeing it at once always returns, and the same addresses are free as
before if and only if the region that served the request starts at a multiple of the alignment. -/
theorem alloc_free_restores_iff (separated : GapSeparated areas)
    (ends : ∀ r ∈ areas, r.stop ≤ Usize.max) (reach : (heapSystem areas).Reachable s)
    {map : AddressMap} {request : Request} (positive : 0 < request.size) {a : ℕ}
    {allocated : RBTreeAlloc} (served : s.alloc.alloc map request = .ok (some a, allocated)) :
    ∃ freed bump, allocated.free s.bump a request.size = .ok (freed, bump) ∧
      (Span.cover (regions freed.root) = Span.cover s.free ↔ ServedAligned s map request) := by
  have spaced := separated.spaced reach
  have bounded := separated.bounded ends reach
  -- The state after the allocation, with the block live.
  have taken : (heapSystem areas).step s (.alloc map request)
      ⟨allocated, s.bump, ⟨a, request.size⟩ :: s.live⟩ := by
    refine ⟨positive, ?_⟩
    rw [HeapState.perform, served]
    rfl
  have spaced' := spaced.step taken
  have bounded' := spaced.bounded_step ends bounded taken
  obtain ⟨tree, -, rfl, -, outcome⟩ := alloc_spec served
  cases outcome with
  | @took before after _ _ r split shrunk _ serves _ first =>
      have carved : regions (tree.paint .black) = before ++ request.remainder r :: after := by
        rw [regions_paint, shrunk]
      have gapped : Span.Gapped (before ++ r :: after) := split ▸ spaced.gapped
      have clearWay : ∀ q ∈ regions (tree.paint .black), q.stop ≠ request.start r ∧
          ¬(request.start r ≤ q.base ∧ q.base < request.start r + request.size) := by
        rw [carved]
        exact fun q member => serves.unobstructed positive gapped member
      obtain ⟨left, whole, kept, freed⟩ := spaced'.free_outcome bounded' List.mem_cons_self
        (spaced'.owned.stop_le ends List.mem_cons_self)
      have clear := spaced'.owned.clear List.mem_cons_self
      have remains : request.remainder r ∈ regions (tree.paint .black) := by simp [carved]
      -- What is left of the region is absorbed, so its node serves the insertion.
      have absorbed := freed.merged.absorbs clear spaced'.gapped clearWay remains rfl
      obtain ⟨alloc, inserted⟩ := freed.intact.insert_reuses
        (freed.freelist spaced'.intact remains absorbed) s.bump ⟨whole.base, whole.size⟩
      have returned := freed.continues.trans inserted
      refine ⟨alloc, s.bump, returned, ?_⟩
      have restored := (freed.restores _ _ returned).mpr clearWay
      have found : s.free.find? (fun q => decide (Serves map request q)) = some r := by
        rw [List.find?_eq_some_iff_append]
        refine ⟨decide_eq_true serves, before, after, split, fun q member => ?_⟩
        simpa using first spaced.intact.exact q member
      have room := serves.room
      have cover : Span.cover (regions alloc.root) =
          Span.cover before ∪ (Set.Ico (request.start r) r.stop ∪ Span.cover after) := by
        rw [restored, HeapState.free, carved]
        exact serves.cover_carved
      calc Span.cover (regions alloc.root) = Span.cover s.free
          ↔ Span.cover before ∪ (Set.Ico (request.start r) r.stop ∪ Span.cover after) =
              Span.cover (before ++ r :: after) := by rw [cover, HeapState.free, split]
        _ ↔ request.start r = r.base :=
            cover_from_iff gapped (request.le_start r) (by omega)
        _ ↔ request.align ∣ r.base := Request.start_eq_base
        _ ↔ ServedAligned s map request := by simp [ServedAligned, found]

def halfKibAligned : Request := ⟨0x100, 0x200, ⟨9, rfl⟩, none, none⟩

/-- With the whole first area free the aligned block comes back whole. -/
theorem alloc_free_restores_iff_start :
    ∃ s, (heapSystem swappedAreas).Reachable s ∧ ∃ allocated freed bump,
      s.alloc.alloc directMap halfKibAligned = .ok (some 0x1000, allocated) ∧
      allocated.free s.bump 0x1000 0x100 = .ok (freed, bump) ∧
      Span.cover (regions freed.root) = Span.cover s.free := by
  have executed : ((HeapState.boot sampleBump swappedAreas).bind
      (Behaviour.run HeapState.attempt (fun _ _ => True) · [])).map (fun s =>
        (((s.alloc.alloc directMap halfKibAligned).toOption.map Prod.fst),
          decide (ServedAligned s directMap halfKibAligned))) =
      some (some (some 0x1000), true) := by
    decide +kernel
  obtain ⟨s, reach, evaluated⟩ := HeapState.exists_reach executed
  simp only [Prod.mk.injEq, decide_eq_true_eq] at evaluated
  obtain ⟨address, aligned⟩ := evaluated
  cases served : s.alloc.alloc directMap halfKibAligned with
  | error fault => simp [served, Except.toOption] at address
  | ok value =>
      obtain ⟨out, allocated⟩ := value
      obtain rfl : out = some 0x1000 := by simpa [served, Except.toOption] using address
      obtain ⟨freed, bump, returned, restores⟩ :=
        alloc_free_restores_iff swappedAreas_separated (by decide) reach.reachable (by decide)
          served
      exact ⟨s, reach.reachable, allocated, freed, bump, served, returned, restores.mpr aligned⟩

/-- After a block of 256 bytes, an aligned block leaves the 256 bytes before it out of the tree for
good. -/
theorem alloc_free_restores_false :
    ¬∀ areas, GapSeparated areas → (∀ r ∈ areas, r.stop ≤ Usize.max) →
      ∀ s, (heapSystem areas).Reachable s → ∀ map request, 0 < request.size →
      ∀ a allocated, s.alloc.alloc map request = .ok (some a, allocated) →
      ∀ freed bump, allocated.free s.bump a request.size = .ok (freed, bump) →
        Span.cover (regions freed.root) = Span.cover s.free := by
  intro always
  have executed : ((HeapState.boot sampleBump swappedAreas).bind
      (Behaviour.run HeapState.attempt (fun _ _ => True) ·
        [.alloc directMap (.bytes 0x100)])).map (fun s =>
        (s.free, (s.alloc.alloc directMap halfKibAligned).toOption.map fun served =>
          (served.1, (served.2.free s.bump 0x1200 0x100).toOption.map fun freed =>
            regions freed.1.root))) =
      some ([⟨0x1100, 0xF00⟩, ⟨0x4000, 0x2000⟩],
        some (some 0x1200, some [⟨0x1200, 0xE00⟩, ⟨0x4000, 0x2000⟩])) := by
    decide +kernel
  obtain ⟨s, reach, evaluated⟩ := HeapState.exists_reach executed
  simp only [Prod.mk.injEq] at evaluated
  obtain ⟨free, result⟩ := evaluated
  cases served : s.alloc.alloc directMap halfKibAligned with
  | error fault => simp [served, Except.toOption] at result
  | ok value =>
      obtain ⟨out, allocated⟩ := value
      simp only [served, Except.toOption, Option.map_some, Option.some.injEq,
        Prod.mk.injEq] at result
      obtain ⟨rfl, result⟩ := result
      cases returned : allocated.free s.bump 0x1200 0x100 with
      | error fault => simp [returned] at result
      | ok freed =>
          have same := always swappedAreas swappedAreas_separated (by decide) s reach.reachable
            directMap halfKibAligned (by decide) 0x1200 allocated served freed.1 freed.2 returned
          have left : regions freed.1.root = [⟨0x1200, 0xE00⟩, ⟨0x4000, 0x2000⟩] := by
            simpa [returned] using result
          have lost : 0x1100 ∈ Span.cover (regions freed.1.root) := by
            rw [same, free]
            exact ⟨⟨0x1100, 0xF00⟩, by simp, by decide, by decide⟩
          rw [left] at lost
          obtain ⟨r, member, above, below⟩ := lost
          have checked : ∀ r ∈ ([⟨0x1200, 0xE00⟩, ⟨0x4000, 0x2000⟩] : List Region),
              ¬(r.base ≤ 0x1100 ∧ 0x1100 < r.stop) := by decide
          exact checked r member ⟨above, below⟩

end Runs

end Blubos
