import Blubos.Allocator.Spaced

/-!
# Heap areas in any order

The order in which heap areas with gaps between them are inserted does not matter: the tree sorts
them, and every run has the invariant of runs on sorted areas.
-/

namespace Blubos

/-- A gap of at least one address separates two regions, whichever comes first. -/
def Separated (left right : Region) : Prop := left.stop < right.base ∨ right.stop < left.base

theorem Separated.symm {left right : Region} (apart : Separated left right) :
    Separated right left := Or.symm apart

instance (left right : Region) : Decidable (Separated left right) :=
  inferInstanceAs (Decidable (_ ∨ _))

/-- Heap areas with gaps between them, in any order. -/
structure GapSeparated (areas : List Region) : Prop where
  gaps : areas.Pairwise Separated
  occupied : ∀ r ∈ areas, 0 < r.size

theorem gapped_insert {before after : List Region} {area : Region}
    (gapped : Span.Gapped (before ++ after)) (small : ∀ r ∈ before, r.base ≤ area.base)
    (large : ∀ r ∈ after, area.base < r.base)
    (apart : ∀ r ∈ before ++ after, Separated r area) : Span.Gapped (before ++ area :: after) := by
  refine Span.pairwise_middle.mpr ⟨gapped, fun r member => ?_, fun r member => ?_⟩
  · rcases apart r (List.mem_append_left _ member) with order | order
    · exact order
    · have above := small r member
      have := area.base_le_stop
      omega
  · rcases apart r (List.mem_append_right _ member) with order | order
    · have below := large r member
      have := r.base_le_stop
      omega
    · exact order

theorem insertAll_separated {self self' : RBTreeAlloc} {bump bump' : BumpHeap} {areas : List Region}
    (inserted : self.insertAll bump areas = .ok (self', bump'))
    (gapped : Span.Gapped (regions self.root)) (occupied : ∀ r ∈ areas, 0 < r.size)
    (apart : (regions self.root ++ areas).Pairwise Separated) :
    Span.Gapped (regions self'.root) ∧ (regions self'.root).Perm (regions self.root ++ areas) := by
  induction areas generalizing self bump with
  | nil =>
      simp only [RBTreeAlloc.insertAll, Except.ok.injEq, Prod.mk.injEq] at inserted
      rw [← inserted.1, List.append_nil]
      exact ⟨gapped, .refl _⟩
  | cons area areas induction =>
      simp only [RBTreeAlloc.insertAll, bind_eq_ok, Prod.exists] at inserted
      obtain ⟨mid, bumpMid, first, rest⟩ := inserted
      have positive := occupied area List.mem_cons_self
      rcases insert_regions first with ⟨empty, -⟩ | ⟨-, before, after, split, joined, placed⟩
      · omega
      · obtain ⟨small, large⟩ := placed gapped.apart.sorted
        have moved : (regions mid.root ++ areas).Perm (regions self.root ++ area :: areas) := by
          rw [joined, split, List.append_assoc, List.append_assoc, List.cons_append]
          exact List.perm_middle.symm.append_left before
        have gappedMid : Span.Gapped (regions mid.root) := by
          rw [joined]
          rw [split] at gapped apart
          exact gapped_insert gapped small large fun r member =>
            (List.pairwise_append.mp apart).2.2 r member area List.mem_cons_self
        obtain ⟨gapped', perm⟩ := induction rest gappedMid
          (fun r member => occupied r (List.mem_cons_of_mem _ member))
          (apart.perm moved.symm fun order => order.symm)
        exact ⟨gapped', perm.trans moved⟩

section Runs

variable {areas : List Region} {s : HeapState}

theorem GapSeparated.start (separated : GapSeparated areas)
    (initial : (heapSystem areas).initial s) :
    Spaced areas s ∧ s.free.Perm areas := by
  obtain ⟨bump, inserted, dead⟩ := initial
  obtain ⟨gapped, perm⟩ :=
    insertAll_separated inserted List.Pairwise.nil separated.occupied separated.gaps
  have inside : Span.cover s.free ⊆ Span.cover areas :=
    fun _ ⟨r, member, covers⟩ => ⟨r, perm.subset member, covers⟩
  refine ⟨⟨⟨gapped.apart, ?_, ?_, ?_, inside, ?_⟩,
    (insertAll_intact RBTreeAlloc.Intact.new bump areas).2 _ _ inserted, gapped⟩, perm⟩ <;>
    simp [dead]

theorem GapSeparated.spaced (separated : GapSeparated areas)
    (reach : (heapSystem areas).Reachable s) :
    Spaced areas s :=
  reach.invariant (fun _ initial => (separated.start initial).1) fun _ _ _ spaced _ taken =>
    spaced.step taken

/-- No free region reaches past a limit that the heap areas keep. -/
theorem GapSeparated.bounded {limit : ℕ} (separated : GapSeparated areas)
    (ends : ∀ r ∈ areas, r.stop ≤ limit)
    (reach : (heapSystem areas).Reachable s) : ∀ r ∈ s.free, r.stop ≤ limit := by
  have both : Spaced areas s ∧ ∀ r ∈ s.free, r.stop ≤ limit := by
    refine @Behaviour.Reach.invariant _ _ _ _
      (fun s => Spaced areas s ∧ ∀ r ∈ s.free, r.stop ≤ limit) ?_ ?_ s reach
    · intro s initial
      obtain ⟨spaced, perm⟩ := separated.start initial
      exact ⟨spaced, fun r member => ends r (perm.subset member)⟩
    · rintro s call next ⟨spaced, bounded⟩ - taken
      exact ⟨spaced.step taken, spaced.bounded_step ends bounded taken⟩
  exact both.2

end Runs

/-- The heap areas of the sample runs, with the higher one first. -/
def swappedAreas : List Region := [⟨0x4000, 0x2000⟩, ⟨0x1000, 0x1000⟩]

theorem swappedAreas_separated : GapSeparated swappedAreas where
  gaps := by decide
  occupied := by decide

end Blubos
