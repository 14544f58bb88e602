import Blubos.Allocator.FirstFit
import Blubos.Allocator.TreeShape

/-!
# What `free` does to the regions

The two searches, the deletions and the insertion of `free`, for a block that meets no region of
the tree.  The extent that `free` inserts reaches from the region that ends at the block, if there
is one, to the end of the first node at or after the block, if it lies within reach.  With a region
on its left the reach is measured from the base of that region and so falls short of the end of the
block.
-/

namespace Blubos

/-- The regions are in order and none of them meets the non-empty block. -/
structure Clear (spans : List Region) (block : Span) : Prop where
  /-- Each region ends at or before the next one starts. -/
  apart : Span.Apart spans
  disjoint : ∀ r ∈ spans, Disjoint r.addresses block.addresses
  positive : 0 < block.size

namespace Clear

variable {spans : List Region} {block : Span} {r : Region}

/-- A region that starts below the block ends at or below its base. -/
theorem stop_le (clear : Clear spans block) (member : r ∈ spans) (below : r.base < block.base) :
    r.stop ≤ block.base := by
  have apart := Span.disjoint_iff.mp (clear.disjoint r member)
  have positive := clear.positive
  by_contra beyond
  refine apart block.base below.le (not_le.mp beyond) le_rfl ?_
  simp only [Span.stop]
  omega

theorem size_eq_zero (clear : Clear spans block) (member : r ∈ spans)
    (above : block.base ≤ r.base) (inside : r.base < block.stop) : r.size = 0 := by
  have apart := Span.disjoint_iff.mp (clear.disjoint r member)
  by_contra occupied
  refine apart r.base le_rfl ?_ above inside
  simp only [Span.stop]
  omega

end Clear

variable {self : RBTreeAlloc} {block : Span}

/-- The predecessor part of `free` absorbs a region exactly when it ends at the block. -/
theorem mergePredecessor_spec {left : RBTreeAlloc.Extent} (clear : Clear (regions self.root) block)
    (step : self.mergePredecessor block.base block.size = .ok left) :
    (left = ⟨block.base, block.size, none⟩ ∧
        ∀ r ∈ regions self.root, r.base < block.base → r.stop < block.base) ∨
      ∃ p before after, regions self.root = before ++ p :: after ∧ p.base < block.base ∧
        p.stop = block.base ∧ (∀ r ∈ after, block.base ≤ r.base) ∧
        left = ⟨p.base, max block.size p.size, some p.base⟩ := by
  rw [RBTreeAlloc.mergePredecessor] at step
  rcases predecessor_spec clear.apart.sorted rfl with
    ⟨absent, above⟩ | ⟨p, before, after, found, split, below, above⟩
  · rw [absent, Except.ok.injEq] at step
    exact .inl ⟨step.symm, fun r member small => absurd small (not_lt.mpr (above r member))⟩
  · rw [found] at step
    simp only [bind_eq_ok, Usize.add_eq_ok] at step
    obtain ⟨_, ⟨-, rfl⟩, step⟩ := step
    have member : p.toSpan ∈ regions self.root := by simp [split]
    have ends : p.stop ≤ block.base := clear.stop_le member below
    by_cases touches : block.base ≤ p.base + p.size
    · rw [if_pos touches] at step
      simp only [bind_eq_ok, Usize.add_eq_ok, Usize.sub_eq_ok, Except.ok.injEq] at step
      obtain ⟨_, ⟨-, rfl⟩, _, ⟨-, rfl⟩, rfl⟩ := step
      refine .inr ⟨p.toSpan, before, after, split, below, le_antisymm ends touches, above, ?_⟩
      simp only [RBTreeAlloc.Extent.mk.injEq, true_and, and_true]
      omega
    · rw [if_neg touches, Except.ok.injEq] at step
      refine .inl ⟨step.symm, fun r member' small => ?_⟩
      have pairs := clear.apart
      rw [split, Span.Apart, Span.pairwise_middle] at pairs
      rw [split, List.mem_append, List.mem_cons] at member'
      rcases member' with earlier | rfl | later
      · exact (pairs.2.1 r earlier).trans_lt below
      · exact not_le.mp touches
      · exact absurd small (not_lt.mpr (above r later))

/-- The successor part of `free` absorbs the first node at or after the block exactly when it lies
within reach. -/
theorem mergeSuccessor_spec {left whole : RBTreeAlloc.Extent}
    (sorted : Sorted (regions self.root))
    (step : self.mergeSuccessor block.base left = .ok whole) :
    (whole = ⟨left.base, left.size, none⟩ ∧
        ∀ r ∈ regions self.root, block.base ≤ r.base → left.base + left.size < r.base) ∨
      ∃ s before after, regions self.root = before ++ s :: after ∧
        (∀ r ∈ before, r.base < block.base) ∧ block.base ≤ s.base ∧
        s.base ≤ left.base + left.size ∧
        whole = ⟨left.base, s.stop - left.base, some s.base⟩ := by
  rw [RBTreeAlloc.mergeSuccessor] at step
  rcases successor_spec sorted rfl with
    ⟨absent, below⟩ | ⟨s, before, after, found, split, above, below⟩
  · rw [absent, Except.ok.injEq] at step
    exact .inl ⟨step.symm, fun r member large => absurd large (not_le.mpr (below r member))⟩
  · rw [found] at step
    simp only [bind_eq_ok, Usize.add_eq_ok] at step
    obtain ⟨_, ⟨-, rfl⟩, step⟩ := step
    by_cases touches : s.base ≤ left.base + left.size
    · rw [if_pos touches] at step
      simp only [bind_eq_ok, Usize.add_eq_ok, Usize.sub_eq_ok, Except.ok.injEq] at step
      obtain ⟨_, ⟨-, rfl⟩, _, ⟨-, rfl⟩, rfl⟩ := step
      exact .inr ⟨s.toSpan, before, after, split, below, above, touches, rfl⟩
    · rw [if_neg touches, Except.ok.injEq] at step
      refine .inl ⟨step.symm, fun r member large => ?_⟩
      rw [split, Sorted, Span.pairwise_middle] at sorted
      rw [split, List.mem_append, List.mem_cons] at member
      rcases member with earlier | rfl | later
      · exact absurd large (not_le.mpr (below r earlier))
      · exact not_le.mp touches
      · exact (not_le.mp touches).trans_le (sorted.2.2 r later)

/-- The predecessor part returns when no address of the tree or of the block overflows. -/
theorem mergePredecessor_isOk (clear : Clear (regions self.root) block)
    (bounded : ∀ r ∈ regions self.root, r.stop ≤ Usize.max) (fits : block.stop ≤ Usize.max) :
    ∃ left, self.mergePredecessor block.base block.size = .ok left := by
  rw [RBTreeAlloc.mergePredecessor]
  rcases predecessor_spec clear.apart.sorted rfl with
    ⟨absent, -⟩ | ⟨p, before, after, found, split, below, -⟩
  · exact ⟨_, by rw [absent]⟩
  · have member : p.toSpan ∈ regions self.root := by simp [split]
    have noOverflow := bounded _ member
    simp only [Span.stop] at noOverflow fits
    have ends : Usize.add p.base p.size = .ok (p.base + p.size) :=
      Usize.add_eq_ok.mpr ⟨noOverflow, rfl⟩
    by_cases touches : block.base ≤ p.base + p.size
    · have reach : Usize.add p.base block.size = .ok (p.base + block.size) :=
        Usize.add_eq_ok.mpr ⟨by omega, rfl⟩
      have size : Usize.sub (max (p.base + block.size) (p.base + p.size)) p.base =
          .ok (max (p.base + block.size) (p.base + p.size) - p.base) :=
        Usize.sub_eq_ok.mpr ⟨by omega, rfl⟩
      exact ⟨_, by simp only [found, ends, ok_bind, if_pos touches, reach, size]; rfl⟩
    · exact ⟨_, by simp only [found, ends, ok_bind, if_neg touches]; rfl⟩

/-- The predecessor part leaves an extent that starts at or before the block and reaches no further
than the block. -/
theorem mergePredecessor_reach {left : RBTreeAlloc.Extent} (clear : Clear (regions self.root) block)
    (step : self.mergePredecessor block.base block.size = .ok left) :
    left.base ≤ block.base ∧ left.base + left.size ≤ block.stop := by
  rcases mergePredecessor_spec clear step with
    ⟨rfl, -⟩ | ⟨p, before, after, split, small, touches, -, rfl⟩
  · exact ⟨le_rfl, le_rfl⟩
  · simp only [Span.stop] at touches ⊢
    omega

/-- The successor part returns when no address of the tree or of the extent overflows. -/
theorem mergeSuccessor_isOk {left : RBTreeAlloc.Extent} (sorted : Sorted (regions self.root))
    (bounded : ∀ r ∈ regions self.root, r.stop ≤ Usize.max)
    (starts : left.base ≤ block.base) (fits : left.base + left.size ≤ Usize.max) :
    ∃ whole, self.mergeSuccessor block.base left = .ok whole := by
  rw [RBTreeAlloc.mergeSuccessor]
  rcases successor_spec sorted rfl with
    ⟨absent, -⟩ | ⟨s, before, after, found, split, above, -⟩
  · exact ⟨_, by rw [absent]⟩
  · have member : s.toSpan ∈ regions self.root := by simp [split]
    have noOverflow := bounded _ member
    simp only [Span.stop] at noOverflow
    have reach : Usize.add left.base left.size = .ok (left.base + left.size) :=
      Usize.add_eq_ok.mpr ⟨fits, rfl⟩
    by_cases touches : s.base ≤ left.base + left.size
    · have ends : Usize.add s.base s.size = .ok (s.base + s.size) :=
        Usize.add_eq_ok.mpr ⟨noOverflow, rfl⟩
      have size : Usize.sub (s.base + s.size) left.base = .ok (s.base + s.size - left.base) :=
        Usize.sub_eq_ok.mpr ⟨by omega, rfl⟩
      exact ⟨_, by simp only [found, reach, ok_bind, if_pos touches, ends, size]; rfl⟩
    · exact ⟨_, by simp only [found, reach, ok_bind, if_neg touches]; rfl⟩

/-- `delete` from the root, when it returns, keeps a sublist of the regions without the key. -/
theorem deleteRoot_regions {self' : RBTreeAlloc} {key : ℕ}
    (step : self.deleteRoot key = .ok self') :
    (regions self'.root).Sublist (regions self.root) ∧
      (KeySorted key (regions self.root) → ∀ r ∈ regions self'.root, r.base ≠ key) := by
  simp only [RBTreeAlloc.deleteRoot, bind_eq_ok, unwrap_eq_ok, Except.ok.injEq] at step
  obtain ⟨⟨root, erased⟩, deleted, rfl⟩ := step
  exact regions_delete deleted

theorem deleteKey_regions {self' : RBTreeAlloc} {key : Option ℕ}
    (step : self.deleteKey key = .ok self') :
    (regions self'.root).Sublist (regions self.root) ∧
      ∀ k, key = some k → KeySorted k (regions self.root) →
        ∀ r ∈ regions self'.root, r.base ≠ k := by
  cases key with
  | none =>
      obtain rfl := Except.ok.inj step
      exact ⟨List.Sublist.refl _, by simp⟩
  | some k =>
      obtain ⟨kept, absent⟩ := deleteRoot_regions step
      exact ⟨kept, fun _ same => Option.some.inj same ▸ absent⟩

/-- The part of a list that a sublist of the same length, less one element with a given property,
leaves. -/
theorem sublist_eq_of_removed {α : Type*} {kept before after : List α} {x : α}
    (sub : kept.Sublist (before ++ x :: after)) (absent : x ∉ kept)
    (length : kept.length + 1 = (before ++ x :: after).length) : kept = before ++ after := by
  induction before generalizing kept with
  | nil =>
      cases sub with
      | cons _ sub => exact sub.eq_of_length (by simpa using length)
      | cons_cons _ sub => simp at absent
  | cons y before induction =>
      cases sub with
      | cons _ sub =>
          have whole := sub.eq_of_length (by simpa using length)
          simp [whole] at absent
      | @cons_cons kept' _ _ sub =>
          rw [List.cons_append, ← induction sub
            (fun member => absent (List.mem_cons_of_mem _ member))
            (by simpa using length)]

/-- The state of a balanced allocator after one key was deleted. -/
theorem deleteRoot_balanced {key n : ℕ} (leaning : Tree.RootLeaning n self.root)
    (unshared : KeySorted key (regions self.root)) :
    ∃ tree freed m, self.deleteRoot key = .ok { self.recycle freed with root := tree } ∧
      Tree.RootLeaning m tree ∧ (boxes self.root).Perm (freedBox freed ++ boxes tree) ∧
      ∀ before x after, regions self.root = before ++ x :: after → x.base = key →
        regions tree = before ++ after := by
  obtain ⟨tree, freed, m, deleted, leaning', moved⟩ := deleteRoot_spec leaning unshared
  have returned : self.deleteRoot key = .ok { self.recycle freed with root := tree } := by
    rw [RBTreeAlloc.deleteRoot, deleted]
    rfl
  refine ⟨tree, freed, m, returned, leaning', moved, fun before x after split hit => ?_⟩
  obtain ⟨kept, absent⟩ := deleteRoot_regions returned
  have gone : x ∉ regions tree := fun member => absent unshared x member hit
  have counted : (regions self.root).length = (freedBox freed).length + (regions tree).length := by
    simpa using moved.length_eq
  rw [split] at kept counted
  apply sublist_eq_of_removed kept gone
  cases freed with
  | none =>
      have whole := kept.eq_of_length (by simpa [freedBox] using counted.symm)
      exact absurd (whole ▸ by simp) gone
  | some freed => rw [counted, freedBox, Nat.add_comm]; rfl

/-- A node from the freelist is reset to a leaf; without one a box is taken from the bump heap. -/
theorem allocNode_cases (self : RBTreeAlloc) (bump : BumpHeap) (base size : ℕ) :
    (∃ color next head r, self.freelist = .node color next head r ∧
        self.allocNode bump base size =
          .ok (.node .red .nil ⟨⟨base, size⟩, head.box, size⟩ .nil,
            { self with freelist := next }, bump)) ∨
      (self.freelist = .nil ∧
        ((∃ box bump', BumpAlloc.boxNewIn bump TreeRegion.layout = .ok (box, bump') ∧
            self.allocNode bump base size = .ok (.node .red .nil ⟨⟨base, size⟩, box, size⟩ .nil,
              { self with taken := box :: self.taken }, bump')) ∨
          ∃ fault, BumpAlloc.boxNewIn bump TreeRegion.layout = .error fault ∧
            self.allocNode bump base size = .error fault)) := by
  unfold RBTreeAlloc.allocNode
  cases freelist : self.freelist with
  | node color next head r => exact .inl ⟨color, next, head, r, rfl, rfl⟩
  | nil =>
      cases boxed : BumpAlloc.boxNewIn bump TreeRegion.layout with
      | error fault => exact .inr ⟨rfl, .inr ⟨fault, rfl, rfl⟩⟩
      | ok taken => exact .inr ⟨rfl, .inl ⟨taken.1, taken.2, rfl, rfl⟩⟩

/-- `insert` refuses empty regions and puts the others in order. -/
theorem insert_regions {self' : RBTreeAlloc} {bump bump' : BumpHeap} {region : Region}
    (step : self.insert bump region = .ok (self', bump')) :
    (region.size = 0 ∧ self' = self) ∨
      (0 < region.size ∧ ∃ before after, regions self.root = before ++ after ∧
        regions self'.root = before ++ region :: after ∧
        (Sorted (regions self.root) →
          (∀ r ∈ before, r.base ≤ region.base) ∧ ∀ r ∈ after, region.base < r.base)) := by
  rw [RBTreeAlloc.insert] at step
  split_ifs at step with empty
  · simp only [Except.ok.injEq, Prod.mk.injEq] at step
    exact .inl ⟨empty, step.1.symm⟩
  · refine .inr ⟨Nat.pos_of_ne_zero empty, ?_⟩
    simp only [bind_eq_ok, unwrap_eq_ok, Prod.exists, Except.ok.injEq, Prod.mk.injEq] at step
    obtain ⟨node, mid, _, allocated, root, inserted, rfl, rfl⟩ := step
    obtain ⟨box, rfl, sameRoot⟩ : ∃ box, node = .node .red .nil
        { base := region.base, size := region.size, box := box, maxSize := region.size } .nil ∧
        mid.root = self.root := by
      rcases allocNode_cases self bump region.base region.size with
        ⟨color, next, head, r, -, returned⟩ | ⟨-, ⟨box, bump, -, returned⟩ | ⟨fault, -, failed⟩⟩
      · simp only [returned, Except.ok.injEq, Prod.mk.injEq] at allocated
        obtain ⟨rfl, rfl, -⟩ := allocated
        exact ⟨_, rfl, rfl⟩
      · simp only [returned, Except.ok.injEq, Prod.mk.injEq] at allocated
        obtain ⟨rfl, rfl, -⟩ := allocated
        exact ⟨_, rfl, rfl⟩
      · simp [failed] at allocated
    rw [sameRoot] at inserted
    obtain ⟨before, after, split, joined, placed⟩ := regions_insertNode inserted
    exact ⟨before, after, split, by rw [regions_paint]; exact joined, placed⟩

/-! ## The freed extent -/

/-- A region between strictly smaller and strictly larger bases shares its base with no other. -/
theorem KeySorted.of_middle {spans before after : List Region} {span : Region}
    (split : spans = before ++ span :: after) (sorted : Sorted spans)
    (smaller : ∀ r ∈ before, r.base < span.base) (larger : ∀ r ∈ after, span.base < r.base) :
    KeySorted span.base spans := by
  subst split
  obtain ⟨others, left, right⟩ := Span.pairwise_middle.mp sorted
  refine Span.pairwise_middle.mpr ⟨?_, ?_, ?_⟩
  · refine others.imp_of_mem fun {a b} memberLeft _ order => ⟨order, fun same => ?_⟩
    rcases List.mem_append.mp memberLeft with member | member
    · exact absurd same (smaller a member).ne
    · exact absurd same (larger a member).ne'
  · exact fun r member => ⟨left r member, fun same => absurd same (smaller r member).ne⟩
  · exact fun r member => ⟨right r member, fun _ => (larger r member).ne'⟩

/-- The two parts of `free` that only read the tree. -/
def Merged (self : RBTreeAlloc) (block : Span) (left whole : RBTreeAlloc.Extent) : Prop :=
  self.mergePredecessor block.base block.size = .ok left ∧
    self.mergeSuccessor block.base left = .ok whole

/-- The steps of `free`. -/
theorem free_cases {self' : RBTreeAlloc} {bump bump' : BumpHeap}
    (step : self.free bump block.base block.size = .ok (self', bump')) :
    ∃ left whole mid kept, Merged self block left whole ∧ self.deleteKey left.key = .ok mid ∧
      mid.deleteKey whole.key = .ok kept ∧
      kept.insert bump ⟨whole.base, whole.size⟩ = .ok (self', bump') := by
  simp only [RBTreeAlloc.free, bind_eq_ok] at step
  obtain ⟨left, before, whole, after, mid, first, kept, second, inserted⟩ := step
  exact ⟨left, whole, mid, kept, ⟨before, after⟩, first, second, inserted⟩

section Extent

variable {left whole : RBTreeAlloc.Extent} {r : Region}

/-- The extent lies in the block and the regions of the tree. -/
theorem Merged.addresses_subset (merged : Merged self block left whole)
    (clear : Clear (regions self.root) block) :
    (⟨whole.base, whole.size⟩ : Span).addresses ⊆
      block.addresses ∪ Span.cover (regions self.root) := by
  rintro address ⟨above, below⟩
  rw [Span.stop_mk] at below
  simp only at above
  by_contra outside
  simp only [Set.mem_union, not_or, Span.mem_addresses, Span.mem_cover, not_exists, not_and,
    not_lt, Span.stop] at outside
  obtain ⟨offBlock, offRegions⟩ := outside
  rcases mergePredecessor_spec clear merged.1 with
    ⟨rfl, -⟩ | ⟨p, before, after, split, small, touches, -, rfl⟩
  · rcases mergeSuccessor_spec clear.apart.sorted merged.2 with
      ⟨rfl, -⟩ | ⟨s, before, after, split, -, large, reach, rfl⟩
    · have := offBlock above
      simp only at below
      omega
    · have inside := offRegions s (by simp [split])
      simp only [Span.stop] at above below reach inside
      omega
  · have inside := offRegions p (by simp [split])
    simp only [Span.stop] at touches
    rcases mergeSuccessor_spec clear.apart.sorted merged.2 with
      ⟨rfl, -⟩ | ⟨s, before', after', split', -, large, reach, rfl⟩
    · simp only at above below
      omega
    · have inside' := offRegions s (by simp [split'])
      simp only [Span.stop] at above below reach inside'
      omega

theorem Merged.base_eq (merged : Merged self block left whole)
    (clear : Clear (regions self.root) block) : whole.base = left.base := by
  rcases mergeSuccessor_spec clear.apart.sorted merged.2 with ⟨rfl, -⟩ | ⟨_, _, _, _, _, _, _, rfl⟩
  · rfl
  · rfl

/-- Regions that start after the extent's base start at or after the block. -/
theorem Merged.block_base_le (merged : Merged self block left whole)
    (clear : Clear (regions self.root) block) (member : r ∈ regions self.root)
    (order : whole.base < r.base) : block.base ≤ r.base := by
  rw [merged.base_eq clear] at order
  rcases mergePredecessor_spec clear merged.1 with
    ⟨rfl, -⟩ | ⟨p, before, after, split, small, -, later, rfl⟩
  · exact order.le
  · have pairs := clear.apart.sorted
    rw [split, Span.pairwise_middle] at pairs
    rw [split, List.mem_append, List.mem_cons] at member
    rcases member with earlier | rfl | after'
    · exact absurd order (not_lt.mpr (pairs.2.1 r earlier))
    · exact absurd order (lt_irrefl _)
    · exact later r after'

/-- The remaining regions that start no later than the extent end before it. -/
theorem Merged.stop_le (merged : Merged self block left whole)
    (clear : Clear (regions self.root) block) (member : r ∈ regions self.root)
    (order : r.base ≤ whole.base) (other : left.key ≠ some r.base) : r.stop ≤ whole.base := by
  rw [merged.base_eq clear] at order ⊢
  rcases mergePredecessor_spec clear merged.1 with
    ⟨rfl, below⟩ | ⟨p, before, after, split, small, touches, later, rfl⟩
  · have order' : r.base ≤ block.base := order
    show r.stop ≤ block.base
    rcases lt_or_eq_of_le order' with strict | same
    · exact (below r member strict).le
    · have positive := clear.positive
      have empty := clear.size_eq_zero member same.ge (by simp only [Span.stop]; omega)
      simp only [Span.stop]
      omega
  · have pairs := clear.apart
    rw [split, Span.Apart, Span.pairwise_middle] at pairs
    rw [split, List.mem_append, List.mem_cons] at member
    rcases member with earlier | rfl | after'
    · exact pairs.2.1 r earlier
    · exact absurd rfl other
    · have := later r after'
      simp only at order
      omega

/-- The remaining regions that start after the extent's base start at or after its end. -/
theorem Merged.stop_le_base (merged : Merged self block left whole)
    (clear : Clear (regions self.root) block) (member : r ∈ regions self.root)
    (order : whole.base < r.base)
    (other : whole.key = some r.base → ¬KeySorted r.base (regions self.root)) :
    whole.base + whole.size ≤ r.base := by
  have above := merged.block_base_le clear member order
  obtain ⟨starts, -⟩ := mergePredecessor_reach clear merged.1
  rcases mergeSuccessor_spec clear.apart.sorted merged.2 with
    ⟨rfl, beyond⟩ | ⟨s, before, after, split, earlier, large, -, rfl⟩
  · exact (beyond r member above).le
  · have ends : left.base + (s.stop - left.base) = s.stop := by
      have := s.base_le_stop
      omega
    rw [ends]
    have pairs := clear.apart
    rw [split, Span.Apart, Span.pairwise_middle] at pairs
    rw [split, List.mem_append, List.mem_cons] at member
    rcases member with member | rfl | member
    · exact absurd above (not_le.mpr (earlier r member))
    · -- Were it not empty, no other region would start at it and it would be gone.
      by_contra occupied
      refine other rfl (KeySorted.of_middle split clear.apart.sorted ?_ ?_)
      · exact fun q member => (earlier q member).trans_le large
      · exact fun q member => (not_le.mp occupied).trans_le (pairs.2.2 q member)
    · exact pairs.2.2 r member

end Extent

/-- The base that `free` hands to its first deletion belongs to a region that ends at the block. -/
theorem Merged.left_key {left whole : RBTreeAlloc.Extent} {key : ℕ}
    (merged : Merged self block left whole) (clear : Clear (regions self.root) block)
    (hit : left.key = some key) :
    ∃ p ∈ regions self.root, p.base = key ∧ p.base < block.base ∧ p.stop = block.base := by
  rcases mergePredecessor_spec clear merged.1 with
    ⟨rfl, -⟩ | ⟨p, before, after, split, small, touches, -, rfl⟩
  · simp at hit
  · exact ⟨p, by simp [split], Option.some.inj hit, small, touches⟩

/-- A node lies within the reach of a freed block: no further than the block and, when a region
ends at the block, no further than the longer of the two laid from the base of that region. -/
def WithinReach (spans : List Region) (block : Span) (address : ℕ) : Prop :=
  address ≤ block.stop ∧ ∀ p ∈ spans, p.base < block.base → p.stop = block.base →
    address ≤ p.base + max block.size p.size

instance (spans : List Region) (block : Span) (address : ℕ) :
    Decidable (WithinReach spans block address) :=
  inferInstanceAs (Decidable (_ ∧ ∀ p ∈ spans, _))

/-- The base that `free` hands to its second deletion belongs to the first node at or after the
block, and that node lies within reach. -/
theorem Merged.whole_key {left whole : RBTreeAlloc.Extent} {key : ℕ}
    (merged : Merged self block left whole) (clear : Clear (regions self.root) block)
    (hit : whole.key = some key) :
    ∃ s ∈ regions self.root, s.base = key ∧ block.base ≤ s.base ∧
      (∀ r ∈ regions self.root, block.base ≤ r.base → s.base ≤ r.base) ∧
      WithinReach (regions self.root) block s.base := by
  rcases mergeSuccessor_spec clear.apart.sorted merged.2 with
    ⟨rfl, -⟩ | ⟨s, before, after, split, earlier, large, reach, rfl⟩
  · simp at hit
  · refine ⟨s, by simp [split], Option.some.inj hit, large, ?_, ?_⟩
    · intro r member above
      have pairs := clear.apart.sorted
      rw [split, Span.pairwise_middle] at pairs
      rw [split, List.mem_append, List.mem_cons] at member
      rcases member with member | rfl | member
      · exact absurd above (not_le.mpr (earlier r member))
      · exact le_rfl
      · exact pairs.2.2 r member
    · rcases mergePredecessor_spec clear merged.1 with
        ⟨rfl, below⟩ | ⟨p, before', after', split', small, touches, later, rfl⟩
      · refine ⟨reach, fun p member small touches => ?_⟩
        have := below p member small
        omega
      · refine ⟨?_, fun q member small' touches' => ?_⟩
        · simp only [Span.stop] at touches ⊢
          simp only at reach
          omega
        · -- Only one region can end at the block.
          have pairs := clear.apart
          rw [split', Span.Apart, Span.pairwise_middle] at pairs
          rw [split', List.mem_append, List.mem_cons] at member
          rcases member with member | rfl | member
          · have := pairs.2.1 q member
            omega
          · exact reach
          · have := later q member
            omega

/-- `free` keeps the regions apart and adds nothing but the block, provided the region that ends at
the block, if there is one, shares its base with no other node. -/
theorem free_regions {self' : RBTreeAlloc} {bump bump' : BumpHeap}
    (clear : Clear (regions self.root) block)
    (unshared : ∀ p ∈ regions self.root, p.base < block.base → p.stop = block.base →
      KeySorted p.base (regions self.root))
    (step : self.free bump block.base block.size = .ok (self', bump')) :
    Span.Apart (regions self'.root) ∧
      Span.cover (regions self'.root) ⊆ block.addresses ∪ Span.cover (regions self.root) := by
  obtain ⟨left, whole, mid, kept, merged, first, second, inserted⟩ := free_cases step
  obtain ⟨midSub, midAbsent⟩ := deleteKey_regions first
  obtain ⟨keptSub, keptAbsent⟩ := deleteKey_regions second
  have sub := keptSub.trans midSub
  have noLeft (r : Region) (member : r ∈ regions kept.root) : left.key ≠ some r.base := by
    intro hit
    obtain ⟨p, memberP, same, small, touches⟩ := merged.left_key clear hit
    have alone := unshared p memberP small touches
    rw [same] at alone
    exact midAbsent r.base hit alone r (keptSub.subset member) rfl
  have noWhole (r : Region) (member : r ∈ regions kept.root) (hit : whole.key = some r.base) :
      ¬KeySorted r.base (regions self.root) :=
    fun alone => keptAbsent r.base hit (alone.sublist midSub) r member rfl
  have keptCover : Span.cover (regions kept.root) ⊆ Span.cover (regions self.root) :=
    fun address ⟨r, member, inside⟩ => ⟨r, sub.subset member, inside⟩
  rcases insert_regions inserted with ⟨-, rfl⟩ | ⟨-, before, after, split, joined, placed⟩
  · exact ⟨clear.apart.sublist sub, keptCover.trans Set.subset_union_right⟩
  · obtain ⟨small, large⟩ := placed (clear.apart.sublist sub).sorted
    constructor
    · rw [joined, Span.Apart, Span.pairwise_middle, ← split]
      refine ⟨clear.apart.sublist sub, fun r member => ?_, fun r member => ?_⟩
      · have memberKept : r ∈ regions kept.root := by simp [split, member]
        exact merged.stop_le clear (sub.subset memberKept) (small r member) (noLeft r memberKept)
      · have memberKept : r ∈ regions kept.root := by simp [split, member]
        exact merged.stop_le_base clear (sub.subset memberKept) (large r member)
          (noWhole r memberKept)
    · rw [joined, Span.cover_append, Span.cover_cons]
      rw [split, Span.cover_append] at keptCover
      intro address inside
      rcases inside with earlier | whole' | later
      · exact .inr (keptCover (.inl earlier))
      · exact merged.addresses_subset clear whole'
      · exact .inr (keptCover (.inr later))

end Blubos
