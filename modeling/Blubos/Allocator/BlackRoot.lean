import Blubos.Allocator.Recursion
import Blubos.Allocator.Separated
import Blubos.Allocator.TreeUpdates

/-!
# The tree between two calls

`insert` and `alloc` paint the root black, so after a call the tree is a left-leaning red-black
tree, unless the last thing the call did to it was a deletion.  That happens in a `free` whose
block starts where a used-up node lies: the merged extent is empty, `insert` returns at once and the
root keeps the colour the deletion left it with.
-/

namespace Blubos

open Blubos.Tree (LeftLeaning RootLeaning)

/-- A left-leaning red-black tree with a black root, on which the recursions are logarithmic. -/
structure ProperTree (allocator : RBTreeAlloc) : Prop where
  black : allocator.root.isRed = false
  /-- No right child is red, no red node has a red child and every path has `n` black nodes. -/
  leaning : ∃ n, LeftLeaning n allocator.root
  allocRec : ∀ map request,
    allocRecDepth map request allocator.root ≤ 2 * Nat.log 2 (allocator.root.count + 1)
  insertNode : ∀ node,
    insertNodeDepth node allocator.root ≤ 2 * Nat.log 2 (allocator.root.count + 1)
  /-- And a deletion, whether the key is in the tree or not. -/
  delete : ∀ key, DeleteDepthLe allocator key (2 * Nat.log 2 (allocator.root.count + 1))

/-- A balanced tree with gaps between its regions is proper when its root is black. -/
theorem RBTreeAlloc.Intact.properTree {self : RBTreeAlloc} (intact : self.Intact)
    (gapped : Span.Gapped (regions self.root)) (black : self.root.isRed = false) :
    ProperTree self := by
  obtain ⟨n, leaning⟩ := intact.leaning
  have shallow := leaning.height_le_log
  refine ⟨black, ⟨n, leaning.of_black black⟩, fun map request => ?_, fun node => ?_,
    fun key => deleteDepthLe_log leaning (keySorted_of_gapped gapped key)⟩
  · exact (allocRecDepth_le map request self.root).trans ((Nat.sub_le _ _).trans shallow)
  · exact (insertNodeDepth_le node self.root).trans shallow

theorem insert_black {self self' : RBTreeAlloc} {bump bump' : BumpHeap} {region : Region}
    (positive : 0 < region.size) (inserted : self.insert bump region = .ok (self', bump')) :
    self'.root.isRed = false := by
  rw [RBTreeAlloc.insert, if_neg positive.ne'] at inserted
  simp only [bind_eq_ok, Prod.exists, Except.ok.injEq, Prod.mk.injEq] at inserted
  obtain ⟨_, _, _, -, root, -, rfl, -⟩ := inserted
  exact isRed_paint_black root

theorem insertAll_black {self self' : RBTreeAlloc} {bump bump' : BumpHeap} {areas : List Region}
    (occupied : ∀ r ∈ areas, 0 < r.size) (black : self.root.isRed = false)
    (inserted : self.insertAll bump areas = .ok (self', bump')) : self'.root.isRed = false := by
  induction areas generalizing self bump with
  | nil =>
      simp only [RBTreeAlloc.insertAll, Except.ok.injEq, Prod.mk.injEq] at inserted
      rw [← inserted.1]
      exact black
  | cons area areas induction =>
      simp only [RBTreeAlloc.insertAll, bind_eq_ok, Prod.exists] at inserted
      obtain ⟨mid, bumpMid, first, rest⟩ := inserted
      exact induction (fun r member => occupied r (List.mem_cons_of_mem _ member))
        (insert_black (occupied area List.mem_cons_self) first) rest

/-- The condition on a call: no node of the tree starts where a freed block does. -/
def NoNodeAt (s : HeapState) : HeapCall → Prop
  | .alloc _ _ => True
  | .free block => ∀ r ∈ s.free, r.base ≠ block.base

instance (s : HeapState) (call : HeapCall) : Decidable (NoNodeAt s call) :=
  match call with
  | .alloc _ _ => inferInstanceAs (Decidable True)
  | .free block => inferInstanceAs (Decidable (∀ r ∈ s.free, r.base ≠ block.base))

/-- Without a node at its start, a block is merged into an extent that is not empty. -/
theorem Merged.positive {self : RBTreeAlloc} {block : Span} {left whole : RBTreeAlloc.Extent}
    (merged : Merged self block left whole) (clear : Clear (regions self.root) block)
    (away : ∀ r ∈ regions self.root, r.base ≠ block.base) : 0 < whole.size := by
  have occupied := clear.positive
  have leftPositive : 0 < left.size ∧ left.base ≤ block.base := by
    rcases mergePredecessor_spec clear merged.1 with
      ⟨rfl, -⟩ | ⟨p, before, after, split, small, touches, -, rfl⟩
    · exact ⟨occupied, le_rfl⟩
    · exact ⟨lt_max_of_lt_left occupied, small.le⟩
  rcases mergeSuccessor_spec clear.apart.sorted merged.2 with
    ⟨rfl, -⟩ | ⟨q, before, after, split, -, above, -, rfl⟩
  · exact leftPositive.1
  · have member : q ∈ regions self.root := by simp [split]
    have other := away q member
    have order := q.base_le_stop
    simp only
    omega

section Runs

variable {areas : List Region} {s : HeapState}

theorem Spaced.black_step {s' : HeapState} {call : HeapCall} (spaced : Spaced areas s)
    (allowed : NoNodeAt s call) (taken : (heapSystem areas).step s call s') :
    s'.alloc.root.isRed = false := by
  obtain ⟨permitted, performed⟩ := taken
  rcases HeapState.perform_cases performed with
    ⟨map, request, tree, rfl, -, rfl⟩ | ⟨map, request, tree, a, rfl, -, rfl⟩ |
    ⟨block, alloc, bump, rfl, freed, rfl⟩
  · exact isRed_paint_black tree
  · exact isRed_paint_black tree
  · obtain ⟨left, whole, mid, kept, merged, -, -, inserted⟩ := free_cases freed
    exact insert_black (merged.positive (spaced.owned.clear permitted) allowed) inserted

/-- In every state of a run in which no block is freed at whose start a node lies, the tree is a
left-leaning red-black tree with a black root, and the recursions on it are logarithmic. -/
theorem properTree_of_reach (separated : GapSeparated areas)
    (reach : (heapSystem areas).Reach NoNodeAt s) : ProperTree s.alloc := by
  have both : Spaced areas s ∧ s.alloc.root.isRed = false := by
    refine @Behaviour.Reach.invariant _ _ _ _
      (fun s => Spaced areas s ∧ s.alloc.root.isRed = false) ?_ ?_ s reach
    · intro s initial
      refine ⟨(separated.start initial).1, ?_⟩
      obtain ⟨bump, inserted, -⟩ := initial
      exact insertAll_black separated.occupied rfl inserted
    · rintro s call next ⟨spaced, -⟩ allowed taken
      exact ⟨spaced.step taken, spaced.black_step allowed taken⟩
  exact both.1.intact.properTree both.1.gapped both.2

end Runs

/-- A run that takes three blocks and frees the first and the second. -/
theorem properTree_of_reach_swapped :
    ∃ s, (heapSystem swappedAreas).Reach NoNodeAt s ∧ s.live = [⟨0x1200, 0x100⟩] ∧
      ProperTree s.alloc := by
  have executed : ((HeapState.boot sampleBump swappedAreas).bind
      (Behaviour.run HeapState.attempt NoNodeAt ·
        [.alloc directMap (.bytes 0x100), .alloc directMap (.bytes 0x100),
          .alloc directMap (.bytes 0x100), .free ⟨0x1000, 0x100⟩,
          .free ⟨0x1100, 0x100⟩])).map (fun s => s.live) = some [⟨0x1200, 0x100⟩] := by
    decide +kernel
  obtain ⟨s, reach, live⟩ := HeapState.exists_reach executed
  exact ⟨s, reach, live, properTree_of_reach swappedAreas_separated reach⟩

/-- A block of 256 bytes that was freed and taken again leaves a used-up node behind it.  Freeing
the next block removes that node, inserts nothing and leaves a red root. -/
theorem properTree_of_reachable_false :
    ¬∀ areas, GapSeparated areas → ∀ s, (heapSystem areas).Reachable s → ProperTree s.alloc := by
  intro always
  have executed : ((HeapState.boot sampleBump swappedAreas).bind
      (Behaviour.run HeapState.attempt (fun _ _ => True) ·
        [.alloc directMap (.bytes 0x100), .alloc directMap (.bytes 0x100),
          .free ⟨0x1000, 0x100⟩, .alloc directMap (.bytes 0x100),
          .free ⟨0x1100, 0x100⟩])).map (fun s => s.alloc.root.isRed) = some true := by
    decide +kernel
  obtain ⟨s, reach, red⟩ := HeapState.exists_reach executed
  have black := (always swappedAreas swappedAreas_separated s reach.reachable).black
  simp [red] at black

end Blubos
