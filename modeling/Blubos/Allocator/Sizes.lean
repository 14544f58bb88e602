import Blubos.Allocator.TreeUpdates

/-!
# Sizes are exact in every run

Every operation that returns leaves the `max_size` of each node exact, whatever the shape of the
tree and whichever nodes share a base: nothing is asked of the heap areas or of the calls.
-/

namespace Blubos

section Operations

variable {self self' : RBTreeAlloc} {bump bump' : BumpHeap}

theorem insert_exact {region : Region} (exact : MaxSizesExact self.root)
    (step : self.insert bump region = .ok (self', bump')) : MaxSizesExact self'.root := by
  rw [RBTreeAlloc.insert] at step
  split_ifs at step with empty
  · simp only [Except.ok.injEq, Prod.mk.injEq] at step
    exact step.1 ▸ exact
  · simp only [bind_eq_ok, unwrap_eq_ok, Prod.exists, Except.ok.injEq, Prod.mk.injEq] at step
    obtain ⟨node, mid, _, allocated, tree, inserted, rfl, rfl⟩ := step
    obtain ⟨box, rfl, root⟩ : ∃ box, node = .node .red .nil ⟨region, box, region.size⟩ .nil ∧
        mid.root = self.root := by
      rcases allocNode_cases self bump region.base region.size with
        ⟨_, _, head, _, -, taken⟩ | ⟨-, ⟨box, _, -, taken⟩ | ⟨_, -, failed⟩⟩
      · rw [taken, Except.ok.injEq, Prod.mk.injEq, Prod.mk.injEq] at allocated
        obtain ⟨rfl, rfl, -⟩ := allocated
        exact ⟨head.box, rfl, rfl⟩
      · rw [taken, Except.ok.injEq, Prod.mk.injEq, Prod.mk.injEq] at allocated
        obtain ⟨rfl, rfl, -⟩ := allocated
        exact ⟨box, rfl, rfl⟩
      · rw [failed] at allocated
        cases allocated
    rw [root] at inserted
    exact Tree.fresh_paint .black (insertNode_exact rfl exact inserted)

theorem deleteKey_exact {key : Option ℕ} (exact : MaxSizesExact self.root)
    (step : self.deleteKey key = .ok self') : MaxSizesExact self'.root := by
  cases key with
  | none => exact Except.ok.inj step ▸ exact
  | some key =>
      simp only [RBTreeAlloc.deleteKey, RBTreeAlloc.deleteRoot, bind_eq_ok, unwrap_eq_ok,
        Except.ok.injEq, Prod.exists] at step
      obtain ⟨tree, erased, deleted, rfl⟩ := step
      exact delete_exact exact deleted

theorem free_exact {block : Span} (exact : MaxSizesExact self.root)
    (step : self.free bump block.base block.size = .ok (self', bump')) :
    MaxSizesExact self'.root := by
  obtain ⟨left, whole, mid, kept, -, first, second, inserted⟩ := free_cases step
  exact insert_exact (deleteKey_exact (deleteKey_exact exact first) second) inserted

theorem insertAll_exact {areas : List Region} (exact : MaxSizesExact self.root)
    (step : self.insertAll bump areas = .ok (self', bump')) : MaxSizesExact self'.root := by
  induction areas generalizing self bump with
  | nil =>
      simp only [RBTreeAlloc.insertAll, Except.ok.injEq, Prod.mk.injEq] at step
      exact step.1 ▸ exact
  | cons area areas induction =>
      simp only [RBTreeAlloc.insertAll, bind_eq_ok, Prod.exists] at step
      obtain ⟨mid, bumpMid, first, rest⟩ := step
      exact induction (insert_exact exact first) rest

end Operations

theorem perform_exact {s s' : HeapState} {call : HeapCall} (exact : MaxSizesExact s.alloc.root)
    (step : s.perform call = .ok s') : MaxSizesExact s'.alloc.root := by
  rcases HeapState.perform_cases step with
    ⟨map, request, tree, rfl, searched, rfl⟩ | ⟨map, request, tree, a, rfl, searched, rfl⟩ |
    ⟨block, alloc, bump, rfl, freed, rfl⟩
  · exact Tree.fresh_paint .black (allocRec_exact exact searched)
  · exact Tree.fresh_paint .black (allocRec_exact exact searched)
  · exact free_exact exact freed

theorem maxSizesExact_of_reachable {areas : List Region} {s : HeapState}
    (reach : (heapSystem areas).Reachable s) : MaxSizesExact s.alloc.root := by
  refine @Behaviour.Reach.invariant _ _ _ _ (fun s => MaxSizesExact s.alloc.root) ?_ ?_ s reach
  · rintro s ⟨bump, inserted, -⟩
    exact @insertAll_exact .new _ _ _ _ trivial inserted
  · exact fun _ _ _ exact _ taken => perform_exact exact taken.2

end Blubos
