import Blubos.Allocator.HandOver
import Blubos.Allocator.ListHeap

/-!
# Memory for the nodes

The tree takes a box from the bump heap only when no node is left to reuse, so after any run it has
taken as many boxes as it ever held free regions at once.  The boxes lie one behind the other.
-/

namespace Blubos

/-- The cursor after some boxes of tree nodes, taken from a bump heap whose cursor stood at
`start`. -/
def cursorAfter (start nodes : ℕ) : ℕ :=
  if nodes = 0 then start
  else roundUp start TreeRegion.layout.align + nodes * TreeRegion.layout.size

/-- Rounding the cursor up gives the least multiple of the alignment that is not below it. -/
theorem BumpAlloc.alignCursor_eq {current align rounded : ℕ} (align_pos : 0 < align)
    (aligned : alignCursor current align = .ok rounded) : rounded = roundUp current align := by
  refine le_antisymm ?_ (roundUp_le align_pos (dvd_alignCursor align_pos aligned)
    (le_alignCursor aligned))
  have above : current ≤ roundUp current align := le_roundUp align_pos
  obtain ⟨k, multiple⟩ := dvd_roundUp current align
  rw [multiple] at above ⊢
  unfold alignCursor at aligned
  split at aligned
  · rename_i odd
    obtain ⟨-, rfl⟩ := Usize.add_eq_ok.mp aligned
    have remainder := Nat.mod_lt current align_pos
    have split := Nat.div_add_mod current align
    have strict : align * (current / align) < align * k := by omega
    have next := Nat.mul_le_mul_left align (lt_of_mul_lt_mul_left' strict)
    rw [Nat.mul_succ] at next
    omega
  · exact Except.ok.inj aligned ▸ above

/-- A box starts at the rounded cursor, which moves to the end of the box. -/
theorem BumpAlloc.boxNewIn_eq_ok {bump bump' : BumpHeap} {layout : Layout} {box : ℕ}
    (boxed : boxNewIn bump layout = .ok (box, bump')) :
    alignCursor bump.next layout.align = .ok box ∧ bump'.next = box + layout.size := by
  obtain ⟨null, allocated⟩ := alloc_of_boxNewIn boxed
  rcases alloc_cases allocated with ⟨rfl, -⟩ | ⟨-, -, moved, -⟩
  · exact absurd rfl null
  · refine ⟨?_, moved⟩
    unfold alloc at allocated
    split at allocated
    · simp at allocated
    · rename_i current aligned
      simp only at allocated
      split_ifs at allocated
      · exact absurd (Prod.mk.inj (Except.ok.inj allocated)).1.symm null
      · exact (Prod.mk.inj (Except.ok.inj allocated)).1 ▸ aligned

theorem cursorAfter_box {start nodes box : ℕ} {bump bump' : BumpHeap}
    (cursor : bump.next = cursorAfter start nodes)
    (boxed : BumpAlloc.boxNewIn bump TreeRegion.layout = .ok (box, bump')) :
    bump'.next = cursorAfter start (nodes + 1) := by
  obtain ⟨aligned, moved⟩ := BumpAlloc.boxNewIn_eq_ok boxed
  have place := BumpAlloc.alignCursor_eq TreeRegion.layout.align_pos aligned
  rw [moved, place, cursor, cursorAfter, cursorAfter, if_neg nodes.succ_ne_zero]
  by_cases first : nodes = 0
  · rw [if_pos first, first, Nat.zero_add, Nat.one_mul]
  · rw [if_neg first]
    have multiple : TreeRegion.layout.align ∣
        roundUp start TreeRegion.layout.align + nodes * TreeRegion.layout.size :=
      Nat.dvd_add (dvd_roundUp _ _) (Nat.dvd_mul_left_of_dvd (by decide) nodes)
    have kept := le_antisymm
      (roundUp_le TreeRegion.layout.align_pos multiple le_rfl)
      (le_roundUp TreeRegion.layout.align_pos)
    rw [kept, Nat.succ_mul, Nat.add_assoc]

/-- An insertion takes a box, or it does not touch the bump heap. -/
theorem insert_cursor {start : ℕ} {self self' : RBTreeAlloc} {bump bump' : BumpHeap}
    {region : Region} (cursor : bump.next = cursorAfter start self.taken.length)
    (step : self.insert bump region = .ok (self', bump')) :
    bump'.next = cursorAfter start self'.taken.length := by
  rw [RBTreeAlloc.insert] at step
  split_ifs at step
  · obtain ⟨rfl, rfl⟩ := Prod.mk.inj (Except.ok.inj step)
    exact cursor
  · rcases allocNode_cases self bump region.base region.size with
      ⟨_, next, head, _, -, allocated⟩ | ⟨-, ⟨box, bump', boxed, allocated⟩ | ⟨fault, -, allocated⟩⟩
    · simp only [allocated, ok_bind, bind_eq_ok, Except.ok.injEq, Prod.mk.injEq] at step
      obtain ⟨_, -, rfl, rfl⟩ := step
      exact cursor
    · simp only [allocated, ok_bind, bind_eq_ok, Except.ok.injEq, Prod.mk.injEq] at step
      obtain ⟨_, -, rfl, rfl⟩ := step
      exact cursorAfter_box cursor boxed
    · simp [allocated] at step

theorem insertAll_cursor {start : ℕ} {self self' : RBTreeAlloc} {bump bump' : BumpHeap}
    {areas : List Region} (cursor : bump.next = cursorAfter start self.taken.length)
    (step : self.insertAll bump areas = .ok (self', bump')) :
    bump'.next = cursorAfter start self'.taken.length := by
  induction areas generalizing self bump with
  | nil =>
      obtain ⟨rfl, rfl⟩ := Prod.mk.inj (Except.ok.inj step)
      exact cursor
  | cons area areas induction =>
      simp only [RBTreeAlloc.insertAll, bind_eq_ok, Prod.exists] at step
      obtain ⟨mid, bumpMid, first, rest⟩ := step
      exact induction (insert_cursor cursor first) rest

/-- Boxes and regions of a heap whose cursor began at `start`. -/
structure Metered (areas : List Region) (start : ℕ) (s : HeapState) : Prop where
  roomy : Roomy areas s
  enough : s.free.length ≤ s.alloc.taken.length
  cursor : s.bump.next = cursorAfter start s.alloc.taken.length

section Runs

variable {areas : List Region} {start : ℕ} {s s' : HeapState} {call : HeapCall}

/-- A call takes a box when it raises the number of regions above what it ever was. -/
theorem Metered.step (metered : Metered areas start s) (ends : ∀ r ∈ areas, r.stop ≤ Usize.max)
    (taken : (heapSystem areas).step s call s') :
    s'.alloc.taken.length = max s.alloc.taken.length s'.free.length ∧
      s'.bump.next = cursorAfter start s'.alloc.taken.length := by
  obtain ⟨⟨spaced, bounded⟩, enough, cursor⟩ := metered
  obtain ⟨permitted, performed⟩ := taken
  have searched {map : AddressMap} {request : Request} {tree : Link} {out : Option ℕ}
      (searched : RBTreeAlloc.allocRec map request s.alloc.root = .ok (tree, out)) :
      (regions (tree.paint .black)).length = s.free.length := by
    have shape := congrArg Tree.toList (allocRec_spec searched).1
    have count := congrArg List.length shape
    simpa [HeapState.free, regions] using count
  rcases HeapState.perform_cases performed with
    ⟨map, request, tree, rfl, found, rfl⟩ | ⟨map, request, tree, a, rfl, found, rfl⟩ |
    ⟨block, alloc, bump, rfl, freed, rfl⟩
  · refine ⟨?_, cursor⟩
    rw [HeapState.free, searched found]
    exact (max_eq_left enough).symm
  · refine ⟨?_, cursor⟩
    rw [HeapState.free, searched found]
    exact (max_eq_left enough).symm
  · have listed := spaced.respond_free bounded permitted (spaced.owned.stop_le ends permitted)
    obtain ⟨kept, extent, -, same, continues, -⟩ :=
      spaced.free_walked bounded permitted (spaced.owned.stop_le ends permitted)
    refine ⟨?_, insert_cursor (same ▸ cursor) (continues.symm.trans freed)⟩
    have grows := length_release_le block s.free
    rw [HeapState.respond, freed] at listed
    by_cases room : (release block s.list.free).length ≤ s.list.nodes
    · rw [ListHeap.respond_room room] at listed
      have lists := (Prod.mk.inj (Except.ok.inj listed)).2
      have nodes : alloc.taken.length = s.alloc.taken.length := congrArg ListHeap.nodes lists
      have free : regions alloc.root = release block s.free := congrArg ListHeap.free lists
      rw [HeapState.free, free, nodes]
      exact (max_eq_left room).symm
    · rw [ListHeap.respond_full (not_le.mp room)] at listed
      obtain ⟨boxed, -, lists⟩ := bind_eq_ok.mp listed.symm
      have lists := (Prod.mk.inj (Except.ok.inj lists)).2
      have nodes : s.alloc.taken.length + 1 = alloc.taken.length := congrArg ListHeap.nodes lists
      have free : release block s.free = regions alloc.root := congrArg ListHeap.free lists
      simp only [HeapState.list, not_le] at room
      rw [HeapState.free, ← free, ← nodes]
      omega

/-- After any run the tree has taken as many boxes as it ever held free regions at once, and these
boxes are all that the run took from the bump heap. -/
theorem boxes_peak (separated : GapSeparated areas) (ends : ∀ r ∈ areas, r.stop ≤ Usize.max)
    {bump : BumpHeap} {first last : HeapState} {steps : List (HeapCall × HeapState)}
    (inserted : RBTreeAlloc.new.insertAll bump areas = .ok (first.alloc, first.bump))
    (dead : first.live = []) (path : (heapSystem areas).Path first steps last) :
    last.alloc.taken.length =
        (steps.map fun step => step.2.free.length).foldl max first.free.length ∧
      last.bump.next = cursorAfter bump.next last.alloc.taken.length := by
  have initial : (heapSystem areas).initial first := ⟨bump, inserted, dead⟩
  obtain ⟨spaced, perm⟩ := separated.start initial
  have begins : Metered areas bump.next first :=
    ⟨⟨spaced, fun r member => ends r (perm.subset member)⟩, (separated.start_nodes initial).ge,
      insertAll_cursor rfl inserted⟩
  have keeps (s : HeapState) (call : HeapCall) (s' : HeapState)
      (metered : Metered areas bump.next s)
      (taken : (heapSystem areas).step s call s') : Metered areas bump.next s' := by
    obtain ⟨peak, cursor⟩ := metered.step ends taken
    refine ⟨⟨metered.roomy.spaced.step taken,
      metered.roomy.spaced.bounded_step ends metered.roomy.bounded taken⟩, ?_, cursor⟩
    exact peak ▸ le_max_right _ _
  refine ⟨?_, (path.invariant keeps begins).cursor⟩
  rw [path.peak keeps (fun _ _ _ metered taken => (metered.step ends taken).1) begins,
    separated.start_nodes initial]

/-- Two areas and a hole in the first of them make three regions, with three boxes of 64 bytes. -/
theorem boxes_peak_hole :
    ∃ first last steps, (heapSystem swappedAreas).Path first steps last ∧
      last.alloc.taken.length =
        (steps.map fun step => step.2.free.length).foldl max first.free.length ∧
      last.bump.next = 0x1000C0 := by
  have booted : (HeapState.boot sampleBump swappedAreas).isSome := by decide +kernel
  obtain ⟨first, started⟩ := Option.isSome_iff_exists.mp booted
  obtain ⟨inserted, dead⟩ := HeapState.boot_eq_some started
  have executed : ((HeapState.boot sampleBump swappedAreas).bind
      (Behaviour.run HeapState.attempt (fun _ _ => True) ·
        [.alloc directMap (.bytes 0x100), .alloc directMap (.bytes 0x100),
          .free ⟨0x1000, 0x100⟩])).map (fun s => s.alloc.taken.length) = some 3 := by
    decide +kernel
  rw [started, Option.bind_some] at executed
  obtain ⟨last, ran, count⟩ := Option.map_eq_some_iff.mp executed
  obtain ⟨steps, path⟩ := (HeapState.attempt_computes swappedAreas).path ran
  obtain ⟨peak, cursor⟩ :=
    boxes_peak swappedAreas_separated (by decide) inserted dead path
  refine ⟨first, last, steps, path, peak, ?_⟩
  rw [cursor, count]
  decide

end Runs

end Blubos
