import Blubos.Machine

/-!
# The bump allocator

`bump_alloc.rs`: a cursor that only moves forward through one fixed area.  The tree allocator
takes its nodes from here.
-/

namespace Blubos

/-- The statics of `bump_alloc.rs`. -/
structure BumpHeap where
  /-- `BUMP_HEAP_BASE`. -/
  base : ℕ
  /-- `BUMP_HEAP_SIZE`. -/
  size : ℕ
  /-- `NEXT`. -/
  next : ℕ
  /-- The heap is the first part of a larger area of the address space. -/
  bounded : base + size < Usize.max
  /-- The higher half does not contain the null address. -/
  nonnull : 0 < size → 0 < base
  base_le_next : base ≤ next

namespace BumpAlloc

/-- The cursor rounded up to the alignment. -/
def alignCursor (current align : ℕ) : Except Fault ℕ :=
  if current % align ≠ 0 then Usize.add current (align - current % align) else .ok current

theorem le_alignCursor {current align rounded : ℕ}
    (aligned : alignCursor current align = .ok rounded) : current ≤ rounded := by
  unfold alignCursor at aligned
  split at aligned
  · obtain ⟨-, rfl⟩ := Usize.add_eq_ok.mp aligned
    exact Nat.le_add_right _ _
  · obtain rfl := Except.ok.inj aligned
    exact le_rfl

theorem dvd_alignCursor {current align rounded : ℕ} (align_pos : 0 < align)
    (aligned : alignCursor current align = .ok rounded) : align ∣ rounded := by
  unfold alignCursor at aligned
  split at aligned
  · obtain ⟨-, rfl⟩ := Usize.add_eq_ok.mp aligned
    have remainder := Nat.mod_lt current align_pos
    have split := Nat.div_add_mod current align
    refine ⟨current / align + 1, ?_⟩
    rw [Nat.mul_add, Nat.mul_one]
    omega
  · rename_i even
    obtain rfl := Except.ok.inj aligned
    exact Nat.dvd_of_mod_eq_zero (not_not.mp even)

/-- `GlobalAlloc::alloc` for `BumpAlloc`, with zero for the null pointer. -/
def alloc (heap : BumpHeap) (layout : Layout) : Except Fault (ℕ × BumpHeap) :=
  match aligned : alignCursor heap.next layout.align with
  | .error fault => .error fault
  | .ok current =>
      let next := Usize.saturatingAdd current layout.size
      if heap.base + heap.size < next then
        .ok (0, heap)
      else
        .ok (current, { heap with
          next := next
          base_le_next := by
            have forward := le_alignCursor aligned
            have inside := heap.bounded
            have started := heap.base_le_next
            simp only [next, Usize.saturatingAdd]
            omega })

/-- `Allocator::allocate` for `BumpAlloc`. -/
def allocate (heap : BumpHeap) (layout : Layout) : Except Fault (AllocResult × BumpHeap) := do
  let (ptr, heap) ← alloc heap layout
  if ptr = 0 then
    .ok (.error .allocError, heap)
  else
    .ok (okUnchecked ptr layout.size, heap)

/-- `Box::new_in` with the bump allocator: the address of the box. -/
def boxNewIn (heap : BumpHeap) (layout : Layout) : Except Fault (ℕ × BumpHeap) := do
  match ← allocate heap layout with
  | (.ok block, heap) => .ok (block.base, heap)
  | (.error _, _) => .error .outOfMemory

/-- A box is a block of the bump allocator that is not null. -/
theorem alloc_of_boxNewIn {heap heap' : BumpHeap} {layout : Layout} {box : ℕ}
    (boxed : boxNewIn heap layout = .ok (box, heap')) :
    box ≠ 0 ∧ alloc heap layout = .ok (box, heap') := by
  simp only [boxNewIn, allocate, bind_eq_ok, Prod.exists] at boxed
  obtain ⟨result, mid, ⟨ptr, _, allocated, chosen⟩, boxed⟩ := boxed
  split_ifs at chosen with null
  · obtain ⟨rfl, rfl⟩ := Prod.mk.inj (Except.ok.inj chosen)
    simp at boxed
  · rw [okUnchecked_of_ne null] at chosen
    obtain ⟨rfl, rfl⟩ := Prod.mk.inj (Except.ok.inj chosen)
    obtain ⟨rfl, rfl⟩ := Prod.mk.inj (Except.ok.inj boxed)
    exact ⟨null, allocated⟩

theorem alloc_noUnwrap (heap : BumpHeap) (layout : Layout) : NoUnwrap (alloc heap layout) := by
  unfold alloc
  split
  · rename_i fault aligned
    have rounded : NoUnwrap (alignCursor heap.next layout.align) :=
      NoUnwrap.ite (fun _ => Usize.add_noUnwrap _ _) fun _ => NoUnwrap.ok _
    rw [aligned] at rounded
    simpa [NoUnwrap] using rounded
  · exact NoUnwrap.ite (fun _ => NoUnwrap.ok _) fun _ => NoUnwrap.ok _

/-- A box from the bump heap is never obtained by unwrapping. -/
theorem boxNewIn_noUnwrap (heap : BumpHeap) (layout : Layout) :
    NoUnwrap (boxNewIn heap layout) := by
  refine NoUnwrap.bind ?_ fun result _ => ?_
  · refine (alloc_noUnwrap heap layout).bind fun _ _ => ?_
    exact NoUnwrap.ite (fun _ => NoUnwrap.ok _) fun _ => NoUnwrap.ok _
  · rcases result with ⟨_ | _, _⟩ <;> simp [NoUnwrap]

end BumpAlloc

end Blubos
