import Blubos.Allocator.Canonical
import Blubos.Allocator.Search
import Blubos.Foundation.Trace

/-!
# The tree allocator is an address-ordered free list

An allocator that keeps its free regions in a list, scans the list for the first fit and walks it to
merge a freed block does exactly what the tree allocator does.  The tree, its colours, the largest
sizes that prune the search and the recycling of nodes cannot be observed, apart from the number of
boxes that were ever needed at the same time.
-/

namespace Blubos

/-- A list of at most one region, which is not empty. -/
def occupied (region : Region) : List Region := if region.size = 0 then [] else [region]

/-- An extent takes in the next region of the list if it reaches it. -/
def absorbNext (extent : Region) : List Region → List Region
  | [] => [extent]
  | s :: rest =>
      if s.base ≤ extent.stop then
        occupied ⟨extent.base, s.stop - extent.base⟩ ++ rest
      else
        extent :: s :: rest

/-- Walk the list to the place of a block and merge it with the region before it, if that ends at
the block, and with the region after it.  The merged size is that of the longer of the two, as
`free` computes it. -/
def release (block : Span) : List Region → List Region
  | [] => [block]
  | r :: rest =>
      if r.stop < block.base then
        r :: release block rest
      else if r.base < block.base then
        absorbNext ⟨r.base, max block.size r.size⟩ rest
      else
        absorbNext block (r :: rest)

/-- An allocator whose free regions are a list.  It takes a box from the bump heap whenever the list
grows longer than it ever was. -/
structure ListHeap where
  free : List Region
  live : List Span
  nodes : ℕ
  bump : BumpHeap

namespace ListHeap

/-- The answer to a call and the heap after it. -/
def respond (h : ListHeap) : HeapCall → Except Fault (Option ℕ × ListHeap)
  | .alloc map request =>
      let (out, free) := firstFitScan map request h.free
      .ok (out, { h with free := free, live := out.toList.map (⟨·, request.size⟩) ++ h.live })
  | .free block =>
      let free := release block h.free
      if free.length ≤ h.nodes then
        .ok (none, { h with free := free, live := h.live.erase block })
      else do
        let (_, bump) ← BumpAlloc.boxNewIn h.bump TreeRegion.layout
        .ok (none, ⟨free, h.live.erase block, h.nodes + 1, bump⟩)

variable {h : ListHeap} {block : Span}

/-- A list that is no longer than it was before needs no box. -/
theorem respond_room (room : (release block h.free).length ≤ h.nodes) :
    h.respond (.free block) =
      .ok (none, { h with free := release block h.free, live := h.live.erase block }) := by
  simp only [respond, if_pos room]

theorem respond_full (full : h.nodes < (release block h.free).length) :
    h.respond (.free block) = BumpAlloc.boxNewIn h.bump TreeRegion.layout >>= fun boxed =>
      .ok (none, ⟨release block h.free, h.live.erase block, h.nodes + 1, boxed.2⟩) := by
  simp only [respond, if_neg (not_le.mpr full)]

end ListHeap

section Walk

variable {before after : List Region} {block : Span} {extent p s : Region}

theorem release_append (left : ∀ r ∈ before, r.stop < block.base) (rest : List Region) :
    release block (before ++ rest) = before ++ release block rest := by
  induction before with
  | nil => rfl
  | cons r before induction =>
      rw [List.cons_append, release, if_pos (left r List.mem_cons_self),
        induction fun q member => left q (List.mem_cons_of_mem _ member), List.cons_append]

/-- The walk merges the block with a region that ends at it. -/
theorem release_touching (left : ∀ r ∈ before, r.stop < block.base) (small : p.base < block.base)
    (touches : p.stop = block.base) :
    release block (before ++ p :: after) =
      before ++ absorbNext ⟨p.base, max block.size p.size⟩ after := by
  rw [release_append left, release, if_neg touches.not_lt, if_pos small]

/-- The walk stops at the first region that starts at or after the block. -/
theorem release_apart (left : ∀ r ∈ before, r.stop < block.base)
    (right : ∀ r ∈ after, block.base ≤ r.base) :
    release block (before ++ after) = before ++ absorbNext block after := by
  rw [release_append left]
  cases after with
  | nil => rfl
  | cons r after =>
      have above := right r List.mem_cons_self
      rw [release, if_neg (not_lt.mpr (above.trans r.base_le_stop)), if_neg (not_lt.mpr above)]

theorem absorbNext_far (positive : 0 < extent.size)
    (far : ∀ r ∈ after, extent.stop < r.base) :
    absorbNext extent after = occupied extent ++ after := by
  rw [occupied, if_neg positive.ne']
  cases after with
  | nil => rfl
  | cons r after =>
      rw [absorbNext, if_neg (not_le.mpr (far r List.mem_cons_self)), List.singleton_append]

theorem absorbNext_near (near : s.base ≤ extent.stop) :
    absorbNext extent (s :: after) = occupied ⟨extent.base, s.stop - extent.base⟩ ++ after := by
  rw [absorbNext, if_pos near]

theorem length_absorbNext_le (extent : Region) (rest : List Region) :
    (absorbNext extent rest).length ≤ rest.length + 1 := by
  cases rest with
  | nil => rfl
  | cons s rest =>
      rw [absorbNext, occupied]
      split_ifs
      · exact (Nat.le_succ _).trans (Nat.le_succ _)
      · exact Nat.le_succ _
      · exact le_rfl

theorem length_release_le (block : Span) (free : List Region) :
    (release block free).length ≤ free.length + 1 := by
  induction free with
  | nil => rfl
  | cons r rest induction =>
      rw [release]
      split_ifs
      · simpa using induction
      · exact (length_absorbNext_le _ rest).trans (by simp)
      · exact length_absorbNext_le _ _

end Walk

/-! ## What `free` of the tree leaves -/

/-- A sublist without repetitions that keeps just the members with a property. -/
theorem sublist_eq_filter {α : Type*} {kept whole : List α} {keeps : α → Bool}
    (sub : kept.Sublist whole) (distinct : whole.Nodup)
    (members : ∀ x ∈ whole, x ∈ kept ↔ keeps x) : kept = whole.filter keeps := by
  have inside : kept.Sublist (whole.filter keeps) := by
    have filtered := sub.filter keeps
    rwa [List.filter_eq_self.mpr fun x member => (members x (sub.subset member)).mp member]
      at filtered
  have perm : kept.Perm (whole.filter keeps) := by
    refine (List.perm_ext_iff_of_nodup (distinct.sublist sub) (distinct.filter _)).mpr fun x => ?_
    rw [List.mem_filter]
    constructor
    · exact fun member => ⟨sub.subset member, (members x (sub.subset member)).mp member⟩
    · exact fun ⟨member, holds⟩ => (members x member).mpr holds
  exact inside.eq_of_length perm.length_eq

/-- A list that is split between smaller and larger bases splits in one way. -/
theorem split_unique {before after before' after' : List Region} {key : ℕ}
    (same : before ++ after = before' ++ after') (small : ∀ r ∈ before, r.base < key)
    (large : ∀ r ∈ after, key ≤ r.base) (small' : ∀ r ∈ before', r.base < key)
    (large' : ∀ r ∈ after', key ≤ r.base) : before = before' ∧ after = after' := by
  have front {left right : List Region} (small : ∀ r ∈ left, r.base < key)
      (large : ∀ r ∈ right, key ≤ r.base) :
      (left ++ right).filter (fun r => decide (r.base < key)) = left := by
    rw [List.filter_append, List.filter_eq_self.mpr fun r member => decide_eq_true (small r member),
      List.filter_eq_nil_iff.mpr fun r member => by simpa using large r member, List.append_nil]
  have equal : before = before' := by
    rw [← front small large, same, front small' large']
  subst equal
  exact ⟨rfl, List.append_cancel_left same⟩

theorem sorted_split {free : List Region} (sorted : Sorted free) (key : ℕ) :
    ∃ before after, free = before ++ after ∧ (∀ r ∈ before, r.base < key) ∧
      ∀ r ∈ after, key ≤ r.base := by
  induction free with
  | nil => exact ⟨[], [], rfl, by simp, by simp⟩
  | cons r rest induction =>
      obtain ⟨least, sortedRest⟩ := List.pairwise_cons.mp sorted
      by_cases below : r.base < key
      · obtain ⟨before, after, rfl, small, large⟩ := induction sortedRest
        exact ⟨r :: before, after, rfl, by simpa using ⟨below, small⟩, large⟩
      · have above := not_lt.mp below
        exact ⟨[], r :: rest, rfl, by simp,
          by simpa using ⟨above, fun q member => above.trans (least q member)⟩⟩

/-- `insert` puts a region between smaller and larger bases, unless it is empty. -/
theorem insert_between {self self' : RBTreeAlloc} {bump bump' : BumpHeap} {region : Region}
    {before after : List Region} (step : self.insert bump region = .ok (self', bump'))
    (split : regions self.root = before ++ after) (sorted : Sorted (regions self.root))
    (small : ∀ r ∈ before, r.base ≤ region.base) (large : ∀ r ∈ after, region.base < r.base) :
    regions self'.root = before ++ (occupied region ++ after) := by
  rcases insert_regions step with ⟨empty, rfl⟩ | ⟨positive, before', after', split', joined, placed⟩
  · rw [occupied, if_pos empty, split, List.nil_append]
  · obtain ⟨small', large'⟩ := placed sorted
    obtain ⟨rfl, rfl⟩ := @split_unique _ _ _ _ (region.base + 1) (split'.symm.trans split)
      (fun r member => Nat.lt_succ_of_le (small' r member)) large'
      (fun r member => Nat.lt_succ_of_le (small r member)) large
    rw [joined, occupied, if_neg positive.ne', List.singleton_append]

section Release

variable {self : RBTreeAlloc} {block : Span} {left whole : RBTreeAlloc.Extent}
  {before after : List Region} {p s : Region}

/-- What the deletions of `free` leave of the regions, and where the extent goes. -/
structure Walked (left whole : RBTreeAlloc.Extent) (block : Span)
    (free before after : List Region) : Prop where
  /-- The regions with the bases of the absorbed ones are gone. -/
  remaining : (free.filter fun r => decide (left.key ≠ some r.base ∧ whole.key ≠ some r.base)) =
    before ++ after
  /-- The walk leaves the extent between the others. -/
  released : release block free = before ++ (occupied ⟨whole.base, whole.size⟩ ++ after)
  small : ∀ r ∈ before, r.base ≤ whole.base
  large : ∀ r ∈ after, whole.base < r.base

/-- Deleting a region by its base takes just this region out of the middle. -/
theorem filter_middle {free : List Region} {keeps : Region → Bool}
    (split : free = before ++ p :: after) (gone : keeps p = false)
    (earlier : ∀ r ∈ before, keeps r) (later : ∀ r ∈ after, keeps r) :
    free.filter keeps = before ++ after := by
  rw [split, List.filter_append, List.filter_cons_of_neg (by simp [gone]),
    List.filter_eq_self.mpr earlier, List.filter_eq_self.mpr later]

theorem Merged.walked_apart (merged : Merged self block ⟨block.base, block.size, none⟩ whole)
    (clear : Clear (regions self.root) block) (gapped : Span.Gapped (regions self.root))
    (below : ∀ r ∈ regions self.root, r.base < block.base → r.stop < block.base) :
    ∃ before after, Walked ⟨block.base, block.size, none⟩ whole block (regions self.root)
      before after := by
  rcases mergeSuccessor_spec clear.apart.sorted merged.2 with
    ⟨rfl, beyond⟩ | ⟨s, before, after, split, earlier, above, near, rfl⟩
  · obtain ⟨before, after, split, small, large⟩ := sorted_split clear.apart.sorted block.base
    rw [split] at below beyond ⊢
    have far (r : Region) (member : r ∈ after) : block.stop < r.base :=
      beyond r (List.mem_append_right _ member) (large r member)
    refine ⟨before, after, by simp, ?_, fun r member => (small r member).le, fun r member => ?_⟩
    · rw [release_apart (fun r member => below r (List.mem_append_left _ member) (small r member))
        large, absorbNext_far clear.positive far]
    · exact block.base_le_stop.trans_lt (far r member)
  · have pairs := gapped
    rw [split, Span.Gapped, Span.pairwise_middle] at pairs
    have behind (r : Region) (member : r ∈ after) : s.base < r.base :=
      s.base_le_stop.trans_lt (pairs.2.2 r member)
    refine ⟨before, after, ?_, ?_, fun r member => (earlier r member).le, fun r member => ?_⟩
    · refine filter_middle split (by simp) (fun r member => ?_) fun r member => ?_
      · simpa using ((earlier r member).trans_le above).ne'
      · simpa using (behind r member).ne
    · rw [split, release_apart (fun r member => below r (by simp [split, member])
        (earlier r member)), absorbNext_near near]
      intro r member
      rcases List.mem_cons.mp member with rfl | member
      · exact above
      · exact above.trans (behind r member).le
    · exact above.trans_lt (behind r member)

theorem Merged.walked_touching
    (merged : Merged self block ⟨p.base, max block.size p.size, some p.base⟩ whole)
    (clear : Clear (regions self.root) block) (gapped : Span.Gapped (regions self.root))
    (split : regions self.root = before ++ p :: after) (small : p.base < block.base)
    (touches : p.stop = block.base) (later : ∀ r ∈ after, block.base ≤ r.base) :
    ∃ after', Walked ⟨p.base, max block.size p.size, some p.base⟩ whole block (regions self.root)
      before after' := by
  have pairs := gapped
  rw [split, Span.Gapped, Span.pairwise_middle] at pairs
  have ahead (r : Region) (member : r ∈ before) : r.base < p.base :=
    r.base_le_stop.trans_lt (pairs.2.1 r member)
  have left : ∀ r ∈ before, r.stop < block.base :=
    fun r member => (pairs.2.1 r member).trans small
  rcases mergeSuccessor_spec clear.apart.sorted merged.2 with
    ⟨rfl, beyond⟩ | ⟨s, before', rest, split', earlier, above, near, rfl⟩
  · have far (r : Region) (member : r ∈ after) : p.base + max block.size p.size < r.base :=
      beyond r (by simp [split, member]) (later r member)
    refine ⟨after, ?_, ?_, fun r member => (ahead r member).le, fun r member => ?_⟩
    · refine filter_middle split (by simp) (fun r member => ?_) fun r member => ?_
      · simpa using (ahead r member).ne'
      · simpa using (small.trans_le (later r member)).ne
    · rw [split, release_touching left small touches,
        absorbNext_far (lt_max_of_lt_left clear.positive) far]
    · exact small.trans_le (later r member)
  · -- The region behind the block is the next one in the list.
    obtain ⟨rfl, rfl⟩ : before' = before ++ [p] ∧ s :: rest = after := by
      refine @split_unique _ _ _ _ block.base ?_ earlier ?_ ?_ later
      · rw [← split', split, List.append_assoc, List.singleton_append]
      · intro r member
        rcases List.mem_cons.mp member with rfl | member
        · exact above
        · have order := clear.apart.sorted
          rw [split', Span.pairwise_middle] at order
          exact above.trans (order.2.2 r member)
      · intro r member
        rcases List.mem_append.mp member with member | member
        · exact (ahead r member).trans small
        · exact List.mem_singleton.mp member ▸ small
    have behind (r : Region) (member : r ∈ rest) : s.base < r.base := by
      have order := (List.pairwise_append.mp (split ▸ gapped)).2.1
      exact s.base_le_stop.trans_lt
        ((List.pairwise_cons.mp (List.pairwise_cons.mp order).2).1 r member)
    refine ⟨rest, ?_, ?_, fun r member => (ahead r member).le, fun r member => ?_⟩
    · rw [split, List.filter_append, List.filter_eq_self.mpr fun r member => ?_,
        List.filter_cons_of_neg (by simp), List.filter_cons_of_neg (by simp),
        List.filter_eq_self.mpr fun r member => ?_]
      · have different := (small.trans_le above).trans (behind r member)
        simpa using ⟨different.ne, (behind r member).ne⟩
      · have different := (ahead r member).trans (small.trans_le above)
        simpa using ⟨(ahead r member).ne', different.ne'⟩
    · rw [split, release_touching left small touches, absorbNext_near near]
    · exact small.trans_le (above.trans (behind r member).le)

/-- Whatever `free` merges, the walk merges. -/
theorem Merged.walked (merged : Merged self block left whole)
    (clear : Clear (regions self.root) block) (gapped : Span.Gapped (regions self.root)) :
    ∃ before after, Walked left whole block (regions self.root) before after := by
  rcases mergePredecessor_spec clear merged.1 with
    ⟨rfl, below⟩ | ⟨p, before, after, split, small, touches, later, rfl⟩
  · exact merged.walked_apart clear gapped below
  · exact ⟨before, merged.walked_touching clear gapped split small touches later⟩

end Release

/-- An insertion needs a box from the bump heap when there is no node to reuse. -/
theorem RBTreeAlloc.Intact.insert_cases {self : RBTreeAlloc} (intact : self.Intact)
    (bump : BumpHeap) {region : Region} (positive : 0 < region.size) :
    (self.freelist ≠ .nil ∧ ∃ self', self.insert bump region = .ok (self', bump) ∧
        self'.taken = self.taken) ∨
      (self.freelist = .nil ∧
        ((∃ box bump' self', BumpAlloc.boxNewIn bump TreeRegion.layout = .ok (box, bump') ∧
            self.insert bump region = .ok (self', bump') ∧ self'.taken = box :: self.taken) ∨
          ∃ fault, BumpAlloc.boxNewIn bump TreeRegion.layout = .error fault ∧
            self.insert bump region = .error fault)) := by
  obtain ⟨n, leaning⟩ := intact.leaning
  rw [RBTreeAlloc.insert, if_neg positive.ne']
  rcases allocNode_cases self bump region.base region.size with
    ⟨_, next, head, _, freelist, allocated⟩ |
    ⟨freelist, ⟨box, bump', boxed, allocated⟩ | ⟨fault, boxed, allocated⟩⟩
  · obtain ⟨tree, -, inserted, -⟩ := insertNode_root ⟨region, head.box, region.size⟩ leaning
    refine .inl ⟨by simp [freelist], { self with root := tree.paint .black, freelist := next }, ?_,
      rfl⟩
    rw [allocated, ok_bind]
    simp only [inserted]
    rfl
  · obtain ⟨tree, -, inserted, -⟩ := insertNode_root ⟨region, box, region.size⟩ leaning
    refine .inr ⟨freelist, .inl ⟨box, bump',
      { self with root := tree.paint .black, taken := box :: self.taken }, boxed, ?_, rfl⟩⟩
    rw [allocated, ok_bind]
    simp only [inserted]
    rfl
  · exact .inr ⟨freelist, .inr ⟨fault, boxed, by rw [allocated]; rfl⟩⟩

/-- The tree has no more nodes than boxes were taken, and as many when there is none to reuse. -/
theorem RBTreeAlloc.Intact.length_regions_le {self : RBTreeAlloc} (intact : self.Intact) :
    (regions self.root).length ≤ self.taken.length ∧
      (self.freelist = .nil → (regions self.root).length = self.taken.length) ∧
      (self.freelist ≠ .nil → (regions self.root).length < self.taken.length) := by
  have count := intact.kept.length_eq
  rw [List.length_append, length_boxes, ← length_regions] at count
  refine ⟨by omega, fun none => ?_, fun node => ?_⟩
  · rw [none, boxes_nil, List.length_nil] at count
    omega
  · cases freelist : self.freelist with
    | nil => exact absurd freelist node
    | node color l n r =>
        rw [freelist, boxes_node] at count
        simp only [List.length_append, List.length_cons] at count
        omega

namespace HeapState

/-- The answer to a call and the state after it. -/
def respond (s : HeapState) : HeapCall → Except Fault (Option ℕ × HeapState)
  | .alloc map request => do
      let (out, alloc) ← s.alloc.alloc map request
      .ok (out, ⟨alloc, s.bump, out.toList.map (⟨·, request.size⟩) ++ s.live⟩)
  | .free block => do
      let (alloc, bump) ← s.alloc.free s.bump block.base block.size
      .ok (none, ⟨alloc, bump, s.live.erase block⟩)

theorem perform_of_respond {s s' : HeapState} {call : HeapCall} {out : Option ℕ}
    (responded : s.respond call = .ok (out, s')) : s.perform call = .ok s' := by
  cases call with
  | alloc map request =>
      simp only [respond, bind_eq_ok, Prod.exists, Except.ok.injEq, Prod.mk.injEq] at responded
      obtain ⟨_, alloc, allocated, rfl, rfl⟩ := responded
      rw [perform, allocated]
      rfl
  | free block =>
      simp only [respond, bind_eq_ok, Prod.exists, Except.ok.injEq, Prod.mk.injEq] at responded
      obtain ⟨alloc, bump, freed, -, rfl⟩ := responded
      rw [perform, freed]
      rfl

/-- The state as an allocator with a free list sees it. -/
def list (s : HeapState) : ListHeap := ⟨s.free, s.live, s.alloc.taken.length, s.bump⟩

end HeapState

/-- The arithmetic of a search stays in `usize` for every region of the list, and windows are powers
of two. -/
def Ranged (free : List Region) : HeapCall → Prop
  | .alloc map request => (∀ b ∈ request.boundary, b.isPowerOfTwo) ∧
      ∀ r ∈ free, InRange map request r
  | .free _ => True

section Call

variable {areas : List Region} {s : HeapState}

/-- A search of the tree is a scan of the list. -/
theorem Spaced.respond_alloc (spaced : Spaced areas s) {map : AddressMap} {request : Request}
    (positive : 0 < request.size) (ranged : Ranged s.free (.alloc map request)) :
    (s.respond (.alloc map request)).map (Prod.map id HeapState.list) =
      s.list.respond (.alloc map request) := by
  obtain ⟨alloc, allocated, remains, -⟩ :=
    alloc_eq_scan spaced.intact.exact positive ranged.1 ranged.2
  have taken : alloc.taken = s.alloc.taken := by
    obtain ⟨_, -, rfl, -⟩ := alloc_spec allocated
    rfl
  rw [HeapState.respond, allocated]
  simp only [ok_bind, Except.map, Prod.map, id, HeapState.list, HeapState.free, remains, taken,
    ListHeap.respond]

/-- Behind its deletions `free` is an insertion that leaves the regions of the walk. -/
theorem Spaced.free_walked (spaced : Spaced areas s) (bounded : ∀ r ∈ s.free, r.stop ≤ Usize.max)
    {block : Span} (member : block ∈ s.live) (fits : block.stop ≤ Usize.max) :
    ∃ (kept : RBTreeAlloc) (extent : Region), kept.Intact ∧ kept.taken = s.alloc.taken ∧
      s.alloc.free s.bump block.base block.size = kept.insert s.bump extent ∧
      (release block s.free).length = (regions kept.root).length + (occupied extent).length ∧
      ∀ alloc bump, kept.insert s.bump extent = .ok (alloc, bump) →
        regions alloc.root = release block s.free := by
  have clear := spaced.owned.clear member
  obtain ⟨left, first⟩ := mergePredecessor_isOk clear bounded fits
  obtain ⟨starts, reached⟩ := mergePredecessor_reach clear first
  obtain ⟨whole, second⟩ :=
    mergeSuccessor_isOk clear.apart.sorted bounded starts (reached.trans fits)
  obtain ⟨kept, intactKept, sub, keeps, drops, taken, continues⟩ :=
    spaced.intact.free clear ⟨first, second⟩ (fun k _ => keySorted_of_gapped spaced.gapped k)
      (fun k _ => keySorted_of_gapped spaced.gapped k) s.bump
  obtain ⟨before, after, walked⟩ : ∃ before after, Walked left whole block s.free before after :=
    Merged.walked ⟨first, second⟩ clear spaced.gapped
  have distinct : s.free.Nodup := spaced.gapped.imp fun {r q} order same => by
    have := r.base_le_stop
    subst same
    omega
  have split : regions kept.root = before ++ after := by
    rw [← walked.remaining]
    refine sublist_eq_filter sub distinct fun r inside => ?_
    rw [decide_eq_true_eq]
    refine ⟨drops r, fun ⟨other, other'⟩ => ?_⟩
    rcases keeps r inside with stays | hit | hit
    · exact stays
    · exact absurd hit other
    · exact absurd hit other'
  refine ⟨kept, ⟨whole.base, whole.size⟩, intactKept, taken, continues, ?_,
    fun alloc bump step => ?_⟩
  · rw [walked.released, split]
    simp only [List.length_append]
    omega
  · rw [walked.released]
    exact insert_between step split (List.Pairwise.sublist sub clear.apart.sorted) walked.small
      walked.large

/-- Freeing a block in the tree is a walk of the list. -/
theorem Spaced.respond_free (spaced : Spaced areas s) (bounded : ∀ r ∈ s.free, r.stop ≤ Usize.max)
    {block : Span} (member : block ∈ s.live) (fits : block.stop ≤ Usize.max) :
    (s.respond (.free block)).map (Prod.map id HeapState.list) =
      s.list.respond (.free block) := by
  obtain ⟨kept, extent, intact, taken, continues, length, walked⟩ :=
    spaced.free_walked bounded member fits
  obtain ⟨fewer, exhausted, spare⟩ := intact.length_regions_le
  rw [taken] at fewer exhausted spare
  rw [HeapState.respond, continues]
  by_cases empty : extent.size = 0
  · have returned : kept.insert s.bump extent = .ok (kept, s.bump) := by
      rw [RBTreeAlloc.insert, if_pos empty]
    rw [occupied, if_pos empty, List.length_nil, Nat.add_zero] at length
    rw [@ListHeap.respond_room s.list block (length.trans_le fewer), returned]
    simp only [ok_bind, Except.map, Prod.map, id, HeapState.list, HeapState.free,
      walked _ _ returned, taken]
  · rw [occupied, if_neg empty, List.length_singleton] at length
    rcases intact.insert_cases s.bump (Nat.pos_of_ne_zero empty) with
      ⟨node, alloc, returned, same⟩ |
      ⟨none, ⟨box, bump, alloc, boxed, returned, grown⟩ | ⟨fault, boxed, failed⟩⟩
    · rw [@ListHeap.respond_room s.list block (length.trans_le (spare node)), returned]
      simp only [ok_bind, Except.map, Prod.map, id, HeapState.list, HeapState.free,
        walked _ _ returned, same, taken]
    · have full : s.list.nodes < (release block s.list.free).length :=
        (Nat.lt_succ_of_le (exhausted none).ge).trans_eq length.symm
      rw [ListHeap.respond_full full, returned]
      simp only [HeapState.list, boxed, ok_bind, Except.map, Prod.map, id, HeapState.free,
        walked _ _ returned, grown, taken, List.length_cons]
    · have full : s.list.nodes < (release block s.list.free).length :=
        (Nat.lt_succ_of_le (exhausted none).ge).trans_eq length.symm
      rw [ListHeap.respond_full full, failed]
      simp only [HeapState.list, boxed]
      rfl

end Call

/-! ## Runs -/

def ListHeap.Permits (h : ListHeap) : HeapCall → Prop
  | .alloc _ request => 0 < request.size
  | .free block => block ∈ h.live

/-- The tree allocator as its callers see it: calls and their answers. -/
def answeringTree (areas : List Region) : Behaviour HeapState (HeapCall × Option ℕ) where
  initial := (heapSystem areas).initial
  step s label s' := s.Permits label.1 ∧ Ranged s.free label.1 ∧
    s.respond label.1 = .ok (label.2, s')

/-- The free list as its callers would see it, with the sorted heap areas free at the beginning. -/
def answeringList (areas : List Region) : Behaviour ListHeap (HeapCall × Option ℕ) where
  initial h := h.free.Perm areas ∧ Span.Gapped h.free ∧ h.live = [] ∧ h.nodes = areas.length
  step h label h' := h.Permits label.1 ∧ Ranged h.free label.1 ∧
    h.respond label.1 = .ok (label.2, h')

theorem insertAll_freelist {self self' : RBTreeAlloc} {bump bump' : BumpHeap} {areas : List Region}
    (none : self.freelist = .nil) (inserted : self.insertAll bump areas = .ok (self', bump')) :
    self'.freelist = .nil := by
  induction areas generalizing self bump with
  | nil =>
      obtain ⟨rfl, -⟩ := Prod.mk.inj (Except.ok.inj inserted)
      exact none
  | cons area areas induction =>
      simp only [RBTreeAlloc.insertAll, bind_eq_ok, Prod.exists] at inserted
      obtain ⟨mid, bumpMid, first, rest⟩ := inserted
      refine induction ?_ rest
      rw [RBTreeAlloc.insert] at first
      split_ifs at first
      · obtain ⟨rfl, -⟩ := Prod.mk.inj (Except.ok.inj first)
        exact none
      · rcases allocNode_cases self bump area.base area.size with
          ⟨_, _, _, _, node, -⟩ | ⟨-, ⟨box, _, -, allocated⟩ | ⟨fault, -, allocated⟩⟩
        · rw [none] at node
          cases node
        · simp only [allocated, ok_bind, bind_eq_ok, Except.ok.injEq, Prod.mk.injEq] at first
          obtain ⟨_, -, rfl, -⟩ := first
          exact none
        · simp [allocated] at first

section Runs

variable {areas : List Region} {s : HeapState}

theorem GapSeparated.start_nodes (separated : GapSeparated areas)
    (initial : (heapSystem areas).initial s) : s.alloc.taken.length = s.free.length := by
  obtain ⟨spaced, -⟩ := separated.start initial
  obtain ⟨bump, inserted, -⟩ := initial
  exact (spaced.intact.length_regions_le.2.1 (insertAll_freelist rfl inserted)).symm

/-- The invariant of runs on separated areas that end inside the address space. -/
structure Roomy (areas : List Region) (s : HeapState) : Prop where
  spaced : Spaced areas s
  bounded : ∀ r ∈ s.free, r.stop ≤ Usize.max

theorem answeringTree_bisimulates (ends : ∀ r ∈ areas, r.stop ≤ Usize.max) :
    (answeringTree areas).Bisimulates (answeringList areas) HeapState.list (Roomy areas) := by
  have commutes {s : HeapState} {call : HeapCall} (roomy : Roomy areas s)
      (permitted : s.Permits call) (ranged : Ranged s.free call) :
      (s.respond call).map (Prod.map id HeapState.list) = s.list.respond call := by
    cases call with
    | alloc map request => exact roomy.spaced.respond_alloc permitted ranged
    | free block =>
        exact roomy.spaced.respond_free roomy.bounded permitted
          (roomy.spaced.owned.stop_le ends permitted)
  refine ⟨?_, ?_, ?_⟩
  · rintro s ⟨call, out⟩ s' roomy ⟨permitted, -, responded⟩
    have taken : (heapSystem areas).step s call s' :=
      ⟨permitted, HeapState.perform_of_respond responded⟩
    exact ⟨roomy.spaced.step taken, roomy.spaced.bounded_step ends roomy.bounded taken⟩
  · rintro s ⟨call, out⟩ s' roomy ⟨permitted, ranged, responded⟩
    refine ⟨by cases call <;> exact permitted, ranged, ?_⟩
    rw [← commutes roomy permitted ranged, responded]
    rfl
  · rintro s ⟨call, out⟩ h' roomy ⟨permitted, ranged, responded⟩
    have permitted' : s.Permits call := by cases call <;> exact permitted
    rw [← commutes roomy permitted' ranged] at responded
    cases answered : s.respond call with
    | error fault =>
        rw [answered] at responded
        cases responded
    | ok value =>
        rw [answered] at responded
        obtain ⟨rfl, rfl⟩ := Prod.mk.inj (Except.ok.inj responded)
        exact ⟨value.2, ⟨permitted', ranged, answered⟩, rfl⟩

/-- From the first state of a run on, the tree allocator answers every sequence of calls exactly as
the free list does, and fails to return exactly where the free list does. -/
theorem tree_traces_eq (separated : GapSeparated areas) (ends : ∀ r ∈ areas, r.stop ≤ Usize.max)
    (initial : (answeringTree areas).initial s) :
    (answeringList areas).initial s.list ∧
      (answeringTree areas).traces s = (answeringList areas).traces s.list := by
  obtain ⟨spaced, perm⟩ := separated.start initial
  refine ⟨⟨perm, spaced.gapped, initial.choose_spec.2, ?_⟩, ?_⟩
  · exact (separated.start_nodes initial).trans perm.length_eq
  · exact (answeringTree_bisimulates ends).traces_eq
      ⟨spaced, fun r member => ends r (perm.subset member)⟩

/-- The lower of the two sample areas serves a first call, as the list says. -/
theorem tree_traces_eq_swapped :
    ∃ s, (answeringTree swappedAreas).initial s ∧
      [(HeapCall.alloc directMap (.bytes 0x100), some 0x1000)] ∈
        (answeringTree swappedAreas).traces s := by
  have booted : (HeapState.boot sampleBump swappedAreas).map (fun s => (s.free, s.live)) =
      some ([⟨0x1000, 0x1000⟩, ⟨0x4000, 0x2000⟩], []) := by decide +kernel
  obtain ⟨s, started, evaluated⟩ := Option.map_eq_some_iff.mp booted
  obtain ⟨free, -⟩ := Prod.mk.inj evaluated
  have initial : (answeringTree swappedAreas).initial s :=
    ⟨sampleBump, HeapState.boot_eq_some started⟩
  obtain ⟨-, same⟩ := tree_traces_eq swappedAreas_separated (by decide) initial
  refine ⟨s, initial, same ▸ ?_⟩
  have scanned : firstFitScan directMap (.bytes 0x100) s.free =
      (some 0x1000, [⟨0x1100, 0xF00⟩, ⟨0x4000, 0x2000⟩]) := by
    rw [free]
    decide +kernel
  have ranged : ∀ r ∈ s.free, InRange directMap (.bytes 0x100) r := by
    rw [free]
    intro r member
    rcases List.mem_cons.mp member with rfl | member
    · exact ⟨by decide, by decide, fun _ => ⟨by decide, 0x1000, rfl, by decide⟩⟩
    · obtain rfl := List.mem_singleton.mp member
      exact ⟨by decide, by decide, fun _ => ⟨by decide, 0x4000, rfl, by decide⟩⟩
  have answered : s.list.respond (.alloc directMap (.bytes 0x100)) =
      .ok (some 0x1000, { s.list with
        free := [⟨0x1100, 0xF00⟩, ⟨0x4000, 0x2000⟩]
        live := ⟨0x1000, 0x100⟩ :: s.live }) := by
    simp only [ListHeap.respond, HeapState.list, scanned]
    rfl
  have taken : (answeringList swappedAreas).step s.list
      (.alloc directMap (.bytes 0x100), some 0x1000) { s.list with
        free := [⟨0x1100, 0xF00⟩, ⟨0x4000, 0x2000⟩]
        live := ⟨0x1000, 0x100⟩ :: s.live } :=
    ⟨Nat.zero_lt_succ _, ⟨by simp [Request.bytes], ranged⟩, answered⟩
  exact ⟨_, _, .cons taken (.nil _), rfl⟩

end Runs

end Blubos
