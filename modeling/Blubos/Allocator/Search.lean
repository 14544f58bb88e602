import Blubos.Allocator.Sizes

/-!
# The search is a first-fit scan

With exact sizes the pruned search of the tree does what a scan of the regions in address order
does: it takes the first region in which the block fits at the first aligned address.  It tries no
other address, so it may fail although a later one would do: that happens only in a region whose
first aligned block crosses a boundary window.
-/

namespace Blubos

/-- The block fits at the first aligned address of a region, ends at or below the limit and does
not cross a window. -/
structure Fits (map : AddressMap) (request : Request) (r : Region) : Prop where
  room : request.start r - r.base + request.size ≤ r.size
  /-- The physical end is not above the limit. -/
  low : ∃ physical, map.toPhysicalAddr (request.start r) = .ok physical ∧
    physical + request.size ≤ request.maxAddress.getD Usize.max
  /-- First and last byte lie in one window. -/
  window : ∀ boundary ∈ request.boundary,
    request.start r / boundary = (request.start r + request.size - 1) / boundary

instance (map : AddressMap) (request : Request) (r : Region) : Decidable (Fits map request r) :=
  decidable_of_iff (request.start r - r.base + request.size ≤ r.size ∧
      (∃ physical ∈ (map.toPhysicalAddr (request.start r)).toOption,
        physical + request.size ≤ request.maxAddress.getD Usize.max) ∧
      ∀ boundary ∈ request.boundary,
        request.start r / boundary = (request.start r + request.size - 1) / boundary) <| by
    have translated (physical : ℕ) :
        physical ∈ (map.toPhysicalAddr (request.start r)).toOption ↔
          map.toPhysicalAddr (request.start r) = .ok physical := by
      cases map.toPhysicalAddr (request.start r) <;> simp [Except.toOption]
    simp only [translated]
    exact ⟨fun ⟨room, low, window⟩ => ⟨room, low, window⟩,
      fun fits => ⟨fits.room, fits.low, fits.window⟩⟩

/-- The plain scan: the first region in which the block fits gives it from its first aligned
address and keeps what lies behind the block. -/
def firstFitScan (map : AddressMap) (request : Request) : List Region → Option ℕ × List Region
  | [] => (none, [])
  | r :: rest =>
      if Fits map request r then
        (some (request.start r),
          ⟨request.start r + request.size,
            r.base + r.size - request.start r - request.size⟩ :: rest)
      else
        ((firstFitScan map request rest).1, r :: (firstFitScan map request rest).2)

/-- The arithmetic of the range test stays in `usize`, and the address it translates is mapped. -/
structure InRange (map : AddressMap) (request : Request) (r : Region) : Prop where
  raised : r.base + (request.align - 1) ≤ Usize.max
  consumed : request.start r - r.base + request.size ≤ Usize.max
  /-- The virtual and the physical end of a block that fits are addresses. -/
  stops : request.start r - r.base + request.size ≤ r.size →
    request.start r + request.size ≤ Usize.max ∧
      ∃ physical, map.toPhysicalAddr (request.start r) = .ok physical ∧
        physical + request.size ≤ Usize.max

section Scan

variable {map : AddressMap} {request : Request}

theorem firstFitScan_none {spans : List Region} (none : ∀ r ∈ spans, ¬Fits map request r) :
    firstFitScan map request spans = (.none, spans) := by
  induction spans with
  | nil => rfl
  | cons r rest induction =>
      rw [firstFitScan, if_neg (none r List.mem_cons_self),
        induction fun q member => none q (List.mem_cons_of_mem _ member)]

/-- A scan stops at the first region in which the block fits. -/
theorem firstFitScan_some {before after : List Region} {r : Region}
    (earlier : ∀ q ∈ before, ¬Fits map request q) (fits : Fits map request r) :
    firstFitScan map request (before ++ r :: after) =
      (some (request.start r), before ++ request.remainder r :: after) := by
  induction before with
  | nil =>
      have same : r.base + r.size - request.start r - request.size =
          r.stop - (request.start r + request.size) := by
        simp only [Span.stop]
        omega
      rw [List.nil_append, firstFitScan, if_pos fits, same]
      rfl
  | cons q before induction =>
      rw [List.cons_append, firstFitScan, if_neg (earlier q List.mem_cons_self),
        induction fun q member => earlier q (List.mem_cons_of_mem _ member)]
      rfl

/-- Masking compares the windows of the first and the last byte. -/
theorem insideBoundary_eq_ok {aligned size : ℕ} {boundary : Option ℕ} {inside : Bool}
    (powers : ∀ b ∈ boundary, b.isPowerOfTwo)
    (tested : RBTreeAlloc.insideBoundary aligned size boundary = .ok inside) :
    inside = true ↔ ∀ b ∈ boundary, aligned / b = (aligned + size - 1) / b := by
  cases boundary with
  | none =>
      obtain rfl := Except.ok.inj tested
      simp
  | some b =>
      have power := powers b rfl
      have positive : 0 < b := by
        obtain ⟨k, rfl⟩ := power
        exact Nat.two_pow_pos k
      simp only [RBTreeAlloc.insideBoundary, bind_eq_ok, Usize.sub_eq_ok, Usize.add_eq_ok] at tested
      obtain ⟨_, ⟨-, rfl⟩, _, ⟨range, rfl⟩, _, ⟨-, rfl⟩, tested⟩ := tested
      have same : inside = (aligned &&& Usize.not (b - 1) ==
          aligned + size - 1 &&& Usize.not (b - 1)) := (Except.ok.inj tested).symm
      simp only [Option.mem_def, Option.some.injEq, forall_eq']
      by_cases small : b - 1 ≤ Usize.max
      · rw [same, beq_iff_eq, Usize.land_not (by omega) power small,
          Usize.land_not (by omega) power small, roundDown_eq_roundDown positive]
      · -- A window larger than the address space contains every block.
        have none : Usize.not (b - 1) = 0 := by
          rw [Usize.not]
          omega
        rw [same, none, Nat.and_zero, Nat.and_zero, Nat.div_eq_of_lt (by omega),
          Nat.div_eq_of_lt (by omega)]
        simp

theorem insideBoundary_isOk {aligned size : ℕ} {boundary : Option ℕ} (positive : 0 < size)
    (powers : ∀ b ∈ boundary, b.isPowerOfTwo) (range : aligned + size ≤ Usize.max) :
    ∃ inside, RBTreeAlloc.insideBoundary aligned size boundary = .ok inside := by
  cases boundary with
  | none => exact ⟨true, rfl⟩
  | some b =>
      obtain ⟨k, power⟩ := powers b rfl
      have present : 1 ≤ b := power ▸ Nat.two_pow_pos k
      refine ⟨_, bind_eq_ok.mpr ⟨_, Usize.sub_eq_ok.mpr ⟨present, rfl⟩,
        bind_eq_ok.mpr ⟨_, Usize.add_eq_ok.mpr ⟨range, rfl⟩,
          bind_eq_ok.mpr ⟨_, Usize.sub_eq_ok.mpr ⟨?_, rfl⟩, rfl⟩⟩⟩⟩
      omega

/-- Without overflow the range test of the code is the one of the scan. -/
theorem serves_iff_fits {r : Region} (positive : 0 < request.size)
    (powers : ∀ b ∈ request.boundary, b.isPowerOfTwo) (range : InRange map request r) :
    Serves map request r ↔ Fits map request r := by
  have above := request.le_start r
  have room : request.start r + request.size ≤ r.stop ↔
      request.start r - r.base + request.size ≤ r.size := by
    simp only [Span.stop]
    omega
  constructor
  · intro serves
    exact ⟨room.mp serves.room, serves.low,
      (insideBoundary_eq_ok powers serves.inside).mp rfl⟩
  · intro fits
    obtain ⟨inside, tested⟩ :=
      insideBoundary_isOk positive powers (range.stops fits.room).1
    obtain rfl := (insideBoundary_eq_ok powers tested).mpr fits.window
    exact ⟨room.mpr fits.room, fits.low, tested⟩

theorem allocHere_isOk {n : TreeRegion} (positive : 0 < request.size)
    (powers : ∀ b ∈ request.boundary, b.isPowerOfTwo) (range : InRange map request n.toSpan) :
    ∃ here, RBTreeAlloc.allocHere map request (request.maxAddress.getD Usize.max) n = .ok here := by
  have align_pos : 1 ≤ request.align := by
    obtain ⟨k, power⟩ := request.power
    exact power ▸ Nat.two_pow_pos k
  have above := request.le_start n.toSpan
  have raised := range.raised
  have consumed := range.consumed
  have aligned : n.base + (request.align - 1) &&& Usize.not (request.align - 1) =
      request.start n.toSpan := Usize.land_not raised request.power (by omega)
  simp only [RBTreeAlloc.allocHere, RBTreeAlloc.allocHereWith, Usize.sub, Usize.add,
    if_pos align_pos, ok_bind, if_pos raised, aligned, if_pos above, if_pos consumed]
  by_cases room : request.start n.toSpan - n.base + request.size ≤ n.size
  · obtain ⟨stop, physical, translated, physicalStop⟩ := range.stops room
    obtain ⟨inside, tested⟩ := insideBoundary_isOk positive powers stop
    have newBase : n.base + (request.start n.toSpan - n.base + request.size) ≤ Usize.max := by omega
    simp only [if_pos room, translated, ok_bind, if_pos physicalStop, tested, if_pos newBase]
    split_ifs
    · exact ⟨_, rfl⟩
    · exact ⟨_, rfl⟩
    · exact ⟨_, rfl⟩
  · exact ⟨none, by rw [if_neg room]⟩

theorem allocRec_isOk {tree : Link} (positive : 0 < request.size)
    (powers : ∀ b ∈ request.boundary, b.isPowerOfTwo)
    (range : ∀ r ∈ regions tree, InRange map request r) :
    ∃ tree' out, RBTreeAlloc.allocRec map request tree = .ok (tree', out) := by
  induction tree with
  | nil => exact ⟨.nil, none, rfl⟩
  | node color l n r ihl ihr =>
      have descend {child : Link} (searched : ∃ tree' out,
          RBTreeAlloc.allocRec map request child = .ok (tree', out)) :
          ∃ tree' out, (if RBTreeAlloc.hasRoom request.size child then
            RBTreeAlloc.allocRec map request child else .ok (child, none)) = .ok (tree', out) := by
        split_ifs
        · exact searched
        · exact ⟨_, _, rfl⟩
      rw [regions_node] at range
      obtain ⟨l', outLeft, left⟩ := descend (ihl fun q member => range q (by simp [member]))
      obtain ⟨here, tried⟩ := allocHere_isOk positive powers (range n.toSpan (by simp))
      obtain ⟨r', outRight, right⟩ := descend (ihr fun q member => range q (by simp [member]))
      rw [RBTreeAlloc.allocRec_node, left, ok_bind]
      cases outLeft with
      | some a => exact ⟨_, _, rfl⟩
      | none =>
          simp only [Option.isSome_none, Bool.false_eq_true, if_false, tried, ok_bind]
          cases here with
          | some served => exact ⟨_, _, rfl⟩
          | none => exact ⟨_, _, by rw [right, ok_bind]⟩

end Scan

/-- With exact sizes `alloc` is the plain first-fit scan of the regions; it keeps the sizes exact
and every node in its place, with its colour up to the root, which it paints black. -/
theorem alloc_eq_scan {self : RBTreeAlloc} (exact : MaxSizesExact self.root) {map : AddressMap}
    {request : Request} (positive : 0 < request.size)
    (powers : ∀ b ∈ request.boundary, b.isPowerOfTwo)
    (range : ∀ r ∈ regions self.root, InRange map request r) :
    ∃ self', self.alloc map request =
        .ok ((firstFitScan map request (regions self.root)).1, self') ∧
      regions self'.root = (firstFitScan map request (regions self.root)).2 ∧
      MaxSizesExact self'.root ∧
      self'.root.map (·.box) = (self.root.map (·.box)).paint .black := by
  obtain ⟨tree, out, searched⟩ := allocRec_isOk positive powers range
  obtain ⟨shape, outcome⟩ := allocRec_spec searched
  have scanned : (out, regions tree) = firstFitScan map request (regions self.root) := by
    cases outcome with
    | refused same _ complete =>
        rw [firstFitScan_none, same]
        intro r member fits
        exact complete exact r member ((serves_iff_fits positive powers (range r member)).mpr fits)
    | @took before after _ _ r split shrunk _ serves _ first =>
        have inside (q : Region) (member : q ∈ before) : q ∈ regions self.root := by
          simp [split, member]
        rw [split, firstFitScan_some, shrunk]
        · intro q member fits
          exact first exact q member
            ((serves_iff_fits positive powers (range q (inside q member))).mpr fits)
        · exact (serves_iff_fits positive powers (range r (by simp [split]))).mp serves
  refine ⟨{ self with root := tree.paint .black }, ?_, ?_, ?_, ?_⟩
  · rw [RBTreeAlloc.alloc_eq, searched, ← scanned]
    rfl
  · rw [regions_paint, ← scanned]
  · exact Tree.fresh_paint .black (allocRec_exact exact searched)
  · rw [← shape]
    cases tree <;> rfl

/-- A region of 8 KiB whose first aligned block would cross a window, and one behind it. -/
def crossingRegions : RBTreeAlloc where
  root := .node .black (.node .red .nil ⟨⟨0x1F00, 0x2000⟩, 0x100000, 0x2000⟩ .nil)
    ⟨⟨0x5000, 0x4000⟩, 0x100040, 0x4000⟩ .nil
  freelist := .nil
  taken := [0x100000, 0x100040]
  handed := []

/-- A request for 512 bytes within a window of 4 KiB. -/
def windowRequest : Request := ⟨0x200, 1, Nat.isPowerOfTwo_one, none, some 0x1000⟩

theorem windowRequest_powers : ∀ b ∈ windowRequest.boundary, b.isPowerOfTwo := by
  intro b member
  obtain rfl := Option.some.inj member
  exact ⟨12, rfl⟩

/-- The scan passes over the first region. -/
theorem alloc_eq_scan_crossing :
    ∃ self', crossingRegions.alloc directMap windowRequest = .ok (some 0x5000, self') ∧
      regions self'.root = [⟨0x1F00, 0x2000⟩, ⟨0x5200, 0x3E00⟩] := by
  have range : ∀ r ∈ regions crossingRegions.root, InRange directMap windowRequest r := by
    intro r member
    rcases List.mem_cons.mp member with rfl | member
    · exact ⟨by decide, by decide, fun _ => ⟨by decide, 0x1F00, rfl, by decide⟩⟩
    · obtain rfl := List.mem_singleton.mp member
      exact ⟨by decide, by decide, fun _ => ⟨by decide, 0x5000, rfl, by decide⟩⟩
  have scanned : firstFitScan directMap windowRequest (regions crossingRegions.root) =
      (some 0x5000, [⟨0x1F00, 0x2000⟩, ⟨0x5200, 0x3E00⟩]) := by decide +kernel
  have sizes : MaxSizesExact crossingRegions.root := ⟨rfl, ⟨rfl, trivial, trivial⟩, trivial⟩
  obtain ⟨self', returned, left, -⟩ :=
    alloc_eq_scan sizes (by decide) windowRequest_powers range
  rw [scanned] at returned left
  exact ⟨self', returned, left⟩

/-! ## When a search fails -/

/-- The block could lie at this address of the region. -/
structure Placement (map : AddressMap) (request : Request) (r : Region) (a : ℕ) : Prop where
  aligned : request.align ∣ a
  base_le : r.base ≤ a
  le_stop : a + request.size ≤ r.stop
  /-- The physical end is not above the limit. -/
  low : ∃ physical, map.toPhysicalAddr a = .ok physical ∧
    physical + request.size ≤ request.maxAddress.getD Usize.max
  /-- First and last byte lie in one window. -/
  window : ∀ boundary ∈ request.boundary, a / boundary = (a + request.size - 1) / boundary

/-- The first aligned block of the region crosses a window. -/
def Crosses (request : Request) (r : Region) : Prop :=
  ∃ boundary ∈ request.boundary,
    request.start r / boundary ≠ (request.start r + request.size - 1) / boundary

section Failure

variable {map : AddressMap} {request : Request}

/-- In the direct map the first aligned address is the lowest in every respect, so a region that
was refused although the block could lie in it is one whose first aligned block crosses a
window. -/
theorem allocHere_refuses {offset : ℕ} {n : TreeRegion} {a : ℕ}
    (powers : ∀ b ∈ request.boundary, b.isPowerOfTwo)
    (tried : RBTreeAlloc.allocHere ⟨none, offset⟩ request (request.maxAddress.getD Usize.max) n =
      .ok none)
    (placement : Placement ⟨none, offset⟩ request n.toSpan a) : Crosses request n.toSpan := by
  have align_pos : 0 < request.align := by
    obtain ⟨k, power⟩ := request.power
    exact power ▸ Nat.two_pow_pos k
  have first : request.start n.toSpan ≤ a :=
    roundUp_le align_pos placement.aligned placement.base_le
  have stop := placement.le_stop
  simp only [Span.stop] at stop
  simp only [RBTreeAlloc.allocHere, RBTreeAlloc.allocHereWith, bind_eq_ok, Usize.sub_eq_ok,
    Usize.add_eq_ok] at tried
  obtain ⟨_, ⟨-, rfl⟩, _, ⟨raised, rfl⟩, _, ⟨above, rfl⟩, _, ⟨-, rfl⟩, tried⟩ := tried
  have aligned : n.base + (request.align - 1) &&& Usize.not (request.align - 1) =
      request.start n.toSpan := Usize.land_not raised request.power (by omega)
  rw [aligned] at tried above
  rw [if_pos (by omega)] at tried
  simp only [bind_eq_ok, Usize.add_eq_ok] at tried
  obtain ⟨physical, translated, _, ⟨-, rfl⟩, tried⟩ := tried
  obtain ⟨physical', translated', low⟩ := placement.low
  have order : physical ≤ physical' := by
    simp only [AddressMap.toPhysicalAddr, Usize.sub_eq_ok] at translated translated'
    omega
  rw [if_pos (by omega), bind_eq_ok] at tried
  obtain ⟨inside, tested, tried⟩ := tried
  cases inside with
  | true => simp [bind_eq_ok] at tried
  | false =>
      by_contra none
      simp only [Crosses, not_exists, not_and, not_not] at none
      have inside := (insideBoundary_eq_ok powers tested).mpr none
      simp at inside

/-- With exact sizes a search that fails has tried every region that is large enough. -/
theorem allocRec_tries {tree tree' : Link} (exact : MaxSizesExact tree)
    (step : RBTreeAlloc.allocRec map request tree = .ok (tree', none)) {r : Region}
    (member : r ∈ regions tree) (large : request.size ≤ r.size) :
    ∃ n : TreeRegion, n.toSpan = r ∧
      RBTreeAlloc.allocHere map request (request.maxAddress.getD Usize.max) n = .ok none := by
  induction tree generalizing tree' with
  | nil => simp at member
  | node color l n r' ihl ihr =>
      obtain ⟨-, exactLeft, exactRight⟩ := exact
      obtain ⟨l', outLeft, left, rest⟩ := allocRec_cases step
      rcases rest with
        ⟨a, -, found, -⟩ | ⟨rfl, here, tried, ⟨n', a, -, found, -⟩ | ⟨rfl, right', right, -⟩⟩
      · simp at found
      · simp at found
      · rw [regions_node, List.mem_append, List.mem_cons] at member
        rcases member with member | rfl | member
        · rw [if_pos (MaxSizesExact.hasRoom exactLeft member large)] at left
          exact ihl exactLeft left member
        · exact ⟨n, rfl, tried⟩
        · rw [if_pos (MaxSizesExact.hasRoom exactRight member large)] at right
          exact ihr exactRight right member

/-- When `alloc` fails, in any state of any run, the block could only lie in regions whose first
aligned block crosses a window. -/
theorem crosses_of_alloc_none {areas : List Region} {s : HeapState}
    (reach : (heapSystem areas).Reachable s) {offset : ℕ} {alloc : RBTreeAlloc}
    (powers : ∀ b ∈ request.boundary, b.isPowerOfTwo)
    (failed : s.alloc.alloc ⟨none, offset⟩ request = .ok (none, alloc)) {r : Region}
    (member : r ∈ s.free) {a : ℕ} (placement : Placement ⟨none, offset⟩ request r a) :
    Crosses request r := by
  obtain ⟨tree, searched, -, -, -⟩ := alloc_spec failed
  have large : request.size ≤ r.size := by
    have base := placement.base_le
    have stop := placement.le_stop
    simp only [Span.stop] at stop
    omega
  obtain ⟨n, rfl, tried⟩ := allocRec_tries (maxSizesExact_of_reachable reach) searched member large
  exact allocHere_refuses powers tried placement

end Failure

/-- A heap area of 8 KiB that starts shortly before the end of a window. -/
def crossingArea : List Region := [⟨0x1F00, 0x2000⟩]

/-- Nothing is allocated in this area, although the block could lie at the next window. -/
theorem windowRequest_fails :
    ∃ s, (heapSystem crossingArea).Reachable s ∧ s.free = crossingArea ∧
      ∃ alloc, s.alloc.alloc directMap windowRequest = .ok (none, alloc) := by
  have executed : ((HeapState.boot sampleBump crossingArea).bind
      (Behaviour.run HeapState.attempt (fun _ _ => True) · [])).map
        (fun s => (s.free, (s.alloc.alloc directMap windowRequest).toOption.map (·.1))) =
      some (crossingArea, some none) := by
    decide +kernel
  obtain ⟨s, reach, evaluated⟩ := HeapState.exists_reach executed
  obtain ⟨free, found⟩ := Prod.mk.inj evaluated
  refine ⟨s, reach.reachable, free, ?_⟩
  cases returned : s.alloc.alloc directMap windowRequest with
  | error fault => simp [returned, Except.toOption] at found
  | ok result =>
      obtain ⟨out, alloc⟩ := result
      simp only [returned, Except.toOption, Option.map_some, Option.some.injEq] at found
      exact ⟨alloc, by rw [found]⟩

theorem windowRequest_placement :
    Placement directMap windowRequest ⟨0x1F00, 0x2000⟩ 0x2000 where
  aligned := by decide
  base_le := by decide
  le_stop := by decide
  low := ⟨0x2000, rfl, by decide⟩
  window := by decide

/-- The region in which the block could lie is one whose first aligned block crosses a window. -/
theorem crosses_of_alloc_none_window : Crosses windowRequest ⟨0x1F00, 0x2000⟩ := by
  obtain ⟨s, reach, free, alloc, failed⟩ := windowRequest_fails
  exact crosses_of_alloc_none reach windowRequest_powers failed (by rw [free, crossingArea]; simp)
    windowRequest_placement

/-- `alloc` may fail although the block could lie in a free region. -/
theorem no_placement_of_alloc_none_false :
    ¬∀ areas, HeapAreas areas → ∀ s, (heapSystem areas).Reachable s → ∀ offset request,
      0 < request.size → (∀ b ∈ request.boundary, b.isPowerOfTwo ∧ request.size ≤ b) →
      ∀ alloc, s.alloc.alloc ⟨none, offset⟩ request = .ok (none, alloc) →
        ∀ r ∈ s.free, ∀ a, ¬Placement ⟨none, offset⟩ request r a := by
  intro always
  obtain ⟨s, reach, free, alloc, failed⟩ := windowRequest_fails
  have valid : HeapAreas crossingArea := ⟨by decide, by decide⟩
  have wide : ∀ b ∈ windowRequest.boundary, b.isPowerOfTwo ∧ windowRequest.size ≤ b := by
    intro b member
    refine ⟨windowRequest_powers b member, ?_⟩
    obtain rfl := Option.some.inj member
    decide
  exact always crossingArea valid s reach 0 windowRequest (by decide) wide alloc failed
    ⟨0x1F00, 0x2000⟩ (by rw [free, crossingArea]; simp) 0x2000 windowRequest_placement

end Blubos
