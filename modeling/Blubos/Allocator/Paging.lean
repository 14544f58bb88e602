import Blubos.Foundation.PageMapping
import Blubos.Machine
import Mathlib.Algebra.BigOperators.Group.List.Basic

/-!
# Windows onto devices

`map_mmio_region` maps the frames of a physical range to the next free pages of the window for
devices and returns the first address of these pages.  Calls take pages apart from each other.  The
returned address is that of the first frame and not that of the range.
-/

namespace Blubos

/-- `Size4KiB::SIZE`. -/
def pageSize : ℕ := 0x1000

/-- `MMIO_BASE`. -/
def mmioBase : ℕ := 0xFFFFA00000000000

/-- Functions of the `x86_64` crate.  Pages and frames are given by their first addresses. -/
structure Addressing where
  /-- `PhysAddr::new` and `PhysAddr::try_new`. -/
  physAddr : ℕ → Except Fault ℕ
  /-- `VirtAddr::new`. -/
  virtAddr : ℕ → Except Fault ℕ
  /-- The `+` of `VirtAddr` and a number. -/
  virtAdd : ℕ → ℕ → Except Fault ℕ
  /-- `PhysFrame::containing_address` and `Page::containing_address`. -/
  containingAddress : ℕ → ℕ
  /-- `PhysFrame::range_inclusive`, as the frames that the range iterates over. -/
  rangeInclusive : ℕ → ℕ → List ℕ

/-- What the crate documents of these functions. -/
structure Addressing.Documented (addressing : Addressing) : Prop where
  physAddr_eq {addr phys : ℕ} : addressing.physAddr addr = .ok phys → phys = addr
  /-- Physical addresses have 52 bits. -/
  physAddr_isOk {addr : ℕ} : addr < 2 ^ 52 → addressing.physAddr addr = .ok addr
  virtAddr_eq {addr virt : ℕ} : addressing.virtAddr addr = .ok virt → virt = addr
  /-- All addresses of the upper half are canonical. -/
  virtAddr_isOk {addr : ℕ} : 2 ^ 64 - 2 ^ 47 ≤ addr → addr ≤ Usize.max →
    addressing.virtAddr addr = .ok addr
  virtAdd_eq {virt offset sum : ℕ} : addressing.virtAdd virt offset = .ok sum → sum = virt + offset
  virtAdd_isOk {virt offset : ℕ} : 2 ^ 64 - 2 ^ 47 ≤ virt → virt + offset ≤ Usize.max →
    addressing.virtAdd virt offset = .ok (virt + offset)
  /-- A page or a frame contains the address. -/
  containing {addr : ℕ} : pageSize ∣ addressing.containingAddress addr ∧
    addressing.containingAddress addr ≤ addr ∧
    addr < addressing.containingAddress addr + pageSize
  /-- The first and the last frame belong to the range. -/
  rangeInclusive_eq {first : ℕ} (count : ℕ) : pageSize ∣ first →
    addressing.rangeInclusive first (first + count * pageSize) =
      List.range' first (count + 1) pageSize

theorem Addressing.Documented.containingAddress_eq {addressing : Addressing}
    (documented : addressing.Documented) (addr : ℕ) :
    addressing.containingAddress addr = roundDown addr pageSize := by
  obtain ⟨⟨index, start⟩, lower, upper⟩ := @documented.containing addr
  rw [start] at lower upper ⊢
  have quotient : addr / pageSize = index := by
    apply Nat.div_eq_of_lt_le
    · rwa [Nat.mul_comm]
    · rwa [Nat.succ_mul, Nat.mul_comm]
  rw [roundDown, quotient, Nat.mul_comm]

/-- `u64::next_multiple_of`. -/
def nextMultipleOf (word multiple : ℕ) : Except Fault ℕ :=
  if word % multiple = 0 then .ok word else Usize.add word (multiple - word % multiple)

/-! ## Mapping -/

section Mapping

variable {Tables : Type}

/-- The statics that `map_mmio_region` uses. -/
structure MmioState (Tables : Type) where
  /-- `NEXT_MMIO_VIRT`. -/
  nextMmioVirt : ℕ
  /-- `PAGE_TABLE_MAPPER`, absent before it is initialised, with the allocator of its frames. -/
  tables : Option Tables

variable (addressing : Addressing) (mapper : PageMapper Tables)

/-- The loop of `map_mmio_region`. -/
def mapFrames : List ℕ → ℕ → Tables → Except Fault Tables
  | [], _, tables => .ok tables
  | frame :: frames, virt, tables => do
      let page := addressing.containingAddress virt
      let tables ← unwrap (mapper.mapTo tables page frame)
      let virt ← addressing.virtAdd virt pageSize
      mapFrames frames virt tables

/-- `map_mmio_region`. -/
def mapMmioRegion (phys size : ℕ) (state : MmioState Tables) :
    Except Fault (ℕ × MmioState Tables) := do
  let first ← addressing.physAddr phys
  let physStart := addressing.containingAddress first
  let stop ← Usize.add phys size
  let last ← Usize.sub stop 1
  let last ← addressing.physAddr last
  let physEnd := addressing.containingAddress last
  let virtStart := state.nextMmioVirt
  let distance ← Usize.sub physEnd physStart
  let length ← Usize.add distance pageSize
  let length ← nextMultipleOf length pageSize
  let next ← Usize.add state.nextMmioVirt length
  let virt ← addressing.virtAddr virtStart
  let tables ← unwrap state.tables
  let tables ← mapFrames addressing mapper (addressing.rangeInclusive physStart physEnd) virt tables
  .ok (virtStart, ⟨next, some tables⟩)

/-- The arguments of a call: some bytes of the physical address space. -/
structure MmioCall where
  phys : ℕ
  size : ℕ
  nonempty : 1 ≤ size
  /-- Physical addresses have 52 bits. -/
  fits : phys + size ≤ 2 ^ 52

/-- A call that has returned. -/
structure MmioRegion extends MmioCall where
  virtStart : ℕ

def mapRegions :
    List MmioCall → MmioState Tables → Except Fault (List MmioRegion × MmioState Tables)
  | [], state => .ok ([], state)
  | call :: calls, state => do
      let (virtStart, state) ← mapMmioRegion addressing mapper call.phys call.size state
      let (regions, state) ← mapRegions calls state
      .ok (⟨call, virtStart⟩ :: regions, state)

end Mapping

namespace MmioCall

/-- The number of frames that the bytes touch. -/
def frames (call : MmioCall) : ℕ :=
  (call.phys + call.size - 1) / pageSize - call.phys / pageSize + 1

def length (call : MmioCall) : ℕ := call.frames * pageSize

/-- The frames reach from the first byte's to the last byte's. -/
theorem place (call : MmioCall) :
    roundDown call.phys pageSize + call.length =
      roundDown (call.phys + call.size - 1) pageSize + pageSize := by
  have order : call.phys / pageSize ≤ (call.phys + call.size - 1) / pageSize :=
    Nat.div_le_div_right (by have := call.nonempty; omega)
  rw [length, frames, roundDown, roundDown, ← Nat.add_mul, ← Nat.succ_mul]
  congr 1
  omega

theorem phys_add_size_le (call : MmioCall) :
    call.phys + call.size ≤ roundDown call.phys pageSize + call.length := by
  have above := @lt_roundDown_add (call.phys + call.size - 1) pageSize (by decide)
  have := call.nonempty
  rw [call.place]
  omega

end MmioCall

theorem roundDown_of_dvd {addr : ℕ} (aligned : pageSize ∣ addr) : roundDown addr pageSize = addr :=
  Nat.div_mul_cancel aligned

section Mapping

variable {Tables : Type} {addressing : Addressing} {mapper : PageMapper Tables}
  {tables after : Tables} {first virt count : ℕ}

/-- The arithmetic on the bytes of a call does not fault. -/
theorem mapMmioRegion_eq (documented : addressing.Documented) (mapper : PageMapper Tables)
    (call : MmioCall) (state : MmioState Tables) :
    mapMmioRegion addressing mapper call.phys call.size state = (do
      let next ← Usize.add state.nextMmioVirt call.length
      let virt ← addressing.virtAddr state.nextMmioVirt
      let tables ← unwrap state.tables
      let tables ← mapFrames addressing mapper
        (List.range' (roundDown call.phys pageSize) call.frames pageSize) virt tables
      .ok (state.nextMmioVirt, ⟨next, some tables⟩)) := by
  have nonempty := call.nonempty
  have fits := call.fits
  have place := call.place
  have below : roundDown (call.phys + call.size - 1) pageSize ≤ call.phys + call.size - 1 :=
    Nat.div_mul_le_self _ _
  have page : pageSize = 4096 := rfl
  have length : call.length = (call.frames - 1) * pageSize + pageSize := by
    rw [← Nat.succ_mul]
    rfl
  have distance : roundDown (call.phys + call.size - 1) pageSize - roundDown call.phys pageSize +
      pageSize = call.length := by omega
  have multiple : call.length % pageSize = 0 := Nat.mul_mod_left _ _
  have lastFrame : roundDown (call.phys + call.size - 1) pageSize =
      roundDown call.phys pageSize + (call.frames - 1) * pageSize := by omega
  have bound : call.length ≤ Usize.max := by
    rw [Usize.max]
    omega
  have subtract : Usize.sub (roundDown (call.phys + call.size - 1) pageSize)
      (roundDown call.phys pageSize) =
      .ok (roundDown (call.phys + call.size - 1) pageSize - roundDown call.phys pageSize) :=
    Usize.sub_eq_ok.mpr ⟨by omega, rfl⟩
  have last : Usize.sub (call.phys + call.size) 1 = .ok (call.phys + call.size - 1) :=
    Usize.sub_eq_ok.mpr ⟨by omega, rfl⟩
  have range : addressing.rangeInclusive (roundDown call.phys pageSize)
      (roundDown (call.phys + call.size - 1) pageSize) =
      List.range' (roundDown call.phys pageSize) call.frames pageSize := by
    rw [lastFrame, documented.rangeInclusive_eq _ (dvd_roundDown _ _)]
    rfl
  rw [mapMmioRegion, documented.physAddr_isOk (by omega), ok_bind,
    Usize.add_of_le (by rw [Usize.max]; omega), ok_bind, last, ok_bind,
    documented.physAddr_isOk (by omega), ok_bind]
  dsimp only
  rw [documented.containingAddress_eq, documented.containingAddress_eq, subtract, ok_bind,
    Usize.add_of_le (by rwa [distance]), distance, ok_bind, nextMultipleOf, if_pos multiple,
    ok_bind, range]

theorem mapFrames_moves (documented : addressing.Documented) (exact : mapper.Exact pageSize)
    (alignedVirt : pageSize ∣ virt) (alignedFirst : pageSize ∣ first)
    (mapped : mapFrames addressing mapper (List.range' first count pageSize) virt tables =
      .ok after) :
    mapper.Moves tables after virt first (count * pageSize) := by
  induction count generalizing first virt tables with
  | zero =>
      obtain rfl := Except.ok.inj mapped
      rw [Nat.zero_mul]
      exact .nothing tables virt first
  | succ count induction =>
      rw [List.range'_succ, mapFrames, documented.containingAddress_eq,
        roundDown_of_dvd alignedVirt] at mapped
      obtain ⟨next, page, mapped⟩ := bind_eq_ok.mp mapped
      obtain ⟨virt', advanced, mapped⟩ := bind_eq_ok.mp mapped
      obtain rfl := documented.virtAdd_eq advanced
      rw [Nat.succ_mul, Nat.add_comm]
      exact (exact.moves alignedVirt alignedFirst (unwrap_eq_ok.mp page)).append
        (induction (Nat.dvd_add alignedVirt (dvd_refl _)) (Nat.dvd_add alignedFirst (dvd_refl _))
          mapped)

theorem mapFrames_isOk (documented : addressing.Documented) (exact : mapper.Exact pageSize)
    (serves : mapper.Serves pageSize) (alignedVirt : pageSize ∣ virt)
    (alignedFirst : pageSize ∣ first)
    (high : 2 ^ 64 - 2 ^ 47 ≤ virt) (fits : virt + count * pageSize ≤ Usize.max)
    (unmapped : mapper.Unmapped tables virt (virt + count * pageSize)) :
    ∃ after, mapFrames addressing mapper (List.range' first count pageSize) virt tables =
      .ok after := by
  induction count generalizing first virt tables with
  | zero => exact ⟨tables, rfl⟩
  | succ count induction =>
      rw [Nat.succ_mul] at fits unmapped
      obtain ⟨next, page⟩ := serves tables virt first alignedVirt alignedFirst
        fun address above below => unmapped address above (by omega)
      have moved := exact.moves alignedVirt alignedFirst page
      obtain ⟨after, mapped⟩ := @induction next (first + pageSize) (virt + pageSize)
        (Nat.dvd_add alignedVirt (dvd_refl _)) (Nat.dvd_add alignedFirst (dvd_refl _)) (by omega)
        (by omega)
        (moved.unmapped (fun address above below => unmapped address (by omega) (by omega)) le_rfl)
      refine ⟨after, ?_⟩
      rw [List.range'_succ, mapFrames, documented.containingAddress_eq,
        roundDown_of_dvd alignedVirt, page, unwrap_some, ok_bind,
        documented.virtAdd_isOk high (by omega), ok_bind, mapped]

/-- A call that returns has moved the next pages to its frames. -/
theorem mapMmioRegion_moves (documented : addressing.Documented) (exact : mapper.Exact pageSize)
    {call : MmioCall} {state state' : MmioState Tables} {virtStart : ℕ}
    (aligned : pageSize ∣ state.nextMmioVirt) (present : state.tables = some tables)
    (returned : mapMmioRegion addressing mapper call.phys call.size state =
      .ok (virtStart, state')) :
    virtStart = state.nextMmioVirt ∧ state'.nextMmioVirt = virtStart + call.length ∧
      ∃ after, state'.tables = some after ∧
        mapper.Moves tables after virtStart (roundDown call.phys pageSize) call.length := by
  rw [mapMmioRegion_eq documented] at returned
  obtain ⟨next, advanced, returned⟩ := bind_eq_ok.mp returned
  obtain ⟨virt, canonical, returned⟩ := bind_eq_ok.mp returned
  obtain ⟨current, unwrapped, returned⟩ := bind_eq_ok.mp returned
  obtain ⟨after, mapped, same⟩ := bind_eq_ok.mp returned
  obtain rfl := Option.some.inj (present.symm.trans (unwrap_eq_ok.mp unwrapped))
  obtain ⟨-, rfl⟩ := Usize.add_eq_ok.mp advanced
  obtain rfl := documented.virtAddr_eq canonical
  obtain ⟨rfl, rfl⟩ := Prod.mk.inj (Except.ok.inj same)
  exact ⟨rfl, rfl, after, rfl,
    mapFrames_moves documented exact aligned (dvd_roundDown _ _) mapped⟩

theorem mapMmioRegion_isOk (documented : addressing.Documented) (exact : mapper.Exact pageSize)
    (serves : mapper.Serves pageSize) {call : MmioCall} {state : MmioState Tables}
    (aligned : pageSize ∣ state.nextMmioVirt) (present : state.tables = some tables)
    (high : mmioBase ≤ state.nextMmioVirt) (fits : state.nextMmioVirt + call.length ≤ Usize.max)
    (unmapped : mapper.Unmapped tables state.nextMmioVirt (state.nextMmioVirt + call.length)) :
    ∃ virtStart state',
      mapMmioRegion addressing mapper call.phys call.size state = .ok (virtStart, state') := by
  have canonical : 2 ^ 64 - 2 ^ 47 ≤ state.nextMmioVirt := by
    rw [mmioBase] at high
    omega
  obtain ⟨after, mapped⟩ := mapFrames_isOk documented exact serves aligned
    (dvd_roundDown call.phys _) canonical fits unmapped
  refine ⟨state.nextMmioVirt, ⟨state.nextMmioVirt + call.length, some after⟩, ?_⟩
  rw [mapMmioRegion_eq documented, Usize.add_of_le fits, ok_bind,
    documented.virtAddr_isOk canonical (by omega), ok_bind, present, unwrap_some, ok_bind, mapped,
    ok_bind]

end Mapping

/-! ## Runs -/

namespace MmioRegion

def pages (region : MmioRegion) : Span := ⟨region.virtStart, region.length⟩

variable {Tables : Type}

/-- The pages translate to the frames. -/
def Moved (mapper : PageMapper Tables) (tables : Tables) (region : MmioRegion) : Prop :=
  ∀ offset < region.length, mapper.translate tables (region.virtStart + offset) =
    some (roundDown region.phys pageSize + offset)

/-- The returned address points to the bytes that were asked for. -/
def Points (mapper : PageMapper Tables) (tables : Tables) (region : MmioRegion) : Prop :=
  ∀ offset < region.size,
    mapper.translate tables (region.virtStart + offset) = some (region.phys + offset)

theorem Moved.points_iff {mapper : PageMapper Tables} {tables : Tables} {region : MmioRegion}
    (moved : region.Moved mapper tables) :
    region.Points mapper tables ↔ region.phys % pageSize = 0 := by
  have nonempty := region.nonempty
  have inside := region.phys_add_size_le
  have below : roundDown region.phys pageSize ≤ region.phys := Nat.div_mul_le_self _ _
  constructor
  · intro points
    have first := (moved 0 (by omega)).symm.trans (points 0 (by omega))
    rw [Option.some.injEq, Nat.add_right_cancel_iff] at first
    rw [← first]
    exact Nat.mul_mod_left _ _
  · intro aligned offset range
    rw [moved offset (by omega), roundDown_of_dvd (Nat.dvd_of_mod_eq_zero aligned)]

end MmioRegion

section Runs

variable {Tables : Type} {addressing : Addressing} {mapper : PageMapper Tables} {tables : Tables}
  {state final : MmioState Tables}
  {calls : List MmioCall} {regions : List MmioRegion}

theorem mapRegions_moved (documented : addressing.Documented) (exact : mapper.Exact pageSize)
    (aligned : pageSize ∣ state.nextMmioVirt) (present : state.tables = some tables)
    (returned : mapRegions addressing mapper calls state = .ok (regions, final)) :
    regions.map MmioRegion.toMmioCall = calls ∧
      (∀ region ∈ regions, state.nextMmioVirt ≤ region.virtStart) ∧
      Span.Apart (regions.map MmioRegion.pages) ∧
      ∃ after, final.tables = some after ∧
        (∀ address < state.nextMmioVirt,
          mapper.translate after address = mapper.translate tables address) ∧
        ∀ region ∈ regions, region.Moved mapper after := by
  induction calls generalizing state tables regions with
  | nil =>
      obtain ⟨rfl, rfl⟩ := Prod.mk.inj (Except.ok.inj returned)
      exact ⟨rfl, by simp, List.Pairwise.nil, tables, present, fun _ _ => rfl, by simp⟩
  | cons call calls induction =>
      obtain ⟨⟨virtStart, next⟩, first, returned⟩ := bind_eq_ok.mp returned
      obtain ⟨⟨rest, last⟩, others, same⟩ := bind_eq_ok.mp returned
      obtain ⟨rfl, rfl⟩ := Prod.mk.inj (Except.ok.inj same)
      obtain ⟨rfl, advanced, middle, presentNext, moves⟩ :=
        mapMmioRegion_moves documented exact aligned present first
      have alignedNext : pageSize ∣ next.nextMmioVirt := by
        rw [advanced]
        exact Nat.dvd_add aligned (Nat.dvd_mul_left _ _)
      obtain ⟨calls_eq, above, apart, after, presentLast, kept, moved⟩ :=
        induction alignedNext presentNext others
      refine ⟨by rw [List.map_cons, calls_eq], ?_, ?_, after, presentLast, ?_, ?_⟩
      · intro region member
        rcases List.mem_cons.mp member with rfl | member
        · exact le_rfl
        · have := above region member
          omega
      · rw [List.map_cons]
        refine List.pairwise_cons.mpr ⟨fun span member => ?_, apart⟩
        obtain ⟨region, inside, rfl⟩ := List.mem_map.mp member
        exact advanced.symm.trans_le (above region inside)
      · intro address below
        rw [kept address (by omega), moves.outside address (by omega)]
      · intro region member
        rcases List.mem_cons.mp member with rfl | member
        · intro offset range
          have range : offset < call.length := range
          rw [kept _ (by rw [advanced]; exact Nat.add_lt_add_left range _),
            moves.inside offset range]
        · exact moved region member

/-- A run returns when the pages that it needs are not mapped. -/
theorem mapRegions_isOk (documented : addressing.Documented) (exact : mapper.Exact pageSize)
    (serves : mapper.Serves pageSize) (aligned : pageSize ∣ state.nextMmioVirt)
    (present : state.tables = some tables)
    (high : mmioBase ≤ state.nextMmioVirt) {stop : ℕ} (bound : stop ≤ Usize.max)
    (fits : state.nextMmioVirt + (calls.map MmioCall.length).sum ≤ stop)
    (unmapped : mapper.Unmapped tables state.nextMmioVirt stop) :
    ∃ regions final, mapRegions addressing mapper calls state = .ok (regions, final) := by
  induction calls generalizing state tables with
  | nil => exact ⟨[], state, rfl⟩
  | cons call calls induction =>
      rw [List.map_cons, List.sum_cons] at fits
      obtain ⟨virtStart, next, first⟩ := mapMmioRegion_isOk documented exact serves aligned present
        high (by omega : state.nextMmioVirt + call.length ≤ Usize.max)
        fun address above below => unmapped address above (by omega)
      obtain ⟨rfl, advanced, middle, presentNext, moves⟩ :=
        mapMmioRegion_moves documented exact aligned present first
      have alignedNext : pageSize ∣ next.nextMmioVirt := by
        rw [advanced]
        exact Nat.dvd_add aligned (Nat.dvd_mul_left _ _)
      obtain ⟨rest, final, others⟩ := induction alignedNext presentNext (by omega) (by omega)
        (moves.unmapped (fun address above below => unmapped address (by omega) below) advanced.ge)
      refine ⟨⟨call, state.nextMmioVirt⟩ :: rest, final, ?_⟩
      rw [mapRegions, first, ok_bind]
      dsimp only
      rw [others, ok_bind]

end Runs

/-- Calls return while the window has unmapped pages.  In every run of calls that return, different
calls take different pages, and an address that a call returned points to the bytes that were asked
for exactly when these start at a page. -/
theorem mapRegions_points_iff {Tables : Type} {addressing : Addressing}
    (documented : addressing.Documented) {mapper : PageMapper Tables}
    (exact : mapper.Exact pageSize) (serves : mapper.Serves pageSize) {tables : Tables} {stop : ℕ}
    (unmapped : mapper.Unmapped tables mmioBase stop) (calls : List MmioCall) :
    (mmioBase + (calls.map MmioCall.length).sum ≤ min stop Usize.max →
      ∃ regions final,
        mapRegions addressing mapper calls ⟨mmioBase, some tables⟩ = .ok (regions, final)) ∧
    ∀ regions final,
      mapRegions addressing mapper calls ⟨mmioBase, some tables⟩ = .ok (regions, final) →
      regions.map MmioRegion.toMmioCall = calls ∧
      (regions.map MmioRegion.pages).Pairwise
        (fun first second => Disjoint first.addresses second.addresses) ∧
      ∃ after, final.tables = some after ∧ ∀ region ∈ regions,
        region.Points mapper after ↔ region.phys % pageSize = 0 := by
  have aligned : pageSize ∣ mmioBase := by decide
  constructor
  · intro room
    exact mapRegions_isOk documented exact serves aligned rfl le_rfl (min_le_right stop Usize.max)
      room fun address above below => unmapped address above (by omega)
  · intro regions final returned
    obtain ⟨same, -, apart, after, present, -, moved⟩ :=
      mapRegions_moved documented exact aligned rfl returned
    exact ⟨same, apart.disjoint, after, present,
      fun region member => (moved region member).points_iff⟩

/-- Addresses as the processor has them: 52 physical bits, and bits 47 to 63 of a virtual address
equal. -/
def plainAddressing : Addressing where
  physAddr addr := if addr < 2 ^ 52 then .ok addr else .error .assertion
  virtAddr addr := if addr < 2 ^ 47 ∨ 2 ^ 64 - 2 ^ 47 ≤ addr then .ok addr else .error .assertion
  virtAdd virt offset := do
    let sum ← Usize.add virt offset
    if sum < 2 ^ 47 ∨ 2 ^ 64 - 2 ^ 47 ≤ sum then .ok sum else .error .assertion
  containingAddress addr := roundDown addr pageSize
  rangeInclusive first last := List.range' first ((last + pageSize - first) / pageSize) pageSize

theorem plainAddressing_documented : plainAddressing.Documented where
  physAddr_eq kept := by
    simp only [plainAddressing] at kept
    split_ifs at kept
    exact (Except.ok.inj kept).symm
  physAddr_isOk range := if_pos range
  virtAddr_eq kept := by
    simp only [plainAddressing] at kept
    split_ifs at kept
    exact (Except.ok.inj kept).symm
  virtAddr_isOk high _ := if_pos (.inr high)
  virtAdd_eq added := by
    simp only [plainAddressing, bind_eq_ok, Usize.add_eq_ok] at added
    obtain ⟨_, ⟨-, rfl⟩, added⟩ := added
    split_ifs at added
    exact (Except.ok.inj added).symm
  virtAdd_isOk {virt offset} high fits := by
    simp only [plainAddressing, Usize.add_of_le fits, ok_bind]
    exact if_pos (.inr (Nat.le_add_right_of_le high))
  containing := ⟨dvd_roundDown _ _, Nat.div_mul_le_self _ _, lt_roundDown_add (by decide)⟩
  rangeInclusive_eq {first} count _ := by
    simp only [plainAddressing]
    rw [Nat.add_assoc, Nat.add_sub_cancel_left, ← Nat.succ_mul, Nat.mul_div_cancel _ (by decide)]

/-- A mapper that keeps the frame of every page in a table and maps no page twice. -/
def pageTable : PageMapper (ℕ → Option ℕ) where
  translate tables address := (tables (roundDown address pageSize)).map (· + address % pageSize)
  mapTo tables page frame :=
    if (tables page).isSome then none else some (Function.update tables page (some frame))

namespace pageTable

theorem roundDown_add {page offset : ℕ} (aligned : pageSize ∣ page)
    (inside : offset < pageSize) : roundDown (page + offset) pageSize = page := by
  obtain ⟨index, rfl⟩ := aligned
  rw [roundDown, Nat.mul_add_div (by decide), Nat.div_eq_of_lt inside,
    Nat.add_zero, Nat.mul_comm]

theorem exact : pageTable.Exact pageSize where
  maps {tables next page frame} alignedPage _ mapped offset inside := by
    have low : (page + offset) % pageSize = offset := by
      rw [Nat.add_mod, Nat.mod_eq_zero_of_dvd alignedPage, Nat.zero_add, Nat.mod_mod,
        Nat.mod_eq_of_lt inside]
    simp only [pageTable] at mapped ⊢
    split_ifs at mapped
    obtain rfl := Option.some.inj mapped
    rw [roundDown_add alignedPage inside, Function.update_self, low, Option.map_some]
  keeps {tables next page frame} _ _ mapped address outside := by
    have other : roundDown address pageSize ≠ page := by
      rintro rfl
      exact outside ⟨Nat.div_mul_le_self _ _, lt_roundDown_add (by decide)⟩
    simp only [pageTable] at mapped ⊢
    split_ifs at mapped
    obtain rfl := Option.some.inj mapped
    rw [Function.update_of_ne other]

theorem serves : pageTable.Serves pageSize := by
  intro tables page frame alignedPage _ unmapped
  have free := unmapped page le_rfl (Nat.lt_add_of_pos_right (by decide))
  have missing : tables page = none := by
    simpa only [pageTable, roundDown_of_dvd alignedPage, Option.map_eq_none_iff] using free
  refine ⟨Function.update tables page (some frame), ?_⟩
  simp [pageTable, missing]

end pageTable

/-- Registers that start in the middle of a page, and a range over two pages. -/
def deviceCalls : List MmioCall :=
  [⟨0xFEB00800, 0x10, by decide, by decide⟩, ⟨0xFEB01000, 0x1800, by decide, by decide⟩]

theorem mapRegions_points_iff_devices : ∃ regions final after,
    mapRegions plainAddressing pageTable deviceCalls ⟨mmioBase, some fun _ => none⟩ =
        .ok (regions, final) ∧
      regions.map MmioRegion.toMmioCall = deviceCalls ∧ final.tables = some after ∧
      ∀ region ∈ regions, region.Points pageTable after ↔ region.phys % pageSize = 0 := by
  obtain ⟨returns, exact⟩ := mapRegions_points_iff plainAddressing_documented pageTable.exact
    pageTable.serves
    (fun _ _ _ => rfl : pageTable.Unmapped (fun _ => none) mmioBase Usize.max) deviceCalls
  obtain ⟨regions, final, returned⟩ := returns (by decide)
  obtain ⟨same, -, after, present, points⟩ := exact regions final returned
  exact ⟨regions, final, after, returned, same, present, points⟩

/-- The address that is returned for the registers points to the first byte of their page. -/
theorem mapMmioRegion_misses : ∃ virtStart final after,
    mapMmioRegion plainAddressing pageTable 0xFEB00800 0x10 ⟨mmioBase, some fun _ => none⟩ =
        .ok (virtStart, final) ∧
      final.tables = some after ∧
      ¬∀ offset < 0x10, pageTable.translate after (virtStart + offset) =
        some (0xFEB00800 + offset) := by
  let call : MmioCall := ⟨0xFEB00800, 0x10, by decide, by decide⟩
  have aligned : pageSize ∣ mmioBase := by decide
  obtain ⟨virtStart, final, returned⟩ := @mapMmioRegion_isOk _ _ _ (fun _ => none)
    plainAddressing_documented pageTable.exact pageTable.serves call
    ⟨mmioBase, some fun _ => none⟩ aligned rfl le_rfl (by decide) fun _ _ _ => rfl
  obtain ⟨-, -, after, present, moves⟩ :=
    mapMmioRegion_moves plainAddressing_documented pageTable.exact aligned rfl returned
  refine ⟨virtStart, final, after, returned, present, fun points => ?_⟩
  have first := (moves.inside 0 (by decide)).symm.trans (points 0 (by decide))
  exact absurd first (by decide)

end Blubos
