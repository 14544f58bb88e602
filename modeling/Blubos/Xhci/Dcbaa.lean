import Blubos.Allocator.Provision
import Blubos.Xhci.Controller
import Mathlib.Data.List.Range

/-!
# Device contexts and scratchpads

`setup_op_regs` gives the controller a context for each device slot and, where it asks for them,
scratchpad frames.  Their physical addresses go into two arrays of 256 entries.  There are at most
255 slots, but the controller may ask for up to 1023 frames.
-/

namespace Blubos

/-- `XhciStructuralParam1`. -/
structure XhciStructuralParam1 where
  raw : BitVec 32

def XhciStructuralParam1.maxDeviceSlots (param : XhciStructuralParam1) : BitVec 8 :=
  BitField.get 0 8 param.raw

/-- `XhciStructuralParam2`. -/
structure XhciStructuralParam2 where
  raw : BitVec 32

namespace XhciStructuralParam2

def maxScratchpadBufferHi (param : XhciStructuralParam2) : BitVec 5 := BitField.get 21 5 param.raw

def maxScratchpadBufferLow (param : XhciStructuralParam2) : BitVec 5 := BitField.get 27 5 param.raw

/-- `get_max_scratchpad_buffer`. -/
def getMaxScratchpadBuffer (param : XhciStructuralParam2) : BitVec 16 :=
  (param.maxScratchpadBufferHi.setWidth 16 <<< 5) ||| param.maxScratchpadBufferLow.setWidth 16

/-- The two fields are the upper and the lower five bits of the count. -/
theorem toNat_getMaxScratchpadBuffer (param : XhciStructuralParam2) :
    param.getMaxScratchpadBuffer.toNat =
      param.maxScratchpadBufferHi.toNat * 32 + param.maxScratchpadBufferLow.toNat := by
  have hi := param.maxScratchpadBufferHi.isLt
  have low := param.maxScratchpadBufferLow.isLt
  rw [getMaxScratchpadBuffer, BitVec.toNat_or, BitVec.toNat_shiftLeft, BitVec.toNat_setWidth,
    BitVec.toNat_setWidth, Nat.mod_eq_of_lt (by omega : param.maxScratchpadBufferHi.toNat < 2 ^ 16),
    Nat.mod_eq_of_lt (by omega : param.maxScratchpadBufferLow.toNat < 2 ^ 16), Nat.mod_eq_of_lt,
    ← Nat.shiftLeft_add_eq_or_of_lt low, Nat.shiftLeft_eq]
  rw [Nat.shiftLeft_eq]
  omega

theorem getMaxScratchpadBuffer_lt (param : XhciStructuralParam2) :
    param.getMaxScratchpadBuffer.toNat < 1024 := by
  have hi := param.maxScratchpadBufferHi.isLt
  have low := param.maxScratchpadBufferLow.isLt
  rw [toNat_getMaxScratchpadBuffer]
  omega

example : getMaxScratchpadBuffer ⟨0xffffffff⟩ = 1023 := by decide

end XhciStructuralParam2

/-- `Box::new_in` for a type with a layout: the address of the box. -/
def FrontEnd.boxNewIn (heap : KernelHeap) (layout : Layout) (alloc : FrontEnd) :
    Except Fault (ℕ × KernelHeap) := do
  match ← alloc.allocate heap layout with
  | (.ok block, heap) => .ok (block.base, heap)
  | (.error _, _) => .error .outOfMemory

/-- A `Vec` of boxes from `XhciAllocator`.  Its buffer comes from the global allocator, which is
`TREE_ALLOCATOR` once there is a controller. -/
structure BoxVec where
  /-- Address of the buffer. -/
  ptr : ℕ
  /-- The number of boxes that the buffer has room for. -/
  capacity : ℕ
  boxes : List ℕ

namespace BoxVec

/-- `Vec::new`: a dangling pointer. -/
def new : BoxVec := ⟨8, 0, []⟩

/-- `Layout::array`: a box is its pointer and the optional boundary of its allocator. -/
def layout (capacity : ℕ) : Option Layout := Layout.fromSizeAlign (capacity * 24) 8

/-- Move to a buffer with a new capacity, by `alloc` or by `realloc`, which copies and frees. -/
def growTo (vec : BoxVec) (capacity : ℕ) (heap : KernelHeap) : Except Fault (BoxVec × KernelHeap) :=
  match layout capacity with
  | none => .error .overflow
  | some layout => do
      let (ptr, heap) ← TreeAlloc.alloc ⟨none, none⟩ heap layout
      if ptr = 0 then
        .error .outOfMemory
      else if vec.capacity = 0 then
        .ok (⟨ptr, capacity, vec.boxes⟩, heap)
      else do
        let (tree, bump) ← heap.tree.free heap.bump vec.ptr (vec.capacity * 24)
        .ok (⟨ptr, capacity, vec.boxes⟩, { heap with tree := tree, bump := bump })

/-- `reserve_exact`. -/
def reserveExact (vec : BoxVec) (additional : ℕ) (heap : KernelHeap) :
    Except Fault (BoxVec × KernelHeap) :=
  if additional ≤ vec.capacity - vec.boxes.length then .ok (vec, heap)
  else vec.growTo (vec.boxes.length + additional) heap

/-- `push`. -/
def push (vec : BoxVec) (box : ℕ) (heap : KernelHeap) : Except Fault (BoxVec × KernelHeap) := do
  let (vec, heap) ← (if vec.boxes.length = vec.capacity then
      vec.growTo (max 4 (max (vec.capacity * 2) (vec.boxes.length + 1))) heap
    else .ok (vec, heap))
  .ok ({ vec with boxes := vec.boxes ++ [box] }, heap)

end BoxVec

/-- `Box<[u64], XhciAllocator>`, always made from an array of 256 entries. -/
structure PointerArray where
  /-- Address of the array. -/
  ptr : ℕ
  entries : Vector ℕ 256

/-- `array[index] = address`. -/
def PointerArray.set (array : PointerArray) (index address : ℕ) : Except Fault PointerArray :=
  if range : index < 256 then .ok { array with entries := array.entries.set index address }
  else .error .outOfBounds

/-- `XhciDcbaa`. -/
structure XhciDcbaa where
  dcbaa : PointerArray
  deviceContexes : BoxVec
  scratchpads : BoxVec
  scratchpadPointers : PointerArray

/-- `XhciAllocator::default`. -/
def XhciAllocator.default : FrontEnd := .xhci ⟨none⟩

/-- `XhciDcbaa::new`. -/
def XhciDcbaa.new (heap : KernelHeap) : Except Fault (XhciDcbaa × KernelHeap) := do
  let (dcbaa, heap) ← FrontEnd.newInAligned heap 2048 64 XhciAllocator.default
  let (pointers, heap) ← FrontEnd.newInAligned heap 2048 64 XhciAllocator.default
  .ok (⟨⟨dcbaa, Vector.replicate 256 0⟩, .new, .new, ⟨pointers, Vector.replicate 256 0⟩⟩, heap)

/-! ## Setting up -/

/-- `XhciDeviceContext`: 1024 bytes, aligned to 64. -/
def XhciDeviceContext.layout : Layout := ⟨1024, 64, ⟨6, rfl⟩, by decide⟩

/-- `mapper.translate_addr` and `unwrap`. -/
def AddressMap.translateAddr (map : AddressMap) (addr : ℕ) : Except Fault ℕ := do
  let translate ← unwrap map.mapper
  unwrap (translate addr)

/-- A vector of boxes and the array of their physical addresses. -/
abbrev Slots : Type := BoxVec × PointerArray × KernelHeap

/-- The loop body for device slot `i`. -/
def setupContext (slots : Slots) (i : ℕ) : Except Fault Slots := do
  let (contexts, dcbaa, heap) := slots
  let (context, heap) ← FrontEnd.boxNewIn heap XhciDeviceContext.layout XhciAllocator.default
  let physical ← heap.map.translateAddr context
  if physical &&& 0x3f = 0 then do
    let dcbaa ← dcbaa.set i physical
    let (contexts, heap) ← contexts.push context heap
    .ok (contexts, dcbaa, heap)
  else .error .assertion

/-- The loop body for scratchpad `i`. -/
def setupScratchpad (slots : Slots) (i : ℕ) : Except Fault Slots := do
  let (scratchpads, pointers, heap) := slots
  let (frame, heap) ← FrontEnd.newInAligned heap 0x1000 0x1000 XhciAllocator.default
  let addr ← heap.map.toPhysicalAddr frame
  let (scratchpads, heap) ← scratchpads.push frame heap
  let pointers ← pointers.set i addr
  .ok (scratchpads, pointers, heap)

/-- The contexts of the device slots. -/
def setupContexts (maxDeviceSlots : ℕ) (self : XhciDcbaa) (heap : KernelHeap) :
    Except Fault (XhciDcbaa × KernelHeap) := do
  let (contexts, heap) ← self.deviceContexes.reserveExact (maxDeviceSlots + 1) heap
  let (contexts, dcbaa, heap) ←
    (List.range' 1 maxDeviceSlots).foldlM setupContext (contexts, self.dcbaa, heap)
  .ok ({ self with dcbaa := dcbaa, deviceContexes := contexts }, heap)

/-- The scratchpads, where there are any. -/
def setupScratchpads (scratchpadCount : ℕ) (self : XhciDcbaa) (heap : KernelHeap) :
    Except Fault (XhciDcbaa × KernelHeap) :=
  if 0 < scratchpadCount then do
    let (scratchpads, heap) ← self.scratchpads.reserveExact scratchpadCount heap
    let (scratchpads, pointers, heap) ← (List.range' 0 scratchpadCount).foldlM setupScratchpad
      (scratchpads, self.scratchpadPointers, heap)
    let physical ← heap.map.toPhysicalAddr pointers.ptr
    let dcbaa ← self.dcbaa.set 0 physical
    .ok ({ self with dcbaa := dcbaa, scratchpads := scratchpads, scratchpadPointers := pointers },
      heap)
  else .ok (self, heap)

/-- The part of `setup_op_regs` between the two modifications of the registers. -/
def setupDcbaa (param1 : XhciStructuralParam1) (param2 : XhciStructuralParam2) (self : XhciDcbaa)
    (heap : KernelHeap) : Except Fault (XhciDcbaa × KernelHeap) := do
  let (self, heap) ← setupContexts param1.maxDeviceSlots.toNat self heap
  setupScratchpads param2.getMaxScratchpadBuffer.toNat self heap

/-- What the registers are set up from. -/
def opSetup (param1 : XhciStructuralParam1) (param2 : XhciStructuralParam2) (self : XhciDcbaa)
    (heap : KernelHeap) (commandRing : XhciCommandRing) : OpSetup where
  maxDeviceSlots := param1.maxDeviceSlots
  dcbaa := do
    let translate ← heap.map.mapper
    let physical ← translate self.dcbaa.ptr
    some (BitVec.ofNat 64 physical)
  contexts := do
    let _ ← setupDcbaa param1 param2 self heap
    .ok ()
  commandRing := commandRing

section Boxes

variable {translate : ℕ → Option ℕ} {heap : KernelHeap} {layout : Layout} {layouts : List Layout}
  {vec : BoxVec} {array : PointerArray}

theorem PointerArray.set_of_lt {index address : ℕ} (range : index < 256) :
    array.set index address =
      .ok { array with entries := array.entries.set index address } := dif_pos range

theorem PointerArray.set_of_le {index address : ℕ} (beyond : 256 ≤ index) :
    array.set index address = .error .outOfBounds := dif_neg (Nat.not_lt.mpr beyond)

theorem BoxVec.push_of_lt {box : ℕ} (room : vec.boxes.length < vec.capacity) :
    vec.push box heap = .ok ({ vec with boxes := vec.boxes ++ [box] }, heap) := by
  rw [BoxVec.push, if_neg room.ne, ok_bind]

/-- The address of a new box, and what it leaves of the heap. -/
theorem allocate_mapped (ready : heap.Ready translate) (modest : layout.Modest)
    (divides : layout.align ∣ 0x1000) (provides : heap.Provides (layout :: layouts)) :
    ∃ box heap' physical, (∃ present, XhciAllocator.default.allocate heap layout =
        .ok (.ok ⟨⟨box, layout.size⟩, present⟩, heap')) ∧
      translate box = some physical ∧ physical % layout.align = 0 ∧ heap'.Ready translate ∧
      Takes heap [⟨box, layout.size⟩] heap' ∧ heap'.Provides layouts := by
  obtain ⟨box, heap', allocated, aligned, ready', takes, rest⟩ :=
    XhciAllocator.allocate_takes ⟨none⟩ ready modest provides
  obtain ⟨-, physical, mapped, offset⟩ := takes.mapped ready modest.positive
  refine ⟨box, heap', physical, allocated, mapped, ?_, ready', takes, rest⟩
  have lower := congrArg (· % layout.align) offset
  simp only [Nat.mod_mod_of_dvd _ divides] at lower
  rw [lower, Nat.mod_eq_zero_of_dvd aligned]

theorem deviceContext_modest : XhciDeviceContext.layout.Modest := ⟨by decide, by decide⟩

theorem frame_power : (0x1000).isPowerOfTwo := ⟨12, rfl⟩

/-- `[u8; 4096]` in a frame of its own. -/
def frameLayout : Layout := ⟨0x1000, 0x1000, frame_power, by decide⟩

theorem frame_modest : frameLayout.Modest := ⟨by decide, by decide⟩

/-- A loop body that stores a new box and its physical address. -/
def StoresBoxes (translate : ℕ → Option ℕ) (layout : Layout)
    (body : Slots → ℕ → Except Fault Slots) : Prop :=
  ∀ (vec : BoxVec) (array : PointerArray) (heap : KernelHeap) (layouts : List Layout) (index : ℕ)
    (range : index < 256), heap.Ready translate → heap.Provides (layout :: layouts) →
    vec.boxes.length < vec.capacity →
    ∃ box physical heap', body (vec, array, heap) index =
        .ok ({ vec with boxes := vec.boxes ++ [box] },
          { array with entries := array.entries.set index physical }, heap') ∧
      translate box = some physical ∧ physical % layout.align = 0 ∧ heap'.Ready translate ∧
      Takes heap [⟨box, layout.size⟩] heap' ∧ heap'.Provides layouts

theorem setupContext_stores : StoresBoxes translate XhciDeviceContext.layout setupContext := by
  intro vec array heap layouts index range ready provides room
  obtain ⟨box, heap', physical, ⟨_, allocated⟩, mapped, aligned, ready', takes, rest⟩ :=
    allocate_mapped ready deviceContext_modest (by decide) provides
  refine ⟨box, physical, heap', ?_, mapped, aligned, ready', takes, rest⟩
  have low : physical &&& 0x3f = 0 := (Nat.and_two_pow_sub_one_eq_mod physical 6).trans aligned
  have translated : heap'.map.translateAddr box = .ok physical := by
    rw [AddressMap.translateAddr, ready'.present, unwrap_some, ok_bind, mapped, unwrap_some]
  rw [setupContext]
  dsimp only
  rw [FrontEnd.boxNewIn, allocated, ok_bind]
  dsimp only
  rw [ok_bind]
  dsimp only
  rw [translated, ok_bind, if_pos low, PointerArray.set_of_lt range, ok_bind,
    BoxVec.push_of_lt room, ok_bind]

/-- The part of the loop body for a scratchpad before the address is stored. -/
theorem setupScratchpad_eq (ready : heap.Ready translate)
    (provides : heap.Provides (frameLayout :: layouts)) (room : vec.boxes.length < vec.capacity)
    (index : ℕ) :
    ∃ frame physical heap', setupScratchpad (vec, array, heap) index = (do
        let pointers ← array.set index physical
        .ok ({ vec with boxes := vec.boxes ++ [frame] }, pointers, heap')) ∧
      translate frame = some physical ∧ physical % frameLayout.align = 0 ∧
      heap'.Ready translate ∧ Takes heap [⟨frame, frameLayout.size⟩] heap' ∧
      heap'.Provides layouts := by
  obtain ⟨frame, heap', physical, ⟨_, allocated⟩, mapped, aligned, ready', takes, rest⟩ :=
    allocate_mapped ready frame_modest (dvd_refl _) provides
  refine ⟨frame, physical, heap', ?_, mapped, aligned, ready', takes, rest⟩
  rw [setupScratchpad]
  dsimp only
  rw [show FrontEnd.newInAligned heap 0x1000 0x1000 XhciAllocator.default = .ok (frame, heap')
    from FrontEnd.newInAligned_ok allocated, ok_bind]
  dsimp only
  rw [toPhysicalAddr_of_some ready'.present mapped, ok_bind, BoxVec.push_of_lt room, ok_bind]

theorem setupScratchpad_stores : StoresBoxes translate frameLayout setupScratchpad := by
  intro vec array heap layouts index range ready provides room
  obtain ⟨frame, physical, heap', body, rest⟩ :=
    @setupScratchpad_eq translate heap layouts vec array ready provides room index
  refine ⟨frame, physical, heap', ?_, rest⟩
  rw [body, PointerArray.set_of_lt range, ok_bind]

theorem setupScratchpad_outOfBounds (ready : heap.Ready translate)
    (provides : heap.Provides (frameLayout :: layouts)) (room : vec.boxes.length < vec.capacity)
    {index : ℕ} (beyond : 256 ≤ index) :
    setupScratchpad (vec, array, heap) index = .error .outOfBounds := by
  obtain ⟨frame, physical, heap', body, -⟩ :=
    @setupScratchpad_eq translate heap layouts vec array ready provides room index
  rw [body, PointerArray.set_of_le beyond, error_bind]

/-- The entries from an index on are the aligned physical addresses of boxes. -/
def Pointed (translate : ℕ → Option ℕ) (layout : Layout) (first : ℕ) (boxes : List ℕ)
    (entries : Vector ℕ 256) : Prop :=
  ∀ k < boxes.length, ∃ box physical, boxes[k]? = some box ∧ entries[first + k]? = some physical ∧
    translate box = some physical ∧ physical % layout.align = 0

/-- A loop stores boxes in consecutive entries and leaves the others alone. -/
theorem foldlM_stores {body : Slots → ℕ → Except Fault Slots}
    (stores : StoresBoxes translate layout body) {first count : ℕ} (ready : heap.Ready translate)
    (provides : heap.Provides (List.replicate count layout ++ layouts))
    (room : vec.boxes.length + count ≤ vec.capacity) (range : first + count ≤ 256) :
    ∃ boxes entries heap', (List.range' first count).foldlM body (vec, array, heap) =
        .ok ({ vec with boxes := vec.boxes ++ boxes }, { array with entries := entries }, heap') ∧
      boxes.length = count ∧ Pointed translate layout first boxes entries ∧
      (∀ index, ¬(first ≤ index ∧ index < first + count) →
        entries[index]? = array.entries[index]?) ∧
      heap'.Ready translate ∧ Takes heap (boxes.map fun box => ⟨box, layout.size⟩) heap' ∧
      heap'.Provides layouts := by
  induction count generalizing first vec array heap with
  | zero =>
      refine ⟨[], array.entries, heap, ?_, rfl, by simp [Pointed], fun _ _ => rfl, ready,
        .nothing heap, provides⟩
      rw [List.append_nil]
      rfl
  | succ count induction =>
      rw [List.replicate_succ, List.cons_append] at provides
      obtain ⟨box, physical, next, stored, mapped, aligned, readyNext, takes, providesNext⟩ :=
        stores vec array heap _ first (by omega) ready provides (by omega)
      obtain ⟨boxes, entries, heap', looped, length, pointed, kept, ready', takes', rest⟩ :=
        @induction next { vec with boxes := vec.boxes ++ [box] }
          { array with entries := array.entries.set first physical } (first + 1) readyNext
          providesNext (by simp only [List.length_append, List.length_singleton]; omega) (by omega)
      have head : entries[first]? = some physical := by
        rw [kept first (by omega)]
        exact Vector.getElem?_set_self (by omega)
      refine ⟨box :: boxes, entries, heap', ?_, by rw [List.length_cons, length], ?_, ?_, ready',
        takes.trans takes', rest⟩
      · rw [List.range'_succ, List.foldlM_cons, stored, ok_bind, looped]
        simp only [List.append_assoc, List.singleton_append]
      · intro k inside
        cases k with
        | zero => exact ⟨box, physical, rfl, head, mapped, aligned⟩
        | succ k =>
            rw [List.length_cons, Nat.succ_lt_succ_iff] at inside
            have place : first + (k + 1) = first + 1 + k := by omega
            rw [place]
            exact pointed k inside
      · intro index outside
        rw [kept index (by omega)]
        exact Vector.getElem?_set_ne (by omega) (by omega)

/-- The loop over the scratchpads fails when there are more than entries. -/
theorem foldlM_outOfBounds {count : ℕ} (many : 256 < count) (ready : heap.Ready translate)
    (provides : heap.Provides (List.replicate count frameLayout ++ layouts))
    (room : vec.boxes.length + count ≤ vec.capacity) :
    (List.range' 0 count).foldlM setupScratchpad (vec, array, heap) = .error .outOfBounds := by
  obtain ⟨more, rfl⟩ := Nat.exists_eq_add_of_le (Nat.succ_le_of_lt many)
  rw [Nat.succ_eq_add_one, Nat.add_assoc, Nat.add_comm 1 more] at provides room ⊢
  rw [List.replicate_add, List.append_assoc] at provides
  obtain ⟨frames, entries, heap', looped, length, -, -, ready', -, rest⟩ :=
    @foldlM_stores translate heap _ _ vec array _ setupScratchpad_stores 0 256 ready provides
      (by omega) le_rfl
  rw [List.replicate_succ, List.cons_append] at rest
  have next : (vec.boxes ++ frames).length < vec.capacity := by
    rw [List.length_append, length]
    omega
  rw [← List.range'_append_1, List.foldlM_append, looped, ok_bind, List.range'_succ,
    List.foldlM_cons, setupScratchpad_outOfBounds ready' rest next (Nat.zero_add 256).ge,
    error_bind]

theorem Pointed.injective {first : ℕ} {boxes : List ℕ} {entries : Vector ℕ 256}
    (pointed : Pointed translate layout first boxes entries) {memory : Set ℕ}
    (mapped : MappedMemory translate memory) (positive : 0 < layout.size)
    (inside : ∀ block ∈ boxes.map fun box => (⟨box, layout.size⟩ : Span), block.addresses ⊆ memory)
    (apart : (boxes.map fun box => (⟨box, layout.size⟩ : Span)).Pairwise
      fun left right => Disjoint left.addresses right.addresses)
    {j k : ℕ} (order : j < k) (last : k < boxes.length) :
    entries[first + j]? ≠ entries[first + k]? := by
  obtain ⟨box, physical, at_j, entry_j, mapped_j, -⟩ := pointed j (order.trans last)
  obtain ⟨box', physical', at_k, entry_k, mapped_k, -⟩ := pointed k last
  have base (a : ℕ) : a ∈ (⟨a, layout.size⟩ : Span).addresses :=
    ⟨le_rfl, Nat.lt_add_of_pos_right positive⟩
  have member {a : ℕ} {i : ℕ} (at_i : boxes[i]? = some a) : a ∈ memory :=
    inside _ (List.mem_map_of_mem (List.mem_of_getElem? at_i)) (base a)
  intro same
  rw [entry_j, entry_k, Option.some.injEq] at same
  have alike : box = box' := mapped.injective (member at_j) (member at_k)
    (mapped_j.trans (same ▸ mapped_k.symm))
  obtain ⟨inside_j, found_j⟩ := List.getElem?_eq_some_iff.mp at_j
  obtain ⟨inside_k, found_k⟩ := List.getElem?_eq_some_iff.mp at_k
  have disjoint := List.pairwise_iff_getElem.mp apart j k (by simpa using inside_j)
    (by simpa using inside_k) order
  rw [List.getElem_map, List.getElem_map, found_j, found_k, alike] at disjoint
  exact Set.disjoint_left.mp disjoint (base box') (base box')

end Boxes

/-! ## The whole call -/

theorem BoxVec.layout_eq {capacity : ℕ} (small : capacity ≤ 2 ^ 16) :
    ∃ layout, BoxVec.layout capacity = some layout ∧ layout.size = capacity * 24 ∧
      layout.align = 8 := by
  have valid : (8).isPowerOfTwo ∧ capacity * 24 + (8 - 1) < 2 ^ 63 := ⟨⟨3, rfl⟩, by omega⟩
  exact ⟨_, dif_pos valid, rfl, rfl⟩

def setupLayouts (slots count : ℕ) : List Layout :=
  (BoxVec.layout (slots + 1)).toList ++ (List.replicate slots XhciDeviceContext.layout ++
    if 0 < count then (BoxVec.layout count).toList ++ (List.replicate count frameLayout ++ [])
    else [])

section Layouts

variable {capacity count slots : ℕ} {layout : Layout} {rest : List Layout}

theorem modest_boxes (positive : 0 < capacity) (small : capacity ≤ 2 ^ 16) (modest : layout.Modest)
    (others : ∀ other ∈ rest, other.Modest) :
    ∀ each ∈ (BoxVec.layout capacity).toList ++ (List.replicate count layout ++ rest),
      each.Modest := by
  obtain ⟨buffer, array, size, align⟩ := BoxVec.layout_eq small
  intro each member
  rw [array, Option.toList_some, List.mem_append, List.mem_append] at member
  rcases member with own | boxed | other
  · obtain rfl := List.mem_singleton.mp own
    exact ⟨by omega, by omega⟩
  · exact List.eq_of_mem_replicate boxed ▸ modest
  · exact others each other

/-- The space of the buffer and the boxes, lost alignment included. -/
theorem sum_boxes (small : capacity ≤ 2 ^ 16) :
    (((BoxVec.layout capacity).toList ++ (List.replicate count layout ++ rest)).map
        fun each => each.size + each.align).sum =
      capacity * 24 + 8 + count * (layout.size + layout.align) +
        (rest.map fun each => each.size + each.align).sum := by
  obtain ⟨buffer, array, size, align⟩ := BoxVec.layout_eq small
  rw [array, Option.toList_some, List.map_append, List.map_append, List.map_replicate,
    List.sum_append, List.sum_append, List.sum_replicate_nat, List.map_singleton,
    List.sum_singleton, size, align]
  exact (Nat.add_assoc _ _ _).symm

theorem setupLayouts_modest (few : slots < 256) (small : count < 1024) :
    ∀ layout ∈ setupLayouts slots count, layout.Modest := by
  refine modest_boxes (Nat.succ_pos slots) (by omega) deviceContext_modest ?_
  split_ifs with positive
  · exact modest_boxes positive (by omega) frame_modest (by simp)
  · simp

theorem sum_setupLayouts_le (few : slots < 256) (small : count < 1024) :
    ((setupLayouts slots count).map fun layout => layout.size + layout.align).sum ≤ 0x900000 := by
  have each_context : XhciDeviceContext.layout.size + XhciDeviceContext.layout.align = 1088 := rfl
  have each_frame : frameLayout.size + frameLayout.align = 8192 := rfl
  rw [setupLayouts, sum_boxes (by omega), each_context]
  split_ifs with positive
  · rw [sum_boxes (by omega), each_frame, List.map_nil, List.sum_nil]
    omega
  · rw [List.map_nil, List.sum_nil]
    omega

end Layouts

/-- The structure is as `new` makes it: there are two mapped arrays and no boxes yet. -/
structure XhciDcbaa.Fresh (translate : ℕ → Option ℕ) (tables : XhciDcbaa) : Prop where
  deviceContexes : tables.deviceContexes = .new
  scratchpads : tables.scratchpads = .new
  dcbaa : (translate tables.dcbaa.ptr).isSome
  scratchpadPointers : (translate tables.scratchpadPointers.ptr).isSome

/-- The controller finds a context for every device slot and the scratchpads it asked for. -/
structure XhciDcbaa.SetUp (translate : ℕ → Option ℕ) (slots count : ℕ) (tables : XhciDcbaa) :
    Prop where
  contexts : tables.deviceContexes.boxes.length = slots
  /-- The entry of a slot is the physical address of its context. -/
  context : ∀ i, 1 ≤ i → i ≤ slots → ∃ context physical,
    tables.deviceContexes.boxes[i - 1]? = some context ∧ tables.dcbaa.entries[i]? = some physical ∧
      translate context = some physical ∧ physical % 64 = 0
  contexts_ne : ∀ i j, 1 ≤ i → i < j → j ≤ slots →
    tables.dcbaa.entries[i]? ≠ tables.dcbaa.entries[j]?
  /-- There are as many scratchpads as the controller asks for. -/
  scratchpads : tables.scratchpads.boxes.length = count
  /-- The first entry is the physical address of the array of scratchpads. -/
  pointers : 0 < count → ∃ physical, translate tables.scratchpadPointers.ptr = some physical ∧
    tables.dcbaa.entries[0]? = some physical
  /-- The entries of this array are the physical addresses of frames. -/
  scratchpad : ∀ i < count, ∃ frame physical, tables.scratchpads.boxes[i]? = some frame ∧
    tables.scratchpadPointers.entries[i]? = some physical ∧ translate frame = some physical ∧
      physical % 0x1000 = 0
  scratchpads_ne : ∀ i j, i < j → j < count →
    tables.scratchpadPointers.entries[i]? ≠ tables.scratchpadPointers.entries[j]?
  /-- No two contexts or frames share a byte. -/
  apart : ((tables.deviceContexes.boxes.map fun context => (⟨context, 1024⟩ : Span)) ++
    tables.scratchpads.boxes.map fun frame => (⟨frame, 0x1000⟩ : Span)).Pairwise
      fun left right => Disjoint left.addresses right.addresses

theorem Pointed.set_zero {translate : ℕ → Option ℕ} {layout : Layout} {boxes : List ℕ}
    {entries : Vector ℕ 256} (pointed : Pointed translate layout 1 boxes entries) (address : ℕ) :
    Pointed translate layout 1 boxes (entries.set 0 address) := by
  intro k inside
  obtain ⟨box, physical, found, entry, rest⟩ := pointed k inside
  refine ⟨box, physical, found, ?_, rest⟩
  rw [← entry]
  exact Vector.getElem?_set_ne (by omega) (by omega)

/-- Boxes that were taken from the heap and are pointed to set everything up. -/
theorem XhciDcbaa.SetUp.of_pointed {translate : ℕ → Option ℕ} {heap heap' : KernelHeap}
    {after : XhciDcbaa} {slots count : ℕ} (ready : heap.Ready translate)
    (contexts : after.deviceContexes.boxes.length = slots)
    (pointed : Pointed translate XhciDeviceContext.layout 1 after.deviceContexes.boxes
      after.dcbaa.entries)
    (frames : after.scratchpads.boxes.length = count)
    (pointed_frames : Pointed translate frameLayout 0 after.scratchpads.boxes
      after.scratchpadPointers.entries)
    (pointers : 0 < count → ∃ physical, translate after.scratchpadPointers.ptr = some physical ∧
      after.dcbaa.entries[0]? = some physical)
    (takes : Takes heap ((after.deviceContexes.boxes.map fun context => ⟨context, 1024⟩) ++
      after.scratchpads.boxes.map fun frame => ⟨frame, 0x1000⟩) heap') :
    after.SetUp translate slots count := by
  have mapped : MappedMemory translate heap.free := ready.provisioned.mapped
  have takes_contexts := takes.sublist (List.sublist_append_left _ _)
  have takes_frames := takes.sublist (List.sublist_append_right _ _)
  refine ⟨contexts, fun i first last => ?_, fun i j first order last => ?_, frames, pointers,
    fun i inside => ?_, fun i j order last => ?_, takes.apart⟩
  · have place : 1 + (i - 1) = i := by omega
    have entry := pointed (i - 1) (by omega)
    rw [place] at entry
    exact entry
  · have place : 1 + (i - 1) = i := by omega
    have place' : 1 + (j - 1) = j := by omega
    have different := pointed.injective mapped deviceContext_modest.positive takes_contexts.inside
      takes_contexts.apart (by omega : i - 1 < j - 1) (by omega)
    rw [place, place'] at different
    exact different
  · have entry := pointed_frames i (frames ▸ inside)
    rw [Nat.zero_add] at entry
    exact entry
  · have different := pointed_frames.injective mapped frame_modest.positive takes_frames.inside
      takes_frames.apart order (frames ▸ last)
    rw [Nat.zero_add, Nat.zero_add] at different
    exact different

section Setup

variable {translate : ℕ → Option ℕ} {heap : KernelHeap} {layouts : List Layout} {tables : XhciDcbaa}
  {param1 : XhciStructuralParam1} {param2 : XhciStructuralParam2}

theorem BoxVec.new_reserveExact {capacity : ℕ} (positive : 0 < capacity) (small : capacity ≤ 2 ^ 16)
    (ready : heap.Ready translate)
    (provides : heap.Provides ((BoxVec.layout capacity).toList ++ layouts)) :
    ∃ ptr heap', BoxVec.new.reserveExact capacity heap = .ok (⟨ptr, capacity, []⟩, heap') ∧
      heap'.Ready translate ∧ Takes heap [⟨ptr, capacity * 24⟩] heap' ∧ heap'.Provides layouts := by
  obtain ⟨layout, array, size, align⟩ := BoxVec.layout_eq small
  rw [array] at provides
  obtain ⟨ptr, heap', allocated, -, nonnull, ready', takes, rest⟩ :=
    TreeAlloc.alloc_takes ⟨none, none⟩ ready ⟨by omega, by omega⟩ provides
  rw [size] at takes
  refine ⟨ptr, heap', ?_, ready', takes, rest⟩
  have full : ¬capacity ≤ BoxVec.new.capacity - BoxVec.new.boxes.length := Nat.not_le.mpr positive
  have length : BoxVec.new.boxes.length + capacity = capacity := Nat.zero_add _
  rw [BoxVec.reserveExact, if_neg full, length, BoxVec.growTo, array]
  dsimp only
  rw [allocated, ok_bind]
  dsimp only
  rw [if_neg nonnull.ne', if_pos (show BoxVec.new.capacity = 0 from rfl)]
  rfl

/-- The structure that `new` makes is fresh. -/
theorem XhciDcbaa.new_fresh {layout : Layout} (size : layout.size = 2048)
    (align : layout.align = 64) (ready : heap.Ready translate)
    (provides : heap.Provides (layout :: layout :: layouts)) :
    ∃ tables heap', XhciDcbaa.new heap = .ok (tables, heap') ∧ tables.Fresh translate ∧
      heap'.Ready translate ∧ heap'.Provides layouts := by
  have modest : layout.Modest := ⟨by omega, by omega⟩
  have divides : layout.align ∣ 0x1000 := by
    rw [align]
    decide
  obtain ⟨dcbaa, next, _, ⟨_, allocated⟩, mapped, -, readyNext, -, providesNext⟩ :=
    allocate_mapped ready modest divides provides
  obtain ⟨pointers, heap', _, ⟨_, allocated'⟩, mapped', -, ready', -, rest⟩ :=
    allocate_mapped readyNext modest divides providesNext
  have boxed := FrontEnd.newInAligned_ok allocated
  have boxed' := FrontEnd.newInAligned_ok allocated'
  rw [size, align] at boxed boxed'
  refine ⟨⟨⟨dcbaa, Vector.replicate 256 0⟩, .new, .new, ⟨pointers, Vector.replicate 256 0⟩⟩, heap',
    ?_, ⟨rfl, rfl, ?_, ?_⟩, ready', rest⟩
  · rw [XhciDcbaa.new, boxed, ok_bind]
    dsimp only
    rw [boxed', ok_bind]
  · rw [mapped, Option.isSome_some]
  · rw [mapped', Option.isSome_some]

/-- `new` succeeds and leaves enough memory when there is a free region of 9 MiB besides the two
arrays. -/
theorem XhciDcbaa.new_provides (param1 : XhciStructuralParam1) (param2 : XhciStructuralParam2)
    (ready : heap.Ready translate) {r : Region} (member : r ∈ regions heap.tree.root)
    (large : 0x901080 ≤ r.size) :
    ∃ tables heap', XhciDcbaa.new heap = .ok (tables, heap') ∧ tables.Fresh translate ∧
      heap'.Ready translate ∧ heap'.Provides
        (setupLayouts param1.maxDeviceSlots.toNat param2.getMaxScratchpadBuffer.toNat) := by
  have few : param1.maxDeviceSlots.toNat < 256 := param1.maxDeviceSlots.isLt
  have small := param2.getMaxScratchpadBuffer_lt
  let array : Layout := ⟨2048, 64, ⟨6, rfl⟩, by decide⟩
  have provides : heap.Provides (array :: array ::
      setupLayouts param1.maxDeviceSlots.toNat param2.getMaxScratchpadBuffer.toNat) := by
    refine provides_of_region ready.provisioned ready.present ?_ member ?_
    · intro layout member
      rcases List.mem_cons.mp member with rfl | member
      · exact ⟨by decide, by decide⟩
      rcases List.mem_cons.mp member with rfl | member
      · exact ⟨by decide, by decide⟩
      · exact setupLayouts_modest few small layout member
    · have arrays : array.size + array.align = 0x840 := rfl
      have bound := sum_setupLayouts_le few small
      rw [List.map_cons, List.map_cons, List.sum_cons, List.sum_cons, arrays]
      omega
  exact XhciDcbaa.new_fresh rfl rfl ready provides

theorem setupContexts_ok {slots : ℕ} (few : slots < 256) (ready : heap.Ready translate)
    (empty : tables.deviceContexes = .new)
    (provides : heap.Provides ((BoxVec.layout (slots + 1)).toList ++
      (List.replicate slots XhciDeviceContext.layout ++ layouts))) :
    ∃ buffer contexts entries heap', setupContexts slots tables heap = .ok ({ tables with
        dcbaa := ⟨tables.dcbaa.ptr, entries⟩, deviceContexes := ⟨buffer, slots + 1, contexts⟩ },
        heap') ∧
      contexts.length = slots ∧ Pointed translate XhciDeviceContext.layout 1 contexts entries ∧
      heap'.Ready translate ∧ Takes heap (contexts.map fun context => ⟨context, 1024⟩) heap' ∧
      heap'.Provides layouts := by
  obtain ⟨buffer, next, reserved, readyNext, takes, providesNext⟩ :=
    BoxVec.new_reserveExact (Nat.succ_pos slots) (by omega) ready provides
  have room : (⟨buffer, slots + 1, []⟩ : BoxVec).boxes.length + slots ≤ slots + 1 := by
    simp only [List.length_nil]
    omega
  obtain ⟨contexts, entries, heap', looped, length, pointed, -, ready', takes', rest⟩ :=
    @foldlM_stores translate next _ _ _ tables.dcbaa _ setupContext_stores 1 slots readyNext
      providesNext room (by omega)
  refine ⟨buffer, contexts, entries, heap', ?_, length, pointed, ready',
    (takes.trans takes').sublist (List.sublist_cons_self _ _), rest⟩
  rw [setupContexts, empty, reserved, ok_bind]
  dsimp only
  rw [looped, ok_bind, List.nil_append]

theorem setupScratchpads_ok {count : ℕ} (positive : 0 < count) (small : count ≤ 256)
    (ready : heap.Ready translate) (empty : tables.scratchpads = .new)
    (array : (translate tables.scratchpadPointers.ptr).isSome)
    (provides : heap.Provides ((BoxVec.layout count).toList ++
      (List.replicate count frameLayout ++ layouts))) :
    ∃ buffer frames entries physical heap', setupScratchpads count tables heap = .ok ({ tables with
        dcbaa := ⟨tables.dcbaa.ptr, tables.dcbaa.entries.set 0 physical⟩,
        scratchpads := ⟨buffer, count, frames⟩,
        scratchpadPointers := ⟨tables.scratchpadPointers.ptr, entries⟩ }, heap') ∧
      translate tables.scratchpadPointers.ptr = some physical ∧
      frames.length = count ∧ Pointed translate frameLayout 0 frames entries ∧
      Takes heap (frames.map fun frame => ⟨frame, 0x1000⟩) heap' := by
  obtain ⟨physical, mapped⟩ := Option.isSome_iff_exists.mp array
  obtain ⟨buffer, next, reserved, readyNext, takes, providesNext⟩ :=
    BoxVec.new_reserveExact positive (by omega) ready provides
  obtain ⟨frames, entries, heap', looped, length, pointed, -, ready', takes', -⟩ :=
    @foldlM_stores translate next _ _ ⟨buffer, count, []⟩ tables.scratchpadPointers _
      setupScratchpad_stores 0 count readyNext providesNext (Nat.zero_add count).le (by omega)
  refine ⟨buffer, frames, entries, physical, heap', ?_, mapped, length, pointed,
    (takes.trans takes').sublist (List.sublist_cons_self _ _)⟩
  rw [setupScratchpads, if_pos positive, empty, reserved, ok_bind]
  dsimp only
  rw [looped, ok_bind]
  dsimp only
  rw [toPhysicalAddr_of_some ready'.present mapped, ok_bind,
    PointerArray.set_of_lt (by omega : 0 < 256), ok_bind, List.nil_append]

theorem setupScratchpads_outOfBounds {count : ℕ} (many : 256 < count) (small : count ≤ 2 ^ 16)
    (ready : heap.Ready translate) (empty : tables.scratchpads = .new)
    (provides : heap.Provides ((BoxVec.layout count).toList ++
      (List.replicate count frameLayout ++ layouts))) :
    setupScratchpads count tables heap = .error .outOfBounds := by
  obtain ⟨buffer, next, reserved, readyNext, -, providesNext⟩ :=
    BoxVec.new_reserveExact (Nat.zero_lt_of_lt many) small ready provides
  rw [setupScratchpads, if_pos (Nat.zero_lt_of_lt many), empty, reserved, ok_bind]
  dsimp only
  have room : (⟨buffer, count, []⟩ : BoxVec).boxes.length + count ≤ count := (Nat.zero_add count).le
  rw [foldlM_outOfBounds many readyNext providesNext room, error_bind]

theorem setupDcbaa_setUp (ready : heap.Ready translate) (fresh : tables.Fresh translate)
    (small : param2.getMaxScratchpadBuffer.toNat ≤ 256)
    (enough : heap.Provides
      (setupLayouts param1.maxDeviceSlots.toNat param2.getMaxScratchpadBuffer.toNat)) :
    ∃ after heap', setupDcbaa param1 param2 tables heap = .ok (after, heap') ∧
      after.SetUp translate param1.maxDeviceSlots.toNat param2.getMaxScratchpadBuffer.toNat := by
  have few : param1.maxDeviceSlots.toNat < 256 := param1.maxDeviceSlots.isLt
  obtain ⟨buffer, contexts, entries, next, made, length, pointed, readyNext, takes, rest⟩ :=
    setupContexts_ok few ready fresh.deviceContexes enough
  rw [setupDcbaa, made, ok_bind]
  dsimp only
  rcases Nat.eq_zero_or_pos param2.getMaxScratchpadBuffer.toNat with none | positive
  · -- The scratchpads are left as they were.
    have takes' : Takes heap ((contexts.map fun context => ⟨context, 1024⟩) ++
        tables.scratchpads.boxes.map fun frame => ⟨frame, 0x1000⟩) next := by
      rw [fresh.scratchpads]
      exact (List.append_nil _).symm ▸ takes
    refine ⟨_, next, if_neg (Nat.not_lt.mpr none.le), .of_pointed ready length pointed ?_ ?_ ?_
      takes'⟩
    · rw [fresh.scratchpads, none]
      rfl
    · rw [fresh.scratchpads]
      intro k inside
      exact absurd inside (Nat.not_lt_zero k)
    · exact fun positive => absurd positive (by omega)
  · rw [if_pos positive] at rest
    obtain ⟨buffer', frames, entries', physical, heap', made', mapped, length', pointed',
      takes'⟩ := @setupScratchpads_ok translate next _ { tables with
        dcbaa := ⟨tables.dcbaa.ptr, entries⟩
        deviceContexes := ⟨buffer, param1.maxDeviceSlots.toNat + 1, contexts⟩ } _ positive small
        readyNext fresh.scratchpads fresh.scratchpadPointers rest
    refine ⟨_, heap', made', .of_pointed ready length (pointed.set_zero physical) length' pointed'
      (fun _ => ⟨physical, mapped, ?_⟩) (takes.trans takes')⟩
    exact Vector.getElem?_set_self (by omega)

theorem setupDcbaa_outOfBounds (ready : heap.Ready translate) (fresh : tables.Fresh translate)
    (many : 256 < param2.getMaxScratchpadBuffer.toNat)
    (enough : heap.Provides
      (setupLayouts param1.maxDeviceSlots.toNat param2.getMaxScratchpadBuffer.toNat)) :
    setupDcbaa param1 param2 tables heap = .error .outOfBounds := by
  have few : param1.maxDeviceSlots.toNat < 256 := param1.maxDeviceSlots.isLt
  have positive := Nat.zero_lt_of_lt many
  obtain ⟨buffer, contexts, entries, next, made, -, -, readyNext, -, rest⟩ :=
    setupContexts_ok few ready fresh.deviceContexes enough
  rw [if_pos positive] at rest
  rw [setupDcbaa, made, ok_bind]
  exact setupScratchpads_outOfBounds many param2.getMaxScratchpadBuffer.isLt.le readyNext
    fresh.scratchpads rest

end Setup

/-- The call returns when it finds the array of device contexts and can set up the memory. -/
theorem Driver.setupOpRegs_returns {setup : OpSetup} {physical : BitVec 64}
    (found : setup.dcbaa = some physical) (contexts : setup.contexts = .ok ()) :
    Returns (setupOpRegs setup) := by
  apply Returns.bind
  · apply Returns.modifyOp
    intro op
    rw [found, unwrap_some, ok_bind]
    exact ⟨_, rfl⟩
  intro _
  apply (Returns.panicking contexts).bind
  intro _
  apply Returns.modifyOp
  exact fun op => ⟨_, rfl⟩

/-- `setup_op_regs` returns with everything set up. -/
def SetupSucceeds (translate : ℕ → Option ℕ) (param1 : XhciStructuralParam1)
    (param2 : XhciStructuralParam2) (tables : XhciDcbaa) (heap : KernelHeap)
    (commandRing : XhciCommandRing) : Prop :=
  Driver.Returns (Driver.setupOpRegs (opSetup param1 param2 tables heap commandRing)) ∧
    ∃ after heap', setupDcbaa param1 param2 tables heap = .ok (after, heap') ∧
      after.SetUp translate param1.maxDeviceSlots.toNat param2.getMaxScratchpadBuffer.toNat

section Succeeds

variable {translate : ℕ → Option ℕ} {heap : KernelHeap} {tables : XhciDcbaa}
  {param1 : XhciStructuralParam1} {param2 : XhciStructuralParam2}

theorem not_setupSucceeds (ready : heap.Ready translate) (fresh : tables.Fresh translate)
    (many : 256 < param2.getMaxScratchpadBuffer.toNat)
    (enough : heap.Provides
      (setupLayouts param1.maxDeviceSlots.toNat param2.getMaxScratchpadBuffer.toNat))
    (commandRing : XhciCommandRing) :
    ¬SetupSucceeds translate param1 param2 tables heap commandRing := by
  rintro ⟨-, after, heap', made, -⟩
  rw [setupDcbaa_outOfBounds ready fresh many enough] at made
  cases made

/-- With enough memory, the call succeeds exactly when the controller asks for at most as many
scratchpads as there are entries. -/
theorem setupOpRegs_iff (ready : heap.Ready translate) (fresh : tables.Fresh translate)
    (enough : heap.Provides
      (setupLayouts param1.maxDeviceSlots.toNat param2.getMaxScratchpadBuffer.toNat))
    (commandRing : XhciCommandRing) :
    SetupSucceeds translate param1 param2 tables heap commandRing ↔
      param2.getMaxScratchpadBuffer.toNat ≤ 256 := by
  constructor
  · intro succeeds
    by_contra many
    exact not_setupSucceeds ready fresh (Nat.lt_of_not_le many) enough commandRing succeeds
  · intro small
    obtain ⟨after, heap', made, setUp⟩ := setupDcbaa_setUp ready fresh small enough
    refine ⟨?_, after, heap', made, setUp⟩
    obtain ⟨physical, mapped⟩ := Option.isSome_iff_exists.mp fresh.dcbaa
    have found : (opSetup param1 param2 tables heap commandRing).dcbaa =
        some (BitVec.ofNat 64 physical) := by
      simp only [opSetup, ready.present, mapped, Option.bind_eq_bind, Option.bind_some]
    have contexts : (opSetup param1 param2 tables heap commandRing).contexts = .ok () := by
      rw [opSetup, made, ok_bind]
    exact Driver.setupOpRegs_returns found contexts

end Succeeds

/-- Sixteen mebibytes. -/
def dmaArea : List Region := [⟨0x200000, 0x1000000⟩]

/-- A mapper that maps what is addressable to itself. -/
def identityMapper (a : ℕ) : Option ℕ := if a < 2 ^ 52 then some a else none

theorem identityMapper_mapped : MappedMemory identityMapper (Span.cover dmaArea) := by
  have below (a : ℕ) (member : a ∈ Span.cover dmaArea) : a < 2 ^ 52 := by
    obtain ⟨r, listed, -, upper⟩ := member
    obtain rfl := List.mem_singleton.mp listed
    exact lt_of_lt_of_le upper (by decide)
  refine ⟨fun a member => ⟨a, if_pos (below a member), below a member, rfl⟩, ?_⟩
  intro a first b second same
  rw [identityMapper, identityMapper, if_pos (below a first), if_pos (below b second)] at same
  exact Option.some.inj same

/-- After the boot, `new` leaves enough memory for every controller. -/
theorem exists_new (param1 : XhciStructuralParam1) (param2 : XhciStructuralParam2) :
    ∃ before tables heap, XhciDcbaa.new before = .ok (tables, heap) ∧
      tables.Fresh identityMapper ∧ heap.Ready identityMapper ∧ heap.Provides
        (setupLayouts param1.maxDeviceSlots.toNat param2.getMaxScratchpadBuffer.toNat) := by
  have executed : ((HeapState.boot sampleBump dmaArea).bind
      (Behaviour.run HeapState.attempt (fun _ _ => True) · [])).map HeapState.free =
      some dmaArea := by
    decide +kernel
  obtain ⟨s, reach, free⟩ := HeapState.exists_reach executed
  have separated : GapSeparated dmaArea := ⟨List.pairwise_singleton _ _, by decide⟩
  have nonnull : 0 ∉ Span.cover dmaArea := by
    rintro ⟨r, listed, lower, -⟩
    obtain rfl := List.mem_singleton.mp listed
    exact absurd lower (by decide)
  let before : KernelHeap := ⟨s.bump, s.alloc, ⟨some identityMapper, 0⟩, some .bit64⟩
  have ready : before.Ready identityMapper :=
    separated.ready nonnull (by decide) identityMapper_mapped reach.reachable rfl rfl rfl
  have member : (⟨0x200000, 0x1000000⟩ : Region) ∈ regions before.tree.root := by
    have listed : regions s.alloc.root = dmaArea := free
    rw [listed]
    exact List.mem_singleton_self _
  exact ⟨before, XhciDcbaa.new_provides param1 param2 ready member (by decide)⟩

/-- A controller with 255 device slots and 256 scratchpads. -/
theorem setupOpRegs_iff_full :
    ∃ tables heap, SetupSucceeds identityMapper ⟨255⟩ ⟨8 <<< 21⟩ tables heap
      (.initRing 0x3000) := by
  obtain ⟨-, tables, heap, -, fresh, ready, enough⟩ := exists_new ⟨255⟩ ⟨8 <<< 21⟩
  exact ⟨tables, heap, (setupOpRegs_iff ready fresh enough _).mpr (by decide)⟩

/-- With enough memory, a controller with more than 256 scratchpads still cannot be set up. -/
theorem exists_not_setupSucceeds (param1 : XhciStructuralParam1) {param2 : XhciStructuralParam2}
    (many : 256 < param2.getMaxScratchpadBuffer.toNat) (commandRing : XhciCommandRing) :
    ∃ before tables heap, XhciDcbaa.new before = .ok (tables, heap) ∧
      tables.Fresh identityMapper ∧ heap.Ready identityMapper ∧ heap.Provides
        (setupLayouts param1.maxDeviceSlots.toNat param2.getMaxScratchpadBuffer.toNat) ∧
      ¬SetupSucceeds identityMapper param1 param2 tables heap commandRing := by
  obtain ⟨before, tables, heap, made, fresh, ready, enough⟩ := exists_new param1 param2
  exact ⟨before, tables, heap, made, fresh, ready, enough,
    not_setupSucceeds ready fresh many enough commandRing⟩

/-- One scratchpad more makes the call panic. -/
theorem setupOpRegs_outOfBounds :
    ¬∀ (translate : ℕ → Option ℕ) (before heap : KernelHeap) (tables : XhciDcbaa)
      (param1 : XhciStructuralParam1) (param2 : XhciStructuralParam2)
      (commandRing : XhciCommandRing), XhciDcbaa.new before = .ok (tables, heap) →
      tables.Fresh translate → heap.Ready translate → heap.Provides
        (setupLayouts param1.maxDeviceSlots.toNat param2.getMaxScratchpadBuffer.toNat) →
      SetupSucceeds translate param1 param2 tables heap commandRing := by
  intro always
  obtain ⟨before, tables, heap, made, fresh, ready, enough, fails⟩ :=
    @exists_not_setupSucceeds ⟨255⟩ ⟨8 <<< 21 ||| 1 <<< 27⟩ (by decide) (.initRing 0x3000)
  exact fails (always _ before heap tables _ _ _ made fresh ready enough)

end Blubos
