import Blubos.Allocator.BumpAlloc
import Blubos.Foundation.LeaningTree

/-!
# The tree allocator

`tree_alloc.rs`: free regions in a left-leaning red-black tree ordered by base address, each node
carrying the largest size in its subtree.  A `none` from the tree code is an `unwrap` of an absent
child.  Two ghost fields of the allocator record which boxes came from the bump heap and which
nodes, with their children at that moment, were handed to `free_node`.
-/

namespace Blubos

/-- `Region` of `allocator.rs`. -/
abbrev Region := Span

/-- `TreeRegion` apart from its colour and links, which the tree node holds, together with the
address of the box it lives in. -/
structure TreeRegion extends Span where
  /-- Address of the box. -/
  box : ℕ
  maxSize : ℕ
deriving DecidableEq, Repr

/-- `Option<NodeBox>`. -/
abbrev Link := Tree TreeRegion

/-- Size and alignment of a boxed `TreeRegion`: three words, a colour and two boxes with their
allocator reference. -/
def TreeRegion.layout : Layout where
  size := 64
  align := 8
  power := ⟨3, rfl⟩
  fits := by decide

/-- `update_max_size`. -/
def updateMaxSize (l : Link) (n : TreeRegion) (r : Link) : TreeRegion :=
  let max := n.size
  let max := match l with
    | .nil => max
    | .node _ _ child _ => Nat.max max child.maxSize
  let max := match r with
    | .nil => max
    | .node _ _ child _ => Nat.max max child.maxSize
  { n with maxSize := max }

/-- The derived data of the allocator's nodes. -/
def maxSizeRule : Tree.Augment TreeRegion where
  refresh := updateMaxSize
  refresh_idem _ _ _ := rfl
  refresh_paint _ _ l _ r := by cases l <;> cases r <;> rfl

/-- `rotate_left`. -/
def rotateLeft : Link → Option Link := Tree.rotateLeft maxSizeRule

/-- `rotate_right`. -/
def rotateRight : Link → Option Link := Tree.rotateRight maxSizeRule

/-- `move_red_left` when the left child is a black 2-node, as `delete_min` and `delete` guard it. -/
def prepareLeft : Link → Option Link := Tree.prepareLeft maxSizeRule

/-- `move_red_right` when the right child is a black 2-node, as `delete` guards it. -/
def prepareRight : Link → Option Link := Tree.prepareRight maxSizeRule

/-- `fix_up`. -/
def fixUp : Link → Option Link := Tree.fixUp maxSizeRule

def Link.base : Link → ℕ
  | .nil => 0
  | .node _ _ n _ => n.base

/-- `insert_node`. -/
def insertNode (node : Link) : Link → Option Link
  | .nil => some node
  | .node color l n r => do
      let h ← (if node.base < n.base then do
          let l ← insertNode node l
          some (.node color l n r)
        else do
          let r ← insertNode node r
          some (.node color l n r))
      Tree.insertUp maxSizeRule h

/-- `min_node`. -/
def minNode : Link → Option TreeRegion
  | .nil => none
  | .node _ .nil n _ => some n
  | .node _ l _ _ => minNode l

/-- What a caller of `alloc` asks for. -/
structure Request where
  /-- Bytes wanted. -/
  size : ℕ
  align : ℕ
  power : align.isPowerOfTwo
  /-- Highest physical end address. -/
  maxAddress : Option ℕ
  /-- Size of the aligned window the block must not leave. -/
  boundary : Option ℕ
deriving DecidableEq, Repr

/-- `RBTreeAlloc`. -/
structure RBTreeAlloc where
  root : Link
  freelist : Link
  /-- Ghost: boxes taken from the bump heap. -/
  taken : List ℕ
  /-- Ghost: nodes handed to `free_node`, as they were then. -/
  handed : List Link
deriving DecidableEq, Repr

namespace RBTreeAlloc

/-- `RBTreeAlloc::new`. -/
def new : RBTreeAlloc := ⟨.nil, .nil, [], []⟩

/-- `alloc_node`. -/
def allocNode (self : RBTreeAlloc) (bump : BumpHeap) (base size : ℕ) :
    Except Fault (Link × RBTreeAlloc × BumpHeap) :=
  match self.freelist with
  | .node _ next node _ =>
      let node := { node with base := base, size := size, maxSize := size }
      .ok (.node .red .nil node .nil, { self with freelist := next }, bump)
  | .nil => do
      let (box, bump) ← BumpAlloc.boxNewIn bump TreeRegion.layout
      let node := { base := base, size := size, box := box, maxSize := size }
      .ok (.node .red .nil node .nil, { self with taken := box :: self.taken }, bump)

/-- `free_node`. -/
def freeNode (self : RBTreeAlloc) : Link → RBTreeAlloc
  | .nil => self
  | .node color l node r =>
      { self with
        freelist := .node color self.freelist node .nil
        handed := .node color l node r :: self.handed }

/-- `insert`. -/
def insert (self : RBTreeAlloc) (bump : BumpHeap) (region : Region) :
    Except Fault (RBTreeAlloc × BumpHeap) :=
  if region.size = 0 then
    .ok (self, bump)
  else do
    let (node, self, bump) ← self.allocNode bump region.base region.size
    let root ← unwrap (insertNode node self.root)
    .ok ({ self with root := root.paint .black }, bump)

/-- The loop of `TreeAlloc::init` that inserts the heap areas. -/
def insertAll (self : RBTreeAlloc) (bump : BumpHeap) :
    List Region → Except Fault (RBTreeAlloc × BumpHeap)
  | [] => .ok (self, bump)
  | region :: areas => do
      let (self, bump) ← self.insert bump region
      insertAll self bump areas

/-- `delete_min`, recursing at most `depth` levels. -/
def deleteMin : ℕ → RBTreeAlloc → Link → Option (Link × RBTreeAlloc)
  | 0, _, _ => none
  | _ + 1, _, .nil => none
  | depth + 1, self, .node color l n r =>
      if l.isNil then
        some (.nil, self.freeNode (.node color l n r))
      else
        match prepareLeft (.node color l n r) with
        | some (.node color l n r) => do
            let (l, self) ← deleteMin depth self l
            let h ← fixUp (.node color l n r)
            some (h, self)
        | _ => none

/-- `delete`, recursing at most `depth` levels. -/
def delete : ℕ → RBTreeAlloc → Link → ℕ → Option (Link × RBTreeAlloc)
  | 0, _, _, _ => none
  | _ + 1, self, .nil, _ => some (.nil, self)
  | depth + 1, self, .node color l n r, key =>
      if key < n.base then
        if l.isNil then do
          let h ← fixUp (.node color l n r)
          some (h, self)
        else
          match prepareLeft (.node color l n r) with
          | some (.node color l n r) => do
              let (l, self) ← delete depth self l key
              let h ← fixUp (.node color l n r)
              some (h, self)
          | _ => none
      else do
        let h ← (if l.isRed then rotateRight (.node color l n r) else some (.node color l n r))
        if key = Link.base h && h.right.isNil then
          some (.nil, self.freeNode h)
        else if h.right.isNil then do
          let h ← fixUp h
          some (h, self)
        else
          match prepareRight h with
          | some (.node color l n r) =>
              if key = n.base then do
                let min ← minNode r
                let (r, self) ← deleteMin depth self r
                let h ← fixUp (.node color l { n with base := min.base, size := min.size } r)
                some (h, self)
              else do
                let (r, self) ← delete depth self r key
                let h ← fixUp (.node color l n r)
                some (h, self)
          | _ => none

/-- `self.root = self.delete(self.root.take(), key)`. -/
def deleteRoot (self : RBTreeAlloc) (key : ℕ) : Except Fault RBTreeAlloc := do
  let (root, self) ← unwrap (delete (self.root.count + 1) self self.root key)
  .ok { self with root := root }

/-- `predecessor`: the last region met on the way down whose base is below the address. -/
def predecessor (addr : ℕ) : Link → Option TreeRegion → Option TreeRegion
  | .nil, pred => pred
  | .node _ l n r, pred =>
      if n.base < addr then predecessor addr r (some n) else predecessor addr l pred

/-- `successor`: the last region met on the way down whose base is not below the address. -/
def successor (addr : ℕ) : Link → Option TreeRegion → Option TreeRegion
  | .nil, succ => succ
  | .node _ l n r, succ =>
      if addr ≤ n.base then successor addr l (some n) else successor addr r succ

/-- The extent being assembled by `free`, with the key of the region it absorbed last. -/
structure Extent where
  /-- `new_base`. -/
  base : ℕ
  /-- `new_size`. -/
  size : ℕ
  /-- `pred_key` or `succ_key`. -/
  key : Option ℕ
deriving DecidableEq, Repr

/-- The predecessor part of `free`.  The base is overwritten before the new size is computed from
it. -/
def mergePredecessor (self : RBTreeAlloc) (base size : ℕ) : Except Fault Extent :=
  match predecessor base self.root none with
  | none => .ok ⟨base, size, none⟩
  | some p => do
      let pEnd ← Usize.add p.base p.size
      if base ≤ pEnd then do
        let newBase := p.base
        let reach ← Usize.add newBase size
        let newSize ← Usize.sub (max reach pEnd) newBase
        .ok ⟨newBase, newSize, some p.base⟩
      else
        .ok ⟨base, size, none⟩

/-- The successor part of `free`, looking up the freed address and extending what the predecessor
part left. -/
def mergeSuccessor (self : RBTreeAlloc) (base : ℕ) (extent : Extent) : Except Fault Extent :=
  match successor base self.root none with
  | none => .ok ⟨extent.base, extent.size, none⟩
  | some s => do
      let reach ← Usize.add extent.base extent.size
      if s.base ≤ reach then do
        let sEnd ← Usize.add s.base s.size
        let newSize ← Usize.sub sEnd extent.base
        .ok ⟨extent.base, newSize, some s.base⟩
      else
        .ok ⟨extent.base, extent.size, none⟩

/-- `if let Some(key) = key { self.root = self.delete(..) }`. -/
def deleteKey (self : RBTreeAlloc) : Option ℕ → Except Fault RBTreeAlloc
  | none => .ok self
  | some key => self.deleteRoot key

/-- `free`. -/
def free (self : RBTreeAlloc) (bump : BumpHeap) (base size : ℕ) :
    Except Fault (RBTreeAlloc × BumpHeap) := do
  let left ← self.mergePredecessor base size
  let whole ← self.mergeSuccessor base left
  let self ← self.deleteKey left.key
  let self ← self.deleteKey whole.key
  self.insert bump ⟨whole.base, whole.size⟩

/-- The subtree exists and advertises room for the size. -/
def hasRoom (size : ℕ) : Link → Bool
  | .nil => false
  | .node _ _ n _ => size ≤ n.maxSize

/-- The boundary test of `alloc_rec`. -/
def insideBoundary (aligned size : ℕ) : Option ℕ → Except Fault Bool
  | none => .ok true
  | some boundary => do
      let low ← Usize.sub boundary 1
      let stop ← Usize.add aligned size
      let last ← Usize.sub stop 1
      .ok (aligned &&& Usize.not low == last &&& Usize.not low)

/-- The part of `alloc_rec` that tries the range of one node: the shrunk node and the address. -/
def allocHereWith (map : AddressMap) (size align maxAddress : ℕ) (boundary : Option ℕ)
    (n : TreeRegion) : Except Fault (Option (TreeRegion × ℕ)) := do
  let low ← Usize.sub align 1
  let raised ← Usize.add n.base low
  let aligned := raised &&& Usize.not low
  let adj ← Usize.sub aligned n.base
  let consumed ← Usize.add adj size
  if consumed ≤ n.size then do
    let physical ← map.toPhysicalAddr aligned
    let physicalEnd ← Usize.add physical size
    if physicalEnd ≤ maxAddress then do
      let inside ← insideBoundary aligned size boundary
      if inside then do
        let newBase ← Usize.add n.base consumed
        let newSize ← Usize.sub n.size consumed
        .ok (some ({ n with base := newBase, size := newSize }, aligned))
      else
        .ok none
    else
      .ok none
  else
    .ok none

/-- `alloc_rec`.  Every return path of the source recomputes `max_size` last, so the recomputations
before a failed search goes on are not repeated here. -/
def allocRecWith (map : AddressMap) (size align : ℕ) (maxAddress boundary : Option ℕ) :
    Link → Except Fault (Link × Option ℕ)
  | .nil => .ok (.nil, none)
  | .node color l n r => do
      let limit := maxAddress.getD Usize.max
      let (l, out) ← (if hasRoom size l then allocRecWith map size align maxAddress boundary l
        else .ok (l, none))
      if out.isSome then
        .ok (.node color l (updateMaxSize l n r) r, out)
      else
        match ← allocHereWith map size align limit boundary n with
        | some (n, aligned) => .ok (.node color l (updateMaxSize l n r) r, some aligned)
        | none => do
            let (r, out) ← (if hasRoom size r then allocRecWith map size align maxAddress boundary r
              else .ok (r, none))
            .ok (.node color l (updateMaxSize l n r) r, out)

/-- `alloc`. -/
def allocWith (self : RBTreeAlloc) (map : AddressMap) (size align : ℕ)
    (maxAddress boundary : Option ℕ) : Except Fault (Option ℕ × RBTreeAlloc) := do
  let (root, out) ← allocRecWith map size align maxAddress boundary self.root
  .ok (out, { self with root := root.paint .black })

/-! The same for a request, whose alignment is a power of two, as every caller promises. -/

def allocHere (map : AddressMap) (request : Request) (maxAddress : ℕ) (n : TreeRegion) :
    Except Fault (Option (TreeRegion × ℕ)) :=
  allocHereWith map request.size request.align maxAddress request.boundary n

def allocRec (map : AddressMap) (request : Request) (tree : Link) :
    Except Fault (Link × Option ℕ) :=
  allocRecWith map request.size request.align request.maxAddress request.boundary tree

def alloc (self : RBTreeAlloc) (map : AddressMap) (request : Request) :
    Except Fault (Option ℕ × RBTreeAlloc) :=
  self.allocWith map request.size request.align request.maxAddress request.boundary

variable {map : AddressMap} {request : Request}

@[simp] theorem allocRec_nil : allocRec map request .nil = .ok (.nil, none) := rfl

theorem allocRec_node (color : Color) (l : Link) (n : TreeRegion) (r : Link) :
    allocRec map request (.node color l n r) = (do
      let (l, out) ← (if hasRoom request.size l then allocRec map request l else .ok (l, none))
      if out.isSome then
        .ok (.node color l (updateMaxSize l n r) r, out)
      else
        match ← allocHere map request (request.maxAddress.getD Usize.max) n with
        | some (n, aligned) => .ok (.node color l (updateMaxSize l n r) r, some aligned)
        | none => do
            let (r, out) ←
              (if hasRoom request.size r then allocRec map request r else .ok (r, none))
            .ok (.node color l (updateMaxSize l n r) r, out)) := rfl

theorem alloc_eq (self : RBTreeAlloc) : self.alloc map request = (do
      let (root, out) ← allocRec map request self.root
      .ok (out, { self with root := root.paint .black })) := rfl

end RBTreeAlloc

end Blubos
