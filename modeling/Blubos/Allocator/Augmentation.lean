import Blubos.Allocator.Sizes
import Mathlib.Order.Bounds.Basic

/-!
# The largest size of every subtree

What `max_size` is for: at every node it is the largest size in the subtree, whatever the colours,
the shape and the order of the bases.  Every operation that rebuilds a tree keeps this, and so does
every sequence of `insert`, `alloc` and `free`, with any arguments.
-/

namespace Blubos

/-- The sizes of the regions of a tree. -/
def sizes (tree : Link) : Set ℕ := {size | ∃ r ∈ regions tree, r.size = size}

/-- The `max_size` of every node is the largest size in its subtree. -/
def Augmented : Link → Prop
  | .nil => True
  | .node color l n r =>
      IsGreatest (sizes (.node color l n r)) n.maxSize ∧ Augmented l ∧ Augmented r

@[simp] theorem sizes_nil : sizes .nil = ∅ := by
  simp [sizes]

theorem sizes_node (color : Color) (l : Link) (n : TreeRegion) (r : Link) :
    sizes (.node color l n r) = insert n.size (sizes l ∪ sizes r) := by
  ext size
  simp only [sizes, regions_node, List.mem_append, List.mem_cons, Set.mem_ofPred_eq,
    Set.mem_insert_iff, Set.mem_union]
  constructor
  · rintro ⟨s, member | rfl | member, rfl⟩
    · exact .inr (.inl ⟨s, member, rfl⟩)
    · exact .inl rfl
    · exact .inr (.inr ⟨s, member, rfl⟩)
  · rintro (rfl | ⟨s, member, rfl⟩ | ⟨s, member, rfl⟩)
    · exact ⟨n.toSpan, .inr (.inl rfl), rfl⟩
    · exact ⟨s, .inl member, rfl⟩
    · exact ⟨s, .inr (.inr member), rfl⟩

/-- The recomputed `max_size` is the largest size when those of the children are. -/
theorem updateMaxSize_greatest {l r : Link} (color : Color) (n : TreeRegion)
    (left : Augmented l) (right : Augmented r) :
    IsGreatest (sizes (.node color l n r)) (updateMaxSize l n r).maxSize := by
  rw [sizes_node]
  cases l with
  | nil =>
      rw [sizes_nil, Set.empty_union]
      cases r with
      | nil => simp [updateMaxSize]
      | node _ _ child _ => exact right.1.insert n.size
  | node _ _ child _ =>
      have upper := left.1.insert n.size
      cases r with
      | nil =>
          rw [sizes_nil, Set.union_empty]
          exact upper
      | node _ _ child' _ =>
          rw [← Set.insert_union]
          exact upper.union right.1

/-- Recomputing every `max_size` changes nothing exactly when every one is the largest size. -/
theorem augmented_iff {tree : Link} : Augmented tree ↔ MaxSizesExact tree := by
  induction tree with
  | nil => exact Iff.rfl
  | node color l n r ihl ihr =>
      constructor
      · rintro ⟨greatest, left, right⟩
        refine ⟨?_, ihl.mp left, ihr.mp right⟩
        have same := (updateMaxSize_greatest color n left right).unique greatest
        change { n with maxSize := (updateMaxSize l n r).maxSize } = n
        rw [same]
      · rintro ⟨current, exactLeft, exactRight⟩
        have left := ihl.mpr exactLeft
        have right := ihr.mpr exactRight
        have greatest := updateMaxSize_greatest color n left right
        have fresh : updateMaxSize l n r = n := current
        rw [fresh] at greatest
        exact ⟨greatest, left, right⟩

/-- `move_red_left`. -/
def moveRedLeft : Link → Option Link := Tree.moveRedLeft maxSizeRule

/-- `move_red_right`. -/
def moveRedRight : Link → Option Link := Tree.moveRedRight maxSizeRule

/-- A call that takes a tree and returns one; a call that panics returns none. -/
inductive Rebuilds (tree tree' : Link) : Prop
  /-- The fresh node has no children and its own size as its `max_size`. -/
  | insertNode (color : Color) (region : Region) (box : ℕ) :
      insertNode (.node color .nil ⟨region, box, region.size⟩ .nil) tree = some tree' →
      Rebuilds tree tree'
  | delete (depth key : ℕ) (self self' : RBTreeAlloc) :
      RBTreeAlloc.delete depth self tree key = some (tree', self') → Rebuilds tree tree'
  | deleteMin (depth : ℕ) (self self' : RBTreeAlloc) :
      RBTreeAlloc.deleteMin depth self tree = some (tree', self') → Rebuilds tree tree'
  | allocRec (map : AddressMap) (size align : ℕ) (maxAddress boundary out : Option ℕ) :
      RBTreeAlloc.allocRecWith map size align maxAddress boundary tree = .ok (tree', out) →
      Rebuilds tree tree'
  | rotateLeft : rotateLeft tree = some tree' → Rebuilds tree tree'
  | rotateRight : rotateRight tree = some tree' → Rebuilds tree tree'
  | moveRedLeft : moveRedLeft tree = some tree' → Rebuilds tree tree'
  | moveRedRight : moveRedRight tree = some tree' → Rebuilds tree tree'
  | fixUp : fixUp tree = some tree' → Rebuilds tree tree'

theorem Rebuilds.augmented {tree tree' : Link} (rebuilds : Rebuilds tree tree')
    (augmented : Augmented tree) : Augmented tree' := by
  rw [augmented_iff] at augmented ⊢
  cases rebuilds with
  | insertNode color region box step => exact insertNode_exact rfl augmented step
  | delete depth key self self' step => exact delete_exact augmented step
  | deleteMin depth self self' step => exact deleteMin_exact augmented step
  | allocRec map size align maxAddress boundary out step => exact allocRecWith_exact augmented step
  | rotateLeft step => exact Tree.fresh_rotateLeft augmented.left augmented.right step
  | rotateRight step => exact Tree.fresh_rotateRight augmented.left augmented.right step
  | moveRedLeft step => exact Tree.fresh_moveRedLeft augmented step
  | moveRedRight step => exact Tree.fresh_moveRedRight augmented step
  | fixUp step => exact Tree.fresh_fixUp augmented.left augmented.right step

/-- The allocator and the bump heap that its nodes come from. -/
structure TreeState where
  /-- `TREE_ALLOCATOR_DATA`. -/
  alloc : RBTreeAlloc
  bump : BumpHeap

/-- A call of the allocator, of which nobody promises anything. -/
inductive TreeCall where
  | insert (region : Region)
  | alloc (map : AddressMap) (size align : ℕ) (maxAddress boundary : Option ℕ)
  | free (base size : ℕ)

def TreeState.perform (s : TreeState) : TreeCall → Except Fault TreeState
  | .insert region => do
      let (alloc, bump) ← s.alloc.insert s.bump region
      .ok ⟨alloc, bump⟩
  | .alloc map size align maxAddress boundary => do
      let (_, alloc) ← s.alloc.allocWith map size align maxAddress boundary
      .ok ⟨alloc, s.bump⟩
  | .free base size => do
      let (alloc, bump) ← s.alloc.free s.bump base size
      .ok ⟨alloc, bump⟩

def treeSystem : Behaviour TreeState TreeCall where
  initial s := s.alloc = .new
  step s call s' := s.perform call = .ok s'

theorem TreeState.perform_exact {s s' : TreeState} {call : TreeCall}
    (exact : MaxSizesExact s.alloc.root) (step : s.perform call = .ok s') :
    MaxSizesExact s'.alloc.root := by
  cases call with
  | insert region =>
      simp only [perform, bind_eq_ok, Except.ok.injEq, Prod.exists] at step
      obtain ⟨alloc, bump, inserted, rfl⟩ := step
      exact insert_exact exact inserted
  | alloc map size align maxAddress boundary =>
      simp only [perform, RBTreeAlloc.allocWith, bind_eq_ok, Except.ok.injEq, Prod.exists,
        Prod.mk.injEq] at step
      obtain ⟨_, alloc, ⟨tree, out, searched, rfl, rfl⟩, rfl⟩ := step
      exact Tree.fresh_paint .black (allocRecWith_exact exact searched)
  | free base size =>
      simp only [perform, bind_eq_ok, Except.ok.injEq, Prod.exists] at step
      obtain ⟨alloc, bump, freed, rfl⟩ := step
      exact @free_exact _ _ _ _ ⟨base, size⟩ exact freed

/-- The largest sizes are kept by every operation on a tree and by every run. -/
theorem augmented_kept :
    (∀ tree tree', Augmented tree → Rebuilds tree tree' → Augmented tree') ∧
      ∀ s, treeSystem.Reachable s → Augmented s.alloc.root := by
  constructor
  · exact fun _ _ augmented rebuilds => rebuilds.augmented augmented
  · intro s reach
    rw [augmented_iff]
    refine @Behaviour.Reach.invariant _ _ _ _ (fun s => MaxSizesExact s.alloc.root) ?_ ?_ s reach
    · rintro s empty
      rw [empty]
      trivial
    · exact fun _ _ _ exact _ step => TreeState.perform_exact exact step

/-- A small region with a larger one to its right. -/
def leaningRight : Link :=
  .node .black .nil ⟨⟨0x1000, 0x100⟩, 0x8000, 0x200⟩
    (.node .red .nil ⟨⟨0x2000, 0x200⟩, 0x8040, 0x200⟩ .nil)

/-- The same regions after a rotation. -/
def leaningLeft : Link :=
  .node .black (.node .red .nil ⟨⟨0x1000, 0x100⟩, 0x8000, 0x100⟩ .nil)
    ⟨⟨0x2000, 0x200⟩, 0x8040, 0x200⟩ .nil

theorem augmented_kept_rotation : Augmented leaningLeft :=
  augmented_kept.1 leaningRight leaningLeft
    (augmented_iff.mpr ⟨rfl, trivial, rfl, trivial, trivial⟩) (.rotateLeft rfl)

end Blubos
