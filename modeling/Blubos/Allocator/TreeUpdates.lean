import Blubos.Allocator.Intact

/-!
# One deletion, one insertion

What `delete` and `insert` do to a single tree, from any tree that `free` can meet: it neither
reddens the root before a deletion nor blackens it afterwards, so the root may be red above a red
left child.
-/

namespace Blubos

open Blubos.Tree (LeftLeaning RootLeaning)

/-- The regions are in order and no two of them share a base. -/
def Ascending (spans : List Region) : Prop :=
  spans.Pairwise fun left right => left.base < right.base

instance (spans : List Region) : Decidable (Ascending spans) :=
  inferInstanceAs (Decidable (spans.Pairwise _))

namespace Ascending

variable {spans before after : List Region} {span : Region}

theorem sorted (ascending : Ascending spans) : Sorted spans := ascending.imp fun order => order.le

theorem keySorted (ascending : Ascending spans) (key : ℕ) : KeySorted key spans :=
  ascending.imp fun order => ⟨order.le, fun hit => by omega⟩

theorem remove (ascending : Ascending (before ++ span :: after)) : Ascending (before ++ after) :=
  (Span.pairwise_middle.mp ascending).1

theorem insert (ascending : Ascending (before ++ after)) (small : ∀ r ∈ before, r.base < span.base)
    (large : ∀ r ∈ after, span.base < r.base) : Ascending (before ++ span :: after) :=
  Span.pairwise_middle.mpr ⟨ascending, small, large⟩

end Ascending

/-- What a deletion leaves: the regions without the one it removes, a tree of the same kind, and one
more node on the freelist. -/
structure Removed (self self' : RBTreeAlloc) (key : ℕ) : Prop where
  /-- Exactly the region of the key is gone. -/
  regions : ∃ before x after, regions self.root = before ++ x :: after ∧ x.base = key ∧
    regions self'.root = before ++ after
  ascending : Ascending (Blubos.regions self'.root)
  /-- The tree is balanced again; its root may be red above a red left child. -/
  leaning : ∃ n, RootLeaning n self'.root
  /-- One node, without a child, was handed to `free_node` and heads the freelist. -/
  recycled : ∃ color node, self'.handed = .node color .nil node .nil :: self.handed ∧
    self'.freelist = .node color self.freelist node .nil ∧
    (boxes self.root).Perm (node.box :: boxes self'.root)

/-- `delete` of a base that is in the tree returns and removes just its region. -/
theorem deleteRoot_removes {self : RBTreeAlloc} {n key : ℕ} (leaning : RootLeaning n self.root)
    (ascending : Ascending (regions self.root)) (present : ∃ x ∈ regions self.root, x.base = key) :
    ∃ self', self.deleteRoot key = .ok self' ∧ Removed self self' key := by
  obtain ⟨x, member, hit⟩ := present
  obtain ⟨before, after, split⟩ := List.append_of_mem member
  obtain ⟨tree, freed, m, returned, leaning', moved, removed⟩ :=
    deleteRoot_balanced leaning (ascending.keySorted key)
  have left := removed before x after split hit
  refine ⟨_, returned, ⟨before, x, after, split, hit, left⟩, ?_, ⟨m, leaning'⟩, ?_⟩
  · show Ascending (regions tree)
    rw [left]
    rw [split] at ascending
    exact ascending.remove
  · -- A region went missing, so a node was recycled.
    cases freed with
    | none =>
        have counted : (regions self.root).length = (regions tree).length := by
          simpa [freedBox] using moved.length_eq
        rw [split, left] at counted
        simp at counted
    | some freed => exact ⟨freed.1, freed.2, rfl, rfl, moved⟩

/-- What an insertion leaves: the regions with the new one in its place and a balanced tree with a
black root. -/
structure Placed (self self' : RBTreeAlloc) (region : Region) : Prop where
  /-- The region is inserted between smaller and larger bases. -/
  regions : ∃ before after, regions self.root = before ++ after ∧
    regions self'.root = before ++ region :: after
  ascending : Ascending (Blubos.regions self'.root)
  black : self'.root.isRed = false
  leaning : ∃ n, LeftLeaning n self'.root

/-- The head of the freelist was inserted as a red leaf with the region, and nothing else of it
remains but its box. -/
def Reused (self self' : RBTreeAlloc) (region : Region) : Prop :=
  ∀ color next head r, self.freelist = .node color next head r →
    self'.freelist = next ∧ self'.taken = self.taken ∧ ∃ tree,
      insertNode (.node .red .nil ⟨region, head.box, region.size⟩ .nil) self.root = some tree ∧
        self'.root = tree.paint .black

theorem isRed_paint_black (tree : Link) : (tree.paint .black).isRed = false := by
  cases tree <;> rfl

section Insertion

variable {self : RBTreeAlloc} {n : ℕ} {region : Region}

theorem insertNode_places (leaning : RootLeaning n self.root)
    (ascending : Ascending (regions self.root))
    (absent : ∀ r ∈ regions self.root, r.base ≠ region.base)
    (item : TreeRegion) (same : item.toSpan = region) :
    ∃ tree, insertNode (.node .red .nil item .nil) self.root = some tree ∧
      ∀ self' : RBTreeAlloc, self'.root = tree.paint .black → Placed self self' region := by
  obtain ⟨tree, m, inserted, leaning'⟩ := insertNode_root item leaning
  refine ⟨tree, inserted, fun self' root => ?_⟩
  obtain ⟨before, after, split, joined, placed⟩ := regions_insertNode inserted
  obtain ⟨small, large⟩ := placed ascending.sorted
  rw [same] at joined
  have whole : regions self'.root = before ++ region :: after := by rw [root, regions_paint, joined]
  have base : item.base = region.base := congrArg Span.base same
  refine ⟨⟨before, after, split, whole⟩, ?_, ?_, ?_⟩
  · rw [whole]
    rw [split] at ascending
    refine ascending.insert (fun r member => ?_) fun r member => ?_
    · have other := absent r (by simp [split, member])
      have order := small r member
      omega
    · have order := large r member
      omega
  · rw [root]
    exact isRed_paint_black tree
  · rw [root]
    exact leaning'.paint_black

/-- `insert` of a region with a new base puts it in its place and reuses the head of the freelist;
it fails only without a freelist, when the bump heap has no node. -/
theorem insert_places (leaning : RootLeaning n self.root)
    (ascending : Ascending (regions self.root))
    (positive : 0 < region.size) (absent : ∀ r ∈ regions self.root, r.base ≠ region.base)
    (bump : BumpHeap) :
    (∃ self' bump', self.insert bump region = .ok (self', bump') ∧ Placed self self' region ∧
        Reused self self' region) ∨
      (self.freelist = .nil ∧ ∃ fault, self.insert bump region = .error fault ∧
        BumpAlloc.boxNewIn bump TreeRegion.layout = .error fault) := by
  have occupied : region.size ≠ 0 := positive.ne'
  rcases allocNode_cases self bump region.base region.size with
    ⟨color, next, head, r, freelist, allocated⟩ |
    ⟨freelist, ⟨box, bump', -, allocated⟩ | ⟨fault, failed, allocated⟩⟩
  · obtain ⟨tree, inserted, places⟩ :=
      insertNode_places leaning ascending absent ⟨region, head.box, region.size⟩ rfl
    refine .inl ⟨{ self with root := tree.paint .black, freelist := next }, bump, ?_,
      places _ rfl, ?_⟩
    · rw [RBTreeAlloc.insert, if_neg occupied, allocated, ok_bind]
      simp only [inserted]
      rfl
    · intro color' next' head' r' same
      obtain ⟨-, rfl, rfl, -⟩ := Tree.node.inj (freelist.symm.trans same)
      exact ⟨rfl, rfl, tree, inserted, rfl⟩
  · obtain ⟨tree, inserted, places⟩ :=
      insertNode_places leaning ascending absent ⟨region, box, region.size⟩ rfl
    refine .inl ⟨{ self with root := tree.paint .black, taken := box :: self.taken }, bump', ?_,
      places _ rfl, ?_⟩
    · rw [RBTreeAlloc.insert, if_neg occupied, allocated, ok_bind]
      simp only [inserted]
      rfl
    · intro color' next' head' r' same
      rw [freelist] at same
      cases same
  · refine .inr ⟨freelist, fault, ?_, failed⟩
    rw [RBTreeAlloc.insert, if_neg occupied, allocated]
    rfl

end Insertion

/-- A red root above a red left child, with one node on the freelist. -/
def redRooted : RBTreeAlloc where
  root := .node .red (.node .red .nil ⟨⟨0x1000, 0x800⟩, 0x100000, 0x800⟩ .nil)
    ⟨⟨0x3000, 0x400⟩, 0x100040, 0x800⟩ .nil
  freelist := .node .black .nil ⟨⟨0x7000, 0⟩, 0x100080, 0⟩ .nil
  taken := [0x100000, 0x100040, 0x100080]
  handed := []

theorem redRooted_leaning : RootLeaning 0 redRooted.root :=
  .redRed (.red .nil .nil rfl rfl) rfl .nil rfl

theorem redRooted_ascending : Ascending (regions redRooted.root) := by decide

/-- Deleting the region of the red root. -/
theorem deleteRoot_removes_root :
    ∃ self', redRooted.deleteRoot 0x3000 = .ok self' ∧ Removed redRooted self' 0x3000 :=
  deleteRoot_removes redRooted_leaning redRooted_ascending ⟨⟨0x3000, 0x400⟩, by decide, rfl⟩

/-- Inserting a region between the two, in the node from the freelist. -/
theorem insert_places_between :
    ∃ self' bump', redRooted.insert sampleBump ⟨0x2000, 0x100⟩ = .ok (self', bump') ∧
      Placed redRooted self' ⟨0x2000, 0x100⟩ ∧ Reused redRooted self' ⟨0x2000, 0x100⟩ :=
  (insert_places redRooted_leaning redRooted_ascending (by decide) (by decide)
    sampleBump).resolve_right fun failed => absurd failed.1 (by decide)

end Blubos
