import Blubos.Allocator.FirstFit
import Blubos.Allocator.TreeShape
import Blubos.Foundation.LeaningHeight

/-!
# Depth of the recursions

`alloc_rec` and `insert_node` follow a path of the tree; `delete` and `delete_min` restructure the
tree on their way down, but spend at least one level of the balanced tree on each call.  A depth
counts the calls nested below the outermost one.
-/

namespace Blubos

open Blubos.Tree (LeftLeaning RootLeaning Remainder Thick Spare levels nodeLevels)

/-- Depth of the recursion of `insert_node`. -/
def insertNodeDepth (node : Link) : Link → ℕ
  | .nil => 0
  | .node _ l n r =>
      (if Link.base node < n.base then insertNodeDepth node l else insertNodeDepth node r) + 1

/-- Depth of the recursion of `alloc_rec`, which enters the right subtree only after the left
subtree and the node itself were tried in vain. -/
def allocRecDepth (map : AddressMap) (request : Request) : Link → ℕ
  | .nil => 0
  | .node _ l n r =>
      let left := if RBTreeAlloc.hasRoom request.size l then allocRecDepth map request l + 1 else 0
      let right := if RBTreeAlloc.hasRoom request.size r then allocRecDepth map request r + 1 else 0
      match if RBTreeAlloc.hasRoom request.size l then RBTreeAlloc.allocRec map request l
        else .ok (l, none) with
      | .ok (_, none) =>
          match RBTreeAlloc.allocHere map request (request.maxAddress.getD Usize.max) n with
          | .ok none => max left right
          | _ => left
      | _ => left

/-- The depth of the recursion of `delete` is at most `depth`: it returns within the outermost call
and that many calls of `delete` and `delete_min` below it. -/
def DeleteDepthLe (self : RBTreeAlloc) (key depth : ℕ) : Prop :=
  (RBTreeAlloc.delete (depth + 1) self self.root key).isSome = true

theorem insertNodeDepth_le (node tree : Link) : insertNodeDepth node tree ≤ tree.height := by
  induction tree with
  | nil => exact le_rfl
  | node color l n r ihl ihr =>
      rw [insertNodeDepth, Tree.height_node]
      split_ifs <;> omega

theorem allocRecDepth_le (map : AddressMap) (request : Request) (tree : Link) :
    allocRecDepth map request tree ≤ tree.height - 1 := by
  induction tree with
  | nil => exact le_rfl
  | node color l n r ihl ihr =>
      have descend {child : Link} (shallow : allocRecDepth map request child ≤ child.height - 1) :
          (if RBTreeAlloc.hasRoom request.size child then allocRecDepth map request child + 1
            else 0) ≤ child.height := by
        cases child with
        | nil => exact le_rfl
        | node =>
            rw [Tree.height_node] at *
            split_ifs <;> omega
      have left := descend ihl
      have right := descend ihr
      rw [allocRecDepth, Tree.height_node]
      split
      · split <;> omega
      · omega

/-- Every node on the way of `delete_min` spends a level. -/
theorem deleteMin_levels {depth n : ℕ} {self : RBTreeAlloc} {h : Link} (leaning : LeftLeaning n h)
    (thick : Thick h) (budget : levels n h ≤ depth) :
    RBTreeAlloc.deleteMin (depth + 1) self h = RBTreeAlloc.deleteMin depth self h := by
  induction depth generalizing n h with
  | zero =>
      obtain ⟨color, l, item, r, m, rfl, rfl, -⟩ := leaning.spare thick
      rw [Tree.levels_node] at budget
      cases color <;> simp [nodeLevels] at budget
  | succ depth induction =>
      obtain ⟨color, l, item, r, m, rfl, rfl, hl, hr, rightBlack, spare⟩ := leaning.spare thick
      rw [RBTreeAlloc.deleteMin, RBTreeAlloc.deleteMin]
      cases occupied : l.isNil with
      | true => rfl
      | false =>
          obtain ⟨color', l', item', r', k, prepared, left, thick', right, remainder⟩ :=
            @prepareLeft_balanced m color l item r hl hr rightBlack occupied
          have spent := (remainder l' id).levels_left spare
          rw [Tree.levels_node] at budget
          simp only [prepared, induction left thick' (by omega)]

/-- With this budget for the calls below the node, one more level changes nothing. -/
def Steady (depth key : ℕ) (self : RBTreeAlloc) : Prop :=
  ∀ {m : ℕ} {color : Color} {l : Link} {item : TreeRegion} {r : Link}, LeftLeaning m l →
    LeftLeaning m r → (r.isRed = false ∨ l.isRed = false ∧ item.base ≤ key) →
    KeySorted key (regions (.node color l item r)) →
    (∀ {color' : Color} {k : ℕ} {l' r' : Link}, Remainder color l r m color' k l' r' →
      levels k l' < depth ∧ levels k r' < depth) →
    RBTreeAlloc.delete (depth + 1) self (.node color l item r) key =
      RBTreeAlloc.delete depth self (.node color l item r) key

section Deletion

variable {depth key m : ℕ} {self : RBTreeAlloc} {color : Color} {l : Link} {item : TreeRegion}
  {r : Link}

/-- A node that can lose one has the levels of its colour. -/
theorem Steady.spare (steady : Steady depth key self) (hl : LeftLeaning m l) (hr : LeftLeaning m r)
    (side : r.isRed = false ∨ l.isRed = false ∧ item.base ≤ key)
    (unshared : KeySorted key (regions (.node color l item r))) (spare : Spare color l r)
    (budget : nodeLevels color m ≤ depth) :
    RBTreeAlloc.delete (depth + 1) self (.node color l item r) key =
      RBTreeAlloc.delete depth self (.node color l item r) key :=
  steady hl hr side unshared fun rest =>
    ⟨(rest.levels_left spare).trans_le budget, (rest.levels_right spare).trans_le budget⟩

theorem Steady.thick (steady : Steady depth key self) {n : ℕ} {h : Link}
    (leaning : LeftLeaning n h) (thick : Thick h) (unshared : KeySorted key (regions h))
    (budget : levels n h ≤ depth) :
    RBTreeAlloc.delete (depth + 1) self h key = RBTreeAlloc.delete depth self h key := by
  obtain ⟨color, l, item, r, m, rfl, rfl, hl, hr, rightBlack, spare⟩ := leaning.spare thick
  rw [Tree.levels_node] at budget
  exact steady.spare hl hr (.inl rightBlack) unshared spare budget

/-- The deletion goes on in the left child with a level less. -/
theorem Steady.left (steady : Steady depth key self) (hl : LeftLeaning m l) (hr : LeftLeaning m r)
    (rightBlack : r.isRed = false) (unshared : KeySorted key (regions (.node color l item r)))
    (budget : ∀ {color' : Color} {k : ℕ} {l' r' : Link}, Remainder color l r m color' k l' r' →
      levels k l' < depth + 1 ∧ levels k r' < depth + 1) (below : key < item.base) :
    RBTreeAlloc.delete (depth + 2) self (.node color l item r) key =
      RBTreeAlloc.delete (depth + 1) self (.node color l item r) key := by
  rw [RBTreeAlloc.delete, RBTreeAlloc.delete, if_pos below, if_pos below]
  cases occupied : l.isNil with
  | true => rfl
  | false =>
      obtain ⟨color', l', item', r', k, prepared, left, thick, right, remainder⟩ :=
        @prepareLeft_balanced m color l item r hl hr rightBlack occupied
      have spent := (budget (remainder l' id)).1
      rw [← regions_prepareLeft prepared, regions_node] at unshared
      simp only [prepared,
        steady.thick left thick unshared.around.2.2.1 (Nat.le_of_lt_succ spent)]

/-- And so it does in the right child, after the rotation that makes the left one black. -/
theorem Steady.right (steady : Steady depth key self) (hl : LeftLeaning m l) (hr : LeftLeaning m r)
    (side : r.isRed = false ∨ l.isRed = false ∧ item.base ≤ key)
    (unshared : KeySorted key (regions (.node color l item r)))
    (budget : ∀ {color' : Color} {k : ℕ} {l' r' : Link}, Remainder color l r m color' k l' r' →
      levels k l' < depth + 1 ∧ levels k r' < depth + 1) (above : ¬key < item.base) :
    RBTreeAlloc.delete (depth + 2) self (.node color l item r) key =
      RBTreeAlloc.delete (depth + 1) self (.node color l item r) key := by
  rw [RBTreeAlloc.delete, RBTreeAlloc.delete, if_neg above, if_neg above]
  obtain ⟨lt, it, rt, turn, left, leftBlack, right, rightRed⟩ :=
    @turn_leaning m color l item r hl hr (side.imp_right And.left)
  obtain ⟨colorT, lt', it', rt', same, turnedRegions, top⟩ := turn_spec turn
  obtain ⟨rfl, rfl, rfl, rfl⟩ := Tree.node.inj same
  have reached : it.base ≤ key := unshared.top_le (not_lt.mp above) top
  rw [← turnedRegions] at unshared
  rw [turn]
  simp only [Option.bind_eq_bind, Option.bind_some, Tree.right_node]
  rcases Bool.eq_false_or_eq_true rt.isNil with leaf | occupied
  · simp only [leaf, if_true]
  · obtain ⟨color', l', item', r', k, prepared, -, remainder, shape⟩ :=
      @prepareRight_balanced m color lt it rt left leftBlack right occupied
    have spent := (budget ((remainder r' id).of_turn leftBlack rightRed)).2
    rw [← regions_prepareRight prepared, regions_node] at unshared
    obtain ⟨-, after, -, unsharedRight⟩ := unshared.around
    simp only [prepared]
    rcases shape with ⟨rfl, right', thick⟩ | ⟨n, x, y, rfl, rfl, hx, xBlack, hy, yRed⟩
    · simp only [steady.thick right' thick unsharedRight (Nat.le_of_lt_succ spent),
        @deleteMin_levels depth k self r' right' thick (Nat.le_of_lt_succ spent)]
    · have member : it.toSpan ∈ regions (.node .black x (updateMaxSize x it y) y) := by
        rw [regions_node]
        exact List.mem_append_right _ List.mem_cons_self
      have miss : key ≠ item'.base := by
        -- The key would be shared by the lifted item and by the old root to its right.
        rintro rfl
        have order := after it.toSpan member
        exact order.2 rfl (le_antisymm reached order.1)
      have enough : nodeLevels .black n ≤ depth := by
        simp only [levels, Tree.isRed_black, Bool.toNat_false] at spent
        simp only [nodeLevels]
        omega
      have inner := @Steady.spare depth key n self .black x (updateMaxSize x it y) y
        steady hx hy (.inr ⟨xBlack, reached⟩) unsharedRight (.inr yRed) enough
      simp only [if_neg miss, inner]

/-- Every node on the way of `delete` spends a level. -/
theorem steady (depth key : ℕ) (self : RBTreeAlloc) : Steady depth key self := by
  induction depth with
  | zero =>
      intro m color l item r _ _ _ _ budget
      have none := (budget (@Remainder.kept _ color l r m l .nil rfl id)).1
      omega
  | succ depth induction =>
      intro m color l item r hl hr side unshared budget
      by_cases below : key < item.base
      · have rightBlack : r.isRed = false := side.resolve_right fun right => by omega
        exact induction.left hl hr rightBlack unshared budget below
      · exact induction.right hl hr side unshared budget below

/-- Two levels for each level of black nodes are enough below any node. -/
theorem delete_levels (hl : LeftLeaning m l) (hr : LeftLeaning m r)
    (side : r.isRed = false ∨ l.isRed = false ∧ item.base ≤ key)
    (unshared : KeySorted key (regions (.node color l item r))) (deep : 2 * m + 2 ≤ depth) :
    RBTreeAlloc.delete depth self (.node color l item r) key =
      RBTreeAlloc.delete (2 * m + 2) self (.node color l item r) key := by
  induction deep with
  | refl => rfl
  | @step depth deep induction =>
      rw [← induction]
      refine steady depth key self hl hr side unshared fun rest => ⟨?_, ?_⟩
      · have spent := rest.levels_le
        exact (Nat.lt_succ_of_le (spent _)).trans_le deep
      · have spent := rest.levels_le
        exact (Nat.lt_succ_of_le (spent _)).trans_le deep

/-- `delete` from the root of a balanced tree recurses logarithmically deep. -/
theorem deleteDepthLe_log {n : ℕ} (leaning : RootLeaning n self.root)
    (unshared : KeySorted key (regions self.root)) :
    DeleteDepthLe self key (2 * Nat.log 2 (self.root.count + 1)) := by
  obtain ⟨tree, freed, -, returned, -⟩ := deleteRoot_spec leaning unshared
  rw [DeleteDepthLe]
  cases root : self.root with
  | nil => rfl
  | node color l item r =>
      rw [root] at leaning unshared returned
      obtain ⟨m, hl, hr, rightBlack⟩ := leaning.children
      have deep : 2 * m + 2 ≤ 2 * Nat.log 2 ((Tree.node color l item r).count + 1) + 1 := by
        have levels := @Tree.succ_le_log _ m color l r item hl hr
        omega
      have more : 2 * m + 2 ≤ max (2 * m + 2) ((Tree.node color l item r).count + 1) :=
        Nat.le_max_left _ _
      -- With either bound the call does what it does with the larger of the two.
      rw [delete_levels hl hr (.inl rightBlack) unshared deep,
        ← delete_levels hl hr (.inl rightBlack) unshared more,
        delete_depth_le (Nat.lt_succ_self _) (Nat.le_max_right _ _), returned]
      rfl

end Deletion

end Blubos
