import Blubos.Foundation.LeaningBalance
import Mathlib.Algebra.Group.Nat.Defs
import Mathlib.Data.Nat.Log

/-!
# Height of left-leaning red-black trees

A balanced tree of black height `n` has at least `2 ^ n - 1` nodes and paths of at most `2 * n`
nodes below a black root, so its height is logarithmic in the number of nodes.  The same budget
bounds a deletion, which restructures the tree on its way down: `levels` is what it may still
descend, and every step from a node to a child spends at least one level.
-/

namespace Blubos

namespace Tree

variable {α : Type*}

/-- Number of nodes on the longest path. -/
def height : Tree α → ℕ
  | nil => 0
  | node _ left _ right => max left.height right.height + 1

/-- Levels that a deletion can descend in a tree of black height `n`. -/
def levels (n : ℕ) (tree : Tree α) : ℕ := 2 * n + tree.isRed.toNat

/-- Levels that a deletion can descend from a node over children of black height `n`. -/
def nodeLevels : Color → ℕ → ℕ
  | .red, n => 2 * n + 1
  | .black, n => 2 * n + 2

@[simp] theorem height_nil : (nil : Tree α).height = 0 := rfl

@[simp] theorem height_node (color : Color) (l : Tree α) (item : α) (r : Tree α) :
    (node color l item r).height = max l.height r.height + 1 := rfl

/-- A node over children of black height `n` has the levels of its colour. -/
theorem levels_node (color : Color) (n : ℕ) (l : Tree α) (item : α) (r : Tree α) :
    levels (color.raise n) (node color l item r) = nodeLevels color n := by
  cases color with
  | red => rfl
  | black =>
      simp only [levels, Color.raise, nodeLevels, isRed_black, Bool.toNat_false]
      omega

/-- On a path of a balanced tree no two red nodes follow each other. -/
theorem LeftLeaning.height_le {n : ℕ} {tree : Tree α} (leaning : LeftLeaning n tree) :
    tree.height ≤ levels n tree := by
  induction leaning with
  | nil => exact Nat.zero_le _
  | red _ _ leftBlack rightBlack left right =>
      simp only [levels, leftBlack, rightBlack, Bool.toNat_false, height_node, isRed_red,
        Bool.toNat_true] at *
      omega
  | @black n l r _ _ _ rightBlack left right =>
      have leftRed := Bool.toNat_le l.isRed
      simp only [levels, rightBlack, Bool.toNat_false, height_node, isRed_black] at *
      omega

/-- Every path of a balanced tree has `n` black nodes, so the tree is at least as large as a full
one of that height. -/
theorem LeftLeaning.two_pow_le {n : ℕ} {tree : Tree α} (leaning : LeftLeaning n tree) :
    2 ^ n ≤ tree.count + 1 := by
  induction leaning with
  | nil => exact le_rfl
  | red _ _ _ _ left right =>
      simp only [count]
      omega
  | black _ _ _ left right =>
      simp only [count, Nat.pow_succ]
      omega

/-- A node over children of black height `n` has one more black level than they have, if it is not
counted by colour. -/
theorem succ_le_log {n : ℕ} {color : Color} {l r : Tree α} {item : α} (hl : LeftLeaning n l)
    (hr : LeftLeaning n r) : n + 1 ≤ Nat.log 2 ((node color l item r).count + 1) := by
  apply Nat.le_log_of_pow_le Nat.one_lt_two
  have left := hl.two_pow_le
  have right := hr.two_pow_le
  simp only [count, Nat.pow_succ]
  omega

/-- The height is logarithmic in the number of nodes, also with a red root above a red left one. -/
theorem RootLeaning.height_le_log {n : ℕ} {tree : Tree α} (leaning : RootLeaning n tree) :
    tree.height ≤ 2 * Nat.log 2 (tree.count + 1) := by
  cases tree with
  | nil => exact Nat.zero_le _
  | node color l item r =>
      obtain ⟨m, hl, hr, rightBlack⟩ := leaning.children
      have deep := @succ_le_log _ m color l r item hl hr
      have left := hl.height_le
      have right := hr.height_le
      have leftRed := Bool.toNat_le l.isRed
      simp only [levels, rightBlack, Bool.toNat_false] at left right
      rw [height_node]
      omega

namespace Remainder

variable {n k : ℕ} {color color' : Color} {l r l' r' : Tree α}

theorem levels_left (rest : Remainder color l r n color' k l' r') (spare : Spare color l r) :
    levels k l' < nodeLevels color n := by
  cases rest with
  | kept _ onlyLeft =>
      cases color with
      | red =>
          have leftBlack : l'.isRed = false := by simpa [spare.1] using onlyLeft
          simp [levels, nodeLevels, leftBlack]
      | black =>
          have leftRed := Bool.toNat_le l'.isRed
          simp only [levels, nodeLevels]
          omega
  | turned leftBlack => cases color <;> simp [levels, nodeLevels, leftBlack]
  | split =>
      have leftRed := Bool.toNat_le l'.isRed
      cases color <;> simp only [levels, nodeLevels] <;> omega

theorem levels_right (rest : Remainder color l r n color' k l' r') (spare : Spare color l r) :
    levels k r' < nodeLevels color n := by
  cases rest with
  | kept rightBlack => cases color <;> simp [levels, nodeLevels, rightBlack]
  | turned _ onlyRight =>
      cases color with
      | red =>
          have rightBlack : r'.isRed = false := by simpa [spare.1, spare.2] using onlyRight
          simp [levels, nodeLevels, rightBlack]
      | black =>
          have rightRed := Bool.toNat_le r'.isRed
          simp only [levels, nodeLevels]
          omega
  | split =>
      have rightRed := Bool.toNat_le r'.isRed
      cases color <;> simp only [levels, nodeLevels] <;> omega

/-- At any node the child has at most as many levels as a black node over the same children. -/
theorem levels_le (rest : Remainder color l r n color' k l' r') (child : Tree α) :
    levels k child ≤ 2 * n + 1 := by
  have childRed := Bool.toNat_le child.isRed
  cases rest <;> simp only [levels] <;> omega

end Remainder

end Tree

end Blubos
