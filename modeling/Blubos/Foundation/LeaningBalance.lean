import Blubos.Foundation.LeaningTree

/-!
# Balance of left-leaning red-black trees

`LeftLeaning` is the balance invariant; `RootLeaning` also admits a red root with a red left child,
the shape that a deletion leaves behind when nobody recolours the root before or after it.  The
rebalancing steps have results on balanced trees and restore the invariant.
-/

namespace Blubos

namespace Tree

variable {α β : Type*}

/-- Every path to an absent child has `n` black nodes, no right child is red and no red node has
a red child. -/
inductive LeftLeaning : ℕ → Tree α → Prop
  | nil : LeftLeaning 0 .nil
  | red {n : ℕ} {l r : Tree α} {item : α} :
      LeftLeaning n l → LeftLeaning n r → l.isRed = false → r.isRed = false →
      LeftLeaning n (node .red l item r)
  | black {n : ℕ} {l r : Tree α} {item : α} :
      LeftLeaning n l → LeftLeaning n r → r.isRed = false →
      LeftLeaning (n + 1) (node .black l item r)

/-- `LeftLeaning`, except that a red root may have a red left child. -/
inductive RootLeaning : ℕ → Tree α → Prop
  | leaning {n : ℕ} {tree : Tree α} : LeftLeaning n tree → RootLeaning n tree
  | redRed {n : ℕ} {l r : Tree α} {item : α} :
      LeftLeaning n l → l.isRed = true → LeftLeaning n r → r.isRed = false →
      RootLeaning n (node .red l item r)

/-- The tree is a 3-node or hangs from a red link, so that it can lose a node. -/
def Thick (tree : Tree α) : Prop := tree.isRed = true ∨ tree.left.isRed = true

/-- A node over these children can lose a node below it without losing black height. -/
def Spare : Color → Tree α → Tree α → Prop
  | .red, l, r => l.isRed = false ∧ r.isRed = false
  | .black, l, r => l.isRed = true ∨ r.isRed = true

/-- What becomes of a node of the given colour, over `l` and `r` of black height `n`, when a
deletion has rebalanced it on the way down and returned from a child: the colour, the new height
of the children and the children. -/
inductive Remainder (color : Color) (l r : Tree α) :
    ℕ → Color → ℕ → Tree α → Tree α → Prop
  | kept {n : ℕ} {l' r' : Tree α} : r'.isRed = false → (l'.isRed = true → l.isRed = true) →
      Remainder color l r n color n l' r'
  | turned {n : ℕ} {l' r' : Tree α} : l'.isRed = false →
      (r'.isRed = true → l.isRed = true ∨ r.isRed = true) → Remainder color l r n color n l' r'
  | split {n : ℕ} {l' r' : Tree α} : l.isRed = false → r.isRed = false →
      Remainder color l r (n + 1) color.flip n l' r'

theorem LeftLeaning.not_redRed {n : ℕ} {tree : Tree α} (leaning : LeftLeaning n tree) :
    ¬(tree.isRed = true ∧ tree.left.isRed = true) := by
  cases leaning with
  | nil => simp
  | red _ _ leftBlack _ => simp [leftBlack]
  | black => simp

/-- The root of a balanced tree that can lose a node. -/
theorem LeftLeaning.spare {n : ℕ} {tree : Tree α} (leaning : LeftLeaning n tree)
    (thick : Thick tree) :
    ∃ color l item r m, tree = node color l item r ∧ n = color.raise m ∧ LeftLeaning m l ∧
      LeftLeaning m r ∧ r.isRed = false ∧ Spare color l r := by
  cases leaning with
  | nil => simp [Thick] at thick
  | red left right leftBlack rightBlack =>
      exact ⟨.red, _, _, _, _, rfl, rfl, left, right, rightBlack, leftBlack, rightBlack⟩
  | black left right rightBlack =>
      exact ⟨.black, _, _, _, _, rfl, rfl, left, right, rightBlack,
        .inl (by simpa [Thick] using thick)⟩

/-- A black-rooted tree of positive black height has a node. -/
theorem LeftLeaning.black_node {n : ℕ} {tree : Tree α} (leaning : LeftLeaning (n + 1) tree)
    (black : tree.isRed = false) :
    ∃ l item r, tree = node .black l item r ∧ LeftLeaning n l ∧ LeftLeaning n r ∧
      r.isRed = false := by
  cases leaning with
  | red => simp at black
  | black left right rightBlack => exact ⟨_, _, _, rfl, left, right, rightBlack⟩

theorem LeftLeaning.eq_nil {tree : Tree α} (leaning : LeftLeaning 0 tree)
    (black : tree.isRed = false) : tree = Tree.nil := by
  cases leaning with
  | nil => rfl
  | red => simp at black

theorem RootLeaning.paint_black {n : ℕ} {tree : Tree α} (leaning : RootLeaning n tree) :
    ∃ m, LeftLeaning m (tree.paint .black) := by
  cases leaning with
  | leaning leaning =>
      cases leaning with
      | nil => exact ⟨0, .nil⟩
      | red left right _ rightBlack => exact ⟨_, .black left right rightBlack⟩
      | black left right rightBlack => exact ⟨_, .black left right rightBlack⟩
  | redRed left _ right rightBlack => exact ⟨_, .black left right rightBlack⟩

/-- With a black root the exception at the root does not arise. -/
theorem RootLeaning.of_black {n : ℕ} {tree : Tree α} (leaning : RootLeaning n tree)
    (black : tree.isRed = false) : LeftLeaning n tree := by
  cases leaning with
  | leaning balanced => exact balanced
  | redRed => simp at black

/-- The children of a root have the same black height, and the right one is black. -/
theorem RootLeaning.children {n : ℕ} {color : Color} {l r : Tree α} {item : α}
    (leaning : RootLeaning n (node color l item r)) :
    ∃ m, LeftLeaning m l ∧ LeftLeaning m r ∧ r.isRed = false := by
  cases leaning with
  | leaning leaning =>
      cases leaning with
      | red left right _ rightBlack => exact ⟨_, left, right, rightBlack⟩
      | black left right rightBlack => exact ⟨_, left, right, rightBlack⟩
  | redRed left _ right rightBlack => exact ⟨_, left, right, rightBlack⟩

theorem leftLeaning_map {f : α → β} {n : ℕ} {tree : Tree α} :
    LeftLeaning n (tree.map f) ↔ LeftLeaning n tree := by
  constructor
  · intro leaning
    induction tree generalizing n with
    | nil =>
        cases leaning with
        | nil => exact .nil
    | node color l item r ihl ihr =>
        cases leaning with
        | red left right leftBlack rightBlack =>
            exact .red (ihl left) (ihr right) (by simpa using leftBlack) (by simpa using rightBlack)
        | black left right rightBlack =>
            exact .black (ihl left) (ihr right) (by simpa using rightBlack)
  · intro leaning
    induction leaning with
    | nil => exact .nil
    | red _ _ leftBlack rightBlack left right =>
        exact .red left right (by simpa using leftBlack) (by simpa using rightBlack)
    | black _ _ rightBlack left right => exact .black left right (by simpa using rightBlack)

theorem RootLeaning.of_map {f : α → β} {n : ℕ} {tree : Tree α}
    (leaning : RootLeaning n (tree.map f)) : RootLeaning n tree := by
  cases tree with
  | nil =>
      cases leaning with
      | leaning leaning => exact .leaning (leftLeaning_map.mp leaning)
  | node color l item r =>
      cases leaning with
      | leaning leaning => exact .leaning (leftLeaning_map.mp leaning)
      | redRed left leftRed right rightBlack =>
          exact .redRed (leftLeaning_map.mp left) (by simpa using leftRed)
            (leftLeaning_map.mp right) (by simpa using rightBlack)

theorem RootLeaning.map {n : ℕ} {tree : Tree α} (leaning : RootLeaning n tree) (f : α → β) :
    RootLeaning n (tree.map f) := by
  cases leaning with
  | leaning leaning => exact .leaning (leftLeaning_map.mpr leaning)
  | redRed left leftRed right rightBlack =>
      exact .redRed (leftLeaning_map.mpr left) (by simpa using leftRed)
        (leftLeaning_map.mpr right) (by simpa using rightBlack)

section Steps

variable (rule : Augment α)

/-- Fixing a node whose right child is black and whose left child has no red child below a red
root only recomputes the derived data. -/
theorem fixUp_of_black {n : ℕ} {color : Color} {l r : Tree α} {item : α} (hl : LeftLeaning n l)
    (rightBlack : r.isRed = false) :
    fixUp rule (node color l item r) = some (node color l (rule.refresh l item r) r) := by
  simp [fixUp, settle, renew, rightBlack, hl.not_redRed]

/-- Fixing a black node over balanced subtrees gives a balanced tree of the same height, red only
when both children were. -/
theorem fixUp_black {n : ℕ} {l r : Tree α} {item : α} (hl : LeftLeaning n l)
    (hr : LeftLeaning n r) :
    ∃ tree, fixUp rule (node .black l item r) = some tree ∧ LeftLeaning (n + 1) tree ∧
      (tree.isRed = true → l.isRed = true ∧ r.isRed = true) := by
  cases rightRed : r.isRed with
  | false => exact ⟨_, fixUp_of_black rule hl rightRed, .black hl hr rightRed, by simp⟩
  | true =>
      cases hr with
      | nil => simp at rightRed
      | black => simp at rightRed
      | red inner outer innerBlack outerBlack =>
          cases hl with
          | nil =>
              refine ⟨_, by simp [fixUp, settle, renew, rotateLeft, outerBlack]; rfl, ?_, by simp⟩
              exact .black (.red .nil inner rfl innerBlack) outer outerBlack
          | black ll lr lrBlack =>
              refine ⟨_, by simp [fixUp, settle, renew, rotateLeft, outerBlack]; rfl, ?_, by simp⟩
              exact .black (.red (.black ll lr lrBlack) inner rfl innerBlack) outer outerBlack
          | red ll lr llBlack lrBlack =>
              refine ⟨_, by simp [fixUp, settle, renew, rotateLeft, rotateRight, flipColors]; rfl,
                ?_, by simp⟩
              exact .red (.black ll lr lrBlack) (.black inner outer outerBlack) rfl rfl

/-- Fixing a red root over balanced subtrees leaves at worst a red left child below it. -/
theorem fixUp_red {n : ℕ} {l r : Tree α} {item : α} (hl : LeftLeaning n l)
    (hr : LeftLeaning n r) :
    ∃ tree m, fixUp rule (node .red l item r) = some tree ∧ RootLeaning m tree := by
  cases rightRed : r.isRed with
  | false =>
      cases leftRed : l.isRed with
      | false =>
          exact ⟨_, n, fixUp_of_black rule hl rightRed, .leaning (.red hl hr leftRed rightRed)⟩
      | true => exact ⟨_, n, fixUp_of_black rule hl rightRed, .redRed hl leftRed hr rightRed⟩
  | true =>
      cases hr with
      | nil => simp at rightRed
      | black => simp at rightRed
      | red inner outer innerBlack outerBlack =>
          cases hl with
          | nil =>
              refine ⟨_, 0, by simp [fixUp, settle, renew, rotateLeft, outerBlack]; rfl, ?_⟩
              exact .redRed (.red .nil inner rfl innerBlack) rfl outer outerBlack
          | @black m _ _ _ ll lr lrBlack =>
              refine ⟨_, m + 1, by simp [fixUp, settle, renew, rotateLeft, outerBlack]; rfl, ?_⟩
              exact .redRed (.red (.black ll lr lrBlack) inner rfl innerBlack) rfl outer outerBlack
          | red ll lr llBlack lrBlack =>
              refine ⟨_, n + 2,
                by simp [fixUp, settle, renew, rotateLeft, rotateRight, flipColors]; rfl, ?_⟩
              exact .leaning (.black (.black ll lr lrBlack) (.black inner outer outerBlack) rfl)

/-- Turning a red left child to the right does not change what remains. -/
theorem Remainder.of_turn {n k : ℕ} {color color' : Color} {l r lt rt l' r' : Tree α}
    (rest : Remainder color lt rt n color' k l' r') (leftBlack : lt.isRed = false)
    (rightRed : rt.isRed = (l.isRed || r.isRed)) : Remainder color l r n color' k l' r' := by
  cases rest with
  | kept rightBlack' onlyLeft =>
      have leftBlack' : l'.isRed = false := by simpa [leftBlack] using onlyLeft
      exact .kept rightBlack' (by simp [leftBlack'])
  | turned leftBlack' onlyRight =>
      refine .turned leftBlack' fun red => ?_
      have turnedRed := onlyRight red
      rw [leftBlack, rightRed, Bool.or_eq_true] at turnedRed
      simpa using turnedRed
  | split _ rightBlack =>
      rw [rightBlack, eq_comm, Bool.or_eq_false_iff] at rightRed
      exact .split rightRed.1 rightRed.2

/-- Fixing the remainder of a node that could lose one restores the black height; the result is
red only if the node was. -/
theorem Remainder.fixUp {n k : ℕ} {color color' : Color} {l r l' r' : Tree α}
    (rest : Remainder color l r n color' k l' r') (spare : Spare color l r)
    (hl : LeftLeaning k l') (hr : LeftLeaning k r') (item : α) :
    ∃ tree, fixUp rule (node color' l' item r') = some tree ∧ LeftLeaning (color.raise n) tree ∧
      (tree.isRed = true → color = .red) := by
  cases color with
  | red =>
      obtain ⟨leftBlack, rightBlack⟩ := spare
      cases rest with
      | kept rightBlack' onlyLeft =>
          have leftBlack' : l'.isRed = false := by simpa [leftBlack] using onlyLeft
          exact ⟨_, fixUp_of_black rule hl rightBlack', .red hl hr leftBlack' rightBlack', by simp⟩
      | turned leftBlack' onlyRight =>
          have rightBlack' : r'.isRed = false := by simpa [leftBlack, rightBlack] using onlyRight
          exact ⟨_, fixUp_of_black rule hl rightBlack', .red hl hr leftBlack' rightBlack', by simp⟩
      | split =>
          obtain ⟨tree, fixed, leaning, -⟩ := @fixUp_black _ rule _ l' r' item hl hr
          exact ⟨tree, fixed, leaning, by simp⟩
  | black =>
      cases rest with
      | kept rightBlack' =>
          exact ⟨_, fixUp_of_black rule hl rightBlack', .black hl hr rightBlack', by simp⟩
      | turned leftBlack' =>
          obtain ⟨tree, fixed, leaning, bothRed⟩ := @fixUp_black _ rule _ l' r' item hl hr
          exact ⟨tree, fixed, leaning, fun red => by simpa [leftBlack'] using bothRed red⟩
      | split leftBlack rightBlack => simp [Spare, leftBlack, rightBlack] at spare

/-- `moveRedLeft` on a node whose children are black and whose left child is no 3-node: either the
node becomes a 4-node of flipped colour, or a node is borrowed from the right and the left child
becomes a 3-node. -/
theorem moveRedLeft_spec {n : ℕ} {color : Color} {l r : Tree α} {item : α}
    (hl : LeftLeaning (n + 1) l) (leftBlack : l.isRed = false) (hr : LeftLeaning (n + 1) r)
    (rightBlack : r.isRed = false) (thin : l.left.isRed = false) :
    ∃ color' l' item' r', moveRedLeft rule (node color l item r) = some (node color' l' item' r') ∧
      ((color' = color.flip ∧ LeftLeaning n l' ∧ l'.isRed = true ∧ LeftLeaning n r') ∨
        (color' = color ∧ LeftLeaning (n + 1) l' ∧ l'.isRed = false ∧ l'.left.isRed = true ∧
          LeftLeaning (n + 1) r' ∧ r'.isRed = false)) := by
  obtain ⟨ll, leftItem, lr, rfl, hll, hlr, lrBlack⟩ := hl.black_node leftBlack
  obtain ⟨rl, rightItem, rr, rfl, hrl, hrr, rrBlack⟩ := hr.black_node rightBlack
  rw [left_node] at thin
  cases borrow : rl.isRed with
  | false =>
      refine ⟨_, _, _, _, by simp only [moveRedLeft, flipColors, flipRoot_node, borrow]; rfl,
        .inl ⟨rfl, ?_, rfl, ?_⟩⟩
      · exact .red hll hlr thin lrBlack
      · exact .red hrl hrr borrow rrBlack
  | true =>
      cases hrl with
      | nil => simp at borrow
      | black => simp at borrow
      | red inner outer innerBlack outerBlack =>
          have flips : color.flip.flip = color := by cases color <;> rfl
          refine ⟨_, _, _, _, rfl, .inr ⟨flips, ?_, rfl, rfl, ?_, rfl⟩⟩
          · exact .black (.red hll hlr thin lrBlack) inner innerBlack
          · exact .black outer hrr rrBlack

/-- `moveRedRight` on a node whose children are black: either the node becomes a 4-node of flipped
colour, or a node is borrowed from the left and the old root, now on the right, has a red right
child. -/
theorem moveRedRight_spec {n : ℕ} {color : Color} {l r : Tree α} {item : α}
    (hl : LeftLeaning (n + 1) l) (leftBlack : l.isRed = false) (hr : LeftLeaning (n + 1) r)
    (rightBlack : r.isRed = false) (thin : r.left.isRed = false) :
    (∃ l' r', moveRedRight rule (node color l item r) = some (node color.flip l' item r') ∧
      LeftLeaning n l' ∧ l'.isRed = true ∧ LeftLeaning n r' ∧ r'.isRed = true) ∨
    ∃ l' pivot x y, moveRedRight rule (node color l item r) =
        some (node color l' pivot (node .black x (rule.refresh x item y) y)) ∧
      LeftLeaning (n + 1) l' ∧ l'.isRed = false ∧ LeftLeaning n x ∧ x.isRed = false ∧
      LeftLeaning n y ∧ y.isRed = true := by
  obtain ⟨ll, leftItem, lr, rfl, hll, hlr, lrBlack⟩ := hl.black_node leftBlack
  obtain ⟨rl, rightItem, rr, rfl, hrl, hrr, rrBlack⟩ := hr.black_node rightBlack
  rw [left_node] at thin
  cases borrow : ll.isRed with
  | false =>
      refine .inl ⟨_, _, by simp only [moveRedRight, flipColors, flipRoot_node, borrow]; rfl, ?_,
        rfl, ?_, rfl⟩
      · exact .red hll hlr borrow lrBlack
      · exact .red hrl hrr thin rrBlack
  | true =>
      cases hll with
      | nil => simp at borrow
      | black => simp at borrow
      | red inner outer innerBlack outerBlack =>
          right
          cases color <;>
            exact ⟨_, _, _, _, rfl, .black inner outer outerBlack, rfl, hlr, lrBlack,
              .red hrl hrr thin rrBlack, rfl⟩

theorem fixUp_root {n : ℕ} {color : Color} {l r : Tree α} {item : α} (hl : LeftLeaning n l)
    (hr : LeftLeaning n r) :
    ∃ tree m, fixUp rule (node color l item r) = some tree ∧ RootLeaning m tree := by
  cases color with
  | red => exact fixUp_red rule hl hr
  | black =>
      obtain ⟨tree, fixed, leaning, -⟩ := fixUp_black rule hl hr
      exact ⟨tree, n + 1, fixed, .leaning leaning⟩

/-- After preparing a descent to the left, the left child can lose a node, and whatever balanced
tree replaces it there is a remainder to fix. -/
theorem prepareLeft_spec {n : ℕ} {color : Color} {l r : Tree α} {item : α} (hl : LeftLeaning n l)
    (hr : LeftLeaning n r) (rightBlack : r.isRed = false) (occupied : l.isNil = false) :
    ∃ color' l' item' r' k,
      prepareLeft rule (node color l item r) = some (node color' l' item' r') ∧
      LeftLeaning k l' ∧ Thick l' ∧ LeftLeaning k r' ∧
      ∀ kept : Tree α, (kept.isRed = true → l'.isRed = true) →
        Remainder color l r n color' k kept r' := by
  cases thin : (!l.isRed && !l.left.isRed) with
  | false =>
      have thick : Thick l := by
        by_contra both
        simp_all [Thick]
      exact ⟨color, l, item, r, n, by simp only [prepareLeft, left_node, thin]; rfl, hl, thick, hr,
        fun kept onlyLeft => .kept rightBlack onlyLeft⟩
  | true =>
      obtain ⟨leftBlack, grandBlack⟩ : l.isRed = false ∧ l.left.isRed = false := by simpa using thin
      cases n with
      | zero => simp [hl.eq_nil leftBlack] at occupied
      | succ n =>
          obtain ⟨color', l', item', r', moved, outcome⟩ :=
            @moveRedLeft_spec _ rule n color l r item hl leftBlack hr rightBlack grandBlack
          have prepared : prepareLeft rule (node color l item r) =
              some (node color' l' item' r') := by
            simp only [prepareLeft, left_node, thin, if_true, moved]
          rcases outcome with
            ⟨rfl, left, leftRed, right⟩ | ⟨rfl, left, leftBlack', grandRed, right, rightBlack'⟩
          · exact ⟨_, l', item', r', n, prepared, left, .inl leftRed, right,
              fun kept _ => .split leftBlack rightBlack⟩
          · exact ⟨_, l', item', r', n + 1, prepared, left, .inr grandRed, right,
              fun kept onlyLeft => .kept rightBlack' fun red => by
                simp [leftBlack'] at onlyLeft
                simp [onlyLeft] at red⟩

/-- After preparing a descent to the right, either the root item stays and the right child can lose
a node, or the right child is the old root with a red right child; whatever balanced tree replaces
the right child there is a remainder to fix. -/
theorem prepareRight_spec {n : ℕ} {color : Color} {l r : Tree α} {item : α}
    (hl : LeftLeaning n l) (leftBlack : l.isRed = false) (hr : LeftLeaning n r)
    (occupied : r.isNil = false) :
    ∃ color' l' item' r' k,
      prepareRight rule (node color l item r) = some (node color' l' item' r') ∧
      LeftLeaning k l' ∧
      (∀ kept : Tree α, (kept.isRed = true → r'.isRed = true) →
        Remainder color l r n color' k l' kept) ∧
      ((item' = item ∧ LeftLeaning k r' ∧ Thick r') ∨
        ∃ m x y, k = m + 1 ∧ r' = node .black x (rule.refresh x item y) y ∧ LeftLeaning m x ∧
          x.isRed = false ∧ LeftLeaning m y ∧ y.isRed = true) := by
  cases thin : (!r.isRed && !r.left.isRed) with
  | false =>
      have thick : Thick r := by
        by_contra both
        simp_all [Thick]
      exact ⟨color, l, item, r, n, by simp only [prepareRight, right_node, thin]; rfl, hl,
        fun kept onlyRight => .turned leftBlack fun red => .inr (onlyRight red),
        .inl ⟨rfl, hr, thick⟩⟩
  | true =>
      obtain ⟨rightBlack, grandBlack⟩ : r.isRed = false ∧ r.left.isRed = false := by
        simpa using thin
      cases n with
      | zero => simp [hr.eq_nil rightBlack] at occupied
      | succ n =>
          have enter : prepareRight rule (node color l item r) =
              moveRedRight rule (node color l item r) := by
            simp only [prepareRight, right_node, thin, if_true]
          rw [enter]
          rcases
            @moveRedRight_spec _ rule n color l r item hl leftBlack hr rightBlack grandBlack with
            ⟨l', r', moved, left, -, right, rightRed⟩ |
            ⟨l', pivot, x, y, moved, left, leftBlack', inner, innerBlack, outer, outerRed⟩
          · exact ⟨_, l', item, r', n, moved, left, fun kept _ => .split leftBlack rightBlack,
              .inl ⟨rfl, right, .inl rightRed⟩⟩
          · exact ⟨_, l', pivot, _, n + 1, moved, left,
              fun kept onlyRight => .turned leftBlack' fun red => by
                simp at onlyRight
                simp [onlyRight] at red,
              .inr ⟨n, x, y, rfl, rfl, inner, innerBlack, outer, outerRed⟩⟩

theorem insertUp_black {n : ℕ} {l r : Tree α} {item : α} (hl : RootLeaning n l)
    (hr : LeftLeaning n r) (either : r.isRed = true → LeftLeaning n l) :
    ∃ tree, insertUp rule (node .black l item r) = some tree ∧ LeftLeaning (n + 1) tree := by
  cases rightRed : r.isRed with
  | false =>
      cases hl with
      | leaning hl =>
          refine ⟨_, by simp [insertUp, settle, renew, rightRed, hl.not_redRed]; rfl, ?_⟩
          exact .black hl hr rightRed
      | redRed left leftRed right rightBlack =>
          refine ⟨_, by
            simp [insertUp, settle, renew, rightRed, leftRed, rotateRight, flipColors]; rfl, ?_⟩
          cases left with
          | nil => simp at leftRed
          | black => simp at leftRed
          | red ll lr _ lrBlack =>
              exact .red (.black ll lr lrBlack) (.black right hr rightRed) rfl rfl
  | true =>
      have hl := either rightRed
      cases hr with
      | nil => simp at rightRed
      | black => simp at rightRed
      | red inner outer innerBlack outerBlack =>
          cases leftRed : l.isRed with
          | false =>
              refine ⟨_,
                by simp [insertUp, settle, renew, leftRed, rotateLeft, outerBlack]; rfl, ?_⟩
              exact .black (.red hl inner leftRed innerBlack) outer outerBlack
          | true =>
              cases hl with
              | nil => simp at leftRed
              | black => simp at leftRed
              | red ll lr llBlack lrBlack =>
                  refine ⟨_, by simp [insertUp, settle, renew, llBlack, flipColors]; rfl, ?_⟩
                  exact .red (.black ll lr lrBlack) (.black inner outer outerBlack) rfl rfl

/-- Fixing a red node above an insertion below one of its black children. -/
theorem insertUp_red {n : ℕ} {l r : Tree α} {item : α} (hl : LeftLeaning n l)
    (hr : LeftLeaning n r) (either : l.isRed = false ∨ r.isRed = false) :
    ∃ tree, insertUp rule (node .red l item r) = some tree ∧ RootLeaning n tree ∧
      tree.isRed = true := by
  cases rightRed : r.isRed with
  | false =>
      refine ⟨_, by simp [insertUp, settle, renew, rightRed, hl.not_redRed]; rfl, ?_, rfl⟩
      cases leftRed : l.isRed with
      | false => exact .leaning (.red hl hr leftRed rightRed)
      | true => exact .redRed hl leftRed hr rightRed
  | true =>
      have leftBlack : l.isRed = false := by simpa [rightRed] using either
      cases hr with
      | nil => simp at rightRed
      | black => simp at rightRed
      | red inner outer innerBlack outerBlack =>
          refine ⟨_, by simp [insertUp, settle, renew, leftBlack, rotateLeft, outerBlack]; rfl, ?_,
            rfl⟩
          exact .redRed (.red hl inner leftBlack innerBlack) rfl outer outerBlack

/-- Fixing a red root above an insertion below its red left child or its black right child. -/
theorem insertUp_root {n : ℕ} {l r : Tree α} {item : α} (hl : RootLeaning n l)
    (leftRed : l.isRed = true) (hr : LeftLeaning n r)
    (either : r.isRed = true → LeftLeaning n l) :
    ∃ tree m, insertUp rule (node .red l item r) = some tree ∧ RootLeaning m tree := by
  cases rightRed : r.isRed with
  | false =>
      cases hl with
      | leaning hl =>
          refine ⟨_, n, by simp [insertUp, settle, renew, rightRed, hl.not_redRed]; rfl, ?_⟩
          exact .redRed hl leftRed hr rightRed
      | redRed left innerRed right rightBlack =>
          refine ⟨_, n + 2, by
            simp [insertUp, settle, renew, rightRed, innerRed, rotateRight, flipColors]; rfl, ?_⟩
          cases left with
          | nil => simp at innerRed
          | black => simp at innerRed
          | red ll lr _ lrBlack =>
              exact .leaning (.black (.black ll lr lrBlack) (.black right hr rightRed) rfl)
  | true =>
      have hl := either rightRed
      cases hl with
      | nil => simp at leftRed
      | black => simp at leftRed
      | red ll lr llBlack lrBlack =>
          cases hr with
          | nil => simp at rightRed
          | black => simp at rightRed
          | red inner outer innerBlack outerBlack =>
              refine ⟨_, n + 2, by simp [insertUp, settle, renew, llBlack, flipColors]; rfl, ?_⟩
              exact .leaning (.black (.black ll lr lrBlack) (.black inner outer outerBlack) rfl)

end Steps

end Tree

end Blubos
