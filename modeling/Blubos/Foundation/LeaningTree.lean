import Mathlib.Data.List.Basic
import Mathlib.Tactic.SplitIfs

/-!
# Left-leaning red-black trees with derived node data

The rebalancing steps of left-leaning red-black trees, over items part of which is computed from
the two subtrees.  A step that dereferences an absent child has no result.  Every step keeps the
items in order and leaves the derived data of what it touches up to date.
-/

namespace Blubos

/-- Colour of the link to a node. -/
inductive Color where
  | red
  | black
deriving DecidableEq, Repr

def Color.flip : Color → Color
  | .red => .black
  | .black => .red

/-- Black height of a node whose children have black height `n`. -/
def Color.raise : Color → ℕ → ℕ
  | .red, n => n
  | .black, n => n + 1

/-- Binary trees with coloured nodes. -/
inductive Tree (α : Type*) where
  | nil
  | node (color : Color) (left : Tree α) (item : α) (right : Tree α)
deriving DecidableEq, Repr

namespace Tree

variable {α β : Type*}

/-- Left subtree, empty for the empty tree. -/
def left : Tree α → Tree α
  | nil => nil
  | node _ left _ _ => left

/-- Right subtree, empty for the empty tree. -/
def right : Tree α → Tree α
  | nil => nil
  | node _ _ _ right => right

def isNil : Tree α → Bool
  | nil => true
  | node .. => false

def isRed : Tree α → Bool
  | node .red _ _ _ => true
  | _ => false

def paint (color : Color) : Tree α → Tree α
  | nil => nil
  | node _ left item right => node color left item right

def flipRoot : Tree α → Tree α
  | nil => nil
  | node color left item right => node color.flip left item right

def toList : Tree α → List α
  | nil => []
  | node _ left item right => left.toList ++ item :: right.toList

def map (f : α → β) : Tree α → Tree β
  | nil => nil
  | node color left item right => node color (left.map f) (f item) (right.map f)

def count : Tree α → ℕ
  | nil => 0
  | node _ left _ right => left.count + right.count + 1

@[simp] theorem left_nil : (nil : Tree α).left = nil := rfl

@[simp] theorem left_node (color : Color) (l : Tree α) (item : α) (r : Tree α) :
    (node color l item r).left = l := rfl

@[simp] theorem right_nil : (nil : Tree α).right = nil := rfl

@[simp] theorem right_node (color : Color) (l : Tree α) (item : α) (r : Tree α) :
    (node color l item r).right = r := rfl

@[simp] theorem isNil_nil : (nil : Tree α).isNil = true := rfl

@[simp] theorem isNil_node (color : Color) (l : Tree α) (item : α) (r : Tree α) :
    (node color l item r).isNil = false := rfl

@[simp] theorem isRed_nil : (nil : Tree α).isRed = false := rfl

@[simp] theorem isRed_red (l : Tree α) (item : α) (r : Tree α) :
    (node .red l item r).isRed = true := rfl

@[simp] theorem isRed_black (l : Tree α) (item : α) (r : Tree α) :
    (node .black l item r).isRed = false := rfl

@[simp] theorem map_nil (f : α → β) : (nil : Tree α).map f = nil := rfl

@[simp] theorem map_node (f : α → β) (color : Color) (l : Tree α) (item : α) (r : Tree α) :
    (node color l item r).map f = node color (l.map f) (f item) (r.map f) := rfl

@[simp] theorem isRed_map (f : α → β) (tree : Tree α) : (tree.map f).isRed = tree.isRed := by
  rcases tree with _ | ⟨_ | _, _, _, _⟩ <;> rfl

@[simp] theorem toList_map (f : α → β) (tree : Tree α) :
    (tree.map f).toList = tree.toList.map f := by
  induction tree with
  | nil => rfl
  | node color l item r ihl ihr => simp [toList, ihl, ihr]

@[simp] theorem flip_red : Color.red.flip = .black := rfl

@[simp] theorem flip_black : Color.black.flip = .red := rfl

@[simp] theorem flipRoot_nil : (nil : Tree α).flipRoot = nil := rfl

@[simp] theorem flipRoot_node (color : Color) (l : Tree α) (item : α) (r : Tree α) :
    (node color l item r).flipRoot = node color.flip l item r := rfl

@[simp] theorem toList_nil : (nil : Tree α).toList = [] := rfl

@[simp] theorem toList_node (color : Color) (l : Tree α) (item : α) (r : Tree α) :
    (node color l item r).toList = l.toList ++ item :: r.toList := rfl

@[simp] theorem toList_paint (color : Color) (tree : Tree α) :
    (tree.paint color).toList = tree.toList := by cases tree <;> rfl

@[simp] theorem toList_flipRoot (tree : Tree α) : tree.flipRoot.toList = tree.toList := by
  cases tree <;> rfl

@[simp] theorem length_toList (tree : Tree α) : tree.toList.length = tree.count := by
  induction tree with
  | nil => rfl
  | node color l item r ihl ihr =>
      simp only [toList_node, List.length_append, List.length_cons, ihl, ihr, count]
      omega

/-! ## Rebalancing steps -/

/-- A rule recomputing the derived part of an item from its two subtrees.  It does not look at
colours, and recomputing twice changes nothing. -/
structure Augment (α : Type*) where
  refresh : Tree α → α → Tree α → α
  /-- The recomputed part does not depend on what it replaces. -/
  refresh_idem : ∀ l item r, refresh l (refresh l item r) r = refresh l item r
  refresh_paint : ∀ c d l item r, refresh (l.paint c) item (r.paint d) = refresh l item r

section Steps

variable (rule : Augment α)

/-- Recompute the derived part of the root item. -/
def renew : Tree α → Tree α
  | nil => nil
  | node color l item r => node color l (rule.refresh l item r) r

/-- Lift the right child to the root; the old root becomes its red left child. -/
def rotateLeft : Tree α → Option (Tree α)
  | node color l item (node _ inner pivot outer) =>
      let lowered := node .red l (rule.refresh l item inner) inner
      some (node color lowered (rule.refresh lowered pivot outer) outer)
  | _ => none

/-- Lift the left child to the root; the old root becomes its red right child. -/
def rotateRight : Tree α → Option (Tree α)
  | node color (node _ outer pivot inner) item r =>
      let lowered := node .red inner (rule.refresh inner item r) r
      some (node color outer (rule.refresh outer pivot lowered) lowered)
  | _ => none

/-- Invert the colours of the root and of both children. -/
def flipColors : Tree α → Tree α
  | nil => nil
  | node color l item r => node color.flip l.flipRoot item r.flipRoot

/-- Make the left child, or one of its children, red. -/
def moveRedLeft (h : Tree α) : Option (Tree α) :=
  match flipColors h with
  | node color l item (node colorRight rl pivot rr) =>
      if rl.isRed then do
        let r ← rotateRight rule (node colorRight rl pivot rr)
        let h ← rotateLeft rule (node color l item r)
        some (flipColors h)
      else
        some (node color l item (node colorRight rl pivot rr))
  | _ => none

/-- Make the right child, or one of its children, red. -/
def moveRedRight (h : Tree α) : Option (Tree α) :=
  match flipColors h with
  | node color (node colorLeft ll pivot lr) item r =>
      if ll.isRed then do
        let h ← rotateRight rule (node color (node colorLeft ll pivot lr) item r)
        some (flipColors h)
      else
        some (node color (node colorLeft ll pivot lr) item r)
  | _ => none

/-- Rotate two red links on the left, split a 4-node and recompute the root. -/
def settle (h : Tree α) : Option (Tree α) := do
  let h ← (if h.left.isRed && h.left.left.isRed then rotateRight rule h else some h)
  let h := if h.left.isRed && h.right.isRed then flipColors h else h
  some (renew rule h)

/-- Restore the invariant at a node on the way back up from a deletion. -/
def fixUp (h : Tree α) : Option (Tree α) := do
  let h ← (if h.right.isRed then rotateLeft rule h else some h)
  settle rule h

/-- Restore the invariant at a node on the way back up from an insertion. -/
def insertUp (h : Tree α) : Option (Tree α) := do
  let h ← (if h.right.isRed && !h.left.isRed then rotateLeft rule h else some h)
  settle rule h

/-- Prepare a descent into the left subtree: a black left child that is no 3-node gets a red
link. -/
def prepareLeft (h : Tree α) : Option (Tree α) :=
  if !h.left.isRed && !h.left.left.isRed then moveRedLeft rule h else some h

/-- Prepare a descent into the right subtree: a black right child that is no 3-node gets a red
link. -/
def prepareRight (h : Tree α) : Option (Tree α) :=
  if !h.right.isRed && !h.right.left.isRed then moveRedRight rule h else some h

/-- The derived part of every item is up to date. -/
def Fresh : Tree α → Prop
  | nil => True
  | node _ l item r => rule.refresh l item r = item ∧ Fresh l ∧ Fresh r

section Contents

variable {rule} {f : α → β} (keeps : ∀ l item r, f (rule.refresh l item r) = f item)
include keeps

theorem map_rotateLeft {h h' : Tree α} (step : rotateLeft rule h = some h') :
    h'.toList.map f = h.toList.map f := by
  rcases h with _ | ⟨color, l, item, _ | ⟨color', inner, pivot, outer⟩⟩
  · simp [rotateLeft] at step
  · simp [rotateLeft] at step
  · simp only [rotateLeft, Option.some.injEq] at step
    subst step
    simp [keeps]

theorem map_rotateRight {h h' : Tree α} (step : rotateRight rule h = some h') :
    h'.toList.map f = h.toList.map f := by
  rcases h with _ | ⟨color, _ | ⟨color', outer, pivot, inner⟩, item, r⟩
  · simp [rotateRight] at step
  · simp [rotateRight] at step
  · simp only [rotateRight, Option.some.injEq] at step
    subst step
    simp [keeps]

omit keeps in
@[simp] theorem toList_flipColors (h : Tree α) : (flipColors h).toList = h.toList := by
  cases h <;> simp [flipColors]

theorem map_renew (h : Tree α) : (renew rule h).toList.map f = h.toList.map f := by
  cases h <;> simp [renew, keeps]

theorem map_settle {h h' : Tree α} (step : settle rule h = some h') :
    h'.toList.map f = h.toList.map f := by
  simp only [settle, Option.bind_eq_bind, Option.bind_eq_some_iff, Option.some.injEq] at step
  obtain ⟨turned, turn, rfl⟩ := step
  have turnedEq : turned.toList.map f = h.toList.map f := by
    split_ifs at turn
    · exact map_rotateRight keeps turn
    · simp_all
  rw [map_renew keeps, ← turnedEq]
  split_ifs <;> simp

theorem map_fixUp {h h' : Tree α} (step : fixUp rule h = some h') :
    h'.toList.map f = h.toList.map f := by
  simp only [fixUp, Option.bind_eq_bind, Option.bind_eq_some_iff] at step
  obtain ⟨turned, turn, settled⟩ := step
  rw [map_settle keeps settled]
  split_ifs at turn
  · exact map_rotateLeft keeps turn
  · simp_all

theorem map_insertUp {h h' : Tree α} (step : insertUp rule h = some h') :
    h'.toList.map f = h.toList.map f := by
  simp only [insertUp, Option.bind_eq_bind, Option.bind_eq_some_iff] at step
  obtain ⟨turned, turn, settled⟩ := step
  rw [map_settle keeps settled]
  split_ifs at turn
  · exact map_rotateLeft keeps turn
  · simp_all

theorem map_moveRedLeft {h h' : Tree α} (step : moveRedLeft rule h = some h') :
    h'.toList.map f = h.toList.map f := by
  rw [← toList_flipColors h]
  unfold moveRedLeft at step
  split at step
  · rename_i color l item colorRight rl pivot rr flipped
    rw [flipped]
    split_ifs at step
    · simp only [Option.bind_eq_bind, Option.bind_eq_some_iff, Option.some.injEq] at step
      obtain ⟨r, lowered, raised, lifted, rfl⟩ := step
      rw [toList_flipColors, map_rotateLeft keeps lifted]
      simpa using map_rotateRight keeps lowered
    · simp_all
  · simp at step

theorem map_moveRedRight {h h' : Tree α} (step : moveRedRight rule h = some h') :
    h'.toList.map f = h.toList.map f := by
  rw [← toList_flipColors h]
  unfold moveRedRight at step
  split at step
  · rename_i color colorLeft ll pivot lr item r flipped
    rw [flipped]
    split_ifs at step
    · simp only [Option.bind_eq_bind, Option.bind_eq_some_iff, Option.some.injEq] at step
      obtain ⟨raised, lifted, rfl⟩ := step
      rw [toList_flipColors, map_rotateRight keeps lifted]
    · simp_all
  · simp at step

theorem map_prepareLeft {h h' : Tree α} (step : prepareLeft rule h = some h') :
    h'.toList.map f = h.toList.map f := by
  unfold prepareLeft at step
  split_ifs at step
  · exact map_moveRedLeft keeps step
  · simp_all

theorem map_prepareRight {h h' : Tree α} (step : prepareRight rule h = some h') :
    h'.toList.map f = h.toList.map f := by
  unfold prepareRight at step
  split_ifs at step
  · exact map_moveRedRight keeps step
  · simp_all

/-- A left rotation leaves the root or lifts an item from its right. -/
theorem top_moveRedLeft {color color' : Color} {l l' : Tree α} {item item' : α} {r r' : Tree α}
    (step : moveRedLeft rule (node color l item r) = some (node color' l' item' r')) :
    f item' = f item ∨ f item' ∈ r.toList.map f := by
  rcases r with _ | ⟨colorRight, rl, pivot, rr⟩
  · simp [moveRedLeft, flipColors] at step
  · simp only [moveRedLeft, flipColors, flipRoot_node] at step
    split_ifs at step
    · rcases rl with _ | ⟨colorInner, inner, lifted, outer⟩
      · simp [rotateRight] at step
      · right
        simp only [rotateRight, rotateLeft, Option.bind_eq_bind, Option.bind_some,
          Option.some.injEq, node.injEq] at step
        obtain ⟨-, -, rfl, -⟩ := step
        simp [keeps]
    · left
      simp only [Option.some.injEq, node.injEq] at step
      rw [step.2.2.1]

/-- A right rotation lifts the root of the left subtree. -/
theorem top_rotateRight {color color' : Color} {l l' : Tree α} {item item' : α} {r r' : Tree α}
    (step : rotateRight rule (node color l item r) = some (node color' l' item' r')) :
    f item' ∈ l.toList.map f := by
  rcases l with _ | ⟨colorLeft, outer, pivot, inner⟩
  · simp [rotateRight] at step
  · simp only [rotateRight, Option.some.injEq, node.injEq] at step
    obtain ⟨-, -, rfl, -⟩ := step
    simp [keeps]

theorem top_moveRedRight {color color' : Color} {l l' : Tree α} {item item' : α} {r r' : Tree α}
    (step : moveRedRight rule (node color l item r) = some (node color' l' item' r')) :
    f item' = f item ∨ f item' ∈ l.toList.map f := by
  rcases l with _ | ⟨colorLeft, ll, pivot, lr⟩
  · simp [moveRedRight, flipColors] at step
  · simp only [moveRedRight, flipColors, flipRoot_node] at step
    split_ifs at step
    · right
      simp only [rotateRight, Option.bind_eq_bind, Option.bind_some,
        Option.some.injEq, node.injEq] at step
      obtain ⟨-, -, rfl, -⟩ := step
      simp [keeps]
    · left
      simp only [Option.some.injEq, node.injEq] at step
      rw [step.2.2.1]

theorem top_prepareLeft {color color' : Color} {l l' : Tree α} {item item' : α} {r r' : Tree α}
    (step : prepareLeft rule (node color l item r) = some (node color' l' item' r')) :
    f item' = f item ∨ f item' ∈ r.toList.map f := by
  unfold prepareLeft at step
  split_ifs at step
  · exact top_moveRedLeft keeps step
  · left
    simp only [Option.some.injEq, node.injEq] at step
    rw [step.2.2.1]

theorem top_prepareRight {color color' : Color} {l l' : Tree α} {item item' : α} {r r' : Tree α}
    (step : prepareRight rule (node color l item r) = some (node color' l' item' r')) :
    f item' = f item ∨ f item' ∈ l.toList.map f := by
  unfold prepareRight at step
  split_ifs at step
  · exact top_moveRedRight keeps step
  · left
    simp only [Option.some.injEq, node.injEq] at step
    rw [step.2.2.1]

end Contents

section Derived

variable {rule}

theorem fresh_paint {tree : Tree α} (color : Color) (fresh : Fresh rule tree) :
    Fresh rule (tree.paint color) := by
  cases tree with
  | nil => trivial
  | node => exact fresh

theorem fresh_flipRoot {tree : Tree α} (fresh : Fresh rule tree) : Fresh rule tree.flipRoot := by
  cases tree with
  | nil => trivial
  | node => exact fresh

theorem refresh_flipRoot (l : Tree α) (item : α) (r : Tree α) :
    rule.refresh l.flipRoot item r.flipRoot = rule.refresh l item r := by
  have flipped (tree : Tree α) : ∃ color, tree.flipRoot = tree.paint color := by
    cases tree with
    | nil => exact ⟨.red, rfl⟩
    | node color => exact ⟨color.flip, rfl⟩
  obtain ⟨c, leftEq⟩ := flipped l
  obtain ⟨d, rightEq⟩ := flipped r
  rw [leftEq, rightEq, rule.refresh_paint]

theorem fresh_flipColors {tree : Tree α} (fresh : Fresh rule tree) :
    Fresh rule (flipColors tree) := by
  cases tree with
  | nil => trivial
  | node color l item r =>
      obtain ⟨current, left, right⟩ := fresh
      exact ⟨(refresh_flipRoot l item r).trans current, fresh_flipRoot left, fresh_flipRoot right⟩

theorem Fresh.left {tree : Tree α} (fresh : Fresh rule tree) : Fresh rule tree.left := by
  cases tree with
  | nil => trivial
  | node => exact fresh.2.1

theorem Fresh.right {tree : Tree α} (fresh : Fresh rule tree) : Fresh rule tree.right := by
  cases tree with
  | nil => trivial
  | node => exact fresh.2.2

theorem fresh_renew {tree : Tree α} (left : Fresh rule tree.left) (right : Fresh rule tree.right) :
    Fresh rule (renew rule tree) := by
  cases tree with
  | nil => trivial
  | node color l item r => exact ⟨rule.refresh_idem l item r, left, right⟩

/-- A rotation brings both nodes it moves up to date; only the subtrees it keeps must be. -/
theorem fresh_rotateLeft {h h' : Tree α} (left : Fresh rule h.left) (right : Fresh rule h.right)
    (step : rotateLeft rule h = some h') : Fresh rule h' := by
  rcases h with _ | ⟨color, l, item, _ | ⟨color', inner, pivot, outer⟩⟩
  · simp [rotateLeft] at step
  · simp [rotateLeft] at step
  · simp only [rotateLeft, Option.some.injEq] at step
    subst step
    exact ⟨rule.refresh_idem _ _ _, ⟨rule.refresh_idem _ _ _, left, right.2.1⟩, right.2.2⟩

theorem fresh_rotateRight {h h' : Tree α} (left : Fresh rule h.left) (right : Fresh rule h.right)
    (step : rotateRight rule h = some h') : Fresh rule h' := by
  rcases h with _ | ⟨color, _ | ⟨color', outer, pivot, inner⟩, item, r⟩
  · simp [rotateRight] at step
  · simp [rotateRight] at step
  · simp only [rotateRight, Option.some.injEq] at step
    subst step
    exact ⟨rule.refresh_idem _ _ _, left.2.1, rule.refresh_idem _ _ _, left.2.2, right⟩

theorem fresh_settle {h h' : Tree α} (left : Fresh rule h.left) (right : Fresh rule h.right)
    (step : settle rule h = some h') : Fresh rule h' := by
  simp only [settle, Option.bind_eq_bind, Option.bind_eq_some_iff, Option.some.injEq] at step
  obtain ⟨turned, turn, rfl⟩ := step
  have kept : Fresh rule turned.left ∧ Fresh rule turned.right := by
    split_ifs at turn
    · have fresh := fresh_rotateRight left right turn
      exact ⟨fresh.left, fresh.right⟩
    · obtain rfl : h = turned := by simpa using turn
      exact ⟨left, right⟩
  apply fresh_renew <;> split_ifs
  · cases turned with
    | nil => trivial
    | node => exact fresh_flipRoot kept.1
  · exact kept.1
  · cases turned with
    | nil => trivial
    | node => exact fresh_flipRoot kept.2
  · exact kept.2

theorem fresh_fixUp {h h' : Tree α} (left : Fresh rule h.left) (right : Fresh rule h.right)
    (step : fixUp rule h = some h') : Fresh rule h' := by
  simp only [fixUp, Option.bind_eq_bind, Option.bind_eq_some_iff] at step
  obtain ⟨turned, turn, settled⟩ := step
  split_ifs at turn
  · have fresh := fresh_rotateLeft left right turn
    exact fresh_settle fresh.left fresh.right settled
  · obtain rfl : h = turned := by simpa using turn
    exact fresh_settle left right settled

theorem fresh_insertUp {h h' : Tree α} (left : Fresh rule h.left) (right : Fresh rule h.right)
    (step : insertUp rule h = some h') : Fresh rule h' := by
  simp only [insertUp, Option.bind_eq_bind, Option.bind_eq_some_iff] at step
  obtain ⟨turned, turn, settled⟩ := step
  split_ifs at turn
  · have fresh := fresh_rotateLeft left right turn
    exact fresh_settle fresh.left fresh.right settled
  · obtain rfl : h = turned := by simpa using turn
    exact fresh_settle left right settled

theorem fresh_moveRedLeft {h h' : Tree α} (fresh : Fresh rule h)
    (step : moveRedLeft rule h = some h') : Fresh rule h' := by
  have flippedFresh := fresh_flipColors fresh
  unfold moveRedLeft at step
  split at step
  · rename_i color l item colorRight rl pivot rr flipped
    rw [flipped] at flippedFresh
    split_ifs at step
    · simp only [Option.bind_eq_bind, Option.bind_eq_some_iff, Option.some.injEq] at step
      obtain ⟨r, lowered, raised, lifted, rfl⟩ := step
      have lowFresh := fresh_rotateRight flippedFresh.right.left flippedFresh.right.right lowered
      exact fresh_flipColors (fresh_rotateLeft (h := node color l item r) flippedFresh.left
        lowFresh lifted)
    · obtain rfl := Option.some.inj step
      exact flippedFresh
  · simp at step

theorem fresh_moveRedRight {h h' : Tree α} (fresh : Fresh rule h)
    (step : moveRedRight rule h = some h') : Fresh rule h' := by
  have flippedFresh := fresh_flipColors fresh
  unfold moveRedRight at step
  split at step
  · rename_i color colorLeft ll pivot lr item r flipped
    rw [flipped] at flippedFresh
    split_ifs at step
    · simp only [Option.bind_eq_bind, Option.bind_eq_some_iff, Option.some.injEq] at step
      obtain ⟨raised, lifted, rfl⟩ := step
      exact fresh_flipColors (fresh_rotateRight flippedFresh.left flippedFresh.right lifted)
    · obtain rfl := Option.some.inj step
      exact flippedFresh
  · simp at step

theorem fresh_prepareLeft {h h' : Tree α} (fresh : Fresh rule h)
    (step : prepareLeft rule h = some h') : Fresh rule h' := by
  unfold prepareLeft at step
  split_ifs at step
  · exact fresh_moveRedLeft fresh step
  · obtain rfl := Option.some.inj step
    exact fresh

theorem fresh_prepareRight {h h' : Tree α} (fresh : Fresh rule h)
    (step : prepareRight rule h = some h') : Fresh rule h' := by
  unfold prepareRight at step
  split_ifs at step
  · exact fresh_moveRedRight fresh step
  · obtain rfl := Option.some.inj step
    exact fresh

end Derived

end Steps

end Tree

end Blubos
