import Blubos.Allocator.TreeAlloc

/-!
# What the tree operations do to the regions

In-order lists of regions and boxes, and the effect of every tree operation that returns on them.
Nothing here depends on the balance of the tree: a deletion that returns keeps a sublist of the
regions, and it has removed its key provided no second region shares it.
-/

namespace Blubos

/-- The regions of a tree in order. -/
def regions (tree : Link) : List Region := tree.toList.map (·.toSpan)

/-- The boxes of a tree in order. -/
def boxes (tree : Link) : List ℕ := tree.toList.map (·.box)

@[simp] theorem regions_nil : regions .nil = [] := rfl

@[simp] theorem regions_node (color : Color) (l : Link) (n : TreeRegion) (r : Link) :
    regions (.node color l n r) = regions l ++ n.toSpan :: regions r := by
  simp [regions]

@[simp] theorem regions_paint (color : Color) (tree : Link) :
    regions (tree.paint color) = regions tree := by
  simp [regions]

@[simp] theorem boxes_nil : boxes .nil = [] := rfl

@[simp] theorem boxes_node (color : Color) (l : Link) (n : TreeRegion) (r : Link) :
    boxes (.node color l n r) = boxes l ++ n.box :: boxes r := by
  simp [boxes]

@[simp] theorem boxes_paint (color : Color) (tree : Link) :
    boxes (tree.paint color) = boxes tree := by
  simp [boxes]

@[simp] theorem length_regions (tree : Link) : (regions tree).length = tree.count := by
  simp [regions]

@[simp] theorem length_boxes (tree : Link) : (boxes tree).length = tree.count := by
  simp [boxes]

@[simp] theorem toSpan_updateMaxSize (l : Link) (n : TreeRegion) (r : Link) :
    (updateMaxSize l n r).toSpan = n.toSpan := rfl

@[simp] theorem box_updateMaxSize (l : Link) (n : TreeRegion) (r : Link) :
    (updateMaxSize l n r).box = n.box := rfl

theorem regions_fixUp {h h' : Link} (step : fixUp h = some h') : regions h' = regions h :=
  Tree.map_fixUp (fun _ _ _ => rfl) step

theorem boxes_fixUp {h h' : Link} (step : fixUp h = some h') : boxes h' = boxes h :=
  Tree.map_fixUp (fun _ _ _ => rfl) step

theorem regions_rotateRight {h h' : Link} (step : rotateRight h = some h') :
    regions h' = regions h :=
  Tree.map_rotateRight (fun _ _ _ => rfl) step

theorem boxes_rotateRight {h h' : Link} (step : rotateRight h = some h') : boxes h' = boxes h :=
  Tree.map_rotateRight (fun _ _ _ => rfl) step

theorem regions_prepareLeft {h h' : Link} (step : prepareLeft h = some h') :
    regions h' = regions h :=
  Tree.map_prepareLeft (fun _ _ _ => rfl) step

theorem boxes_prepareLeft {h h' : Link} (step : prepareLeft h = some h') : boxes h' = boxes h :=
  Tree.map_prepareLeft (fun _ _ _ => rfl) step

theorem regions_prepareRight {h h' : Link} (step : prepareRight h = some h') :
    regions h' = regions h :=
  Tree.map_prepareRight (fun _ _ _ => rfl) step

theorem boxes_prepareRight {h h' : Link} (step : prepareRight h = some h') : boxes h' = boxes h :=
  Tree.map_prepareRight (fun _ _ _ => rfl) step

/-- The regions of a list are in order of their bases; equal bases may repeat. -/
def Sorted (spans : List Region) : Prop := spans.Pairwise fun left right => left.base ≤ right.base

theorem regions_insertUp {h h' : Link} (step : Tree.insertUp maxSizeRule h = some h') :
    regions h' = regions h :=
  Tree.map_insertUp (fun _ _ _ => rfl) step

theorem boxes_insertUp {h h' : Link} (step : Tree.insertUp maxSizeRule h = some h') :
    boxes h' = boxes h :=
  Tree.map_insertUp (fun _ _ _ => rfl) step

theorem insertNode_cases {node h' : Link} {color : Color} {l : Link} {n : TreeRegion} {r : Link}
    (step : insertNode node (.node color l n r) = some h') :
    (Link.base node < n.base ∧ ∃ l', insertNode node l = some l' ∧
        Tree.insertUp maxSizeRule (.node color l' n r) = some h') ∨
      (n.base ≤ Link.base node ∧ ∃ r', insertNode node r = some r' ∧
        Tree.insertUp maxSizeRule (.node color l n r') = some h') := by
  simp only [insertNode, Option.bind_eq_bind, Option.bind_eq_some_iff] at step
  obtain ⟨h, placed, fixed⟩ := step
  split_ifs at placed with below
  · simp only [Option.bind_eq_some_iff, Option.some.injEq] at placed
    obtain ⟨l', inserted, rfl⟩ := placed
    exact .inl ⟨below, l', inserted, fixed⟩
  · simp only [Option.bind_eq_some_iff, Option.some.injEq] at placed
    obtain ⟨r', inserted, rfl⟩ := placed
    exact .inr ⟨not_lt.mp below, r', inserted, fixed⟩

/-- Insertion puts the region in front of the first region with a larger base. -/
theorem regions_insertNode {color : Color} {item : TreeRegion} {h h' : Link}
    (step : insertNode (.node color .nil item .nil) h = some h') :
    ∃ before after, regions h = before ++ after ∧
      regions h' = before ++ item.toSpan :: after ∧
      (Sorted (regions h) →
        (∀ r ∈ before, r.base ≤ item.base) ∧ ∀ r ∈ after, item.base < r.base) := by
  induction h generalizing h' with
  | nil =>
      obtain rfl := Option.some.inj step
      exact ⟨[], [], rfl, by simp, by simp⟩
  | node rootColor l n r ihl ihr =>
      rcases insertNode_cases step with ⟨below, l', inserted, fixed⟩ | ⟨above, r', inserted, fixed⟩
      · obtain ⟨before, after, split, joined, placed⟩ := ihl inserted
        refine ⟨before, after ++ n.toSpan :: regions r, by simp [split], ?_, fun sorted => ?_⟩
        · rw [regions_insertUp fixed, regions_node, joined]
          simp
        · rw [regions_node, Sorted, List.pairwise_append] at sorted
          obtain ⟨sortedLeft, sortedRight, -⟩ := sorted
          obtain ⟨small, large⟩ := placed sortedLeft
          refine ⟨small, fun s member => ?_⟩
          rw [List.mem_append, List.mem_cons] at member
          rcases member with member | rfl | member
          · exact large s member
          · exact below
          · exact below.trans_le ((List.pairwise_cons.mp sortedRight).1 s member)
      · obtain ⟨before, after, split, joined, placed⟩ := ihr inserted
        refine ⟨regions l ++ n.toSpan :: before, after, by simp [split], ?_, fun sorted => ?_⟩
        · rw [regions_insertUp fixed, regions_node, joined]
          simp
        · rw [regions_node, Sorted, List.pairwise_append] at sorted
          obtain ⟨-, sortedRight, cross⟩ := sorted
          obtain ⟨small, large⟩ := placed (List.pairwise_cons.mp sortedRight).2
          refine ⟨fun s member => ?_, large⟩
          rw [List.mem_append, List.mem_cons] at member
          rcases member with member | rfl | member
          · exact (cross s member n.toSpan List.mem_cons_self).trans above
          · exact above
          · exact small s member

theorem boxes_insertNode {color : Color} {item : TreeRegion} {h h' : Link}
    (step : insertNode (.node color .nil item .nil) h = some h') :
    (boxes h').Perm (item.box :: boxes h) := by
  induction h generalizing h' with
  | nil =>
      obtain rfl := Option.some.inj step
      simp
  | node rootColor l n r ihl ihr =>
      rcases insertNode_cases step with ⟨-, l', inserted, fixed⟩ | ⟨-, r', inserted, fixed⟩
      · rw [boxes_insertUp fixed, boxes_node, boxes_node]
        exact (ihl inserted).append_right _
      · rw [boxes_insertUp fixed, boxes_node, boxes_node]
        exact (((ihr inserted).cons n.box).append_left (boxes l)).trans
          (((List.Perm.swap _ _ _).append_left _).trans List.perm_middle)

/-- The last region below an address, when the regions are sorted. -/
theorem predecessor_spec {addr : ℕ} {tree : Link} {pred found : Option TreeRegion}
    (sorted : Sorted (regions tree))
    (search : RBTreeAlloc.predecessor addr tree pred = found) :
    (found = pred ∧ ∀ r ∈ regions tree, addr ≤ r.base) ∨
      ∃ p before after, found = some p ∧ regions tree = before ++ p.toSpan :: after ∧
        p.base < addr ∧ ∀ r ∈ after, addr ≤ r.base := by
  induction tree generalizing pred with
  | nil => exact .inl ⟨search.symm, by simp⟩
  | node color l n r ihl ihr =>
      rw [regions_node, Sorted, List.pairwise_append] at sorted
      obtain ⟨sortedLeft, sortedRight, -⟩ := sorted
      obtain ⟨least, sortedRight⟩ := List.pairwise_cons.mp sortedRight
      rw [RBTreeAlloc.predecessor] at search
      split_ifs at search with below
      · rcases ihr sortedRight search with ⟨rfl, above⟩ | ⟨p, before, after, rfl, split, rest⟩
        · exact .inr ⟨n, regions l, regions r, rfl, by simp, below, above⟩
        · exact .inr ⟨p, regions l ++ n.toSpan :: before, after, rfl, by simp [split], rest⟩
      · rcases ihl sortedLeft search with ⟨rfl, above⟩ | ⟨p, before, after, rfl, split, small, rest⟩
        · refine .inl ⟨rfl, fun s member => ?_⟩
          rw [regions_node, List.mem_append, List.mem_cons] at member
          rcases member with member | rfl | member
          · exact above s member
          · exact not_lt.mp below
          · exact (not_lt.mp below).trans (least s member)
        · refine .inr ⟨p, before, after ++ n.toSpan :: regions r, rfl, by simp [split], small, ?_⟩
          intro s member
          rw [List.mem_append, List.mem_cons] at member
          rcases member with member | rfl | member
          · exact rest s member
          · exact not_lt.mp below
          · exact (not_lt.mp below).trans (least s member)

/-- The first region at or above an address, when the regions are sorted. -/
theorem successor_spec {addr : ℕ} {tree : Link} {succ found : Option TreeRegion}
    (sorted : Sorted (regions tree))
    (search : RBTreeAlloc.successor addr tree succ = found) :
    (found = succ ∧ ∀ r ∈ regions tree, r.base < addr) ∨
      ∃ s before after, found = some s ∧ regions tree = before ++ s.toSpan :: after ∧
        addr ≤ s.base ∧ ∀ r ∈ before, r.base < addr := by
  induction tree generalizing succ with
  | nil => exact .inl ⟨search.symm, by simp⟩
  | node color l n r ihl ihr =>
      rw [regions_node, Sorted, List.pairwise_append] at sorted
      obtain ⟨sortedLeft, sortedRight, cross⟩ := sorted
      obtain ⟨-, sortedRight⟩ := List.pairwise_cons.mp sortedRight
      rw [RBTreeAlloc.successor] at search
      split_ifs at search with above
      · rcases ihl sortedLeft search with ⟨rfl, below⟩ | ⟨s, before, after, rfl, split, rest⟩
        · exact .inr ⟨n, regions l, regions r, rfl, by simp, above, below⟩
        · exact .inr ⟨s, before, after ++ n.toSpan :: regions r, rfl, by simp [split], rest⟩
      · have leftBelow : ∀ q ∈ regions l, q.base < addr := fun q member =>
          (cross q member n.toSpan List.mem_cons_self).trans_lt (not_le.mp above)
        rcases ihr sortedRight search with
          ⟨rfl, below⟩ | ⟨s, before, after, rfl, split, large, rest⟩
        · refine .inl ⟨rfl, fun q member => ?_⟩
          rw [regions_node, List.mem_append, List.mem_cons] at member
          rcases member with member | rfl | member
          · exact leftBelow q member
          · exact not_le.mp above
          · exact below q member
        · refine .inr ⟨s, regions l ++ n.toSpan :: before, after, rfl, by simp [split], large, ?_⟩
          intro q member
          rw [List.mem_append, List.mem_cons] at member
          rcases member with member | rfl | member
          · exact leftBelow q member
          · exact not_le.mp above
          · exact rest q member

/-- Sorted, and at most one region starts at `key`. -/
def KeySorted (key : ℕ) (spans : List Region) : Prop :=
  spans.Pairwise fun left right =>
    left.base ≤ right.base ∧ (left.base = key → right.base ≠ key)

theorem KeySorted.sublist {key : ℕ} {spans kept : List Region} (sub : kept.Sublist spans)
    (sorted : KeySorted key spans) : KeySorted key kept := List.Pairwise.sublist sub sorted

theorem KeySorted.around {key : ℕ} {before after : List Region} {span : Region}
    (sorted : KeySorted key (before ++ span :: after)) :
    (∀ r ∈ before, r.base ≤ span.base ∧ (r.base = key → span.base ≠ key)) ∧
      (∀ r ∈ after, span.base ≤ r.base ∧ (span.base = key → r.base ≠ key)) ∧
      KeySorted key before ∧ KeySorted key after := by
  obtain ⟨sortedBefore, sortedAfter, cross⟩ := List.pairwise_append.mp sorted
  obtain ⟨spanAfter, sortedAfter⟩ := List.pairwise_cons.mp sortedAfter
  exact ⟨fun r member => cross r member span List.mem_cons_self, spanAfter, sortedBefore,
    sortedAfter⟩

/-- What comes to the top of a node, from the node or from its left, does not pass the key. -/
theorem KeySorted.top_le {key : ℕ} {color : Color} {l : Link} {item top : TreeRegion} {r : Link}
    (sorted : KeySorted key (regions (.node color l item r))) (above : item.base ≤ key)
    (origin : top.toSpan = item.toSpan ∨ top.toSpan ∈ regions l) : top.base ≤ key := by
  rw [regions_node] at sorted
  rcases origin with same | lifted
  · exact (congrArg Span.base same).trans_le above
  · exact (sorted.around.1 _ lifted).1.trans above

theorem minNode_spec {h : Link} {min : TreeRegion} (found : minNode h = some min) :
    ∃ rest, regions h = min.toSpan :: rest := by
  induction h with
  | nil => simp [minNode] at found
  | node color l n r ihl =>
      cases l with
      | nil =>
          obtain rfl := Option.some.inj found
          exact ⟨regions r, by simp⟩
      | node colorLeft ll leftItem lr =>
          obtain ⟨rest, split⟩ := ihl (by simpa [minNode] using found)
          exact ⟨rest ++ n.toSpan :: regions r, by rw [regions_node, split]; rfl⟩

/-- The two ways `delete_min` returns. -/
theorem deleteMin_cases {depth : ℕ} {self self' : RBTreeAlloc} {color : Color} {l : Link}
    {n : TreeRegion} {r tree : Link}
    (step : RBTreeAlloc.deleteMin (depth + 1) self (.node color l n r) = some (tree, self')) :
    (l = .nil ∧ tree = .nil ∧ self' = self.freeNode (.node color l n r)) ∨
      ∃ color' l' n' r' kept, prepareLeft (.node color l n r) = some (.node color' l' n' r') ∧
        RBTreeAlloc.deleteMin depth self l' = some (kept, self') ∧
        fixUp (.node color' kept n' r') = some tree := by
  unfold RBTreeAlloc.deleteMin at step
  split_ifs at step with empty
  · left
    simp only [Option.some.injEq, Prod.mk.injEq] at step
    obtain ⟨rfl, rfl⟩ := step
    cases l with
    | nil => exact ⟨rfl, rfl, rfl⟩
    | node => simp at empty
  · right
    split at step
    · rename_i color' l' n' r' prepared
      simp only [Option.bind_eq_bind, Option.bind_eq_some_iff, Option.some.injEq, Prod.exists,
        Prod.mk.injEq] at step
      obtain ⟨kept, _, inner, _, fixed, rfl, rfl⟩ := step
      exact ⟨color', l', n', r', kept, prepared, inner, fixed⟩
    · simp at step

/-- `delete_min` keeps regions after the first only. -/
theorem regions_deleteMin {depth : ℕ} {self self' : RBTreeAlloc} {h tree : Link}
    (step : RBTreeAlloc.deleteMin depth self h = some (tree, self')) :
    h ≠ .nil ∧ (regions tree).Sublist (regions h).tail := by
  induction depth generalizing h tree self' with
  | zero => simp [RBTreeAlloc.deleteMin] at step
  | succ depth induction =>
      cases h with
      | nil => simp [RBTreeAlloc.deleteMin] at step
      | node color l n r =>
          refine ⟨by simp, ?_⟩
          rcases deleteMin_cases step with
            ⟨-, rfl, -⟩ | ⟨color', l', n', r', kept, prepared, inner, fixed⟩
          · simp
          · obtain ⟨occupied, sub⟩ := induction inner
            rw [← regions_prepareLeft prepared, regions_fixUp fixed, regions_node, regions_node]
            have first : regions l' ≠ [] := by
              cases l' with
              | nil => exact absurd rfl occupied
              | node => simp
            rw [List.tail_append_of_ne_nil first]
            exact sub.append_right _

/-- The ways `delete` returns from a node that starts after the key. -/
theorem delete_left_cases {depth key : ℕ} {self self' : RBTreeAlloc} {color : Color} {l : Link}
    {n : TreeRegion} {r tree : Link}
    (step : RBTreeAlloc.delete (depth + 1) self (.node color l n r) key = some (tree, self'))
    (below : key < n.base) :
    (l = .nil ∧ fixUp (.node color l n r) = some tree ∧ self' = self) ∨
      ∃ color' l' n' r' kept, prepareLeft (.node color l n r) = some (.node color' l' n' r') ∧
        RBTreeAlloc.delete depth self l' key = some (kept, self') ∧
        fixUp (.node color' kept n' r') = some tree := by
  rw [RBTreeAlloc.delete, if_pos below] at step
  by_cases empty : l.isNil = true
  · rw [if_pos empty] at step
    simp only [Option.bind_eq_bind, Option.bind_eq_some_iff, Option.some.injEq,
      Prod.mk.injEq] at step
    obtain ⟨_, fixed, rfl, rfl⟩ := step
    cases l with
    | nil => exact .inl ⟨rfl, fixed, rfl⟩
    | node => simp at empty
  · rw [if_neg empty] at step
    split at step
    · rename_i color' l' n' r' prepared
      simp only [Option.bind_eq_bind, Option.bind_eq_some_iff, Option.some.injEq, Prod.exists,
        Prod.mk.injEq] at step
      obtain ⟨kept, _, inner, _, fixed, rfl, rfl⟩ := step
      exact .inr ⟨color', l', n', r', kept, prepared, inner, fixed⟩
    · simp at step

/-- The ways it returns from any other node, which it first rotates to the right. -/
theorem delete_turned_cases {depth key : ℕ} {self self' : RBTreeAlloc} {color : Color} {l : Link}
    {n : TreeRegion} {r tree : Link}
    (step : RBTreeAlloc.delete (depth + 1) self (.node color l n r) key = some (tree, self'))
    (above : ¬key < n.base) :
    ∃ turned, (if l.isRed then rotateRight (.node color l n r) else some (.node color l n r)) =
        some turned ∧
      ((key = Link.base turned ∧ turned.right.isNil ∧ tree = .nil ∧
          self' = self.freeNode turned) ∨
        (key ≠ Link.base turned ∧ turned.right.isNil ∧ fixUp turned = some tree ∧ self' = self) ∨
        ∃ color' l' n' r', prepareRight turned = some (.node color' l' n' r') ∧
          ((key = n'.base ∧ ∃ min kept, minNode r' = some min ∧
              RBTreeAlloc.deleteMin depth self r' = some (kept, self') ∧
              fixUp (.node color' l' { n' with base := min.base, size := min.size } kept) =
                some tree) ∨
            (key ≠ n'.base ∧ ∃ kept, RBTreeAlloc.delete depth self r' key = some (kept, self') ∧
              fixUp (.node color' l' n' kept) = some tree))) := by
  rw [RBTreeAlloc.delete, if_neg above, Option.bind_eq_bind, Option.bind_eq_some_iff] at step
  obtain ⟨turned, turn, step⟩ := step
  refine ⟨turned, turn, ?_⟩
  split_ifs at step with hit leaf
  · left
    simp only [Option.some.injEq, Prod.mk.injEq] at step
    simp only [Bool.and_eq_true, decide_eq_true_eq] at hit
    exact ⟨hit.1, hit.2, step.1.symm, step.2.symm⟩
  · right; left
    simp only [Option.bind_eq_some_iff, Option.some.injEq, Prod.mk.injEq] at step
    obtain ⟨_, fixed, rfl, rfl⟩ := step
    exact ⟨fun same => hit (by simp [same, leaf]), leaf, fixed, rfl⟩
  · right; right
    split at step
    · rename_i color' l' n' r' prepared
      refine ⟨color', l', n', r', prepared, ?_⟩
      split_ifs at step with same
      · simp only [Option.bind_eq_bind, Option.bind_eq_some_iff, Option.some.injEq, Prod.exists,
          Prod.mk.injEq] at step
        obtain ⟨min, found, kept, _, inner, _, fixed, rfl, rfl⟩ := step
        exact .inl ⟨same, min, kept, found, inner, fixed⟩
      · simp only [Option.bind_eq_bind, Option.bind_eq_some_iff, Option.some.injEq, Prod.exists,
          Prod.mk.injEq] at step
        obtain ⟨kept, _, inner, _, fixed, rfl, rfl⟩ := step
        exact .inr ⟨same, kept, inner, fixed⟩
    · simp at step

/-- The right rotation on the way to a key leaves a node that starts no later than before. -/
theorem turn_spec {color : Color} {l : Link} {n : TreeRegion} {r turned : Link}
    (turn : (if l.isRed then rotateRight (.node color l n r) else some (.node color l n r)) =
      some turned) :
    ∃ color' l' n' r', turned = .node color' l' n' r' ∧
      regions turned = regions (.node color l n r) ∧
      (n'.toSpan = n.toSpan ∨ n'.toSpan ∈ regions l) := by
  split_ifs at turn
  · have kept := regions_rotateRight turn
    cases turned with
    | nil => simp at kept
    | node color' l' n' r' =>
        exact ⟨color', l', n', r', rfl, kept, .inr (Tree.top_rotateRight (fun _ _ _ => rfl) turn)⟩
  · obtain rfl := Option.some.inj turn
    exact ⟨color, l, n, r, rfl, rfl, .inl rfl⟩

/-- What is left of a tree after the deletion of a key: a sublist of its regions, and none that
starts at the key when the regions are sorted and the key is not shared. -/
def Sheds (key : ℕ) (h tree : Link) : Prop :=
  (regions tree).Sublist (regions h) ∧
    (KeySorted key (regions h) → ∀ r ∈ regions tree, r.base ≠ key)

namespace Sheds

variable {key : ℕ} {color color' : Color} {l l' r r' h tree kept turned : Link} {n n' : TreeRegion}

theorem congr (same : regions turned = regions h) (sheds : Sheds key turned tree) :
    Sheds key h tree := by
  rw [Sheds, ← same]
  exact sheds

theorem none_left (below : key < n.base) (fixed : fixUp (.node color .nil n r) = some tree) :
    Sheds key (.node color .nil n r) tree := by
  rw [Sheds, regions_fixUp fixed]
  refine ⟨List.Sublist.refl _, fun sorted s member => ?_⟩
  rw [regions_node] at sorted member
  obtain ⟨-, right, -, -⟩ := sorted.around
  rcases List.mem_cons.mp member with rfl | member
  · exact below.ne'
  · exact (below.trans_le (right s member).1).ne'

theorem left (below : key < n.base)
    (prepared : prepareLeft (.node color l n r) = some (.node color' l' n' r'))
    (sheds : Sheds key l' kept) (fixed : fixUp (.node color' kept n' r') = some tree) :
    Sheds key (.node color l n r) tree := by
  obtain ⟨sub, absent⟩ := sheds
  have whole := regions_prepareLeft prepared
  rw [Sheds, regions_fixUp fixed, ← whole, regions_node, regions_node]
  refine ⟨sub.append_right _, fun sorted s member => ?_⟩
  have top : n.base ≤ n'.base := by
    rw [← regions_node color', whole, regions_node] at sorted
    rcases Tree.top_prepareLeft (f := TreeRegion.toSpan) (fun _ _ _ => rfl) prepared with
      same | lifted
    · exact (congrArg Span.base same).ge
    · exact (sorted.around.2.1 _ lifted).1
  obtain ⟨-, right, sortedLeft, -⟩ := sorted.around
  rw [List.mem_append, List.mem_cons] at member
  rcases member with member | rfl | member
  · exact absent sortedLeft s member
  · exact (below.trans_le top).ne'
  · exact (below.trans_le (top.trans (right s member).1)).ne'

theorem none_right (reached : KeySorted key (regions (.node color l n r)) → n.base ≤ key)
    (miss : key ≠ n.base) (leaf : r.isNil = true) (fixed : fixUp (.node color l n r) = some tree) :
    Sheds key (.node color l n r) tree := by
  rw [Sheds, regions_fixUp fixed]
  refine ⟨List.Sublist.refl _, fun sorted s member => ?_⟩
  have smaller : n.base < key := lt_of_le_of_ne (reached sorted) (Ne.symm miss)
  obtain rfl : r = .nil := by
    cases r with
    | nil => rfl
    | node => simp at leaf
  rw [regions_node] at sorted
  rw [regions_node, regions_nil, List.mem_append, List.mem_singleton] at member
  rcases member with member | rfl
  · exact ((sorted.around.1 s member).1.trans_lt smaller).ne
  · exact smaller.ne

/-- The node of the key takes the contents of the least node to its right. -/
theorem replaced {depth : ℕ} {self self' : RBTreeAlloc} {min : TreeRegion}
    (prepared : prepareRight (.node color l n r) = some (.node color' l' n' r'))
    (hit : key = n'.base) (first : minNode r' = some min)
    (inner : RBTreeAlloc.deleteMin depth self r' = some (kept, self'))
    (fixed : fixUp (.node color' l' { n' with base := min.base, size := min.size } kept) =
      some tree) :
    Sheds key (.node color l n r) tree := by
  obtain ⟨tail, split⟩ := minNode_spec first
  obtain ⟨-, sub⟩ := regions_deleteMin inner
  rw [split, List.tail_cons] at sub
  rw [Sheds, regions_fixUp fixed, ← regions_prepareRight prepared, regions_node, regions_node,
    split]
  refine ⟨List.Sublist.append_left ((sub.cons_cons _).cons _) _, fun sorted s member => ?_⟩
  obtain ⟨left, right, -, -⟩ := sorted.around
  rw [List.mem_append] at member
  rcases member with member | member
  · exact fun equal => (left s member).2 equal hit.symm
  · exact (right s ((sub.cons_cons _).subset member)).2 hit.symm

theorem right (reached : KeySorted key (regions (.node color l n r)) → n.base ≤ key)
    (prepared : prepareRight (.node color l n r) = some (.node color' l' n' r'))
    (miss : key ≠ n'.base) (sheds : Sheds key r' kept)
    (fixed : fixUp (.node color' l' n' kept) = some tree) : Sheds key (.node color l n r) tree := by
  obtain ⟨sub, absent⟩ := sheds
  have whole := regions_prepareRight prepared
  have top (sorted : KeySorted key (regions (.node color l n r))) : n'.base ≤ key :=
    sorted.top_le (reached sorted)
      (Tree.top_prepareRight (f := TreeRegion.toSpan) (fun _ _ _ => rfl) prepared)
  constructor
  · rw [regions_fixUp fixed, ← whole, regions_node, regions_node]
    exact List.Sublist.append_left (sub.cons_cons _) _
  · intro sorted s member
    have smaller : n'.base < key := lt_of_le_of_ne (top sorted) (Ne.symm miss)
    rw [← whole, regions_node] at sorted
    rw [regions_fixUp fixed, regions_node, List.mem_append, List.mem_cons] at member
    obtain ⟨left, -, -, sortedRight⟩ := sorted.around
    rcases member with member | rfl | member
    · exact ((left s member).1.trans_lt smaller).ne
    · exact smaller.ne
    · exact absent sortedRight s member

end Sheds

/-- `delete` takes away nothing but the key. -/
theorem regions_delete {depth key : ℕ} {self self' : RBTreeAlloc} {h tree : Link}
    (step : RBTreeAlloc.delete depth self h key = some (tree, self')) : Sheds key h tree := by
  induction depth generalizing h tree self' with
  | zero => simp [RBTreeAlloc.delete] at step
  | succ depth induction =>
      cases h with
      | nil =>
          simp only [RBTreeAlloc.delete, Option.some.injEq, Prod.mk.injEq] at step
          obtain ⟨rfl, rfl⟩ := step
          simp [Sheds]
      | node color l n r =>
          by_cases below : key < n.base
          · rcases delete_left_cases step below with
              ⟨rfl, fixed, -⟩ | ⟨color', l', n', r', kept, prepared, inner, fixed⟩
            · exact .none_left below fixed
            · exact .left below prepared (induction inner) fixed
          · obtain ⟨turned, turn, found⟩ := delete_turned_cases step below
            have above := not_lt.mp below
            obtain ⟨colorT, lt, nt, rt, rfl, turnedEq, turnedTop⟩ := turn_spec turn
            have reached (sorted : KeySorted key (regions (.node colorT lt nt rt))) :
                nt.base ≤ key := by
              rw [turnedEq] at sorted
              exact sorted.top_le above turnedTop
            apply Sheds.congr turnedEq
            rcases found with
              ⟨-, -, rfl, -⟩ | ⟨miss, leaf, fixed, -⟩ | ⟨color', l', n', r', prepared, rest⟩
            · simp [Sheds]
            · exact .none_right reached miss leaf fixed
            · rcases rest with ⟨hit, min, kept, first, inner, fixed⟩ | ⟨miss, kept, inner, fixed⟩
              · exact .replaced prepared hit first inner fixed
              · exact .right reached prepared miss (induction inner) fixed

end Blubos
