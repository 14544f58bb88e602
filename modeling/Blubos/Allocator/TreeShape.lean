import Blubos.Allocator.TreeContents
import Blubos.Foundation.LeaningBalance

/-!
# Deletion and insertion return on balanced trees

On a balanced tree whose regions are in order and share no base with the key, `delete` unwraps no
absent child, hands at most one node to `free_node`, and that node has no child.  Insertion returns
on every balanced tree.  The root may be red after a deletion, since only `insert` and `alloc`
paint it.
-/

namespace Blubos

open Blubos.Tree (LeftLeaning RootLeaning Remainder Thick Spare)

/-- The allocator after at most one childless node went to the freelist. -/
def RBTreeAlloc.recycle (self : RBTreeAlloc) : Option (Color × TreeRegion) → RBTreeAlloc
  | none => self
  | some (color, n) => self.freeNode (.node color .nil n .nil)

def freedBox (freed : Option (Color × TreeRegion)) : List ℕ := freed.toList.map (·.2.box)

/-- A deletion below `h` returned a tree of black height `n`, red only if `h` was, and recycled the
node that went missing. -/
def Erased (self : RBTreeAlloc) (h : Link) (n : ℕ) (result : Option (Link × RBTreeAlloc)) : Prop :=
  ∃ tree freed, result = some (tree, self.recycle freed) ∧ LeftLeaning n tree ∧
    (tree.isRed = true → h.isRed = true) ∧ (boxes h).Perm (freedBox freed ++ boxes tree)

theorem count_eq_of_boxes {h h' : Link} (same : boxes h' = boxes h) : h'.count = h.count := by
  simpa using congrArg List.length same

theorem prepareLeft_count {h : Link} {color : Color} {l : Link} {n : TreeRegion} {r : Link}
    (prepared : prepareLeft h = some (.node color l n r)) : l.count < h.count := by
  have counted := count_eq_of_boxes (boxes_prepareLeft prepared)
  simp only [Tree.count] at counted
  omega

theorem prepareRight_count {h : Link} {color : Color} {l : Link} {n : TreeRegion} {r : Link}
    (prepared : prepareRight h = some (.node color l n r)) : r.count < h.count := by
  have counted := count_eq_of_boxes (boxes_prepareRight prepared)
  simp only [Tree.count] at counted
  omega

/-- Preparing a node over balanced children leaves it a left child that can lose a node. -/
theorem prepareLeft_balanced {m : ℕ} {color : Color} {l : Link} {item : TreeRegion} {r : Link}
    (hl : LeftLeaning m l) (hr : LeftLeaning m r) (rightBlack : r.isRed = false)
    (occupied : l.isNil = false) :
    ∃ color' l' item' r' k, prepareLeft (.node color l item r) = some (.node color' l' item' r') ∧
      LeftLeaning k l' ∧ Thick l' ∧ LeftLeaning k r' ∧
      ∀ kept : Link, (kept.isRed = true → l'.isRed = true) →
        Remainder color l r m color' k kept r' :=
  Tree.prepareLeft_spec maxSizeRule hl hr rightBlack occupied

/-- The same on the right, where the right child may first have to be descended once more. -/
theorem prepareRight_balanced {m : ℕ} {color : Color} {l : Link} {item : TreeRegion} {r : Link}
    (hl : LeftLeaning m l) (leftBlack : l.isRed = false) (hr : LeftLeaning m r)
    (occupied : r.isNil = false) :
    ∃ color' l' item' r' k, prepareRight (.node color l item r) = some (.node color' l' item' r') ∧
      LeftLeaning k l' ∧
      (∀ kept : Link, (kept.isRed = true → r'.isRed = true) →
        Remainder color l r m color' k l' kept) ∧
      ((item' = item ∧ LeftLeaning k r' ∧ Thick r') ∨
        ∃ n x y, k = n + 1 ∧ r' = .node .black x (updateMaxSize x item y) y ∧ LeftLeaning n x ∧
          x.isRed = false ∧ LeftLeaning n y ∧ y.isRed = true) :=
  Tree.prepareRight_spec maxSizeRule hl leftBlack hr occupied

theorem minNode_isSome {h : Link} (occupied : h.isNil = false) : ∃ min, minNode h = some min := by
  induction h with
  | nil => simp at occupied
  | node color l n r induction =>
      cases l with
      | nil => exact ⟨n, rfl⟩
      | node => exact induction rfl

theorem LeftLeaning.zero_of_nil {n : ℕ} (leaning : LeftLeaning n (.nil : Link)) : n = 0 := by
  cases leaning
  rfl

/-- One more level of depth changes nothing once the depth exceeds the number of nodes. -/
theorem deleteMin_depth {depth : ℕ} {self : RBTreeAlloc} {h : Link} (deep : h.count ≤ depth) :
    RBTreeAlloc.deleteMin (depth + 1) self h = RBTreeAlloc.deleteMin depth self h := by
  induction depth generalizing h with
  | zero =>
      cases h with
      | nil => rfl
      | node => simp [Tree.count] at deep
  | succ depth induction =>
      cases h with
      | nil => rfl
      | node color l n r =>
          rw [RBTreeAlloc.deleteMin, RBTreeAlloc.deleteMin]
          cases prepared : prepareLeft (.node color l n r) with
          | none => rfl
          | some h =>
              cases h with
              | nil => rfl
              | node color' l' n' r' =>
                  have shallow := prepareLeft_count prepared
                  simp only [induction (h := l') (by omega)]

theorem delete_depth {depth key : ℕ} {self : RBTreeAlloc} {h : Link} (deep : h.count < depth) :
    RBTreeAlloc.delete (depth + 1) self h key = RBTreeAlloc.delete depth self h key := by
  induction depth generalizing h with
  | zero => omega
  | succ depth induction =>
      cases h with
      | nil => rfl
      | node color l n r =>
          rw [RBTreeAlloc.delete, RBTreeAlloc.delete]
          congr 1
          · congr 1
            cases prepared : prepareLeft (.node color l n r) with
            | none => rfl
            | some h =>
                cases h with
                | nil => rfl
                | node color' l' n' r' =>
                    have shallow := prepareLeft_count prepared
                    simp only [induction (h := l') (by omega)]
          · cases turn : (if l.isRed then rotateRight (.node color l n r)
              else some (.node color l n r)) with
            | none => rfl
            | some turned =>
                have same : turned.count = (Tree.node color l n r).count := by
                  split_ifs at turn
                  · exact count_eq_of_boxes (boxes_rotateRight turn)
                  · rw [Option.some.inj turn]
                simp only [Option.bind_eq_bind, Option.bind_some]
                congr 2
                cases prepared : prepareRight turned with
                | none => rfl
                | some h =>
                    cases h with
                    | nil => rfl
                    | node color' l' n' r' =>
                        have shallow := prepareRight_count prepared
                        simp only [induction (h := r') (by omega),
                          @deleteMin_depth depth self r' (by omega)]

/-- The bound on the depth of `delete` is never the reason why it has no result. -/
theorem delete_depth_le {depth depth' key : ℕ} {self : RBTreeAlloc} {h : Link}
    (deep : h.count < depth) (deeper : depth ≤ depth') :
    RBTreeAlloc.delete depth' self h key = RBTreeAlloc.delete depth self h key := by
  induction deeper with
  | refl => rfl
  | step deeper induction => rw [delete_depth (deep.trans_le deeper), induction]

/-- `delete_min` on a balanced tree that can lose a node. -/
theorem deleteMin_spec {depth n : ℕ} {self : RBTreeAlloc} {h : Link} (leaning : LeftLeaning n h)
    (thick : Thick h) (deep : h.count ≤ depth) :
    Erased self h n (RBTreeAlloc.deleteMin depth self h) := by
  induction depth generalizing n h with
  | zero =>
      cases h with
      | nil => simp [Thick] at thick
      | node => simp [Tree.count] at deep
  | succ depth induction =>
      obtain ⟨color, l, item, r, m, rfl, rfl, hl, hr, rightBlack, spare⟩ := leaning.spare thick
      cases occupied : l.isNil with
      | true =>
          obtain rfl : l = .nil := by
            cases l with
            | nil => rfl
            | node => simp at occupied
          obtain rfl := LeftLeaning.zero_of_nil hl
          obtain rfl := hr.eq_nil rightBlack
          cases color with
          | black => simp [Spare] at spare
          | red => exact ⟨.nil, some (.red, item), rfl, .nil, by simp, by simp [freedBox]⟩
      | false =>
          obtain ⟨color', l', item', r', k, prepared, left, thick', right, remainder⟩ :=
            @prepareLeft_balanced m color l item r hl hr rightBlack occupied
          have whole : boxes (.node color' l' item' r') = boxes (.node color l item r) :=
            boxes_prepareLeft prepared
          have shallow : l'.count ≤ depth :=
            Nat.le_of_lt_succ ((prepareLeft_count prepared).trans_le deep)
          obtain ⟨kept, freed, inner, keptLeaning, onlyRed, moved⟩ := induction left thick' shallow
          obtain ⟨tree, fixed, treeLeaning, treeRed⟩ :=
            (remainder kept onlyRed).fixUp maxSizeRule spare keptLeaning right item'
          refine ⟨tree, freed, ?_, treeLeaning, ?_, ?_⟩
          · have fixed' : fixUp (.node color' kept item' r') = some tree := fixed
            simp [RBTreeAlloc.deleteMin, occupied, prepared, inner, fixed']
          · intro red
            rw [treeRed red, Tree.isRed_red]
          · rw [← whole, boxes_fixUp fixed, boxes_node, boxes_node, ← List.append_assoc]
            exact moved.append_right _

/-! ## Deletion of a key -/

/-- What the induction on the depth provides for the subtrees a deletion enters: a node that can
lose one, with a black right child or a key that does not lie to its left. -/
def Handles (depth key : ℕ) (self : RBTreeAlloc) : Prop :=
  ∀ {m : ℕ} {color : Color} {l : Link} {item : TreeRegion} {r : Link}, LeftLeaning m l →
    LeftLeaning m r → Spare color l r → (r.isRed = false ∨ l.isRed = false ∧ item.base ≤ key) →
    KeySorted key (regions (.node color l item r)) → (Tree.node color l item r).count ≤ depth →
    Erased self (.node color l item r) (color.raise m)
      (RBTreeAlloc.delete depth self (.node color l item r) key)

/-- What a deletion at a node leaves to do: nothing, when the node was childless and has been
recycled, or `fix_up` of a remainder. -/
def Descended (self : RBTreeAlloc) (m : ℕ) (color : Color) (l : Link) (item : TreeRegion)
    (r : Link) (result : Option (Link × RBTreeAlloc)) : Prop :=
  (∃ freed, result = some (.nil, self.recycle (some freed)) ∧ m = 0 ∧ l.isRed = false ∧
      r.isRed = false ∧ (boxes (.node color l item r)).Perm [freed.2.box]) ∨
    ∃ color' k l' item' r' freed,
      (∀ tree, fixUp (.node color' l' item' r') = some tree →
        result = some (tree, self.recycle freed)) ∧
      LeftLeaning k l' ∧ LeftLeaning k r' ∧ Remainder color l r m color' k l' r' ∧
      (boxes (.node color l item r)).Perm (freedBox freed ++ boxes (.node color' l' item' r'))

section Descent

variable {depth key m : ℕ} {self : RBTreeAlloc} {color : Color} {l : Link} {item : TreeRegion}
  {r : Link}

/-- `delete` in a balanced subtree that can lose a node. -/
theorem Handles.thick (recur : Handles depth key self) {n : ℕ} {h : Link}
    (leaning : LeftLeaning n h) (thick : Thick h) (unshared : KeySorted key (regions h))
    (shallow : h.count ≤ depth) : Erased self h n (RBTreeAlloc.delete depth self h key) := by
  obtain ⟨color, l, item, r, m, rfl, rfl, hl, hr, rightBlack, spare⟩ := leaning.spare thick
  exact recur hl hr spare (.inl rightBlack) unshared shallow

/-- The descent of `delete` to the left. -/
theorem delete_left (recur : Handles depth key self) (hl : LeftLeaning m l)
    (hr : LeftLeaning m r) (rightBlack : r.isRed = false) (below : key < item.base)
    (unshared : KeySorted key (regions (.node color l item r)))
    (deep : (Tree.node color l item r).count ≤ depth + 1) :
    Descended self m color l item r
      (RBTreeAlloc.delete (depth + 1) self (.node color l item r) key) := by
  right
  cases occupied : l.isNil with
  | true =>
      refine ⟨color, m, l, item, r, none, fun tree fixed => ?_, hl, hr, .kept rightBlack id, ?_⟩
      · simp [RBTreeAlloc.delete, below, occupied, fixed, RBTreeAlloc.recycle]
      · simp [freedBox]
  | false =>
      obtain ⟨color', l', item', r', k, prepared, left, thick, right, remainder⟩ :=
        @prepareLeft_balanced m color l item r hl hr rightBlack occupied
      have wholeRegions : regions (.node color' l' item' r') = regions (.node color l item r) :=
        regions_prepareLeft prepared
      have wholeBoxes : boxes (.node color' l' item' r') = boxes (.node color l item r) :=
        boxes_prepareLeft prepared
      have shallow : l'.count ≤ depth :=
        Nat.le_of_lt_succ ((prepareLeft_count prepared).trans_le deep)
      have unsharedLeft : KeySorted key (regions l') := by
        rw [← wholeRegions, regions_node] at unshared
        exact unshared.around.2.2.1
      obtain ⟨kept, freed, inner, keptLeaning, onlyRed, moved⟩ :=
        recur.thick left thick unsharedLeft shallow
      refine ⟨color', k, kept, item', r', freed, fun tree fixed => ?_, keptLeaning, right,
        remainder kept onlyRed, ?_⟩
      · simp [RBTreeAlloc.delete, below, occupied, prepared, inner, fixed]
      · rw [← wholeBoxes, boxes_node, boxes_node, ← List.append_assoc]
        exact moved.append_right _

/-- The right rotation of `delete` on a node of a balanced tree. -/
theorem turn_leaning (hl : LeftLeaning m l) (hr : LeftLeaning m r)
    (side : r.isRed = false ∨ l.isRed = false) :
    ∃ lt it rt, (if l.isRed then rotateRight (.node color l item r)
        else some (.node color l item r)) = some (.node color lt it rt) ∧
      LeftLeaning m lt ∧ lt.isRed = false ∧ LeftLeaning m rt ∧
      rt.isRed = (l.isRed || r.isRed) := by
  cases leftRed : l.isRed with
  | false => exact ⟨l, item, r, by simp, hl, leftRed, hr, by simp⟩
  | true =>
      have rightBlack : r.isRed = false := by simpa [leftRed] using side
      cases hl with
      | nil => simp at leftRed
      | black => simp at leftRed
      | red outer inner outerBlack innerBlack =>
          exact ⟨_, _, _, rfl, outer, outerBlack, .red inner hr innerBlack rightBlack, by simp⟩

/-- The node over balanced children that `delete` works on to the right, after the rotation. -/
structure Turned (key m : ℕ) (color : Color) (l : Link) (item : TreeRegion) (r lt : Link)
    (it : TreeRegion) (rt : Link) : Prop where
  /-- The key does not lie to the left. -/
  above : ¬key < item.base
  turn : (if l.isRed then rotateRight (.node color l item r)
    else some (.node color l item r)) = some (.node color lt it rt)
  left : LeftLeaning m lt
  leftBlack : lt.isRed = false
  right : LeftLeaning m rt
  /-- The rotation moves a red left child to the right. -/
  rightRed : rt.isRed = (l.isRed || r.isRed)
  /-- The key does not lie to the left of the new node either. -/
  reached : it.base ≤ key
  wholeBoxes : boxes (.node color lt it rt) = boxes (.node color l item r)

variable {lt rt : Link} {it : TreeRegion}

/-- Without a right child the node is either the one to delete or the end of the search. -/
theorem Turned.leaf (turned : Turned key m color l item r lt it .nil) :
    Descended self m color l item r
      (RBTreeAlloc.delete (depth + 1) self (.node color l item r) key) := by
  have rightRed := turned.rightRed
  have leftLeaning := turned.left
  obtain rfl := LeftLeaning.zero_of_nil turned.right
  rw [Descended, ← turned.wholeBoxes]
  by_cases hit : key = it.base
  · left
    obtain rfl := leftLeaning.eq_nil turned.leftBlack
    rw [Tree.isRed_nil, eq_comm, Bool.or_eq_false_iff] at rightRed
    refine ⟨(color, it), ?_, rfl, rightRed.1, rightRed.2, by simp⟩
    subst hit
    simp [RBTreeAlloc.delete, turned.above, turned.turn, Link.base, RBTreeAlloc.recycle]
  · right
    refine ⟨color, 0, lt, it, .nil, none, fun tree fixed => ?_, leftLeaning, turned.right,
      Remainder.of_turn (.turned turned.leftBlack (by simp)) turned.leftBlack rightRed,
      by simp [freedBox]⟩
    simp [RBTreeAlloc.delete, turned.above, turned.turn, Link.base, hit, fixed, RBTreeAlloc.recycle]

/-- A result for the right child of the prepared node gives one for the node. -/
theorem Turned.finish (turned : Turned key m color l item r lt it rt) (item'' : TreeRegion)
    {color' : Color} {k : ℕ} {l' r' kept : Link} {item' : TreeRegion}
    {freed : Option (Color × TreeRegion)}
    (prepared : prepareRight (.node color lt it rt) = some (.node color' l' item' r'))
    (left : LeftLeaning k l') (keptLeaning : LeftLeaning k kept)
    (remainder : Remainder color lt rt m color' k l' kept)
    (moved : (boxes r').Perm (freedBox freed ++ boxes kept)) (sameBox : item''.box = item'.box)
    (returns : ∀ tree, fixUp (.node color' l' item'' kept) = some tree →
      RBTreeAlloc.delete (depth + 1) self (.node color l item r) key =
        some (tree, self.recycle freed)) :
    Descended self m color l item r
      (RBTreeAlloc.delete (depth + 1) self (.node color l item r) key) := by
  right
  refine ⟨color', k, l', item'', kept, freed, returns, left, keptLeaning,
    remainder.of_turn turned.leftBlack turned.rightRed, ?_⟩
  rw [← turned.wholeBoxes, ← boxes_prepareRight prepared, boxes_node, boxes_node, sameBox]
  calc boxes l' ++ item'.box :: boxes r'
      _ |>.Perm <| boxes l' ++ item'.box :: (freedBox freed ++ boxes kept) :=
        (moved.cons item'.box).append_left (boxes l')
      _ |>.Perm <| boxes l' ++ (freedBox freed ++ item'.box :: boxes kept) :=
        List.perm_middle.symm.append_left (boxes l')
      _ |>.Perm <| freedBox freed ++ (boxes l' ++ item'.box :: boxes kept) :=
        List.perm_append_comm_assoc _ _ _

/-- The descent of `delete` to the right, after the rotation. -/
theorem delete_right (recur : Handles depth key self)
    (turned : Turned key m color l item r lt it rt)
    (unshared : KeySorted key (regions (.node color lt it rt)))
    (deep : (Tree.node color lt it rt).count ≤ depth + 1) :
    Descended self m color l item r
      (RBTreeAlloc.delete (depth + 1) self (.node color l item r) key) := by
  cases occupied : rt.isNil with
  | true =>
      obtain rfl : rt = .nil := by
        cases rt with
        | nil => rfl
        | node => simp at occupied
      exact turned.leaf
  | false =>
      obtain ⟨color', l', item', r', k, prepared, left, remainder, shape⟩ :=
        @prepareRight_balanced m color lt it rt turned.left turned.leftBlack turned.right occupied
      have shallow : r'.count ≤ depth :=
        Nat.le_of_lt_succ ((prepareRight_count prepared).trans_le deep)
      have preparedRegions : regions (.node color' l' item' r') = regions (.node color lt it rt) :=
        regions_prepareRight prepared
      rw [← preparedRegions, regions_node] at unshared
      obtain ⟨-, after, -, unsharedRight⟩ := unshared.around
      by_cases hit : key = item'.base
      · rcases shape with ⟨rfl, right, thick⟩ | ⟨k, x, y, rfl, rfl, -, -, -, -⟩
        · obtain ⟨kept, freed, inner, keptLeaning, onlyRed, moved⟩ :=
            @deleteMin_spec depth k self r' right thick shallow
          have nonempty : r'.isNil = false := by
            cases r' with
            | nil => simp [Thick] at thick
            | node => rfl
          obtain ⟨min, found⟩ := minNode_isSome nonempty
          apply turned.finish { item' with base := min.base, size := min.size } prepared left
            keptLeaning (remainder kept onlyRed) moved rfl
          intro tree fixed
          subst hit
          simp [RBTreeAlloc.delete, turned.above, turned.turn, occupied, prepared, found, inner,
            fixed]
        · -- The key would be shared by the lifted item and by the old root to its right.
          have member : it.toSpan ∈ regions (.node .black x (updateMaxSize x it y) y) := by
            rw [regions_node]
            exact List.mem_append_right _ List.mem_cons_self
          have order := after it.toSpan member
          have same : it.base = key := le_antisymm turned.reached (hit.trans_le order.1)
          exact absurd same (order.2 hit.symm)
      · have subtree : ∃ kept freed,
            RBTreeAlloc.delete depth self r' key = some (kept, self.recycle freed) ∧
            LeftLeaning k kept ∧ (kept.isRed = true → r'.isRed = true) ∧
            (boxes r').Perm (freedBox freed ++ boxes kept) := by
          rcases shape with ⟨rfl, right, thick⟩ | ⟨n, x, y, rfl, rfl, hx, xBlack, hy, yRed⟩
          · exact recur.thick right thick unsharedRight shallow
          · exact recur hx hy (.inr yRed) (.inr ⟨xBlack, turned.reached⟩) unsharedRight shallow
        obtain ⟨kept, freed, inner, keptLeaning, onlyRed, moved⟩ := subtree
        apply turned.finish item' prepared left keptLeaning (remainder kept onlyRed) moved rfl
        intro tree fixed
        simp [RBTreeAlloc.delete, turned.above, turned.turn, occupied, prepared, hit, inner, fixed]

/-- `delete` descends from any node over balanced children. -/
theorem delete_descent (recur : Handles depth key self) (hl : LeftLeaning m l)
    (hr : LeftLeaning m r) (side : r.isRed = false ∨ l.isRed = false ∧ item.base ≤ key)
    (unshared : KeySorted key (regions (.node color l item r)))
    (deep : (Tree.node color l item r).count ≤ depth + 1) :
    Descended self m color l item r
      (RBTreeAlloc.delete (depth + 1) self (.node color l item r) key) := by
  by_cases below : key < item.base
  · exact delete_left recur hl hr (side.resolve_right fun right => by omega) below unshared deep
  · obtain ⟨lt, it, rt, turn, left, leftBlack, right, rightRed⟩ :=
      @turn_leaning m color l item r hl hr (side.imp_right And.left)
    obtain ⟨colorT, lt', it', rt', same, turnedRegions, top⟩ := turn_spec turn
    obtain ⟨rfl, rfl, rfl, rfl⟩ := Tree.node.inj same
    have wholeBoxes : boxes (.node color lt it rt) = boxes (.node color l item r) := by
      split_ifs at turn
      · exact boxes_rotateRight turn
      · rw [Option.some.inj turn]
    have reached : it.base ≤ key := unshared.top_le (not_lt.mp below) top
    have turned : Turned key m color l item r lt it rt :=
      ⟨below, turn, left, leftBlack, right, rightRed, reached, wholeBoxes⟩
    apply delete_right recur turned
    · rw [turnedRegions]
      exact unshared
    · rw [count_eq_of_boxes wholeBoxes]
      exact deep

end Descent

/-- `delete` returns on every balanced tree that can lose a node, provided no two regions share
the key. -/
theorem handles (depth key : ℕ) (self : RBTreeAlloc) : Handles depth key self := by
  induction depth with
  | zero =>
      intro m color l item r _ _ _ _ _ deep
      simp [Tree.count] at deep
  | succ depth induction =>
      intro m color l item r hl hr spare side unshared deep
      rcases delete_descent induction hl hr side unshared deep with
        ⟨freed, returned, rfl, leftBlack, rightBlack, gone⟩ |
        ⟨color', k, l', item', r', freed, returns, left, right, remainder, moved⟩
      · cases color with
        | black => simp [Spare, leftBlack, rightBlack] at spare
        | red => exact ⟨.nil, some freed, returned, .nil, by simp, by simpa [freedBox] using gone⟩
      · obtain ⟨tree, fixed, leaning, treeRed⟩ := remainder.fixUp maxSizeRule spare left right item'
        refine ⟨tree, freed, returns tree fixed, leaning, ?_, ?_⟩
        · intro red
          rw [treeRed red, Tree.isRed_red]
        · rw [boxes_fixUp fixed]
          exact moved

/-- `delete` from the root returns, for a key that no two regions share. -/
theorem deleteRoot_spec {self : RBTreeAlloc} {key n : ℕ} (leaning : RootLeaning n self.root)
    (unshared : KeySorted key (regions self.root)) :
    ∃ tree freed m, RBTreeAlloc.delete (self.root.count + 1) self self.root key =
        some (tree, self.recycle freed) ∧ RootLeaning m tree ∧
      (boxes self.root).Perm (freedBox freed ++ boxes tree) := by
  cases root : self.root with
  | nil => exact ⟨.nil, none, 0, rfl, .leaning .nil, by simp [freedBox]⟩
  | node color l item r =>
      rw [root] at leaning unshared
      obtain ⟨m, hl, hr, rightBlack⟩ := leaning.children
      rcases delete_descent (handles _ key self) hl hr (.inl rightBlack) unshared
          (Nat.le_succ _) with
        ⟨freed, returned, -, -, -, gone⟩ |
        ⟨color', k, l', item', r', freed, returns, left, right, remainder, moved⟩
      · exact ⟨.nil, some freed, 0, returned, .leaning .nil, by simpa [freedBox] using gone⟩
      · obtain ⟨tree, m, fixed, leaning⟩ :=
          @Tree.fixUp_root _ maxSizeRule k color' l' r' item' left right
        refine ⟨tree, freed, m, returns tree fixed, leaning, ?_⟩
        rw [boxes_fixUp fixed]
        exact moved

/-! ## Insertion -/

theorem insertNode_below {item : TreeRegion} {color : Color} {l l' : Link} {n : TreeRegion}
    {r : Link} (below : item.base < n.base)
    (inserted : insertNode (.node .red .nil item .nil) l = some l') :
    insertNode (.node .red .nil item .nil) (.node color l n r) =
      Tree.insertUp maxSizeRule (.node color l' n r) := by
  simp [insertNode, Link.base, below, inserted]

theorem insertNode_above {item : TreeRegion} {color : Color} {l : Link} {n : TreeRegion}
    {r r' : Link} (above : ¬item.base < n.base)
    (inserted : insertNode (.node .red .nil item .nil) r = some r') :
    insertNode (.node .red .nil item .nil) (.node color l n r) =
      Tree.insertUp maxSizeRule (.node color l n r') := by
  simp [insertNode, Link.base, above, inserted]

/-- Insertion into a balanced tree keeps its height; below a black root it keeps the full
invariant, and a red root stays red. -/
theorem insertNode_spec (item : TreeRegion) {n : ℕ} {h : Link} (leaning : LeftLeaning n h) :
    ∃ h', insertNode (.node .red .nil item .nil) h = some h' ∧ RootLeaning n h' ∧
      (h.isRed = false → LeftLeaning n h') ∧ (h.isRed = true → h'.isRed = true) := by
  induction leaning with
  | nil =>
      have leaf : LeftLeaning 0 (.node .red .nil item .nil : Link) := .red .nil .nil rfl rfl
      exact ⟨_, rfl, .leaning leaf, fun _ => leaf, by simp⟩
  | @red n l r top hl hr leftBlack rightBlack ihl ihr =>
      by_cases below : item.base < top.base
      · obtain ⟨l', inserted, -, left, -⟩ := ihl
        obtain ⟨tree, fixed, treeLeaning, treeRed⟩ :=
          @Tree.insertUp_red _ maxSizeRule n l' r top (left leftBlack) hr (.inr rightBlack)
        exact ⟨tree, (insertNode_below below inserted).trans fixed, treeLeaning, by simp,
          fun _ => treeRed⟩
      · obtain ⟨r', inserted, -, right, -⟩ := ihr
        obtain ⟨tree, fixed, treeLeaning, treeRed⟩ :=
          @Tree.insertUp_red _ maxSizeRule n l r' top hl (right rightBlack) (.inl leftBlack)
        exact ⟨tree, (insertNode_above below inserted).trans fixed, treeLeaning, by simp,
          fun _ => treeRed⟩
  | @black n l r top hl hr rightBlack ihl ihr =>
      by_cases below : item.base < top.base
      · obtain ⟨l', inserted, left, -, -⟩ := ihl
        obtain ⟨tree, fixed, treeLeaning⟩ :=
          @Tree.insertUp_black _ maxSizeRule n l' r top left hr (by simp [rightBlack])
        exact ⟨tree, (insertNode_below below inserted).trans fixed, .leaning treeLeaning,
          fun _ => treeLeaning, by simp⟩
      · obtain ⟨r', inserted, -, right, -⟩ := ihr
        obtain ⟨tree, fixed, treeLeaning⟩ :=
          @Tree.insertUp_black _ maxSizeRule n l r' top (.leaning hl) (right rightBlack)
            fun _ => hl
        exact ⟨tree, (insertNode_above below inserted).trans fixed, .leaning treeLeaning,
          fun _ => treeLeaning, by simp⟩

/-- Insertion at the root, which may be red above a red left child. -/
theorem insertNode_root (item : TreeRegion) {n : ℕ} {h : Link} (leaning : RootLeaning n h) :
    ∃ h' m, insertNode (.node .red .nil item .nil) h = some h' ∧ RootLeaning m h' := by
  cases leaning with
  | leaning leaning =>
      obtain ⟨h', inserted, leaning', -, -⟩ := insertNode_spec item leaning
      exact ⟨h', n, inserted, leaning'⟩
  | @redRed l r top hl leftRed hr rightBlack =>
      by_cases below : item.base < top.base
      · obtain ⟨l', inserted, left, -, staysRed⟩ := insertNode_spec item hl
        obtain ⟨tree, m, fixed, treeLeaning⟩ :=
          @Tree.insertUp_root _ maxSizeRule n l' r top left (staysRed leftRed) hr
            (by simp [rightBlack])
        exact ⟨tree, m, (insertNode_below below inserted).trans fixed, treeLeaning⟩
      · obtain ⟨r', inserted, -, right, -⟩ := insertNode_spec item hr
        obtain ⟨tree, m, fixed, treeLeaning⟩ :=
          @Tree.insertUp_root _ maxSizeRule n l r' top (.leaning hl) leftRed (right rightBlack)
            fun _ => hl
        exact ⟨tree, m, (insertNode_above below inserted).trans fixed, treeLeaning⟩

end Blubos
