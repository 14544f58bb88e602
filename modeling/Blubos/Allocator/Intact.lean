import Blubos.Allocator.Exclusive

/-!
# The tree stays a tree

The structural invariant of the allocator: the tree is balanced, every `max_size` is exact, and the
boxes taken from the bump heap are those of the tree and of the freelist.  It is kept by every call
whose deletions look for bases that no two nodes share, and none of these calls unwraps an absent
child.
-/

namespace Blubos

open Blubos.Tree (LeftLeaning RootLeaning)

/-- A list threaded through the left links. -/
def Chain : Link → Prop
  | .nil => True
  | .node _ next _ r => Chain next ∧ r = .nil

structure RBTreeAlloc.Intact (allocator : RBTreeAlloc) : Prop where
  /-- The tree is balanced; its root may be red. -/
  leaning : ∃ n, RootLeaning n allocator.root
  /-- Every `max_size` is exact. -/
  exact : MaxSizesExact allocator.root
  chain : Chain allocator.freelist
  /-- Every box taken from the bump heap is in the tree or on the freelist, once. -/
  kept : (boxes allocator.root ++ boxes allocator.freelist).Perm allocator.taken
  /-- No node was handed to `free_node` with a child. -/
  childless : ∀ h ∈ allocator.handed, h.left = .nil ∧ h.right = .nil

section Exact

theorem MaxSizesExact.fixUp {color : Color} {l : Link} {n : TreeRegion} {r tree : Link}
    (left : MaxSizesExact l) (right : MaxSizesExact r)
    (step : fixUp (.node color l n r) = some tree) : MaxSizesExact tree :=
  Tree.fresh_fixUp (h := .node color l n r) left right step

theorem insertNode_exact {color : Color} {item : TreeRegion} {h h' : Link}
    (leaf : item.maxSize = item.size) (exact : MaxSizesExact h)
    (step : insertNode (.node color .nil item .nil) h = some h') : MaxSizesExact h' := by
  induction h generalizing h' with
  | nil =>
      obtain rfl := Option.some.inj step
      refine ⟨?_, trivial, trivial⟩
      cases item
      simp_all [maxSizeRule, updateMaxSize]
  | node rootColor l n r ihl ihr =>
      obtain ⟨-, left, right⟩ := exact
      rcases insertNode_cases step with ⟨-, l', inserted, fixed⟩ | ⟨-, r', inserted, fixed⟩
      · exact Tree.fresh_insertUp (h := .node rootColor l' n r) (ihl left inserted) right fixed
      · exact Tree.fresh_insertUp (h := .node rootColor l n r') left (ihr right inserted) fixed

theorem deleteMin_exact {depth : ℕ} {self self' : RBTreeAlloc} {h tree : Link}
    (exact : MaxSizesExact h) (step : RBTreeAlloc.deleteMin depth self h = some (tree, self')) :
    MaxSizesExact tree := by
  induction depth generalizing h tree self' with
  | zero => simp [RBTreeAlloc.deleteMin] at step
  | succ depth induction =>
      cases h with
      | nil => simp [RBTreeAlloc.deleteMin] at step
      | node color l n r =>
          rcases deleteMin_cases step with
            ⟨-, rfl, -⟩ | ⟨color', l', n', r', kept, prepared, inner, fixed⟩
          · trivial
          · obtain ⟨-, left, right⟩ := Tree.fresh_prepareLeft exact prepared
            exact MaxSizesExact.fixUp (induction left inner) right fixed

theorem delete_exact {depth key : ℕ} {self self' : RBTreeAlloc} {h tree : Link}
    (exact : MaxSizesExact h)
    (step : RBTreeAlloc.delete depth self h key = some (tree, self')) : MaxSizesExact tree := by
  induction depth generalizing h tree self' with
  | zero => simp [RBTreeAlloc.delete] at step
  | succ depth induction =>
      cases h with
      | nil =>
          simp only [RBTreeAlloc.delete, Option.some.injEq, Prod.mk.injEq] at step
          rw [← step.1]
          trivial
      | node color l n r =>
          by_cases below : key < n.base
          · rcases delete_left_cases step below with
              ⟨rfl, fixed, -⟩ | ⟨color', l', n', r', kept, prepared, inner, fixed⟩
            · exact MaxSizesExact.fixUp exact.2.1 exact.2.2 fixed
            · obtain ⟨-, left, right⟩ := Tree.fresh_prepareLeft exact prepared
              exact MaxSizesExact.fixUp (induction left inner) right fixed
          · obtain ⟨turned, turn, found⟩ := delete_turned_cases step below
            have exactTurned : MaxSizesExact turned := by
              split_ifs at turn
              · exact Tree.fresh_rotateRight (h := .node color l n r) exact.2.1 exact.2.2 turn
              · exact Option.some.inj turn ▸ exact
            rcases found with
              ⟨-, -, rfl, -⟩ | ⟨-, -, fixed, -⟩ | ⟨color', l', n', r', prepared, rest⟩
            · trivial
            · exact Tree.fresh_fixUp exactTurned.left exactTurned.right fixed
            · obtain ⟨-, left, right⟩ := Tree.fresh_prepareRight exactTurned prepared
              rcases rest with ⟨-, min, kept, -, inner, fixed⟩ | ⟨-, kept, inner, fixed⟩
              · exact MaxSizesExact.fixUp left (deleteMin_exact right inner) fixed
              · exact MaxSizesExact.fixUp left (induction right inner) fixed

end Exact

namespace RBTreeAlloc.Intact

variable {self : RBTreeAlloc}

theorem new : RBTreeAlloc.new.Intact where
  leaning := ⟨0, .leaning .nil⟩
  exact := trivial
  chain := trivial
  kept := List.Perm.nil
  childless := by simp [RBTreeAlloc.new]

/-- Taking a node keeps the boxes together, or fails with the bump heap. -/
theorem allocNode (intact : self.Intact) (bump : BumpHeap) (base size : ℕ) :
    (∃ item mid bump', self.allocNode bump base size =
        .ok (.node .red .nil item .nil, mid, bump') ∧ item.maxSize = item.size ∧
        mid.root = self.root ∧ Chain mid.freelist ∧
        (item.box :: boxes mid.root ++ boxes mid.freelist).Perm mid.taken ∧
        mid.handed = self.handed) ∨
      ∃ fault, self.allocNode bump base size = .error fault ∧
        BumpAlloc.boxNewIn bump TreeRegion.layout = .error fault := by
  rcases allocNode_cases self bump base size with
    ⟨color, next, head, r, freelist, returned⟩ |
    ⟨freelist, ⟨box, bump', -, returned⟩ | ⟨fault, failed, returned⟩⟩
  · have chain := intact.chain
    rw [freelist] at chain
    obtain ⟨chain, rfl⟩ := chain
    refine .inl ⟨_, _, _, returned, rfl, rfl, chain, ?_, rfl⟩
    have kept := intact.kept
    rw [freelist, boxes_node, boxes_nil] at kept
    refine List.Perm.trans ?_ kept
    rw [List.cons_append, ← List.append_assoc]
    exact (List.perm_append_singleton _ _).symm
  · refine .inl ⟨_, _, _, returned, rfl, rfl, ?_, ?_, rfl⟩
    · rw [freelist]
      trivial
    · exact intact.kept.cons box
  · exact .inr ⟨fault, returned, failed⟩

/-- `insert` returns, or fails with the bump heap. -/
theorem insert (intact : self.Intact) (bump : BumpHeap) (region : Region) :
    (∃ self' bump', self.insert bump region = .ok (self', bump') ∧ self'.Intact) ∨
      ∃ fault, self.insert bump region = .error fault ∧
        BumpAlloc.boxNewIn bump TreeRegion.layout = .error fault := by
  by_cases empty : region.size = 0
  · exact .inl ⟨self, bump, by rw [RBTreeAlloc.insert, if_pos empty], intact⟩
  · rw [RBTreeAlloc.insert, if_neg empty]
    rcases intact.allocNode bump region.base region.size with
      ⟨item, mid, bump', allocated, leaf, root, chain, kept, handed⟩ | ⟨fault, allocated, failed⟩
    · obtain ⟨n, leaning⟩ := intact.leaning
      obtain ⟨tree, m, inserted, leaning'⟩ := insertNode_root item leaning
      obtain ⟨m', black⟩ := leaning'.paint_black
      refine .inl ⟨{ mid with root := tree.paint .black }, bump', ?_, ⟨m', .leaning black⟩, ?_,
        chain, ?_, ?_⟩
      · rw [allocated, ok_bind]
        simp only [root, inserted]
        rfl
      · exact Tree.fresh_paint .black (insertNode_exact leaf intact.exact inserted)
      · rw [boxes_paint]
        refine List.Perm.trans ?_ kept
        rw [root]
        exact (boxes_insertNode inserted).append_right _
      · rw [handed]
        exact intact.childless
    · exact .inr ⟨fault, by rw [allocated]; rfl, failed⟩

/-- `delete` from the root returns for a base that no two regions share and removes just its
region. -/
theorem deleteRoot (intact : self.Intact) {key : ℕ}
    (unshared : KeySorted key (regions self.root)) :
    ∃ self', self.deleteRoot key = .ok self' ∧ self'.Intact ∧ self'.taken = self.taken ∧
      ∀ before x after, regions self.root = before ++ x :: after → x.base = key →
        regions self'.root = before ++ after := by
  obtain ⟨n, leaning⟩ := intact.leaning
  obtain ⟨tree, freed, m, returned, leaning', moved, removed⟩ :=
    deleteRoot_balanced leaning unshared
  have taken : ({ self.recycle freed with root := tree } : RBTreeAlloc).taken = self.taken := by
    cases freed <;> rfl
  refine ⟨_, returned, ⟨⟨m, leaning'⟩, ?_, ?_, ?_, ?_⟩, taken, removed⟩
  · simp only [RBTreeAlloc.deleteRoot, bind_eq_ok, unwrap_eq_ok, Except.ok.injEq] at returned
    obtain ⟨⟨root, erased⟩, deleted, same⟩ := returned
    obtain rfl : root = tree := congrArg RBTreeAlloc.root same
    exact delete_exact intact.exact deleted
  · cases freed with
    | none => exact intact.chain
    | some freed => exact ⟨intact.chain, rfl⟩
  · have kept := (moved.append_right (boxes self.freelist)).symm.trans intact.kept
    cases freed with
    | none => exact kept
    | some freed =>
        have pushed : boxes (self.recycle (some freed)).freelist =
            boxes self.freelist ++ [freed.2.box] := by
          simp [RBTreeAlloc.recycle, RBTreeAlloc.freeNode]
        refine List.Perm.trans ?_ kept
        show (boxes tree ++ boxes (self.recycle (some freed)).freelist).Perm _
        rw [pushed, ← List.append_assoc]
        exact List.perm_append_singleton _ _
  · cases freed with
    | none => exact intact.childless
    | some freed =>
        intro h member
        rcases List.mem_cons.mp member with rfl | member
        · exact ⟨rfl, rfl⟩
        · exact intact.childless h member

theorem search (intact : self.Intact) {map : AddressMap} {request : Request} {tree : Link}
    {out : Option ℕ} (searched : RBTreeAlloc.allocRec map request self.root = .ok (tree, out)) :
    ({ self with root := tree.paint .black } : RBTreeAlloc).Intact := by
  obtain ⟨shape, -⟩ := allocRec_spec searched
  obtain ⟨n, leaning⟩ := intact.leaning
  obtain ⟨m, black⟩ := (RootLeaning.of_map (shape ▸ leaning.map _)).paint_black
  have sameBoxes : boxes tree = boxes self.root := by
    simpa [boxes] using congrArg Tree.toList shape
  refine ⟨⟨m, .leaning black⟩, ?_, intact.chain, ?_, intact.childless⟩
  · exact Tree.fresh_paint .black (allocRec_exact intact.exact searched)
  · rw [boxes_paint, sameBoxes]
    exact intact.kept

/-- One of the two deletions of `free`. -/
theorem deleteKey (intact : self.Intact) {key : Option ℕ}
    (sole : ∀ k, key = some k → KeySorted k (regions self.root) ∧
      ∃ x ∈ regions self.root, x.base = k) :
    ∃ self', self.deleteKey key = .ok self' ∧ self'.Intact ∧ self'.taken = self.taken ∧
      ∀ r ∈ regions self.root, r ∈ regions self'.root ∨ key = some r.base := by
  cases key with
  | none => exact ⟨self, rfl, intact, rfl, fun r member => .inl member⟩
  | some k =>
      obtain ⟨unshared, x, member, hit⟩ := sole k rfl
      obtain ⟨self', returned, intact', taken, removed⟩ := intact.deleteRoot unshared
      obtain ⟨before, after, split⟩ := List.append_of_mem member
      refine ⟨self', returned, intact', taken, fun r inside => ?_⟩
      rw [removed before x after split hit, List.mem_append]
      rw [split, List.mem_append, List.mem_cons] at inside
      rcases inside with earlier | rfl | later
      · exact .inl (.inl earlier)
      · exact .inr (congrArg some hit.symm)
      · exact .inl (.inr later)

/-- `free` reaches its insertion when the bases it deletes are not shared. -/
theorem free (intact : self.Intact) {block : Span} {left whole : Extent}
    (clear : Clear (regions self.root) block) (merged : Merged self block left whole)
    (soleLeft : ∀ k, left.key = some k → KeySorted k (regions self.root))
    (soleWhole : ∀ k, whole.key = some k → KeySorted k (regions self.root)) (bump : BumpHeap) :
    ∃ kept : RBTreeAlloc, kept.Intact ∧ (regions kept.root).Sublist (regions self.root) ∧
      (∀ r ∈ regions self.root, r ∈ regions kept.root ∨ left.key = some r.base ∨
        whole.key = some r.base) ∧
      (∀ r ∈ regions kept.root, left.key ≠ some r.base ∧ whole.key ≠ some r.base) ∧
      kept.taken = self.taken ∧
      self.free bump block.base block.size = kept.insert bump ⟨whole.base, whole.size⟩ := by
  obtain ⟨mid, first, intactMid, takenMid, keptMid⟩ := intact.deleteKey fun k hit =>
    ⟨soleLeft k hit, by
      obtain ⟨p, member, same, -⟩ := merged.left_key clear hit
      exact ⟨p, member, same⟩⟩
  obtain ⟨subMid, absentMid⟩ := deleteKey_regions first
  obtain ⟨kept, second, intactKept, takenKept, keptKept⟩ := intactMid.deleteKey fun k hit =>
    ⟨(soleWhole k hit).sublist subMid, by
      obtain ⟨s, member, same, above, -⟩ := merged.whole_key clear hit
      refine ⟨s, (keptMid s member).resolve_right fun both => ?_, same⟩
      obtain ⟨p, -, sameLeft, below, -⟩ := merged.left_key clear both
      omega⟩
  obtain ⟨subKept, absentKept⟩ := deleteKey_regions second
  refine ⟨kept, intactKept, subKept.trans subMid, fun r member => ?_, fun r member => ⟨?_, ?_⟩,
    takenKept.trans takenMid, ?_⟩
  · rcases keptMid r member with inMid | hit
    · exact (keptKept r inMid).imp_right .inr
    · exact .inr (.inl hit)
  · exact fun hit => absentMid _ hit (soleLeft _ hit) r (subKept.subset member) rfl
  · exact fun hit => absentKept _ hit ((soleWhole _ hit).sublist subMid) r member rfl
  · obtain ⟨before, after⟩ := merged
    rw [RBTreeAlloc.free, before, ok_bind, after, ok_bind, first, ok_bind, second, ok_bind]

end RBTreeAlloc.Intact

/-- The condition on a call: the region that ends at a freed block, and the first node at or after
the block if it lies within reach, share their bases with no other node of the tree. -/
def SoleKeys (s : HeapState) : HeapCall → Prop
  | .alloc _ _ => True
  | .free block =>
      (∀ p ∈ s.free, p.base < block.base → p.stop = block.base →
        (s.free.map (·.base)).count p.base = 1) ∧
      ∀ q ∈ s.free, block.base ≤ q.base → (∀ r ∈ s.free, block.base ≤ r.base → q.base ≤ r.base) →
        WithinReach s.free block q.base → (s.free.map (·.base)).count q.base = 1

instance (s : HeapState) (call : HeapCall) : Decidable (SoleKeys s call) :=
  match call with
  | .alloc _ _ => inferInstanceAs (Decidable True)
  | .free _ => inferInstanceAs (Decidable ((∀ p ∈ s.free, _) ∧ ∀ q ∈ s.free, _))

theorem SoleKeys.soleBase {s : HeapState} {call : HeapCall} (sole : SoleKeys s call) :
    SoleBase s call := by
  cases call with
  | alloc => trivial
  | free => exact sole.1

/-- The keys that `free` deletes are not shared. -/
theorem SoleKeys.unshared {s : HeapState} {block : Span} {left whole : RBTreeAlloc.Extent}
    (sole : SoleKeys s (.free block)) (clear : Clear s.free block)
    (merged : Merged s.alloc block left whole) :
    (∀ k, left.key = some k → KeySorted k s.free) ∧
      ∀ k, whole.key = some k → KeySorted k s.free := by
  constructor
  · intro k hit
    obtain ⟨p, member, rfl, below, touches⟩ := merged.left_key clear hit
    exact keySorted_of_count clear.apart.sorted (sole.1 p member below touches).le
  · intro k hit
    obtain ⟨q, member, rfl, above, first, reach⟩ := merged.whole_key clear hit
    exact keySorted_of_count clear.apart.sorted (sole.2 q member above first reach).le

theorem mergePredecessor_noUnwrap (self : RBTreeAlloc) (base size : ℕ) :
    NoUnwrap (self.mergePredecessor base size) := by
  rw [RBTreeAlloc.mergePredecessor]
  cases RBTreeAlloc.predecessor base self.root none with
  | none => exact NoUnwrap.ok _
  | some p =>
      refine (Usize.add_noUnwrap _ _).bind fun _ _ => ?_
      refine NoUnwrap.ite (fun _ => ?_) fun _ => NoUnwrap.ok _
      refine (Usize.add_noUnwrap _ _).bind fun _ _ => ?_
      exact (Usize.sub_noUnwrap _ _).bind fun _ _ => NoUnwrap.ok _

theorem mergeSuccessor_noUnwrap (self : RBTreeAlloc) (base : ℕ) (extent : RBTreeAlloc.Extent) :
    NoUnwrap (self.mergeSuccessor base extent) := by
  rw [RBTreeAlloc.mergeSuccessor]
  cases RBTreeAlloc.successor base self.root none with
  | none => exact NoUnwrap.ok _
  | some s =>
      refine (Usize.add_noUnwrap _ _).bind fun _ _ => ?_
      refine NoUnwrap.ite (fun _ => ?_) fun _ => NoUnwrap.ok _
      refine (Usize.add_noUnwrap _ _).bind fun _ _ => ?_
      exact (Usize.sub_noUnwrap _ _).bind fun _ _ => NoUnwrap.ok _

theorem allocHere_noUnwrap (map : AddressMap) (request : Request) (limit : ℕ) (n : TreeRegion) :
    NoUnwrap (RBTreeAlloc.allocHere map request limit n) := by
  have inside (aligned : ℕ) :
      NoUnwrap (RBTreeAlloc.insideBoundary aligned request.size request.boundary) := by
    cases request.boundary with
    | none => exact NoUnwrap.ok _
    | some boundary =>
        refine (Usize.sub_noUnwrap _ _).bind fun _ _ => (Usize.add_noUnwrap _ _).bind fun _ _ => ?_
        exact (Usize.sub_noUnwrap _ _).bind fun _ _ => NoUnwrap.ok _
  refine (Usize.sub_noUnwrap _ _).bind fun _ _ => (Usize.add_noUnwrap _ _).bind fun _ _ => ?_
  refine (Usize.sub_noUnwrap _ _).bind fun _ _ => (Usize.add_noUnwrap _ _).bind fun _ _ => ?_
  refine NoUnwrap.ite (fun _ => ?_) fun _ => NoUnwrap.ok _
  refine (map.toPhysicalAddr_noUnwrap _).bind fun _ _ => (Usize.add_noUnwrap _ _).bind fun _ _ => ?_
  refine NoUnwrap.ite (fun _ => ?_) fun _ => NoUnwrap.ok _
  refine (inside _).bind fun _ _ => NoUnwrap.ite (fun _ => ?_) fun _ => NoUnwrap.ok _
  refine (Usize.add_noUnwrap _ _).bind fun _ _ => ?_
  exact (Usize.sub_noUnwrap _ _).bind fun _ _ => NoUnwrap.ok _

theorem allocRec_noUnwrap (map : AddressMap) (request : Request) (tree : Link) :
    NoUnwrap (RBTreeAlloc.allocRec map request tree) := by
  induction tree with
  | nil => exact NoUnwrap.ok _
  | node color l n r ihl ihr =>
      refine (NoUnwrap.ite (fun _ => ihl) fun _ => NoUnwrap.ok _).bind fun left _ => ?_
      refine NoUnwrap.ite (fun _ => NoUnwrap.ok _) fun _ => ?_
      refine (allocHere_noUnwrap _ _ _ _).bind fun here _ => ?_
      cases here with
      | some served => exact NoUnwrap.ok _
      | none =>
          refine NoUnwrap.bind ?_ fun _ _ => NoUnwrap.ok _
          exact NoUnwrap.ite (fun _ => ihr) fun _ => NoUnwrap.ok _

/-- A call that meets the condition unwraps no absent child, whether it returns or not. -/
theorem perform_noUnwrap {areas : List Region} {s : HeapState} {call : HeapCall}
    (owned : Owned areas s) (intact : s.alloc.Intact) (permitted : s.Permits call)
    (sole : SoleKeys s call) : NoUnwrap (s.perform call) := by
  cases call with
  | alloc map request =>
      refine NoUnwrap.bind ?_ fun _ _ => NoUnwrap.ok _
      exact (allocRec_noUnwrap map request s.alloc.root).bind fun _ _ => NoUnwrap.ok _
  | free block =>
      refine NoUnwrap.bind ?_ fun _ _ => NoUnwrap.ok _
      cases before : s.alloc.mergePredecessor block.base block.size with
      | error fault =>
          have avoids := mergePredecessor_noUnwrap s.alloc block.base block.size
          rw [before, NoUnwrap.error_iff] at avoids
          rwa [RBTreeAlloc.free, before, error_bind, NoUnwrap.error_iff]
      | ok left =>
          cases after : s.alloc.mergeSuccessor block.base left with
          | error fault =>
              have avoids := mergeSuccessor_noUnwrap s.alloc block.base left
              rw [after, NoUnwrap.error_iff] at avoids
              rwa [RBTreeAlloc.free, before, ok_bind, after, error_bind, NoUnwrap.error_iff]
          | ok whole =>
              have clear := owned.clear permitted
              obtain ⟨soleLeft, soleWhole⟩ := sole.unshared clear ⟨before, after⟩
              obtain ⟨kept, intactKept, -, -, -, -, reached⟩ :=
                intact.free clear ⟨before, after⟩ soleLeft soleWhole s.bump
              rw [reached]
              rcases intactKept.insert s.bump ⟨whole.base, whole.size⟩ with
                ⟨_, _, inserted, -⟩ | ⟨fault, failed, boxed⟩
              · rw [inserted]
                exact NoUnwrap.ok _
              · have avoids := BumpAlloc.boxNewIn_noUnwrap s.bump TreeRegion.layout
                rw [boxed, NoUnwrap.error_iff] at avoids
                rwa [failed, NoUnwrap.error_iff]

theorem intact_step {areas : List Region} {s s' : HeapState} {call : HeapCall}
    (owned : Owned areas s) (intact : s.alloc.Intact) (sole : SoleKeys s call)
    (taken : (heapSystem areas).step s call s') : s'.alloc.Intact := by
  obtain ⟨permitted, performed⟩ := taken
  rcases HeapState.perform_cases performed with
    ⟨map, request, tree, rfl, searched, rfl⟩ | ⟨map, request, tree, a, rfl, searched, rfl⟩ |
    ⟨block, alloc, bump, rfl, freed, rfl⟩
  · exact intact.search searched
  · exact intact.search searched
  · have clear := owned.clear permitted
    obtain ⟨left, whole, -, -, merged, -⟩ := free_cases freed
    obtain ⟨soleLeft, soleWhole⟩ := sole.unshared clear merged
    obtain ⟨kept, intactKept, -, -, -, -, reached⟩ :=
      intact.free clear merged soleLeft soleWhole s.bump
    rw [reached] at freed
    rcases intactKept.insert s.bump ⟨whole.base, whole.size⟩ with
      ⟨self', bump', inserted, intact'⟩ | ⟨fault, failed, -⟩
    · rw [inserted, Except.ok.injEq, Prod.mk.injEq] at freed
      exact freed.1 ▸ intact'
    · rw [failed] at freed
      simp at freed

/-- Inserting the heap areas keeps the invariant and unwraps no absent child. -/
theorem insertAll_intact {self : RBTreeAlloc} (intact : self.Intact) (bump : BumpHeap)
    (areas : List Region) :
    NoUnwrap (self.insertAll bump areas) ∧ ∀ self' bump',
      self.insertAll bump areas = .ok (self', bump') → self'.Intact := by
  induction areas generalizing self bump with
  | nil =>
      refine ⟨NoUnwrap.ok _, fun self' bump' inserted => ?_⟩
      simp only [RBTreeAlloc.insertAll, Except.ok.injEq, Prod.mk.injEq] at inserted
      exact inserted.1 ▸ intact
  | cons area areas induction =>
      rw [RBTreeAlloc.insertAll]
      rcases intact.insert bump area with
        ⟨mid, bumpMid, first, intactMid⟩ | ⟨fault, failed, boxed⟩
      · rw [first, ok_bind]
        exact induction intactMid bumpMid
      · have avoids := BumpAlloc.boxNewIn_noUnwrap bump TreeRegion.layout
        rw [boxed, NoUnwrap.error_iff] at avoids
        rw [failed, error_bind, NoUnwrap.error_iff]
        exact ⟨avoids, by simp⟩

/-- The structural invariant holds in every state of a run whose calls all meet the condition. -/
theorem intact_of_reach {areas : List Region} (valid : HeapAreas areas) {s : HeapState}
    (reach : (heapSystem areas).Reach SoleKeys s) : Owned areas s ∧ s.alloc.Intact := by
  refine @Behaviour.Reach.invariant _ _ _ _ (fun s => Owned areas s ∧ s.alloc.Intact) ?_ ?_ s reach
  · intro s initial
    obtain ⟨bump, inserted, -⟩ := id initial
    exact ⟨Owned.start valid initial,
      (insertAll_intact RBTreeAlloc.Intact.new bump areas).2 _ _ inserted⟩
  · rintro s call next ⟨owned, intact⟩ sole taken
    exact ⟨owned.step sole.soleBase taken, intact_step owned intact sole taken⟩

/-- No subtree was dropped: nodes went to `free_node` without children, and every box taken from the
bump heap is in the tree or on the freelist. -/
structure NoNodeLost (s : HeapState) : Prop where
  /-- Every node handed to `free_node` was childless. -/
  childless : ∀ h ∈ s.alloc.handed, h.left = .nil ∧ h.right = .nil
  /-- The boxes of the tree and of the freelist are the boxes taken. -/
  kept : (boxes s.alloc.root ++ boxes s.alloc.freelist).Perm s.alloc.taken

/-- Inserting the heap areas unwraps no absent child; in every state of a run whose calls all meet
the condition no node is lost, and no further such call unwraps an absent child. -/
theorem noNodeLost_of_reach {areas : List Region} (valid : HeapAreas areas) :
    (∀ bump, NoUnwrap (RBTreeAlloc.new.insertAll bump areas)) ∧
      ∀ s, (heapSystem areas).Reach SoleKeys s →
        NoNodeLost s ∧ ∀ call, s.Permits call → SoleKeys s call → NoUnwrap (s.perform call) := by
  refine ⟨fun bump => (insertAll_intact RBTreeAlloc.Intact.new bump areas).1, fun s reach => ?_⟩
  obtain ⟨owned, intact⟩ := intact_of_reach valid reach
  exact ⟨⟨intact.childless, intact.kept⟩, fun call permitted sole =>
    perform_noUnwrap owned intact permitted sole⟩

/-- A run on touching areas that deletes the base of the second area, which no other node shares. -/
theorem noNodeLost_of_reach_touching :
    ∃ s, (heapSystem touchingAreas).Reach SoleKeys s ∧ s.free.length = 3 ∧ NoNodeLost s := by
  have executed : ((HeapState.boot sampleBump touchingAreas).bind
      (Behaviour.run HeapState.attempt SoleKeys ·
        [.alloc directMap (.bytes 0x100), .alloc directMap (.bytes 0x2000),
          .free ⟨0x3000, 0x2000⟩])).map (fun s => s.free.length) = some 3 := by
    decide +kernel
  obtain ⟨s, reach, free⟩ := HeapState.exists_reach executed
  exact ⟨s, reach, free, ((noNodeLost_of_reach touchingAreas_valid).2 s reach).1⟩

/-- In the run that shares a base, the node of the second area goes to `free_node` while the
used-up third area hangs below it. -/
theorem noNodeLost_of_reachable_false :
    ¬∀ areas, HeapAreas areas → (∀ bump, NoUnwrap (RBTreeAlloc.new.insertAll bump areas)) ∧
      ∀ s, (heapSystem areas).Reachable s →
        NoNodeLost s ∧ ∀ call, s.Permits call → NoUnwrap (s.perform call) := by
  intro always
  have executed : ((HeapState.boot sampleBump touchingAreas).bind
      (Behaviour.run HeapState.attempt (fun _ _ => True) · sharedBaseCalls)).map
        (fun s => s.alloc.handed.map fun h => h.right.isNil) = some [false] := by
    decide +kernel
  obtain ⟨s, reach, handed⟩ := HeapState.exists_reach executed
  have childless := ((always touchingAreas touchingAreas_valid).2 s reach.reachable).1.childless
  cases nodes : s.alloc.handed with
  | nil => simp [nodes] at handed
  | cons h rest =>
      have empty := (childless h (by simp [nodes])).2
      simp [nodes, empty] at handed

end Blubos
