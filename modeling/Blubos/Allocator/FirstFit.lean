import Blubos.Allocator.TreeContents

/-!
# Allocation is first fit

`alloc_rec` serves a request from the first region it looks at that has room, ends low enough and
keeps the block inside one boundary window.  It looks at a region unless the `max_size` of a
subtree above it is too small, so when every `max_size` is exact it looks at every region that is
large enough.
-/

namespace Blubos

/-- The first aligned address of a region. -/
def Request.start (request : Request) (r : Region) : ℕ := roundUp r.base request.align

/-- A region can serve a request: the aligned block fits, ends at or below the highest physical
address and stays inside the window. -/
structure Serves (map : AddressMap) (request : Request) (r : Region) : Prop where
  room : request.start r + request.size ≤ r.stop
  /-- The physical end is not above the limit. -/
  low : ∃ physical, map.toPhysicalAddr (request.start r) = .ok physical ∧
    physical + request.size ≤ request.maxAddress.getD Usize.max
  inside : RBTreeAlloc.insideBoundary (request.start r) request.size request.boundary = .ok true

instance (map : AddressMap) (request : Request) (r : Region) : Decidable (Serves map request r) :=
  decidable_of_iff (request.start r + request.size ≤ r.stop ∧
      (∃ physical ∈ (map.toPhysicalAddr (request.start r)).toOption,
        physical + request.size ≤ request.maxAddress.getD Usize.max) ∧
      RBTreeAlloc.insideBoundary (request.start r) request.size request.boundary = .ok true) <| by
    have translated (physical : ℕ) :
        physical ∈ (map.toPhysicalAddr (request.start r)).toOption ↔
          map.toPhysicalAddr (request.start r) = .ok physical := by
      cases map.toPhysicalAddr (request.start r) <;> simp [Except.toOption]
    simp only [translated]
    exact ⟨fun ⟨room, low, inside⟩ => ⟨room, low, inside⟩,
      fun serves => ⟨serves.room, serves.low, serves.inside⟩⟩

/-- What serving a request leaves of a region: its end, from the end of the block on. -/
def Request.remainder (request : Request) (r : Region) : Region :=
  ⟨request.start r + request.size, r.stop - (request.start r + request.size)⟩

theorem Request.le_start (request : Request) (r : Region) : r.base ≤ request.start r := by
  obtain ⟨k, power⟩ := request.power
  apply le_roundUp
  rw [power]
  exact Nat.two_pow_pos k

theorem Request.dvd_start (request : Request) (r : Region) : request.align ∣ request.start r :=
  dvd_roundUp _ _

theorem Serves.remainder_stop {map : AddressMap} {request : Request} {r : Region}
    (serves : Serves map request r) : (request.remainder r).stop = r.stop := by
  have room := serves.room
  simp only [Request.remainder, Span.stop_mk]
  omega

/-- A region that serves a request is at least as large as the block. -/
theorem Serves.size_le {map : AddressMap} {request : Request} {r : Region}
    (serves : Serves map request r) : request.size ≤ r.size := by
  have room := serves.room
  have above := request.le_start r
  simp only [Span.stop] at room
  omega

theorem Request.base_le_remainder (request : Request) (r : Region) :
    r.base ≤ (request.remainder r).base :=
  (request.le_start r).trans (Nat.le_add_right _ _)

/-- The block of a served request lies in the region that serves it. -/
theorem Serves.block_subset {map : AddressMap} {request : Request} {r : Region}
    (serves : Serves map request r) :
    (⟨request.start r, request.size⟩ : Span).addresses ⊆ r.addresses :=
  Span.addresses_subset (request.le_start r) serves.room

theorem Serves.remainder_subset {map : AddressMap} {request : Request} {r : Region}
    (serves : Serves map request r) : (request.remainder r).addresses ⊆ r.addresses :=
  Span.addresses_subset (request.base_le_remainder r) serves.remainder_stop.le

/-- The block of a served request meets neither the other regions nor what is left of its own. -/
theorem Serves.block_disjoint {map : AddressMap} {request : Request} {before after : List Region}
    {r : Region} (serves : Serves map request r)
    (disjoint : (before ++ r :: after).Pairwise fun q q' => Disjoint q.addresses q'.addresses) :
    Disjoint (⟨request.start r, request.size⟩ : Span).addresses
      (Span.cover (before ++ request.remainder r :: after)) := by
  obtain ⟨-, beforePairs, afterPairs⟩ := Span.pairwise_middle.mp disjoint
  rw [Span.disjoint_cover]
  intro q member
  rw [List.mem_append, List.mem_cons] at member
  rcases member with earlier | rfl | later
  · exact ((beforePairs q earlier).mono_right serves.block_subset).symm
  · exact Span.disjoint_of_stop_le le_rfl
  · exact (afterPairs q later).mono_left serves.block_subset

/-- The range test of one node either serves the request from it or shows that it cannot. -/
theorem allocHere_spec {map : AddressMap} {request : Request} {n : TreeRegion}
    {result : Option (TreeRegion × ℕ)}
    (step : RBTreeAlloc.allocHere map request (request.maxAddress.getD Usize.max) n = .ok result) :
    (result = none ∧ ¬Serves map request n.toSpan) ∨
      ∃ n', result = some (n', request.start n.toSpan) ∧ Serves map request n.toSpan ∧
        n'.toSpan = request.remainder n.toSpan ∧ n'.box = n.box := by
  unfold RBTreeAlloc.allocHere RBTreeAlloc.allocHereWith at step
  simp only [bind_eq_ok, Usize.sub_eq_ok, Usize.add_eq_ok] at step
  obtain ⟨_, ⟨align_pos, rfl⟩, _, ⟨raised, rfl⟩, _, ⟨above, rfl⟩, _, ⟨-, rfl⟩, step⟩ := step
  have aligned : n.base + (request.align - 1) &&& Usize.not (request.align - 1) =
      request.start n.toSpan :=
    Usize.land_not raised request.power (by omega)
  rw [aligned] at step above
  by_cases room : request.start n.toSpan - n.base + request.size ≤ n.size
  · rw [if_pos room] at step
    have room' : request.start n.toSpan + request.size ≤ n.stop := by
      simp only [Span.stop]
      omega
    simp only [bind_eq_ok, Usize.add_eq_ok] at step
    obtain ⟨physical, translated, _, ⟨-, rfl⟩, step⟩ := step
    by_cases low : physical + request.size ≤ request.maxAddress.getD Usize.max
    · rw [if_pos low, bind_eq_ok] at step
      obtain ⟨inside, tested, step⟩ := step
      cases inside with
      | false =>
          obtain rfl : none = result := by simpa using step
          exact .inl ⟨rfl, fun serves => by simpa [tested] using serves.inside⟩
      | true =>
          simp only [if_true, bind_eq_ok, Usize.add_eq_ok, Usize.sub_eq_ok, Except.ok.injEq] at step
          obtain ⟨_, ⟨-, rfl⟩, _, ⟨-, rfl⟩, rfl⟩ := step
          refine .inr ⟨_, rfl, ⟨room', ⟨physical, translated, low⟩, tested⟩, ?_, rfl⟩
          simp only [Request.remainder, Span.stop, Span.mk.injEq]
          omega
    · obtain rfl : none = result := by simpa [low] using step
      refine .inl ⟨rfl, fun serves => ?_⟩
      obtain ⟨physical', translated', low'⟩ := serves.low
      rw [translated, Except.ok.injEq] at translated'
      omega
  · obtain rfl : none = result := by simpa [room] using step
    refine .inl ⟨rfl, fun serves => ?_⟩
    have room' := serves.room
    simp only [Span.stop] at room'
    omega

/-- The regions a search looks at when none of them serves the request, in this order. -/
def visible (size : ℕ) : Link → List Region
  | .nil => []
  | .node _ l n r =>
      (if RBTreeAlloc.hasRoom size l then visible size l else []) ++
        n.toSpan :: (if RBTreeAlloc.hasRoom size r then visible size r else [])

/-- Every `max_size` is the largest size in its subtree. -/
def MaxSizesExact : Link → Prop := Tree.Fresh maxSizeRule

/-- With an exact `max_size` no region of a subtree without room is large enough. -/
theorem MaxSizesExact.size_le {tree : Link} (exact : MaxSizesExact tree) {q : Region}
    (member : q ∈ regions tree) :
    ∃ color l n r, tree = .node color l n r ∧ q.size ≤ n.maxSize := by
  induction tree with
  | nil => simp at member
  | node color l n r ihl ihr =>
      obtain ⟨current, left, right⟩ := exact
      refine ⟨color, l, n, r, rfl, ?_⟩
      rw [← current]
      rw [regions_node, List.mem_append, List.mem_cons] at member
      rcases member with member | rfl | member
      · obtain ⟨_, _, _, _, rfl, small⟩ := ihl left member
        cases r <;> simp [maxSizeRule, updateMaxSize, small]
      · cases l <;> cases r <;> simp [maxSizeRule, updateMaxSize]
      · obtain ⟨_, _, _, _, rfl, small⟩ := ihr right member
        cases l <;> simp [maxSizeRule, updateMaxSize, small]

theorem MaxSizesExact.hasRoom {tree : Link} (exact : MaxSizesExact tree) {q : Region} {size : ℕ}
    (member : q ∈ regions tree) (large : size ≤ q.size) : RBTreeAlloc.hasRoom size tree = true := by
  obtain ⟨_, _, n, _, rfl, small⟩ := exact.size_le member
  simpa [RBTreeAlloc.hasRoom] using large.trans small

/-- What a search made of a tree after looking at the regions `looked`. -/
inductive Searched (map : AddressMap) (request : Request) (tree tree' : Link)
    (looked : List Region) : Option ℕ → Prop
  | refused : regions tree' = regions tree → (∀ q ∈ looked, ¬Serves map request q) →
      (MaxSizesExact tree → ∀ q ∈ regions tree, ¬Serves map request q) →
      Searched map request tree tree' looked none
  | took {before after seen unseen : List Region} {r : Region} :
      regions tree = before ++ r :: after →
      regions tree' = before ++ request.remainder r :: after →
      looked = seen ++ r :: unseen → Serves map request r →
      (∀ q ∈ seen, ¬Serves map request q) →
      (MaxSizesExact tree → ∀ q ∈ before, ¬Serves map request q) →
      Searched map request tree tree' looked (some (request.start r))

section Search

variable {map : AddressMap} {request : Request}

/-- The ways `alloc_rec` returns from a node. -/
theorem allocRec_cases {color : Color} {l : Link} {n : TreeRegion} {r tree' : Link}
    {out : Option ℕ}
    (step : RBTreeAlloc.allocRec map request (.node color l n r) = .ok (tree', out)) :
    ∃ l' outLeft, (if RBTreeAlloc.hasRoom request.size l then RBTreeAlloc.allocRec map request l
        else .ok (l, none)) = .ok (l', outLeft) ∧
      ((∃ a, outLeft = some a ∧ out = some a ∧
          tree' = .node color l' (updateMaxSize l' n r) r) ∨
        (outLeft = none ∧ ∃ here, RBTreeAlloc.allocHere map request
            (request.maxAddress.getD Usize.max) n = .ok here ∧
          ((∃ n' a, here = some (n', a) ∧ out = some a ∧
              tree' = .node color l' (updateMaxSize l' n' r) r) ∨
            (here = none ∧ ∃ r', (if RBTreeAlloc.hasRoom request.size r then
                RBTreeAlloc.allocRec map request r else .ok (r, none)) = .ok (r', out) ∧
              tree' = .node color l' (updateMaxSize l' n r') r')))) := by
  rw [RBTreeAlloc.allocRec_node, bind_eq_ok] at step
  obtain ⟨⟨l', outLeft⟩, left, step⟩ := step
  refine ⟨l', outLeft, left, ?_⟩
  cases outLeft with
  | some a =>
      simp only [Option.isSome_some, if_true, Except.ok.injEq, Prod.mk.injEq] at step
      exact .inl ⟨a, rfl, step.2.symm, step.1.symm⟩
  | none =>
      simp only [Option.isSome_none, Bool.false_eq_true, if_false, bind_eq_ok] at step
      obtain ⟨here, tried, step⟩ := step
      refine .inr ⟨rfl, here, tried, ?_⟩
      cases here with
      | some served =>
          simp only [Except.ok.injEq, Prod.mk.injEq] at step
          exact .inl ⟨served.1, served.2, rfl, step.2.symm, step.1.symm⟩
      | none =>
          simp only [bind_eq_ok, Except.ok.injEq, Prod.mk.injEq, Prod.exists] at step
          obtain ⟨r', outRight, right, rfl, rfl⟩ := step
          exact .inr ⟨rfl, r', right, rfl⟩

theorem Searched.descend {tree tree' : Link} {out : Option ℕ}
    (step : (if RBTreeAlloc.hasRoom request.size tree then RBTreeAlloc.allocRec map request tree
      else .ok (tree, none)) = .ok (tree', out))
    (induction : RBTreeAlloc.allocRec map request tree = .ok (tree', out) →
      tree'.map (·.box) = tree.map (·.box) ∧
        Searched map request tree tree' (visible request.size tree) out) :
    tree'.map (·.box) = tree.map (·.box) ∧ Searched map request tree tree'
      (if RBTreeAlloc.hasRoom request.size tree then visible request.size tree else []) out := by
  by_cases room : RBTreeAlloc.hasRoom request.size tree = true
  · rw [if_pos room] at step ⊢
    exact induction step
  · rw [if_neg room] at step ⊢
    simp only [Except.ok.injEq, Prod.mk.injEq] at step
    obtain ⟨rfl, rfl⟩ := step
    refine ⟨rfl, .refused rfl (by simp) fun exact q member serves => ?_⟩
    exact room (exact.hasRoom member serves.size_le)

section Node

variable {color color' : Color} {l l' : Link} {n n' : TreeRegion} {r r' : Link}
  {lookedLeft lookedRight : List Region}

theorem Searched.of_left {a : ℕ} (searched : Searched map request l l' lookedLeft (some a)) :
    Searched map request (.node color l n r) (.node color' l' (updateMaxSize l' n r) r)
      (lookedLeft ++ n.toSpan :: lookedRight) (some a) := by
  cases searched with
  | @took before after seen unseen s split shrunk order serves refused complete =>
      refine @Searched.took map request _ _ _ before (after ++ n.toSpan :: regions r) seen
        (unseen ++ n.toSpan :: lookedRight) s ?_ ?_ ?_ serves refused ?_
      · rw [regions_node, split, List.append_assoc, List.cons_append]
      · rw [regions_node, shrunk, List.append_assoc, List.cons_append, toSpan_updateMaxSize]
      · rw [order, List.append_assoc, List.cons_append]
      · exact fun exact => complete exact.2.1

theorem Searched.of_here (searched : Searched map request l l' lookedLeft none)
    (serves : Serves map request n.toSpan) (shrunk : n'.toSpan = request.remainder n.toSpan) :
    Searched map request (.node color l n r) (.node color' l' (updateMaxSize l' n' r) r)
      (lookedLeft ++ n.toSpan :: lookedRight) (some (request.start n.toSpan)) := by
  cases searched with
  | refused same refused complete =>
      refine @Searched.took map request _ _ _ (regions l) (regions r) lookedLeft lookedRight
        n.toSpan ?_ ?_ rfl serves refused ?_
      · rw [regions_node]
      · rw [regions_node, same, toSpan_updateMaxSize, shrunk]
      · exact fun exact => complete exact.2.1

/-- The left subtree and the node did not serve the request. -/
theorem Searched.of_right {out : Option ℕ} (searched : Searched map request l l' lookedLeft none)
    (fails : ¬Serves map request n.toSpan) (right : Searched map request r r' lookedRight out) :
    Searched map request (.node color l n r) (.node color' l' (updateMaxSize l' n r') r')
      (lookedLeft ++ n.toSpan :: lookedRight) out := by
  cases searched with
  | refused same refused complete =>
      cases right with
      | refused same' refused' complete' =>
          refine .refused ?_ ?_ ?_
          · rw [regions_node, regions_node, same, same', toSpan_updateMaxSize]
          · intro q member
            rw [List.mem_append, List.mem_cons] at member
            rcases member with member | rfl | member
            · exact refused q member
            · exact fails
            · exact refused' q member
          · intro exact q member
            rw [regions_node, List.mem_append, List.mem_cons] at member
            rcases member with member | rfl | member
            · exact complete exact.2.1 q member
            · exact fails
            · exact complete' exact.2.2 q member
      | @took before after seen unseen s split shrunk order serves refused' complete' =>
          refine @Searched.took map request _ _ _ (regions l ++ n.toSpan :: before) after
            (lookedLeft ++ n.toSpan :: seen) unseen s ?_ ?_ ?_ serves ?_ ?_
          · rw [regions_node, split, List.append_assoc, List.cons_append]
          · rw [regions_node, same, shrunk, List.append_assoc, List.cons_append,
              toSpan_updateMaxSize]
          · rw [order, List.append_assoc, List.cons_append]
          · intro q member
            rw [List.mem_append, List.mem_cons] at member
            rcases member with member | rfl | member
            · exact refused q member
            · exact fails
            · exact refused' q member
          · intro exact q member
            rw [List.mem_append, List.mem_cons] at member
            rcases member with member | rfl | member
            · exact complete exact.2.1 q member
            · exact fails
            · exact complete' exact.2.2 q member

end Node

/-- `alloc_rec` moves no node, and serves the request from the first region in its way that can. -/
theorem allocRec_spec {tree tree' : Link} {out : Option ℕ}
    (step : RBTreeAlloc.allocRec map request tree = .ok (tree', out)) :
    tree'.map (·.box) = tree.map (·.box) ∧
      Searched map request tree tree' (visible request.size tree) out := by
  induction tree generalizing tree' out with
  | nil =>
      simp only [RBTreeAlloc.allocRec_nil, Except.ok.injEq, Prod.mk.injEq] at step
      obtain ⟨rfl, rfl⟩ := step
      exact ⟨rfl, .refused rfl (by simp [visible]) (by simp)⟩
  | node color l n r ihl ihr =>
      obtain ⟨l', outLeft, left, rest⟩ := allocRec_cases step
      obtain ⟨leftBoxes, leftSearched⟩ := Searched.descend left ihl
      rw [visible]
      rcases rest with
        ⟨a, rfl, rfl, rfl⟩ | ⟨rfl, here, tried, ⟨n', a, rfl, rfl, rfl⟩ | ⟨rfl, r', right, rfl⟩⟩
      · exact ⟨by simp [leftBoxes], leftSearched.of_left⟩
      · rcases allocHere_spec tried with ⟨absurd, -⟩ | ⟨n'', served, serves, shrunk, box⟩
        · simp at absurd
        · simp only [Option.some.injEq, Prod.mk.injEq] at served
          obtain ⟨rfl, rfl⟩ := served
          exact ⟨by simp [leftBoxes, box], leftSearched.of_here serves shrunk⟩
      · obtain ⟨rightBoxes, rightSearched⟩ := Searched.descend right ihr
        rcases allocHere_spec tried with ⟨-, fails⟩ | ⟨n'', served, -⟩
        · exact ⟨by simp [leftBoxes, rightBoxes], leftSearched.of_right fails rightSearched⟩
        · simp at served

/-- A search recomputes the `max_size` of every node it passes, whatever it is asked for. -/
theorem allocRecWith_exact {size align : ℕ} {maxAddress boundary : Option ℕ} {tree tree' : Link}
    {out : Option ℕ} (exact : MaxSizesExact tree)
    (step : RBTreeAlloc.allocRecWith map size align maxAddress boundary tree = .ok (tree', out)) :
    MaxSizesExact tree' := by
  induction tree generalizing tree' out with
  | nil =>
      simp only [RBTreeAlloc.allocRecWith, Except.ok.injEq, Prod.mk.injEq] at step
      rw [← step.1]
      exact exact
  | node color l n r ihl ihr =>
      have descend {child child' : Link} {out' : Option ℕ} (exact : MaxSizesExact child)
          (induction : RBTreeAlloc.allocRecWith map size align maxAddress boundary child =
            .ok (child', out') → MaxSizesExact child')
          (step : (if RBTreeAlloc.hasRoom size child then
            RBTreeAlloc.allocRecWith map size align maxAddress boundary child
            else .ok (child, none)) = .ok (child', out')) : MaxSizesExact child' := by
        split_ifs at step
        · exact induction step
        · simp only [Except.ok.injEq, Prod.mk.injEq] at step
          rw [← step.1]
          exact exact
      obtain ⟨-, exactLeft, exactRight⟩ := exact
      rw [RBTreeAlloc.allocRecWith, bind_eq_ok] at step
      obtain ⟨⟨l', outLeft⟩, left, step⟩ := step
      have exactLeft' := descend exactLeft (ihl exactLeft) left
      cases outLeft with
      | some a =>
          simp only [Option.isSome_some, if_true, Except.ok.injEq, Prod.mk.injEq] at step
          exact step.1 ▸ ⟨rfl, exactLeft', exactRight⟩
      | none =>
          simp only [Option.isSome_none, Bool.false_eq_true, if_false, bind_eq_ok] at step
          obtain ⟨here, -, step⟩ := step
          cases here with
          | some served =>
              simp only [Except.ok.injEq, Prod.mk.injEq] at step
              exact step.1 ▸ ⟨rfl, exactLeft', exactRight⟩
          | none =>
              simp only [bind_eq_ok, Except.ok.injEq, Prod.mk.injEq, Prod.exists] at step
              obtain ⟨r', outRight, right, same, -⟩ := step
              exact same ▸ ⟨rfl, exactLeft', descend exactRight (ihr exactRight) right⟩

theorem allocRec_exact {tree tree' : Link} {out : Option ℕ} (exact : MaxSizesExact tree)
    (step : RBTreeAlloc.allocRec map request tree = .ok (tree', out)) : MaxSizesExact tree' :=
  allocRecWith_exact exact step

end Search

/-- `alloc` keeps the boxes and the shape of the tree up to the colour of the root, and serves the
request from the first region in its way that can. -/
theorem alloc_spec {self self' : RBTreeAlloc} {map : AddressMap} {request : Request}
    {out : Option ℕ} (step : self.alloc map request = .ok (out, self')) :
    ∃ tree, RBTreeAlloc.allocRec map request self.root = .ok (tree, out) ∧
      self' = { self with root := tree.paint .black } ∧
      tree.map (·.box) = self.root.map (·.box) ∧
      Searched map request self.root tree (visible request.size self.root) out := by
  simp only [RBTreeAlloc.alloc_eq, bind_eq_ok, Except.ok.injEq, Prod.mk.injEq, Prod.exists] at step
  obtain ⟨tree, out, searched, rfl, rfl⟩ := step
  obtain ⟨shape, outcome⟩ := allocRec_spec searched
  exact ⟨tree, searched, rfl, shape, outcome⟩

end Blubos
