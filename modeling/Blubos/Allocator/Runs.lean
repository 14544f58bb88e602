import Blubos.Allocator.TreeFree
import Blubos.Foundation.Run

/-!
# Runs of the tree allocator

The heap as its callers see it: the allocator, the bump heap behind it and the blocks that are
live.  A run inserts the heap areas in order and then performs calls of `alloc` and `free`; a step
is a call that returns.
-/

namespace Blubos

/-- The allocator, the bump heap its nodes come from and the live blocks. -/
structure HeapState where
  /-- `TREE_ALLOCATOR_DATA`. -/
  alloc : RBTreeAlloc
  bump : BumpHeap
  live : List Span

/-- A call of the allocator. -/
inductive HeapCall where
  /-- `alloc`, with the address translation in force at the time of the call. -/
  | alloc (map : AddressMap) (request : Request)
  /-- `free` of a block. -/
  | free (block : Span)

namespace HeapState

/-- The regions of the tree in order. -/
def free (s : HeapState) : List Region := regions s.alloc.root

/-- What callers promise: no empty allocation, and only live blocks are freed, with their size. -/
def Permits (s : HeapState) : HeapCall → Prop
  | .alloc _ request => 0 < request.size
  | .free block => block ∈ s.live

def perform (s : HeapState) : HeapCall → Except Fault HeapState
  | .alloc map request => do
      let (out, alloc) ← s.alloc.alloc map request
      .ok ⟨alloc, s.bump, out.toList.map (⟨·, request.size⟩) ++ s.live⟩
  | .free block => do
      let (alloc, bump) ← s.alloc.free s.bump block.base block.size
      .ok ⟨alloc, bump, s.live.erase block⟩

/-- A call that returns is a search that fails, a search that serves the request, or a `free`. -/
theorem perform_cases {s s' : HeapState} {call : HeapCall} (step : s.perform call = .ok s') :
    (∃ map request tree, call = .alloc map request ∧
        RBTreeAlloc.allocRec map request s.alloc.root = .ok (tree, none) ∧
        s' = { s with alloc := { s.alloc with root := tree.paint .black } }) ∨
      (∃ map request tree a, call = .alloc map request ∧
        RBTreeAlloc.allocRec map request s.alloc.root = .ok (tree, some a) ∧
        s' = { s with
          alloc := { s.alloc with root := tree.paint .black }
          live := ⟨a, request.size⟩ :: s.live }) ∨
      ∃ block alloc bump, call = .free block ∧
        s.alloc.free s.bump block.base block.size = .ok (alloc, bump) ∧
        s' = ⟨alloc, bump, s.live.erase block⟩ := by
  cases call with
  | alloc map request =>
      simp only [perform, RBTreeAlloc.alloc_eq, bind_eq_ok, Except.ok.injEq, Prod.exists,
        Prod.mk.injEq] at step
      obtain ⟨_, alloc, ⟨tree, out, searched, rfl, rfl⟩, rfl⟩ := step
      cases out with
      | none => exact .inl ⟨map, request, tree, rfl, searched, rfl⟩
      | some a => exact .inr (.inl ⟨map, request, tree, a, rfl, searched, rfl⟩)
  | free block =>
      simp only [perform, bind_eq_ok, Except.ok.injEq, Prod.exists] at step
      obtain ⟨alloc, bump, freed, rfl⟩ := step
      exact .inr (.inr ⟨block, alloc, bump, rfl, freed, rfl⟩)

end HeapState

/-- Regions in ascending order, none of them empty; neighbours may touch. -/
structure HeapAreas (areas : List Region) : Prop where
  /-- Each region ends at or before the next one starts. -/
  apart : Span.Apart areas
  occupied : ∀ r ∈ areas, 0 < r.size

/-- The runs of a heap with the given areas. -/
def heapSystem (areas : List Region) : Behaviour HeapState HeapCall where
  initial s := ∃ bump, RBTreeAlloc.new.insertAll bump areas = .ok (s.alloc, s.bump) ∧ s.live = []
  step s call s' := s.Permits call ∧ s.perform call = .ok s'

theorem insertAll_regions {self self' : RBTreeAlloc} {bump bump' : BumpHeap} {areas : List Region}
    (inserted : self.insertAll bump areas = .ok (self', bump'))
    (whole : HeapAreas (regions self.root ++ areas)) :
    regions self'.root = regions self.root ++ areas := by
  induction areas generalizing self bump with
  | nil =>
      simp only [RBTreeAlloc.insertAll, Except.ok.injEq, Prod.mk.injEq] at inserted
      rw [inserted.1, List.append_nil]
  | cons area areas induction =>
      simp only [RBTreeAlloc.insertAll, bind_eq_ok, Prod.exists] at inserted
      obtain ⟨mid, bumpMid, first, rest⟩ := inserted
      have appended : regions mid.root = regions self.root ++ [area] := by
        rcases insert_regions first with ⟨empty, -⟩ | ⟨-, before, after, split, joined, placed⟩
        · have := whole.occupied area (by simp)
          omega
        · obtain ⟨pairs, -, cross⟩ := List.pairwise_append.mp whole.apart
          obtain ⟨-, large⟩ := placed (Span.Apart.sorted pairs)
          have last : after = [] := by
            rcases after with _ | ⟨r, after⟩
            · rfl
            · have memberOld : r ∈ regions self.root := by simp [split]
              have order := cross r memberOld area List.mem_cons_self
              have beyond := large r List.mem_cons_self
              have := r.base_le_stop
              omega
          subst last
          rw [joined, split, List.append_nil]
      have step : regions self'.root = regions mid.root ++ areas := by
        apply induction rest
        rw [appended, List.append_assoc]
        exact whole
      rw [step, appended, List.append_assoc]
      rfl

theorem initial_free {areas : List Region} (valid : HeapAreas areas) {s : HeapState}
    (initial : (heapSystem areas).initial s) : s.free = areas := by
  obtain ⟨bump, inserted, -⟩ := initial
  exact insertAll_regions inserted valid

instance (s : HeapState) (call : HeapCall) : Decidable (s.Permits call) :=
  match call with
  | .alloc _ request => inferInstanceAs (Decidable (0 < request.size))
  | .free block => inferInstanceAs (Decidable (block ∈ s.live))

/-- The heap after the areas were inserted. -/
def HeapState.boot (bump : BumpHeap) (areas : List Region) : Option HeapState :=
  match RBTreeAlloc.new.insertAll bump areas with
  | .ok (alloc, bump) => some ⟨alloc, bump, []⟩
  | .error _ => none

/-- The effect of a call that its caller may make. -/
def HeapState.attempt (s : HeapState) (call : HeapCall) : Option HeapState :=
  if s.Permits call then (s.perform call).toOption else none

theorem HeapState.attempt_computes (areas : List Region) :
    (heapSystem areas).Computes HeapState.attempt := by
  intro s call s' attempted
  rw [attempt] at attempted
  split_ifs at attempted with permitted
  exact ⟨permitted, toOption_eq_some.mp attempted⟩

theorem HeapState.boot_eq_some {areas : List Region} {bump : BumpHeap} {s : HeapState}
    (booted : boot bump areas = some s) :
    RBTreeAlloc.new.insertAll bump areas = .ok (s.alloc, s.bump) ∧ s.live = [] := by
  unfold boot at booted
  split at booted
  · rename_i alloc bump inserted
    obtain rfl := Option.some.inj booted
    exact ⟨inserted, rfl⟩
  · cases booted

/-- What an executed run on heap areas computes holds of a state that is reached. -/
theorem HeapState.exists_reach {allowed : HeapState → HeapCall → Prop}
    [∀ s call, Decidable (allowed s call)] {areas : List Region} {bump : BumpHeap}
    {calls : List HeapCall} {α : Type} {f : HeapState → α} {x : α}
    (executed : ((boot bump areas).bind (Behaviour.run attempt allowed · calls)).map f = some x) :
    ∃ s, (heapSystem areas).Reach allowed s ∧ f s = x := by
  obtain ⟨last, ran, value⟩ := Option.map_eq_some_iff.mp executed
  obtain ⟨s, booted, ran⟩ := Option.bind_eq_some_iff.mp ran
  exact (attempt_computes areas).exists_reach (.intro bump (boot_eq_some booted))
    (Option.map_eq_some_iff.mpr ⟨last, ran, value⟩)

/-- A bump heap of 64 KiB at 1 MiB. -/
def sampleBump : BumpHeap where
  base := 0x100000
  size := 0x10000
  next := 0x100000
  bounded := by decide
  nonnull := by decide
  base_le_next := le_rfl

/-- Before the mapper is initialised, with the direct map at offset zero. -/
def directMap : AddressMap := ⟨none, 0⟩

def Request.bytes (size : ℕ) : Request := ⟨size, 1, ⟨0, rfl⟩, none, none⟩

end Blubos
