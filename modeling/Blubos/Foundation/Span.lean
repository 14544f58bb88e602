import Mathlib.Order.Interval.Set.Basic
import Mathlib.Data.List.Pairwise
import Mathlib.Data.Set.Lattice
import Mathlib.Order.CompletePartialOrder

/-!
# Spans of addresses

A span is a half-open interval given by its first address and its length.  Lists of spans in
address order are either merely apart, so that neighbours may touch, or gapped, so that at least
one address separates neighbours.  Empty spans are allowed everywhere: they cover nothing, but
they still occupy a place in the order.
-/

namespace Blubos

/-- The half-open interval of `size` addresses starting at `base`. -/
structure Span where
  base : ℕ
  size : ℕ
deriving DecidableEq, Repr

namespace Span

def stop (span : Span) : ℕ := span.base + span.size

def addresses (span : Span) : Set ℕ := Set.Ico span.base span.stop

/-- The addresses covered by a list of spans. -/
def cover (spans : List Span) : Set ℕ := {address | ∃ span ∈ spans, address ∈ span.addresses}

/-- Every span ends at or before each later one starts. -/
def Apart (spans : List Span) : Prop := spans.Pairwise fun left right => left.stop ≤ right.base

/-- Every span ends strictly before each later one starts. -/
def Gapped (spans : List Span) : Prop := spans.Pairwise fun left right => left.stop < right.base

instance (spans : List Span) : Decidable (Apart spans) :=
  inferInstanceAs (Decidable (spans.Pairwise _))

instance (spans : List Span) : Decidable (Gapped spans) :=
  inferInstanceAs (Decidable (spans.Pairwise _))

theorem mem_addresses {span : Span} {address : ℕ} :
    address ∈ span.addresses ↔ span.base ≤ address ∧ address < span.stop := Iff.rfl

theorem base_le_stop (span : Span) : span.base ≤ span.stop := Nat.le_add_right _ _

theorem stop_mk (base size : ℕ) : (Span.mk base size).stop = base + size := rfl

theorem mem_cover {spans : List Span} {address : ℕ} :
    address ∈ cover spans ↔ ∃ span ∈ spans, span.base ≤ address ∧ address < span.stop := Iff.rfl

@[simp] theorem cover_nil : cover [] = ∅ := by
  ext address
  simp [mem_cover]

@[simp] theorem cover_cons (span : Span) (spans : List Span) :
    cover (span :: spans) = span.addresses ∪ cover spans := by
  ext address
  simp [cover]

@[simp] theorem cover_append (left right : List Span) :
    cover (left ++ right) = cover left ∪ cover right := by
  induction left with
  | nil => simp
  | cons span left induction => rw [List.cons_append, cover_cons, cover_cons, induction,
      Set.union_assoc]

theorem addresses_of_empty {span : Span} (empty : span.size = 0) : span.addresses = ∅ := by
  ext address
  simp only [mem_addresses, stop, empty, Set.mem_empty_iff_false, iff_false]
  omega

/-- Adjacent spans cover what one span of the joint size covers. -/
theorem addresses_append (base front back : ℕ) :
    (Span.mk base front).addresses ∪ (Span.mk (base + front) back).addresses =
      (Span.mk base (front + back)).addresses := by
  ext address
  simp only [Set.mem_union, mem_addresses, stop]
  omega

theorem addresses_subset_cover {span : Span} {spans : List Span} (member : span ∈ spans) :
    span.addresses ⊆ cover spans := fun _ inside => ⟨span, member, inside⟩

theorem disjoint_iff {left right : Span} :
    Disjoint left.addresses right.addresses ↔
      ∀ address, left.base ≤ address → address < left.stop →
        right.base ≤ address → address < right.stop → False := by
  rw [Set.disjoint_left]
  constructor
  · intro apart address above below above' below'
    exact apart ⟨above, below⟩ ⟨above', below'⟩
  · intro apart address inside inside'
    exact apart address inside.1 inside.2 inside'.1 inside'.2

theorem disjoint_of_stop_le {left right : Span} (order : left.stop ≤ right.base) :
    Disjoint left.addresses right.addresses := by
  rw [disjoint_iff]
  intro address _ below above _
  omega

theorem Gapped.apart {spans : List Span} (gapped : Gapped spans) : Apart spans :=
  gapped.imp fun order => order.le

theorem Apart.sublist {spans kept : List Span} (sub : kept.Sublist spans) (apart : Apart spans) :
    Apart kept := List.Pairwise.sublist sub apart

theorem Gapped.sublist {spans kept : List Span} (sub : kept.Sublist spans)
    (gapped : Gapped spans) : Gapped kept := List.Pairwise.sublist sub gapped

theorem Apart.sorted {spans : List Span} (apart : Apart spans) :
    spans.Pairwise fun left right => left.base ≤ right.base :=
  apart.imp fun {left _} order => left.base_le_stop.trans order

theorem Apart.disjoint {spans : List Span} (apart : Apart spans) :
    spans.Pairwise fun left right => Disjoint left.addresses right.addresses :=
  apart.imp disjoint_of_stop_le

theorem pairwise_middle {relation : Span → Span → Prop} {before after : List Span} {span : Span} :
    (before ++ span :: after).Pairwise relation ↔
      (before ++ after).Pairwise relation ∧ (∀ earlier ∈ before, relation earlier span) ∧
        ∀ later ∈ after, relation span later := by
  simp only [List.pairwise_append, List.pairwise_cons, List.mem_cons]
  constructor
  · rintro ⟨beforePairs, ⟨spanAfter, afterPairs⟩, cross⟩
    exact ⟨⟨beforePairs, afterPairs, fun a ha b hb => cross a ha b (.inr hb)⟩,
      fun a ha => cross a ha span (.inl rfl), spanAfter⟩
  · rintro ⟨⟨beforePairs, afterPairs, cross⟩, beforeSpan, spanAfter⟩
    refine ⟨beforePairs, ⟨spanAfter, afterPairs⟩, fun a ha b hb => ?_⟩
    rcases hb with rfl | hb
    · exact beforeSpan a ha
    · exact cross a ha b hb

theorem Apart.shrink {before after : List Span} {span kept : Span}
    (apart : Apart (before ++ span :: after)) (base : span.base ≤ kept.base)
    (stop : kept.stop ≤ span.stop) : Apart (before ++ kept :: after) := by
  obtain ⟨others, left, right⟩ := pairwise_middle.mp apart
  refine pairwise_middle.mpr ⟨others, fun r member => ?_, fun r member => ?_⟩
  · exact (left r member).trans base
  · exact stop.trans (right r member)

theorem Gapped.shrink {before after : List Span} {span kept : Span}
    (gapped : Gapped (before ++ span :: after)) (base : span.base ≤ kept.base)
    (stop : kept.stop ≤ span.stop) : Gapped (before ++ kept :: after) := by
  obtain ⟨others, left, right⟩ := pairwise_middle.mp gapped
  refine pairwise_middle.mpr ⟨others, fun r member => ?_, fun r member => ?_⟩
  · exact (left r member).trans_le base
  · exact stop.trans_lt (right r member)

theorem addresses_subset {inner outer : Span} (base : outer.base ≤ inner.base)
    (stop : inner.stop ≤ outer.stop) : inner.addresses ⊆ outer.addresses :=
  fun _ inside => ⟨base.trans inside.1, inside.2.trans_le stop⟩

theorem cover_subset {spans : List Span} {set : Set ℕ} :
    cover spans ⊆ set ↔ ∀ span ∈ spans, span.addresses ⊆ set := by
  constructor
  · exact fun subset span member => (addresses_subset_cover member).trans subset
  · exact fun subset _ ⟨span, member, inside⟩ => subset span member inside

theorem disjoint_cover {set : Set ℕ} {spans : List Span} :
    Disjoint set (cover spans) ↔ ∀ span ∈ spans, Disjoint set span.addresses := by
  constructor
  · exact fun apart span member => apart.mono_right (addresses_subset_cover member)
  · intro apart
    rw [Set.disjoint_left]
    rintro address inside ⟨span, member, covered⟩
    exact Set.disjoint_left.mp (apart span member) inside covered

theorem cover_perm {left right : List Span} (perm : left.Perm right) :
    cover left = cover right := by
  ext address
  exact ⟨fun ⟨span, member, inside⟩ => ⟨span, perm.subset member, inside⟩,
    fun ⟨span, member, inside⟩ => ⟨span, perm.symm.subset member, inside⟩⟩

theorem cover_filter_occupied (spans : List Span) :
    cover (spans.filter fun span => decide (0 < span.size)) = cover spans := by
  ext address
  constructor
  · exact fun ⟨span, member, inside⟩ => ⟨span, (List.mem_filter.mp member).1, inside⟩
  · rintro ⟨span, member, inside⟩
    refine ⟨span, List.mem_filter.mpr ⟨member, decide_eq_true ?_⟩, inside⟩
    have := inside.1
    have := inside.2
    simp only [stop] at this
    omega

/-- The end of a span is not covered when gaps separate it from the later spans. -/
theorem Gapped.stop_notMem {span : Span} {spans : List Span} (gapped : Gapped (span :: spans)) :
    span.stop ∉ cover (span :: spans) := by
  rintro ⟨other, member, above, below⟩
  rcases List.mem_cons.mp member with rfl | member
  · exact lt_irrefl _ below
  · exact absurd above (not_le.mpr ((List.pairwise_cons.mp gapped).1 other member))

theorem Gapped.base_le {span : Span} {spans : List Span} (gapped : Gapped (span :: spans))
    {address : ℕ} (covered : address ∈ cover (span :: spans)) : span.base ≤ address := by
  obtain ⟨other, member, above, -⟩ := covered
  rcases List.mem_cons.mp member with rfl | member
  · exact above
  · exact (span.base_le_stop.trans ((List.pairwise_cons.mp gapped).1 other member).le).trans above

/-- The later spans cover what lies behind the first one. -/
theorem Gapped.mem_tail_iff {span : Span} {spans : List Span} (gapped : Gapped (span :: spans))
    {address : ℕ} :
    address ∈ cover spans ↔ address ∈ cover (span :: spans) ∧ span.stop ≤ address := by
  constructor
  · rintro ⟨other, member, above, below⟩
    exact ⟨⟨other, List.mem_cons_of_mem _ member, above, below⟩,
      ((List.pairwise_cons.mp gapped).1 other member).le.trans above⟩
  · rintro ⟨⟨other, member, above, below⟩, behind⟩
    rcases List.mem_cons.mp member with rfl | member
    · exact absurd below (not_lt.mpr behind)
    · exact ⟨other, member, above, below⟩

/-- A set of addresses is covered by one list of spans that are not empty and have gaps between
them. -/
theorem Gapped.eq_of_cover {left right : List Span} (gapped : Gapped left) (gapped' : Gapped right)
    (positive : ∀ span ∈ left, 0 < span.size) (positive' : ∀ span ∈ right, 0 < span.size)
    (same : cover left = cover right) : left = right := by
  have starts {span : Span} {spans : List Span} (positive : ∀ q ∈ span :: spans, 0 < q.size) :
      span.base ∈ cover (span :: spans) := by
    refine ⟨span, List.mem_cons_self, le_rfl, ?_⟩
    have := positive span List.mem_cons_self
    simp only [stop]
    omega
  induction left generalizing right with
  | nil =>
      cases right with
      | nil => rfl
      | cons span spans => exact absurd (same ▸ starts positive') (by simp)
  | cons span spans induction =>
      cases right with
      | nil => exact absurd (same.symm ▸ starts positive) (by simp)
      | cons span' spans' =>
          have base : span.base = span'.base :=
            le_antisymm (gapped.base_le (same ▸ starts positive'))
              (gapped'.base_le (same ▸ starts positive))
          have ends {first second : Span} {firsts seconds : List Span}
              (gapped : Gapped (first :: firsts)) (base : first.base = second.base)
              (same : cover (first :: firsts) = cover (second :: seconds)) :
              second.stop ≤ first.stop := by
            by_contra longer
            refine gapped.stop_notMem (same ▸ ⟨second, List.mem_cons_self, ?_, not_le.mp longer⟩)
            exact base ▸ first.base_le_stop
          have stop : span.stop = span'.stop :=
            le_antisymm (ends gapped' base.symm same.symm) (ends gapped base same)
          have head : span = span' := by
            cases span
            cases span'
            simp_all [Span.stop]
          subst head
          have tail : spans = spans' := by
            refine induction (List.pairwise_cons.mp gapped).2 (List.pairwise_cons.mp gapped').2
              (fun q member => positive q (List.mem_cons_of_mem _ member))
              (fun q member => positive' q (List.mem_cons_of_mem _ member)) ?_
            ext address
            rw [gapped.mem_tail_iff, gapped'.mem_tail_iff, same]
          rw [tail]

end Span

end Blubos
