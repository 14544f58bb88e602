import Mathlib.Algebra.GroupWithZero.Nat
import Mathlib.Data.Nat.Basic
import Mathlib.Tactic.SplitIfs

/-!
# Rings whose slots carry the lap of their item

A producer writes items into the slots of a ring, one after the other and round again.  Each item
carries a flag, the cycle state in which it was written: set on the first lap and inverted at each
wrap.  A consumer that counts its own laps tells a new item from one of the lap before by this flag
alone.
-/

namespace Blubos

/-- The cycle state in which item `k` of a ring of `n` slots is written. -/
def lapFlag (n k : ℕ) : Bool := k / n % 2 == 0

theorem lapFlag_of_lt {n k : ℕ} (first : k < n) : lapFlag n k = true := by
  simp [lapFlag, Nat.div_eq_of_lt first]

theorem lapFlag_of_div_eq {n k k' : ℕ} (same : k / n = k' / n) : lapFlag n k = lapFlag n k' := by
  rw [lapFlag, lapFlag, same]

theorem lapFlag_of_div_succ {n k k' : ℕ} (next : k' / n = k / n + 1) :
    lapFlag n k' = !lapFlag n k := by
  have parity : (k / n + 1) % 2 = 0 ↔ ¬k / n % 2 = 0 := by omega
  rw [lapFlag, lapFlag, next, Bool.eq_iff_iff]
  simpa using parity

theorem lapFlag_add {n k : ℕ} (slots : 0 < n) : lapFlag n (k + n) = !lapFlag n k :=
  lapFlag_of_div_succ (Nat.add_div_right k slots)

/-- A slot index and a cycle state. -/
structure Cursor (n : ℕ) where
  index : Fin n
  cycle : Bool
deriving DecidableEq

namespace Cursor

variable {n : ℕ} [NeZero n]

/-- Advance by one slot; a wrap inverts the cycle state. -/
def next (cursor : Cursor n) : Cursor n :=
  if inside : cursor.index.val + 1 < n then ⟨⟨cursor.index.val + 1, inside⟩, cursor.cycle⟩
  else ⟨0, !cursor.cycle⟩

theorem next_of_lt (cursor : Cursor n) (inside : cursor.index.val + 1 < n) :
    cursor.next = ⟨⟨cursor.index.val + 1, inside⟩, cursor.cycle⟩ := dif_pos inside

theorem next_of_not_lt (cursor : Cursor n) (outside : ¬cursor.index.val + 1 < n) :
    cursor.next = ⟨0, !cursor.cycle⟩ := dif_neg outside

variable (n) in
/-- The cursor after `k` items. -/
def after (k : ℕ) : Cursor n := ⟨Fin.ofNat n k, lapFlag n k⟩

@[simp] theorem after_index (k : ℕ) : (after n k).index = Fin.ofNat n k := rfl

@[simp] theorem after_cycle (k : ℕ) : (after n k).cycle = lapFlag n k := rfl

theorem after_zero : after n 0 = ⟨0, true⟩ := by
  simp [after, lapFlag]

theorem next_after (k : ℕ) : (after n k).next = after n (k + 1) := by
  have slots : 0 < n := Nat.pos_of_ne_zero (NeZero.ne n)
  have divided : n * (k / n) + k % n = k := Nat.div_add_mod k n
  have range : k % n < n := Nat.mod_lt k slots
  by_cases inside : k % n + 1 < n
  · -- The lap goes on: the quotient stays and the remainder grows.
    have split : (k + 1) / n = k / n ∧ (k + 1) % n = k % n + 1 := by
      rw [Nat.div_mod_unique slots]
      omega
    rw [next_of_lt (after n k) inside]
    simp only [after, Cursor.mk.injEq]
    constructor
    · apply Fin.ext
      simp [split.2]
    · exact lapFlag_of_div_eq split.1.symm
  · -- The wrap: the quotient grows and the remainder is zero.
    have split : (k + 1) / n = k / n + 1 ∧ (k + 1) % n = 0 := by
      rw [Nat.div_mod_unique slots, Nat.mul_succ]
      omega
    rw [next_of_not_lt (after n k) inside]
    simp only [after, Cursor.mk.injEq]
    constructor
    · apply Fin.ext
      simp [split.2]
    · exact (lapFlag_of_div_succ split.1).symm

end Cursor

/-- Two items less than a lap apart stand in different slots. -/
theorem slot_ne {n k k' : ℕ} (older : k < k') (near : k' < k + n) : k % n ≠ k' % n := by
  intro same
  have distance : (k' - k) % n = 0 := Nat.sub_mod_eq_zero_of_mod_eq same.symm
  rw [Nat.mod_eq_of_lt (by omega)] at distance
  omega

variable {α : Type*} {n : ℕ} [NeZero n]

/-- The slots after a sequence of items was written round the ring: the items of the last lap stand
in their slots, and slots not written yet carry the inverse of the first cycle state. -/
structure RingHolds (flag : α → Bool) (slots : Vector α n) (items : List α) : Prop where
  /-- The last `n` items are in place. -/
  stored : ∀ k (range : k < items.length), items.length ≤ k + n → slots[Fin.ofNat n k] = items[k]
  /-- Slots past the items of the first lap are untouched. -/
  untouched : ∀ k, items.length ≤ k → k < n → flag slots[Fin.ofNat n k] = false
  /-- Every item carries the cycle state of its lap. -/
  flagged : ∀ k (range : k < items.length), flag items[k] = lapFlag n k

namespace RingHolds

variable {flag : α → Bool} {slots : Vector α n} {items : List α}

theorem empty (clear : ∀ i : Fin n, flag slots[i] = false) : RingHolds flag slots [] where
  stored _ range := absurd range (Nat.not_lt_zero _)
  untouched _ _ _ := clear _
  flagged _ range := absurd range (Nat.not_lt_zero _)

theorem push (holds : RingHolds flag slots items) {item : α}
    (cycle : flag item = lapFlag n items.length) :
    RingHolds flag (slots.set (Fin.ofNat n items.length) item) (items ++ [item]) := by
  refine ⟨?_, ?_, ?_⟩
  · intro k range recent
    rw [List.length_append, List.length_singleton] at range recent
    by_cases newest : k = items.length
    · subst newest
      simp
    · have older : k < items.length := by omega
      have apart : k % n ≠ items.length % n := slot_ne older (by omega)
      have kept := holds.stored k older (by omega)
      simp only [Fin.getElem_fin, Fin.val_ofNat] at kept ⊢
      rw [Vector.getElem_set_ne _ _ apart.symm, kept, List.getElem_append_left older]
  · intro k beyond range
    rw [List.length_append, List.length_singleton] at beyond
    have apart : items.length % n ≠ k % n := slot_ne (by omega) (by omega)
    have kept := holds.untouched k (by omega) range
    simp only [Fin.getElem_fin, Fin.val_ofNat] at kept ⊢
    rw [Vector.getElem_set_ne _ _ apart, kept]
  · intro k range
    rw [List.length_append, List.length_singleton] at range
    by_cases newest : k = items.length
    · subst newest
      simpa using cycle
    · have older : k < items.length := by omega
      rw [List.getElem_append_left older, holds.flagged k older]

/-- The consumer's test: the slot it looks at carries its own cycle state exactly when an item waits
there. -/
theorem owned_iff (holds : RingHolds flag slots items) {consumed : ℕ}
    (behind : consumed ≤ items.length) (room : items.length ≤ consumed + n) :
    flag slots[Fin.ofNat n consumed] = lapFlag n consumed ↔ consumed < items.length := by
  have slots_pos : 0 < n := Nat.pos_of_ne_zero (NeZero.ne n)
  constructor
  · intro owned
    apply Nat.lt_of_le_of_ne behind
    -- With nothing waiting the slot is untouched or holds the item of one lap before.
    intro drained
    by_cases first : consumed < n
    · rw [holds.untouched consumed (by omega) first, lapFlag_of_lt first] at owned
      exact Bool.noConfusion owned
    · obtain ⟨old, rfl⟩ : ∃ old, consumed = old + n := ⟨consumed - n, by omega⟩
      have range : old < items.length := by omega
      have same : Fin.ofNat n (old + n) = Fin.ofNat n old := by
        apply Fin.ext
        simp
      simp only [same] at owned
      rw [holds.stored old range (by omega), holds.flagged old range,
        lapFlag_add slots_pos] at owned
      exact (Bool.eq_not_self _).mp owned
  · intro waiting
    rw [holds.stored consumed waiting room, holds.flagged consumed waiting]

end RingHolds

/-- Filling an array front to back: the entry behind a filled prefix extends it. -/
theorem take_set_succ {items : List α} {index : ℕ} {item : α} (range : index < items.length) :
    (items.set index item).take (index + 1) = items.take index ++ [item] := by
  rw [List.take_add_one, List.take_set_of_le (Nat.le_refl _), List.getElem?_set_self range]
  rfl

end Blubos
