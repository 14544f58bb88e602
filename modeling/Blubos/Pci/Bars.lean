import Blubos.Foundation.BitField
import Blubos.Pci.Config
import Mathlib.Data.List.GetD

/-!
# Base address registers

What the base address registers of a function describe, and their encoding in double words.  The
lowest bits of a register say what it is; a 64-bit base takes the next register too, whose bits say
nothing.  `read_bars` finds every base again.
-/

namespace Blubos

/-- What a base address register, or a pair of them, describes. -/
inductive BarDescription where
  | unused
  | io (base : BitVec 32) (aligned : base &&& 3#32 = 0)
  /-- Memory with a base of 32 bits; the register is not zero. -/
  | memory32 (base : BitVec 32) (prefetch : Bool) (aligned : base &&& 0xF#32 = 0)
      (present : base ≠ 0 ∨ prefetch = true)
  /-- Memory with a base of 64 bits. -/
  | memory64 (base : BitVec 64) (prefetch : Bool) (aligned : base &&& 0xF#64 = 0)

/-- The prefetch bit of a memory register. -/
def prefetchBit (prefetch : Bool) : BitVec 32 := if prefetch then 8#32 else 0#32

namespace BarDescription

def dwords : BarDescription → List (BitVec 32)
  | unused => [0]
  | io base _ => [base ||| 1#32]
  | memory32 base prefetch _ _ => [base ||| prefetchBit prefetch]
  | memory64 base prefetch _ =>
      [base.setWidth 32 ||| prefetchBit prefetch ||| 4#32, base.extractLsb' 32 32]

def base? : BarDescription → Option (BitVec 64)
  | unused => none
  | io base _ => some (base.setWidth 64)
  | memory32 base _ _ _ => some (base.setWidth 64)
  | memory64 base _ _ => some base

/-- The base at the first register and nothing at the others. -/
def entries (bar : BarDescription) : List (Option (BitVec 64)) :=
  bar.base? :: List.replicate (bar.dwords.length - 1) none

theorem length_dwords_pos (bar : BarDescription) : 0 < bar.dwords.length := by
  cases bar <;> exact Nat.zero_lt_succ _

theorem length_entries (bar : BarDescription) : bar.entries.length = bar.dwords.length := by
  have := bar.length_dwords_pos
  simp only [entries, List.length_cons, List.length_replicate]
  omega

end BarDescription

section Bits

variable {w : ℕ}

/-- A word without the bits of a mask has none of the bits of a part of the mask. -/
theorem and_eq_zero_of_part {word mask part : BitVec w} (clear : word &&& mask = 0)
    (inside : mask &&& part = part) : word &&& part = 0 := by
  rw [← inside, ← BitVec.and_assoc, clear]
  exact BitVec.zero_and

/-- A word without the bits of a mask is its own remainder. -/
theorem and_eq_self_of_rest {word mask rest : BitVec w} (clear : word &&& mask = 0)
    (whole : mask ||| rest = BitVec.allOnes w) : word &&& rest = word := by
  have parts : word &&& (mask ||| rest) = word &&& rest := by
    rw [BitVec.and_or_distrib_left, clear]
    exact BitVec.zero_or
  rw [← parts, whole, BitVec.and_allOnes]

theorem prefetchBit_and {mask : BitVec 32} (outside : 8#32 &&& mask = 0) (prefetch : Bool) :
    prefetchBit prefetch &&& mask = 0 := by
  cases prefetch with
  | true => exact outside
  | false => exact BitVec.zero_and

theorem and_shiftRight_type (word : BitVec 32) : word >>> 1 &&& 0x3#32 = (word &&& 6#32) >>> 1 := by
  rw [BitVec.ushiftRight_and_distrib]
  rfl

theorem join_base {base : BitVec 64} (aligned : base &&& 0xF#64 = 0) (prefetch : Bool) :
    (base.extractLsb' 32 32).setWidth 64 <<< 32 |||
        ((base.setWidth 32 ||| prefetchBit prefetch ||| 4#32).setWidth 64 &&& 0xFFFFFFF0#64) =
      base := by
  have flags : (prefetchBit prefetch ||| 4#32).setWidth 64 &&& 0xFFFFFFF0#64 = 0 := by
    cases prefetch <;> rfl
  have low : (base.setWidth 32).setWidth 64 = base &&& 0xFFFFFFFF#64 := by
    apply BitVec.eq_of_toNat_eq
    rw [BitVec.toNat_setWidth_of_le (by decide), BitVec.toNat_setWidth, BitVec.toNat_and]
    exact (Nat.and_two_pow_sub_one_eq_mod base.toNat 32).symm
  have shifted : (base.extractLsb' 32 32).setWidth 64 = base >>> 32 := by
    have range := base.isLt
    apply BitVec.eq_of_toNat_eq
    rw [BitVec.toNat_setWidth_of_le (by decide), BitVec.extractLsb'_toNat, BitVec.toNat_ushiftRight,
      Nat.shiftRight_eq_div_pow]
    omega
  calc (base.extractLsb' 32 32).setWidth 64 <<< 32 |||
        ((base.setWidth 32 ||| prefetchBit prefetch ||| 4#32).setWidth 64 &&& 0xFFFFFFF0#64)
      = (base &&& BitVec.allOnes 64 <<< 32) ||| (base &&& (0xFFFFFFFF#64 &&& 0xFFFFFFF0#64)) := by
        rw [shifted, BitVec.shiftLeft_ushiftRight, BitVec.or_assoc, BitVec.setWidth_or, low,
          BitVec.and_or_distrib_right, flags, BitVec.and_assoc]
        congr 1
        exact BitVec.or_zero
    _ = base &&& (BitVec.allOnes 64 <<< 32 ||| (0xFFFFFFFF#64 &&& 0xFFFFFFF0#64)) :=
        BitVec.and_or_distrib_left.symm
    _ = base := and_eq_self_of_rest aligned rfl

end Bits

def barCount (headerType : BitVec 8) : ℕ := if headerType &&& 0x7F#8 = 0x00#8 then 6 else 2

theorem barCount_le (headerType : BitVec 8) : barCount headerType ≤ 6 := by
  rw [barCount]
  split_ifs <;> decide

namespace ConfigSpace

variable {space : ConfigSpace} {loc : PciLocation} {count i : ℕ} {room : count ≤ 6}

/-- The double word of a base address register. -/
def barDword (space : ConfigSpace) (loc : PciLocation) (i : ℕ) : BitVec 32 :=
  space.dword loc (BitVec.ofNat 8 (0x10 + 4 * i))

theorem barOffset (i : ℕ) : 0x10#8 + BitVec.ofNat 8 i * 4#8 = BitVec.ofNat 8 (0x10 + 4 * i) := by
  rw [BitVec.ofNat_add, Nat.mul_comm, BitVec.ofNat_mul]

theorem barOffset_succ (i : ℕ) :
    BitVec.ofNat 8 (0x10 + 4 * i) + 4#8 = BitVec.ofNat 8 (0x10 + 4 * (i + 1)) := by
  rw [← BitVec.ofNat_add]
  congr 1

/-- The loop of `read_bars` takes one description at a time. -/
theorem readBarsFrom_step (valid : loc.Valid) {bar : BarDescription}
    (fits : i + bar.dwords.length ≤ count)
    (holds : ∀ k (inside : k < bar.dwords.length), space.barDword loc (i + k) = bar.dwords[k])
    (range : i < 6) (bars : Vector (Option (BitVec 64)) 6) :
    space.readBarsFrom loc.bus loc.device loc.function count room i bars =
      space.readBarsFrom loc.bus loc.device loc.function count room (i + bar.dwords.length)
        (bars.set i bar.base?) := by
  have positive := bar.length_dwords_pos
  have inRange : i < count := by omega
  rw [readBarsFrom, dif_pos inRange]
  simp only [cfgReadU32_eq valid, barOffset]
  cases bar with
  | unused =>
      have first : space.dword loc (BitVec.ofNat 8 (0x10 + 4 * i)) = 0 := holds 0 positive
      rw [first]
      exact if_pos rfl
  | io base aligned =>
      have marked : (base ||| 1#32) &&& 1#32 ≠ 0 := by
        rw [BitVec.and_or_distrib_right, and_eq_zero_of_part aligned rfl]
        decide
      have present : base ||| 1#32 ≠ 0 := fun zero => marked (by rw [zero]; rfl)
      have decoded : (base ||| 1#32) &&& 0xFFFFFFFC#32 = base := by
        rw [BitVec.and_or_distrib_right, and_eq_self_of_rest aligned rfl]
        exact BitVec.or_zero
      have first : space.dword loc (BitVec.ofNat 8 (0x10 + 4 * i)) = base ||| 1#32 :=
        holds 0 positive
      rw [first, if_neg present, if_pos marked, decoded]
      rfl
  | memory32 base prefetch aligned present =>
      have part {mask : BitVec 32} (inside : 0xF#32 &&& mask = mask) (outside : 8#32 &&& mask = 0) :
          (base ||| prefetchBit prefetch) &&& mask = 0 := by
        rw [BitVec.and_or_distrib_right, and_eq_zero_of_part aligned inside,
          prefetchBit_and outside]
        exact BitVec.or_zero
      have used : base ||| prefetchBit prefetch ≠ 0 := by
        intro zero
        obtain ⟨none, unset⟩ := BitVec.or_eq_zero_iff.mp zero
        rcases present with some | rfl
        · exact some none
        · exact absurd unset (by decide)
      have decoded : (base ||| prefetchBit prefetch) &&& 0xFFFFFFF0#32 = base := by
        rw [BitVec.and_or_distrib_right, and_eq_self_of_rest aligned rfl, prefetchBit_and rfl]
        exact BitVec.or_zero
      have typ : (base ||| prefetchBit prefetch) >>> 1 &&& 0x3#32 = 0 := by
        rw [and_shiftRight_type, part rfl rfl]
        rfl
      have first :
          space.dword loc (BitVec.ofNat 8 (0x10 + 4 * i)) = base ||| prefetchBit prefetch :=
        holds 0 positive
      rw [first, if_neg used, if_neg (not_not.mpr (part rfl rfl)), typ, if_neg (by simp), decoded]
      rfl
  | memory64 base prefetch aligned =>
      have narrow : base.setWidth 32 &&& 0xF#32 = 0 := by
        have := congrArg (BitVec.setWidth 32) aligned
        rwa [BitVec.setWidth_and] at this
      have part {mask : BitVec 32} (inside : 0xF#32 &&& mask = mask) (outside : 8#32 &&& mask = 0) :
          (base.setWidth 32 ||| prefetchBit prefetch ||| 4#32) &&& mask = 4#32 &&& mask := by
        rw [BitVec.and_or_distrib_right, BitVec.and_or_distrib_right,
          and_eq_zero_of_part narrow inside, prefetchBit_and outside]
        exact BitVec.zero_or
      have used : base.setWidth 32 ||| prefetchBit prefetch ||| 4#32 ≠ 0 := by
        intro zero
        exact absurd (BitVec.or_eq_zero_iff.mp zero).2 (by decide)
      have typ : (base.setWidth 32 ||| prefetchBit prefetch ||| 4#32) >>> 1 &&& 0x3#32 = 2#32 := by
        rw [and_shiftRight_type, part rfl rfl]
        rfl
      have upper : space.dword loc (BitVec.ofNat 8 (0x10 + 4 * (i + 1))) = base.extractLsb' 32 32 :=
        holds 1 Nat.one_lt_two
      have unmarked : (base.setWidth 32 ||| prefetchBit prefetch ||| 4#32) &&& 1#32 = 0 :=
        part rfl rfl
      have inside : i + 1 < count := fits
      have first : space.dword loc (BitVec.ofNat 8 (0x10 + 4 * i)) =
          base.setWidth 32 ||| prefetchBit prefetch ||| 4#32 := holds 0 positive
      rw [first, if_neg used, if_neg (not_not.mpr unmarked), typ, if_pos ⟨rfl, inside⟩,
        barOffset_succ, upper, join_base aligned]
      rfl

theorem readBarsFrom_unused (valid : loc.Valid)
    (holds : ∀ k, i ≤ k → k < count → space.barDword loc k = 0)
    {bars : Vector (Option (BitVec 64)) 6} (vacant : ∀ k (range : k < 6), i ≤ k → bars[k] = none) :
    space.readBarsFrom loc.bus loc.device loc.function count room i bars = bars := by
  generalize left : count - i = steps
  induction steps generalizing i with
  | zero => rw [readBarsFrom, dif_neg (by omega)]
  | succ steps induction =>
      have inRange : i < count := by omega
      have same : bars.set i none = bars := by
        rw [← vacant i (by omega) le_rfl]
        exact Vector.set_getElem_self _
      have first (k : ℕ) (inside : k < BarDescription.unused.dwords.length) :
          space.barDword loc (i + k) = BarDescription.unused.dwords[k] := by
        obtain rfl : k = 0 := Nat.lt_one_iff.mp inside
        exact holds i le_rfl inRange
      have next : count - (i + 1) = steps := by omega
      have step :=
        @readBarsFrom_step space loc count i room valid .unused inRange first (by omega) bars
      rw [step, BarDescription.base?, same]
      exact induction (fun k above => holds k (Nat.le_of_succ_le above))
        (fun k range above => vacant k range (Nat.le_of_succ_le above))
        next

/-- The loop of `read_bars` from a register on, with nothing in the registers that follow. -/
theorem readBarsFrom_encoded (valid : loc.Valid) (bars : List BarDescription)
    (fits : i + (bars.flatMap BarDescription.dwords).length ≤ count)
    (holds : ∀ k, i + k < count →
      space.barDword loc (i + k) = (bars.flatMap BarDescription.dwords).getD k 0)
    {found : Vector (Option (BitVec 64)) 6}
    (vacant : ∀ k (range : k < 6), i ≤ k → found[k] = none) {k : ℕ} (range : k < 6) :
    (space.readBarsFrom loc.bus loc.device loc.function count room i found)[k] =
      if k < i then found[k] else (bars.flatMap BarDescription.entries).getD (k - i) none := by
  induction bars generalizing i found with
  | nil =>
      rw [readBarsFrom_unused valid (fun k above below => ?_) vacant]
      · split_ifs with before
        · rfl
        · exact vacant k range (Nat.not_lt.mp before)
      · obtain ⟨offset, rfl⟩ := Nat.exists_eq_add_of_le above
        exact holds offset below
  | cons bar bars induction =>
      have positive := bar.length_dwords_pos
      have same := bar.length_entries
      rw [List.flatMap_cons, List.length_append] at fits
      have inRange : i < 6 := by omega
      have first (k : ℕ) (inside : k < bar.dwords.length) :
          space.barDword loc (i + k) = bar.dwords[k] := by
        rw [holds k (by omega), List.flatMap_cons, List.getD_append _ _ _ _ inside,
          List.getD_eq_getElem _ _ inside]
      rw [readBarsFrom_step valid (by omega) first inRange,
        induction (by omega) (fun k below => ?_) (fun k range above => ?_), List.flatMap_cons]
      · by_cases before : k < i
        · rw [if_pos (by omega), if_pos before, Vector.getElem_set_ne _ _ (by omega)]
        · rw [if_neg before]
          by_cases own : k < i + bar.dwords.length
          · rw [if_pos own, List.getD_append _ _ _ _ (by omega), BarDescription.entries]
            rcases Nat.eq_or_lt_of_le (Nat.not_lt.mp before) with rfl | above
            · rw [Vector.getElem_set_self, Nat.sub_self, List.getD_cons_zero]
            · obtain ⟨offset, rfl⟩ := Nat.exists_eq_add_of_lt above
              have tail : i + offset + 1 - i = offset + 1 := by omega
              rw [Vector.getElem_set_ne _ _ (by omega), vacant _ range (by omega), tail,
                List.getD_cons_succ]
              exact (List.getD_replicate none (by omega)).symm
          · rw [if_neg own, List.getD_append_right _ _ _ _ (by omega), same]
            congr 1
            omega
      · rw [Nat.add_assoc, holds _ (by omega), List.flatMap_cons,
          List.getD_append_right _ _ _ _ (by omega), Nat.add_sub_cancel_left]
      · rw [Vector.getElem_set_ne _ _ (by omega), vacant k range (by omega)]

end ConfigSpace

/-- Decoding inverts encoding: with the encoding of some descriptions in its registers, a function
has their bases at the first register of each and nothing elsewhere. -/
theorem readBars_encoded {space : ConfigSpace} {loc : PciLocation} (valid : loc.Valid)
    (headerType : BitVec 8) (bars : List BarDescription)
    (fits : (bars.flatMap BarDescription.dwords).length ≤ barCount headerType)
    (holds : ∀ i < barCount headerType,
      space.barDword loc i = (bars.flatMap BarDescription.dwords).getD i 0)
    (i : ℕ) (range : i < 6) :
    (space.readBars loc.bus loc.device loc.function headerType)[i] =
      (bars.flatMap BarDescription.entries).getD i none := by
  have read : space.readBars loc.bus loc.device loc.function headerType =
      space.readBarsFrom loc.bus loc.device loc.function (barCount headerType)
        (barCount_le headerType) 0 (.replicate 6 none) := by
    rw [ConfigSpace.readBars]
    unfold barCount
    split_ifs <;> rfl
  rw [read, ConfigSpace.readBarsFrom_encoded valid bars (by omega) (fun k below => ?_)
    (fun k range _ => Vector.getElem_replicate range) range, if_neg (Nat.not_lt_zero i)]
  · rfl
  · rw [Nat.zero_add] at below ⊢
    exact holds k below

/-- A 64-bit base whose upper half looks like ports, ports, and prefetchable memory. -/
def mixedBars : List BarDescription :=
  [.memory64 0x1FEBF0000 false rfl, .io 0xC000 rfl, .memory32 0xFEBD1000 true rfl (.inr rfl)]

/-- A space in which every function has these registers. -/
def mixedSpace : ConfigSpace := fun _ _ _ register =>
  if 4 ≤ register.toNat then
    (mixedBars.flatMap BarDescription.dwords).getD (register.toNat - 4) 0
  else 0

theorem readBars_encoded_mixed :
    mixedSpace.readBars 0 0 0 0 =
      #v[some 0x1FEBF0000, none, some 0xC000, some 0xFEBD1000, none, none] := by
  ext i range : 1
  have read := @readBars_encoded mixedSpace ⟨0, 0, 0⟩ ⟨by decide, by decide⟩ 0 mixedBars
    (by decide) (by decide) i range
  rw [read]
  interval_cases i <;> rfl

end Blubos
