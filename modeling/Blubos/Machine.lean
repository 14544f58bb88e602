import Blubos.Foundation.Alignment
import Blubos.Foundation.Span
import Mathlib.Data.Nat.Basic
import Mathlib.Tactic.SplitIfs

/-!
# The machine the kernel runs on

Panics, `usize` arithmetic, memory layouts and address translation.  Arithmetic is checked: a
result outside `usize` is the fault `overflow`, as in a build with overflow checks.  A build that
wraps instead computes the same values on every call that does not fault here.
-/

namespace Blubos

inductive Fault where
  /-- `unwrap` of an absent value. -/
  | unwrapNone
  /-- Arithmetic left the range of `usize`. -/
  | overflow
  | unmapped
  /-- An index is past the end of an array. -/
  | outOfBounds
  /-- The allocation error handler or an `expect` on an allocation ran. -/
  | outOfMemory
  /-- An `assert!` failed. -/
  | assertion
deriving DecidableEq, Repr

@[simp] theorem ok_bind {α β : Type} (value : α) (next : α → Except Fault β) :
    (Except.ok value >>= next) = next value := rfl

@[simp] theorem error_bind {α β : Type} (fault : Fault) (next : α → Except Fault β) :
    ((Except.error fault : Except Fault α) >>= next) = .error fault := rfl

/-- A sequence returns when its first part returns and the rest returns on that result. -/
theorem bind_eq_ok {Failure α β : Type} {first : Except Failure α} {next : α → Except Failure β}
    {result : β} :
    (first >>= next) = .ok result ↔ ∃ value, first = .ok value ∧ next value = .ok result := by
  cases first with
  | error failure => simp [bind, Except.bind]
  | ok value => simp [bind, Except.bind]

theorem toOption_eq_some {α : Type} {call : Except Fault α} {result : α} :
    call.toOption = some result ↔ call = .ok result := by
  cases call <;> simp [Except.toOption]

/-- `Option::unwrap`. -/
def unwrap {α : Type} : Option α → Except Fault α
  | some value => .ok value
  | none => .error .unwrapNone

@[simp] theorem unwrap_some {α : Type} (value : α) : unwrap (some value) = .ok value := rfl

theorem unwrap_eq_ok {α : Type} {option : Option α} {value : α} :
    unwrap option = .ok value ↔ option = some value := by
  cases option <;> simp [unwrap]

/-- A call never ends with an `unwrap` of an absent value. -/
def NoUnwrap {α : Type} (call : Except Fault α) : Prop := call ≠ .error .unwrapNone

@[simp] theorem NoUnwrap.ok {α : Type} (value : α) : NoUnwrap (.ok value) := by simp [NoUnwrap]

@[simp] theorem NoUnwrap.error_iff {α : Type} {fault : Fault} :
    NoUnwrap (.error fault : Except Fault α) ↔ fault ≠ .unwrapNone := by simp [NoUnwrap]

theorem NoUnwrap.bind {α β : Type} {first : Except Fault α} {next : α → Except Fault β}
    (before : NoUnwrap first) (after : ∀ value, first = .ok value → NoUnwrap (next value)) :
    NoUnwrap (first >>= next) := by
  cases first with
  | error fault =>
      rw [error_bind, NoUnwrap.error_iff]
      exact NoUnwrap.error_iff.mp before
  | ok value => exact after value rfl

theorem NoUnwrap.ite {α : Type} {condition : Prop} [Decidable condition]
    {first second : Except Fault α} (yes : condition → NoUnwrap first)
    (no : ¬condition → NoUnwrap second) :
    NoUnwrap (if condition then first else second) := by
  split_ifs with holds
  · exact yes holds
  · exact no holds

namespace Usize

/-- `usize::MAX`. -/
def max : ℕ := 2 ^ 64 - 1

/-- Checked `+`. -/
def add (left right : ℕ) : Except Fault ℕ :=
  if left + right ≤ max then .ok (left + right) else .error .overflow

/-- Checked `-`. -/
def sub (left right : ℕ) : Except Fault ℕ :=
  if right ≤ left then .ok (left - right) else .error .overflow

/-- Checked `*`. -/
def mul (left right : ℕ) : Except Fault ℕ :=
  if left * right ≤ max then .ok (left * right) else .error .overflow

/-- `usize::saturating_add`. -/
def saturatingAdd (left right : ℕ) : ℕ := min (left + right) max

/-- Bitwise `!`. -/
def not (word : ℕ) : ℕ := max - word

theorem add_eq_ok {left right result : ℕ} :
    add left right = .ok result ↔ left + right ≤ max ∧ result = left + right := by
  unfold add
  split <;> simp_all [eq_comm]

theorem sub_eq_ok {left right result : ℕ} :
    sub left right = .ok result ↔ right ≤ left ∧ result = left - right := by
  unfold sub
  split <;> simp_all [eq_comm]

theorem add_of_le {left right : ℕ} (fits : left + right ≤ max) :
    add left right = .ok (left + right) := if_pos fits

theorem mul_of_le {left right : ℕ} (fits : left * right ≤ max) :
    mul left right = .ok (left * right) := if_pos fits

@[simp] theorem add_noUnwrap (left right : ℕ) : NoUnwrap (add left right) := by
  unfold add NoUnwrap
  split <;> simp

@[simp] theorem sub_noUnwrap (left right : ℕ) : NoUnwrap (sub left right) := by
  unfold sub NoUnwrap
  split <;> simp

/-- Masking with the complement of `align - 1` rounds down, for a power of two. -/
theorem land_not {word align : ℕ} (range : word ≤ max) (power : align.isPowerOfTwo)
    (align_range : align - 1 ≤ max) : word &&& not (align - 1) = roundDown word align := by
  obtain ⟨k, rfl⟩ := power
  have exponent : k ≤ 64 := by
    by_contra big
    have grows : 2 ^ 65 ≤ 2 ^ k := Nat.pow_le_pow_right (by decide) (Nat.not_le.mp big)
    simp only [max] at align_range
    omega
  exact land_complement_mask (by simp only [max] at range; omega) exponent

end Usize

/-- `core::alloc::Layout`: the alignment is a power of two and the size, rounded up to it, fits in
`isize`. -/
structure Layout where
  /-- Size in bytes. -/
  size : ℕ
  /-- Alignment in bytes. -/
  align : ℕ
  power : align.isPowerOfTwo
  /-- The rounded size does not exceed `isize::MAX`. -/
  fits : size + (align - 1) < 2 ^ 63

/-- `core::alloc::AllocError`. -/
inductive AllocError where
  | allocError
deriving DecidableEq, Repr

/-- `NonNull<[u8]>`: the address and length of a block. -/
structure NonNull extends Span where
  nonnull : base ≠ 0
deriving DecidableEq

/-- `Result<NonNull<[u8]>, AllocError>`. -/
abbrev AllocResult := Except AllocError NonNull

/-- `Ok` of `NonNull::new_unchecked`.  `Err(AllocError)` has the bit pattern that `Ok` of a null
pointer would have, so that a null pointer makes an error.  A build with debug assertions stops in
`new_unchecked` instead. -/
def okUnchecked (ptr size : ℕ) : AllocResult :=
  if present : ptr ≠ 0 then .ok ⟨⟨ptr, size⟩, present⟩ else .error .allocError

theorem okUnchecked_of_ne {ptr : ℕ} (present : ptr ≠ 0) (size : ℕ) :
    okUnchecked ptr size = .ok ⟨⟨ptr, size⟩, present⟩ := dif_pos present

theorem okUnchecked_eq_ok {ptr size : ℕ} {block : NonNull} :
    okUnchecked ptr size = .ok block ↔ block.toSpan = ⟨ptr, size⟩ := by
  constructor
  · intro made
    unfold okUnchecked at made
    split_ifs at made
    exact Except.ok.inj made ▸ rfl
  · obtain ⟨span, present⟩ := block
    rintro rfl
    exact okUnchecked_of_ne present size

@[simp] theorem okUnchecked_zero (size : ℕ) : okUnchecked 0 size = .error .allocError := rfl

/-- How `to_physical_addr` finds physical addresses: the page-table mapper once it is initialised,
the offset of the direct map before. -/
structure AddressMap where
  /-- `translate_addr` of `PAGE_TABLE_MAPPER`, absent before `init_mapper`. -/
  mapper : Option (ℕ → Option ℕ)
  /-- Offset of the higher-half direct map. -/
  hhdmOffset : ℕ

/-- `to_physical_addr`. -/
def AddressMap.toPhysicalAddr (map : AddressMap) (virtualAddr : ℕ) : Except Fault ℕ :=
  match map.mapper with
  | some translate =>
      match translate virtualAddr with
      | some physical => .ok physical
      | none => .error .unmapped
  | none => Usize.sub virtualAddr map.hhdmOffset

theorem AddressMap.toPhysicalAddr_noUnwrap (map : AddressMap) (virtualAddr : ℕ) :
    NoUnwrap (map.toPhysicalAddr virtualAddr) := by
  unfold AddressMap.toPhysicalAddr
  cases map.mapper with
  | none => exact Usize.sub_noUnwrap _ _
  | some translate =>
      cases translated : translate virtualAddr <;> simp [NoUnwrap, translated]

end Blubos
