import Mathlib.Data.Nat.Basic
import Mathlib.Tactic.Common

/-!
# Mapping of pages

A mapper translates addresses and maps one page to one frame at a time.  Mapping pages one after the
other, to frames one after the other, moves a whole range of addresses.
-/

namespace Blubos

/-- Page tables as their user sees them. -/
structure PageMapper (Tables : Type*) where
  translate : Tables → ℕ → Option ℕ
  /-- Map the page at an address to the frame at an address, or fail. -/
  mapTo : Tables → ℕ → ℕ → Option Tables

namespace PageMapper

variable {Tables : Type*} {mapper : PageMapper Tables} {pageSize : ℕ}

/-- Mapping a page maps exactly this page, to exactly the frame. -/
structure Exact (mapper : PageMapper Tables) (pageSize : ℕ) : Prop where
  /-- The addresses of the page translate to those of the frame. -/
  maps {tables next : Tables} {page frame : ℕ} : pageSize ∣ page → pageSize ∣ frame →
    mapper.mapTo tables page frame = some next →
    ∀ offset < pageSize, mapper.translate next (page + offset) = some (frame + offset)
  keeps {tables next : Tables} {page frame : ℕ} : pageSize ∣ page → pageSize ∣ frame →
    mapper.mapTo tables page frame = some next →
    ∀ address, ¬(page ≤ address ∧ address < page + pageSize) →
      mapper.translate next address = mapper.translate tables address

/-- No address of a range is mapped. -/
def Unmapped (mapper : PageMapper Tables) (tables : Tables) (base stop : ℕ) : Prop :=
  ∀ address, base ≤ address → address < stop → mapper.translate tables address = none

/-- A page that is not mapped can be mapped. -/
def Serves (mapper : PageMapper Tables) (pageSize : ℕ) : Prop :=
  ∀ tables page frame, pageSize ∣ page → pageSize ∣ frame →
    mapper.Unmapped tables page (page + pageSize) →
      ∃ next, mapper.mapTo tables page frame = some next

/-- The change to the tables has moved a range of addresses to `target` and no other addresses. -/
structure Moves (mapper : PageMapper Tables) (before after : Tables) (base target length : ℕ) :
    Prop where
  inside : ∀ offset < length, mapper.translate after (base + offset) = some (target + offset)
  outside : ∀ address, ¬(base ≤ address ∧ address < base + length) →
    mapper.translate after address = mapper.translate before address

theorem Moves.nothing (tables : Tables) (base target : ℕ) :
    mapper.Moves tables tables base target 0 :=
  ⟨fun _ none => (Nat.not_lt_zero _ none).elim, fun _ _ => rfl⟩

theorem Exact.moves (exact : mapper.Exact pageSize) {tables next : Tables} {page frame : ℕ}
    (alignedPage : pageSize ∣ page) (alignedFrame : pageSize ∣ frame)
    (mapped : mapper.mapTo tables page frame = some next) :
    mapper.Moves tables next page frame pageSize :=
  ⟨exact.maps alignedPage alignedFrame mapped, exact.keeps alignedPage alignedFrame mapped⟩

theorem Moves.append {before middle after : Tables} {base target first second : ℕ}
    (moves : mapper.Moves before middle base target first)
    (rest : mapper.Moves middle after (base + first) (target + first) second) :
    mapper.Moves before after base target (first + second) := by
  refine ⟨fun offset range => ?_, fun address outside => ?_⟩
  · by_cases low : offset < first
    · rw [rest.outside _ (by omega), moves.inside offset low]
    · have inside := rest.inside (offset - first) (by omega)
      have place (start : ℕ) : start + first + (offset - first) = start + offset := by omega
      rwa [place, place] at inside
  · rw [rest.outside _ (by omega), moves.outside _ (by omega)]

theorem Moves.unmapped {before after : Tables} {base target length first stop : ℕ}
    (moves : mapper.Moves before after base target length)
    (unmapped : mapper.Unmapped before first stop)
    (apart : base + length ≤ first) : mapper.Unmapped after first stop := by
  intro address above below
  rw [moves.outside _ (by omega), unmapped address above below]

end PageMapper

end Blubos
