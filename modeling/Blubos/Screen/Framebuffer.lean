import Blubos.Foundation.Iteration
import Blubos.Machine

/-!
# The frame buffer

Pixels are set in a back buffer with as many elements in a row as the pitch of the screen holds.  A
row may be longer than the screen is wide; the elements after the width are never set.
-/

namespace Blubos

/-- The geometry that `limine::framebuffer::Framebuffer` reports. -/
structure LimineFramebuffer where
  width : ℕ
  height : ℕ
  /-- Bytes from one row to the next. -/
  pitch : ℕ
  bpp : ℕ

/-- `Framebuffer`, for the screen `inner`. -/
structure Framebuffer (inner : LimineFramebuffer) where
  backbuffer : Vector (BitVec 32) (inner.height * inner.pitch / 4)
  /-- The size in bytes does not overflow. -/
  bytes : inner.height * inner.pitch ≤ Usize.max

namespace Framebuffer

variable {inner : LimineFramebuffer}

/-- `new`. -/
def new (inner : LimineFramebuffer) : Except Fault (Framebuffer inner) :=
  if inner.bpp ≠ 32 then .error .assertion
  else if bytes : inner.height * inner.pitch ≤ Usize.max then .ok ⟨Vector.replicate _ 0, bytes⟩
  else .error .overflow

/-- `width`. -/
def width (_ : Framebuffer inner) : ℕ := inner.width

/-- `height`. -/
def height (_ : Framebuffer inner) : ℕ := inner.height

/-- `pitch_u32`. -/
def pitchU32 (_ : Framebuffer inner) : ℕ := inner.pitch / 4

/-- `get_element_mut`: the index of the element.  The assertions are those of a debug build. -/
def getElementMut (framebuffer : Framebuffer inner) (y x : ℕ) :
    Except Fault (Fin (inner.height * inner.pitch / 4)) :=
  if y < framebuffer.height then
    if x < framebuffer.width then do
      let row ← Usize.mul y framebuffer.pitchU32
      let offset ← Usize.add row x
      if range : offset < inner.height * inner.pitch / 4 then .ok ⟨offset, range⟩
      else .error .outOfBounds
    else .error .assertion
  else .error .assertion

/-- `set`. -/
def set (framebuffer : Framebuffer inner) (y x : ℕ) (pixel : BitVec 32) :
    Except Fault (Framebuffer inner) := do
  let element ← framebuffer.getElementMut y x
  .ok { framebuffer with backbuffer := framebuffer.backbuffer.set element pixel }

def element (framebuffer : Framebuffer inner) (index : ℕ) : Option (BitVec 32) :=
  framebuffer.backbuffer[index]?

def offset (inner : LimineFramebuffer) (px py : ℕ) : ℕ := py * (inner.pitch / 4) + px

/-- An index is that of a pixel. -/
def Shows (inner : LimineFramebuffer) (px py index : ℕ) : Prop :=
  px < inner.width ∧ py < inner.height ∧ index = offset inner px py

/-- A row that holds the width has all pixels in the buffer. -/
theorem offset_lt {px py : ℕ} (wide : inner.width ≤ inner.pitch / 4) (left : px < inner.width)
    (above : py < inner.height) : offset inner px py < inner.height * inner.pitch / 4 := by
  have rows : (py + 1) * (inner.pitch / 4) ≤ inner.height * (inner.pitch / 4) :=
    Nat.mul_le_mul_right _ above
  have whole : inner.height * (inner.pitch / 4) ≤ inner.height * inner.pitch / 4 :=
    Nat.mul_div_le_mul_div_assoc _ _ _
  rw [Nat.succ_mul] at rows
  rw [offset]
  omega

theorem offset_inj {px py px' py' : ℕ} (wide : inner.width ≤ inner.pitch / 4)
    (left : px < inner.width) (left' : px' < inner.width)
    (same : offset inner px py = offset inner px' py') : px = px' ∧ py = py' := by
  have inside : px < inner.pitch / 4 := left.trans_le wide
  have inside' : px' < inner.pitch / 4 := left'.trans_le wide
  have columns := congrArg (· % (inner.pitch / 4)) same
  have rows := congrArg (· / (inner.pitch / 4)) same
  have positive : 0 < inner.pitch / 4 := by omega
  simp only [offset, Nat.mul_add_mod_self_right, Nat.mod_eq_of_lt inside,
    Nat.mod_eq_of_lt inside'] at columns
  simp only [offset, Nat.add_comm (_ * _), Nat.add_mul_div_right _ _ positive,
    Nat.div_eq_of_lt inside, Nat.div_eq_of_lt inside', Nat.zero_add] at rows
  exact ⟨columns, rows⟩

theorem set_settles {framebuffer : Framebuffer inner} {px py : ℕ} {fg : BitVec 32}
    (wide : inner.width ≤ inner.pitch / 4) (left : px < inner.width) (above : py < inner.height) :
    ∃ after, framebuffer.set py px fg = .ok after ∧
      Settles element (fun _ => some fg) (Shows inner px py) framebuffer after := by
  have range := offset_lt wide left above
  have fits : offset inner px py ≤ Usize.max := by
    have := framebuffer.bytes
    have := Nat.div_le_self (inner.height * inner.pitch) 4
    omega
  rw [offset] at range fits
  rw [set, getElementMut, if_pos (show py < framebuffer.height from above),
    if_pos (show px < framebuffer.width from left), pitchU32,
    Usize.mul_of_le ((Nat.le_add_right _ _).trans fits), ok_bind, Usize.add_of_le fits, ok_bind,
    dif_pos range]
  have stored : Settles element (fun _ => some fg) (fun other => other = offset inner px py)
      framebuffer
      { framebuffer with
        backbuffer := framebuffer.backbuffer.set (offset inner px py) fg range } := by
    refine .of_store rfl fun other => ⟨?_, ?_⟩
    · rintro rfl
      exact Vector.getElem?_set_self range
    · intro different
      exact Vector.getElem?_set_ne range different.symm
  refine ⟨_, rfl, stored.congr fun index => ?_⟩
  rw [Shows]
  tauto

end Framebuffer

end Blubos
