import Blubos.Screen.Framebuffer
import Mathlib.Data.List.FinRange

/-!
# Drawing text

`draw_char` draws every set bit of a glyph as a square, pixel by pixel, and leaves out the pixels
beside the screen.  `draw_string` moves from cell to cell and from line to line.  Together they set
the pixels of the screen that a set bit of a cell's glyph covers, and no others.
-/

namespace Blubos

/-- `FONT8X16`: every byte has a glyph of sixteen rows of eight bits. -/
abbrev Font : Type := Vector (Vector (BitVec 8) 16) 256

/-- `FONT8X16[ch as usize]`. -/
def Font.glyph (font : Font) (ch : BitVec 8) : Vector (BitVec 8) 16 := font.get ⟨ch.toNat, ch.isLt⟩

/-- `b'\n'`. -/
def newline : BitVec 8 := 0x0A

/-- `position + steps * scale`. -/
def advance (position steps scale : ℕ) : Except Fault ℕ := do
  let distance ← Usize.mul steps scale
  Usize.add position distance

namespace Framebuffer

variable {inner : LimineFramebuffer}

/-- The body of the innermost loop of `draw_char`. -/
def drawPixel (x y : ℕ) (fg : BitVec 32) (scale row col dy dx : ℕ)
    (framebuffer : Framebuffer inner) : Except Fault (Framebuffer inner) := do
  let left ← advance x col scale
  let px ← Usize.add left dx
  let top ← advance y row scale
  let py ← Usize.add top dy
  if px < framebuffer.width ∧ py < framebuffer.height then framebuffer.set py px fg
  else .ok framebuffer

/-- The two loops of `draw_char` over the square of a bit. -/
def drawSquare (x y : ℕ) (fg : BitVec 32) (scale row col : ℕ) (framebuffer : Framebuffer inner) :
    Except Fault (Framebuffer inner) :=
  (List.range scale).foldlM (fun framebuffer dy =>
    (List.range scale).foldlM (fun framebuffer dx =>
      framebuffer.drawPixel x y fg scale row col dy dx) framebuffer) framebuffer

/-- `draw_char`. -/
def drawChar (font : Font) (framebuffer : Framebuffer inner) (x y : ℕ) (ch : BitVec 8)
    (fg : BitVec 32) (scale : ℕ) : Except Fault (Framebuffer inner) :=
  let glyph := font.glyph ch
  (List.finRange 16).foldlM (fun framebuffer (row : Fin 16) =>
    (List.finRange 8).foldlM (fun framebuffer (col : Fin 8) =>
      let bit := (glyph.get row >>> (7 - col.val)) &&& 1
      if bit = 0 then .ok framebuffer
      else framebuffer.drawSquare x y fg scale row col) framebuffer) framebuffer

/-- The loop of `draw_string` over the bytes of the text. -/
def drawBytes (font : Font) (startX : ℕ) (fg : BitVec 32) (scale : ℕ) :
    List (BitVec 8) → ℕ → ℕ → Framebuffer inner → Except Fault (Framebuffer inner)
  | [], _, _, framebuffer => .ok framebuffer
  | ch :: text, x, y, framebuffer =>
      if ch = newline then do
        let y ← advance y 16 scale
        drawBytes font startX fg scale text startX y framebuffer
      else do
        let framebuffer ← framebuffer.drawChar font x y ch fg scale
        let x ← advance x 8 scale
        drawBytes font startX fg scale text x y framebuffer

/-- `draw_string`. -/
def drawString (font : Font) (framebuffer : Framebuffer inner) (startX startY : ℕ)
    (text : List (BitVec 8)) (fg : BitVec 32) (scale : ℕ) : Except Fault (Framebuffer inner) :=
  drawBytes font startX fg scale text startX startY framebuffer

end Framebuffer

/-- The bit of a glyph in a row and a column, the most significant bit being the leftmost. -/
def Font.bit (font : Font) (ch : BitVec 8) (row : Fin 16) (col : Fin 8) : Bool :=
  ((font.glyph ch).get row).getLsbD (7 - col)

/-- A pixel is covered by a set bit of the glyph in a cell. -/
def Font.Covers (font : Font) (scale : ℕ) (ch : BitVec 8) (x y px py : ℕ) : Prop :=
  x ≤ px ∧ y ≤ py ∧ ∃ (row : Fin 16) (col : Fin 8),
    (py - y) / scale = row ∧ (px - x) / scale = col ∧ font.bit ch row col = true

namespace Text

def line (before : List (BitVec 8)) : ℕ := before.count newline

/-- The column after some bytes, counted from the last newline. -/
def column (before : List (BitVec 8)) : ℕ := (before.reverse.takeWhile (· ≠ newline)).length

@[simp] theorem line_nil : line [] = 0 := rfl

@[simp] theorem column_nil : column [] = 0 := rfl

@[simp] theorem line_newline (before : List (BitVec 8)) :
    line (before ++ [newline]) = line before + 1 := by
  simp [line]

@[simp] theorem column_newline (before : List (BitVec 8)) : column (before ++ [newline]) = 0 := by
  simp [column]

theorem line_append {ch : BitVec 8} (before : List (BitVec 8)) (visible : ch ≠ newline) :
    line (before ++ [ch]) = line before := by
  simp [line, visible]

theorem column_append {ch : BitVec 8} (before : List (BitVec 8)) (visible : ch ≠ newline) :
    column (before ++ [ch]) = column before + 1 := by
  simp [column, visible]

/-- A pixel is covered by a byte of the text, which comes after some bytes. -/
def CoveredAfter (font : Font) (startX startY scale : ℕ) (earlier text : List (BitVec 8))
    (px py : ℕ) : Prop :=
  ∃ before ch after, text = before ++ ch :: after ∧ ch ≠ newline ∧
    font.Covers scale ch (startX + 8 * scale * column (earlier ++ before))
      (startY + 16 * scale * line (earlier ++ before)) px py

/-- A pixel is covered by a byte of the text. -/
def Covered (font : Font) (startX startY scale : ℕ) (text : List (BitVec 8)) (px py : ℕ) : Prop :=
  ∃ before ch after, text = before ++ ch :: after ∧ ch ≠ newline ∧
    font.Covers scale ch (startX + 8 * scale * column before) (startY + 16 * scale * line before)
      px py

/-- The cells of the text end inside `usize`. -/
def Fits (startX startY scale : ℕ) (text : List (BitVec 8)) : Prop :=
  ∀ before ch after, text = before ++ ch :: after →
    if ch = newline then startY + 16 * scale * (line before + 1) ≤ Usize.max
    else startX + 8 * scale * (column before + 1) ≤ Usize.max ∧
      startY + 16 * scale * line before + (16 * scale - 1) ≤ Usize.max

/-- The cells of the text, which comes after some bytes, end inside `usize`. -/
def FitsAfter (startX startY scale : ℕ) (earlier text : List (BitVec 8)) : Prop :=
  ∀ before ch after, text = before ++ ch :: after →
    if ch = newline then startY + 16 * scale * (line (earlier ++ before) + 1) ≤ Usize.max
    else startX + 8 * scale * (column (earlier ++ before) + 1) ≤ Usize.max ∧
      startY + 16 * scale * line (earlier ++ before) + (16 * scale - 1) ≤ Usize.max

variable {font : Font} {startX startY scale px py : ℕ} {earlier text : List (BitVec 8)}
  {ch : BitVec 8}

theorem coveredAfter_nil : ¬CoveredAfter font startX startY scale earlier [] px py := by
  rintro ⟨before, ch, after, empty, -⟩
  simp at empty

/-- A byte covers its own pixels, and the bytes after it theirs. -/
theorem coveredAfter_cons :
    CoveredAfter font startX startY scale earlier (ch :: text) px py ↔
      (ch ≠ newline ∧ font.Covers scale ch (startX + 8 * scale * column earlier)
        (startY + 16 * scale * line earlier) px py) ∨
      CoveredAfter font startX startY scale (earlier ++ [ch]) text px py := by
  constructor
  · rintro ⟨before, ch', after, split, covers⟩
    rcases List.cons_eq_append_iff.mp split with ⟨rfl, same⟩ | ⟨before, rfl, rest⟩
    · obtain ⟨rfl, rfl⟩ := List.cons.inj same
      rw [List.append_nil] at covers
      exact .inl covers
    · rw [List.append_cons] at covers
      exact .inr ⟨before, ch', after, rest, covers⟩
  · rintro (covers | ⟨before, ch', after, rfl, covers⟩)
    · refine ⟨[], ch, text, rfl, ?_⟩
      rwa [List.append_nil]
    · refine ⟨ch :: before, ch', after, rfl, ?_⟩
      rwa [List.append_cons]

/-- The cell of a byte fits, and the cells of the bytes after it do. -/
theorem FitsAfter.cons (fits : FitsAfter startX startY scale earlier (ch :: text)) :
    (if ch = newline then startY + 16 * scale * (line earlier + 1) ≤ Usize.max
      else startX + 8 * scale * (column earlier + 1) ≤ Usize.max ∧
        startY + 16 * scale * line earlier + (16 * scale - 1) ≤ Usize.max) ∧
      FitsAfter startX startY scale (earlier ++ [ch]) text := by
  constructor
  · have first := fits [] ch text rfl
    rwa [List.append_nil] at first
  · rintro before ch' after rfl
    rw [← List.append_cons]
    exact fits (ch :: before) ch' after rfl

end Text

theorem advance_eq (position steps scale : ℕ) :
    advance position steps scale =
      if position + steps * scale ≤ Usize.max then .ok (position + steps * scale)
      else .error .overflow := by
  rw [advance, Usize.mul]
  by_cases fits : steps * scale ≤ Usize.max
  · rw [if_pos fits, ok_bind, Usize.add]
  · rw [if_neg fits, if_neg (by omega), error_bind]

theorem square_iff {scale start index place : ℕ} (positive : 0 < scale) :
    start ≤ place ∧ (place - start) / scale = index ↔
      ∃ offset < scale, place = start + index * scale + offset := by
  constructor
  · rintro ⟨after, rfl⟩
    refine ⟨(place - start) % scale, Nat.mod_lt _ positive, ?_⟩
    have := Nat.div_add_mod' (place - start) scale
    omega
  · rintro ⟨offset, inside, rfl⟩
    have distance : start + index * scale + offset - start = offset + index * scale := by omega
    refine ⟨by omega, ?_⟩
    rw [distance, Nat.add_mul_div_right _ _ positive, Nat.div_eq_of_lt inside, Nat.zero_add]

/-- A pixel is covered when it is in the square of a set bit. -/
theorem Font.covers_iff {font : Font} {scale : ℕ} {ch : BitVec 8} {x y px py : ℕ}
    (positive : 0 < scale) :
    font.Covers scale ch x y px py ↔ ∃ (row : Fin 16) (col : Fin 8), font.bit ch row col = true ∧
      (∃ dx < scale, px = x + col * scale + dx) ∧ ∃ dy < scale, py = y + row * scale + dy := by
  simp only [← square_iff positive]
  constructor
  · rintro ⟨left, above, row, col, rows, columns, bit⟩
    exact ⟨row, col, bit, ⟨left, columns⟩, above, rows⟩
  · rintro ⟨row, col, bit, ⟨left, columns⟩, above, rows⟩
    exact ⟨left, above, row, col, rows, columns, bit⟩

theorem Font.bit_eq_false_iff (font : Font) (ch : BitVec 8) (row : Fin 16) (col : Fin 8) :
    ((font.glyph ch).get row >>> (7 - col.val)) &&& 1 = 0 ↔ font.bit ch row col = false := by
  rw [Font.bit]
  generalize (font.glyph ch).get row = bits
  rw [show (1 : BitVec 8) = 1#8 from rfl, BitVec.and_one_eq_setWidth_ofBool_getLsbD,
    BitVec.getLsbD_ushiftRight, Nat.add_zero]
  cases bits.getLsbD (7 - col) <;> decide

namespace Framebuffer

variable {inner : LimineFramebuffer} {font : Font} {framebuffer : Framebuffer inner}
  {x y scale row col dy dx : ℕ} {fg : BitVec 32} {ch : BitVec 8}

/-- A call sets the elements of some pixels, or overflows where they do not fit. -/
abbrev Paints (fg : BitVec 32) (fits : Prop) (covered : ℕ → ℕ → Prop)
    (framebuffer : Framebuffer inner) (call : Except Fault (Framebuffer inner)) : Prop :=
  Attempts element (fun _ => some fg) Fault.overflow fits
    (fun index => ∃ px py, covered px py ∧ Shows inner px py index) framebuffer call

theorem drawPixel_paints (wide : inner.width ≤ inner.pitch / 4) :
    framebuffer.Paints fg
      (x + col * scale + dx ≤ Usize.max ∧ y + row * scale + dy ≤ Usize.max)
      (fun px py => px = x + col * scale + dx ∧ py = y + row * scale + dy)
      (framebuffer.drawPixel x y fg scale row col dy dx) := by
  have placed (px py : ℕ) : framebuffer.Paints fg True (fun px' py' => px' = px ∧ py' = py)
      (if px < framebuffer.width ∧ py < framebuffer.height then framebuffer.set py px fg
        else .ok framebuffer) := by
    split_ifs with inside
    · obtain ⟨after, returned, settles⟩ := set_settles wide inside.1 inside.2
      refine .inl ⟨after, returned, settles.congr fun index => ?_⟩
      simp
    · refine Attempts.done.congr id fun index => ?_
      simp only [iff_false, not_exists, not_and, and_imp]
      rintro px' py' rfl rfl shows
      exact inside ⟨shows.1, shows.2.1⟩
  rw [drawPixel]
  simp only [advance_eq, Usize.add]
  refine Attempts.congr (.check fun _ => .check fun _ => .check fun _ => .check fun _ =>
    placed _ _) ?_ fun index => Iff.rfl
  rintro ⟨left, top⟩
  exact ⟨by omega, left, by omega, top, trivial⟩

theorem drawSquare_paints (wide : inner.width ≤ inner.pitch / 4) :
    framebuffer.Paints fg
      (∀ dy < scale, ∀ dx < scale,
        x + col * scale + dx ≤ Usize.max ∧ y + row * scale + dy ≤ Usize.max)
      (fun px py => (∃ dx < scale, px = x + col * scale + dx) ∧
        ∃ dy < scale, py = y + row * scale + dy)
      (framebuffer.drawSquare x y fg scale row col) := by
  refine (Attempts.foldlM _ fun state dy _ => Attempts.foldlM _ fun state dx _ =>
    drawPixel_paints wide).congr ?_ fun index => ?_
  · intro fits dy below dx left
    exact fits dy (List.mem_range.mp below) dx (List.mem_range.mp left)
  · simp only [List.mem_range]
    constructor
    · rintro ⟨px, py, ⟨⟨dx, left, same⟩, dy, below, same'⟩, shows⟩
      exact ⟨dy, below, dx, left, px, py, ⟨same, same'⟩, shows⟩
    · rintro ⟨dy, below, dx, left, px, py, ⟨same, same'⟩, shows⟩
      exact ⟨px, py, ⟨⟨dx, left, same⟩, dy, below, same'⟩, shows⟩

/-- `draw_char` sets the pixels that the glyph covers. -/
theorem drawChar_paints (wide : inner.width ≤ inner.pitch / 4) (positive : 0 < scale) :
    framebuffer.Paints fg (x + 8 * scale ≤ Usize.max ∧ y + (16 * scale - 1) ≤ Usize.max)
      (font.Covers scale ch x y) (framebuffer.drawChar font x y ch fg scale) := by
  have square (state : Framebuffer inner) (row : Fin 16) (col : Fin 8) :
      state.Paints fg
        (∀ dy < scale, ∀ dx < scale,
          x + col * scale + dx ≤ Usize.max ∧ y + row * scale + dy ≤ Usize.max)
        (fun px py => font.bit ch row col = true ∧ (∃ dx < scale, px = x + col * scale + dx) ∧
          ∃ dy < scale, py = y + row * scale + dy)
        (if ((font.glyph ch).get row >>> (7 - col.val)) &&& 1 = 0 then .ok state
          else state.drawSquare x y fg scale row col) := by
    split_ifs with blank
    · have clear := (font.bit_eq_false_iff ch row col).mp blank
      refine Attempts.done.congr (fun _ => trivial) fun index => ?_
      simp [clear]
    · have bit := Bool.eq_true_of_not_eq_false (mt (font.bit_eq_false_iff ch row col).mpr blank)
      exact (drawSquare_paints wide).congr id fun index => by simp [bit]
  refine (Attempts.foldlM _ fun state row _ => Attempts.foldlM _ fun state col _ =>
    square state row col).congr ?_ fun index => ?_
  · rintro ⟨left, above⟩ row - col - dy below dx inside
    have columns : (col.val + 1) * scale ≤ 8 * scale := Nat.mul_le_mul_right _ col.isLt
    have rows : (row.val + 1) * scale ≤ 16 * scale := Nat.mul_le_mul_right _ row.isLt
    rw [Nat.succ_mul] at columns rows
    omega
  · simp only [List.mem_finRange, true_and, Font.covers_iff positive]
    constructor
    · rintro ⟨px, py, ⟨row, col, covers⟩, shows⟩
      exact ⟨row, col, px, py, covers, shows⟩
    · rintro ⟨row, col, px, py, covers, shows⟩
      exact ⟨px, py, ⟨row, col, covers⟩, shows⟩

theorem drawBytes_paints (wide : inner.width ≤ inner.pitch / 4) (positive : 0 < scale)
    {startX startY : ℕ} (earlier text : List (BitVec 8)) :
    framebuffer.Paints fg (Text.FitsAfter startX startY scale earlier text)
      (Text.CoveredAfter font startX startY scale earlier text)
      (drawBytes font startX fg scale text (startX + 8 * scale * Text.column earlier)
        (startY + 16 * scale * Text.line earlier) framebuffer) := by
  induction text generalizing earlier framebuffer with
  | nil =>
      refine Attempts.done.congr (fun _ => trivial) fun index => ?_
      simp [Text.coveredAfter_nil]
  | cons ch text induction =>
      rw [drawBytes]
      split_ifs with visible
      · subst visible
        have next := @induction framebuffer (earlier ++ [newline])
        rw [Text.column_newline, Text.line_newline, Nat.mul_zero, Nat.add_zero, Nat.mul_succ,
          ← Nat.add_assoc] at next
        rw [advance_eq]
        refine Attempts.congr (.check fun _ => next) (fun fits => ?_) fun index => ?_
        · obtain ⟨first, rest⟩ := fits.cons
          rw [if_pos rfl, Nat.mul_succ, ← Nat.add_assoc] at first
          exact ⟨first, rest⟩
        · simp [Text.coveredAfter_cons]
      · have next (state : Framebuffer inner) := @induction state (earlier ++ [ch])
        simp only [Text.column_append _ visible, Text.line_append _ visible, Nat.mul_succ,
          ← Nat.add_assoc] at next
        simp only [advance_eq]
        refine Attempts.congr (.bind (drawChar_paints wide positive) fun state =>
          .check fun _ => next state) (fun fits => ?_) fun index => ?_
        · obtain ⟨first, rest⟩ := fits.cons
          rw [if_neg visible, Nat.mul_succ, ← Nat.add_assoc] at first
          exact ⟨first, first.1, rest⟩
        · simp only [Text.coveredAfter_cons, visible, ne_eq, not_false_eq_true, true_and,
            or_and_right, exists_or]

end Framebuffer

/-- `draw_string` sets the pixels of the screen that a byte of the text covers and no other element,
unless a coordinate overflows; then the text has a cell that does not fit. -/
theorem drawString_exact {inner : LimineFramebuffer} {framebuffer : Framebuffer inner}
    (wide : framebuffer.width ≤ framebuffer.pitchU32) {scale : ℕ} (positive : 1 ≤ scale)
    (font : Font) (startX startY : ℕ) (text : List (BitVec 8)) (fg : BitVec 32) :
    (∃ after, framebuffer.drawString font startX startY text fg scale = .ok after ∧
      (∀ px < framebuffer.width, ∀ py < framebuffer.height,
        (Text.Covered font startX startY scale text px py →
          after.element (Framebuffer.offset inner px py) = some fg) ∧
        (¬Text.Covered font startX startY scale text px py →
          after.element (Framebuffer.offset inner px py) =
            framebuffer.element (Framebuffer.offset inner px py))) ∧
      ∀ index, (∀ px < framebuffer.width, ∀ py < framebuffer.height,
          index ≠ Framebuffer.offset inner px py) →
        after.element index = framebuffer.element index) ∨
    (framebuffer.drawString font startX startY text fg scale = .error .overflow ∧
      ¬Text.Fits startX startY scale text) := by
  rcases framebuffer.drawBytes_paints wide positive [] text with
    ⟨after, returned, settles⟩ | ⟨failed, excess⟩
  · refine .inl ⟨after, returned, fun px left py above => ⟨fun covered => ?_, fun clear => ?_⟩,
      fun index outside => ?_⟩
    · exact (settles _).1 ⟨px, py, covered, left, above, rfl⟩
    · refine (settles _).2 ?_
      rintro ⟨px', py', covered, left', above', same⟩
      obtain ⟨rfl, rfl⟩ := Framebuffer.offset_inj wide left left' same
      exact clear covered
    · refine (settles _).2 ?_
      rintro ⟨px, py, covered, left, above, same⟩
      exact outside px left py above same
  · exact .inr ⟨failed, excess⟩

/-- A screen of two pixels whose row has room for a third. -/
def narrowScreen : LimineFramebuffer := ⟨2, 1, 12, 32⟩

def narrowFramebuffer : Framebuffer narrowScreen := ⟨Vector.replicate _ 0, by decide⟩

/-- A font whose glyphs are all filled. -/
def solidFont : Font := Vector.replicate 256 (Vector.replicate 16 0xFF)

theorem drawString_exact_narrow : ∃ after,
    narrowFramebuffer.drawString solidFont 0 0 [0x41] 7 1 = .ok after ∧
      after.element 1 = some 7 ∧ after.element 2 = some 0 := by
  have wide : narrowFramebuffer.width ≤ narrowFramebuffer.pitchU32 := by decide
  rcases drawString_exact wide le_rfl solidFont 0 0 [0x41] 7 with
    ⟨after, returned, pixels, rest⟩ | ⟨-, excess⟩
  · refine ⟨after, returned, ?_, ?_⟩
    · refine (pixels 1 (by decide) 0 (by decide)).1 ⟨[], 0x41, [], rfl, by decide, ?_⟩
      exact ⟨Nat.zero_le _, Nat.zero_le _, 0, 1, rfl, rfl, by decide⟩
    · refine (rest 2 fun px left py above => ?_).trans rfl
      have first : py = 0 := Nat.lt_one_iff.mp above
      subst first
      exact (show px < 2 from left).ne'.trans_eq (Nat.zero_add px).symm
  · refine absurd (fun before ch after split => ?_) excess
    obtain ⟨rfl, rfl, rfl⟩ : before = [] ∧ ch = 0x41 ∧ after = [] := by
      simpa [eq_comm] using List.append_eq_singleton_iff.mp split.symm
    decide

end Blubos
