import Blubos.Screen.FontRenderer

/-!
# The render loop

Each round of the loop at the end of `kernel_main` fills the back buffer, writes some texts to
`TEXT_OUT_BUFFER`, draws what is there, copies the back buffer to the screen and empties the text.
A frame on the screen is made of the texts of its own round and of nothing that was there before.
-/

namespace Blubos

/-- What a round of the loop meets. -/
structure FrameInput where
  /-- The strings that the formatting hands to `TextBufferWriter`. -/
  texts : List (List (BitVec 8))
  /-- `TICKS` at the start of the round. -/
  startTick : ℕ
  /-- `TICKS` at its end. -/
  endTick : ℕ

/-- What the loop keeps from round to round. -/
structure Renderer (inner : LimineFramebuffer) where
  /-- `RENDER_BUFFER`. -/
  framebuffer : Framebuffer inner
  screen : ℕ → BitVec 32
  /-- `TEXT_OUT_BUFFER`. -/
  textOut : List (BitVec 8)
  /-- `prev_frametime`. -/
  prevFrametime : ℕ

variable {inner : LimineFramebuffer}

namespace Framebuffer

/-- `clear`. -/
def clear (framebuffer : Framebuffer inner) (color : BitVec 32) : Framebuffer inner :=
  let total := framebuffer.pitchU32 * framebuffer.height
  { framebuffer with backbuffer := .ofFn fun index =>
      if index.val < total then color else framebuffer.backbuffer.get index }

/-- `flip`: the screen afterwards. -/
def flip (framebuffer : Framebuffer inner) (screen : ℕ → BitVec 32) : ℕ → BitVec 32 :=
  fun index =>
    if index < framebuffer.height * framebuffer.pitchU32 then
      (framebuffer.element index).getD (screen index)
    else screen index

end Framebuffer

/-- `TextBufferWriter::write_str`. -/
def writeStr (textOut s : List (BitVec 8)) : List (BitVec 8) := textOut ++ s

namespace Renderer

/-- A round of the loop, with the two colours that it uses. -/
def frame (font : Font) (background fg : BitVec 32) (renderer : Renderer inner)
    (input : FrameInput) : Except Fault (Renderer inner) := do
  let framebuffer := renderer.framebuffer.clear background
  let textOut := input.texts.foldl writeStr renderer.textOut
  let framebuffer ← framebuffer.drawString font 5 5 textOut fg 1
  let screen := framebuffer.flip renderer.screen
  let prevFrametime ← Usize.sub input.endTick input.startTick
  .ok ⟨framebuffer, screen, [], prevFrametime⟩

/-- Before the loop, on whatever the screen shows. -/
def init (framebuffer : Framebuffer inner) (screen : ℕ → BitVec 32) : Renderer inner :=
  ⟨framebuffer, screen, [], 0⟩

def run (font : Font) (background fg : BitVec 32) (renderer : Renderer inner)
    (inputs : List FrameInput) : Except Fault (Renderer inner) :=
  inputs.foldlM (frame font background fg) renderer

end Renderer

/-- The texts of a round are short enough for memory, and `TICKS` does not wrap during it. -/
structure FrameInput.Plain (input : FrameInput) : Prop where
  short : input.texts.flatten.length < 2 ^ 52
  ticks : input.startTick ≤ input.endTick

/-- The cells of a short text end inside `usize`. -/
theorem Text.fits_of_short {text : List (BitVec 8)} (short : text.length < 2 ^ 52) :
    Text.FitsAfter 5 5 1 [] text := by
  rintro before ch after rfl
  have lines : Text.line before ≤ before.length := List.count_le_length
  have columns : Text.column before ≤ before.length := by
    refine (List.takeWhile_sublist _).length_le.trans ?_
    rw [List.length_reverse]
  rw [List.length_append, List.length_cons] at short
  rw [List.nil_append]
  unfold Usize.max
  split_ifs <;> omega

theorem foldl_writeStr (texts : List (List (BitVec 8))) (textOut : List (BitVec 8)) :
    texts.foldl writeStr textOut = textOut ++ texts.flatten := by
  induction texts generalizing textOut with
  | nil => simp
  | cons text texts induction =>
      rw [List.foldl_cons, induction, writeStr, List.append_assoc, List.flatten_cons]

namespace Framebuffer

theorem rows_le : inner.pitch / 4 * inner.height ≤ inner.height * inner.pitch / 4 := by
  rw [Nat.mul_comm]
  exact Nat.mul_div_le_mul_div_assoc _ _ _

theorem offset_lt_rows {px py : ℕ} (wide : inner.width ≤ inner.pitch / 4) (left : px < inner.width)
    (above : py < inner.height) : offset inner px py < inner.height * (inner.pitch / 4) := by
  have rows : (py + 1) * (inner.pitch / 4) ≤ inner.height * (inner.pitch / 4) :=
    Nat.mul_le_mul_right _ above
  rw [Nat.succ_mul] at rows
  rw [offset]
  omega

theorem element_clear (framebuffer : Framebuffer inner) (color : BitVec 32) {index : ℕ}
    (row : index < inner.pitch / 4 * inner.height) :
    (framebuffer.clear color).element index = some color := by
  have inside : index < inner.height * inner.pitch / 4 := row.trans_le rows_le
  rw [element, clear, Vector.getElem?_ofFn, dif_pos inside]
  exact congrArg some (if_pos row)

end Framebuffer

/-- The word of the screen that shows a pixel: rows are `pitch` bytes apart. -/
def LimineFramebuffer.word (inner : LimineFramebuffer) (px py : ℕ) : ℕ :=
  (py * inner.pitch + 4 * px) / 4

theorem LimineFramebuffer.word_eq (whole : 4 ∣ inner.pitch) (px py : ℕ) :
    inner.word px py = Framebuffer.offset inner px py := by
  obtain ⟨words, pitch⟩ := whole
  rw [word, Framebuffer.offset, pitch, Nat.mul_div_cancel_left _ (by decide)]
  rw [show py * (4 * words) + 4 * px = 4 * (py * words + px) by ring]
  exact Nat.mul_div_cancel_left _ (by decide)

/-- The screen after a frame with a text: the rows hold the text over the background, and the rest
is as it was. -/
structure Shown (font : Font) (background fg : BitVec 32) (inner : LimineFramebuffer)
    (text : List (BitVec 8)) (before after : ℕ → BitVec 32) : Prop where
  covered : ∀ px < inner.width, ∀ py < inner.height, Text.Covered font 5 5 1 text px py →
    after (inner.word px py) = fg
  clear : ∀ index < inner.height * (inner.pitch / 4),
    (∀ px < inner.width, ∀ py < inner.height, Text.Covered font 5 5 1 text px py →
      index ≠ inner.word px py) → after index = background
  outside : ∀ index, inner.height * (inner.pitch / 4) ≤ index → after index = before index

variable {font : Font} {background fg : BitVec 32} {renderer : Renderer inner} {input : FrameInput}

theorem Renderer.frame_shown (wide : inner.width ≤ inner.pitch / 4) (whole : 4 ∣ inner.pitch)
    (empty : renderer.textOut = []) (plain : input.Plain) :
    ∃ next, renderer.frame font background fg input = .ok next ∧ next.textOut = [] ∧
      next.prevFrametime = input.endTick - input.startTick ∧
      Shown font background fg inner input.texts.flatten renderer.screen next.screen := by
  have text : input.texts.foldl writeStr renderer.textOut = input.texts.flatten := by
    rw [foldl_writeStr, empty, List.nil_append]
  have paints : (renderer.framebuffer.clear background).Paints fg
      (Text.FitsAfter 5 5 1 [] input.texts.flatten)
      (Text.CoveredAfter font 5 5 1 [] input.texts.flatten)
      ((renderer.framebuffer.clear background).drawString font 5 5 input.texts.flatten fg 1) :=
    Framebuffer.drawBytes_paints wide Nat.one_pos [] input.texts.flatten
  obtain ⟨drawn, returned, settles⟩ | ⟨-, excess⟩ := paints
  · refine ⟨⟨drawn, drawn.flip renderer.screen, [], input.endTick - input.startTick⟩, ?_, rfl, rfl,
      ?_, fun index row other => ?_, fun index outside => if_neg (Nat.not_lt.mpr outside)⟩
    · rw [Renderer.frame, text, returned, ok_bind, Usize.sub, if_pos plain.ticks, ok_bind]
    · intro px left py above covered
      have shows : Framebuffer.Shows inner px py (inner.word px py) :=
        ⟨left, above, LimineFramebuffer.word_eq whole px py⟩
      have row := Framebuffer.offset_lt_rows wide left above
      rw [← LimineFramebuffer.word_eq whole] at row
      exact (if_pos row).trans
        (congrArg (Option.getD · _) ((settles _).1 ⟨px, py, covered, shows⟩))
    · have kept := (settles index).2 ?_
      · rw [Nat.mul_comm] at row
        rw [Framebuffer.element_clear _ _ row] at kept
        rw [Nat.mul_comm] at row
        exact (if_pos row).trans (congrArg (Option.getD · _) kept)
      · rintro ⟨px, py, covered, left, above, same⟩
        exact other px left py above covered
          (same.trans (LimineFramebuffer.word_eq whole px py).symm)
  · exact absurd (Text.fits_of_short plain.short) excess

/-- Any number of rounds leave no text behind and touch nothing beside the rows. -/
theorem Renderer.run_keeps (wide : inner.width ≤ inner.pitch / 4) (whole : 4 ∣ inner.pitch)
    (inputs : List FrameInput) (plain : ∀ input ∈ inputs, input.Plain)
    (renderer : Renderer inner) (empty : renderer.textOut = []) :
    ∃ last, renderer.run font background fg inputs = .ok last ∧ last.textOut = [] ∧
      ∀ index, inner.height * (inner.pitch / 4) ≤ index →
        last.screen index = renderer.screen index := by
  induction inputs generalizing renderer with
  | nil => exact ⟨renderer, rfl, empty, fun _ _ => rfl⟩
  | cons input inputs induction =>
      obtain ⟨first, later⟩ := List.forall_mem_cons.mp plain
      obtain ⟨next, framed, cleared, -, shown⟩ :=
        @Renderer.frame_shown _ font background fg _ _ wide whole empty first
      obtain ⟨last, ran, emptied, kept⟩ := induction later next cleared
      refine ⟨last, ?_, emptied, fun index outside =>
        (kept index outside).trans (shown.outside index outside)⟩
      rw [run, List.foldlM_cons, framed]
      exact ran

/-- After any rounds of the loop the screen shows the texts of the last round over the background,
whatever it showed before. -/
theorem frames_shown {framebuffer : Framebuffer inner} (wide : inner.width ≤ inner.pitch / 4)
    (whole : 4 ∣ inner.pitch) (font : Font) (background fg : BitVec 32) (screen : ℕ → BitVec 32)
    (inputs : List FrameInput) (last : FrameInput)
    (plain : ∀ input ∈ inputs ++ [last], input.Plain) :
    ∃ renderer, (Renderer.init framebuffer screen).run font background fg (inputs ++ [last]) =
        .ok renderer ∧ renderer.prevFrametime = last.endTick - last.startTick ∧
      Shown font background fg inner last.texts.flatten screen renderer.screen := by
  obtain ⟨before, ran, empty, kept⟩ := Renderer.run_keeps wide whole inputs
    (fun input member => plain input (List.mem_append_left _ member)) (.init framebuffer screen) rfl
  obtain ⟨renderer, framed, -, frametime, shown⟩ := Renderer.frame_shown wide whole empty
    (plain last (List.mem_append_right _ (List.mem_singleton_self last)))
  refine ⟨renderer, ?_, frametime, shown.covered, shown.clear, fun index outside =>
    (shown.outside index outside).trans (kept index outside)⟩
  rw [Renderer.run] at ran
  rw [Renderer.run, List.foldlM_append, ran, ok_bind, List.foldlM_cons, framed]
  rfl

def smallScreen : LimineFramebuffer := ⟨32, 8, 128, 32⟩

theorem smallScreen_bytes : smallScreen.height * smallScreen.pitch ≤ Usize.max := by decide

def smallFramebuffer : Framebuffer smallScreen := ⟨Vector.replicate _ 0, smallScreen_bytes⟩

/-- A shorter text leaves nothing of a longer one. -/
theorem frames_shown_shorter : ∃ renderer,
    (Renderer.init smallFramebuffer fun _ => 9).run solidFont 1 7
        [⟨[[0x41], [0x41]], 0, 1⟩, ⟨[[0x41]], 1, 3⟩] = .ok renderer ∧
      renderer.prevFrametime = 2 ∧ renderer.screen (smallScreen.word 5 5) = 7 ∧
      renderer.screen (smallScreen.word 13 5) = 1 := by
  have plain : ∀ input ∈ [⟨[[0x41], [0x41]], 0, 1⟩] ++ [(⟨[[0x41]], 1, 3⟩ : FrameInput)],
      input.Plain := by
    intro input member
    simp only [List.cons_append, List.nil_append, List.mem_cons, List.not_mem_nil, or_false]
      at member
    rcases member with rfl | rfl
    · exact ⟨by decide, by decide⟩
    · exact ⟨by decide, by decide⟩
  obtain ⟨renderer, ran, frametime, shown⟩ := @frames_shown _ smallFramebuffer (by decide)
    (by decide) solidFont 1 7 (fun _ => 9) _ _ plain
  refine ⟨renderer, ran, frametime, shown.covered 5 (by decide) 5 (by decide) ?_,
    shown.clear _ (by decide) ?_⟩
  · exact ⟨[], 0x41, [], rfl, by decide, Nat.le_refl _, Nat.le_refl _, 0, 0, rfl, rfl, by decide⟩
  · rintro px - py - ⟨before, ch, after, split, -, left, -, row, col, -, columns, -⟩ same
    obtain ⟨rfl, -, -⟩ : before = [] ∧ ch = 0x41 ∧ after = [] := by
      simpa [eq_comm] using List.append_eq_singleton_iff.mp split.symm
    have inside := col.isLt
    change (5 * 128 + 4 * 13) / 4 = (py * 128 + 4 * px) / 4 at same
    rw [Text.column_nil, Nat.mul_zero, Nat.add_zero] at left columns
    omega

end Blubos
