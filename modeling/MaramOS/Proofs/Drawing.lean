import MaramOS.Proofs.Terminal

/-! Drawing stays within the framebuffer. The cursor is a cell of the grid between calls, so a glyph lies within the
visible pixels, and so do the lines that a scroll moves. A `clear` does not go by pixels: it writes every word, also
those between the end of a line and the pitch. -/

namespace MaramOS

open List

/-- What may be done: access a visible pixel, write a word of the framebuffer, and subtract what is not greater. -/
def FrameBuffer.Allows (fb : FrameBuffer) : DrawEvent → Prop
  | .pixel x y => x < fb.width ∧ y < fb.height
  | .word i => i < fb.size / 4
  | .sub a b => b ≤ a

namespace FrameBuffer

/-- A framebuffer of the size of `fb` on which only such things were done. -/
structure Within (fb s : FrameBuffer) : Prop where
  sized : Sized fb s
  size : s.size = fb.size
  log : ∀ e ∈ s.log, fb.Allows e

variable {fb s : FrameBuffer} {ys xs : List ℕ} {step : FrameBuffer → ℕ → ℕ → FrameBuffer}

theorem Within.note {e : DrawEvent} (h : fb.Within s) (he : fb.Allows e) : fb.Within (s.note e) :=
  ⟨h.sized.trans ⟨rfl, rfl, rfl⟩, h.size, forall_mem_cons.2 ⟨he, h.log⟩⟩

theorem Within.write (h : fb.Within s) (i : ℕ) (c : UInt32) : fb.Within (s.write i c) :=
  ⟨h.sized.trans ⟨rfl, rfl, rfl⟩, h.size, h.log⟩

theorem Within.setPixel {x y : ℕ} {c : UInt32} (h : fb.Within s) (hx : x < fb.width) (hy : y < fb.height) :
    fb.Within (s.setPixel x y c) := (h.write _ c).note ⟨hx, hy⟩

theorem Within.lines (h : fb.Within s)
    (hstep : ∀ s, fb.Within s → ∀ y ∈ ys, ∀ x ∈ xs, fb.Within (step s x y)) :
    fb.Within (ys.foldl (fun s y => xs.foldl (fun s x => step s x y) s) s) := by
  apply foldlRecOn ys _ h
  intro s1 h1 y hy
  apply foldlRecOn xs _ h1
  intro s2 h2 x hx
  exact hstep s2 h2 y hy x hx

theorem Within.fillScreen (h : fb.Within s) (c : UInt32) : fb.Within (s.fillScreen c) := by
  unfold FrameBuffer.fillScreen
  apply foldlRecOn _ _ h
  intro s1 h1 i hi
  rw [mem_range, h.size] at hi
  exact (h1.write i c).note hi

end FrameBuffer

namespace Terminal

variable {font : Font} {fb : FrameBuffer} {t : Terminal}

theorem renderGlyph_within (h : fb.Within t.fb) {col row : ℕ} (hcol : col < fb.width / font.glyphWidth)
    (hrow : row < fb.height / font.glyphHeight) (glyphIndex : ℕ) :
    ∃ fb', t.renderGlyph font glyphIndex col row = { t with fb := fb' } ∧ fb.Within fb' := by
  have hright := cell_end hcol
  have hbottom := cell_end hrow
  have hwidth : 0 < font.glyphWidth := by
    apply Nat.pos_of_ne_zero
    intro h0
    simp [h0] at hcol
  unfold renderGlyph
  cases hglyph : font.getGlyphPixels glyphIndex with
  | some pixels =>
    refine ⟨_, rfl, foldlRecOn _ _ h fun s hs p hp => ?_⟩
    have hlength := font.complete _ _ hglyph
    have hindex : p.2 < pixels.length := snd_lt_of_mem_zipIdx hp
    have hx := Nat.mod_lt p.2 hwidth
    have hy : p.2 / font.glyphWidth < font.glyphHeight := Nat.div_lt_of_lt_mul (by omega)
    exact hs.setPixel (by omega) (by omega)
  | none =>
    refine ⟨_, rfl, h.lines fun s hs gy hgy gx hgx => ?_⟩
    rw [mem_range] at hgy hgx
    exact hs.setPixel (by omega) (by omega)

theorem scroll_within (h : fb.Within t.fb) (hheight : font.glyphHeight ≤ fb.height) (hrows : 0 < t.rows) :
    ∃ fb', t.scroll font = { t with fb := fb', cursorRow := t.rows - 1 } ∧ fb.Within fb' := by
  have hfbW : t.fb.width = fb.width := h.sized.width
  have hfbH : t.fb.height = fb.height := h.sized.height
  have hlast : wsub t.rows 1 = t.rows - 1 := wsub_of_le hrows
  have hsub : wsub fb.height font.glyphHeight = fb.height - font.glyphHeight := wsub_of_le hheight
  unfold scroll
  simp only [hfbW, hfbH, hlast, hsub]
  refine ⟨_, rfl, ?_⟩
  refine FrameBuffer.Within.note ?_ hrows
  apply FrameBuffer.Within.lines
  · refine FrameBuffer.Within.note ?_ hheight
    apply h.lines
    intro s hs y hy x hx
    rw [mem_range'_1] at hy
    rw [mem_range] at hx
    have hread : fb.Within (s.note (.pixel x y)) := hs.note ⟨hx, by omega⟩
    have hline : fb.Within ((s.note (.pixel x y)).note (.sub y font.glyphHeight)) := hread.note hy.1
    exact hline.setPixel hx (by omega)
  · intro s hs y hy x hx
    rw [mem_range'_1] at hy
    rw [mem_range] at hx
    exact hs.setPixel hx (by omega)

/-- Between calls: the terminal has the size of its framebuffer, and the cursor is a cell of the grid. -/
structure InGrid (font : Font) (fb : FrameBuffer) (t : Terminal) : Prop where
  within : fb.Within t.fb
  cols : t.cols = fb.width / font.glyphWidth
  rows : t.rows = fb.height / font.glyphHeight
  col : t.cursorCol < t.cols
  row : t.cursorRow < t.rows

namespace InGrid

theorem moveCol (h : InGrid font fb t) {col : ℕ} (hcol : col < t.cols) :
    InGrid font fb { t with cursorCol := col } :=
  ⟨h.within, h.cols, h.rows, hcol, h.row⟩

theorem advanceRow (h : InGrid font fb t) : InGrid font fb (t.advanceRow font) := by
  have hrow := h.row
  have hcols : 0 < t.cols := Nat.zero_lt_of_lt h.col
  have hrows : 0 < t.rows := Nat.zero_lt_of_lt hrow
  unfold Terminal.advanceRow
  dsimp only
  split_ifs with hlast
  · have hheight : font.glyphHeight ≤ fb.height := by
      have := cell_end (h.rows ▸ hrows)
      omega
    obtain ⟨fb', hrun, hs⟩ := @scroll_within font fb { t with cursorRow := t.cursorRow + 1, cursorCol := 0 } h.within
      hheight hrows
    rw [hrun]
    exact ⟨hs, h.cols, h.rows, hcols, Nat.sub_lt hrows Nat.one_pos⟩
  · exact ⟨h.within, h.cols, h.rows, hcols, by simpa using hlast⟩

theorem printChar (h : InGrid font fb t) (c : Char) : InGrid font fb (t.printChar font c) := by
  have hcols : 0 < t.cols := Nat.zero_lt_of_lt h.col
  unfold Terminal.printChar
  split
  · exact h.advanceRow
  · exact h.moveCol hcols
  · dsimp only
    split_ifs with hnext
    · exact h.moveCol hnext
    · exact h
  · obtain ⟨fb', hrun, hs⟩ := @renderGlyph_within font fb t h.within t.cursorCol t.cursorRow
      (h.cols ▸ h.col) (h.rows ▸ h.row) c.toNat
    have hdrawn : InGrid font fb { t with fb := fb' } := ⟨hs, h.cols, h.rows, h.col, h.row⟩
    rw [hrun]
    dsimp only
    split_ifs with hwrap
    · exact (hdrawn.moveCol hcols).advanceRow
    · exact hdrawn.moveCol (Nat.not_le.1 hwrap)

theorem clear (h : InGrid font fb t) : InGrid font fb t.clear :=
  ⟨h.within.fillScreen _, h.cols, h.rows, Nat.zero_lt_of_lt h.col, Nat.zero_lt_of_lt h.row⟩

theorem call (h : InGrid font fb t) (call : TerminalCall) : InGrid font fb (call.run font t) := by
  have hcol := h.col
  have hrow := h.row
  cases call with
  | printChar c => exact h.printChar c
  | setCursor col row =>
    refine ⟨h.within, h.cols, h.rows, ?_, ?_⟩
    · show min col (t.cols - 1) < t.cols
      omega
    · show min row (t.rows - 1) < t.rows
      omega
  | setColors fg bg => exact ⟨h.within, h.cols, h.rows, hcol, hrow⟩
  | clear => exact h.clear

end InGrid

end Terminal

/-- After any calls the cursor is a cell of the grid, no subtraction has wrapped, and all pixels that were read or
written through their coordinates are visible. Only `clear` goes by words, those that the size of the framebuffer counts.
All indices are below `pitch / 4 * height` if that size is no greater than the lines. -/
theorem drawing_in_bounds (font : Font) (fb : FrameBuffer) (calls : List TerminalCall)
    (hcols : 0 < fb.width / font.glyphWidth) (hrows : 0 < fb.height / font.glyphHeight) (hfour : 4 ∣ fb.pitch)
    (hpitch : 4 * fb.width ≤ fb.pitch) :
    let t := calls.foldl (TerminalCall.run font) (Terminal.new font { fb with log := [] })
    t.cursorCol < t.cols ∧ t.cursorRow < t.rows ∧ (∀ a b, .sub a b ∈ t.fb.log → b ≤ a) ∧
      (∀ x y, .pixel x y ∈ t.fb.log → x < fb.width ∧ y < fb.height ∧ fb.position x y < fb.pitch / 4 * fb.height) ∧
      (∀ i, .word i ∈ t.fb.log → i < fb.size / 4 ∧ (fb.size ≤ fb.pitch * fb.height → i < fb.pitch / 4 * fb.height)) := by
  intro t
  have hstart : Terminal.InGrid font fb (Terminal.new font { fb with log := [] }) :=
    ⟨⟨⟨rfl, rfl, rfl⟩, rfl, by simp [Terminal.new]⟩, rfl, rfl, hcols, hrows⟩
  have hgrid : Terminal.InGrid font fb t := List.foldlRecOn calls _ hstart fun t ht call _ => ht.call call
  have hlog := hgrid.within.log
  refine ⟨hgrid.col, hgrid.row, fun a b he => hlog _ he, fun x y he => ?_, fun i he => ?_⟩
  · obtain ⟨hx, hy⟩ := hlog _ he
    exact ⟨hx, hy, FrameBuffer.position_lt hpitch hx hy⟩
  · have hword : i < fb.size / 4 := hlog _ he
    refine ⟨hword, fun hsize => ?_⟩
    obtain ⟨k, hk⟩ := hfour
    rw [hk, Nat.mul_div_cancel_left k (by decide)]
    rw [hk, Nat.mul_assoc] at hsize
    omega

/-- A character, a tab and a line feed on two rows of two cells, with a pixel between the lines. -/
theorem drawing_in_bounds_dots :
    0 < 2 / dotFont.glyphWidth ∧
    let t := [.printChar 'a', .printChar '\t', .printChar '\n', .printChar '\n', .clear].foldl (TerminalCall.run dotFont)
      (Terminal.new dotFont ⟨2, 2, 12, 24, fun _ => 7, []⟩)
    .sub 2 1 ∈ t.fb.log ∧ .pixel 1 1 ∈ t.fb.log ∧ .word 5 ∈ t.fb.log ∧
      ∀ x y, .pixel x y ∈ t.fb.log → x < 2 ∧ y < 2 ∧ 3 * y + x < 6 := by
  refine ⟨by decide, by decide, by decide, by decide, fun x y he => ?_⟩
  exact (drawing_in_bounds dotFont ⟨2, 2, 12, 24, fun _ => 7, []⟩ _ (by decide) (by decide) (by decide)
    (by decide)).2.2.2.1 x y he

/-- One pixel, in a line of eight bytes: `clear` also writes the word behind it, which is at no visible pixel. -/
theorem clear_writes_padding :
    let fb : FrameBuffer := ⟨1, 1, 8, 8, fun _ => 7, []⟩
    (0 < fb.width / dotFont.glyphWidth ∧ 0 < fb.height / dotFont.glyphHeight ∧ 4 ∣ fb.pitch ∧ 4 * fb.width ≤ fb.pitch) ∧
    .word 1 ∈ (TerminalCall.clear.run dotFont (Terminal.new dotFont fb)).fb.log ∧
    fb.position 1 0 = 1 ∧ ∀ x < fb.width, ∀ y < fb.height, fb.position x y ≠ 1 := by
  decide

end MaramOS
