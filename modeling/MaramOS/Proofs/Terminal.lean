import Mathlib.Data.List.GetD
import Mathlib.Tactic.Linarith
import MaramOS.Spec.Terminal

/-! The framebuffer terminal is a scrolling grid of characters. Each loop over pixels
has one lemma that says which pixel it leaves with which colour; from these every
character printed keeps the pixels equal to the picture of the grid, and so does
every string. -/

namespace MaramOS

open List

namespace FrameBuffer

structure Sized (fb fb' : FrameBuffer) : Prop where
  height : fb'.height = fb.height
  width : fb'.width = fb.width
  pitch : fb'.pitch = fb.pitch

variable {fb : FrameBuffer}

theorem Sized.refl (fb : FrameBuffer) : Sized fb fb := ⟨rfl, rfl, rfl⟩

theorem Sized.trans {fb' fb'' : FrameBuffer} (h : Sized fb fb') (h' : Sized fb' fb'') : Sized fb fb'' :=
  ⟨h'.height.trans h.height, h'.width.trans h.width, h'.pitch.trans h.pitch⟩

theorem sized_setPixel (fb : FrameBuffer) (x y : ℕ) (c : UInt32) : Sized fb (fb.setPixel x y c) := ⟨rfl, rfl, rfl⟩

theorem position_inj {x y x' y' : ℕ} (hx : x < fb.pitch / 4) (hx' : x' < fb.pitch / 4) :
    fb.position x y = fb.position x' y' ↔ x = x' ∧ y = y' := by
  refine ⟨fun h => ?_, fun h => by rw [h.1, h.2]⟩
  have hpos : 0 < fb.pitch / 4 := by omega
  unfold position at h
  have hmod := congrArg (· % (fb.pitch / 4)) h
  have hdiv := congrArg (· / (fb.pitch / 4)) h
  simp only [Nat.mul_add_mod, Nat.mod_eq_of_lt hx, Nat.mod_eq_of_lt hx'] at hmod
  simp only [Nat.mul_add_div hpos, Nat.div_eq_of_lt hx, Nat.div_eq_of_lt hx', Nat.add_zero] at hdiv
  exact ⟨hmod, hdiv⟩

theorem memory_write (fb : FrameBuffer) (i j : ℕ) (c : UInt32) :
    (fb.write i c).memory j = if j = i then c else fb.memory j := Function.update_apply ..

theorem readPixel_setPixel {x y x' y' : ℕ} {c : UInt32} (hx : x < fb.pitch / 4) (hx' : x' < fb.pitch / 4) :
    (fb.setPixel x y c).readPixel x' y' = if x' = x ∧ y' = y then c else fb.readPixel x' y' := by
  change (fb.write (fb.position x y) c).memory (fb.position x' y') = _
  rw [memory_write]
  simp only [position_inj hx' hx]
  rfl

/-- One line of pixels, each in a colour that does not depend on that line. The step may also note something. -/
theorem line_spec {bx yy n : ℕ} {step : FrameBuffer → ℕ → FrameBuffer} {color : ℕ → UInt32}
    (hstep : ∀ fb' x, x < n → Sized fb fb' →
      (∀ x < fb.pitch / 4, ∀ y, y ≠ yy → fb'.readPixel x y = fb.readPixel x y) →
      Sized fb' (step fb' x) ∧ ∀ x' < fb.pitch / 4, ∀ y',
        (step fb' x).readPixel x' y' = if x' = bx + x ∧ y' = yy then color x else fb'.readPixel x' y') :
    Sized fb ((List.range n).foldl step fb) ∧ ∀ x < fb.pitch / 4, ∀ y,
      ((List.range n).foldl step fb).readPixel x y =
        if y = yy ∧ bx ≤ x ∧ x < bx + n then color (x - bx) else fb.readPixel x y := by
  induction n with
  | zero =>
    refine ⟨.refl fb, fun x _ y => ?_⟩
    rw [if_neg (by omega)]
    rfl
  | succ n ih =>
    obtain ⟨hsized, hpixel⟩ := ih fun fb' x hx => hstep fb' x (by omega)
    rw [range_succ, foldl_append, foldl_cons, foldl_nil]
    generalize (List.range n).foldl step fb = fb1 at hsized hpixel ⊢
    obtain ⟨hsized', hlast⟩ := hstep fb1 n (by omega) hsized fun x hx y hy => by
      rw [hpixel x hx y, if_neg (by omega)]
    refine ⟨hsized.trans hsized', fun x hx y => ?_⟩
    rw [hlast x hx y, hpixel x hx y]
    by_cases hnew : x = bx + n ∧ y = yy
    · obtain ⟨rfl, rfl⟩ := hnew
      rw [if_pos ⟨rfl, rfl⟩, if_pos (by omega), Nat.add_sub_cancel_left]
    · rw [if_neg hnew]
      refine if_congr ?_ rfl rfl
      omega

theorem fill_spec {bx y0 w n : ℕ} {c : UInt32} (hw : bx + w ≤ fb.pitch / 4) :
    Sized fb ((range' y0 n).foldl (fun fb y => (List.range w).foldl (fun fb x => fb.setPixel (bx + x) y c) fb) fb) ∧
    ∀ x < fb.pitch / 4, ∀ y,
      ((range' y0 n).foldl (fun fb y =>
        (List.range w).foldl (fun fb x => fb.setPixel (bx + x) y c) fb) fb).readPixel x y =
        if (y0 ≤ y ∧ y < y0 + n) ∧ bx ≤ x ∧ x < bx + w then c else fb.readPixel x y := by
  induction n with
  | zero =>
    refine ⟨.refl fb, fun x _ y => ?_⟩
    rw [if_neg (by omega)]
    rfl
  | succ n ih =>
    obtain ⟨hsized, hpixel⟩ := ih
    rw [range'_1_concat, foldl_append, foldl_cons, foldl_nil]
    generalize (range' y0 n).foldl (fun fb y =>
      (List.range w).foldl (fun fb x => fb.setPixel (bx + x) y c) fb) fb = fb1 at hsized hpixel ⊢
    obtain ⟨hsized', hline⟩ := @line_spec fb1 bx (y0 + n) w (fun fb x => fb.setPixel (bx + x) (y0 + n) c) (fun _ => c)
      fun fb' x hx hs _ => by
        have hpitch := hs.pitch.trans hsized.pitch
        refine ⟨sized_setPixel _ _ _ _, fun x' hx' y' => ?_⟩
        rw [hsized.pitch] at hx'
        exact readPixel_setPixel (by omega) (by omega)
    refine ⟨hsized.trans hsized', fun x hx y => ?_⟩
    rw [hline x (by rw [hsized.pitch]; exact hx) y, hpixel x hx y]
    by_cases hlast : y = y0 + n ∧ bx ≤ x ∧ x < bx + w
    · rw [if_pos hlast, if_pos (by omega)]
    · rw [if_neg hlast]
      refine if_congr ?_ rfl rfl
      omega

theorem copy_spec {dy w n : ℕ} (hdy : 0 < dy) (hw : w ≤ fb.pitch / 4) :
    let copied := (range' dy n).foldl (fun fb y => (List.range w).foldl (fun fb x =>
      ((fb.note (.pixel x y)).note (.sub y dy)).setPixel x (y - dy) (fb.readPixel x y)) fb) fb
    Sized fb copied ∧ ∀ x < fb.pitch / 4, ∀ y,
      copied.readPixel x y = if y < n ∧ x < w then fb.readPixel x (y + dy) else fb.readPixel x y := by
  dsimp only
  induction n with
  | zero =>
    refine ⟨.refl fb, fun x _ y => ?_⟩
    rw [if_neg (by omega)]
    rfl
  | succ n ih =>
    obtain ⟨hsized, hpixel⟩ := ih
    rw [range'_1_concat, foldl_append, foldl_cons, foldl_nil, Nat.add_sub_cancel_left]
    generalize (range' dy n).foldl (fun fb y => (List.range w).foldl (fun fb x =>
      ((fb.note (.pixel x y)).note (.sub y dy)).setPixel x (y - dy) (fb.readPixel x y)) fb) fb = fb1 at hsized hpixel ⊢
    have hline := @line_spec fb1 0 n w (fun fb x =>
      ((fb.note (.pixel x (dy + n))).note (.sub (dy + n) dy)).setPixel x n (fb.readPixel x (dy + n)))
      (fun x => fb1.readPixel x (dy + n)) fun fb' x hx hs hother => by
        have hpitch := hs.pitch.trans hsized.pitch
        refine ⟨⟨rfl, rfl, rfl⟩, fun x' hx' y' => ?_⟩
        rw [Nat.zero_add, ← hother x (by rw [hsized.pitch]; omega) (dy + n) (by omega)]
        rw [hsized.pitch] at hx'
        exact readPixel_setPixel (show x < fb'.pitch / 4 by omega) (show x' < fb'.pitch / 4 by omega)
    simp only [Nat.zero_add] at hline
    obtain ⟨hsized', hline⟩ := hline
    refine ⟨hsized.trans hsized', fun x hx y => ?_⟩
    rw [hline x (by rw [hsized.pitch]; exact hx) y, Nat.sub_zero, hpixel x hx y, hpixel x hx (dy + n),
      if_neg (show ¬(dy + n < n ∧ x < w) by omega)]
    by_cases hlast : y = n ∧ 0 ≤ x ∧ x < w
    · obtain ⟨rfl, -, hxw⟩ := hlast
      rw [if_pos ⟨rfl, Nat.zero_le x, hxw⟩, if_pos ⟨Nat.lt_succ_self y, hxw⟩, Nat.add_comm]
    · rw [if_neg hlast]
      refine if_congr ?_ rfl rfl
      omega

theorem fillScreen_spec (c : UInt32) :
    Sized fb (fb.fillScreen c) ∧ ∀ i < fb.size / 4, (fb.fillScreen c).memory i = c := by
  unfold fillScreen
  generalize fb.size / 4 = n
  induction n with
  | zero => exact ⟨.refl fb, fun i hi => absurd hi (Nat.not_lt_zero i)⟩
  | succ n ih =>
    rw [range_succ, foldl_append, foldl_cons, foldl_nil]
    refine ⟨ih.1.trans ⟨rfl, rfl, rfl⟩, fun i hi => (memory_write _ n i c).trans ?_⟩
    split_ifs with hin
    · rfl
    · exact ih.2 i (by omega)

theorem glyph_spec {bx yy w : ℕ} {color : Bool → UInt32} (hw : 0 < w) (hbx : bx + w ≤ fb.pitch / 4) (pixels : List Bool) :
    Sized fb (pixels.zipIdx.foldl (fun fb (on, i) => fb.setPixel (bx + i % w) (yy + i / w) (color on)) fb) ∧
    ∀ x < fb.pitch / 4, ∀ y,
      (pixels.zipIdx.foldl (fun fb (on, i) => fb.setPixel (bx + i % w) (yy + i / w) (color on)) fb).readPixel x y =
        if (bx ≤ x ∧ x < bx + w) ∧ yy ≤ y ∧ (y - yy) * w + (x - bx) < pixels.length
        then color (pixels.getD ((y - yy) * w + (x - bx)) false) else fb.readPixel x y := by
  induction pixels using reverseRecOn with
  | nil =>
    refine ⟨.refl fb, fun x _ y => ?_⟩
    rw [if_neg (by simp)]
    rfl
  | append_singleton pixels on ih =>
    obtain ⟨hsized, hpixel⟩ := ih
    rw [zipIdx_append, foldl_append, zipIdx_singleton, foldl_cons, foldl_nil, Nat.zero_add]
    generalize pixels.zipIdx.foldl (fun fb (on, i) =>
      fb.setPixel (bx + i % w) (yy + i / w) (color on)) fb = fb1 at hsized hpixel ⊢
    have hmod := Nat.mod_lt pixels.length hw
    have hsplit := Nat.div_add_mod pixels.length w
    refine ⟨hsized.trans (sized_setPixel _ _ _ _), fun x hx y => ?_⟩
    rw [readPixel_setPixel (by rw [hsized.pitch]; omega) (by rw [hsized.pitch]; exact hx), hpixel x hx y,
      length_append, length_singleton]
    -- the pixel that is set now is the one whose number is the number of pixels set before
    by_cases hwindow : (bx ≤ x ∧ x < bx + w) ∧ yy ≤ y
    · have hnumber : (x = bx + pixels.length % w ∧ y = yy + pixels.length / w) ↔
          (y - yy) * w + (x - bx) = pixels.length := by
        constructor
        · rintro ⟨rfl, rfl⟩
          rw [Nat.add_sub_cancel_left, Nat.add_sub_cancel_left, Nat.mul_comm, hsplit]
        · intro h
          have hx' : x - bx < w := by omega
          rw [← h, Nat.mul_comm, Nat.mul_add_mod, Nat.mod_eq_of_lt hx', Nat.mul_add_div hw, Nat.div_eq_of_lt hx']
          omega
      by_cases hlast : (y - yy) * w + (x - bx) = pixels.length
      · rw [if_pos (hnumber.2 hlast), if_pos ⟨hwindow.1, hwindow.2, by omega⟩, hlast]
        simp
      · rw [if_neg (mt hnumber.1 hlast)]
        by_cases hin : (y - yy) * w + (x - bx) < pixels.length
        · rw [if_pos ⟨hwindow.1, hwindow.2, hin⟩, if_pos ⟨hwindow.1, hwindow.2, by omega⟩,
            getD_append _ _ _ _ hin]
        · rw [if_neg (by tauto), if_neg (by omega)]
    · have hother : ¬(x = bx + pixels.length % w ∧ y = yy + pixels.length / w) := by
        rintro ⟨rfl, rfl⟩
        exact hwindow ⟨by omega, Nat.le_add_right _ _⟩
      rw [if_neg hother, if_neg (by tauto), if_neg (by tauto)]

end FrameBuffer

open FrameBuffer

theorem cell_iff {x w col : ℕ} (hw : 0 < w) : x / w = col ↔ col * w ≤ x ∧ x < col * w + w := by
  rw [Nat.div_eq_iff hw, Nat.add_sub_assoc hw]
  omega

theorem cell_mod {x w col : ℕ} (h : x / w = col) : x - col * w = x % w := by
  have := Nat.div_add_mod x w
  rw [h, Nat.mul_comm] at this
  omega

theorem cell_end {w n col : ℕ} (h : col < n / w) : col * w + w ≤ n := by
  rw [← Nat.succ_mul]
  exact (Nat.mul_le_mul_right w h).trans (Nat.div_mul_le_self n w)

theorem glyph_index_iff {a b w h : ℕ} (hb : b < w) : a * w + b < w * h ↔ a < h := by
  have hw : 0 < w := Nat.zero_lt_of_lt hb
  rw [Nat.mul_comm w h, ← Nat.div_lt_iff_lt_mul hw, Nat.mul_comm a w, Nat.mul_add_div hw, Nat.div_eq_of_lt hb,
    Nat.add_zero]

/-- The terminal on `fb` shows the grid: same size, same cursor, and the pixels are the picture of the grid. -/
structure Shows (font : Font) (fb : FrameBuffer) (fg bg : Color) {cols rows : ℕ} (g : Grid cols rows) (t : Terminal) :
    Prop where
  across : fb.width / font.glyphWidth = cols
  down : fb.height / font.glyphHeight = rows
  pitch : 4 * fb.width ≤ fb.pitch
  sized : FrameBuffer.Sized fb t.fb
  fg_eq : t.fg = fg
  bg_eq : t.bg = bg
  cols_eq : t.cols = cols
  rows_eq : t.rows = rows
  cursorCol : t.cursorCol = g.col
  cursorRow : t.cursorRow = g.row
  pixels : ∀ x < fb.width, ∀ y < fb.height, t.fb.readPixel x y = g.pixel font fg bg x y

namespace Shows

variable {font : Font} {fb : FrameBuffer} {fg bg : Color} {cols rows : ℕ} {g : Grid cols rows} {t : Terminal}

section

variable (h : Shows font fb fg bg g t)
include h

theorem glyphWidth_pos : 0 < font.glyphWidth := by
  have hcol := Nat.zero_lt_of_lt g.col.isLt
  have hacross := h.across
  refine Nat.pos_of_ne_zero fun h0 => ?_
  rw [h0, Nat.div_zero] at hacross
  omega

theorem glyphHeight_pos : 0 < font.glyphHeight := by
  have hrow := Nat.zero_lt_of_lt g.row.isLt
  have hdown := h.down
  refine Nat.pos_of_ne_zero fun h0 => ?_
  rw [h0, Nat.div_zero] at hdown
  omega

theorem move (row : Fin rows) (col : Fin cols) :
    Shows font fb fg bg { g with row := row, col := col } { t with cursorRow := row, cursorCol := col } :=
  ⟨h.across, h.down, h.pitch, h.sized, h.fg_eq, h.bg_eq, h.cols_eq, h.rows_eq, rfl, rfl, h.pixels⟩

theorem draws (c : Char) :
    ∃ fb', t.renderGlyph font c.toNat g.col g.row = { t with fb := fb' } ∧ FrameBuffer.Sized t.fb fb' ∧
      ∀ x < fb.pitch / 4, ∀ y, fb'.readPixel x y =
        if x / font.glyphWidth = g.col ∧ y / font.glyphHeight = g.row
        then font.pixel fg bg c (x % font.glyphWidth) (y % font.glyphHeight) else t.fb.readPixel x y := by
  have hw := h.glyphWidth_pos
  have hh := h.glyphHeight_pos
  have hpitch := h.pitch
  have hright := cell_end (h.across ▸ g.col.isLt : g.col.val < fb.width / font.glyphWidth)
  unfold Terminal.renderGlyph Font.pixel
  cases hglyph : font.getGlyphPixels c.toNat with
  | some pixels =>
    obtain ⟨hsized, hpixel⟩ := @glyph_spec t.fb (g.col * font.glyphWidth) (g.row * font.glyphHeight) _
      (fun on => if on then t.fg else t.bg) hw (by rw [h.sized.pitch]; omega) pixels
    refine ⟨_, rfl, hsized, fun x hx y => (hpixel x (by rw [h.sized.pitch]; exact hx) y).trans ?_⟩
    rw [font.complete _ _ hglyph, h.fg_eq, h.bg_eq]
    by_cases hcell : x / font.glyphWidth = g.col ∧ y / font.glyphHeight = g.row
    · obtain ⟨hx1, hx2⟩ := (cell_iff hw).1 hcell.1
      obtain ⟨hy1, hy2⟩ := (cell_iff hh).1 hcell.2
      have hin : (y - g.row * font.glyphHeight) * font.glyphWidth + (x - g.col * font.glyphWidth) <
          font.glyphWidth * font.glyphHeight := (glyph_index_iff (by omega)).2 (by omega)
      rw [if_pos ⟨⟨hx1, hx2⟩, hy1, hin⟩, if_pos hcell, cell_mod hcell.1, cell_mod hcell.2]
    · rw [if_neg hcell, if_neg]
      rintro ⟨hxin, hy1, hin⟩
      refine hcell ⟨(cell_iff hw).2 hxin, (cell_iff hh).2 ⟨hy1, ?_⟩⟩
      have hylt := (glyph_index_iff (by omega)).1 hin
      omega
  | none =>
    obtain ⟨hsized, hpixel⟩ := @fill_spec t.fb (g.col * font.glyphWidth) (g.row * font.glyphHeight) font.glyphWidth
      font.glyphHeight t.bg (by rw [h.sized.pitch]; omega)
    rw [range'_eq_map_range, foldl_map] at hsized hpixel
    refine ⟨_, rfl, hsized, fun x hx y => (hpixel x (by rw [h.sized.pitch]; exact hx) y).trans ?_⟩
    rw [h.bg_eq]
    refine if_congr ?_ rfl rfl
    rw [cell_iff hw, cell_iff hh]
    exact and_comm

theorem renderGlyph (c : Char) :
    Shows font fb fg bg (g.put c) (t.renderGlyph font c.toNat t.cursorCol t.cursorRow) := by
  have hpitch := h.pitch
  rw [h.cursorCol, h.cursorRow]
  obtain ⟨fb', hrun, hsized, hpixel⟩ := h.draws c
  rw [hrun]
  refine ⟨h.across, h.down, h.pitch, h.sized.trans hsized, h.fg_eq, h.bg_eq, h.cols_eq, h.rows_eq, h.cursorCol,
    h.cursorRow, fun x hx y hy => ?_⟩
  rw [hpixel x (by omega) y, h.pixels x hx y hy]
  unfold Grid.pixel Grid.put
  by_cases hin : x / font.glyphWidth < cols ∧ y / font.glyphHeight < rows
  · simp only [dif_pos hin, Fin.ext_iff]
    by_cases hcell : x / font.glyphWidth = g.col ∧ y / font.glyphHeight = g.row
    · rw [if_pos hcell, if_pos hcell.symm]
    · rw [if_neg hcell, if_neg (mt And.symm hcell)]
  · simp only [dif_neg hin]
    rw [if_neg]
    rintro ⟨hx', hy'⟩
    exact hin ⟨hx' ▸ g.col.isLt, hy' ▸ g.row.isLt⟩

/-- Scrolling the pixels of the whole height scrolls the cells, and brings no stray pixel into the last row. -/
theorem scroll (hlast : g.row.val + 1 = rows) (k : ℕ) :
    Shows font fb fg bg g.scroll ({ t with cursorRow := k }.scroll font) := by
  have hh := h.glyphHeight_pos
  have hpitch := h.pitch
  have hrows : font.glyphHeight ≤ fb.height := by
    have := cell_end (h.down ▸ g.row.isLt : g.row.val < fb.height / font.glyphHeight)
    omega
  unfold Terminal.scroll
  have hsub : wsub fb.height font.glyphHeight = fb.height - font.glyphHeight := if_pos hrows
  simp only [h.sized.height, h.sized.width, hsub, h.bg_eq]
  obtain ⟨hsized, hcopy⟩ := @copy_spec t.fb font.glyphHeight fb.width (fb.height - font.glyphHeight) hh
    (by rw [h.sized.pitch]; omega)
  generalize (range' font.glyphHeight (fb.height - font.glyphHeight)).foldl (fun fb' y =>
    (List.range fb.width).foldl (fun fb' x => ((fb'.note (.pixel x y)).note (.sub y font.glyphHeight)).setPixel x
      (y - font.glyphHeight) (fb'.readPixel x y)) fb') t.fb = moved at hsized hcopy ⊢
  have hmoved := h.sized.trans hsized
  have hfill := @fill_spec (moved.note (.sub fb.height font.glyphHeight)) 0 (fb.height - font.glyphHeight) fb.width
    (fb.height - (fb.height - font.glyphHeight)) bg (show 0 + fb.width ≤ moved.pitch / 4 by rw [hmoved.pitch]; omega)
  simp only [Nat.zero_add] at hfill
  obtain ⟨hsized', hclear⟩ := hfill
  refine ⟨h.across, h.down, h.pitch, hmoved.trans ⟨hsized'.height, hsized'.width, hsized'.pitch⟩, h.fg_eq, rfl,
    h.cols_eq, h.rows_eq, h.cursorCol, ?_,
    fun x hx y hy => ?_⟩
  · rw [h.rows_eq, wsub_of_le (by omega)]
    simp only [Grid.scroll]
    omega
  · have hxp : x < fb.pitch / 4 := by omega
    have hup : (y + font.glyphHeight) / font.glyphHeight = y / font.glyphHeight + 1 := Nat.add_div_right y hh
    refine (hclear x (show x < moved.pitch / 4 by rw [hmoved.pitch]; exact hxp) y).trans ?_
    rw [show (moved.note (.sub fb.height font.glyphHeight)).readPixel x y = moved.readPixel x y from rfl,
      hcopy x (by rw [h.sized.pitch]; exact hxp) y]
    by_cases hlow : y < fb.height - font.glyphHeight
    · rw [if_neg (by omega), if_pos ⟨hlow, hx⟩, h.pixels x hx _ (by omega)]
      unfold Grid.pixel Grid.scroll
      simp only [hup, Nat.add_mod_right]
      by_cases hin : x / font.glyphWidth < cols ∧ y / font.glyphHeight + 1 < rows
      · rw [dif_pos hin, dif_pos ⟨hin.1, by omega⟩]
        simp only [dif_pos hin.2]
      · rw [dif_neg hin]
        by_cases hcell : x / font.glyphWidth < cols ∧ y / font.glyphHeight < rows
        · rw [dif_pos hcell]
          simp only [dif_neg (show ¬ y / font.glyphHeight + 1 < rows from fun h' => hin ⟨hcell.1, h'⟩)]
        · rw [dif_neg hcell]
    · -- the last lines of the screen hold the last row of cells, which is blank now
      rw [if_pos (by omega)]
      have hrow : ¬ y / font.glyphHeight + 1 < rows := by
        rw [← hup, ← h.down]
        exact Nat.not_lt.2 (Nat.div_le_div_right (by omega))
      unfold Grid.pixel Grid.scroll
      split_ifs with hcell
      · simp only [dif_neg hrow]
      · rfl

theorem newline : Shows font fb fg bg g.newline (t.advanceRow font) := by
  unfold Grid.newline Terminal.advanceRow
  have hrow := h.cursorRow
  have hrows := h.rows_eq
  have hlt := g.row.isLt
  by_cases hnext : g.row.val + 1 < rows
  · rw [dif_pos hnext, hrow]
    simp only
    rw [if_neg (by omega)]
    exact h.move ⟨g.row.val + 1, hnext⟩ ⟨0, g.col.pos⟩
  · rw [dif_neg hnext]
    simp only
    rw [if_pos (by omega)]
    exact (h.move g.row ⟨0, g.col.pos⟩).scroll (show g.row.val + 1 = rows by omega) (t.cursorRow + 1)

theorem setCol (col : Fin cols) :
    Shows font fb fg bg { g with col := col } { t with cursorCol := col } := by
  have hmove := h.move g.row col
  rwa [← h.cursorRow] at hmove

theorem printChar (c : Char) :
    Shows font fb fg bg (g.printChar c) (t.printChar font c) := by
  have hcol := h.cursorCol
  have hcols := h.cols_eq
  unfold Grid.printChar Terminal.printChar
  split
  · exact h.newline
  · exact h.setCol ⟨0, g.col.pos⟩
  · simp only [hcol]
    by_cases hnext : (g.col.val / TAB_WIDTH + 1) * TAB_WIDTH < cols
    · rw [dif_pos hnext, if_pos (by rw [hcols]; exact hnext)]
      exact h.setCol ⟨_, hnext⟩
    · rw [dif_neg hnext, if_neg (by rw [hcols]; exact hnext)]
      exact h
  · have hput := h.renderGlyph c
    generalize t.renderGlyph font c.toNat t.cursorCol t.cursorRow = t' at hput ⊢
    have hcol' : t'.cursorCol = g.col := hput.cursorCol
    have hcols' := hput.cols_eq
    simp only [hcol']
    by_cases hnext : g.col.val + 1 < cols
    · rw [dif_pos hnext, if_neg (by omega)]
      exact hput.setCol ⟨_, hnext⟩
    · rw [dif_neg hnext, if_pos (by omega)]
      exact hput.newline

theorem printStr (s : List Char) :
    Shows font fb fg bg (g.printStr s) (t.printStr font s) := by
  induction s generalizing g t with
  | nil => exact h
  | cons c s ih => exact ih (h.printChar c)

end

end Shows

theorem FrameBuffer.position_lt {fb : FrameBuffer} {x y : ℕ} (hpitch : 4 * fb.width ≤ fb.pitch) (hx : x < fb.width)
    (hy : y < fb.height) : fb.position x y < fb.pitch / 4 * fb.height := by
  have hline : fb.pitch / 4 * (y + 1) ≤ fb.pitch / 4 * fb.height := Nat.mul_le_mul_left _ hy
  rw [Nat.mul_succ] at hline
  unfold position
  omega

theorem shows_blank {font : Font} {fb : FrameBuffer} {fg bg : Color} (hcols : 0 < fb.width / font.glyphWidth)
    (hrows : 0 < fb.height / font.glyphHeight) (hpitch : 4 * fb.width ≤ fb.pitch) (hsize : fb.size = fb.pitch * fb.height) :
    Shows font fb fg bg (Grid.blank hcols hrows) (((Terminal.new font fb).setColors fg bg).clear) := by
  obtain ⟨hsized, hfill⟩ := @fillScreen_spec fb bg
  refine ⟨rfl, rfl, hpitch, hsized, rfl, rfl, rfl, rfl, rfl, rfl, fun x hx y hy => ?_⟩
  have hplace : (fb.fillScreen bg).position x y < fb.size / 4 := by
    have hpos := FrameBuffer.position_lt hpitch hx hy
    have hfour : fb.pitch / 4 * 4 * fb.height ≤ fb.pitch * fb.height :=
      Nat.mul_le_mul_right _ (Nat.div_mul_le_self fb.pitch 4)
    rw [Nat.mul_right_comm] at hfour
    rw [position, hsized.pitch, hsize]
    rw [position] at hpos
    omega
  have hbg : (Grid.blank hcols hrows).pixel font fg bg x y = bg := by
    unfold Grid.pixel Grid.blank
    split_ifs <;> rfl
  exact (hfill _ hplace).trans hbg.symm

/-- Whatever is printed on a cleared terminal, each pixel has the colour it has in the picture of the grid
on which the same characters are printed, and the cursors are at the same cell. -/
theorem terminal_shows_grid (font : Font) (fb : FrameBuffer) (fg bg : Color) (s : List Char)
    (hcols : 0 < fb.width / font.glyphWidth) (hrows : 0 < fb.height / font.glyphHeight)
    (hpitch : 4 * fb.width ≤ fb.pitch) (hsize : fb.size = fb.pitch * fb.height) :
    let t := (((Terminal.new font fb).setColors fg bg).clear).printStr font s
    let g := (Grid.blank hcols hrows).printStr s
    t.cursorCol = g.col ∧ t.cursorRow = g.row ∧
      ∀ x < fb.width, ∀ y < fb.height, t.fb.readPixel x y = g.pixel font fg bg x y := by
  have hshows := (@shows_blank font fb fg bg hcols hrows hpitch hsize).printStr s
  exact ⟨hshows.cursorCol, hshows.cursorRow, hshows.pixels⟩

def dotFont : Font := ⟨1, 1, fun _ => some [true], by rintro _ _ ⟨⟩; rfl⟩

/-- Three characters on two rows of two cells, so that the screen scrolls. -/
theorem terminal_shows_grid_dots :
    ((((Terminal.new dotFont ⟨2, 2, 8, 16, fun _ => 7, []⟩).setColors 1 0).clear).printStr dotFont
      ['a', 'b', 'c', '\n']).fb.readPixel 0 0 = ((Grid.blank (by decide) (by decide) : Grid 2 2).printStr ['a', 'b', 'c', '\n']).pixel dotFont 1 0 0 0 :=
  (terminal_shows_grid dotFont ⟨2, 2, 8, 16, fun _ => 7, []⟩ 1 0 ['a', 'b', 'c', '\n'] (by decide) (by decide) (by decide)
    (by decide)).2.2 0 (by decide) 0 (by decide)

/-- With lines of four bytes for two pixels, the second pixel of a line is the first of the next. -/
theorem short_pitch_shows_stray :
    ((((Terminal.new dotFont ⟨2, 2, 4, 8, fun _ => 7, []⟩).setColors 1 0).clear).printStr dotFont ['a', 'b']).fb.readPixel
      0 1 ≠ ((Grid.blank (by decide) (by decide) : Grid 2 2).printStr ['a', 'b']).pixel dotFont 1 0 0 1 := by
  decide

end MaramOS
