import Mathlib.Logic.Function.Basic
import MaramOS.Spec.Basic

/-! The text terminal on the framebuffer, from `display/`, its calls, and the character grid it
stands for. The pixel memory is a function of the pixel's place in it; the font is
a parameter, of which only the size of its glyphs is known. The framebuffer keeps a log of the
accesses to its memory, which go through unchecked pointers, and of the subtractions, which wrap. -/

namespace MaramOS

abbrev Color := UInt32

/-- A pixel that `set_pixel` or `read_pixel` accesses, a word that `fill_screen` writes, or a subtraction `a - b`. -/
inductive DrawEvent
  | pixel (x y : ℕ)
  | word (i : ℕ)
  | sub (a b : ℕ)
  deriving DecidableEq, Repr

/-- The last event is the first of the log. -/
structure FrameBuffer where
  height : ℕ
  width : ℕ
  pitch : ℕ
  size : ℕ
  memory : ℕ → UInt32
  log : List DrawEvent

namespace FrameBuffer

def position (fb : FrameBuffer) (x y : ℕ) : ℕ := fb.pitch / 4 * y + x

def write (fb : FrameBuffer) (i : ℕ) (color : UInt32) : FrameBuffer :=
  { fb with memory := Function.update fb.memory i color }

def note (fb : FrameBuffer) (e : DrawEvent) : FrameBuffer := { fb with log := e :: fb.log }

def setPixel (fb : FrameBuffer) (x y : ℕ) (color : UInt32) : FrameBuffer :=
  (fb.write (fb.position x y) color).note (.pixel x y)

def readPixel (fb : FrameBuffer) (x y : ℕ) : UInt32 := fb.memory (fb.position x y)

def fillScreen (fb : FrameBuffer) (color : UInt32) : FrameBuffer :=
  (List.range (fb.size / 4)).foldl (fun fb i => (fb.write i color).note (.word i)) fb

end FrameBuffer

/-- A font whose glyphs all have `glyph_width * glyph_height` pixels. -/
structure Font where
  glyphWidth : ℕ
  glyphHeight : ℕ
  getGlyphPixels : ℕ → Option (List Bool)
  complete : ∀ glyph pixels, getGlyphPixels glyph = some pixels → pixels.length = glyphWidth * glyphHeight

def TAB_WIDTH : ℕ := 8

structure Terminal where
  fb : FrameBuffer
  cursorCol : ℕ
  cursorRow : ℕ
  fg : Color
  bg : Color
  cols : ℕ
  rows : ℕ

namespace Terminal

variable (font : Font)

def new (fb : FrameBuffer) : Terminal :=
  ⟨fb, 0, 0, 0xFFFFFF, 0x000000, fb.width / font.glyphWidth, fb.height / font.glyphHeight⟩

def clear (t : Terminal) : Terminal :=
  { t with fb := t.fb.fillScreen t.bg, cursorCol := 0, cursorRow := 0 }

def setColors (t : Terminal) (fg bg : Color) : Terminal := { t with fg := fg, bg := bg }

def setCursor (t : Terminal) (col row : ℕ) : Terminal :=
  { t with cursorCol := min col (t.cols - 1), cursorRow := min row (t.rows - 1) }

def renderGlyph (t : Terminal) (glyphIndex col row : ℕ) : Terminal :=
  let baseX := col * font.glyphWidth
  let baseY := row * font.glyphHeight
  match font.getGlyphPixels glyphIndex with
  | some pixels =>
    { t with fb := pixels.zipIdx.foldl (fun fb (on, i) =>
        fb.setPixel (baseX + i % font.glyphWidth) (baseY + i / font.glyphWidth) (if on then t.fg else t.bg)) t.fb }
  | none =>
    { t with fb := (List.range font.glyphHeight).foldl (fun fb gy =>
        (List.range font.glyphWidth).foldl (fun fb gx => fb.setPixel (baseX + gx) (baseY + gy) t.bg) fb) t.fb }

/-- Every line is copied up by one text row, also those below the last text row; then the last lines
are cleared. -/
def scroll (t : Terminal) : Terminal :=
  let rowHeight := font.glyphHeight
  let fbW := t.fb.width
  let fbH := t.fb.height
  let moved := (List.range' rowHeight (fbH - rowHeight)).foldl (fun fb y => (List.range fbW).foldl (fun fb x =>
    ((fb.note (.pixel x y)).note (.sub y rowHeight)).setPixel x (y - rowHeight) (fb.readPixel x y)) fb) t.fb
  let cleared := (List.range' (wsub fbH rowHeight) (fbH - wsub fbH rowHeight)).foldl (fun fb y =>
    (List.range fbW).foldl (fun fb x => fb.setPixel x y t.bg) fb) (moved.note (.sub fbH rowHeight))
  { t with fb := cleared.note (.sub t.rows 1), cursorRow := wsub t.rows 1 }

def advanceRow (t : Terminal) : Terminal :=
  let t := { t with cursorRow := t.cursorRow + 1, cursorCol := 0 }
  if t.rows ≤ t.cursorRow then t.scroll font else t

def printChar (t : Terminal) (c : Char) : Terminal :=
  match c with
  | '\n' => t.advanceRow font
  | '\r' => { t with cursorCol := 0 }
  | '\t' =>
    let next := (t.cursorCol / TAB_WIDTH + 1) * TAB_WIDTH
    if next < t.cols then { t with cursorCol := next } else t
  | c =>
    let t := t.renderGlyph font c.toNat t.cursorCol t.cursorRow
    let t := { t with cursorCol := t.cursorCol + 1 }
    if t.cols ≤ t.cursorCol then { t with cursorCol := 0 }.advanceRow font else t

def printStr (t : Terminal) (s : List Char) : Terminal := s.foldl (printChar font) t

end Terminal

inductive TerminalCall
  | printChar (c : Char)
  | setCursor (col row : ℕ)
  | setColors (fg bg : Color)
  | clear
  deriving DecidableEq, Repr

def TerminalCall.run (font : Font) (t : Terminal) : TerminalCall → Terminal
  | printChar c => t.printChar font c
  | setCursor col row => t.setCursor col row
  | setColors fg bg => t.setColors fg bg
  | clear => t.clear

/-- The scrolling grid of characters that the terminal is for. The cursor is a cell of it. -/
structure Grid (cols rows : ℕ) where
  cell : Fin rows → Fin cols → Option Char
  row : Fin rows
  col : Fin cols

namespace Grid

variable {cols rows : ℕ}

def blank (hcols : 0 < cols) (hrows : 0 < rows) : Grid cols rows := ⟨fun _ _ => none, ⟨0, hrows⟩, ⟨0, hcols⟩⟩

/-- The cells move up by one row, and the last row becomes blank. -/
def scroll (g : Grid cols rows) : Grid cols rows :=
  { g with cell := fun r c => if h : r.val + 1 < rows then g.cell ⟨r.val + 1, h⟩ c else none }

def home (g : Grid cols rows) : Grid cols rows := { g with col := ⟨0, g.col.pos⟩ }

def newline (g : Grid cols rows) : Grid cols rows :=
  if h : g.row.val + 1 < rows then { g.home with row := ⟨g.row.val + 1, h⟩ } else g.home.scroll

def put (g : Grid cols rows) (c : Char) : Grid cols rows :=
  { g with cell := fun row col => if row = g.row ∧ col = g.col then some c else g.cell row col }

def printChar (g : Grid cols rows) (c : Char) : Grid cols rows :=
  match c with
  | '\n' => g.newline
  | '\r' => g.home
  | '\t' =>
    let next := (g.col.val / TAB_WIDTH + 1) * TAB_WIDTH
    if h : next < cols then { g with col := ⟨next, h⟩ } else g
  | c => if h : g.col.val + 1 < cols then { g.put c with col := ⟨g.col.val + 1, h⟩ } else (g.put c).newline

def printStr (g : Grid cols rows) (s : List Char) : Grid cols rows := s.foldl printChar g

end Grid

/-- The colour of one pixel of a character; a character without a glyph is blank. -/
def Font.pixel (font : Font) (fg bg : Color) (c : Char) (x y : ℕ) : Color :=
  match font.getGlyphPixels c.toNat with
  | some pixels => if pixels.getD (y * font.glyphWidth + x) false then fg else bg
  | none => bg

/-- The picture of a grid: each character in its cell, everything else in the background colour. -/
def Grid.pixel {cols rows : ℕ} (font : Font) (fg bg : Color) (g : Grid cols rows) (x y : ℕ) : Color :=
  if h : x / font.glyphWidth < cols ∧ y / font.glyphHeight < rows then
    match g.cell ⟨_, h.2⟩ ⟨_, h.1⟩ with
    | some c => font.pixel fg bg c (x % font.glyphWidth) (y % font.glyphHeight)
    | none => bg
  else bg

end MaramOS
