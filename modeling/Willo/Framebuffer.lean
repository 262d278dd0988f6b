import Willo.ByteCodec

/-! The framebuffer writer (`framebuffer.rs`), down to the bytes of the buffer. The
font crate is a parameter. A call that panics has no result: a glyph the font
lacks together with its substitute, an unsupported pixel format, a pixel outside
the buffer, or `scroll_back + n` past 64 bits. -/

namespace Willo.Framebuffer
open ByteCodec

def lineSpacing : Nat := 2
def letterSpacing : Nat := 0
def borderPadding : Nat := 1
def rasterHeight : Nat := 16
def rowHeight : Nat := rasterHeight + lineSpacing
def backupChar : Char := Char.ofNat 0xFFFD
def scrollbackLines : Nat := 256
def maxLineLen : Nat := 256
def usizeCount : Nat := 2 ^ 64

structure Raster where
  rows : List (List UInt8)
  width : Nat

/-- The font crate: `get_raster_width` and `get_raster` at the kernel's weight and size. -/
structure Font where
  width : Nat
  getRaster : Char → Option Raster

inductive PixelFormat where
  | rgb
  | bgr
  | u8
  | other
  deriving DecidableEq

structure Info where
  width : Nat
  height : Nat
  stride : Nat
  bytesPerPixel : Nat
  pixelFormat : PixelFormat
  deriving DecidableEq

structure Writer where
  framebuffer : Bytes
  info : Info
  xPos : Nat
  yPos : Nat
  ring : List (List Char)
  currentLine : List Char
  scrollBack : Nat
  viewportRows : Nat
  deriving DecidableEq

def rasterFor (font : Font) (c : Char) : Option Raster :=
  (font.getRaster c).or (font.getRaster backupChar)

def byteLen (line : List Char) : Nat := (line.map Char.utf8Size).sum

def blank (fb : Bytes) : Bytes := List.replicate fb.length 0

def viewportRows (info : Info) : Nat := (info.height - 2 * borderPadding) / rowHeight

def new (fb : Bytes) (info : Info) : Writer :=
  ⟨blank fb, info, borderPadding, borderPadding, [], [], 0, viewportRows info⟩

def clear (w : Writer) : Writer :=
  { w with xPos := borderPadding, yPos := borderPadding, framebuffer := blank w.framebuffer }

/-! Pixels. -/

def color (intensity : UInt8) : PixelFormat → Option Bytes
  | .rgb => some [intensity, intensity, intensity / 2, 0]
  | .bgr => some [intensity / 2, intensity, intensity, 0]
  | .u8 => some [if 200 < intensity then 0xf else 0, 0, 0, 0]
  | .other => none

def writePixel (info : Info) (x y : Nat) (intensity : UInt8) (fb : Bytes) : Option Bytes := do
  let pixelOffset := y * info.stride + x
  let color ← color intensity info.pixelFormat
  let bpp := info.bytesPerPixel
  let byteOffset := pixelOffset * bpp
  if byteOffset + bpp ≤ fb.length ∧ bpp ≤ color.length ∧ byteOffset < fb.length then
    some (patch fb byteOffset (color.take bpp))
  else none

def blitRow (info : Info) (y : Nat) : Nat → List UInt8 → Bytes → Option Bytes
  | _, [], fb => some fb
  | x, byte :: row, fb => do
    let fb ← writePixel info x y byte fb
    blitRow info y (x + 1) row fb

def blit (info : Info) (x : Nat) : Nat → List (List UInt8) → Bytes → Option Bytes
  | _, [], fb => some fb
  | y, row :: rows, fb => do
    let fb ← blitRow info y x row fb
    blit info x (y + 1) rows fb

def writeRendered (glyph : Raster) (w : Writer) : Option Writer := do
  let fb ← blit w.info w.xPos w.yPos glyph.rows w.framebuffer
  some { w with framebuffer := fb, xPos := w.xPos + glyph.width + letterSpacing }

/-! Redrawing. -/

def drawLine (font : Font) (info : Info) (y : Nat) : Nat → List Char → Bytes → Option (Bytes × Nat)
  | x, [], fb => some (fb, x)
  | x, c :: cs, fb =>
    if info.width ≤ x + font.width then some (fb, x)
    else do
      let glyph ← rasterFor font c
      let fb ← blit info x y glyph.rows fb
      drawLine font info y (x + glyph.width + letterSpacing) cs fb

/-- Line after line from row `row` on, until the viewport is full; the buffer, the
last `x` and the number of rows drawn. -/
def drawRows (font : Font) (info : Info) (viewport : Nat) :
    Nat → Nat → List (List Char) → Bytes → Option (Bytes × Nat × Nat)
  | row, x, [], fb => some (fb, x, row)
  | row, _, line :: rest, fb => do
    let (fb, x) ← drawLine font info (borderPadding + row * rowHeight) borderPadding line fb
    if viewport ≤ row + 1 then some (fb, x, row + 1)
      else drawRows font info viewport (row + 1) x rest fb

/-- The lines of the ring and the one in progress that a window `scrollBack` lines back shows. -/
def visible (w : Writer) (scrollBack : Nat) : List (List Char) :=
  let total := w.ring.length + 1
  let maxBack := total - w.viewportRows
  let off := min scrollBack maxBack
  let first := total - (w.viewportRows + off)
  let last := total - off
  ((w.ring ++ [w.currentLine]).take last).drop first

def redrawVisible (font : Font) (w : Writer) (scrollBack : Nat) : Option Writer := do
  let (fb, x, row) ← drawRows font w.info w.viewportRows 0 borderPadding (visible w scrollBack)
    (blank w.framebuffer)
  some { w with framebuffer := fb, xPos := x, yPos := borderPadding + (row - 1) * rowHeight }

/-! Writing. -/

def pushCurrentToRing (w : Writer) : Writer :=
  let ring := if w.ring.length = scrollbackLines then w.ring.tail else w.ring
  { w with ring := ring ++ [w.currentLine], currentLine := [] }

def advanceVisualRow (font : Font) (w : Writer) : Option Writer :=
  let w := { w with yPos := w.yPos + rowHeight, xPos := borderPadding }
  if w.info.height ≤ w.yPos + rasterHeight + borderPadding then do
    let w ← redrawVisible font w 0
    some { w with yPos := borderPadding + (w.viewportRows - 1) * rowHeight, xPos := borderPadding }
  else some w

def newline (font : Font) (w : Writer) : Option Writer :=
  let w := pushCurrentToRing w
  if w.scrollBack = 0 then advanceVisualRow font w else some w

def carriageReturn (w : Writer) : Writer := { w with xPos := borderPadding }

def wrapAtEdge (font : Font) (w : Writer) : Option Writer :=
  if w.info.width ≤ w.xPos + font.width then advanceVisualRow font w else some w

def wrapFullLine (font : Font) (w : Writer) : Option Writer :=
  if maxLineLen ≤ byteLen w.currentLine then newline font w else some w

def drawChar (font : Font) (c : Char) (w : Writer) : Option Writer :=
  if w.scrollBack = 0 then do
    let w ← wrapAtEdge font w
    let glyph ← rasterFor font c
    writeRendered glyph w
  else some w

def writeChar (font : Font) (w : Writer) (c : Char) : Option Writer :=
  if c = '\n' then newline font w
  else if c = '\r' then some (carriageReturn w)
  else do
    let w ← wrapFullLine font w
    let w ← drawChar font c w
    some { w with currentLine := w.currentLine ++ [c] }

def writeStr (font : Font) (w : Writer) (s : List Char) : Option Writer :=
  s.foldlM (writeChar font) w

/-! Scrolling. -/

def scrollTo (font : Font) (w : Writer) (offset : Nat) : Option Writer :=
  if offset = w.scrollBack then some w
  else redrawVisible font { w with scrollBack := offset } offset

def scrollUp (font : Font) (w : Writer) (n : Nat) : Option Writer :=
  let total := w.ring.length + 1
  let maxBack := total - w.viewportRows
  if w.scrollBack + n < usizeCount then scrollTo font w (min (w.scrollBack + n) maxBack) else none

def scrollDown (font : Font) (w : Writer) (n : Nat) : Option Writer :=
  scrollTo font w (w.scrollBack - n)

def scrollEnd (font : Font) (w : Writer) : Option Writer := scrollTo font w 0

/-! Sequences of calls. -/

inductive Call where
  | writeStr (s : List Char)
  | scrollUp (n : Nat)
  | scrollDown (n : Nat)
  | scrollEnd
  | clear

def step (font : Font) (w : Writer) : Call → Option Writer
  | .writeStr s => writeStr font w s
  | .scrollUp n => scrollUp font w n
  | .scrollDown n => scrollDown font w n
  | .scrollEnd => scrollEnd font w
  | .clear => some (clear w)

def run (font : Font) (w : Writer) (calls : List Call) : Option Writer := calls.foldlM (step font) w

def written (calls : List Call) : List Char :=
  calls.flatMap fun
    | .writeStr s => s
    | _ => []

end Willo.Framebuffer
