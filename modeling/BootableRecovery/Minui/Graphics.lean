import BootableRecovery.LibBase.Strings
import Mathlib.Data.UInt
import Mathlib.Logic.Function.Iterate

/-!
# Drawing

`gr_fill`, `gr_blit` and `gr_text` of `minui/graphics.cpp`. The surface is rows of pixels of 4
bytes, and `pixel_at`, `incr_x` and `incr_y` address them in the rotation that is set. The address
of a pixel counts pixels from `gr_draw->data` on. Every write is noted.
-/

namespace BootableRecovery.Minui

/-! ## The surface -/

inductive GRRotation
  | none
  | right
  | down
  | left
  deriving DecidableEq

/-- `rotation % 2` -/
def GRRotation.odd : GRRotation → Bool
  | .none | .down => false
  | .right | .left => true

/-- A surface to draw into. Its fields are of type `int`, and so are the products in `pixel_at`. -/
structure DrawSurface where
  width : Nat
  height : Nat
  /-- `row_bytes / pixel_bytes` -/
  rowPixels : Nat
  width_le : width ≤ rowPixels
  height_lt : height < 2 ^ 31
  rowBytes_lt : 4 * rowPixels < 2 ^ 31
  pixels_lt : height * rowPixels < 2 ^ 31

/-- The globals of `graphics.cpp`. -/
structure Graphics where
  grDraw : DrawSurface
  rotation : GRRotation
  overscanOffsetX : Int
  overscanOffsetY : Int
  grCurrent : UInt32
  /-- The colour that each character of a text gets, if `rainbow_enabled` is set. -/
  rainbow : Option (Nat → UInt32)

variable (g : Graphics)

def Outside (x y : Int) : Prop :=
  x < 0 ∨ (if g.rotation.odd then g.grDraw.height else g.grDraw.width) ≤ x ∨
    y < 0 ∨ (if g.rotation.odd then g.grDraw.width else g.grDraw.height) ≤ y

instance (x y : Int) : Decidable (Outside g x y) := inferInstanceAs (Decidable (_ ∨ _))

def incrX (p : Int) : Int :=
  if g.rotation.odd then p + (if g.rotation = .right then 1 else -1) * g.grDraw.rowPixels
  else p + (if g.rotation ≠ .none then -1 else 1)

def incrY (p : Int) : Int :=
  if g.rotation.odd then p + (if g.rotation = .right then -1 else 1)
  else p + (if g.rotation ≠ .none then -1 else 1) * g.grDraw.rowPixels

def pixelAt (x y : Int) : Int :=
  match g.rotation with
  | .none => y * g.grDraw.rowPixels + x
  | .right => x * g.grDraw.rowPixels + (g.grDraw.width - y)
  | .down => (g.grDraw.height - 1 - y) * g.grDraw.rowPixels + (g.grDraw.width - 1 - x)
  | .left => (g.grDraw.height - 1 - x) * g.grDraw.rowPixels + y

/-! ## Painting -/

/-- The pixels, and the addresses that were written. -/
structure Drawing where
  data : Int → UInt32
  written : List Int

def Drawing.store (d : Drawing) (p : Int) (v : UInt32) : Drawing where
  data := Function.update d.data p v
  written := d.written ++ [p]

def alphaMask : UInt32 := 0xff000000

/-- The alpha of a colour. -/
def alphaOf (current : UInt32) : UInt8 := ((alphaMask &&& current) >>> 24).toUInt8

def pixelBlend (current : UInt32) (alpha : UInt8) (pix : UInt32) : UInt32 :=
  if alpha = 255 then current
  else if alpha = 0 then pix
  else
    let out mask :=
      ((pix &&& mask) * (255 - alpha.toUInt32) + (current &&& mask) * alpha.toUInt32) / 255
    (out 0xff &&& 0xff) ||| (out 0xff00 &&& 0xff00) ||| (out 0xff0000 &&& 0xff0000) |||
      (current &&& 0xff000000)

/-- The inner loop of `gr_fill`, `gr_blit` and `text_blend`: `value` says what a pixel becomes. -/
def paintRow (value : Nat → UInt32 → UInt32) : (w i : Nat) → (px : Int) → Drawing → Drawing
  | 0, _, _, d => d
  | w + 1, i, px, d => paintRow value w (i + 1) (incrX g px) (d.store px (value i (d.data px)))

/-- The outer loop. -/
def paintRows (value : Nat → Nat → UInt32 → UInt32) (w : Nat) :
    (h j : Nat) → (p : Int) → Drawing → Drawing
  | 0, _, _, d => d
  | h + 1, j, p, d => paintRows value w h (j + 1) (incrY g p) (paintRow g (value j) w 0 p d)

def grFill (x1 y1 x2 y2 : Int) (d : Drawing) : Drawing :=
  let x1 := x1 + g.overscanOffsetX
  let y1 := y1 + g.overscanOffsetY
  let x2 := x2 + g.overscanOffsetX
  let y2 := y2 + g.overscanOffsetY
  if Outside g x1 y1 ∨ Outside g (x2 - 1) (y2 - 1) then d
  else if 0 < alphaOf g.grCurrent then
    paintRows g (fun _ _ => pixelBlend g.grCurrent (alphaOf g.grCurrent)) (x2 - x1).toNat
      (y2 - y1).toNat 0
      (pixelAt g x1 y1) d
  else d

/-! ## Images -/

/-- The surface of an image, with its pixels as `gr_blit` reads them. -/
structure Source where
  rowPixels : Nat
  pixelBytes : Nat
  data : Int → UInt32

/-- The number of pixels that `memcpy` copies for a width: `w * pixel_bytes` as a `size_t`. -/
def memcpyPixels (w : Int) : Nat := ((w * 4) % 2 ^ 64).toNat / 4

def memcpyRow (source : Source) : (n : Nat) → (dst src : Int) → Drawing → Drawing
  | 0, _, _, d => d
  | n + 1, dst, src, d => memcpyRow source n (dst + 1) (src + 1) (d.store dst (source.data src))

/-- The loop of `gr_blit` without a rotation. -/
def memcpyRows (source : Source) (w : Int) : (h : Nat) → (dst src : Int) → Drawing → Drawing
  | 0, _, _, d => d
  | h + 1, dst, src, d =>
    memcpyRows source w h (dst + g.grDraw.rowPixels) (src + source.rowPixels)
      (memcpyRow source (memcpyPixels w) dst src d)

def grBlit (source : Option Source) (sx sy w h dx dy : Int) (d : Drawing) : Drawing :=
  match source with
  | none => d
  | some source =>
    if source.pixelBytes ≠ 4 then d
    else
      let dx := dx + g.overscanOffsetX
      let dy := dy + g.overscanOffsetY
      if Outside g dx dy ∨ Outside g (dx + w - 1) (dy + h - 1) then d
      else if g.rotation ≠ .none then
        paintRows g
          (fun j i _ => source.data (sy * source.rowPixels + sx + j * source.rowPixels + i))
          w.toNat h.toNat 0
          (pixelAt g dx dy) d
      else
        memcpyRows g source w h.toNat (dy * g.grDraw.rowPixels + dx) (sy * source.rowPixels + sx) d

/-! ## Texts -/

/-- A `GRFont` with its texture. -/
structure GRFont where
  charWidth : Int
  charHeight : Int
  height : Int
  rowBytes : Int
  pixelBytes : Int
  data : Int → UInt8

/-- `text_blend` for a character whose alphas start at `src`. -/
def textBlend (font : GRFont) (current : UInt32) (src p : Int) (d : Drawing) : Drawing :=
  paintRows g (fun j i =>
    let a := font.data (src + j * font.rowBytes + i)
    let a := if alphaOf current < 255 then (a.toUInt32 * (alphaOf current).toUInt32 / 255).toUInt8
      else a
    pixelBlend current a) font.charWidth.toNat font.charHeight.toNat 0 p d

/-- The loop of `gr_text` from its `i`-th character on. -/
def grTextFrom (font : GRFont) (bold : Bool) (y : Int) : (s : List UInt8) → (i : Nat) → (x : Int) →
    Drawing → Drawing
  | [], _, _, d => d
  | ch :: s, i, x, d =>
    if Outside g x y ∨ Outside g (x + font.charWidth - 1) (y + font.charHeight - 1) then d
    else
      let ch := if ch < 32 ∨ 126 < ch then 63 else ch
      let src :=
        (ch.toNat - 32) * font.charWidth + if bold then font.charHeight * font.rowBytes else 0
      let current := (g.rainbow.map (· i)).getD g.grCurrent
      grTextFrom font bold y s (i + 1) (x + font.charWidth)
        (textBlend g font current src (pixelAt g x y) d)

/-- `gr_text`; the string is its bytes before the NUL. -/
def grText (font : Option GRFont) (x y : Int) (s : List UInt8) (bold : Bool) (d : Drawing) :
    Drawing :=
  match font with
  | none => d
  | some font =>
    if g.grCurrent &&& alphaMask = 0 then d
    else if font.pixelBytes ≠ 1 then d
    else grTextFrom g font (bold && font.height ≠ font.charHeight) (y + g.overscanOffsetY) s 0
      (x + g.overscanOffsetX) d

/-! ## What is written -/

section
variable {g} {d : Drawing} {a : Int}

theorem mem_paintRow {value : Nat → UInt32 → UInt32} : a ∈ (paintRow g value w i px d).written ↔
    a ∈ d.written ∨ ∃ k < w, a = (incrX g)^[k] px := by
  induction w generalizing i px d with
  | zero => simp [paintRow]
  | succ w ih =>
    rw [paintRow, ih, Nat.exists_lt_succ_left]
    simp only [Drawing.store, List.mem_append, List.mem_singleton, Function.iterate_succ_apply,
      Function.iterate_zero_apply, or_assoc]

theorem mem_paintRows {value : Nat → Nat → UInt32 → UInt32} :
    a ∈ (paintRows g value w h j p d).written ↔
    a ∈ d.written ∨ ∃ l < h, ∃ k < w, a = (incrX g)^[k] ((incrY g)^[l] p) := by
  induction h generalizing j p d with
  | zero => simp [paintRows]
  | succ h ih =>
    rw [paintRows, ih, mem_paintRow, Nat.exists_lt_succ_left]
    simp only [Function.iterate_succ_apply, Function.iterate_zero_apply, or_assoc]

theorem mem_memcpyRow {source : Source} : a ∈ (memcpyRow source n dst src d).written ↔
    a ∈ d.written ∨ ∃ k < n, a = dst + k := by
  induction n generalizing dst src d with
  | zero => simp [memcpyRow]
  | succ n ih =>
    rw [memcpyRow, ih, Nat.exists_lt_succ_left]
    simp only [Drawing.store, List.mem_append, List.mem_singleton, or_assoc, Nat.cast_add,
      Nat.cast_one, Nat.cast_zero, add_zero, add_assoc, add_comm (1 : Int)]

theorem mem_memcpyRows {source : Source} : a ∈ (memcpyRows g source w h dst src d).written ↔
    a ∈ d.written ∨ ∃ l < h, ∃ k < memcpyPixels w, a = dst + l * g.grDraw.rowPixels + k := by
  induction h generalizing dst src d with
  | zero => simp [memcpyRows]
  | succ h ih =>
    rw [memcpyRows, ih, mem_memcpyRow, Nat.exists_lt_succ_left]
    simp only [or_assoc, Nat.cast_add, Nat.cast_one, Nat.cast_zero, zero_mul, add_zero, add_mul,
      one_mul, add_assoc, add_left_comm, add_comm (g.grDraw.rowPixels : Int)]

end

end BootableRecovery.Minui
