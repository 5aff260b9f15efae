import BootableRecovery.LibBase.Strings
import Mathlib.Data.UInt

/-!
# Localized images

`res_create_localized_alpha_surface` and `matches_locale` of `minui/resources.cpp`: an image holds
one text for each of several locales, one below the other, and the first one that matches a locale
is taken.

The PNG file is its pixels, gray with 8 bits.
-/

namespace BootableRecovery

/-- An image of gray pixels. -/
structure Image where
  width : Nat
  height : Nat
  pixel : (x y : Nat) → UInt8

/-- A surface with one byte for each pixel. -/
structure GRSurface where
  width : Nat
  height : Nat
  data : List UInt8
  deriving DecidableEq

namespace Minui

/-- The bytes of a text of ASCII characters. -/
def getBytes (t : Text) : List UInt8 := t.map fun c => UInt8.ofNat c.toNat

/-- The C string at the start of some bytes. -/
def cString (bytes : List UInt8) : Text := (bytes.takeWhile (· ≠ 0)).map fun b => Char.ofNat b.toNat

/-- The letters of `[A-Za-z]`. -/
def isLetter (c : Char) : Bool := 'A' ≤ c && c ≤ 'Z' || 'a' ≤ c && c ≤ 'z'

/-- `matches_locale`, where the text before the locale's end has no characters that a regular
expression reads as anything but themselves: the expression is the language, `-`, some letters and
the rest. -/
def matchesLocale (header locale : Text) : Bool :=
  header.isPrefixOf locale ||
    if '-' ∈ header then
      let language := header.takeWhile (· ≠ '-')
      let rest := header.dropWhile (· ≠ '-')
      let script :=
        (locale.drop (language.length + 1)).take
          (locale.length - (language.length + 1 + rest.length))
      locale = language ++ '-' :: script ++ rest && script.all isLetter
    else false

/-- `png_read_row` of a row. -/
def row (image : Image) (y : Nat) : List UInt8 :=
  (List.range image.width).map fun x => image.pixel x y

/-- The surface of the first `w` pixels in `h` rows from row `y` on, if the image has them. -/
def surface (image : Image) (w h y : Nat) : Option GRSurface :=
  if w ≤ image.width ∧ y + h ≤ image.height then
    some ⟨w, h, (List.range h).flatMap fun i => (row image (y + i)).take w⟩
  else none

/-- Two bytes of a row as a number, the low one first. -/
def short (row : List UInt8) (x : Nat) : Nat :=
  (row.getD (x + 1) 0).toNat * 256 + (row.getD x 0).toNat

/-- The loop of `res_create_localized_alpha_surface` from row `y` on. -/
def localizedFrom (image : Image) (locale : Text) : (fuel y : Nat) → Option GRSurface
  | 0, _ => none
  | fuel + 1, y =>
    if y < image.height then
      let w := short (row image y) 0
      let h := short (row image y) 2
      let loc := cString ((row image y).drop 5)
      if image.height ≤ y + 1 + h || matchesLocale loc locale then surface image w h (y + 1)
      else localizedFrom image locale fuel (y + 1 + h)
    else none

/-- `res_create_localized_alpha_surface`: the surface, if there is one. -/
def resCreateLocalizedAlphaSurface (image : Image) (locale : Text) : Option GRSurface :=
  localizedFrom image locale image.height 0

end Minui

end BootableRecovery
