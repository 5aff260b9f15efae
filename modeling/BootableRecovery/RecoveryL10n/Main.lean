import BootableRecovery.Minui.Resources
import Mathlib.Data.List.Sort
import Mathlib.Logic.Function.Basic

/-!
# The images of localized texts

`onCreate` and `mergeBitmaps` of the app `recovery_l10n`, which renders a text in each locale and
writes the bitmaps into one image. A bitmap has gray pixels, black is 0.
-/

namespace BootableRecovery.RecoveryL10n

/-! ## Locales -/

/-- `java.util.Locale` with a language and a country. -/
structure Locale where
  language : Text
  country : Text
  deriving DecidableEq

/-- The language codes that a `Locale` has in their old form. -/
def oldISOCode (language : Text) : Text :=
  if language = ['h', 'e'] then ['i', 'w']
  else if language = ['y', 'i'] then ['j', 'i']
  else if language = ['i', 'd'] then ['i', 'n']
  else language

/-- The same language codes as a tag has them. -/
def newISOCode (language : Text) : Text :=
  if language = ['i', 'w'] then ['h', 'e']
  else if language = ['j', 'i'] then ['y', 'i']
  else if language = ['i', 'n'] then ['i', 'd']
  else language

/-- `Locale.forLanguageTag`, for a tag of a language, or a language and a country. -/
def forLanguageTag (tag : Text) : Locale :=
  ⟨oldISOCode (tag.takeWhile (· ≠ '-')), (tag.dropWhile (· ≠ '-')).drop 1⟩

namespace Locale

/-- `Locale.toLanguageTag`. -/
def toLanguageTag (loc : Locale) : Text :=
  newISOCode loc.language ++ if loc.country = [] then [] else '-' :: loc.country

/-- `Locale.toString`. -/
def toText (loc : Locale) : Text :=
  loc.language ++ if loc.country = [] then [] else '_' :: loc.country

end Locale

/-- `String.compareTo`. -/
def compareTo : Text → Text → Int
  | c :: s, d :: t => if c = d then compareTo s t else (c.toNat : Int) - d.toNat
  | s, t => (s.length : Int) - t.length

/-- The comparator of `onCreate`, which has `en` behind `en-US`. -/
def compare (s1 s2 : Text) : Int :=
  if s1 = s2 then 0
  else if s2.isPrefixOf s1 then -1
  else if s1.isPrefixOf s2 then 1
  else compareTo s1 s2

/-- The locales, in the order of `onCreate`. -/
def onCreate (localeNames : List Text) : List Locale :=
  ((localeNames.insertionSort fun s1 s2 => compare s1 s2 ≤ 0).filter fun localeName =>
    localeName ≠ []).map forLanguageTag

/-! ## Bitmaps -/

/-- `Bitmap.setPixel`, which throws beyond the bitmap. -/
def setPixel (out : Image) (x y : Nat) (v : UInt8) : Option Image :=
  if x < out.width ∧ y < out.height then
    some { out with pixel := fun x' y' => if x' = x ∧ y' = y then v else out.pixel x' y' }
  else none

/-- `Bitmap.setPixel`, one after another in a row. -/
def setRow (out : Image) (x y : Nat) : List UInt8 → Option Image
  | [] => some out
  | v :: vs => (setPixel out x y v).bind fun out => setRow out (x + 1) y vs

/-- `Bitmap.getPixels` of a whole bitmap, into the first elements of an array. -/
def getPixels (bm : Image) (pixels : Nat → UInt8) : Nat → UInt8 := fun k =>
  if k < bm.width * bm.height then bm.pixel (k % bm.width) (k / bm.width) else pixels k

/-- `Bitmap.setPixels` of an array from an offset on, with a stride, at the start of the rows from
`y` on. -/
def setPixels (out : Image) (pixels : Nat → UInt8) (offset stride y width height : Nat) :
    Option Image :=
  if width ≤ out.width ∧ y + height ≤ out.height then
    some { out with pixel := fun x' y' =>
      if x' < width ∧ y ≤ y' ∧ y' < y + height then pixels (offset + (y' - y) * stride + x')
        else out.pixel x' y' }
  else none

/-- `all_black` for a column. -/
def allBlack (pixels : Nat → UInt8) (w h x : Nat) : Bool :=
  (List.range h).all fun j => pixels (j * w + x) = 0

/-- The loop that moves `right` to the left. -/
def rightFrom (pixels : Nat → UInt8) (w h : Nat) : Nat → Nat
  | 0 => 0
  | 1 => 1
  | right + 2 =>
    if allBlack pixels w h (right + 1) then rightFrom pixels w h (right + 1) else right + 2

/-- The loop that moves `left` to the right, with the number of columns up to `right - 1`. -/
def leftFrom (pixels : Nat → UInt8) (w h : Nat) : (columns left : Nat) → Nat
  | 0, left => left
  | columns + 1, left =>
    if allBlack pixels w h left then leftFrom pixels w h columns (left + 1) else left

/-! ## The merged image -/

/-- What the loop of `mergeBitmaps` changes. -/
structure Merge where
  out : Image
  p : Nat
  pixels : Nat → UInt8
  countByLanguage : Text → Nat

/-- The first row of a text: its width and height, and the length of the language with the
language. -/
def header (tw h : Nat) (lang : Text) : List UInt8 :=
  [UInt8.ofNat (tw % 256), UInt8.ofNat (tw / 256), UInt8.ofNat (h % 256), UInt8.ofNat (h / 256),
    UInt8.ofNat lang.length] ++ Minui.getBytes lang ++ [0]

variable (savedBitmaps : Locale → Image)

/-- One round of the loop of `mergeBitmaps`. -/
def mergeBitmap (s : Merge) (loc : Locale) : Option Merge :=
  let bm := savedBitmaps loc
  let h := bm.height
  let w := bm.width
  let pixels := getPixels bm s.pixels
  let right := rightFrom pixels w h w
  let left := leftFrom pixels w h (right - 1) 0
  -- the last country variant of a language is the catch-all for the language
  let lang := if 1 < s.countByLanguage loc.language then loc.toText else loc.language
  let countByLanguage := if 1 < s.countByLanguage loc.language then
    Function.update s.countByLanguage loc.language (s.countByLanguage loc.language - 1)
      else s.countByLanguage
  let tw := right - left
  (setRow s.out 0 s.p (header tw h lang)).bind fun out =>
    (setPixels out pixels left w (s.p + 1) tw h).map fun out =>
      ⟨out, s.p + 1 + h, pixels, countByLanguage⟩

/-- The height of the merged image. -/
def mergedHeight (locales : List Locale) : Nat :=
  2 + (locales.map fun loc => (savedBitmaps loc).height + 1).sum

/-- The width of the merged image. -/
def mergedWidth (locales : List Locale) : Nat :=
  (locales.map fun loc => (savedBitmaps loc).width).foldl max 10

/-- The height of the highest bitmap. -/
def maxHeight (locales : List Locale) : Nat :=
  (locales.map fun loc => (savedBitmaps loc).height).foldl max 0

/-- The numbers of pixels are those of an `int`. -/
def Fits (locales : List Locale) : Prop :=
  mergedHeight savedBitmaps locales < 2 ^ 31 ∧
    maxHeight savedBitmaps locales * mergedWidth savedBitmaps locales < 2 ^ 31

instance (locales : List Locale) : Decidable (Fits savedBitmaps locales) :=
  inferInstanceAs (Decidable (_ ∧ _))

/-- `mergeBitmaps`: the image, unless something is thrown. -/
def mergeBitmaps (locales : List Locale) : Option Image :=
  if Fits savedBitmaps locales then
    let countByLanguage := fun lang => (locales.map Locale.language).count lang
    let out := ⟨mergedWidth savedBitmaps locales, mergedHeight savedBitmaps locales, fun _ _ => 0⟩
    (locales.foldlM (mergeBitmap savedBitmaps) ⟨out, 0, fun _ => 0, countByLanguage⟩).bind fun s =>
      -- a single black pixel for a locale that no language matches
      setRow s.out 0 s.p [1, 0, 1, 0, 0]
  else none

end BootableRecovery.RecoveryL10n
