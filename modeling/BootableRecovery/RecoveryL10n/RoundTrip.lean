import BootableRecovery.RecoveryL10n.Main
import Mathlib.Data.List.GetD
import Mathlib.Data.Nat.Find

/-!
# From the locales' bitmaps to the image and back

When `res_create_localized_alpha_surface` reads a locale's own bitmap from the image of
`mergeBitmaps`, cropped to the columns that are not black.
-/

namespace BootableRecovery.RecoveryL10n

open Minui

/-! ## Cropping -/

/-- A column of a bitmap has a pixel that is not black. -/
def IsDrawn (bm : Image) (x : Nat) : Prop := ∃ j < bm.height, bm.pixel x j ≠ 0

instance (bm : Image) : DecidablePred (IsDrawn bm) := fun x =>
  decidable_of_iff (∃ j : Fin bm.height, bm.pixel x j ≠ 0) ⟨fun ⟨j, h⟩ =>
    ⟨j, j.2, h⟩, fun ⟨j, hj, h⟩ => ⟨⟨j, hj⟩, h⟩⟩

/-- The last column that is drawn, 0 if none is. -/
def lastColumn (bm : Image) : Nat := Nat.findGreatest (IsDrawn bm) (bm.width - 1)

/-- The first column that is drawn. -/
def firstColumn (bm : Image) : Nat :=
  ((List.range (lastColumn bm)).find? fun x => IsDrawn bm x).getD (lastColumn bm)

/-- A bitmap from its first to its last column that is drawn. -/
def cropped (bm : Image) : GRSurface where
  width := lastColumn bm + 1 - firstColumn bm
  height := bm.height
  data := (List.range bm.height).flatMap fun j =>
    (List.range' (firstColumn bm) (lastColumn bm + 1 - firstColumn bm)).map fun x => bm.pixel x j

theorem getPixels_apply {bm : Image} {x j : Nat} (hx : x < bm.width) (hj : j < bm.height)
    (pixels : Nat → UInt8) : getPixels bm pixels (j * bm.width + x) = bm.pixel x j := by
  have hpos : 0 < bm.width := Nat.zero_lt_of_lt hx
  have hlt : j * bm.width + x < bm.width * bm.height := by
    calc
      j * bm.width + x < j * bm.width + bm.width := Nat.add_lt_add_left hx _
      _ = bm.width * (j + 1) := by rw [Nat.mul_succ, Nat.mul_comm]
      _ ≤ bm.width * bm.height := Nat.mul_le_mul_left _ hj
  rw [getPixels, if_pos hlt, Nat.mul_comm, Nat.mul_add_mod, Nat.mod_eq_of_lt hx,
    Nat.mul_add_div hpos, Nat.div_eq_of_lt hx, Nat.add_zero]

theorem allBlack_iff {bm : Image} {x : Nat} (hx : x < bm.width) (pixels : Nat → UInt8) :
    allBlack (getPixels bm pixels) bm.width bm.height x = true ↔ ¬IsDrawn bm x := by
  simp only [allBlack, List.all_eq_true, List.mem_range, decide_eq_true_eq, IsDrawn, not_exists,
    not_and, not_not]
  exact forall₂_congr fun j hj => by rw [getPixels_apply hx hj]

theorem rightFrom_eq {bm : Image} (pixels : Nat → UInt8) {n : Nat} (h : n < bm.width) :
    rightFrom (getPixels bm pixels) bm.width bm.height (n + 1) =
    Nat.findGreatest (IsDrawn bm) n + 1 := by
  induction n with
  | zero => rfl
  | succ n ih =>
    rw [rightFrom, Nat.findGreatest_succ]
    by_cases hdrawn : IsDrawn bm (n + 1)
    · rw [if_neg fun hblack => (allBlack_iff h pixels).mp hblack hdrawn, if_pos hdrawn]
    · rw [if_pos ((allBlack_iff h pixels).mpr hdrawn), if_neg hdrawn, ih (Nat.lt_of_succ_lt h)]

theorem leftFrom_eq {bm : Image} (pixels : Nat → UInt8) {columns left : Nat}
    (h : left + columns ≤ bm.width) :
    leftFrom (getPixels bm pixels) bm.width bm.height columns left =
      ((List.range' left columns).find? fun x => IsDrawn bm x).getD (left + columns) := by
  induction columns generalizing left with
  | zero => rfl
  | succ columns ih =>
    have hx : left < bm.width := by omega
    rw [leftFrom, List.range'_succ, List.find?_cons]
    by_cases hdrawn : IsDrawn bm left
    · rw [if_neg fun hblack => (allBlack_iff hx pixels).mp hblack hdrawn, decide_eq_true hdrawn]
      rfl
    · rw [if_pos ((allBlack_iff hx pixels).mpr hdrawn), decide_eq_false hdrawn, ih (by omega),
        Nat.add_right_comm]
      rfl

theorem lastColumn_lt {bm : Image} (h : 0 < bm.width) : lastColumn bm < bm.width :=
  Nat.lt_of_le_of_lt (Nat.findGreatest_le _) (Nat.sub_lt h Nat.one_pos)

theorem right_eq {bm : Image} (h : 0 < bm.width) (pixels : Nat → UInt8) :
    rightFrom (getPixels bm pixels) bm.width bm.height bm.width = lastColumn bm + 1 := by
  have hright := rightFrom_eq pixels (Nat.sub_lt h Nat.one_pos)
  rw [Nat.sub_add_cancel h] at hright
  exact hright

theorem left_eq {bm : Image} (h : 0 < bm.width) (pixels : Nat → UInt8) :
    leftFrom (getPixels bm pixels) bm.width bm.height (lastColumn bm) 0 = firstColumn bm := by
  rw [leftFrom_eq pixels (by rw [Nat.zero_add]; exact Nat.le_of_lt (lastColumn_lt h)), Nat.zero_add,
    firstColumn, List.range_eq_range']

/-! ## One text in the image -/

theorem setRow_eq {out : Image} {x y : Nat} {vs : List UInt8} (hx : x + vs.length ≤ out.width)
    (hy : y < out.height) : setRow out x y vs = some { out with
      pixel := fun x' y' =>
        if y' = y ∧ x ≤ x' ∧ x' < x + vs.length then vs.getD (x' - x) 0 else out.pixel x' y' } := by
  induction vs generalizing out x with
  | nil =>
    have hnone (x' y' : Nat) : ¬(y' = y ∧ x ≤ x' ∧ x' < x + ([] : List UInt8).length) := fun h => by
      rw [List.length_nil] at h
      omega
    simp only [setRow, hnone, if_false]
  | cons v vs ih =>
    rw [List.length_cons] at hx
    have hx' : x + 1 + vs.length ≤ out.width := by omega
    rw [setRow, setPixel, if_pos ⟨by omega, hy⟩]
    refine (@ih { out with pixel := fun x' y' => if x' = x ∧ y' = y then v else out.pixel x' y' } _
      hx' hy).trans ?_
    congr 2
    funext x' y'
    show (if y' = y ∧ x + 1 ≤ x' ∧ x' < x + 1 + vs.length then vs.getD (x' - (x + 1)) 0
        else if x' = x ∧ y' = y then v else out.pixel x' y') =
      if y' = y ∧ x ≤ x' ∧ x' < x + (vs.length + 1) then (v :: vs).getD (x' - x) 0
      else out.pixel x' y'
    rcases Nat.lt_trichotomy x' x with hlt | rfl | hgt
    · rw [if_neg (by omega), if_neg (by omega), if_neg (by omega)]
    · by_cases hrow : y' = y
      · rw [if_neg (by omega), if_pos ⟨rfl, hrow⟩, if_pos ⟨hrow, Nat.le_refl _, by omega⟩,
          Nat.sub_self]
        rfl
      · rw [if_neg (by omega), if_neg (by omega), if_neg (by omega)]
    · obtain ⟨k, rfl⟩ := Nat.exists_eq_add_of_lt hgt
      have hk : x + k + 1 - x = k + 1 := by omega
      have hk' : x + k + 1 - (x + 1) = k := by omega
      rw [hk, hk', List.getD_cons_succ]
      split
      · rw [if_pos (by omega)]
      · rw [if_neg (by omega), if_neg (by omega)]

theorem setPixels_eq {out : Image} {pixels : Nat → UInt8} {offset stride y width height : Nat}
    (hwidth : width ≤ out.width) (hheight : y + height ≤ out.height) :
    setPixels out pixels offset stride y width height = some { out with
      pixel := fun x' y' =>
        if x' < width ∧ y ≤ y' ∧ y' < y + height then pixels (offset + (y' - y) * stride + x')
        else out.pixel x' y' } :=
  if_pos ⟨hwidth, hheight⟩

/-- The image shows a surface in the rows below row `p`, which names a locale. -/
structure Shows (image : Image) (p : Nat) (name : Text) (surf : GRSurface) : Prop where
  width : short (row image p) 0 = surf.width
  height : short (row image p) 2 = surf.height
  name : cString ((row image p).drop 5) = name
  surface : surface image surf.width surf.height (p + 1) = some surf

theorem row_congr {image image' : Image} {y : Nat} (hwidth : image'.width = image.width)
    (h : ∀ x, image'.pixel x y = image.pixel x y) : row image' y = row image y := by
  rw [row, row, hwidth]
  exact List.map_congr_left fun x _ => h x

theorem surface_congr {image image' : Image} {w h y : Nat} (hwidth : image'.width = image.width)
    (hheight : image'.height = image.height)
    (hrow : ∀ i < h, row image' (y + i) = row image (y + i)) :
    surface image' w h y = surface image w h y := by
  rw [Minui.surface, Minui.surface, hwidth, hheight, List.flatMap_def, List.flatMap_def]
  congr 3
  refine congrArg List.flatten (List.map_congr_left fun i hi => ?_)
  rw [hrow i (List.mem_range.mp hi)]

theorem Shows.congr {image image' : Image} {p : Nat} {name : Text} {surf : GRSurface}
    (h : Shows image p name surf) (hwidth : image'.width = image.width)
    (hheight : image'.height = image.height)
    (hpixel : ∀ x y, p ≤ y → y < p + 1 + surf.height → image'.pixel x y = image.pixel x y) :
    Shows image' p name surf := by
  have hrow : row image' p = row image p :=
    row_congr hwidth fun x => hpixel x p (Nat.le_refl _) (by omega)
  refine ⟨?_, ?_, ?_, ?_⟩
  · rw [hrow, h.width]
  · rw [hrow, h.height]
  · rw [hrow, h.name]
  · rw [← h.surface]
    exact surface_congr hwidth hheight fun i hi => row_congr hwidth fun x =>
      hpixel x _ (by omega) (by omega)

/-- The name of a locale: ASCII characters. -/
def IsName (name : Text) : Prop := ∀ c ∈ name, 0 < c.toNat ∧ c.toNat < 128

theorem cString_getBytes {name : Text} (h : IsName name) (rest : List UInt8) :
    cString (getBytes name ++ 0 :: rest) = name := by
  have hbyte : ∀ c ∈ name, (UInt8.ofNat c.toNat).toNat = c.toNat := by
    intro c hc
    rw [UInt8.toNat_ofNat_of_lt']
    have := (h c hc).2
    simp [UInt8.size]
    omega
  have hstop : ∀ b ∈ getBytes name, b ≠ 0 := by
    intro b hb hzero
    obtain ⟨c, hc, rfl⟩ := List.mem_map.mp hb
    have := hbyte c hc
    rw [hzero] at this
    exact Nat.ne_of_gt (h c hc).1 this.symm
  rw [cString, List.takeWhile_append_of_pos (by simpa using hstop),
    List.takeWhile_cons_of_neg (by decide), List.append_nil, getBytes, List.map_map]
  refine (List.map_congr_left fun c hc => ?_).trans (List.map_id name)
  rw [Function.comp_apply, hbyte c hc, Char.ofNat_toNat]
  rfl

theorem row_of_header {image : Image} {p : Nat} {bytes : List UInt8}
    (hlen : bytes.length ≤ image.width) (h : ∀ x < bytes.length, image.pixel x p = bytes.getD x 0) :
    ∃ rest, row image p = bytes ++ rest := by
  obtain ⟨k, hk⟩ := Nat.exists_eq_add_of_le hlen
  have hfirst : ((List.range bytes.length).map fun x => image.pixel x p) = bytes := by
    refine List.ext_getElem (by simp) fun x hx hx' => ?_
    rw [List.getElem_map, List.getElem_range, h x hx', List.getD_eq_getElem _ _ hx']
  refine ⟨((List.range k).map (bytes.length + ·)).map fun x => image.pixel x p, ?_⟩
  rw [row, hk, List.range_add, List.map_append, hfirst]

theorem short_header {n : Nat} (h : n < 2 ^ 16) :
    (UInt8.ofNat (n / 256)).toNat * 256 + (UInt8.ofNat (n % 256)).toNat = n := by
  rw [UInt8.toNat_ofNat_of_lt' (by simp [UInt8.size]; omega),
    UInt8.toNat_ofNat_of_lt' (by simp [UInt8.size]; omega)]
  omega

/-- The columns of a cropped bitmap, as the loop finds them in the array. -/
theorem surface_of_pixels {image bm : Image} {p : Nat} {pixels : Nat → UInt8} (hpos : 0 < bm.width)
    (hwidth : bm.width ≤ image.width) (hheight : p + 1 + bm.height ≤ image.height)
    (h : ∀ x < lastColumn bm + 1 - firstColumn bm, ∀ i < bm.height,
      image.pixel x (p + 1 + i) = getPixels bm pixels (firstColumn bm + i * bm.width + x)) :
    surface image (lastColumn bm + 1 - firstColumn bm) bm.height (p + 1) = some (cropped bm) := by
  have hlast := lastColumn_lt hpos
  rw [Minui.surface, if_pos ⟨by omega, hheight⟩, cropped, List.flatMap_def, List.flatMap_def]
  congr 2
  refine congrArg List.flatten (List.map_congr_left fun i hi => ?_)
  rw [row, ← List.map_take, List.take_range, Nat.min_eq_left (by omega), List.range'_eq_map_range,
    List.map_map]
  refine List.map_congr_left fun x hx => ?_
  have hx := List.mem_range.mp hx
  rw [h x hx i (List.mem_range.mp hi), Function.comp_apply, Nat.add_right_comm, Nat.add_comm,
    getPixels_apply (by omega) (List.mem_range.mp hi)]

theorem length_header (tw h : Nat) (lang : Text) : (header tw h lang).length = lang.length + 6 := by
  simp [header, getBytes]

theorem shows_of_pixels {image bm : Image} {p : Nat} {lang : Text} {pixels : Nat → UInt8}
    (hname : IsName lang) (hlength : lang.length + 6 ≤ image.width) (hpos : 0 < bm.width)
    (hw : bm.width < 2 ^ 16) (hh : bm.height < 2 ^ 16) (hwidth : bm.width ≤ image.width)
    (hheight : p + 1 + bm.height ≤ image.height)
    (hheader : ∀ x < lang.length + 6, image.pixel x p =
      (header (cropped bm).width bm.height lang).getD x 0)
      (hbody : ∀ x < (cropped bm).width, ∀ i < bm.height, image.pixel x (p + 1 + i) =
        getPixels bm pixels (firstColumn bm + i * bm.width + x)) :
        Shows image p lang (cropped bm) := by
  have hlast := lastColumn_lt hpos
  have htw : (cropped bm).width < 2 ^ 16 := by
    show _ - _ < _
    omega
  rw [← length_header (cropped bm).width bm.height lang] at hlength hheader
  obtain ⟨rest, hrest⟩ := row_of_header hlength hheader
  refine ⟨?_, ?_, ?_, surface_of_pixels hpos hwidth hheight hbody⟩
  · rw [hrest]
    exact short_header htw
  · rw [hrest]
    exact short_header hh
  · rw [hrest, header, List.append_assoc, List.append_assoc]
    exact cString_getBytes hname rest

theorem mergeBitmap_spec {savedBitmaps : Locale → Image} {s : Merge} {loc : Locale} {lang : Text}
    (hlang : lang = if 1 < s.countByLanguage loc.language then loc.toText else loc.language)
    (hname : IsName lang) (hlength : lang.length + 6 ≤ s.out.width)
    (hpos : 0 < (savedBitmaps loc).width) (hw : (savedBitmaps loc).width < 2 ^ 16)
    (hh : (savedBitmaps loc).height < 2 ^ 16) (hout : (savedBitmaps loc).width ≤ s.out.width)
    (hroom : s.p + 1 + (savedBitmaps loc).height ≤ s.out.height) :
    ∃ s', mergeBitmap savedBitmaps s loc = some s' ∧ s'.p = s.p + 1 + (savedBitmaps loc).height ∧
      s'.out.width = s.out.width ∧ s'.out.height = s.out.height ∧
      (s'.countByLanguage = if 1 < s.countByLanguage loc.language then
        Function.update s.countByLanguage loc.language (s.countByLanguage loc.language - 1)
        else s.countByLanguage) ∧
      (∀ x y, y < s.p ∨ s'.p ≤ y → s'.out.pixel x y = s.out.pixel x y) ∧
      Shows s'.out s.p lang (cropped (savedBitmaps loc)) := by
  have hlast := lastColumn_lt hpos
  have hrowRoom :
      0 + (header (cropped (savedBitmaps loc)).width (savedBitmaps loc).height lang).length ≤
      s.out.width := by
    rw [length_header]
    omega
  have htw : lastColumn (savedBitmaps loc) + 1 - firstColumn (savedBitmaps loc) =
      (cropped (savedBitmaps loc)).width := rfl
  have hset := setRow_eq hrowRoom (show s.p < s.out.height by omega)
  simp only [mergeBitmap, right_eq hpos, Nat.add_sub_cancel, left_eq hpos, ← hlang, htw]
  rw [hset, Option.bind_some, setPixels_eq, Option.map_some]
  · refine ⟨_, rfl, rfl, rfl, rfl, rfl, fun x y hy => ?_, ?_⟩
    · dsimp only at hy ⊢
      rw [if_neg (by omega), if_neg (by omega)]
    · refine @shows_of_pixels _ _ _ _ s.pixels hname hlength hpos hw hh hout hroom (fun x hx => ?_)
        fun x hx i hi => ?_
      · dsimp only
        rw [if_neg (by omega), if_pos ⟨rfl, Nat.zero_le x, by rw [length_header]; omega⟩]
        rfl
      · dsimp only
        rw [if_pos ⟨hx, by omega, by omega⟩, Nat.add_sub_cancel_left]
  · show _ - _ ≤ s.out.width
    omega
  · exact hroom

/-! ## The whole image -/

/-- A bitmap as the app makes them. -/
structure Legal (bm : Image) : Prop where
  minWidth : 32 ≤ bm.width
  width : bm.width < 2 ^ 16
  minHeight : 1 ≤ bm.height
  height : bm.height < 2 ^ 16

/-- A locale of ASCII letters and digits, as a tag of a language and a country gives it. -/
structure Locale.Valid (loc : Locale) : Prop where
  language : 2 ≤ loc.language.length ∧ loc.language.length ≤ 8 ∧ ∀ c ∈ loc.language, 'a' ≤ c ∧
    c ≤ 'z'
  country : loc.country = [] ∨
    loc.country.length = 2 ∧ (∀ c ∈ loc.country, 'A' ≤ c ∧ c ≤ 'Z') ∨
    loc.country.length = 3 ∧ (∀ c ∈ loc.country, '0' ≤ c ∧ c ≤ '9')

/-- The name in front of a locale's text, where some locales are still to come. -/
def headerName (loc : Locale) (later : List Locale) : Text :=
  if loc.language ∈ later.map Locale.language then loc.toText else loc.language

/-- The texts of some locales, from row `p` on. -/
def Laid (savedBitmaps : Locale → Image) (image : Image) : (p : Nat) → List Locale → Prop
  | _, [] => True
  | p, loc :: later => Shows image p (headerName loc later) (cropped (savedBitmaps loc)) ∧
      Laid savedBitmaps image (p + 1 + (savedBitmaps loc).height) later

/-- The rows of the texts of some locales. -/
def textHeight (savedBitmaps : Locale → Image) (locales : List Locale) : Nat :=
  (locales.map fun loc => (savedBitmaps loc).height + 1).sum

theorem toNat_of_le {a b c : Char} (h : a ≤ c ∧ c ≤ b) : a.toNat ≤ c.toNat ∧ c.toNat ≤ b.toNat := h

namespace Locale.Valid

variable {loc : Locale} (h : loc.Valid) (later : List Locale)

include h

theorem toNat_language {c : Char} (hc : c ∈ loc.language) : 97 ≤ c.toNat ∧ c.toNat ≤ 122 :=
  toNat_of_le (h.language.2.2 c hc)

theorem toNat_country {c : Char} (hc : c ∈ loc.country) :
    48 ≤ c.toNat ∧ c.toNat ≤ 57 ∨ 65 ≤ c.toNat ∧ c.toNat ≤ 90 := by
  rcases h.country with hnil | ⟨-, hletters⟩ | ⟨-, hdigits⟩
  · simp [hnil] at hc
  · exact .inr (toNat_of_le (hletters c hc))
  · exact .inl (toNat_of_le (hdigits c hc))

theorem length_country : loc.country.length ≤ 3 := by
  rcases h.country with hnil | ⟨hlen, -⟩ | ⟨hlen, -⟩
  · simp [hnil]
  · omega
  · omega

theorem isName : IsName (headerName loc later) := by
  have hlanguage : IsName loc.language := fun c hc => by
    have := h.toNat_language hc
    omega
  unfold headerName
  split
  · intro c hc
    rcases List.mem_append.mp hc with hc | hc
    · exact hlanguage c hc
    · split at hc
      · simp at hc
      · rcases List.mem_cons.mp hc with rfl | hc
        · decide
        · have := h.toNat_country hc
          omega
  · exact hlanguage

theorem length_headerName : (headerName loc later).length ≤ 12 := by
  have hlanguage := h.language.2.1
  have hcountry := h.length_country
  unfold headerName
  split
  · rw [Locale.toText, List.length_append]
    split
    · rw [List.length_nil]
      omega
    · rw [List.length_cons]
      omega
  · omega

end Locale.Valid

theorem foldlM_mergeBitmap {savedBitmaps : Locale → Image} {locales : List Locale} {s : Merge}
    (hlegal : ∀ loc ∈ locales, Legal (savedBitmaps loc)) (hvalid : ∀ loc ∈ locales, loc.Valid)
    (hcount : ∀ loc ∈ locales, s.countByLanguage loc.language =
      (locales.map Locale.language).count loc.language)
      (hout : ∀ loc ∈ locales, (savedBitmaps loc).width ≤ s.out.width)
      (hroom : s.p + textHeight savedBitmaps locales ≤ s.out.height) :
      ∃ s', locales.foldlM (mergeBitmap savedBitmaps) s = some s' ∧
      s'.p = s.p + textHeight savedBitmaps locales ∧ s'.out.width = s.out.width ∧
      s'.out.height = s.out.height ∧
      (∀ x y, y < s.p ∨ s'.p ≤ y → s'.out.pixel x y = s.out.pixel x y) ∧
      Laid savedBitmaps s'.out s.p locales := by
  induction locales generalizing s with
  | nil => exact ⟨s, rfl, rfl, rfl, rfl, fun _ _ _ => rfl, trivial⟩
  | cons loc later ih =>
    simp only [List.forall_mem_cons] at hlegal hvalid hout
    obtain ⟨hbm, hlegal⟩ := hlegal
    obtain ⟨hloc, hvalid⟩ := hvalid
    have htotal : textHeight savedBitmaps (loc :: later) =
        (savedBitmaps loc).height + 1 + textHeight savedBitmaps later := rfl
    have hcountLoc :
        s.countByLanguage loc.language = (later.map Locale.language).count loc.language + 1 := by
      rw [hcount loc List.mem_cons_self, List.map_cons, List.count_cons_self]
    have hmore : 1 < s.countByLanguage loc.language ↔ loc.language ∈ later.map Locale.language := by
      rw [hcountLoc, ← List.count_pos_iff]
      exact Nat.succ_lt_succ_iff
    have hlang : headerName loc later = if 1 < s.countByLanguage loc.language then loc.toText
        else loc.language :=
      if_congr hmore.symm rfl rfl
    have hlength := hloc.length_headerName later
    have hmin := hbm.minWidth
    obtain ⟨s₁, hs₁, hp, hwidth, hheight, hcount₁, hkeep, hshows⟩ :=
      mergeBitmap_spec hlang (hloc.isName later)
      (by omega) (by omega) hbm.width hbm.height hout.1 (by omega)
    have hcount' : ∀ loc' ∈ later, s₁.countByLanguage loc'.language =
        (later.map Locale.language).count loc'.language := by
      intro loc' hloc'
      have hall := hcount loc' (List.mem_cons_of_mem _ hloc')
      have hmem : loc'.language ∈ later.map Locale.language := List.mem_map_of_mem hloc'
      rw [hcount₁]
      by_cases heq : loc'.language = loc.language
      · rw [if_pos (hmore.mpr (heq ▸ hmem)), heq, Function.update_self, hcountLoc,
          Nat.add_sub_cancel]
      · rw [List.map_cons, List.count_cons_of_ne (Ne.symm heq)] at hall
        split
        · rw [Function.update_of_ne heq, hall]
        · exact hall
    obtain ⟨s', hs', hp', hwidth', hheight', hkeep', hlaid⟩ := @ih s₁ hlegal hvalid hcount'
      (fun loc' hloc' => hwidth ▸ hout.2 loc' hloc') (by omega)
    refine ⟨s', ?_,
      by omega, hwidth'.trans hwidth, hheight'.trans hheight, fun x y hy => ?_, ?_, hp ▸ hlaid⟩
    · rw [List.foldlM_cons, hs₁]
      exact hs'
    · rw [hkeep' x y (by omega), hkeep x y (by omega)]
    · exact hshows.congr hwidth' hheight' fun x y _ hy => hkeep' x y (.inl (hp ▸ hy))

theorem Laid.congr {savedBitmaps : Locale → Image} {image image' : Image} {locales : List Locale}
    {p : Nat}
    (h : Laid savedBitmaps image p locales) (hwidth : image'.width = image.width)
    (hheight : image'.height = image.height)
    (hpixel : ∀ x y, y < p + textHeight savedBitmaps locales → image'.pixel x y = image.pixel x y) :
    Laid savedBitmaps image' p locales := by
  induction locales generalizing p with
  | nil => trivial
  | cons loc later ih =>
    have htotal : textHeight savedBitmaps (loc :: later) =
        (savedBitmaps loc).height + 1 + textHeight savedBitmaps later := rfl
    refine ⟨h.1.congr hwidth hheight fun x y _ hy => hpixel x y ?_, ih h.2 fun x y hy =>
      hpixel x y (by omega)⟩
    have hsurf : (cropped (savedBitmaps loc)).height = (savedBitmaps loc).height := rfl
    omega

/-- The image that stands for no text. -/
def blackPixel : GRSurface := ⟨1, 1, [0]⟩

theorem shows_blackPixel {image : Image} {p : Nat} (hwidth : 6 ≤ image.width)
    (hheight : p + 2 ≤ image.height) (hrow : ∀ x < 6, image.pixel x p = [1, 0, 1, 0, 0, 0].getD x 0)
    (hbody : image.pixel 0 (p + 1) = 0) : Shows image p [] blackPixel := by
  obtain ⟨rest, hrest⟩ := @row_of_header image p [1, 0, 1, 0, 0, 0] hwidth hrow
  refine ⟨?_, ?_, ?_, ?_⟩
  · rw [hrest]
    show (0 : UInt8).toNat * 256 + (1 : UInt8).toNat = 1
    decide
  · rw [hrest]
    show (0 : UInt8).toNat * 256 + (1 : UInt8).toNat = 1
    decide
  · rw [hrest]
    exact @cString_getBytes [] (List.forall_mem_nil _) rest
  · show Minui.surface image 1 1 (p + 1) = some ⟨1, 1, [0]⟩
    rw [Minui.surface, if_pos ⟨Nat.le_trans (by decide) hwidth, hheight⟩, List.range_one,
      List.flatMap_singleton, Nat.add_zero, row, ← List.map_take, List.take_range,
      Nat.min_eq_left (Nat.le_trans (by decide) hwidth), List.range_one, List.map_singleton, hbody]

theorem le_foldl_max (l : List Nat) (init : Nat) :
    init ≤ l.foldl max init ∧ ∀ n ∈ l, n ≤ l.foldl max init := by
  induction l generalizing init with
  | nil => exact ⟨Nat.le_refl _, fun n hn => nomatch hn⟩
  | cons a l ih =>
    obtain ⟨hinit, hmem⟩ := ih (max init a)
    refine ⟨Nat.le_trans (Nat.le_max_left init a) hinit, fun n hn => ?_⟩
    rcases List.mem_cons.mp hn with rfl | hn
    · exact Nat.le_trans (Nat.le_max_right init n) hinit
    · exact hmem n hn

theorem mergeBitmaps_spec {savedBitmaps : Locale → Image} {locales : List Locale}
    (hlegal : ∀ loc ∈ locales, Legal (savedBitmaps loc)) (hvalid : ∀ loc ∈ locales, loc.Valid)
    (hfits : Fits savedBitmaps locales) :
    ∃ image, mergeBitmaps savedBitmaps locales = some image ∧
      image.height = textHeight savedBitmaps locales + 2 ∧ Laid savedBitmaps image 0 locales ∧
      Shows image (textHeight savedBitmaps locales) [] blackPixel := by
  have hheight : mergedHeight savedBitmaps locales = textHeight savedBitmaps locales + 2 :=
    Nat.add_comm ..
  obtain ⟨hten, hwidths⟩ := le_foldl_max (locales.map fun loc => (savedBitmaps loc).width) 10
  rw [mergeBitmaps, if_pos hfits]
  obtain ⟨s, hs, hp, hwidth, hheight', hkeep, hlaid⟩ := @foldlM_mergeBitmap savedBitmaps locales
    ⟨⟨mergedWidth savedBitmaps locales, mergedHeight savedBitmaps locales, fun _ _ => 0⟩,
      0, fun _ => 0, fun lang => (locales.map Locale.language).count lang⟩ hlegal hvalid
      (fun _ _ => rfl)
    (fun loc hloc => hwidths _ (List.mem_map_of_mem hloc)) (by dsimp only; omega)
  dsimp only at hp hwidth hheight' hkeep hlaid
  rw [Nat.zero_add] at hp
  have hroom : s.p + 2 = s.out.height := by omega
  have hsix : 6 ≤ s.out.width := by
    rw [hwidth]
    exact Nat.le_trans (by decide) hten
  have hset := @setRow_eq s.out 0 s.p [1, 0, 1, 0, 0] (Nat.le_trans (by decide) hsix) (by omega)
  simp only [hs, Option.bind_some]
  rw [hset]
  refine ⟨_, rfl, ?_, ?_, ?_⟩
  · dsimp only
    omega
  · refine hlaid.congr rfl rfl fun x y hy => ?_
    dsimp only
    rw [if_neg (by omega)]
  · rw [← hp]
    refine shows_blackPixel hsix (Nat.le_of_eq hroom) (fun x hx => ?_) ?_
    · dsimp only
      rw [hkeep x s.p (.inr (Nat.le_refl _))]
      have hbytes : ∀ x < 6, (if x < 5 then [1, 0, 1, 0, 0].getD x 0 else 0) =
          ([1, 0, 1, 0, 0, 0] : List UInt8).getD x 0 := by decide
      rw [← hbytes x hx]
      simp
    · dsimp only
      rw [if_neg (by omega), hkeep 0 (s.p + 1) (.inr (Nat.le_succ _))]

/-- The locale whose text is taken for a tag. -/
def firstMatch (tag : Text) : List Locale → Option Locale
  | [] => none
  | loc :: later =>
    if matchesLocale (headerName loc later) tag then some loc else firstMatch tag later

theorem localizedFrom_shows {image : Image} {p fuel : Nat} {name tag : Text} {surf : GRSurface}
    (h : Shows image p name surf) (hp : p < image.height) :
    localizedFrom image tag (fuel + 1) p =
      if image.height ≤ p + 1 + surf.height || matchesLocale name tag then some surf
      else localizedFrom image tag fuel (p + 1 + surf.height) := by
  rw [localizedFrom, if_pos hp]
  simp only [h.width, h.height, h.name, h.surface]

theorem localizedFrom_laid {savedBitmaps : Locale → Image} {image : Image} {locales : List Locale}
    {tag : Text}
    {p fuel : Nat} (hlaid : Laid savedBitmaps image p locales)
    (hend : Shows image (p + textHeight savedBitmaps locales) [] blackPixel)
    (hheight : image.height = p + textHeight savedBitmaps locales + 2)
    (hfuel : locales.length < fuel) : localizedFrom image tag fuel p =
      some (((firstMatch tag locales).map fun loc =>
        cropped (savedBitmaps loc)).getD blackPixel) := by
  induction locales generalizing p fuel with
  | nil =>
    obtain ⟨fuel, rfl⟩ := Nat.exists_eq_succ_of_ne_zero (Nat.ne_of_gt hfuel)
    have hlast : p + textHeight savedBitmaps [] = p := rfl
    rw [hlast] at hend hheight
    rw [localizedFrom_shows hend (by omega), if_pos]
    · rfl
    · rw [Bool.or_eq_true]
      exact .inl (decide_eq_true (Nat.le_of_eq hheight))
  | cons loc later ih =>
    obtain ⟨fuel, rfl⟩ := Nat.exists_eq_succ_of_ne_zero (Nat.ne_of_gt (Nat.zero_lt_of_lt hfuel))
    obtain ⟨hshows, hlaid⟩ := hlaid
    have htotal : textHeight savedBitmaps (loc :: later) =
        (savedBitmaps loc).height + 1 + textHeight savedBitmaps later := rfl
    have hp : p + textHeight savedBitmaps (loc :: later) =
        p + 1 + (savedBitmaps loc).height + textHeight savedBitmaps later := by omega
    have hnext : ¬image.height ≤ p + 1 + (savedBitmaps loc).height := by omega
    rw [hp] at hend hheight
    rw [localizedFrom_shows hshows (by omega), firstMatch]
    show (if decide (image.height ≤ p + 1 + (savedBitmaps loc).height) || _ then _ else _) = _
    rw [decide_eq_false hnext, Bool.false_or]
    split
    · rfl
    · exact ih hlaid hend hheight (Nat.lt_of_succ_lt_succ hfuel)

theorem length_le_textHeight (savedBitmaps : Locale → Image) (locales : List Locale) :
    locales.length ≤ textHeight savedBitmaps locales := by
  induction locales with
  | nil => exact Nat.le_refl _
  | cons loc later ih =>
    have htotal : textHeight savedBitmaps (loc :: later) =
        (savedBitmaps loc).height + 1 + textHeight savedBitmaps later := rfl
    rw [List.length_cons]
    omega

/-- What is read for a tag is the text of the first locale whose name matches it. -/
theorem read_mergeBitmaps {savedBitmaps : Locale → Image} {locales : List Locale}
    (hlegal : ∀ loc ∈ locales, Legal (savedBitmaps loc)) (hvalid : ∀ loc ∈ locales, loc.Valid)
    (hfits : Fits savedBitmaps locales) :
    ∃ image, mergeBitmaps savedBitmaps locales = some image ∧ ∀ tag,
      resCreateLocalizedAlphaSurface image tag =
        some (((firstMatch tag locales).map fun loc =>
          cropped (savedBitmaps loc)).getD blackPixel) := by
  obtain ⟨image, himage, hheight, hlaid, hend⟩ := mergeBitmaps_spec hlegal hvalid hfits
  refine ⟨image, himage, fun tag => localizedFrom_laid hlaid ?_ ?_ ?_⟩
  · rw [Nat.zero_add]
    exact hend
  · rw [Nat.zero_add, hheight]
  · have hlength := length_le_textHeight savedBitmaps locales
    omega

/-! ## Tags and names -/

/-- A locale's text is under its language alone: it is the last of its language, or has no
country. -/
def NamedByLanguage (loc : Locale) (later : List Locale) : Prop :=
  loc.country = [] ∨ loc.language ∉ later.map Locale.language

theorem toNat_newISOCode {loc : Locale} (h : loc.Valid) {c : Char}
    (hc : c ∈ newISOCode loc.language) : 97 ≤ c.toNat ∧ c.toNat ≤ 122 := by
  unfold newISOCode at hc
  split at hc
  · revert c
    decide
  · split at hc
    · revert c
      decide
    · split at hc
      · revert c
        decide
      · exact h.toNat_language hc

theorem headerName_of_named {loc : Locale} {later : List Locale} (h : NamedByLanguage loc later) :
    headerName loc later = loc.language := by
  unfold headerName
  split
  · rename_i hmem
    rw [Locale.toText, if_pos (h.resolve_right fun hnone => hnone hmem), List.append_nil]
  · rfl

theorem headerName_of_not_named {loc : Locale} {later : List Locale}
    (h : ¬NamedByLanguage loc later) : '_' ∈ headerName loc later := by
  obtain ⟨hcountry, hlater⟩ := not_or.mp h
  rw [headerName, if_pos (not_not.mp hlater), Locale.toText, if_neg hcountry]
  exact List.mem_append_right _ List.mem_cons_self

theorem dash_notMem_headerName {loc : Locale} (h : loc.Valid) (later : List Locale) :
    '-' ∉ headerName loc later := by
  have hlanguage : '-' ∉ loc.language := fun hc => absurd (h.toNat_language hc).1 (by decide)
  intro hmem
  unfold headerName at hmem
  split at hmem
  · rcases List.mem_append.mp hmem with hmem | hmem
    · exact hlanguage hmem
    · split at hmem
      · simp at hmem
      · rcases List.mem_cons.mp hmem with heq | hmem
        · exact absurd heq (by decide)
        · exact absurd (h.toNat_country hmem) (by decide)
  · exact hlanguage hmem

theorem underscore_notMem_toLanguageTag {q : Locale} (h : q.Valid) : '_' ∉ q.toLanguageTag := by
  intro hmem
  rcases List.mem_append.mp hmem with hmem | hmem
  · exact absurd (toNat_newISOCode h hmem).1 (by decide)
  · split at hmem
    · simp at hmem
    · rcases List.mem_cons.mp hmem with heq | hmem
      · exact absurd heq (by decide)
      · exact absurd (h.toNat_country hmem) (by decide)

theorem prefix_toLanguageTag {q : Locale} {name : Text} (hdash : '-' ∉ name) :
    name <+: q.toLanguageTag ↔ name <+: newISOCode q.language := by
  refine ⟨fun h => ?_, fun h => h.trans (List.prefix_append ..)⟩
  rcases List.prefix_or_prefix_of_prefix h (List.prefix_append ..) with hle | ⟨rest, rfl⟩
  · exact hle
  · rw [Locale.toLanguageTag, List.prefix_append_right_inj] at h
    cases rest with
    | nil => rw [List.append_nil]
    | cons c rest =>
      split at h
      · exact absurd (List.prefix_nil.mp h) (List.cons_ne_nil c rest)
      · rw [(List.cons_prefix_cons.mp h).1] at hdash
        exact absurd (List.mem_append_right _ List.mem_cons_self) hdash

/-- A name matches a tag just if it is a language, and the tag's language starts with it. -/
theorem matchesLocale_headerName {loc q : Locale} (hloc : loc.Valid) (hq : q.Valid)
    (later : List Locale) : matchesLocale (headerName loc later) q.toLanguageTag = true ↔
      NamedByLanguage loc later ∧ loc.language <+: newISOCode q.language := by
  have hdash := dash_notMem_headerName hloc later
  rw [matchesLocale, if_neg hdash, Bool.or_false, List.isPrefixOf_iff_prefix,
    prefix_toLanguageTag hdash]
  by_cases hnamed : NamedByLanguage loc later
  · rw [headerName_of_named hnamed]
    exact (and_iff_right hnamed).symm
  · refine iff_of_false (fun hpre => ?_) fun h => hnamed h.1
    have hmem : '_' ∈ q.toLanguageTag :=
      (hpre.trans (List.prefix_append ..)).subset (headerName_of_not_named hnamed)
    exact underscore_notMem_toLanguageTag hq hmem

/-! ## The first match -/

theorem firstMatch_eq_some {tag : Text} {locales : List Locale} {q : Locale} :
    firstMatch tag locales = some q ↔ ∃ before after, locales = before ++ q :: after ∧
      matchesLocale (headerName q after) tag = true ∧ ∀ pre loc post, before = pre ++ loc :: post →
        ¬matchesLocale (headerName loc (post ++ q :: after)) tag = true := by
  induction locales with
  | nil => simp [firstMatch]
  | cons loc later ih =>
    rw [firstMatch]
    split
    · rename_i hmatch
      constructor
      · rintro ⟨⟩
        exact ⟨[], later, rfl, hmatch, fun pre loc post h => by simp at h⟩
      · rintro ⟨before, after, heq, -, hfirst⟩
        cases before with
        | nil =>
          cases heq
          rfl
        | cons first before =>
          cases heq
          exact absurd hmatch (hfirst [] loc before rfl)
    · rename_i hmatch
      rw [ih]
      constructor
      · rintro ⟨before, after, rfl, hq, hfirst⟩
        refine ⟨loc :: before, after, rfl, hq, fun pre loc' post heq => ?_⟩
        cases pre with
        | nil =>
          cases heq
          exact hmatch
        | cons first pre =>
          cases heq
          exact hfirst pre loc' post rfl
      · rintro ⟨before, after, heq, hq, hfirst⟩
        cases before with
        | nil =>
          cases heq
          exact absurd hq hmatch
        | cons first before =>
          cases heq
          exact ⟨before, after, rfl, hq, fun pre loc' post hbefore =>
            hfirst (loc :: pre) loc' post (congrArg (loc :: ·) hbefore)⟩

theorem firstMatch_eq_none {tag : Text} {locales : List Locale} :
    firstMatch tag locales = none ↔ ∀ pre loc post, locales = pre ++ loc :: post →
      ¬matchesLocale (headerName loc post) tag = true := by
  induction locales with
  | nil => simp [firstMatch]
  | cons loc later ih =>
    rw [firstMatch]
    split
    · rename_i hmatch
      exact iff_of_false (Option.some_ne_none loc) fun h => h [] loc later rfl hmatch
    · rename_i hmatch
      rw [ih]
      constructor
      · intro h pre loc' post heq
        cases pre with
        | nil =>
          cases heq
          exact hmatch
        | cons first pre =>
          cases heq
          exact h pre loc' post rfl
      · intro h pre loc' post heq
        exact h (loc :: pre) loc' post (congrArg (loc :: ·) heq)

theorem exists_last {locales : List Locale} {language : Text}
    (h : language ∈ locales.map Locale.language) : ∃ pre last post, locales = pre ++ last :: post ∧
    last.language = language ∧
      last.language ∉ post.map Locale.language := by
  induction locales with
  | nil => simp at h
  | cons loc later ih =>
    by_cases hlater : language ∈ later.map Locale.language
    · obtain ⟨pre, last, post, rfl, hlast, hpost⟩ := ih hlater
      exact ⟨loc :: pre, last, post, rfl, hlast, hpost⟩
    · have heq := (List.mem_cons.mp h).resolve_right hlater
      exact ⟨[], loc, later, rfl, heq.symm, heq ▸ hlater⟩

/-! ## Round trips -/

/-- For all bitmaps of the locales that fit into an image: a locale of the list reads its own
bitmap, cropped, and one whose language is not in the list reads the black pixel. -/
def RoundTrips (locales : List Locale) (q : Locale) : Prop :=
  ∀ savedBitmaps, (∀ loc ∈ locales, Legal (savedBitmaps loc)) → Fits savedBitmaps locales →
    ∃ image, mergeBitmaps savedBitmaps locales = some image ∧
      (q ∈ locales →
        resCreateLocalizedAlphaSurface image q.toLanguageTag = some (cropped (savedBitmaps q))) ∧
      (q.language ∉ locales.map Locale.language →
        resCreateLocalizedAlphaSurface image q.toLanguageTag = some blackPixel)

/-- The condition: a locale of the list is under its language alone, the tag has the language in the
same form, and no locale before it is under a language that its language starts with; and for a
language that is not in the list, it starts with no language of the list. -/
def Found (locales : List Locale) (q : Locale) : Prop :=
  (q ∈ locales → newISOCode q.language = q.language ∧ ∃ before after, locales =
    before ++ q :: after ∧ NamedByLanguage q after ∧ ∀ pre loc post, before = pre ++ loc :: post →
      NamedByLanguage loc (post ++ q :: after) → ¬loc.language <+: q.language) ∧
  (q.language ∉ locales.map Locale.language →
    ∀ loc ∈ locales, ¬loc.language <+: newISOCode q.language)

/-- A bitmap all white or all black. -/
def plain (v : UInt8) : Image := ⟨32, 1, fun _ _ => v⟩

theorem legal_plain (v : UInt8) : Legal (plain v) :=
  ⟨Nat.le_refl 32, show 32 < 2 ^ 16 by decide, Nat.le_refl 1, show 1 < 2 ^ 16 by decide⟩

theorem cropped_black : cropped (plain 0) = blackPixel := by decide

theorem cropped_white : cropped (plain 255) ≠ blackPixel := by decide

theorem foldl_max_le {l : List Nat} {init bound : Nat} (hinit : init ≤ bound)
    (h : ∀ n ∈ l, n ≤ bound) : l.foldl max init ≤ bound := by
  induction l generalizing init with
  | nil => exact hinit
  | cons a l ih =>
    exact ih (Nat.max_le.mpr ⟨hinit, h a List.mem_cons_self⟩) fun n hn =>
      h n (List.mem_cons_of_mem _ hn)

theorem fits_plain {locales : List Locale} (hroom : 2 * locales.length + 2 < 2 ^ 31)
    (v : Locale → UInt8) : Fits (fun loc => plain (v loc)) locales := by
  have hheight : maxHeight (fun loc => plain (v loc)) locales ≤ 1 :=
    foldl_max_le (by decide) (by simp [plain])
  have hwidth : mergedWidth (fun loc => plain (v loc)) locales ≤ 32 :=
    foldl_max_le (by decide) (by simp [plain])
  have hsum : mergedHeight (fun loc => plain (v loc)) locales = 2 + locales.length * 2 := by
    simp [mergedHeight, plain]
  constructor
  · rw [hsum]
    omega
  · calc
      _ ≤ 1 * 32 := Nat.mul_le_mul hheight hwidth
      _ < 2 ^ 31 := by decide

theorem roundTrips_iff_firstMatch {locales : List Locale} {q : Locale}
    (hvalid : ∀ loc ∈ locales, loc.Valid) (hroom : 2 * locales.length + 2 < 2 ^ 31) :
    RoundTrips locales q ↔ (q ∈ locales → firstMatch q.toLanguageTag locales = some q) ∧
      (q.language ∉ locales.map Locale.language → firstMatch q.toLanguageTag locales = none) := by
  constructor
  · intro h
    constructor
    · intro hq
      -- only the locale's own bitmap is white
      let v := fun loc => if loc = q then (255 : UInt8) else 0
      have hlegal : ∀ loc ∈ locales, Legal (plain (v loc)) := fun loc _ => legal_plain (v loc)
      obtain ⟨image, himage, hown, -⟩ := h _ hlegal (fits_plain hroom v)
      obtain ⟨image', himage', hread⟩ := read_mergeBitmaps hlegal hvalid (fits_plain hroom v)
      cases Option.some.inj (himage.symm.trans himage')
      have hwhite := Option.some.inj ((hread _).symm.trans (hown hq))
      have hv : v q = 255 := if_pos rfl
      rw [hv] at hwhite
      cases hfirst : firstMatch q.toLanguageTag locales with
      | none =>
        rw [hfirst] at hwhite
        exact absurd hwhite.symm cropped_white
      | some loc =>
        by_cases heq : loc = q
        · rw [heq]
        · have hblack : v loc = 0 := if_neg heq
          rw [hfirst, Option.map_some, Option.getD_some, hblack, cropped_black] at hwhite
          exact absurd hwhite.symm cropped_white
    · intro hq
      have hlegal : ∀ loc ∈ locales, Legal (plain 255) := fun _ _ => legal_plain 255
      obtain ⟨image, himage, -, hnone⟩ := h _ hlegal (fits_plain hroom fun _ => 255)
      obtain ⟨image', himage', hread⟩ :=
        read_mergeBitmaps hlegal hvalid (fits_plain hroom fun _ => 255)
      cases Option.some.inj (himage.symm.trans himage')
      have hblack := Option.some.inj ((hread _).symm.trans (hnone hq))
      cases hfirst : firstMatch q.toLanguageTag locales with
      | none => rfl
      | some loc =>
        rw [hfirst] at hblack
        exact absurd hblack cropped_white
  · rintro ⟨hown, hnone⟩ savedBitmaps hlegal hfits
    obtain ⟨image, himage, hread⟩ := read_mergeBitmaps hlegal hvalid hfits
    refine ⟨image, himage, fun hq => ?_, fun hq => ?_⟩
    · rw [hread, hown hq]
      rfl
    · rw [hread, hnone hq]
      rfl

theorem prefix_newISOCode {language : Text} : language <+: newISOCode language ↔
    newISOCode language = language := by
  refine ⟨fun h => (h.eq_of_length ?_).symm, fun h => h.symm ▸ List.prefix_rfl⟩
  unfold newISOCode
  split
  · simp [*]
  · split
    · simp [*]
    · split <;> simp [*]

/-- A locale reads its own text, or none, just if it meets the condition. -/
theorem roundTrips_iff {localeNames : List Text} {q : Locale}
    (hvalid : ∀ loc ∈ onCreate localeNames, loc.Valid) (hq : q.Valid)
    (hroom : 2 * (onCreate localeNames).length + 2 < 2 ^ 31) : RoundTrips (onCreate localeNames) q ↔
    Found (onCreate localeNames) q := by
  rw [roundTrips_iff_firstMatch hvalid hroom]
  generalize onCreate localeNames = locales at hvalid
  refine and_congr (forall_congr' fun hmem => ?_) (forall_congr' fun hmem => ?_)
  · rw [firstMatch_eq_some]
    constructor
    · rintro ⟨before, after, rfl, hown, hfirst⟩
      obtain ⟨hnamed, hcode⟩ := (matchesLocale_headerName hq hq after).mp hown
      rw [prefix_newISOCode] at hcode
      refine ⟨hcode, before, after, rfl, hnamed, fun pre loc post heq hloc hpre => ?_⟩
      have hmem : loc ∈ before ++ q :: after := by simp [heq]
      refine hfirst pre loc post heq
        ((matchesLocale_headerName (hvalid loc hmem) hq _).mpr ⟨hloc, ?_⟩)
      rw [hcode]
      exact hpre
    · rintro ⟨hcode, before, after, rfl, hnamed, hfirst⟩
      refine ⟨before, after, rfl,
        (matchesLocale_headerName hq hq after).mpr ⟨hnamed, prefix_newISOCode.mpr hcode⟩,
        fun pre loc post heq hmatch => ?_⟩
      have hmem : loc ∈ before ++ q :: after := by simp [heq]
      obtain ⟨hloc, hpre⟩ := (matchesLocale_headerName (hvalid loc hmem) hq _).mp hmatch
      rw [hcode] at hpre
      exact hfirst pre loc post heq hloc hpre
  · rw [firstMatch_eq_none]
    constructor
    · intro hnone loc hloc hpre
      obtain ⟨pre, last, post, rfl, hlast, hpost⟩ :=
        exists_last (List.mem_map_of_mem (f := Locale.language) hloc)
      refine hnone pre last post rfl
        ((matchesLocale_headerName (hvalid last (by simp)) hq post).mpr ⟨.inr hpost, ?_⟩)
      rw [hlast]
      exact hpre
    · rintro hnone pre loc post rfl hmatch
      have hmem : loc ∈ pre ++ loc :: post := by simp
      exact hnone loc hmem ((matchesLocale_headerName (hvalid loc hmem) hq post).mp hmatch).2

/-- German is read as German where English has two variants. -/
theorem roundTrips_german :
    RoundTrips (onCreate ["en".toList, "de-DE".toList, "en-US".toList]) ⟨['d', 'e'],
      ['D', 'E']⟩ := by
  have hlocales : onCreate ["en".toList, "de-DE".toList, "en-US".toList] =
      [⟨['d', 'e'], ['D', 'E']⟩, ⟨['e', 'n'], ['U', 'S']⟩, ⟨['e', 'n'], []⟩] := by decide
  have hvalid : ∀ loc ∈ onCreate ["en".toList, "de-DE".toList, "en-US".toList], loc.Valid := by
    rw [hlocales]
    simp only [List.forall_mem_cons]
    exact ⟨⟨by decide, by decide⟩, ⟨by decide, by decide⟩, ⟨by decide, by decide⟩,
      List.forall_mem_nil _⟩
  refine (roundTrips_iff hvalid ⟨by decide, by decide⟩ (by rw [hlocales]; decide)).mpr ?_
  rw [hlocales]
  refine ⟨fun _ => ⟨by decide, [], _, rfl, .inr (by decide), fun pre loc post h => ?_⟩, fun h =>
    absurd h (by decide)⟩
  simp at h

/-- British English is read as American English: the name `en_GB` does not match the tag `en-GB`. -/
theorem not_roundTrips_british :
    ¬RoundTrips (onCreate ["en-US".toList, "en-GB".toList]) ⟨['e', 'n'], ['G', 'B']⟩ := by
  have hlocales : onCreate ["en-US".toList, "en-GB".toList] =
      [⟨['e', 'n'], ['G', 'B']⟩, ⟨['e', 'n'], ['U', 'S']⟩] := by decide
  rw [hlocales, roundTrips_iff_firstMatch ?_ (by decide)]
  · rintro ⟨hown, -⟩
    exact absurd (hown (by decide)) (by decide)
  · simp only [List.forall_mem_cons]
    exact ⟨⟨by decide, by decide⟩, ⟨by decide, by decide⟩, List.forall_mem_nil _⟩

end BootableRecovery.RecoveryL10n
