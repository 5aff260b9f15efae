import BootableRecovery.Minui.LocaleTable

/-!
# The bounds of image surfaces

The loaders of `minui/resources.cpp` by the bytes that they touch: of the row buffer, and of the
surface, whose size they compute in 32 bits. Which images stay inside both (`loaders_right_iff`).
-/

namespace BootableRecovery.Minui.SurfaceBounds

open LocaleTable (Png readRows dataSize)

/-- `length` bytes are read or written from `offset` on in a buffer of `size` bytes. -/
structure Access where
  offset : Nat
  length : Nat
  size : Nat
  deriving DecidableEq

def Access.Inside (a : Access) : Prop := a.offset + a.length ≤ a.size

instance (a : Access) : Decidable a.Inside := inferInstanceAs (Decidable (_ ≤ _))

theorem inside_mk (offset length size : Nat) : (⟨offset, length, size⟩ : Access).Inside ↔
    offset + length ≤ size := Iff.rfl

/-- The header of an image that `PngHandler` has opened. `rowBytes` is what `png_read_row` writes of
a row: four bytes for a pixel at most, and one for a gray one. -/
structure PngHeader where
  width : Nat
  height : Nat
  channels : Nat
  rowBytes : Nat
  texts : List (Text × Option Text)
  width_pos : 0 < width
  height_pos : 0 < height
  width_le : width ≤ 1000000
  height_le : height ≤ 1000000
  channels_eq : channels = 1 ∨ channels = 3
  rowBytes_le : rowBytes ≤ 4 * width
  rowBytes_gray : channels = 1 → rowBytes = width

/-- Which allocations succeed, by their number and size; `malloc` gives no block of 2^63 bytes. -/
structure Heap where
  mallocs : (allocation size : Nat) → Bool
  callocs : Bool
  mallocs_lt : ∀ allocation size, mallocs allocation size = true → size < 2 ^ 63

/-- The result of a loader, if it returns, and the bytes that it has touched. `held` if it had the
memory for what it wanted to keep. -/
structure Outcome where
  code : Option Int
  accesses : List Access
  held : Bool

/-- Everything is inside of its buffer, and what cannot be held is rejected. -/
structure Outcome.Right (o : Outcome) : Prop where
  inside : ∀ a ∈ o.accesses, a.Inside
  rejected : o.held = false → ∀ code ∈ o.code, code < 0

/-- A product of two `png_uint_32`. -/
def mul32 (a b : Nat) : Nat := a * b % 2 ^ 32

/-- The size that `init_display_surface` asks for. -/
def displaySize (width height : Nat) : Nat := mul32 (mul32 width height) 4

/-- `transform_rgb_to_draw` of a row: what it reads of the row, and what it writes at an offset of
the surface. -/
def transformRgbToDraw (png : PngHeader) (offset size : Nat) : List Access :=
  match png.channels with
  | 1 => [⟨0, png.width, png.width * 4⟩, ⟨offset, png.width * 4, size⟩]
  | 3 => [⟨0, png.width * 3, png.width * 4⟩, ⟨offset, png.width * 4, size⟩]
  | 4 => [⟨0, png.width * 4, png.width * 4⟩, ⟨offset, png.width * 4, size⟩]
  | _ => []

section
variable (heap : Heap)

/-- `res_create_display_surface`; `png` is an error code if the file cannot be opened. -/
def resCreateDisplaySurface (png : Except Int PngHeader) : Outcome :=
  match png with
  | .error code => ⟨some code, [], true⟩
  | .ok png =>
    let size := displaySize png.width png.height
    if heap.mallocs 0 size then
      ⟨some 0, (List.range png.height).flatMap fun y =>
        ⟨0, png.rowBytes, png.width * 4⟩ :: transformRgbToDraw png (mul32 y (png.width * 4)) size,
          true⟩
    else ⟨some (-8), [], false⟩

/-- The frames and the frames per second in the text chunks. -/
def framesOf (texts : List (Text × Option Text)) : Int × Int :=
  texts.foldl (fun r text =>
    match text.2 with
    | none => r
    | some value =>
      if text.1 = "Frames".toList then (atoi value, r.2)
      else if text.1 = "FPS".toList then (r.1, atoi value)
      else r) (1, 20)

def resCreateMultiDisplaySurface (png : Except Int PngHeader) : Outcome :=
  match png with
  | .error code => ⟨some code, [], true⟩
  | .ok png =>
    let (frames, fps) := framesOf png.texts
    if frames ≤ 0 ∨ fps ≤ 0 then ⟨some (-10), [], true⟩
    else
      let frames := frames.toNat
      if png.height % frames ≠ 0 then ⟨some (-9), [], true⟩
      else if heap.callocs = false then ⟨some (-8), [], false⟩
      else
        let size := displaySize png.width (png.height / frames)
        if ∀ i < frames, heap.mallocs i size = true then
          ⟨some 0, (List.range png.height).flatMap fun y =>
            ⟨0, png.rowBytes, png.width * 4⟩ ::
              transformRgbToDraw png (mul32 (y / frames) (png.width * 4)) size, true⟩
        else ⟨some (-8), [], false⟩

/-- `res_create_alpha_surface`: the rows are read into the surface. -/
def resCreateAlphaSurface (png : Except Int PngHeader) : Outcome :=
  match png with
  | .error code => ⟨some code, [], true⟩
  | .ok png =>
    if png.channels ≠ 1 then ⟨some (-7), [], true⟩
    else
      let size := mul32 png.width png.height
      if heap.mallocs 0 size then
        ⟨some 0, (List.range png.height).map fun y => ⟨mul32 y png.width, png.rowBytes, size⟩, true⟩
      else ⟨some (-8), [], false⟩

/-- A header row of a localized image that is read, and how many rows of its picture are copied. -/
structure Visit where
  row : List UInt8
  copied : Nat

/-- The bytes that are touched: the first five of the row, its locale as a C string, and the copied
rows. -/
def Visit.accesses (width : Nat) (v : Visit) : List Access :=
  let w := short v.row 0
  let h := short v.row 2
  ⟨0, 5, width⟩ :: ⟨5, ((v.row.drop 5).takeWhile (· ≠ 0)).length + 1, width⟩ ::
    (List.range v.copied).flatMap fun i => [⟨0, w, width⟩, ⟨dataSize i w, w, dataSize w h⟩]

/-- The loop of `res_create_localized_alpha_surface`: the headers that are read, the code, and
whether the picture is held. It does not return if `png_read_row` has no row left. -/
def visits (regexMatch : Text → Text → Option Bool) (locale : Text) (height : Nat) :
    (fuel y : Nat) → List (List UInt8) → List Visit × Option Int × Bool
  | 0, _, _ => ([], none, true)
  | fuel + 1, y, unread =>
    if y < height then
      match unread with
      | [] => ([], none, true)
      | row :: unread =>
        let w := short row 0
        let h := short row 2
        match if height ≤ y + 1 + h then some true
          else LocaleTable.matchesLocale regexMatch (cString (row.drop 5)) locale with
        | none => ([⟨row, 0⟩], none, true)
        | some true =>
          if heap.mallocs 0 (dataSize w h) then
            ([⟨row, min h unread.length⟩], if h ≤ unread.length then some 0 else none, true)
          else ([⟨row, 0⟩], some (-8), false)
        | some false =>
          match readRows h unread with
          | none => ([⟨row, 0⟩], none, true)
          | some r =>
            let rest := visits regexMatch locale height fuel (y + h + 1) r.2
            (⟨row, 0⟩ :: rest.1, rest.2)
    else ([], some 0, true)

def resCreateLocalizedAlphaSurface (regexMatch : Text → Text → Option Bool) (png : Except Int Png)
    (locale : Option Text) : Outcome :=
  match locale, png with
  | none, _ => ⟨some 0, [], true⟩
  | some _, .error code => ⟨some code, [], true⟩
  | some locale, .ok png =>
    if png.channels ≠ 1 then ⟨some (-7), [], true⟩
    else
      let run := visits heap regexMatch locale png.height (png.height + 1) 0 png.rows
      ⟨run.2.1, run.1.flatMap (Visit.accesses png.width), run.2.2⟩

end

/-! ## Sizes in 32 bits -/

/-- Rows of `n` bytes are inside of a buffer for `h` of them if and only if no product has wrapped
around. -/
theorem rows_inside_iff {n h : Nat} (hn : 0 < n) : (∀ y < h, mul32 y n + n ≤ mul32 n h) ↔
    n * h < 2 ^ 32 := by
  constructor
  · intro hinside
    by_contra hwrap
    -- the first row that ends behind 2^32 starts in front of it
    obtain ⟨hlow, hhigh⟩ : (2 ^ 32 - 1) / n * n < 2 ^ 32 ∧ 2 ^ 32 ≤ (2 ^ 32 - 1) / n * n + n := by
      have hdiv := Nat.div_add_mod' (2 ^ 32 - 1) n
      have hmod := Nat.mod_lt (2 ^ 32 - 1) hn
      omega
    have hlt : (2 ^ 32 - 1) / n < h := by
      by_contra hge
      have hle := Nat.mul_le_mul_left n (Nat.le_of_not_lt hge)
      rw [Nat.mul_comm n (_ / n)] at hle
      omega
    have hrow := hinside _ hlt
    rw [mul32, mul32, Nat.mod_eq_of_lt hlow] at hrow
    have hsize := Nat.mod_lt (n * h) (by decide : 0 < 2 ^ 32)
    omega
  · intro hfits y hy
    have hle : y * n + n ≤ n * h := by
      rw [← Nat.succ_mul, Nat.mul_comm n h]
      exact Nat.mul_le_mul_right n hy
    rw [mul32, mul32, Nat.mod_eq_of_lt hfits, Nat.mod_eq_of_lt (by omega)]
    exact hle

theorem displaySize_eq (width height : Nat) :
    displaySize width height = mul32 (width * 4) height := by
  rw [displaySize, mul32, mul32, mul32, Nat.mod_mul_mod, Nat.mul_right_comm]

/-! ## The loaders -/

section
variable (heap : Heap)

/-- Images whose surfaces are as large as they must be. -/
def DisplayFits (png : PngHeader) : Prop :=
  heap.mallocs 0 (displaySize png.width png.height) = true → png.width * 4 * png.height < 2 ^ 32

def MultiDisplayFits (png : PngHeader) : Prop :=
  0 < (framesOf png.texts).1 → 0 < (framesOf png.texts).2 →
  (framesOf png.texts).1.toNat ∣ png.height →
    heap.callocs = true →
    (∀ i < (framesOf png.texts).1.toNat,
      heap.mallocs i (displaySize png.width (png.height / (framesOf png.texts).1.toNat)) = true) →
    png.width * 4 * (png.height / (framesOf png.texts).1.toNat) < 2 ^ 32

def AlphaFits (png : PngHeader) : Prop :=
  png.channels = 1 → heap.mallocs 0 (mul32 png.width png.height) = true →
  png.width * png.height < 2 ^ 32

/-- Every header that is read has a locale that ends in its row, and no row that is copied is
shorter than its picture. -/
def LocalizedFits (regexMatch : Text → Text → Option Bool) (png : Png) (locale : Text) : Prop :=
  png.channels = 1 → ∀ v ∈ (visits heap regexMatch locale png.height (png.height + 1) 0 png.rows).1,
    0 ∈ v.row.drop 5 ∧ (0 < v.copied → short v.row 0 ≤ png.width)

end

section
variable {heap : Heap} {png : PngHeader} {offset size : Nat}

theorem transform_inside_iff :
    (∀ a ∈ ⟨0, png.rowBytes, png.width * 4⟩ :: transformRgbToDraw png offset size, a.Inside) ↔
    offset + png.width * 4 ≤ size := by
  have hrow := png.rowBytes_le
  rw [transformRgbToDraw]
  rcases png.channels_eq with hchannels | hchannels <;> rw [hchannels] <;>
    simp only [List.forall_mem_cons, Access.Inside, List.not_mem_nil, false_implies, implies_true,
      and_true] <;> omega

theorem display_right_iff (png : PngHeader) :
    (resCreateDisplaySurface heap (.ok png)).Right ↔ DisplayFits heap png := by
  have hn : 0 < png.width * 4 := Nat.mul_pos png.width_pos (by decide)
  rw [resCreateDisplaySurface, DisplayFits]
  split
  · rename_i hmalloc
    rw [← rows_inside_iff hn, ← displaySize_eq]
    constructor
    · intro h _ y hy
      exact transform_inside_iff.mp fun a ha =>
        h.inside a (List.mem_flatMap.mpr ⟨y, List.mem_range.mpr hy, ha⟩)
    · intro h
      refine ⟨fun a ha => ?_, nofun⟩
      obtain ⟨y, hy, ha⟩ := List.mem_flatMap.mp ha
      exact transform_inside_iff.mpr (h hmalloc y (List.mem_range.mp hy)) a ha
  · rename_i hmalloc
    exact iff_of_true ⟨nofun, fun _ code hcode => by cases hcode; decide⟩ fun h => absurd h hmalloc

theorem alpha_right_iff (png : PngHeader) : (resCreateAlphaSurface heap (.ok png)).Right ↔
    AlphaFits heap png := by
  rw [resCreateAlphaSurface, AlphaFits]
  split
  · rename_i hchannels
    exact iff_of_true ⟨nofun, nofun⟩ fun h => absurd h hchannels
  · rename_i hchannels
    have hgray := png.rowBytes_gray (not_not.mp hchannels)
    dsimp only
    split
    · rename_i hmalloc
      rw [← rows_inside_iff png.width_pos]
      constructor
      · intro h _ _ y hy
        have hinside := h.inside _ (List.mem_map.mpr ⟨y, List.mem_range.mpr hy, rfl⟩)
        rwa [Access.Inside, hgray] at hinside
      · intro h
        refine ⟨fun a ha => ?_, nofun⟩
        obtain ⟨y, hy, rfl⟩ := List.mem_map.mp ha
        rw [Access.Inside, hgray]
        exact h (not_not.mp hchannels) hmalloc y (List.mem_range.mp hy)
    · rename_i hmalloc
      exact iff_of_true ⟨nofun, fun _ code hcode => by cases hcode; decide⟩ fun _ h =>
        absurd h hmalloc

theorem multiDisplay_right_iff (png : PngHeader) :
    (resCreateMultiDisplaySurface heap (.ok png)).Right ↔ MultiDisplayFits heap png := by
  have hn : 0 < png.width * 4 := Nat.mul_pos png.width_pos (by decide)
  rw [resCreateMultiDisplaySurface, MultiDisplayFits]
  dsimp only
  split
  · rename_i hbad
    refine iff_of_true ⟨nofun, nofun⟩ fun hframes hfps => ?_
    omega
  · split
    · rename_i hodd
      exact iff_of_true ⟨nofun, nofun⟩ fun _ _ hdvd => absurd (Nat.mod_eq_zero_of_dvd hdvd) hodd
    · rename_i hgood heven
      have hdvd := Nat.dvd_of_mod_eq_zero (not_not.mp heven)
      split
      · rename_i hcalloc
        refine iff_of_true ⟨nofun, fun _ code hcode => by cases hcode; decide⟩ fun _ _ _ h => ?_
        exact absurd (h.symm.trans hcalloc) (by decide)
      · rename_i hcalloc
        generalize hframes : (framesOf png.texts).1.toNat = frames at hdvd ⊢
        have hpos : 0 < frames := by omega
        split
        · rename_i hmalloc
          rw [← rows_inside_iff hn, ← displaySize_eq]
          constructor
          · intro h _ _ _ _ _ k hk
            -- the first row of a frame with this number
            have hrow : k * frames < png.height :=
              Nat.mul_comm frames k ▸ (Nat.lt_div_iff_mul_lt' hdvd k).mp hk
            have hinside := transform_inside_iff.mp fun a ha =>
              h.inside a (List.mem_flatMap.mpr ⟨k * frames, List.mem_range.mpr hrow, ha⟩)
            rwa [Nat.mul_div_cancel _ hpos] at hinside
          · intro h
            refine ⟨fun a ha => ?_, nofun⟩
            obtain ⟨y, hy, ha⟩ := List.mem_flatMap.mp ha
            have hk : y / frames < png.height / frames :=
              Nat.div_lt_div_of_lt_of_dvd hdvd (List.mem_range.mp hy)
            exact transform_inside_iff.mpr
              (h (by omega) (by omega) hdvd (Bool.eq_true_of_not_eq_false hcalloc) hmalloc _ hk)
                a ha
        · rename_i hmalloc
          exact iff_of_true ⟨nofun, fun _ code hcode => by cases hcode; decide⟩ fun _ _ _ _ h =>
            absurd h hmalloc

/-! ## The localized image -/

theorem short_lt (row : List UInt8) (x : Nat) : short row x < 2 ^ 16 := by
  have hlow := (row.getD x 0).toNat_lt
  have hhigh := (row.getD (x + 1) 0).toNat_lt
  rw [short]
  omega

/-- A picture that there is memory for is copied inside of its surface: its size has not become
negative. -/
theorem write_inside {w h i : Nat} (hmalloc : heap.mallocs 0 (dataSize w h) = true)
    (hw : w < 2 ^ 16) (hh : h < 2 ^ 16) (hi : i < h) :
    (⟨dataSize i w, w, dataSize w h⟩ : Access).Inside := by
  have hprod : w * h < 2 ^ 32 := by
    have hle : w * h ≤ (2 ^ 16 - 1) * (2 ^ 16 - 1) := Nat.mul_le_mul (by omega) (by omega)
    omega
  have hsize : w * h < 2 ^ 31 := by
    by_contra hlarge
    have hlt := heap.mallocs_lt _ _ hmalloc
    have hmod : w * h % 2 ^ 32 = w * h := Nat.mod_eq_of_lt hprod
    rw [dataSize, hmod, if_neg hlarge] at hlt
    omega
  have hrow : i * w + w ≤ w * h := by
    rw [← Nat.succ_mul, Nat.mul_comm w h]
    exact Nat.mul_le_mul_right w hi
  rw [Access.Inside, LocaleTable.dataSize_of_lt hsize, LocaleTable.dataSize_of_lt (by omega)]
  exact hrow

theorem length_takeWhile_lt_iff (l : List UInt8) : (l.takeWhile (· ≠ 0)).length < l.length ↔
    0 ∈ l := by
  induction l with
  | nil => simp
  | cons b l ih =>
    by_cases hb : b = 0
    · simp [hb]
    · rw [List.takeWhile_cons_of_pos (by simpa using hb), List.length_cons, List.length_cons,
        Nat.add_lt_add_iff_right, ih, List.mem_cons, or_iff_right (Ne.symm hb)]

/-- The header of a visit stands in a row of the image, and what is copied is a part of a picture
that is held. -/
structure Sound (heap : Heap) (width : Nat) (v : Visit) : Prop where
  length : v.row.length = width
  copied : 0 < v.copied → v.copied ≤ short v.row 2 ∧
    heap.mallocs 0 (dataSize (short v.row 0) (short v.row 2)) = true

theorem Sound.inside_iff {width : Nat} {v : Visit} (hv : Sound heap width v) :
    (∀ a ∈ v.accesses width, a.Inside) ↔
    0 ∈ v.row.drop 5 ∧ (0 < v.copied → short v.row 0 ≤ width) := by
  have hlen : (v.row.drop 5).length = width - 5 := by rw [List.length_drop, hv.length]
  have hloc := length_takeWhile_lt_iff (v.row.drop 5)
  rw [hlen] at hloc
  rw [Visit.accesses, List.forall_mem_cons, List.forall_mem_cons, inside_mk, inside_mk, ← hloc]
  constructor
  · rintro ⟨-, hend, hcopies⟩
    refine ⟨by omega, fun hpos => ?_⟩
    have hread := hcopies _ (List.mem_flatMap.mpr ⟨0, List.mem_range.mpr hpos, List.mem_cons_self⟩)
    rwa [Access.Inside, Nat.zero_add] at hread
  · rintro ⟨hend, hwidth⟩
    refine ⟨by omega, by omega, fun a ha => ?_⟩
    obtain ⟨i, hi, ha⟩ := List.mem_flatMap.mp ha
    have hpos : 0 < v.copied := Nat.zero_lt_of_lt (List.mem_range.mp hi)
    obtain ⟨hle, hmalloc⟩ := hv.copied hpos
    rcases List.mem_cons.mp ha with rfl | ha
    · rw [Access.Inside, Nat.zero_add]
      exact hwidth hpos
    · rw [List.mem_singleton.mp ha]
      exact write_inside hmalloc (short_lt ..) (short_lt ..)
        (Nat.lt_of_lt_of_le (List.mem_range.mp hi) hle)

theorem readRows_sub {n : Nat} {unread : List (List UInt8)}
    {r : List (List UInt8) × List (List UInt8)}
    (h : readRows n unread = some r) : ∀ row ∈ r.2, row ∈ unread := by
  induction n generalizing unread r with
  | zero =>
    cases h
    exact fun _ hrow => hrow
  | succ n ih =>
    cases unread with
    | nil => cases h
    | cons row unread =>
      obtain ⟨r', hr', rfl⟩ := Option.map_eq_some_iff.mp h
      exact fun row' hrow' => List.mem_cons_of_mem _ (ih hr' row' hrow')

/-- What the loop visits, and that it gives up only for a picture it cannot hold. -/
theorem visits_sound {regexMatch : Text → Text → Option Bool} {locale : Text}
    {height width fuel y : Nat}
    {unread : List (List UInt8)} (hrows : ∀ row ∈ unread, row.length = width) :
    (∀ v ∈ (visits heap regexMatch locale height fuel y unread).1, Sound heap width v) ∧
      ((visits heap regexMatch locale height fuel y unread).2.2 = false →
        ∀ code ∈ (visits heap regexMatch locale height fuel y unread).2.1, code < 0) := by
  induction fuel generalizing y unread with
  | zero => exact ⟨nofun, nofun⟩
  | succ fuel ih =>
    cases unread with
    | nil =>
      rw [visits]
      split <;> exact ⟨nofun, nofun⟩
    | cons row unread =>
      obtain ⟨hrow, hrows⟩ := List.forall_mem_cons.mp hrows
      have hheader : Sound heap width ⟨row, 0⟩ := ⟨hrow, nofun⟩
      rw [visits]
      split
      · dsimp only
        split
        · exact ⟨List.forall_mem_singleton.mpr hheader, nofun⟩
        · split
          · rename_i hmalloc
            exact ⟨List.forall_mem_singleton.mpr ⟨hrow, fun _ => ⟨Nat.min_le_left .., hmalloc⟩⟩,
              nofun⟩
          · exact ⟨List.forall_mem_singleton.mpr hheader, fun _ code hcode => by
              cases hcode; decide⟩
        · split
          · exact ⟨List.forall_mem_singleton.mpr hheader, nofun⟩
          · rename_i r hread
            obtain ⟨hvisits, hcode⟩ :=
              @ih (y + short row 2 + 1) r.2 fun row' hrow' =>
                hrows row' (readRows_sub hread row' hrow')
            exact ⟨List.forall_mem_cons.mpr ⟨hheader, hvisits⟩, hcode⟩
      · exact ⟨nofun, nofun⟩

theorem readRows_isSome (n : Nat) (unread : List (List UInt8)) : (readRows n unread).isSome ↔
    n ≤ unread.length := by
  induction n generalizing unread with
  | zero => simp [readRows]
  | succ n ih =>
    cases unread with
    | nil => simp [readRows]
    | cons row unread => simp [readRows, ih]

theorem visits_code (regexMatch : Text → Text → Option Bool) (locale : Text) (height fuel y : Nat)
    (unread : List (List UInt8)) : (visits heap regexMatch locale height fuel y unread).2.1 =
      (LocaleTable.localizedFrom regexMatch (heap.mallocs 0) locale height fuel y unread).map
      (·.code) := by
  induction fuel generalizing y unread with
  | zero => rfl
  | succ fuel ih =>
    cases unread with
    | nil =>
      rw [visits, LocaleTable.localizedFrom]
      split <;> rfl
    | cons row unread =>
      rw [visits, LocaleTable.localizedFrom]
      split
      · dsimp only
        generalize (if height ≤ y + 1 + short row 2 then some true else _ : Option Bool) = found
        cases found with
        | none => rfl
        | some found =>
          have hread := readRows_isSome (short row 2) unread
          cases found with
          | true =>
            simp only [Option.bind_some, if_true]
            split
            · cases hrows : readRows (short row 2) unread with
              | none =>
                rw [hrows] at hread
                simp only [if_neg fun hle => Bool.false_ne_true (hread.mpr hle), Option.map_none]
              | some r =>
                rw [hrows] at hread
                simp only [if_pos (hread.mp rfl), Option.map_some]
            · rfl
          | false =>
            cases hrows : readRows (short row 2) unread with
            | none => rfl
            | some r => exact ih ..
      · rfl

theorem localized_right_iff (regexMatch : Text → Text → Option Bool) (png : Png) (locale : Text) :
    (resCreateLocalizedAlphaSurface heap regexMatch (.ok png) (some locale)).Right ↔
      LocalizedFits heap regexMatch png locale := by
  obtain ⟨hsound, hcode⟩ :=
    @visits_sound heap regexMatch locale png.height png.width (png.height + 1) 0 png.rows
    png.length_row
  rw [resCreateLocalizedAlphaSurface, LocalizedFits]
  split
  · rename_i hchannels
    exact iff_of_true ⟨nofun, nofun⟩ fun h => absurd h hchannels
  · rename_i hchannels
    dsimp only
    constructor
    · intro h _ v hv
      exact (hsound v hv).inside_iff.mp fun a ha => h.inside a (List.mem_flatMap.mpr ⟨v, hv, ha⟩)
    · intro h
      refine ⟨fun a ha => ?_, hcode⟩
      obtain ⟨v, hv, ha⟩ := List.mem_flatMap.mp ha
      exact (hsound v hv).inside_iff.mpr (h (not_not.mp hchannels) v hv) a ha

end

/-- A loader stays inside of its buffers if and only if the sizes it computes in 32 bits have not
wrapped around, and in a localized image the headers and the widths are those of its rows. -/
theorem loaders_right_iff (heap : Heap) (regexMatch : Text → Text → Option Bool)
    (file : Except Int PngHeader) (table : Except Int Png) (locale : Option Text) :
    ((resCreateDisplaySurface heap file).Right ↔ ∀ png, file = .ok png → DisplayFits heap png) ∧
      ((resCreateMultiDisplaySurface heap file).Right ↔
        ∀ png, file = .ok png → MultiDisplayFits heap png) ∧
      ((resCreateAlphaSurface heap file).Right ↔ ∀ png, file = .ok png → AlphaFits heap png) ∧
      ((resCreateLocalizedAlphaSurface heap regexMatch table locale).Right ↔
        ∀ png loc, table = .ok png → locale = some loc →
        LocalizedFits heap regexMatch png loc) := by
  refine ⟨?_, ?_, ?_, ?_⟩
  · cases file with
    | error code => exact iff_of_true ⟨nofun, nofun⟩ nofun
    | ok png => simp only [Except.ok.injEq, forall_eq', display_right_iff]
  · cases file with
    | error code => exact iff_of_true ⟨nofun, nofun⟩ nofun
    | ok png => simp only [Except.ok.injEq, forall_eq', multiDisplay_right_iff]
  · cases file with
    | error code => exact iff_of_true ⟨nofun, nofun⟩ nofun
    | ok png => simp only [Except.ok.injEq, forall_eq', alpha_right_iff]
  · cases locale with
    | none => exact iff_of_true ⟨nofun, nofun⟩ nofun
    | some loc =>
      cases table with
      | error code => exact iff_of_true ⟨nofun, nofun⟩ nofun
      | ok png => simp [localized_right_iff]

/-- A display image of 32768 x 32768 pixels: its size in 32 bits is 0. -/
def hugePng : PngHeader where
  width := 32768
  height := 32768
  channels := 3
  rowBytes := 98304
  texts := []
  width_pos := by decide
  height_pos := by decide
  width_le := by decide
  height_le := by decide
  channels_eq := .inr rfl
  rowBytes_le := by decide
  rowBytes_gray := nofun

theorem not_display_right :
    ¬(resCreateDisplaySurface ⟨fun _ size => size < 2 ^ 63, true, fun _ _ h =>
      of_decide_eq_true h⟩ (.ok hugePng)).Right := by
  rw [display_right_iff]
  intro h
  exact absurd (h (by decide)) (by decide)

end BootableRecovery.Minui.SurfaceBounds
