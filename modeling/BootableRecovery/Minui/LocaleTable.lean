import BootableRecovery.Minui.Resources

/-!
# Tables of localized images

`get_locales_in_png` and `res_create_localized_alpha_surface` of `minui/resources.cpp` as they read
an image, row by row. An image is a table if it is one record after the other, each a header row and
the rows of its picture; there both stay at the start of a record (`tableRead`).
-/

namespace BootableRecovery.Minui.LocaleTable

/-- A PNG file that `PngHandler` has opened: what `png_read_row` gives, one row after the other.
`libpng` takes no image that is higher than 10^6, so that a row number does not overflow. -/
structure Png where
  width : Nat
  channels : Nat
  rows : List (List UInt8)
  length_row : ∀ row ∈ rows, row.length = width
  height_le : rows.length ≤ 1000000

def Png.height (png : Png) : Nat := png.rows.length

/-- A result with the rows that have not been read. -/
structure Loaded where
  code : Int
  surface : Option GRSurface
  unread : List (List UInt8)
  deriving DecidableEq

/-- `png_read_row`, `n` times: the rows, and those behind them. -/
def readRows : Nat → List (List UInt8) → Option (List (List UInt8) × List (List UInt8))
  | 0, unread => some ([], unread)
  | _ + 1, [] => none
  | n + 1, row :: unread => (readRows n unread).map fun r => (row :: r.1, r.2)

/-- The loop of `get_locales_in_png` in row `y`, with the locales from there on. -/
def localesFrom (height : Nat) : (fuel y : Nat) → List (List UInt8) →
    Option (List Text × List (List UInt8))
  | 0, _, _ => none
  | fuel + 1, y, unread =>
    if y < height then
      match unread with
      | [] => none
      | row :: unread =>
        let h := short row 2
        let loc := cString (row.drop 5)
        (readRows h unread).bind fun r =>
          (localesFrom height fuel (y + h + 1) r.2).map fun l =>
            ((if loc ≠ [] then [loc] else []) ++ l.1, l.2)
    else some ([], unread)

/-- `get_locales_in_png`, also with the rows that it does not read; `file` is the error code of a
file that cannot be opened. -/
def getLocalesInPng (file : Except Int Png) : Option (List Text × List (List UInt8)) :=
  match file with
  | .error _ => some ([], [])
  | .ok png =>
    if png.channels ≠ 1 then some ([], png.rows)
      else localesFrom png.height (png.height + 1) 0 png.rows

section
variable (regexMatch : Text → Text → Option Bool) (mallocs : Nat → Bool)

/-- `matches_locale`. `std::regex_match` with the text of an expression is a parameter; it throws if
the text is none. -/
def matchesLocale (header locale : Text) : Option Bool :=
  if header.isPrefixOf locale then some true
  else if '-' ∈ header then
    regexMatch locale (header.takeWhile (· ≠ '-') ++ "-[A-Za-z]*".toList ++
      header.dropWhile (· ≠ '-'))
  else some false

/-- `w * h`, an `int` that is passed as a `size_t`. -/
def dataSize (w h : Nat) : Nat :=
  let n := w * h % 2 ^ 32
  if n < 2 ^ 31 then n else n + (2 ^ 64 - 2 ^ 32)

/-- The loop of `res_create_localized_alpha_surface` in row `y`; `mallocs` if there is memory for so
many bytes. -/
def localizedFrom (locale : Text) (height : Nat) : (fuel y : Nat) → List (List UInt8) →
    Option Loaded
  | 0, _, _ => none
  | fuel + 1, y, unread =>
    if y < height then
      match unread with
      | [] => none
      | row :: unread =>
        let w := short row 0
        let h := short row 2
        let loc := cString (row.drop 5)
        (if height ≤ y + 1 + h then some true else matchesLocale regexMatch loc locale).bind
          fun found =>
          if found then
            if mallocs (dataSize w h) then
              (readRows h unread).map fun r =>
                ⟨0, some ⟨w, h, r.1.flatMap fun row => row.take w⟩, r.2⟩
            else some ⟨-8, none, unread⟩
          else (readRows h unread).bind fun r => localizedFrom locale height fuel (y + h + 1) r.2
    else some ⟨0, none, unread⟩

/-- `res_create_localized_alpha_surface`; without a result an expression has thrown, or a row has
been read that the image does not have. -/
def resCreateLocalizedAlphaSurface (file : Except Int Png) (locale : Option Text) : Option Loaded :=
  match locale, file with
  | none, .ok png => some ⟨0, none, png.rows⟩
  | none, .error _ => some ⟨0, none, []⟩
  | some _, .error code => some ⟨code, none, []⟩
  | some locale, .ok png =>
    if png.channels ≠ 1 then some ⟨-7, none, png.rows⟩
    else localizedFrom regexMatch mallocs locale png.height (png.height + 1) 0 png.rows

end

/-! ## Tables -/

/-- A record of a table that is `width` pixels wide. -/
structure Record (width : Nat) where
  header : List UInt8
  body : List (List UInt8)
  length_header : header.length = width
  height : short header 2 = body.length
  width_le : short header 0 ≤ width
  terminated : 0 ∈ header.drop 5

namespace Record

variable {width : Nat} (r : Record width)

def w : Nat := short r.header 0
def h : Nat := short r.header 2
def loc : Text := cString (r.header.drop 5)
def rows : List (List UInt8) := r.header :: r.body

/-- The picture of a record. -/
def surface : GRSurface := ⟨r.w, r.h, r.body.flatMap fun row => row.take r.w⟩

end Record

/-- An image that is a concatenation of records. -/
structure Table extends Png where
  channels_eq : channels = 1
  records : List (Record width)
  nonempty : records ≠ []
  rows_eq : rows = records.flatMap Record.rows

/-- A record is taken if it is the last one, or the first one that matches. -/
structure Taken (regexMatch : Text → Text → Option Bool) (locale : Text) {width : Nat}
    (records before : List (Record width)) (r : Record width) (after : List (Record width)) :
    Prop where
  records : records = before ++ r :: after
  before : ∀ q ∈ before, matchesLocale regexMatch q.loc locale = some false
  taken : after = [] ∨ matchesLocale regexMatch r.loc locale = some true

section
variable {width height fuel y : Nat} {regexMatch : Text → Text → Option Bool} {mallocs : Nat → Bool}
    {locale : Text}
  {records before after : List (Record width)} {r : Record width} {rows unread : List (List UInt8)}

theorem readRows_append (rows unread : List (List UInt8)) :
    readRows rows.length (rows ++ unread) = some (rows, unread) := by
  induction rows with
  | nil => rfl
  | cons row rows ih => rw [List.length_cons, List.cons_append, readRows, ih, Option.map_some]

theorem Record.length_rows (r : Record width) : r.rows.length = r.h + 1 := by
  rw [Record.rows, List.length_cons, Record.h, r.height]

theorem dataSize_of_lt {w h : Nat} (hsize : w * h < 2 ^ 31) : dataSize w h = w * h := by
  have hmod : w * h % 2 ^ 32 = w * h := Nat.mod_eq_of_lt (by omega)
  rw [dataSize, hmod]
  exact if_pos hsize

theorem localesFrom_end (unread : List (List UInt8)) :
    localesFrom y (fuel + 1) y unread = some ([], unread) := by
  cases unread <;> simp [localesFrom]

theorem localesFrom_record (r : Record width) (hy : y < height) :
    localesFrom height (fuel + 1) y (r.rows ++ unread) =
    (localesFrom height fuel (y + r.h + 1) unread).map
      fun l => ((if r.loc ≠ [] then [r.loc] else []) ++ l.1, l.2) := by
  rw [Record.rows, List.cons_append, localesFrom, if_pos hy]
  dsimp only
  rw [r.height, readRows_append, ← r.height]
  rfl

theorem localesFrom_records (hheight : height = y + (records.flatMap Record.rows).length)
    (hfuel : records.length < fuel) : localesFrom height fuel y (records.flatMap Record.rows) =
    some ((records.map Record.loc).filter (· ≠ []), []) := by
  induction records generalizing fuel y with
  | nil =>
    obtain ⟨fuel, rfl⟩ := Nat.exists_eq_add_one_of_ne_zero (Nat.ne_of_gt hfuel)
    obtain rfl : height = y := hheight
    exact localesFrom_end []
  | cons r records ih =>
    obtain ⟨fuel, rfl⟩ :=
      Nat.exists_eq_add_one_of_ne_zero (Nat.ne_of_gt (Nat.lt_of_le_of_lt (Nat.zero_le _) hfuel))
    rw [List.flatMap_cons, List.length_append, r.length_rows] at hheight
    rw [List.flatMap_cons, localesFrom_record r (by omega),
      ih (by omega) (Nat.lt_of_succ_lt_succ hfuel), Option.map_some, List.map_cons,
      List.filter_cons]
    by_cases hloc : r.loc = [] <;> simp [hloc]

theorem localizedFrom_record (r : Record width) (hy : y < height) :
    localizedFrom regexMatch mallocs locale height (fuel + 1) y (r.rows ++ unread) =
      (if height ≤ y + 1 + r.h then some true else matchesLocale regexMatch r.loc locale).bind
      fun found =>
        if found then
          if mallocs (dataSize r.w r.h) then some ⟨0, some r.surface, unread⟩
            else some ⟨-8, none, r.body ++ unread⟩
        else localizedFrom regexMatch mallocs locale height fuel (y + r.h + 1) unread := by
  rw [Record.rows, List.cons_append, localizedFrom, if_pos hy]
  dsimp only
  rw [r.height, readRows_append, ← r.height]
  rfl

theorem localizedFrom_records (htaken : Taken regexMatch locale records before r after)
    (hheight : height = y + (records.flatMap Record.rows).length) (hfuel : records.length < fuel)
    (hsize : r.w * r.h < 2 ^ 31) (hmalloc : mallocs (r.w * r.h) = true) :
    localizedFrom regexMatch mallocs locale height fuel y (records.flatMap Record.rows) =
      some ⟨0, some r.surface, after.flatMap Record.rows⟩ := by
  obtain ⟨hrecords, hbefore, htaken⟩ := htaken
  subst hrecords
  induction before generalizing fuel y with
  | nil =>
    obtain ⟨fuel, rfl⟩ :=
      Nat.exists_eq_add_one_of_ne_zero (Nat.ne_of_gt (Nat.lt_of_le_of_lt (Nat.zero_le _) hfuel))
    rw [List.nil_append, List.flatMap_cons, List.length_append, r.length_rows] at hheight
    have hfound :
        (if height ≤ y + 1 + r.h then some true else matchesLocale regexMatch r.loc locale) =
        some true := by
      rcases htaken with rfl | hmatch
      · exact if_pos (by rw [hheight]; simp; omega)
      · rw [hmatch]
        exact ite_self _
    rw [List.nil_append, List.flatMap_cons, localizedFrom_record r (by omega), hfound,
      dataSize_of_lt hsize, hmalloc]
    rfl
  | cons q before ih =>
    obtain ⟨fuel, rfl⟩ :=
      Nat.exists_eq_add_one_of_ne_zero (Nat.ne_of_gt (Nat.lt_of_le_of_lt (Nat.zero_le _) hfuel))
    rw [List.cons_append, List.flatMap_cons, List.length_append, q.length_rows] at hheight
    have hmore : 0 < ((before ++ r :: after).flatMap Record.rows).length := by
      simp [Record.length_rows, List.flatMap_append]
    have hfound :
        (if height ≤ y + 1 + q.h then some true else matchesLocale regexMatch q.loc locale) =
        some false := by
      rw [if_neg (by omega)]
      exact hbefore q List.mem_cons_self
    rw [List.cons_append, List.flatMap_cons, localizedFrom_record q (by omega), hfound]
    exact ih (fun q' hq' => hbefore q' (List.mem_cons_of_mem _ hq')) (by omega)
      (Nat.lt_of_succ_lt_succ hfuel)

theorem length_le_flatMap_rows (records : List (Record width)) :
    records.length ≤ (records.flatMap Record.rows).length := by
  induction records with
  | nil => exact Nat.le_refl _
  | cons r records ih =>
    rw [List.flatMap_cons, List.length_append, r.length_rows, List.length_cons]
    omega

theorem exists_taken (hne : records ≠ [])
    (hregex : ∀ q ∈ records, matchesLocale regexMatch q.loc locale ≠ none) :
    ∃ before r after, Taken regexMatch locale records before r after := by
  induction records with
  | nil => exact absurd rfl hne
  | cons r records ih =>
    by_cases hlast : records = []
    · exact ⟨[], r, [], by rw [hlast]; rfl, nofun, .inl rfl⟩
    · cases hmatch : matchesLocale regexMatch r.loc locale with
      | none => exact absurd hmatch (hregex r List.mem_cons_self)
      | some found =>
        cases found with
        | true => exact ⟨[], r, records, rfl, nofun, .inr hmatch⟩
        | false =>
          obtain ⟨before, r', after, htaken⟩ :=
            ih hlast fun q hq => hregex q (List.mem_cons_of_mem _ hq)
          refine ⟨r :: before, r', after, congrArg (r :: ·) htaken.records, fun q hq =>
            ?_, htaken.taken⟩
          rcases List.mem_cons.mp hq with rfl | hq
          · exact hmatch
          · exact htaken.before q hq

end

/-- What the two functions make of a table: all locales that are not empty, and the picture of the
record that is taken; the rows behind that record are not read. -/
theorem table_read (t : Table) (regexMatch : Text → Text → Option Bool) (mallocs : Nat → Bool)
    (locale : Text) :
    getLocalesInPng (.ok t.toPng) = some ((t.records.map Record.loc).filter (· ≠ []), []) ∧
      ((∀ q ∈ t.records, matchesLocale regexMatch q.loc locale ≠ none) →
        ∃ before r after, Taken regexMatch locale t.records before r after) ∧
      ∀ before r after, Taken regexMatch locale t.records before r after →
        r.w * r.h < 2 ^ 31 → mallocs (r.w * r.h) = true →
        resCreateLocalizedAlphaSurface regexMatch mallocs (.ok t.toPng) (some locale) =
          some ⟨0, some r.surface, after.flatMap Record.rows⟩ := by
  have hheight :
      t.height = 0 + (t.records.flatMap Record.rows).length := by
      rw [Png.height, t.rows_eq, Nat.zero_add]
  have hfuel : t.records.length < t.height + 1 := by
    have hle := length_le_flatMap_rows t.records
    omega
  have hchannels : ¬t.channels ≠ 1 := not_not_intro t.channels_eq
  refine ⟨?_, exists_taken t.nonempty, fun before r after htaken hsize hmalloc => ?_⟩
  · rw [getLocalesInPng, if_neg hchannels]
    conv_lhs => rw [t.rows_eq]
    exact localesFrom_records hheight hfuel
  · rw [resCreateLocalizedAlphaSurface, if_neg hchannels]
    conv_lhs => rw [t.rows_eq]
    exact localizedFrom_records htaken hheight hfuel hsize hmalloc

/-- Two records of one row each, for the locales `a` and `b`. -/
def twoLocales : Table where
  width := 7
  channels := 1
  rows := [[1, 0, 1, 0, 1, 97, 0], [255, 0, 0, 0, 0, 0, 0], [1, 0, 1, 0, 1, 98, 0],
    [127, 0, 0, 0, 0, 0, 0]]
  length_row := by decide
  height_le := by decide
  channels_eq := rfl
  records := [⟨[1, 0, 1, 0, 1, 97, 0], [[255, 0, 0, 0, 0, 0, 0]], rfl, rfl, by decide, by decide⟩,
    ⟨[1, 0, 1, 0, 1, 98, 0], [[127, 0, 0, 0, 0, 0, 0]], rfl, rfl, by decide, by decide⟩]
  nonempty := by decide
  rows_eq := rfl

theorem not_all_rows_read :
    (resCreateLocalizedAlphaSurface (fun _ _ => some false)
      (fun _ => true) (.ok twoLocales.toPng) (some "a".toList)).map Loaded.unread ≠ some [] := by
  decide

end BootableRecovery.Minui.LocaleTable
