import BootableRecovery.LibBase.Strings
import Mathlib.Algebra.Order.Ring.Nat

/-!
# Sets of block ranges

`RangeSet` of `otautil/rangeset.cpp`: half-open ranges of block numbers in the order in which they
were pushed. Empty and negative ranges cannot be pushed, which the structure keeps as a field.
-/

namespace BootableRecovery

/-- A half-open range of block numbers. -/
abbrev Range := Nat × Nat

/-- The largest `size_t`. -/
def SIZE_MAX : Nat := 2 ^ 64 - 1

/-- The block numbers of a range, in order. -/
def Range.toList (r : Range) : List Nat := List.range' r.1 (r.2 - r.1)

@[simp] theorem Range.mem_toList {r : Range} {b : Nat} : b ∈ Range.toList r ↔
    r.1 ≤ b ∧ b < r.2 := by
  simp only [Range.toList, List.mem_range'_1]
  omega

@[simp] theorem Range.length_toList (r : Range) : (Range.toList r).length = r.2 - r.1 := by
  simp [Range.toList]

/-- A list of non-empty ranges. -/
structure RangeSet where
  ranges : List Range
  nonempty : ∀ r ∈ ranges, r.1 < r.2
  deriving DecidableEq

namespace RangeSet

/-- The set without ranges, which also stands for an invalid text. -/
def empty : RangeSet := ⟨[], by simp⟩

instance : Inhabited RangeSet := ⟨empty⟩

/-- `operator bool`: there is a range. -/
def isValid (rs : RangeSet) : Bool := !rs.ranges.isEmpty

def blocks (rs : RangeSet) : Nat := (rs.ranges.map fun r => r.2 - r.1).sum

/-- All block numbers in order; `GetBlockNumber(i)` is entry `i`. -/
def toList (rs : RangeSet) : List Nat := rs.ranges.flatMap Range.toList

@[simp] theorem length_toList (rs : RangeSet) : rs.toList.length = rs.blocks := by
  simp [toList, blocks, List.length_flatMap]

theorem mem_toList {rs : RangeSet} {b : Nat} :
    b ∈ rs.toList ↔ ∃ r ∈ rs.ranges, r.1 ≤ b ∧ b < r.2 := by
  simp [toList]

def pushBack (rs : RangeSet) (range : Range) : Option RangeSet :=
  if h : range.1 < range.2 then
    if rs.blocks ≥ SIZE_MAX - (range.2 - range.1) then none
    else some ⟨rs.ranges ++ [range], by
      simp only [List.mem_append, List.mem_singleton]
      rintro r (hr | rfl)
      exacts [rs.nonempty r hr, h]⟩
  else none

/-- The constructor from a vector of pairs. -/
def ofPairs (pairs : List Range) : RangeSet := (pairs.foldlM pushBack empty).getD empty

/-- `ParseUint` with the maximum `INT_MAX`. -/
def parseBound (s : Text) : Option Nat := (parseUint s).filter (· ≤ INT_MAX)

/-- The pairs of bounds after the count. -/
def parsePairs : List Text → Option (List Range)
  | [] => some []
  | [_] => none
  | a :: b :: rest => do
    let first ← parseBound a
    let second ← parseBound b
    return (first, second) :: (← parsePairs rest)

/-- `RangeSet::Parse`: the empty set on errors. -/
def parse (s : Text) : RangeSet :=
  match s.splitOn ',' with
  | count :: bounds =>
    if bounds.length < 2 then empty
    else match parseBound count with
      | none => empty
      | some num =>
        if num = 0 ∨ num % 2 ≠ 0 ∨ num ≠ bounds.length then empty
        else ((parsePairs bounds).map ofPairs).getD empty
  | [] => empty

def toString (rs : RangeSet) : Text :=
  if rs.ranges = [] then []
  else Nat.toDigits 10 (rs.ranges.length * 2) ++ rs.ranges.flatMap fun r =>
    ',' :: Nat.toDigits 10 r.1 ++ ',' :: Nat.toDigits 10 r.2

/-- The loop of `GetBlockNumber`. -/
def blockAt : List Range → Nat → Option Nat
  | [], _ => none
  | range :: ranges, idx =>
    if idx < range.2 - range.1 then some (range.1 + idx)
    else blockAt ranges (idx - (range.2 - range.1))

/-- `GetBlockNumber`; `none` if a `CHECK` fails. -/
def getBlockNumber (rs : RangeSet) (idx : Nat) : Option Nat :=
  if idx < rs.blocks then blockAt rs.ranges idx else none

/-- The loop of `Split` that fills one group from the rest `range` of the range at the iterator
`it`; `none` if the iterator would go past the end. -/
def fillGroup (buffer : RangeSet) (range : Range) (it : List Range) (needed : Nat) :
    Option (RangeSet × Range × List Range) :=
  if needed = 0 then some (buffer, range, it)
  else if range.2 - range.1 > needed then
    -- the current range is split, and the iterator stays
    some ((buffer.pushBack (range.1, range.1 + needed)).getD buffer,
      (range.1 + needed, range.2), it)
  else match it with
    | [] => none
    | _ :: it =>
      fillGroup ((buffer.pushBack range).getD buffer) (it.head?.getD range) it
        (needed - (range.2 - range.1))

/-- The loop of `Split` over the numbers of blocks of the groups. -/
def splitLoop : List Nat → Range → List Range → Option (List RangeSet)
  | [], _, _ => some []
  | blocks :: rest, range, it => do
    let (buffer, range, it) ← fillGroup empty range it blocks
    return buffer :: (← splitLoop rest range it)

/-- `Split`; `none` if the iterator would go past the end. -/
def split (rs : RangeSet) (groups : Nat) : Option (List RangeSet) :=
  match rs.ranges with
  | [] => some []
  | range :: it =>
    if groups = 0 then some []
    else
      let groups := if rs.blocks < groups then rs.blocks else groups
      let mean := rs.blocks / groups
      splitLoop (List.replicate (rs.blocks % groups) (mean + 1) ++
        List.replicate (groups - rs.blocks % groups) mean) range (range :: it)

def overlaps (rs other : RangeSet) : Bool :=
  rs.ranges.any fun r => other.ranges.any fun o => !(o.1 ≥ r.2 || r.1 ≥ o.2)

theorem overlaps_iff {rs other : RangeSet} :
    rs.overlaps other = true ↔ ∃ b ∈ rs.toList, b ∈ other.toList := by
  simp only [overlaps, List.any_eq_true, Bool.not_eq_true', Bool.or_eq_false_iff,
    decide_eq_false_iff_not, ge_iff_le, Nat.not_le, mem_toList]
  constructor
  · rintro ⟨r, hr, o, ho, h₁, h₂⟩
    have hr' := rs.nonempty r hr
    have ho' := other.nonempty o ho
    exact ⟨max r.1 o.1, ⟨r, hr, by omega, by omega⟩, ⟨o, ho, by omega, by omega⟩⟩
  · rintro ⟨b, ⟨r, hr, h₁, h₂⟩, ⟨o, ho, h₃, h₄⟩⟩
    exact ⟨r, hr, o, ho, by omega, by omega⟩

theorem blocks_pos {rs : RangeSet} (h : rs.isValid = true) : 0 < rs.blocks := by
  rcases hr : rs.ranges with _ | ⟨r, rest⟩
  · simp [isValid, hr] at h
  · have := rs.nonempty r (by simp [hr])
    simp only [blocks, hr, List.map_cons, List.sum_cons]
    omega

example : (parse "4,1,3,7,8".toList).toList = [1, 2, 7] := by decide

end RangeSet

/-! ## Scattering packed blocks -/

/-- Overwrites the entries from position `p` on. -/
def overwriteAt (l : List α) (p : Nat) (xs : List α) : List α :=
  l.take p ++ xs ++ l.drop (p + xs.length)

theorem length_overwriteAt {l xs : List α} {n : Nat} (h : n + xs.length ≤ l.length) :
    (overwriteAt l n xs).length = l.length := by
  simp only [overwriteAt, List.length_append, List.length_take, List.length_drop]
  omega

theorem take_overwriteAt {l xs : List α} {n : Nat} (h : n ≤ l.length) :
    (overwriteAt l n xs).take (n + xs.length) = l.take n ++ xs := by
  have hlen : (l.take n ++ xs).length = n + xs.length := by
    rw [List.length_append, List.length_take, Nat.min_eq_left h]
  rw [overwriteAt, ← hlen, List.take_left]

/-- The loop of `MoveRange`, over the ranges from the last to the first. `source` gives the packed
data, which is the destination itself when both are one buffer. -/
def moveLoop (source : List α → List α) : List Range → Nat → List α → Option (List α)
  | [], _, dest => some dest
  | r :: rs, start, dest =>
    let n := r.2 - r.1
    if start ≤ (source dest).length ∧ r.2 ≤ dest.length then
      moveLoop source rs (start - n)
        (overwriteAt dest r.1 (((source dest).drop (start - n)).take n))
    else none

/-- `MoveRange` from another buffer; `none` if it leaves one of the buffers. -/
def moveRange (dest : List α) (locs : RangeSet) (source : List α) : Option (List α) :=
  moveLoop (fun _ => source) locs.ranges.reverse locs.blocks dest

/-- `MoveRange` with one buffer as source and destination. -/
def moveRangeInPlace (buffer : List α) (locs : RangeSet) : Option (List α) :=
  moveLoop id locs.ranges.reverse locs.blocks buffer

end BootableRecovery
