import BootableRecovery.OtaUtil.RangeSet
import Mathlib.Data.List.Sort

/-!
# Sorted sets of block ranges

`SortedRangeSet` of `otautil/rangeset.cpp`: ranges in ascending order with a gap between any two of
them, which the structure keeps as a field. `Insert` is the union of two such sets.
-/

namespace BootableRecovery

/-- The order of `std::sort` on ranges. -/
def Range.Before (a b : Range) : Prop := a.1 < b.1 ∨ a.1 = b.1 ∧ a.2 ≤ b.2

instance : DecidableRel Range.Before := fun a b =>
  inferInstanceAs (Decidable (a.1 < b.1 ∨ a.1 = b.1 ∧ a.2 ≤ b.2))

instance : Std.Total Range.Before := ⟨fun a b => by unfold Range.Before; omega⟩

instance : IsTrans Range Range.Before := ⟨fun a b c => by unfold Range.Before; omega⟩

/-- The loop of `Insert`, which trims overlaps; `cur` is the range to be inserted next. -/
def coalesce (cur : Range) : List Range → List Range
  | [] => [cur]
  | r :: rs => if r.1 ≤ cur.2 then coalesce (cur.1, max cur.2 r.2) rs else cur :: coalesce r rs

/-- The ranges after the loop of `Insert` over a sorted list. -/
def coalesceAll : List Range → List Range
  | [] => []
  | r :: rs => coalesce r rs

section
variable {cur : Range} {l : List Range}

theorem nonempty_coalesce (h : ∀ r ∈ cur :: l, r.1 < r.2) : ∀ r ∈ coalesce cur l, r.1 < r.2 := by
  induction l generalizing cur with
  | nil => exact h
  | cons r l ih =>
    rw [List.forall_mem_cons, List.forall_mem_cons] at h
    obtain ⟨hcur, hr, hl⟩ := h
    rw [coalesce]
    split
    · exact ih (List.forall_mem_cons.mpr ⟨Nat.lt_of_lt_of_le hcur (Nat.le_max_left ..), hl⟩)
    · exact List.forall_mem_cons.mpr ⟨hcur, ih (List.forall_mem_cons.mpr ⟨hr, hl⟩)⟩

theorem le_of_mem_coalesce (h : (cur :: l).Pairwise fun a b => a.1 ≤ b.1) :
    ∀ r ∈ coalesce cur l, cur.1 ≤ r.1 := by
  induction l generalizing cur with
  | nil => simp [coalesce]
  | cons r l ih =>
    rw [List.pairwise_cons, List.forall_mem_cons] at h
    obtain ⟨⟨hr, hcur⟩, hl⟩ := h
    rw [coalesce]
    split
    · have hmax : ((cur.1, max cur.2 r.2) :: l).Pairwise fun a b => a.1 ≤ b.1 :=
        List.pairwise_cons.mpr ⟨hcur, (List.pairwise_cons.mp hl).2⟩
      exact ih hmax
    · rw [List.forall_mem_cons]
      exact ⟨Nat.le_refl _, fun s hs => Nat.le_trans hr (ih hl s hs)⟩

theorem sorted_coalesce (h : (cur :: l).Pairwise fun a b => a.1 ≤ b.1) :
    (coalesce cur l).Pairwise fun a b => a.2 < b.1 := by
  induction l generalizing cur with
  | nil => exact List.pairwise_singleton _ _
  | cons r l ih =>
    rw [List.pairwise_cons, List.forall_mem_cons] at h
    obtain ⟨⟨hr, hcur⟩, hl⟩ := h
    rw [coalesce]
    split
    · exact ih (List.pairwise_cons.mpr ⟨hcur, (List.pairwise_cons.mp hl).2⟩)
    · rename_i hgap
      refine List.pairwise_cons.mpr ⟨fun s hs => ?_, ih hl⟩
      have := le_of_mem_coalesce hl s hs
      omega

theorem mem_coalesce {b : Nat} (h : (cur :: l).Pairwise fun a b => a.1 ≤ b.1) :
    (∃ r ∈ coalesce cur l, r.1 ≤ b ∧ b < r.2) ↔ ∃ r ∈ cur :: l, r.1 ≤ b ∧ b < r.2 := by
  induction l generalizing cur with
  | nil => rfl
  | cons r l ih =>
    rw [List.pairwise_cons, List.forall_mem_cons] at h
    obtain ⟨⟨hr, hcur⟩, hl⟩ := h
    rw [coalesce]
    split
    · have hmax : ((cur.1, max cur.2 r.2) :: l).Pairwise fun a b => a.1 ≤ b.1 :=
        List.pairwise_cons.mpr ⟨hcur, (List.pairwise_cons.mp hl).2⟩
      rw [ih hmax, List.exists_mem_cons_iff, List.exists_mem_cons_iff, List.exists_mem_cons_iff,
        ← or_assoc]
      apply or_congr_left
      dsimp only
      omega
    · rw [List.exists_mem_cons_iff, ih hl, List.exists_mem_cons_iff (l := r :: l)]

end

/-- Ranges in ascending order that do not touch each other. -/
structure SortedRangeSet extends RangeSet where
  sorted : ranges.Pairwise fun a b => a.2 < b.1
  deriving DecidableEq

namespace SortedRangeSet

/-- The block size when working with offset and file length. -/
def kBlockSize : Nat := 4096

def empty : SortedRangeSet := ⟨RangeSet.empty, List.Pairwise.nil⟩

instance : Inhabited SortedRangeSet := ⟨empty⟩

theorem ranges_ofPairs_singleton (r : Range) :
    (RangeSet.ofPairs [r]).ranges = if r.1 < r.2 ∧ r.2 - r.1 < SIZE_MAX then [r] else [] := by
  have hblocks : RangeSet.empty.blocks = 0 := rfl
  have hsize : 0 < SIZE_MAX := by decide
  simp only [RangeSet.ofPairs, List.foldlM_cons, List.foldlM_nil, RangeSet.pushBack, hblocks]
  by_cases hlt : r.1 < r.2
  · by_cases hbig : 0 ≥ SIZE_MAX - (r.2 - r.1)
    · rw [dif_pos hlt, if_pos hbig, if_neg (by omega)]
      rfl
    · rw [dif_pos hlt, if_neg hbig, if_pos (by omega)]
      rfl
  · rw [dif_neg hlt, if_neg (by omega)]
    rfl

/-- The constructor from a vector, for one range. -/
def singleton (r : Range) : SortedRangeSet where
  toRangeSet := RangeSet.ofPairs [r]
  sorted := by
    rw [ranges_ofPairs_singleton]
    split
    · exact List.pairwise_singleton _ _
    · exact List.Pairwise.nil

theorem pairwise_insertionSort_le (l : List Range) :
    (l.insertionSort Range.Before).Pairwise fun a b => a.1 ≤ b.1 := by
  apply (List.pairwise_insertionSort Range.Before l).imp
  intro a b h
  unfold Range.Before at h
  omega

/-- `Insert` of another set. -/
def insert (rs other : SortedRangeSet) : SortedRangeSet :=
  if other.ranges = [] then rs
  else {
    ranges := coalesceAll ((rs.ranges ++ other.ranges).insertionSort Range.Before)
    nonempty := by
      have h : ∀ r ∈ (rs.ranges ++ other.ranges).insertionSort Range.Before, r.1 < r.2 := by
        intro r hr
        rw [List.mem_insertionSort, List.mem_append] at hr
        exact hr.elim (rs.nonempty r) (other.nonempty r)
      cases hs : (rs.ranges ++ other.ranges).insertionSort Range.Before with
      | nil => simp [coalesceAll]
      | cons r l => exact nonempty_coalesce (hs ▸ h)
    sorted := by
      have h := pairwise_insertionSort_le (rs.ranges ++ other.ranges)
      cases hs : (rs.ranges ++ other.ranges).insertionSort Range.Before with
      | nil => exact List.Pairwise.nil
      | cons r l => exact sorted_coalesce (hs ▸ h) }

/-- The blocks that `len` bytes from `start` on occupy. The sum can wrap around. -/
def blockRange (start len : Nat) : Range :=
  (start / kBlockSize, (start + len + 2 ^ 64 - 1) % 2 ^ 64 / kBlockSize + 1)

/-- `Insert` of the blocks of a part of a file. -/
def insertFile (rs : SortedRangeSet) (start len : Nat) : SortedRangeSet :=
  rs.insert (singleton (blockRange start len))

/-- `Overlaps` with the blocks of a part of a file. -/
def overlapsFile (rs : SortedRangeSet) (start len : Nat) : Bool :=
  rs.overlaps (RangeSet.ofPairs [blockRange start len])

/-- The loop of `GetOffsetInRangeSet`. -/
def newBlockStart (oldBlockStart : Nat) : List Range → Nat → Option Nat
  | [], _ => none
  | r :: rs, n =>
    if oldBlockStart ≥ r.2 then newBlockStart oldBlockStart rs (n + (r.2 - r.1))
    else if oldBlockStart ≥ r.1 then some (n + (oldBlockStart - r.1))
    else none

/-- `GetOffsetInRangeSet`; `none` if a `CHECK` fails. -/
def getOffsetInRangeSet (rs : SortedRangeSet) (oldOffset : Nat) : Option Nat :=
  (newBlockStart (oldOffset / kBlockSize) rs.ranges 0).map
    fun n => n * kBlockSize + oldOffset % kBlockSize

/-! ## The blocks of a set -/

variable {rs other : SortedRangeSet} {b start len : Nat}

/-- Block `b` is in the set. -/
instance : Membership Nat SortedRangeSet := ⟨fun rs b => b ∈ rs.toList⟩

theorem mem_iff : b ∈ rs ↔ ∃ r ∈ rs.ranges, r.1 ≤ b ∧ b < r.2 := RangeSet.mem_toList

@[simp] theorem not_mem_empty : b ∉ empty := by
  rw [mem_iff]
  rintro ⟨r, hr, -⟩
  cases hr

@[simp] theorem mem_insert : b ∈ rs.insert other ↔ b ∈ rs ∨ b ∈ other := by
  rw [insert]
  split
  · rename_i hnil
    have : b ∉ other := by
      rw [mem_iff, hnil]
      rintro ⟨r, hr, -⟩
      cases hr
    simp [this]
  · have h := pairwise_insertionSort_le (rs.ranges ++ other.ranges)
    have hmem : (∃ r ∈ coalesceAll ((rs.ranges ++ other.ranges).insertionSort Range.Before),
        r.1 ≤ b ∧ b < r.2) ↔
        ∃ r ∈ (rs.ranges ++ other.ranges).insertionSort Range.Before, r.1 ≤ b ∧ b < r.2 := by
      cases hs : (rs.ranges ++ other.ranges).insertionSort Range.Before with
      | nil => rfl
      | cons r l => exact mem_coalesce (hs ▸ h)
    rw [mem_iff, mem_iff, mem_iff]
    simp only [hmem, List.mem_insertionSort, List.mem_append, or_and_right, exists_or]

theorem blockRange_eq (hlen : 0 < len) (hlt : start + len < 2 ^ 63) :
    blockRange start len = (start / kBlockSize, (start + len - 1) / kBlockSize + 1) := by
  have : (start + len + 2 ^ 64 - 1) % 2 ^ 64 = start + len - 1 := by omega
  rw [blockRange, this]

theorem ranges_ofPairs_blockRange (hlen : 0 < len) (hlt : start + len < 2 ^ 63) :
    (RangeSet.ofPairs [blockRange start len]).ranges =
      [(start / kBlockSize, (start + len - 1) / kBlockSize + 1)] := by
  rw [ranges_ofPairs_singleton, blockRange_eq hlen hlt, if_pos]
  unfold SIZE_MAX kBlockSize
  dsimp only
  omega

@[simp] theorem mem_insertFile (hlen : 0 < len) (hlt : start + len < 2 ^ 63) :
    b ∈ rs.insertFile start len ↔
      b ∈ rs ∨ start / kBlockSize ≤ b ∧ b ≤ (start + len - 1) / kBlockSize := by
  rw [insertFile, mem_insert]
  apply or_congr_right
  rw [mem_iff, singleton, ranges_ofPairs_blockRange hlen hlt, List.exists_mem_cons_iff]
  simp only [List.not_mem_nil, false_and, exists_false, or_false, Nat.lt_succ_iff]

theorem overlaps_iff : rs.overlaps other.toRangeSet = true ↔ ∃ b, b ∈ rs ∧ b ∈ other :=
  RangeSet.overlaps_iff

theorem overlapsFile_iff (hlen : 0 < len) (hlt : start + len < 2 ^ 63) :
    rs.overlapsFile start len = true ↔
      ∃ b, b ∈ rs ∧ start / kBlockSize ≤ b ∧ b ≤ (start + len - 1) / kBlockSize := by
  rw [overlapsFile, RangeSet.overlaps_iff]
  apply exists_congr
  intro b
  apply and_congr_right'
  rw [RangeSet.mem_toList, ranges_ofPairs_blockRange hlen hlt, List.exists_mem_cons_iff]
  simp only [List.not_mem_nil, false_and, exists_false, or_false, Nat.lt_succ_iff]

end SortedRangeSet

end BootableRecovery
