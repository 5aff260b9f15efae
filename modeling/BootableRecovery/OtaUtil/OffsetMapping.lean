import BootableRecovery.OtaUtil.SortedRangeSet

/-!
# Offsets in a file and in a set of its blocks

`GetOffsetInRangeSet` maps an offset of a file to the offset in the blocks of a sorted set, put one
after another. On the block numbers it is the inverse of `GetBlockNumber`: both go through the
ranges before the block (`blockAt_append`, `newBlockStart_append`).
-/

namespace BootableRecovery

/-- The number of blocks of the ranges. -/
def blocksOf (l : List Range) : Nat := (l.map fun r => r.2 - r.1).sum

section
variable {l pre post : List Range} {r : Range} {b n i : Nat}

theorem blocksOf_cons (r : Range) (l : List Range) : blocksOf (r :: l) = r.2 - r.1 + blocksOf l :=
  rfl

theorem blockAt_append (pre l : List Range) (i : Nat) :
    RangeSet.blockAt (pre ++ l) (blocksOf pre + i) = RangeSet.blockAt l i := by
  induction pre with
  | nil => rw [List.nil_append, blocksOf, List.map_nil, List.sum_nil, Nat.zero_add]
  | cons p pre ih =>
    rw [List.cons_append, RangeSet.blockAt, blocksOf_cons, Nat.add_assoc,
      if_neg (Nat.not_lt.mpr (Nat.le_add_right ..)), Nat.add_sub_cancel_left, ih]

theorem newBlockStart_append (hpre : ∀ p ∈ pre, p.2 ≤ b) :
    SortedRangeSet.newBlockStart b (pre ++ l) n =
      SortedRangeSet.newBlockStart b l (n + blocksOf pre) := by
  induction pre generalizing n with
  | nil => rfl
  | cons p pre ih =>
    rw [List.forall_mem_cons] at hpre
    rw [List.cons_append, SortedRangeSet.newBlockStart, if_pos hpre.1, ih hpre.2, blocksOf_cons,
      Nat.add_assoc]

/-- The blocks of the ranges before `r` are numbers from `lo` up to the first one of `r`. -/
theorem add_blocksOf_le {lo : Nat} (hsorted : (pre ++ r :: post).Pairwise fun a b => a.2 < b.1)
    (hpos : ∀ p ∈ pre, p.1 < p.2) (hlo : ∀ p ∈ pre ++ r :: post, lo ≤ p.1) :
    lo + blocksOf pre ≤ r.1 := by
  induction pre generalizing lo with
  | nil => exact hlo r List.mem_cons_self
  | cons p pre ih =>
    rw [List.cons_append, List.pairwise_cons] at hsorted
    rw [List.forall_mem_cons] at hpos
    rw [List.cons_append, List.forall_mem_cons] at hlo
    have hrest := ih hsorted.2 hpos.2 fun q hq => Nat.le_of_lt (hsorted.1 q hq)
    rw [blocksOf_cons]
    omega

end

namespace SortedRangeSet

variable {rs : SortedRangeSet} {r : Range} {pre post : List Range} {b b' o o' q q' : Nat}

theorem newBlockStart_eq (hranges : rs.ranges = pre ++ r :: post) (hb : r.1 ≤ b ∧ b < r.2) :
    newBlockStart b rs.ranges 0 = some (blocksOf pre + (b - r.1)) := by
  have hsorted := rs.sorted
  rw [hranges] at hsorted
  have hpre : ∀ p ∈ pre, p.2 ≤ b := fun p hp => Nat.le_trans
    (Nat.le_of_lt ((List.pairwise_append.mp hsorted).2.2 p hp r List.mem_cons_self)) hb.1
  rw [hranges, newBlockStart_append hpre, newBlockStart, if_neg (Nat.not_le.mpr hb.2), if_pos hb.1,
    Nat.zero_add]

theorem le_of_newBlockStart {l : List Range} {i n : Nat} (hi : newBlockStart b l n = some i) :
    n ≤ i := by
  induction l generalizing n with
  | nil => cases hi
  | cons r l ih =>
    rw [newBlockStart] at hi
    split at hi
    · exact Nat.le_trans (Nat.le_add_right ..) (ih hi)
    · split at hi
      · cases hi
        exact Nat.le_add_right ..
      · cases hi

theorem getBlockNumber_eq (hranges : rs.ranges = pre ++ r :: post) (hb : r.1 ≤ b ∧ b < r.2) :
    rs.getBlockNumber (blocksOf pre + (b - r.1)) = some b := by
  have hlt : blocksOf pre + (b - r.1) < rs.blocks := by
    have hblocks : rs.blocks = blocksOf pre + (r.2 - r.1 + blocksOf post) := by
      rw [RangeSet.blocks, hranges, List.map_append, List.sum_append]
      rfl
    omega
  rw [RangeSet.getBlockNumber, if_pos hlt, hranges, blockAt_append, RangeSet.blockAt,
    if_pos (by omega), Nat.add_sub_cancel' hb.1]

theorem newBlockStart_lt {l : List Range} {i i' n : Nat} (hi : newBlockStart b l n = some i)
    (hi' : newBlockStart b' l n = some i') (hlt : b < b') : i < i' := by
  induction l generalizing n with
  | nil => cases hi
  | cons r l ih =>
    rw [newBlockStart] at hi hi'
    by_cases hafter : b ≥ r.2
    · rw [if_pos hafter] at hi
      rw [if_pos (by omega)] at hi'
      exact ih hi hi'
    · rw [if_neg hafter] at hi
      by_cases hin : b ≥ r.1
      · rw [if_pos hin] at hi
        cases hi
        by_cases hafter' : b' ≥ r.2
        · rw [if_pos hafter'] at hi'
          have := le_of_newBlockStart hi'
          omega
        · rw [if_neg hafter', if_pos (by omega)] at hi'
          cases hi'
          omega
      · rw [if_neg hin] at hi
        cases hi

/-- The index of a block is at most its number, so that no offset gets larger. -/
theorem index_le (hranges : rs.ranges = pre ++ r :: post) (hb : r.1 ≤ b) :
    blocksOf pre + (b - r.1) ≤ b := by
  have hsorted := rs.sorted
  rw [hranges] at hsorted
  have hpos : ∀ p ∈ pre, p.1 < p.2 := fun p hp =>
    rs.nonempty p (hranges ▸ List.mem_append_left _ hp)
  have hpre := add_blocksOf_le hsorted hpos fun p _ => Nat.zero_le p.1
  omega

theorem exists_range (h : b ∈ rs) :
    ∃ pre r post, rs.ranges = pre ++ r :: post ∧ r.1 ≤ b ∧ b < r.2 := by
  obtain ⟨r, hr, hb⟩ := mem_iff.mp h
  obtain ⟨pre, post, hranges⟩ := List.append_of_mem hr
  exact ⟨pre, r, post, hranges, hb⟩

/-- `GetOffsetInRangeSet` of an offset whose block is in a range of the set. -/
theorem getOffsetInRangeSet_eq (hranges : rs.ranges = pre ++ r :: post)
    (hb : r.1 ≤ o / kBlockSize ∧ o / kBlockSize < r.2) :
    rs.getOffsetInRangeSet o =
      some ((blocksOf pre + (o / kBlockSize - r.1)) * kBlockSize + o % kBlockSize) := by
  rw [getOffsetInRangeSet, newBlockStart_eq hranges hb, Option.map_some]

theorem getOffsetInRangeSet_lt (hq : rs.getOffsetInRangeSet o = some q)
    (hq' : rs.getOffsetInRangeSet o' = some q') (hlt : o < o') : q < q' := by
  obtain ⟨i, hi, rfl⟩ := Option.map_eq_some_iff.mp hq
  obtain ⟨i', hi', rfl⟩ := Option.map_eq_some_iff.mp hq'
  have hmod : o % kBlockSize < kBlockSize := Nat.mod_lt _ (by decide)
  rcases Nat.lt_or_eq_of_le (Nat.div_le_div_right (c := kBlockSize) (Nat.le_of_lt hlt)) with h | h
  · have hindex : i < i' := newBlockStart_lt hi hi' h
    have := Nat.mul_le_mul_right kBlockSize (Nat.succ_le_of_lt hindex)
    rw [Nat.succ_mul] at this
    omega
  · rw [h, hi'] at hi
    cases hi
    have := Nat.div_add_mod o kBlockSize
    have := Nat.div_add_mod o' kBlockSize
    rw [h] at *
    omega

theorem getOffsetInRangeSet_succ (hranges : rs.ranges = pre ++ r :: post)
    (hb : r.1 ≤ o / kBlockSize) (hb' : (o + 1) / kBlockSize < r.2)
    (hq : rs.getOffsetInRangeSet o = some q) : rs.getOffsetInRangeSet (o + 1) = some (q + 1) := by
  have hle : o / kBlockSize ≤ (o + 1) / kBlockSize := Nat.div_le_div_right (Nat.le_succ o)
  rw [getOffsetInRangeSet_eq hranges ⟨hb, Nat.lt_of_le_of_lt hle hb'⟩] at hq
  rw [getOffsetInRangeSet_eq hranges ⟨Nat.le_trans hb hle, hb'⟩]
  cases hq
  have hk : kBlockSize = 4096 := rfl
  rw [hk] at hb hle ⊢
  exact congrArg some (by omega)

/-- The mapping of offsets: it fails no `CHECK`, gives the block and the place in it back, never
exceeds the offset (so that no sum wraps around), and keeps the order and neighbouring offsets. -/
theorem getOffsetInRangeSet_maps (rs : SortedRangeSet) (o : Nat) (h : o / kBlockSize ∈ rs) :
    ∃ q, rs.getOffsetInRangeSet o = some q ∧ q ≤ o ∧
      rs.getBlockNumber (q / kBlockSize) = some (o / kBlockSize) ∧ q % kBlockSize = o % kBlockSize ∧
      (∀ o', o' / kBlockSize ∈ rs → o < o' → ∃ q', rs.getOffsetInRangeSet o' = some q' ∧ q < q') ∧
      ∀ r ∈ rs.ranges, r.1 ≤ o / kBlockSize → (o + 1) / kBlockSize < r.2 →
        rs.getOffsetInRangeSet (o + 1) = some (q + 1) := by
  obtain ⟨pre, r, post, hranges, hb⟩ := exists_range h
  have hq := getOffsetInRangeSet_eq hranges hb
  have hmod : o % kBlockSize < kBlockSize := Nat.mod_lt _ (by decide)
  refine ⟨_, hq, ?_, ?_, ?_, ?_, ?_⟩
  · have := Nat.mul_le_mul_right kBlockSize (index_le hranges hb.1)
    have := Nat.div_add_mod' o kBlockSize
    omega
  · rw [Nat.mul_comm, Nat.mul_add_div (by decide), Nat.div_eq_of_lt hmod, Nat.add_zero]
    exact getBlockNumber_eq hranges hb
  · rw [Nat.mul_comm, Nat.mul_add_mod, Nat.mod_mod]
  · intro o' h' hlt
    obtain ⟨pre', r', post', hranges', hb'⟩ := exists_range h'
    have hq' := getOffsetInRangeSet_eq hranges' hb'
    exact ⟨_, hq', getOffsetInRangeSet_lt hq hq' hlt⟩
  · intro s hs hlo hhi
    obtain ⟨pre', post', hranges'⟩ := List.append_of_mem hs
    exact getOffsetInRangeSet_succ hranges' hlo hhi hq

/-- The mapping at the set of the blocks 1 to 8 and 15 to 18. -/
theorem getOffsetInRangeSet_maps_example :
    ∃ q, (SortedRangeSet.insert (singleton (1, 9)) (singleton (15, 19))).getOffsetInRangeSet 65546 =
    some q :=
  (getOffsetInRangeSet_maps (SortedRangeSet.insert (singleton (1, 9)) (singleton (15, 19))) 65546
    (mem_iff.mpr ⟨(15, 19), by decide, by decide⟩)).imp fun _ h => h.1

end SortedRangeSet

end BootableRecovery
