import BootableRecovery.OtaUtil.SortedRangeSet
import Mathlib.Data.Set.Card
import Mathlib.Order.Interval.Finset.Nat

/-!
# Insertions into a sorted set

A `SortedRangeSet` is a canonical form: it is determined by its blocks (`eq_of_mem_iff`). The calls
of `Insert` are the insertions of sets of blocks, so that their order and repetition do not matter.
-/

namespace BootableRecovery

/-! ## The canonical form -/

/-- Ranges in ascending order that do not touch each other. -/
def Canonical (l : List Range) : Prop := (∀ r ∈ l, r.1 < r.2) ∧ l.Pairwise fun a b => a.2 < b.1

/-- Block `b` is in one of the ranges. -/
def Covers (l : List Range) (b : Nat) : Prop := ∃ r ∈ l, r.1 ≤ b ∧ b < r.2

theorem covers_cons {r : Range} {l : List Range} {b : Nat} :
    Covers (r :: l) b ↔ (r.1 ≤ b ∧ b < r.2) ∨ Covers l b := List.exists_mem_cons_iff ..

namespace Canonical

variable {r s : Range} {l m : List Range} {b : Nat}

theorem of_cons (h : Canonical (r :: l)) :
    r.1 < r.2 ∧ (∀ b, Covers l b → r.2 < b) ∧ Canonical l := by
  obtain ⟨hpos, hsorted⟩ := h
  rw [List.forall_mem_cons] at hpos
  rw [List.pairwise_cons] at hsorted
  refine ⟨hpos.1, ?_, hpos.2, hsorted.2⟩
  intro b hb
  obtain ⟨s, hs, hle, -⟩ := hb
  exact Nat.lt_of_lt_of_le (hsorted.1 s hs) hle

/-- The first range goes from the first block to the first one that is missing. -/
theorem head_le (h : Canonical (r :: l)) (h' : Canonical (s :: m))
    (hsub : ∀ b, Covers (r :: l) b → Covers (s :: m) b) : s.1 ≤ r.1 := by
  obtain ⟨hr, -, -⟩ := h.of_cons
  obtain ⟨-, hm, -⟩ := h'.of_cons
  obtain ⟨hle, -⟩ | hlater := covers_cons.mp (hsub r.1 (covers_cons.mpr (.inl ⟨Nat.le_refl _, hr⟩)))
  · exact hle
  · have := hm _ hlater
    have := h'.of_cons.1
    omega

theorem end_le (h' : Canonical (s :: m)) (hstart : r.1 = s.1)
    (hsub : ∀ b, Covers (r :: l) b → Covers (s :: m) b) : r.2 ≤ s.2 := by
  by_contra hlt
  obtain ⟨hs, hm, -⟩ := h'.of_cons
  -- the block after the end of `s` is in `r` and missing in `s :: m`
  have hmem := hsub s.2 (covers_cons.mpr (.inl ⟨by omega, by omega⟩))
  obtain ⟨-, hend⟩ | hlater := covers_cons.mp hmem
  · exact Nat.lt_irrefl _ hend
  · exact Nat.lt_irrefl _ (hm _ hlater)

theorem eq_of_covers_iff (h : Canonical l) (h' : Canonical m) (heq : ∀ b, Covers l b ↔ Covers m b) :
    l = m := by
  induction l generalizing m with
  | nil =>
    cases m with
    | nil => rfl
    | cons s m =>
      obtain ⟨hs, -, -⟩ := h'.of_cons
      obtain ⟨r, hr, -⟩ := (heq s.1).mpr (covers_cons.mpr (.inl ⟨Nat.le_refl _, hs⟩))
      cases hr
  | cons r l ih =>
    cases m with
    | nil =>
      obtain ⟨hr, -, -⟩ := h.of_cons
      obtain ⟨s, hs, -⟩ := (heq r.1).mp (covers_cons.mpr (.inl ⟨Nat.le_refl _, hr⟩))
      cases hs
    | cons s m =>
      have hstart : r.1 = s.1 := Nat.le_antisymm (head_le h' h fun b => (heq b).mpr)
        (head_le h h' fun b => (heq b).mp)
      have hend : r.2 = s.2 := Nat.le_antisymm (end_le h' hstart fun b => (heq b).mp)
        (end_le h hstart.symm fun b => (heq b).mpr)
      have hrs : r = s := Prod.ext hstart hend
      cases hrs
      obtain ⟨-, hl, hcanon⟩ := h.of_cons
      obtain ⟨-, hm, hcanon'⟩ := h'.of_cons
      have hrest : ∀ b, Covers l b ↔ Covers m b := by
        intro b
        have hb := heq b
        rw [covers_cons, covers_cons] at hb
        constructor
        · intro hmem
          refine (hb.mp (.inr hmem)).resolve_left fun hin => ?_
          exact Nat.lt_asymm (hl b hmem) hin.2
        · intro hmem
          refine (hb.mpr (.inr hmem)).resolve_left fun hin => ?_
          exact Nat.lt_asymm (hm b hmem) hin.2
      rw [ih hcanon hcanon' hrest]

end Canonical

section
variable {l : List Range} {b : Nat}

theorem covers_coalesceAll :
    Covers (coalesceAll (l.insertionSort Range.Before)) b ↔ Covers l b := by
  have h := SortedRangeSet.pairwise_insertionSort_le l
  have hsort : Covers (l.insertionSort Range.Before) b ↔ Covers l b := by
    simp only [Covers, List.mem_insertionSort]
  rw [← hsort]
  cases hs : l.insertionSort Range.Before with
  | nil => rfl
  | cons r l => exact mem_coalesce (hs ▸ h)

theorem canonical_coalesceAll (hpos : ∀ r ∈ l, r.1 < r.2) :
    Canonical (coalesceAll (l.insertionSort Range.Before)) := by
  have h := SortedRangeSet.pairwise_insertionSort_le l
  have hsort : ∀ r ∈ l.insertionSort Range.Before, r.1 < r.2 := by
    intro r hr
    exact hpos r ((List.mem_insertionSort _).mp hr)
  cases hs : l.insertionSort Range.Before with
  | nil => exact ⟨List.forall_mem_nil _, List.Pairwise.nil⟩
  | cons r l => exact ⟨nonempty_coalesce (hs ▸ hsort), sorted_coalesce (hs ▸ h)⟩

end

namespace SortedRangeSet

variable {rs other : SortedRangeSet} {b start len : Nat}

theorem canonical (rs : SortedRangeSet) : Canonical rs.ranges := ⟨rs.nonempty, rs.sorted⟩

theorem eq_of_mem_iff (h : ∀ b, b ∈ rs ↔ b ∈ other) : rs = other := by
  have hranges : rs.ranges = other.ranges := by
    apply rs.canonical.eq_of_covers_iff other.canonical
    intro b
    have := h b
    rwa [mem_iff, mem_iff] at this
  obtain ⟨⟨_, _⟩, _⟩ := rs
  obtain ⟨⟨_, _⟩, _⟩ := other
  cases hranges
  rfl

theorem nodup_toList (rs : SortedRangeSet) : rs.toList.Nodup := by
  rw [RangeSet.toList, List.nodup_flatMap]
  refine ⟨fun r _ => List.nodup_range', rs.sorted.imp ?_⟩
  intro r s hgap b hb hb'
  rw [Range.mem_toList] at hb hb'
  omega

theorem blocks_eq_ncard (rs : SortedRangeSet) : rs.blocks = {b | b ∈ rs}.ncard := by
  have hset : {b | b ∈ rs} = (rs.toList.toFinset : Set Nat) := by
    ext b
    simp [Membership.mem]
  rw [hset, Set.ncard_coe_finset, List.toFinset_card_of_nodup rs.nodup_toList,
    RangeSet.length_toList]

/-- The number of blocks that `len` bytes from `start` on stand in. -/
def blocksHeld (start len : Nat) : Nat := (start + len - 1) / kBlockSize + 1 - start / kBlockSize

/-- Merging with the ranges that are present adds no more than the blocks of the new range. -/
theorem blocks_insertFile_le (rs : SortedRangeSet) (hlen : 0 < len) (hlt : start + len < 2 ^ 63) :
    (rs.insertFile start len).blocks ≤ rs.blocks + blocksHeld start len := by
  have hset : {b | b ∈ rs.insertFile start len} =
      {b | b ∈ rs} ∪ (Finset.Icc (start / kBlockSize) ((start + len - 1) / kBlockSize) :
        Set Nat) := by
    ext b
    rw [Set.mem_ofPred_eq, mem_insertFile hlen hlt, Set.mem_union, Set.mem_ofPred_eq,
      Finset.mem_coe, Finset.mem_Icc]
  calc (rs.insertFile start len).blocks
    _ = _ := (rs.insertFile start len).blocks_eq_ncard.trans (congrArg Set.ncard hset)
    _ ≤ _ := Set.ncard_union_le _ _
    _ = rs.blocks + blocksHeld start len := by
      rw [← blocks_eq_ncard, Set.ncard_coe_finset, Nat.card_Icc, blocksHeld]

theorem blocksHeld_le (start : Nat) {n : Nat} (h : len ≤ n * kBlockSize) :
    blocksHeld start len ≤ n + 1 := by
  unfold blocksHeld kBlockSize at *
  omega

/-! ## The calls of `Insert` -/

/-- `Insert` of another set, whose ranges can overlap and stand in any order. -/
def insertSet (rs : SortedRangeSet) (other : RangeSet) : SortedRangeSet :=
  if other.ranges = [] then rs
  else
    have h : Canonical (coalesceAll ((rs.ranges ++ other.ranges).insertionSort Range.Before)) :=
      canonical_coalesceAll fun r hr =>
      (List.mem_append.mp hr).elim (rs.nonempty r) (other.nonempty r)
    { ranges := coalesceAll ((rs.ranges ++ other.ranges).insertionSort Range.Before)
      nonempty := h.1
      sorted := h.2 }

theorem mem_insertSet {other : RangeSet} : b ∈ rs.insertSet other ↔ b ∈ rs ∨ b ∈ other.toList := by
  rw [insertSet]
  split
  · rename_i hnil
    simp [RangeSet.mem_toList, hnil]
  · rw [mem_iff, mem_iff, RangeSet.mem_toList]
    change Covers (coalesceAll ((rs.ranges ++ other.ranges).insertionSort Range.Before)) b ↔ _
    rw [covers_coalesceAll]
    simp only [Covers, List.mem_append, or_and_right, exists_or]

/-- A call of `Insert`: of a range, of the blocks of a part of a file, or of another set. -/
inductive Insertion where
  | range (r : Range)
  | extent (start len : Nat)
  | set (other : RangeSet)

namespace Insertion

/-- The set after the call. -/
def perform (rs : SortedRangeSet) : Insertion → SortedRangeSet
  | range r => rs.insert (singleton r)
  | extent start len => rs.insertFile start len
  | set other => rs.insertSet other

/-- The blocks that the call names. -/
def Names : Insertion → Nat → Prop
  | range r, b => r.1 ≤ b ∧ b < r.2
  | extent start len, b => start / kBlockSize ≤ b ∧ b ≤ (start + len - 1) / kBlockSize
  | set other, b => b ∈ other.toList

/-- The arguments are numbers of 64 bits, and a part of a file has bytes, whose offsets are such
numbers too. The one range that `PushBack` rejects for its size is left out. -/
def Valid : Insertion → Prop
  | range r => r.2 ≤ SIZE_MAX ∧ r ≠ (0, SIZE_MAX)
  | extent start len => 0 < len ∧ start + len ≤ 2 ^ 64
  | set _ => True

end Insertion

/-- The set after the calls, from the empty one. -/
def insertAll (calls : List Insertion) : SortedRangeSet := calls.foldl Insertion.perform empty

theorem mem_insert_singleton {r : Range} (h : r.2 ≤ SIZE_MAX ∧ r ≠ (0, SIZE_MAX)) :
    b ∈ rs.insert (singleton r) ↔ b ∈ rs ∨ (r.1 ≤ b ∧ b < r.2) := by
  rw [mem_insert]
  apply or_congr_right
  rw [mem_iff, singleton, ranges_ofPairs_singleton]
  split
  · rw [List.exists_mem_cons_iff]
    simp
  · rename_i hrange
    have hempty : ¬r.1 < r.2 := by
      intro hlt
      have hlarge : SIZE_MAX ≤ r.2 - r.1 := Nat.le_of_not_lt fun hsize => hrange ⟨hlt, hsize⟩
      exact h.2 (Prod.ext (by omega) (by omega))
    simp
    omega

theorem blockRange_of_le (hlen : 0 < len) (hle : start + len ≤ 2 ^ 64) :
    blockRange start len = (start / kBlockSize, (start + len - 1) / kBlockSize + 1) := by
  have : (start + len + 2 ^ 64 - 1) % 2 ^ 64 = start + len - 1 := by omega
  rw [blockRange, this]

theorem mem_perform {call : Insertion} (h : call.Valid) :
    b ∈ call.perform rs ↔ b ∈ rs ∨ call.Names b := by
  cases call with
  | range r => exact mem_insert_singleton h
  | extent start len =>
    obtain ⟨hlen, hle⟩ := h
    have hrange : blockRange start len ≠ (0, SIZE_MAX) ∧ (blockRange start len).2 ≤ SIZE_MAX := by
      rw [blockRange_of_le hlen hle]
      have hend : (start + len - 1) / kBlockSize + 1 < SIZE_MAX := by
        unfold kBlockSize SIZE_MAX
        omega
      exact ⟨fun heq => Nat.ne_of_lt hend (congrArg Prod.snd heq), Nat.le_of_lt hend⟩
    rw [Insertion.perform, insertFile, mem_insert_singleton ⟨hrange.2, hrange.1⟩,
      blockRange_of_le hlen hle, Insertion.Names, Nat.lt_succ_iff]
  | set other => exact mem_insertSet

theorem mem_foldl_perform {calls : List Insertion} (h : ∀ call ∈ calls, call.Valid) :
    b ∈ calls.foldl Insertion.perform rs ↔ b ∈ rs ∨ ∃ call ∈ calls, call.Names b := by
  induction calls generalizing rs with
  | nil => simp
  | cons call calls ih =>
    rw [List.forall_mem_cons] at h
    rw [List.foldl_cons, ih h.2, mem_perform h.1, List.exists_mem_cons_iff, or_assoc]

/-- Any calls of `Insert`: the set is in canonical form and the union of what was inserted, its
number of blocks is that of the distinct blocks, and calls with the same members give the same set.
Two sets overlap exactly if they share a block. -/
theorem insertAll_spec (calls : List Insertion) (h : ∀ call ∈ calls, call.Valid) :
    Canonical (insertAll calls).ranges ∧
      (∀ b, b ∈ insertAll calls ↔ ∃ call ∈ calls, call.Names b) ∧
      (insertAll calls).blocks = {b | ∃ call ∈ calls, call.Names b}.ncard ∧
      (∀ others : List Insertion, (∀ call, call ∈ others ↔ call ∈ calls) →
        insertAll others = insertAll calls) ∧
      ∀ rs other : RangeSet, rs.overlaps other = true ↔ ∃ b, b ∈ rs.toList ∧ b ∈ other.toList := by
  have hmem : ∀ calls : List Insertion, (∀ call ∈ calls, call.Valid) → ∀ b,
      b ∈ insertAll calls ↔ ∃ call ∈ calls, call.Names b := by
    intro calls h b
    rw [insertAll, mem_foldl_perform h]
    simp
  refine ⟨(insertAll calls).canonical, hmem calls h, ?_, fun others heq => ?_,
    fun rs other => RangeSet.overlaps_iff⟩
  · rw [blocks_eq_ncard]
    congr 1
    ext b
    exact hmem calls h b
  · have hothers : ∀ call ∈ others, call.Valid := fun call hcall => h call ((heq call).mp hcall)
    apply eq_of_mem_iff
    intro b
    rw [hmem others hothers, hmem calls h]
    simp only [heq]

/-- The example of the documentation, inserted out of order. -/
theorem insertAll_spec_outOfOrder :
    Canonical (insertAll [.range (15, 19), .extent 4096 32768]).ranges :=
  (insertAll_spec [.range (15, 19), .extent 4096 32768] (by
    intro call hcall
    rcases List.mem_cons.mp hcall with rfl | hcall
    · exact ⟨by decide, by decide⟩
    · cases List.mem_singleton.mp hcall
      exact ⟨by decide, by decide⟩)).1

/-- The range of `SIZE_MAX` blocks is dropped. -/
theorem not_insertAll_spec : ¬∀ b, b ∈ insertAll [.range (0, SIZE_MAX)] ↔
    ∃ call ∈ [Insertion.range (0, SIZE_MAX)], call.Names b := by
  intro h
  have hmem := (h 0).mpr ⟨_, List.mem_cons_self, Nat.le_refl _, by decide⟩
  have hnil : (singleton (0, SIZE_MAX)).ranges = [] := by
    rw [singleton, ranges_ofPairs_singleton, if_neg (by decide)]
  rw [insertAll, List.foldl_cons, List.foldl_nil, Insertion.perform, insert, if_pos hnil] at hmem
  exact not_mem_empty hmem

end SortedRangeSet

end BootableRecovery
