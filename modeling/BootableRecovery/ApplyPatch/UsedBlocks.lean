import BootableRecovery.ApplyPatch.Split
import BootableRecovery.OtaUtil.Insertions

/-!
# Trimming used source blocks

`RemoveUsedBlocks` of `applypatch/imgdiff.cpp` with the extent that it leaves behind, for all blocks
that may be in use. The head is trimmed first, and the tail of what is left then
(`removeUsedBlocks_spec`).
-/

namespace BootableRecovery.ApplyPatch.ZipMode.UsedBlocks

open SortedRangeSet (kBlockSize)

/-- A byte extent. -/
structure Extent where
  start : Nat
  length : Nat
  deriving DecidableEq

/-- A helper with the extent that it writes back. -/
def inPlace (align : Nat → Nat → Bool × Nat × Nat) (e : Extent) : Bool × Extent :=
  let r := align e.start e.length
  (r.1, ⟨r.2.1, r.2.2⟩)

/-- `SortedRangeSet::Overlaps` with an extent. -/
def overlaps (used : RangeSet) (e : Extent) : Bool :=
  used.overlaps (RangeSet.ofPairs [SortedRangeSet.blockRange e.start e.length])

def removeUsedBlocks (e : Extent) (used : RangeSet) : Bool × Extent :=
  if !overlaps used e then (true, e)
  else
    let (ok, e) := inPlace alignHead e
    if ok && !overlaps used e then (true, e)
    else
      let (ok, e) := inPlace alignTail e
      if ok && !overlaps used e then (true, e) else (false, e)

/-- The result on a set of used blocks, without the extent that a failure leaves. -/
theorem removeUsedBlocks_eq (start length : Nat) (used : SortedRangeSet) :
    ZipMode.removeUsedBlocks start length used =
      let r := removeUsedBlocks ⟨start, length⟩ used.toRangeSet
      if r.1 then some (r.2.start, r.2.length) else none := by
  have hoverlaps (s l : Nat) : used.overlapsFile s l = overlaps used.toRangeSet ⟨s, l⟩ := rfl
  unfold ZipMode.removeUsedBlocks removeUsedBlocks
  simp only [hoverlaps, inPlace]
  by_cases hfree : (!overlaps used.toRangeSet ⟨start, length⟩) = true
  · simp [hfree]
  · by_cases hhead : ((alignHead start length).1 &&
        !overlaps used.toRangeSet ⟨(alignHead start length).2.1, (alignHead start length).2.2⟩) =
        true
    · simp [hfree, hhead]
    · by_cases htail : ((alignTail (alignHead start length).2.1 (alignHead start length).2.2).1 &&
          !overlaps used.toRangeSet
          ⟨(alignTail (alignHead start length).2.1 (alignHead start length).2.2).2.1,
            (alignTail (alignHead start length).2.1 (alignHead start length).2.2).2.2⟩) = true
      · simp [hfree, hhead, htail]
      · simp [hfree, hhead, htail]

namespace Extent

/-- A byte of the block is in the extent. -/
def Holds (e : Extent) (b : Nat) : Prop := ZipMode.Holds e.start e.length b

/-- The extent has no block in common with the set. -/
def Free (e : Extent) (used : RangeSet) : Prop := ∀ b ∈ used.toList, ¬e.Holds b

/-- The bytes of the extent have offsets. -/
def Fits (e : Extent) : Prop := 0 < e.length ∧ e.start + e.length ≤ 2 ^ 64

/-- A non-empty part, with less than a block missing at each end. -/
structure Trimmed (e' e : Extent) : Prop where
  pos : 0 < e'.length
  start_le : e.start ≤ e'.start
  end_le : e'.start + e'.length ≤ e.start + e.length
  head_lt : e'.start - e.start < BLOCK_SIZE
  tail_lt : e.start + e.length - (e'.start + e'.length) < BLOCK_SIZE

end Extent

section
variable {e e' : Extent} {used : RangeSet}

theorem overlaps_eq_false_iff (h : e.Fits) : overlaps used e = false ↔ e.Free used := by
  have hranges : (RangeSet.ofPairs [SortedRangeSet.blockRange e.start e.length]).ranges =
      [(e.start / kBlockSize, (e.start + e.length - 1) / kBlockSize + 1)] := by
    rw [SortedRangeSet.ranges_ofPairs_singleton, SortedRangeSet.blockRange_of_le h.1 h.2, if_pos]
    have hfits := h.2
    have hpos := h.1
    have hle : e.start / kBlockSize ≤ (e.start + e.length - 1) / kBlockSize :=
      Nat.div_le_div_right (by omega)
    simp only [SIZE_MAX, kBlockSize] at *
    omega
  have hmem (b : Nat) : b ∈ (RangeSet.ofPairs [SortedRangeSet.blockRange e.start e.length]).toList ↔
      e.Holds b := by
    rw [RangeSet.mem_toList, hranges, List.exists_mem_cons_iff]
    simp [Extent.Holds, ZipMode.Holds]
  rw [← Bool.not_eq_true, overlaps, RangeSet.overlaps_iff]
  simp only [hmem, not_exists, not_and]
  rfl

theorem Extent.trimmed_refl (h : e.Fits) : e.Trimmed e :=
  ⟨h.1, Nat.le_refl _, Nat.le_refl _, by simp [BLOCK_SIZE], by simp [BLOCK_SIZE]⟩

theorem trimmed_alignHead (h : (inPlace alignHead e).1 = true) :
    (inPlace alignHead e).2.Trimmed e ∧
      (inPlace alignHead e).2.start + (inPlace alignHead e).2.length = e.start + e.length := by
  simp only [inPlace, alignHead] at h ⊢
  have hlt :
      (if e.start % BLOCK_SIZE = 0 then 0 else BLOCK_SIZE - e.start % BLOCK_SIZE) < BLOCK_SIZE := by
    split
    · decide
    · have hmod := Nat.mod_lt e.start (by decide : BLOCK_SIZE > 0)
      omega
  generalize (if e.start % BLOCK_SIZE = 0 then 0 else BLOCK_SIZE - e.start % BLOCK_SIZE) =
    residual at h hlt ⊢
  by_cases hshort : e.length ≤ residual
  · rw [if_pos hshort] at h
    cases h
  · rw [if_neg hshort]
    dsimp only
    exact ⟨⟨by
      dsimp only; omega,
      by dsimp only; omega, by dsimp only; omega, by dsimp only; omega, by dsimp only; omega⟩,
      by omega⟩

theorem alignTail_trims (h : (inPlace alignTail e).1 = true) :
    0 < (inPlace alignTail e).2.length ∧ (inPlace alignTail e).2.start = e.start ∧
      (inPlace alignTail e).2.length ≤ e.length ∧
      e.length - (inPlace alignTail e).2.length < BLOCK_SIZE := by
  simp only [inPlace, alignTail] at h ⊢
  have hlt : (e.start + e.length) % BLOCK_SIZE < BLOCK_SIZE := Nat.mod_lt _ (by decide)
  by_cases hshort : e.length ≤ (e.start + e.length) % BLOCK_SIZE
  · rw [if_pos hshort] at h
    cases h
  · rw [if_neg hshort]
    dsimp only
    omega

theorem alignTail_of_length_eq_zero (h : e.length = 0) : (inPlace alignTail e).1 = false := by
  obtain ⟨start, length⟩ := e
  cases h
  have htail : alignTail start 0 = (false, start, 0) := by
    rw [alignTail, if_pos (Nat.zero_le _)]
  rw [inPlace, htail]

/-- If nothing is left behind the head, nothing is left in front of the tail. -/
theorem alignTail_of_alignHead (h : (inPlace alignHead e).1 = false) :
    (inPlace alignTail (inPlace alignHead e).2).1 = false := by
  have hzero : (inPlace alignHead e).2.length = 0 := by
    simp only [inPlace, alignHead] at h ⊢
    by_cases hshort : e.length ≤ if e.start % BLOCK_SIZE = 0 then 0
      else BLOCK_SIZE - e.start % BLOCK_SIZE
    · rw [if_pos hshort]
    · rw [if_neg hshort] at h
      cases h
  exact alignTail_of_length_eq_zero hzero

theorem Extent.Trimmed.fits (h : e'.Trimmed e) (he : e.Fits) : e'.Fits :=
  ⟨h.pos, h.end_le.trans he.2⟩

theorem trimmed_alignTail (hhead : (inPlace alignHead e).1 = true)
    (htail : (inPlace alignTail (inPlace alignHead e).2).1 = true) :
    (inPlace alignTail (inPlace alignHead e).2).2.Trimmed e := by
  obtain ⟨h, hend⟩ := trimmed_alignHead hhead
  obtain ⟨hpos, hstart, hle, hlt⟩ := alignTail_trims htail
  have hstart' := h.start_le
  have hheadlt := h.head_lt
  exact ⟨hpos, by omega, by omega, by omega, by omega⟩

end

/-- An extent that is left is a non-empty part without used blocks, less than a block shorter at
each end; an extent without used blocks is left as it is. -/
theorem removeUsedBlocks_spec {e : Extent} (h : e.Fits) (used : RangeSet) :
    ((removeUsedBlocks e used).1 = true → (removeUsedBlocks e used).2.Trimmed e ∧
      (removeUsedBlocks e used).2.Free used) ∧
      (e.Free used → removeUsedBlocks e used = (true, e)) := by
  constructor
  · intro hok
    simp only [removeUsedBlocks] at hok ⊢
    split at hok
    · rename_i hfree
      rw [if_pos hfree]
      exact ⟨Extent.trimmed_refl h, (overlaps_eq_false_iff h).mp (by simpa using hfree)⟩
    · rename_i hused
      rw [if_neg hused]
      split at hok
      · rename_i hhead
        rw [if_pos hhead]
        rw [Bool.and_eq_true, Bool.not_eq_true'] at hhead
        have htrimmed := (trimmed_alignHead hhead.1).1
        exact ⟨htrimmed, (overlaps_eq_false_iff (htrimmed.fits h)).mp hhead.2⟩
      · rename_i hnext
        rw [if_neg hnext]
        split at hok
        · rename_i htail
          rw [if_pos htail]
          rw [Bool.and_eq_true, Bool.not_eq_true'] at htail
          have hhead : (inPlace alignHead e).1 = true := by
            by_contra hno
            rw [Bool.not_eq_true] at hno
            exact absurd htail.1 (by rw [alignTail_of_alignHead hno]; decide)
          have htrimmed := trimmed_alignTail hhead htail.1
          exact ⟨htrimmed, (overlaps_eq_false_iff (htrimmed.fits h)).mp htail.2⟩
        · cases hok
  · intro hfree
    rw [removeUsedBlocks, (overlaps_eq_false_iff h).mpr hfree]
    rfl

/-- Both ends of the extent stand in used blocks. -/
theorem removeUsedBlocks_spec_bothEnds :
    ((removeUsedBlocks ⟨4000, 8300⟩ ⟨[(0, 1), (3, 4)], by decide⟩).1 = true →
      (removeUsedBlocks ⟨4000, 8300⟩ ⟨[(0, 1), (3, 4)], by decide⟩).2.Trimmed ⟨4000, 8300⟩ ∧
        (removeUsedBlocks ⟨4000, 8300⟩ ⟨[(0, 1), (3, 4)], by decide⟩).2.Free ⟨[(0, 1), (3, 4)],
        by decide⟩) ∧
      ((⟨4000, 8300⟩ : Extent).Free ⟨[(0, 1), (3, 4)], by decide⟩ →
        removeUsedBlocks ⟨4000, 8300⟩ ⟨[(0, 1), (3, 4)], by decide⟩ = (true, ⟨4000, 8300⟩)) :=
  removeUsedBlocks_spec ⟨by decide, by decide⟩ _

end BootableRecovery.ApplyPatch.ZipMode.UsedBlocks
