import BootableRecovery.OtaUtil.OffsetMapping
import BootableRecovery.Updater.Contents

/-!
# Scattering blocks in place

`MoveRange` of `updater/blockimg.cpp` on the bytes of a buffer. With increasing ranges the loop,
which goes backwards, does not overwrite what it has still to move, so that one buffer gives what
two of them would (`moveRangeInPlace_spec`).
-/

namespace BootableRecovery.Scatter

open BlockImg (BLOCKSIZE Block getElem?_overwriteAt)

/-! ## The code -/

/-- The loop of `MoveRange`, over the ranges from the last to the first; `none` if `memmove` would
leave a buffer. `source` gives the packed data, which is the destination itself when both are one
buffer. -/
def moveLoop (source : List UInt8 → List UInt8) : List Range → Nat → List UInt8 →
    Option (List UInt8)
  | [], _, dest => some dest
  | r :: rs, start, dest =>
    let blocks := r.2 - r.1
    let start := start - blocks
    if start * BLOCKSIZE + blocks * BLOCKSIZE ≤ (source dest).length ∧
        r.1 * BLOCKSIZE + blocks * BLOCKSIZE ≤ dest.length then
      moveLoop source rs start
        (overwriteAt dest (r.1 * BLOCKSIZE)
          (((source dest).drop (start * BLOCKSIZE)).take (blocks * BLOCKSIZE)))
    else none

/-- `MoveRange` from another buffer. -/
def moveRange (dest : List UInt8) (locs : RangeSet) (source : List UInt8) : Option (List UInt8) :=
  moveLoop (fun _ => source) locs.ranges.reverse locs.blocks dest

/-- `MoveRange` with one buffer as source and destination. -/
def moveRangeInPlace (buffer : List UInt8) (locs : RangeSet) : Option (List UInt8) :=
  moveLoop id locs.ranges.reverse locs.blocks buffer

/-- Increasing, disjoint ranges. -/
def Increasing (l : List Range) : Prop := l.Pairwise fun r r' => r.2 ≤ r'.1

section
variable {l rs : List Range} {r : Range} {source dest buffer : List UInt8} {k b j : Nat}

/-! ## Positions -/

theorem blockAt_eq (l : List Range) (k : Nat) :
    RangeSet.blockAt l k = (l.flatMap Range.toList)[k]? := by
  induction l generalizing k with
  | nil => rfl
  | cons r l ih =>
    rw [RangeSet.blockAt, List.flatMap_cons, List.getElem?_append, Range.length_toList, ih]
    split
    · rename_i hlt
      rw [Range.toList, List.getElem?_range' hlt, Nat.one_mul]
    · rfl

theorem length_positions (l : List Range) : (l.flatMap Range.toList).length = blocksOf l := by
  simp [List.length_flatMap, blocksOf]

theorem blocksOf_reverse (l : List Range) : blocksOf l.reverse = blocksOf l := by
  rw [blocksOf, List.map_reverse, List.sum_reverse]
  rfl

/-- Ranges from the last to the first. -/
def Decreasing (rs : List Range) : Prop :=
  (rs.Pairwise fun r r' => r'.2 ≤ r.1) ∧ ∀ r ∈ rs, r.1 < r.2

theorem Decreasing.tail (h : Decreasing (r :: rs)) : Decreasing rs :=
  ⟨(List.pairwise_cons.mp h.1).2, fun r' hr' => h.2 r' (List.mem_cons_of_mem r hr')⟩

theorem Decreasing.le_of_mem (h : Decreasing (r :: rs)) {r' : Range} (hr' : r' ∈ rs) : r'.2 ≤ r.1 :=
  (List.pairwise_cons.mp h.1).1 r' hr'

/-- The blocks of the ranges before `r` fit in front of it: no packed block is behind its
position. -/
theorem Decreasing.blocksOf_le (h : Decreasing (r :: rs)) : blocksOf rs ≤ r.1 := by
  induction rs generalizing r with
  | nil => exact Nat.zero_le _
  | cons r' rs ih =>
    have hle := ih h.tail
    have hlast := h.le_of_mem List.mem_cons_self
    have hpos := h.2 r' (List.mem_cons_of_mem r List.mem_cons_self)
    rw [blocksOf_cons]
    omega

/-- The packed blocks fit into a buffer that reaches to the end of the last range. -/
theorem Decreasing.blocksOf_mul_le (h : Decreasing rs)
    (hlast : ∀ r ∈ rs, r.2 * BLOCKSIZE ≤ buffer.length) :
    blocksOf rs * BLOCKSIZE ≤ buffer.length := by
  cases rs with
  | nil => exact (Nat.zero_mul _).trans_le (Nat.zero_le _)
  | cons r rs =>
    have hle := h.blocksOf_le
    have hpos := h.2 r List.mem_cons_self
    have hblocks : blocksOf (r :: rs) ≤ r.2 := by
      rw [blocksOf_cons]
      omega
    exact (Nat.mul_le_mul_right _ hblocks).trans (hlast r List.mem_cons_self)

theorem mem_bytes_iff (hj : j < BLOCKSIZE) :
    (r.1 * BLOCKSIZE ≤ b * BLOCKSIZE + j ∧ b * BLOCKSIZE + j < r.2 * BLOCKSIZE) ↔
    b ∈ Range.toList r := by
  rw [Range.mem_toList]
  simp only [BLOCKSIZE] at *
  omega

/-! ## One step -/

/-- What a step moves. -/
def packed (source : List UInt8) (start blocks : Nat) : List UInt8 :=
  (source.drop (start * BLOCKSIZE)).take (blocks * BLOCKSIZE)

theorem length_packed {start blocks : Nat}
    (h : start * BLOCKSIZE + blocks * BLOCKSIZE ≤ source.length) :
    (packed source start blocks).length = blocks * BLOCKSIZE := by
  rw [packed, List.length_take, List.length_drop]
  omega

theorem moveLoop_cons {f : List UInt8 → List UInt8} (hrs : Decreasing (r :: rs))
    (hsource : blocksOf (r :: rs) * BLOCKSIZE ≤ (f dest).length)
    (hdest : r.2 * BLOCKSIZE ≤ dest.length) : moveLoop f (r :: rs) (blocksOf (r :: rs)) dest =
      moveLoop f rs (blocksOf rs)
        (overwriteAt dest (r.1 * BLOCKSIZE) (packed (f dest) (blocksOf rs) (r.2 - r.1))) := by
  have hpos := hrs.2 r List.mem_cons_self
  have hstart : blocksOf (r :: rs) - (r.2 - r.1) = blocksOf rs := by
    rw [blocksOf_cons]
    omega
  rw [moveLoop, hstart]
  rw [blocksOf_cons] at hsource
  rw [if_pos ⟨by rw [← Nat.add_mul, Nat.add_comm]; exact hsource,
    by rw [← Nat.add_mul, Nat.add_sub_cancel' hpos.le]; exact hdest⟩]
  rfl

theorem getElem?_step {start : Nat} (hr : r.1 < r.2)
    (hsource : start * BLOCKSIZE + (r.2 - r.1) * BLOCKSIZE ≤ source.length)
    (hdest : r.2 * BLOCKSIZE ≤ dest.length) (hj : j < BLOCKSIZE) :
    (overwriteAt dest (r.1 * BLOCKSIZE) (packed source start (r.2 - r.1)))[b * BLOCKSIZE + j]? =
      if b ∈ Range.toList r then source[(start + (b - r.1)) * BLOCKSIZE + j]?
      else dest[b * BLOCKSIZE + j]? := by
  have hlen := length_packed hsource
  have hend : r.1 * BLOCKSIZE + (r.2 - r.1) * BLOCKSIZE = r.2 * BLOCKSIZE := by
    rw [← Nat.add_mul, Nat.add_sub_cancel' hr.le]
  rw [getElem?_overwriteAt (by omega), hlen, hend]
  by_cases hb : b ∈ Range.toList r
  · have hbytes := (mem_bytes_iff hj).mpr hb
    obtain ⟨hlo, hhi⟩ := Range.mem_toList.mp hb
    have hindex : b * BLOCKSIZE + j - r.1 * BLOCKSIZE = (b - r.1) * BLOCKSIZE + j := by
      have hle := Nat.mul_le_mul_right BLOCKSIZE hlo
      rw [Nat.sub_mul]
      omega
    have hin : (b - r.1) * BLOCKSIZE + j < (r.2 - r.1) * BLOCKSIZE := by omega
    rw [if_pos hbytes, if_pos hb, packed, hindex, List.getElem?_take_of_lt hin, List.getElem?_drop,
      Nat.add_mul, Nat.add_assoc]
  · rw [if_neg fun h => hb ((mem_bytes_iff hj).mp h), if_neg hb]

/-! ## From another buffer -/

theorem positions_cons (r : Range) (rs : List Range) :
    (r :: rs).reverse.flatMap Range.toList = rs.reverse.flatMap Range.toList ++ Range.toList r := by
  rw [List.reverse_cons, List.flatMap_append, List.flatMap_singleton]

theorem Decreasing.not_mem_positions (h : Decreasing (r :: rs)) (hb : b ∈ Range.toList r) :
    b ∉ rs.reverse.flatMap Range.toList := by
  intro hmem
  obtain ⟨r', hr', hb'⟩ := List.mem_flatMap.mp hmem
  have hle := h.le_of_mem (List.mem_reverse.mp hr')
  rw [Range.mem_toList] at hb hb'
  omega

/-- The loop puts packed block `k` at the position of index `k`, and leaves the other blocks as they
are. -/
theorem moveLoop_spec (hrs : Decreasing rs) (hsource : blocksOf rs * BLOCKSIZE ≤ source.length)
    (hdest : ∀ r ∈ rs, r.2 * BLOCKSIZE ≤ dest.length) :
    ∃ result, moveLoop (fun _ => source) rs (blocksOf rs) dest = some result ∧
    result.length = dest.length ∧
      (∀ k b, (rs.reverse.flatMap Range.toList)[k]? = some b → ∀ j < BLOCKSIZE,
        result[b * BLOCKSIZE + j]? = source[k * BLOCKSIZE + j]?) ∧
      ∀ b, b ∉ rs.reverse.flatMap Range.toList → ∀ j < BLOCKSIZE,
        result[b * BLOCKSIZE + j]? = dest[b * BLOCKSIZE + j]? := by
  induction rs generalizing dest with
  | nil => exact ⟨dest, rfl, rfl, by simp, fun _ _ _ _ => rfl⟩
  | cons r rs ih =>
    have hr := hrs.2 r List.mem_cons_self
    have hlast := hdest r List.mem_cons_self
    have hfirst : blocksOf rs * BLOCKSIZE + (r.2 - r.1) * BLOCKSIZE ≤ source.length := by
      rw [← Nat.add_mul, Nat.add_comm, ← blocksOf_cons]
      exact hsource
    have hlength :
        (overwriteAt dest (r.1 * BLOCKSIZE) (packed source (blocksOf rs) (r.2 - r.1))).length =
        dest.length := by
      refine length_overwriteAt ?_
      rw [length_packed hfirst, ← Nat.add_mul, Nat.add_sub_cancel' hr.le]
      exact hlast
    obtain ⟨result, hloop, hlen, hmoved, hkept⟩ := @ih
      (overwriteAt dest (r.1 * BLOCKSIZE) (packed source (blocksOf rs) (r.2 - r.1))) hrs.tail
        (by omega)
      fun r' hr' => by rw [hlength]; exact hdest r' (List.mem_cons_of_mem r hr')
    rw [positions_cons]
    refine ⟨result, by rw [moveLoop_cons hrs hsource hlast, hloop], hlen.trans hlength, ?_, ?_⟩
    · intro k b hk j hj
      rw [List.getElem?_append, length_positions, blocksOf_reverse] at hk
      split at hk
      · exact hmoved k b hk j hj
      · rename_i hge
        have hb : b ∈ Range.toList r := List.mem_of_getElem? hk
        have hindex : b = r.1 + (k - blocksOf rs) := by
          have hlt := (List.getElem?_eq_some_iff.mp hk).1
          rw [Range.length_toList] at hlt
          rw [Range.toList, List.getElem?_range' hlt, Nat.one_mul] at hk
          exact (Option.some.inj hk).symm
        have hsum : blocksOf rs + (b - r.1) = k := by omega
        rw [hkept b (hrs.not_mem_positions hb) j hj, getElem?_step hr hfirst hlast hj,
          if_pos hb, hsum]
    · intro b hb j hj
      rw [List.mem_append, not_or] at hb
      rw [hkept b hb.1 j hj, getElem?_step hr hfirst hlast hj, if_neg hb.2]

/-! ## In place -/

/-- What has still to be moved is in front of what has been written: the buffer serves as well as a
copy. -/
theorem moveLoop_id (hrs : Decreasing rs) (hlength : dest.length = buffer.length)
    (hlast : ∀ r ∈ rs, r.2 * BLOCKSIZE ≤ buffer.length)
    (hsame : ∀ r ∈ rs, dest.take (r.2 * BLOCKSIZE) = buffer.take (r.2 * BLOCKSIZE)) :
    moveLoop id rs (blocksOf rs) dest = moveLoop (fun _ => buffer) rs (blocksOf rs) dest := by
  induction rs generalizing dest with
  | nil => rfl
  | cons r rs ih =>
    have hr := hrs.2 r List.mem_cons_self
    have hend := hlast r List.mem_cons_self
    have hblocks : blocksOf (r :: rs) ≤ r.2 := by
      have hle := hrs.blocksOf_le
      rw [blocksOf_cons]
      omega
    have hfits : blocksOf (r :: rs) * BLOCKSIZE ≤ buffer.length :=
      (Nat.mul_le_mul_right _ hblocks).trans hend
    have hbytes : blocksOf rs * BLOCKSIZE + (r.2 - r.1) * BLOCKSIZE ≤ r.2 * BLOCKSIZE := by
      rw [← Nat.add_mul, Nat.add_comm, ← blocksOf_cons]
      exact Nat.mul_le_mul_right _ hblocks
    have hpacked :
        packed dest (blocksOf rs) (r.2 - r.1) = packed buffer (blocksOf rs) (r.2 - r.1) := by
      have htake (l : List UInt8) : packed (l.take (r.2 * BLOCKSIZE)) (blocksOf rs) (r.2 - r.1) =
          packed l (blocksOf rs) (r.2 - r.1) := by
        rw [packed, packed, List.drop_take, List.take_take, Nat.min_eq_left (by omega)]
      rw [← htake dest, hsame r List.mem_cons_self, htake]
    have hlen :
        (overwriteAt dest (r.1 * BLOCKSIZE) (packed dest (blocksOf rs) (r.2 - r.1))).length =
        dest.length := by
      refine length_overwriteAt ?_
      rw [length_packed (by omega), ← Nat.add_mul, Nat.add_sub_cancel' hr.le, hlength]
      exact hend
    rw [moveLoop_cons hrs (by rw [id, hlength]; exact hfits) (by rw [hlength]; exact hend),
      moveLoop_cons hrs hfits (by rw [hlength]; exact hend), id, ih hrs.tail (hlen.trans hlength)
        (fun r' hr' => hlast r' (List.mem_cons_of_mem r hr')) ?_, hpacked]
    intro r' hr'
    have hle : r'.2 * BLOCKSIZE ≤ r.1 * BLOCKSIZE := Nat.mul_le_mul_right _ (hrs.le_of_mem hr')
    have hin : r.1 * BLOCKSIZE ≤ dest.length := by
      rw [hlength]
      exact (Nat.mul_le_mul_right _ hr.le).trans hend
    rw [← hsame r' (List.mem_cons_of_mem r hr'), overwriteAt, List.append_assoc,
      List.take_append_of_le_length (by rw [List.length_take]; omega), List.take_take,
      Nat.min_eq_left hle]

/-! ## Buffers of blocks -/

/-- The bytes of some blocks. -/
def bytesOf (l : List Block) : List UInt8 := l.flatMap Block.bytes

theorem length_bytesOf (l : List Block) : (bytesOf l).length = l.length * BLOCKSIZE := by
  simp [bytesOf, List.length_flatMap]

theorem take_bytesOf (l : List Block) (n : Nat) :
    (bytesOf l).take (n * BLOCKSIZE) = bytesOf (l.take n) := by
  induction l generalizing n with
  | nil => simp [bytesOf]
  | cons b l ih =>
    cases n with
    | zero => simp [bytesOf]
    | succ n =>
      have hsplit : (n + 1) * BLOCKSIZE = b.bytes.length + n * BLOCKSIZE := by
        rw [Block.length_bytes, Nat.succ_mul, Nat.add_comm]
      rw [bytesOf, List.flatMap_cons, hsplit, List.take_length_add_append, ← bytesOf, ih]
      rfl

theorem drop_bytesOf (l : List Block) (n : Nat) :
    (bytesOf l).drop (n * BLOCKSIZE) = bytesOf (l.drop n) := by
  have hsplit := List.take_append_drop (n * BLOCKSIZE) (bytesOf l)
  have hblocks : bytesOf (l.take n) ++ bytesOf (l.drop n) = bytesOf l := by
    rw [bytesOf, bytesOf, ← List.flatMap_append, List.take_append_drop]
    rfl
  rw [take_bytesOf, ← hblocks] at hsplit
  rw [← hblocks]
  exact List.append_cancel_left hsplit

theorem overwriteAt_bytesOf (l xs : List Block) (p : Nat) :
    overwriteAt (bytesOf l) (p * BLOCKSIZE) (bytesOf xs) = bytesOf (overwriteAt l p xs) := by
  rw [overwriteAt, length_bytesOf, ← Nat.add_mul, take_bytesOf, drop_bytesOf, overwriteAt, bytesOf,
    bytesOf, bytesOf, bytesOf, List.flatMap_append, List.flatMap_append]

/-- On the bytes of a buffer of blocks the loop does what it does on the blocks. -/
theorem moveLoop_bytesOf {f : List UInt8 → List UInt8} {g : List Block → List Block}
    (hf : ∀ l, f (bytesOf l) = bytesOf (g l)) (hrs : ∀ r ∈ rs, r.1 < r.2) (l : List Block) :
    moveLoop f rs (blocksOf rs) (bytesOf l) =
    (BootableRecovery.moveLoop g rs (blocksOf rs) l).map bytesOf := by
  induction rs generalizing l with
  | nil => rfl
  | cons r rs ih =>
    have hr := hrs r List.mem_cons_self
    have hstart : blocksOf (r :: rs) - (r.2 - r.1) = blocksOf rs := by
      rw [blocksOf_cons]
      omega
    have hcond : (blocksOf rs * BLOCKSIZE + (r.2 - r.1) * BLOCKSIZE ≤ (g l).length * BLOCKSIZE ∧
        r.1 * BLOCKSIZE + (r.2 - r.1) * BLOCKSIZE ≤ l.length * BLOCKSIZE) ↔
        blocksOf (r :: rs) ≤ (g l).length ∧ r.2 ≤ l.length := by
      rw [← Nat.add_mul, ← Nat.add_mul, Nat.add_sub_cancel' hr.le, Nat.add_comm, ← blocksOf_cons,
        Nat.mul_le_mul_right_iff (by decide), Nat.mul_le_mul_right_iff (by decide)]
    rw [moveLoop, BootableRecovery.moveLoop, hstart, hf, length_bytesOf, length_bytesOf]
    simp only [hcond]
    split
    · rw [drop_bytesOf, take_bytesOf, overwriteAt_bytesOf, ih fun r' hr' =>
        hrs r' (List.mem_cons_of_mem r hr')]
    · rfl

end

/-- `MoveRange` on blocks, as the commands use it, is `MoveRange` on their bytes. -/
theorem moveRangeInPlace_bytesOf (buffer : List Block) (locs : RangeSet) :
    moveRangeInPlace (bytesOf buffer) locs =
    (BootableRecovery.moveRangeInPlace buffer locs).map bytesOf := by
  have hblocks : locs.blocks = blocksOf locs.ranges.reverse := (blocksOf_reverse _).symm
  rw [moveRangeInPlace, BootableRecovery.moveRangeInPlace, hblocks]
  exact moveLoop_bytesOf (fun _ => rfl)
    (fun r hr => locs.nonempty r (List.mem_reverse.mp hr)) buffer

theorem Increasing.decreasing {locs : RangeSet} (h : Increasing locs.ranges) :
    Decreasing locs.ranges.reverse :=
  ⟨List.pairwise_reverse.mpr h, fun r hr => locs.nonempty r (List.mem_reverse.mp hr)⟩

/-- In place, packed block `k` is put at the position of index `k`, as from a copy of the buffer. -/
theorem moveRangeInPlace_spec {locs : RangeSet} (hlocs : Increasing locs.ranges)
    {buffer : List UInt8}
    (hlast : ∀ r ∈ locs.ranges, r.2 * BLOCKSIZE ≤ buffer.length) :
    ∃ result, moveRangeInPlace buffer locs = some result ∧ moveRange buffer locs buffer =
    some result ∧
      ∀ k < locs.blocks, ∃ b, locs.getBlockNumber k = some b ∧
        (result.drop (b * BLOCKSIZE)).take BLOCKSIZE =
        (buffer.drop (k * BLOCKSIZE)).take BLOCKSIZE := by
  have hrs := hlocs.decreasing
  have hlast' : ∀ r ∈ locs.ranges.reverse, r.2 * BLOCKSIZE ≤ buffer.length :=
    fun r hr => hlast r (List.mem_reverse.mp hr)
  have hblocks : locs.blocks = blocksOf locs.ranges.reverse := (blocksOf_reverse _).symm
  have hfits := hrs.blocksOf_mul_le hlast'
  obtain ⟨result, hcopy, hlen, hmoved, -⟩ := moveLoop_spec hrs hfits hlast'
  rw [List.reverse_reverse] at hmoved
  refine ⟨result, ?_, by rw [moveRange, hblocks, hcopy], ?_⟩
  · rw [moveRangeInPlace, hblocks, moveLoop_id hrs rfl hlast' fun _ _ => rfl, hcopy]
  · intro k hk
    have hlt : k < (locs.ranges.flatMap Range.toList).length := by
      rw [length_positions]
      exact hk
    refine ⟨_,
      by rw [RangeSet.getBlockNumber, if_pos hk, blockAt_eq, List.getElem?_eq_getElem hlt], ?_⟩
    apply List.ext_getElem?
    intro j
    rw [List.getElem?_take, List.getElem?_take, List.getElem?_drop, List.getElem?_drop]
    split
    · rename_i hj
      exact hmoved k _ (List.getElem?_eq_getElem hlt) j hj
    · rfl

/-- Blocks of ones, twos, threes and fours. -/
def fourBlocks : List UInt8 := ([1, 2, 3, 4] : List UInt8).flatMap (List.replicate BLOCKSIZE)

/-- The second block moves over the third one, which moves over the fourth one. -/
theorem moveRangeInPlace_spec_overlapping :
    ∃ result, moveRangeInPlace fourBlocks ⟨[(0, 1), (2, 4)], by decide⟩ = some result ∧
      (result.drop (2 * BLOCKSIZE)).take BLOCKSIZE = List.replicate BLOCKSIZE 2 ∧
      (result.drop (3 * BLOCKSIZE)).take BLOCKSIZE = List.replicate BLOCKSIZE 3 := by
  have hfour (pre post : List UInt8) (v : UInt8) (hsplit : [1, 2, 3, 4] = pre ++ v :: post) :
      (fourBlocks.drop (pre.length * BLOCKSIZE)).take BLOCKSIZE = List.replicate BLOCKSIZE v := by
    rw [fourBlocks, hsplit, List.flatMap_append, List.flatMap_cons, List.drop_left' (by simp),
      List.take_left' List.length_replicate]
  have hlen : fourBlocks.length = 4 * BLOCKSIZE := by
    simp [fourBlocks]
    omega
  obtain ⟨result, hmove, -, hblocks⟩ := @moveRangeInPlace_spec ⟨[(0, 1), (2, 4)], by decide⟩
    (by unfold Increasing; decide) fourBlocks (by rw [hlen]; decide)
  refine ⟨result, hmove, ?_, ?_⟩
  · obtain ⟨b, hb, hsecond⟩ := hblocks 1 (by decide)
    cases hb
    exact hsecond.trans (hfour [1] [3, 4] 2 rfl)
  · obtain ⟨b, hb, hthird⟩ := hblocks 2 (by decide)
    cases hb
    exact hthird.trans (hfour [1, 2] [4] 3 rfl)

end BootableRecovery.Scatter
