import BootableRecovery.OtaUtil.RangeText

/-!
# Splitting a set into groups

`Split` cuts the sequence of the blocks into consecutive groups. `remaining` is what the loops have
still to hand out: the rest of the current range and the ranges after it.
-/

namespace BootableRecovery

namespace RangeSet

/-- A set that the operations of the class build, so that its size is below `SIZE_MAX`. -/
inductive Built : RangeSet → Prop where
  | empty : Built empty
  | pushBack {rs rs' : RangeSet} {r : Range} : Built rs → rs.pushBack r = some rs' → Built rs'

variable {rs rs' buffer : RangeSet} {range : Range} {it : List Range} {needed groups : Nat}

theorem Built.blocks_lt (h : rs.Built) : rs.blocks < SIZE_MAX := by
  induction h with
  | empty => decide
  | pushBack _ hpush _ =>
    rw [blocks_eq_add (pushBack_eq_some hpush).1]
    rw [RangeSet.pushBack] at hpush
    split at hpush
    · split at hpush
      · cases hpush
      · omega
    · cases hpush

theorem Built.foldlM {pairs : List Range} (h : rs.Built)
    (hpush : pairs.foldlM RangeSet.pushBack rs = some rs') : rs'.Built := by
  induction pairs generalizing rs with
  | nil =>
    cases hpush
    exact h
  | cons r pairs ih =>
    rw [List.foldlM_cons] at hpush
    obtain ⟨next, hnext, hpush⟩ := Option.bind_eq_some_iff.mp hpush
    exact ih (h.pushBack hnext) hpush

theorem built_ofPairs (pairs : List Range) : (ofPairs pairs).Built := by
  rw [ofPairs]
  cases h : pairs.foldlM RangeSet.pushBack empty with
  | none => exact .empty
  | some rs => exact Built.empty.foldlM h

theorem built_parse (s : Text) : (parse s).Built := by
  unfold parse
  split
  · split
    · exact .empty
    · split
      · exact .empty
      · split
        · exact .empty
        · rcases parsePairs _ with _ | pairs
          · exact .empty
          · exact built_ofPairs pairs
  · exact .empty

/-! ## One group -/

/-- The blocks from the current range on. -/
def remaining (range : Range) : List Range → List Nat
  | [] => []
  | _ :: it => Range.toList range ++ it.flatMap Range.toList

theorem toList_pushBack (buffer : RangeSet) {r : Range} (hr : r.1 < r.2)
    (hsize : buffer.blocks + (r.2 - r.1) < SIZE_MAX) :
    ((buffer.pushBack r).getD buffer).toList = buffer.toList ++ Range.toList r := by
  obtain ⟨rs', hrs', hranges⟩ := pushBack_of_lt buffer hr hsize
  rw [hrs', Option.getD_some, toList, hranges, List.flatMap_append, List.flatMap_singleton]
  rfl

theorem toList_split {n : Nat} (hn : n ≤ range.2 - range.1) :
    Range.toList range = Range.toList (range.1, range.1 + n) ++
    Range.toList (range.1 + n, range.2) := by
  simp only [Range.toList]
  rw [Nat.add_sub_cancel_left, List.range'_append_1]
  congr 1
  omega

theorem fillGroup_spec (buffer : RangeSet) (range : Range) (needed : Nat)
    (hrange : range.1 < range.2) (hit : ∀ r ∈ it, r.1 < r.2)
    (hsize : buffer.blocks + needed < SIZE_MAX) (hneeded : needed ≤ (remaining range it).length) :
    ∃ buffer' range' it', fillGroup buffer range it needed = some (buffer', range', it') ∧
      buffer'.toList = buffer.toList ++ (remaining range it).take needed ∧
      remaining range' it' = (remaining range it).drop needed ∧
      range'.1 < range'.2 ∧ ∀ r ∈ it', r.1 < r.2 := by
  induction it generalizing buffer range needed with
  | nil =>
    have hzero : needed = 0 := Nat.le_zero.mp hneeded
    rw [fillGroup, if_pos hzero, hzero]
    exact ⟨buffer, range, [], rfl, (List.append_nil _).symm, rfl, hrange, hit⟩
  | cons r it ih =>
    rw [fillGroup]
    by_cases hzero : needed = 0
    · rw [if_pos hzero, hzero]
      exact ⟨buffer, range, r :: it, rfl, (List.append_nil _).symm, rfl, hrange, hit⟩
    · rw [if_neg hzero]
      by_cases hlarge : range.2 - range.1 > needed
      · -- the cut is in the current range
        rw [if_pos hlarge]
        have hcut := toList_split (Nat.le_of_lt hlarge)
        have hlength : (Range.toList (range.1, range.1 + needed)).length = needed := by
          rw [Range.length_toList, Nat.add_sub_cancel_left]
        refine ⟨_, _, _, rfl, ?_, ?_, ?_, hit⟩
        · rw [toList_pushBack buffer (by dsimp only; omega) (by dsimp only; omega), remaining, hcut,
            List.append_assoc, List.take_left' hlength]
        · rw [remaining, remaining, hcut, List.append_assoc, List.drop_left' hlength]
        · dsimp only
          omega
      · rw [if_neg hlarge]
        have hle : range.2 - range.1 ≤ needed := Nat.le_of_not_lt hlarge
        rw [List.forall_mem_cons] at hit
        rw [remaining, List.length_append, Range.length_toList] at hneeded
        have hbuffer := toList_pushBack buffer hrange (by omega)
        have hblocks : ((buffer.pushBack range).getD buffer).blocks =
            buffer.blocks + (range.2 - range.1) := by
          rw [← length_toList, hbuffer, List.length_append, length_toList, Range.length_toList]
        have hnext : remaining (it.head?.getD range) it = it.flatMap Range.toList := by
          cases it with
          | nil => rfl
          | cons s it => rfl
        have hrange' : (it.head?.getD range).1 < (it.head?.getD range).2 := by
          cases it with
          | nil => exact hrange
          | cons s it => exact hit.2 s List.mem_cons_self
        obtain ⟨buffer', range', it', heq, htaken, hleft, hrest⟩ :=
          ih ((buffer.pushBack range).getD buffer) (it.head?.getD range)
            (needed - (range.2 - range.1)) hrange' hit.2 (by omega) (by rw [hnext]; omega)
        have hlength : (Range.toList range).length ≤ needed := by rwa [Range.length_toList]
        refine ⟨buffer', range', it', heq, ?_, ?_, hrest⟩
        · rw [htaken, hbuffer, hnext, remaining, List.take_append, List.take_of_length_le hlength,
            Range.length_toList, List.append_assoc]
        · rw [hleft, hnext, remaining, List.drop_append, List.drop_eq_nil_of_le hlength,
            Range.length_toList, List.nil_append]

/-! ## All groups -/

theorem splitLoop_spec (sizes : List Nat) (hrange : range.1 < range.2) (hit : ∀ r ∈ it, r.1 < r.2)
    (hlength : (remaining range it).length < SIZE_MAX)
    (hsizes : sizes.sum ≤ (remaining range it).length) :
    ∃ result, splitLoop sizes range it = some result ∧ result.map blocks = sizes ∧
      result.flatMap toList = (remaining range it).take sizes.sum := by
  induction sizes generalizing range it with
  | nil => exact ⟨[], rfl, rfl, by simp⟩
  | cons size sizes ih =>
    rw [List.sum_cons] at hsizes
    have hempty : empty.blocks = 0 := rfl
    obtain ⟨buffer, range', it', hfill, htaken, hleft, hrange', hit'⟩ :=
      fillGroup_spec empty range size hrange hit (by omega) (by omega)
    have hbuffer : buffer.toList = (remaining range it).take size := htaken
    have hrest : (remaining range' it').length = (remaining range it).length - size := by
      rw [hleft, List.length_drop]
    obtain ⟨result, heq, hblocks, hflat⟩ := ih hrange' hit' (by omega) (by omega)
    refine ⟨buffer :: result, ?_, ?_, ?_⟩
    · rw [splitLoop, hfill]
      show (splitLoop sizes range' it').bind _ = _
      rw [heq]
      rfl
    · rw [List.map_cons, hblocks, ← length_toList, hbuffer, List.length_take,
        Nat.min_eq_left (by omega)]
    · rw [List.flatMap_cons, hbuffer, hflat, hleft, List.sum_cons, List.take_add]

/-- The sizes of the groups: one more block for the first few of them. -/
def groupSizes (blocks groups : Nat) : List Nat :=
  List.replicate (blocks % groups) (blocks / groups + 1) ++
    List.replicate (groups - blocks % groups) (blocks / groups)

theorem sum_groupSizes (blocks : Nat) (hgroups : 0 < groups) :
    (groupSizes blocks groups).sum = blocks := by
  have hmod := Nat.mod_lt blocks hgroups
  rw [groupSizes, List.sum_append, List.sum_replicate_nat, List.sum_replicate_nat,
    Nat.mul_add, Nat.mul_one, Nat.add_right_comm, ← Nat.add_mul,
    Nat.add_sub_cancel' (Nat.le_of_lt hmod)]
  exact Nat.div_add_mod blocks groups

theorem length_groupSizes {blocks : Nat} (hgroups : 0 < groups) :
    (groupSizes blocks groups).length = groups := by
  have hmod := Nat.mod_lt blocks hgroups
  rw [groupSizes, List.length_append, List.length_replicate, List.length_replicate]
  omega

theorem pairwise_groupSizes (blocks groups : Nat) :
    (groupSizes blocks groups).Pairwise fun a b => b ≤ a ∧ a ≤ b + 1 := by
  rw [groupSizes, List.pairwise_append]
  refine ⟨List.pairwise_replicate.mpr (.inr ⟨Nat.le_refl _, Nat.le_succ _⟩),
    List.pairwise_replicate.mpr (.inr ⟨Nat.le_refl _, Nat.le_succ _⟩), fun a ha b hb => ?_⟩
  rw [(List.mem_replicate.mp ha).2, (List.mem_replicate.mp hb).2]
  exact ⟨Nat.le_succ _, Nat.le_refl _⟩

theorem pos_of_mem_groupSizes {blocks n : Nat} (hgroups : 0 < groups) (hle : groups ≤ blocks)
    (hn : n ∈ groupSizes blocks groups) : 0 < n := by
  have hmean : 0 < blocks / groups := Nat.div_pos hle hgroups
  rcases List.mem_append.mp hn with hn | hn
  · rw [(List.mem_replicate.mp hn).2]
    exact Nat.succ_pos _
  · rw [(List.mem_replicate.mp hn).2]
    exact hmean

theorem split_spec (h : rs.Built) (hvalid : rs.isValid = true) (hgroups : 0 < groups) :
    ∃ result, rs.split groups = some result ∧
      result.map blocks = groupSizes rs.blocks (min groups rs.blocks) ∧
      result.flatMap toList = rs.toList := by
  have hpos := blocks_pos hvalid
  rcases hranges : rs.ranges with _ | ⟨range, it⟩
  · simp [isValid, hranges] at hvalid
  · have hmin : (if rs.blocks < groups then rs.blocks else groups) = min groups rs.blocks := by
      split <;> omega
    have hnonempty := rs.nonempty
    rw [hranges] at hnonempty
    have hremaining : remaining range (range :: it) = rs.toList := by
      rw [toList, hranges]
      rfl
    have hsum := sum_groupSizes rs.blocks (show 0 < min groups rs.blocks by omega)
    obtain ⟨result, heq, hblocks, hflat⟩ := splitLoop_spec
      (groupSizes rs.blocks (min groups rs.blocks)) (hnonempty range List.mem_cons_self)
      hnonempty (by rw [hremaining, length_toList]; exact h.blocks_lt)
      (by rw [hsum, hremaining, length_toList])
    refine ⟨result, ?_, hblocks, ?_⟩
    · rw [split, hranges]
      dsimp only
      rw [if_neg (by omega), hmin]
      exact heq
    · rw [hflat, hsum, hremaining, ← length_toList, List.take_length]

end RangeSet

end BootableRecovery
