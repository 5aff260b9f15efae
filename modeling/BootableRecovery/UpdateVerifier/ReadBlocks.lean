import BootableRecovery.OtaUtil.Split

/-!
# Reading the blocks of the care map

`read_blocks` of `update_verifier/update_verifier.cpp`: the blocks of a range text are split into
one group for each thread, and every thread reads its group through a descriptor of its own. The
reads of the threads do not depend on each other, so they are given thread by thread.
-/

namespace BootableRecovery.UpdateVerifier

/-- A read: the offset on the device and the number of bytes. -/
abbrev Extent := Nat × Nat

/-- The byte offsets of a read. -/
def Extent.bytes (e : Extent) : List Nat := List.range' e.1 e.2

def kBlockSize : Nat := 4096

/-- The byte offsets of a block. -/
def blockBytes (b : Nat) : List Nat := List.range' (b * kBlockSize) kBlockSize

/-- What the program finds on the device. -/
structure Env where
  /-- The entries of `/sys/block` named `dm-X`, in the order of `alphasort`, with the content of
  `dm/name` if it can be read; `none` if the directory cannot be read. -/
  namelist : Option (List (Text × Option Text))
  BOARD_AVB_ENABLE : Bool
  hardware_concurrency : Nat
  /-- Whether `open`, `lseek64` to an offset and a read succeed in a thread. -/
  opens : Nat → Text → Bool
  seeks : Nat → Nat → Bool
  reads : Nat → Extent → Bool

/-- The `dm` device of a partition; the directory entries are tried from the last to the first. -/
def dmBlockDevice (env : Env) (partition : Text) (namelist : List (Text × Option Text)) :
    Option Text :=
  (namelist.reverse.find? fun entry => entry.2.any fun content =>
    let name := trim content
    let name := if env.BOARD_AVB_ENABLE && name = "vroot".toList then "system".toList else name
    name = partition).map fun entry => "/dev/block/".toList ++ entry.1

/-- The loop over the rest of a range: the reads that succeed, and whether all do. -/
def readRange (reads : Extent → Bool) (pos remain : Nat) : List Extent × Bool :=
  if remain = 0 then ([], true)
  else
    let toRead := min remain (1024 * kBlockSize)
    if reads (pos, toRead) then
      let (extents, ok) := readRange reads (pos + toRead) (remain - toRead)
      ((pos, toRead) :: extents, ok)
    else ([], false)
termination_by remain
decreasing_by
  simp only [kBlockSize]
  omega

/-- The loop of a thread over the ranges of its group. -/
def readRanges (seeks : Nat → Bool) (reads : Extent → Bool) : List Range → List Extent × Bool
  | [] => ([], true)
  | range :: group =>
    if seeks (range.1 * kBlockSize) then
      match readRange reads (range.1 * kBlockSize) ((range.2 - range.1) * kBlockSize) with
      | (extents, false) => (extents, false)
      | (extents, true) =>
        let (rest, ok) := readRanges seeks reads group
        (extents ++ rest, ok)
    else ([], false)

/-- A thread, with its number. -/
def threadFunc (env : Env) (device : Text) (thread : Nat) (group : RangeSet) : List Extent × Bool :=
  if env.opens thread device then readRanges (env.seeks thread) (env.reads thread) group.ranges
  else ([], false)

/-- The number of threads. -/
def threadNum (env : Env) : Nat :=
  if env.hardware_concurrency = 0 then 4 else env.hardware_concurrency

/-- `read_blocks`: its result, with the reads of each thread; `none` if `Split` goes wrong. -/
def readBlocks (env : Env) (partition rangeStr : Text) : Option (Bool × List (List Extent)) :=
  if partition ≠ "system".toList ∧ partition ≠ "vendor".toList ∧ partition ≠ "product".toList then
    some (false, [])
  else match env.namelist with
    | none => some (false, [])
    | some namelist => match dmBlockDevice env partition namelist with
      | none => some (false, [])
      | some device =>
        let ranges := RangeSet.parse rangeStr
        if ranges.isValid then do
          let groups ← ranges.split (threadNum env)
          let threads := groups.mapIdx (threadFunc env device)
          return (threads.all Prod.snd, threads.map Prod.fst)
        else some (false, [])

/-! ## What a thread reads -/

variable {env : Env} {seeks : Nat → Bool} {reads : Extent → Bool}

theorem bytes_of_blocks (b n : Nat) :
    (List.range' b n).flatMap blockBytes = List.range' (b * kBlockSize) (n * kBlockSize) := by
  induction n generalizing b with
  | zero => simp
  | succ n ih =>
    rw [List.range'_succ, List.flatMap_cons, ih, blockBytes, Nat.succ_mul, Nat.succ_mul,
      List.range'_append_1, Nat.add_comm]

/-- A thread reads the bytes in order, without gaps: all of them if it succeeds. -/
structure Covers (result : List Extent × Bool) (bytes : List Nat) : Prop where
  start : result.1.flatMap Extent.bytes <+: bytes
  all : result.2 = true → result.1.flatMap Extent.bytes = bytes

theorem Covers.nothing (bytes : List Nat) : Covers ([], false) bytes :=
  ⟨List.nil_prefix, fun h => absurd h Bool.false_ne_true⟩

theorem covers_readRange (reads : Extent → Bool) (pos remain : Nat) :
    Covers (readRange reads pos remain) (List.range' pos remain) := by
  induction pos, remain using readRange.induct reads with
  | case1 pos =>
    rw [readRange, if_pos rfl]
    exact ⟨List.nil_prefix, fun _ => rfl⟩
  | case2 pos remain hpos toRead hread extents ok heq ih =>
    rw [readRange, if_neg hpos]
    dsimp only
    rw [if_pos hread, heq]
    rw [heq] at ih
    have hsplit : List.range' pos remain =
        Extent.bytes (pos, toRead) ++ List.range' (pos + toRead) (remain - toRead) := by
      rw [Extent.bytes, List.range'_append_1, Nat.add_sub_cancel' (Nat.min_le_left ..)]
    rw [hsplit]
    refine ⟨?_, fun h => ?_⟩
    · rw [List.flatMap_cons]
      exact (List.prefix_append_right_inj _).mpr ih.start
    · rw [List.flatMap_cons, ih.all h]
  | case3 pos remain hpos toRead hread =>
    rw [readRange, if_neg hpos]
    dsimp only
    rw [if_neg hread]
    exact .nothing _

/-- The bytes of the blocks of ranges. -/
def bytesOf (l : List Range) : List Nat := (l.flatMap Range.toList).flatMap blockBytes

theorem bytesOf_cons (r : Range) (l : List Range) :
    bytesOf (r :: l) = List.range' (r.1 * kBlockSize) ((r.2 - r.1) * kBlockSize) ++ bytesOf l := by
  rw [bytesOf, List.flatMap_cons, List.flatMap_append, Range.toList, bytes_of_blocks]
  rfl

theorem covers_readRanges (l : List Range) : Covers (readRanges seeks reads l) (bytesOf l) := by
  induction l with
  | nil => exact ⟨List.nil_prefix, fun _ => rfl⟩
  | cons r l ih =>
    rw [readRanges, bytesOf_cons]
    split
    · have hrange := covers_readRange reads (r.1 * kBlockSize) ((r.2 - r.1) * kBlockSize)
      split
      · rename_i extents heq
        rw [heq] at hrange
        exact ⟨hrange.start.trans (List.prefix_append ..), fun h => absurd h Bool.false_ne_true⟩
      · rename_i extents heq
        rw [heq] at hrange
        have hall := hrange.all rfl
        refine ⟨?_, fun h => ?_⟩
        · rw [List.flatMap_append, hall]
          exact (List.prefix_append_right_inj _).mpr ih.start
        · rw [List.flatMap_append, hall, ih.all h]
    · exact .nothing _

theorem covers_threadFunc (env : Env) (device : Text) (thread : Nat) (group : RangeSet) :
    Covers (threadFunc env device thread group) (group.toList.flatMap blockBytes) := by
  rw [threadFunc]
  split
  · exact covers_readRanges group.ranges
  · exact .nothing _

theorem forall₂_mapIdx {α β : Type} {P : β → α → Prop} {l : List α} {f : Nat → α → β}
    (h : ∀ i a, P (f i a) a) : List.Forall₂ P (l.mapIdx f) l := by
  induction l generalizing f with
  | nil => exact .nil
  | cons a l ih =>
    rw [List.mapIdx_cons]
    exact .cons (h 0 a) (ih fun i a => h (i + 1) a)

theorem flatMap_of_covers {threads : List (List Extent × Bool)} {groups : List RangeSet}
    (h : List.Forall₂ (fun t g => Covers t (g.toList.flatMap blockBytes)) threads groups)
    (hall : threads.all Prod.snd = true) :
    (threads.map Prod.fst).flatten.flatMap Extent.bytes =
      (groups.flatMap RangeSet.toList).flatMap blockBytes := by
  induction h with
  | nil => rfl
  | cons hcovers hrest ih =>
    rw [List.all_cons, Bool.and_eq_true] at hall
    rw [List.map_cons, List.flatten_cons, List.flatMap_append, ih hall.2, hcovers.all hall.1,
      List.flatMap_cons, List.flatMap_append]

/-- No call of a thread fails. -/
structure Env.Faultless (env : Env) : Prop where
  opens : ∀ i device, env.opens i device = true
  seeks : ∀ i pos, env.seeks i pos = true
  reads : ∀ i e, env.reads i e = true

theorem snd_readRange (h : ∀ e, reads e = true) (pos remain : Nat) :
    (readRange reads pos remain).2 = true := by
  induction pos, remain using readRange.induct reads with
  | case1 pos =>
    rw [readRange, if_pos rfl]
  | case2 pos remain hpos toRead hread extents ok heq ih =>
    rw [readRange, if_neg hpos]
    dsimp only
    rw [if_pos hread]
    exact ih
  | case3 pos remain hpos toRead hread => exact absurd (h _) hread

theorem snd_readRanges (hseeks : ∀ pos, seeks pos = true) (hreads : ∀ e, reads e = true)
    (l : List Range) : (readRanges seeks reads l).2 = true := by
  induction l with
  | nil => rfl
  | cons r l ih =>
    rw [readRanges, if_pos (hseeks _)]
    have hrange := snd_readRange hreads (r.1 * kBlockSize) ((r.2 - r.1) * kBlockSize)
    split
    · rename_i extents heq
      rw [heq] at hrange
      exact absurd hrange Bool.false_ne_true
    · exact ih

theorem Env.Faultless.threadFunc (h : env.Faultless) (device : Text) (i : Nat) (group : RangeSet) :
    (threadFunc env device i group).2 = true := by
  rw [UpdateVerifier.threadFunc, if_pos (h.opens i device)]
  exact snd_readRanges (h.seeks i) (h.reads i) group.ranges

/-! ## The threads of `read_blocks` -/

/-- The groups are not empty, of almost the same size with the larger ones first, and together the
blocks of the set in order. -/
structure SplitsEvenly (rs : RangeSet) (groups : Nat) (result : List RangeSet) : Prop where
  length : result.length = min groups rs.blocks
  valid : ∀ g ∈ result, g.isValid = true
  blocks : result.flatMap RangeSet.toList = rs.toList
  sizes : (result.map RangeSet.blocks).Pairwise fun a b => b ≤ a ∧ a ≤ b + 1

/-- The threads read the groups of the range text in order and nothing else, all of them if the
result is true, which it is if no call fails. -/
structure ReadsOnce (env : Env) (partition rangeStr : Text) (ret : Bool)
    (threads : List (List Extent)) : Prop where
  within : threads ≠ [] → ∃ groups, (RangeSet.parse rangeStr).split (threadNum env) = some groups ∧
    List.Forall₂ (fun (t : List Extent) (g : RangeSet) =>
      t.flatMap Extent.bytes <+: g.toList.flatMap blockBytes) threads groups
  all : ret = true → threads.length = min (threadNum env) (RangeSet.parse rangeStr).blocks ∧
    threads.flatten.flatMap Extent.bytes = (RangeSet.parse rangeStr).toList.flatMap blockBytes
  succeeds : env.Faultless → partition ∈ ["system".toList, "vendor".toList, "product".toList] →
    (env.namelist.bind (dmBlockDevice env partition)).isSome →
    (RangeSet.parse rangeStr).isValid = true → ret = true

theorem isValid_of_blocks {g : RangeSet} (h : 0 < g.blocks) : g.isValid = true := by
  rw [RangeSet.isValid, Bool.not_eq_true', List.isEmpty_eq_false_iff]
  intro hnil
  rw [RangeSet.blocks, hnil] at h
  exact Nat.lt_irrefl _ h

theorem splitsEvenly_split {rs : RangeSet} {groups : Nat} (hbuilt : rs.Built)
    (hvalid : rs.isValid = true) (hgroups : 0 < groups) :
    ∃ result, rs.split groups = some result ∧ SplitsEvenly rs groups result := by
  have hmin : 0 < min groups rs.blocks := Nat.lt_min.mpr ⟨hgroups, RangeSet.blocks_pos hvalid⟩
  obtain ⟨result, heq, hblocks, hflat⟩ := RangeSet.split_spec hbuilt hvalid hgroups
  refine ⟨result, heq, ?_, ?_, hflat, ?_⟩
  · rw [← List.length_map (f := RangeSet.blocks), hblocks, RangeSet.length_groupSizes hmin]
  · intro g hg
    apply isValid_of_blocks
    apply RangeSet.pos_of_mem_groupSizes hmin (Nat.min_le_right ..)
    rw [← hblocks]
    exact List.mem_map_of_mem hg
  · rw [hblocks]
    exact RangeSet.pairwise_groupSizes _ _

theorem threadNum_pos (env : Env) : 0 < threadNum env := by
  rw [threadNum]
  split <;> omega

theorem readsOnce_readBlocks (env : Env) (partition rangeStr : Text) : ∃ ret threads,
    readBlocks env partition rangeStr = some (ret, threads) ∧
      ReadsOnce env partition rangeStr ret threads := by
  -- the ways out before any thread is started
  have hnone (h : env.Faultless → partition ∈ ["system".toList, "vendor".toList, "product".toList] →
      (env.namelist.bind (dmBlockDevice env partition)).isSome →
      (RangeSet.parse rangeStr).isValid = true → False) : ∃ ret threads,
      some (false, []) = some (ret, threads) ∧ ReadsOnce env partition rangeStr ret threads :=
    ⟨false, [], rfl, fun h => absurd rfl h, fun h => absurd h Bool.false_ne_true,
      fun h₁ h₂ h₃ h₄ => (h h₁ h₂ h₃ h₄).elim⟩
  rw [readBlocks]
  split
  · rename_i hname
    refine hnone fun _ hmem _ _ => ?_
    simp only [List.mem_cons, List.not_mem_nil, or_false] at hmem
    exact hmem.elim hname.1 fun h => h.elim hname.2.1 hname.2.2
  · split
    · rename_i hscan
      refine hnone fun _ _ hdevice _ => ?_
      rw [hscan] at hdevice
      exact Bool.false_ne_true hdevice
    · rename_i namelist hscan
      split
      · rename_i hfind
        refine hnone fun _ _ hdevice _ => ?_
        rw [hscan, Option.bind_some, hfind] at hdevice
        exact Bool.false_ne_true hdevice
      · rename_i device _
        dsimp only
        split
        · rename_i hvalid
          obtain ⟨groups, heq, hsplit⟩ :=
            splitsEvenly_split (RangeSet.built_parse rangeStr) hvalid (threadNum_pos env)
          have hcovers :
              List.Forall₂ (fun t (g : RangeSet) => Covers t (g.toList.flatMap blockBytes))
              (groups.mapIdx (threadFunc env device)) groups :=
            forall₂_mapIdx fun i g => covers_threadFunc env device i g
          rw [heq]
          refine ⟨_, _, rfl, fun _ => ⟨groups, heq, ?_⟩, fun hret => ⟨?_, ?_⟩, fun h _ _ _ => ?_⟩
          · rw [List.forall₂_map_left_iff]
            exact hcovers.imp fun _ _ h => h.start
          · rw [List.length_map, List.length_mapIdx, hsplit.length]
          · rw [flatMap_of_covers hcovers hret, hsplit.blocks]
          · rw [List.all_eq_true]
            intro t ht
            obtain ⟨i, hi, rfl⟩ := List.mem_mapIdx.mp ht
            exact h.threadFunc device i _
        · rename_i hinvalid
          exact hnone fun _ _ _ hvalid => hinvalid hvalid

/-- What `Split` gives, and that `read_blocks` reads every block of the range text once. -/
theorem readBlocks_split :
    (∀ (rs : RangeSet) (groups : Nat), rs.Built → rs.isValid = true → 0 < groups →
      ∃ result, rs.split groups = some result ∧ SplitsEvenly rs groups result) ∧
    ∀ (env : Env) (partition rangeStr : Text), ∃ ret threads,
      readBlocks env partition rangeStr = some (ret, threads) ∧
        ReadsOnce env partition rangeStr ret threads :=
  ⟨fun _ _ hbuilt hvalid hgroups => splitsEvenly_split hbuilt hvalid hgroups, readsOnce_readBlocks⟩

/-- Seventeen blocks, not in ascending order, for four threads. -/
theorem readBlocks_split_four :
    ∃ result, (RangeSet.ofPairs [(15, 20), (1, 13)]).split 4 = some result ∧ result.length = 4 :=
  (readBlocks_split.1 (RangeSet.ofPairs [(15, 20), (1, 13)]) 4 (RangeSet.built_ofPairs _)
    (by decide) (by decide)).imp fun _ h => ⟨h.1, h.2.length⟩

end BootableRecovery.UpdateVerifier
