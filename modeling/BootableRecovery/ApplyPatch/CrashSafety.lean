import BootableRecovery.ApplyPatch.Partition
import BootableRecovery.Theory.System

/-!
# Runs of applypatch that are killed

A run saves the source in the cache before it writes the partition. If it is killed while it writes,
the next run takes its source from the cache, and `SaveFileContents` truncates the copy that it has
just read: until the copy is complete again, the source is nowhere. In all other states of all runs
the partition holds the source or the target, or the cache holds the source.
-/

namespace BootableRecovery.ApplyPatch

variable {env : PatchEnv} {args : PatchArgs} {S T : List UInt8} {s : Storage}

/-- A size and a digest are those of an image. -/
def Listed (env : PatchEnv) (img : List UInt8) (pair : Nat × Text) : Prop :=
  pair.1 = img.length ∧ parseSha1 pair.2 = some (env.sha1 img)

/-- A partition is patched from `S` to `T`: its name lists the two images, there is a patch that
maps `S` to `T`, nothing else has the digest of one of them, and the cache has enough space. -/
structure Patching (env : PatchEnv) (args : PatchArgs) (S T : List UInt8) : Prop where
  target : args.targetFilename = ['-']
  emmc : "EMMC:".toList.isPrefixOf args.sourceFilename = true
  name : ∃ pairs, parseName args.sourceFilename = some (partitionPath args.sourceFilename, pairs) ∧
    (∀ pair ∈ pairs, Listed env S pair ∨ Listed env T pair) ∧
    (∃ pair ∈ pairs, Listed env S pair) ∧ ∃ pair ∈ pairs, Listed env T pair
  targetSha1 : parseSha1 args.targetSha1Str = some (env.sha1 T)
  patch : ∃ patch, findMatchingPatch (env.sha1 S) args.patches = some patch ∧
    targetFrom env S patch (env.sha1 T) args.bonus = some T
  space : ∀ n, env.makeFreeSpaceOnCache n = true
  injective : ∀ data, (env.sha1 data = env.sha1 S → data = S) ∧
    (env.sha1 data = env.sha1 T → data = T)

/-- The partition starts with an image. -/
def Storage.Holds (s : Storage) (path : Text) (img : List UInt8) : Prop :=
  ∃ content, s.file path = some content ∧ img <+: content

/-- The source is not lost. -/
def Safe (path : Text) (S T : List UInt8) (s : Storage) : Prop :=
  s.Holds path S ∨ s.Holds path T ∨ s.cache = some S

/-- The partition has room for both images. -/
def Room (path : Text) (S T : List UInt8) (s : Storage) : Prop :=
  ∃ content, s.file path = some content ∧ S.length ≤ content.length ∧ T.length ≤ content.length

/-! ## The source of a run -/

theorem parsePairs_pos {l : List Text} {pairs : List (Nat × Text)} (h : parsePairs l = some pairs) :
    ∀ pair ∈ pairs, pair.1 ≠ 0 := by
  induction l using parsePairs.induct generalizing pairs with
  | case1 size sha1 rest ih =>
    rw [parsePairs] at h
    obtain ⟨n, -, h⟩ := Option.bind_eq_some_iff.mp h
    split at h
    · cases h
    · rename_i hn
      obtain ⟨rest', hrest, h⟩ := Option.bind_eq_some_iff.mp h
      cases h
      exact List.forall_mem_cons.mpr ⟨hn, ih hrest⟩
  | case2 l hl =>
    rw [parsePairs] at h
    · cases h
      simp
    · exact hl

theorem parseName_pos {filename path : Text} {pairs : List (Nat × Text)}
    (h : parseName filename = some (path, pairs)) : ∀ pair ∈ pairs, pair.1 ≠ 0 := by
  unfold parseName at h
  split at h
  · split at h
    · cases h
    · obtain ⟨pairs', hpairs, heq⟩ := Option.map_eq_some_iff.mp h
      cases heq
      intro pair hpair
      exact parsePairs_pos hpairs pair ((List.mem_insertionSort PairLE).mp hpair)
  · cases h

section
variable {content : List UInt8} {pairs : List (Nat × Text)}

theorem matchPairs_eq_some {data : List UInt8}
    (hinj : ∀ data, (env.sha1 data = env.sha1 S → data = S) ∧
      (env.sha1 data = env.sha1 T → data = T))
      (hpairs : ∀ pair ∈ pairs, Listed env S pair ∨ Listed env T pair)
      (h : matchPairs env content pairs = some data) :
      (data = S ∨ data = T) ∧ data <+: content := by
  induction pairs with
  | nil => cases h
  | cons pair pairs ih =>
    obtain ⟨size, sha1⟩ := pair
    rw [List.forall_mem_cons] at hpairs
    rw [matchPairs] at h
    split at h
    · cases h
    · split at h
      · cases h
      · rename_i digest hdigest
        split at h
        · rename_i heq
          cases h
          refine ⟨?_, List.take_prefix ..⟩
          rcases hpairs.1 with ⟨-, hsha⟩ | ⟨-, hsha⟩
          · exact .inl ((hinj _).1 (heq.trans (Option.some.inj (hdigest.symm.trans hsha))))
          · exact .inr ((hinj _).2 (heq.trans (Option.some.inj (hdigest.symm.trans hsha))))
        · exact ih hpairs.2 h

theorem matchPairs_eq_none (hroom : S.length ≤ content.length ∧ T.length ≤ content.length)
    (hpairs : ∀ pair ∈ pairs, Listed env S pair ∨ Listed env T pair)
    (h : matchPairs env content pairs = none) {img : List UInt8}
    (himg : ∃ pair ∈ pairs, Listed env img pair) : ¬ img <+: content := by
  induction pairs with
  | nil =>
    obtain ⟨pair, hpair, -⟩ := himg
    cases hpair
  | cons pair pairs ih =>
    obtain ⟨size, sha1⟩ := pair
    rw [List.forall_mem_cons] at hpairs
    have hread : ¬ content.length < size ∧ ∃ digest, parseSha1 sha1 = some digest := by
      rcases hpairs.1 with ⟨hsize, hsha⟩ | ⟨hsize, hsha⟩
      · exact ⟨by dsimp only at hsize; omega, _, hsha⟩
      · exact ⟨by dsimp only at hsize; omega, _, hsha⟩
    obtain ⟨hlen, digest, hdigest⟩ := hread
    rw [matchPairs, if_neg hlen, hdigest] at h
    dsimp only at h
    split at h
    · cases h
    · rename_i hne
      rw [List.exists_mem_cons_iff] at himg
      rcases himg with ⟨hsize, hsha⟩ | himg
      · intro hprefix
        apply hne
        dsimp only at hsize hsha
        rw [hsize, ← List.prefix_iff_eq_take.mp hprefix]
        exact Option.some.inj (hsha.symm.trans hdigest)
      · exact ih hpairs.2 h himg

end

section
variable (hP : Patching env args S T)
include hP

theorem Patching.source_ne_nil : S ≠ [] := by
  rintro rfl
  obtain ⟨pairs, hname, -, ⟨pair, hpair, hsize, -⟩, -⟩ := hP.name
  exact parseName_pos hname pair hpair hsize

/-- The partition is loaded as one of the images, or it holds none of them. -/
theorem Patching.load (hroom : Room (partitionPath args.sourceFilename) S T s) :
    (∃ data, loadFileContents env args.sourceFilename s = some data ∧ (data = S ∨ data = T) ∧
      s.Holds (partitionPath args.sourceFilename) data) ∨
    loadFileContents env args.sourceFilename s = none ∧
      ¬ s.Holds (partitionPath args.sourceFilename) S ∧
      ¬ s.Holds (partitionPath args.sourceFilename) T := by
  obtain ⟨pairs, hname, hpairs, hS, hT⟩ := hP.name
  obtain ⟨content, hfile, hlen⟩ := hroom
  have hload : loadFileContents env args.sourceFilename s = matchPairs env content pairs := by
    rw [loadFileContents, if_pos hP.emmc, loadPartitionContents, hname]
    simp [hfile]
  rw [hload]
  cases hmatch : matchPairs env content pairs with
  | some data =>
    obtain ⟨himg, hprefix⟩ := matchPairs_eq_some hP.injective hpairs hmatch
    exact .inl ⟨data, rfl, himg, content, hfile, hprefix⟩
  | none =>
    refine .inr ⟨rfl, ?_, ?_⟩
    · rintro ⟨content', hfile', hprefix⟩
      cases hfile.symm.trans hfile'
      exact matchPairs_eq_none hlen hpairs hmatch hS hprefix
    · rintro ⟨content', hfile', hprefix⟩
      cases hfile.symm.trans hfile'
      exact matchPairs_eq_none hlen hpairs hmatch hT hprefix

/-- In a safe state there is nothing to do, or the source is patched. It comes from the partition,
or from the copy if the partition cannot be loaded. -/
theorem Patching.chooseSource (hroom : Room (partitionPath args.sourceFilename) S T s)
    (hsafe : Safe (partitionPath args.sourceFilename) S T s) :
    chooseSource env args args.sourceFilename (env.sha1 T) s = .already ∧
        s.Holds (partitionPath args.sourceFilename) T ∨
      (∃ patch, chooseSource env args args.sourceFilename (env.sha1 T) s = .patch S patch ∧
        targetFrom env S patch (env.sha1 T) args.bonus = some T) ∧
        (s.Holds (partitionPath args.sourceFilename) S ∨
          loadFileContents env args.sourceFilename s = none) := by
  obtain ⟨patch, hfind, htarget⟩ := hP.patch
  rcases hP.load hroom with ⟨data, hload, himg, hholds⟩ | ⟨hload, hS, hT⟩
  · by_cases hdata : env.sha1 data = env.sha1 T
    · left
      refine ⟨by simp [ApplyPatch.chooseSource, hload, hdata], ?_⟩
      rwa [(hP.injective data).2 hdata] at hholds
    · right
      have hdataS : data = S := by
        rcases himg with rfl | rfl
        · rfl
        · exact absurd rfl hdata
      subst hdataS
      exact ⟨⟨patch,
        by simp [ApplyPatch.chooseSource, hload, hdata, hP.source_ne_nil, hfind], htarget⟩,
        .inl hholds⟩
  · right
    have hcache : s.cache = some S := by
      rcases hsafe with h | h | h
      · exact absurd h hS
      · exact absurd h hT
      · exact h
    exact ⟨⟨patch, by simp [ApplyPatch.chooseSource, hload, chooseCopy, hcache, hfind], htarget⟩,
      .inr hload⟩

/-- A run in a safe state does nothing, or it saves the source, writes the target and removes the
copy. It returns 0. -/
theorem Patching.run (hroom : Room (partitionPath args.sourceFilename) S T s)
    (hsafe : Safe (partitionPath args.sourceFilename) S T s) :
    applypatch env args () s = ([], some (0, ())) ∧ s.Holds (partitionPath args.sourceFilename) T ∨
      applypatch env args () s =
        (patchSteps (partitionPath args.sourceFilename) S T, some (0, ())) ∧
        (s.Holds (partitionPath args.sourceFilename) S ∨
          loadFileContents env args.sourceFilename s = none) := by
  rw [applypatch_apply hP.target hP.emmc hP.targetSha1]
  rcases hP.chooseSource hroom hsafe with ⟨hchoice, hT⟩ | ⟨⟨patch, hchoice, htarget⟩, hsource⟩
  · left
    rw [hchoice]
    exact ⟨rfl, hT⟩
  · right
    rw [hchoice]
    obtain ⟨content, hfile, -, hfits⟩ := hroom
    refine ⟨?_, hsource⟩
    dsimp only
    rw [generateTarget_of_some hP.emmc (hP.space _) htarget hfile, if_pos hfits]

end

/-! ## Kills -/

/-- The store that a run leaves if it is killed after `k` steps. -/
def killed (env : PatchEnv) (args : PatchArgs) (k : Nat) (s : Storage) : Storage :=
  (((applypatch env args).steps () s).take k).foldl Storage.apply s

/-- A run that cannot load the partition takes its source from the copy. It is not killed after it
has truncated the copy and before the copy is complete again. -/
def CopyKept (env : PatchEnv) (args : PatchArgs) (S : List UInt8) (k : Nat) (s : Storage) : Prop :=
  loadFileContents env args.sourceFilename s = none → k = 0 ∨ S.length < k

theorem take_saveSteps (data : List UInt8) (k : Nat) :
    (saveSteps data).take (k + 1) = saveSteps (data.take k) := by
  rw [saveSteps, List.take_succ_cons, ← List.map_take]
  rfl

theorem length_saveSteps (data : List UInt8) : (saveSteps data).length = data.length + 1 := by
  simp [saveSteps]

theorem take_writeSteps (path : Text) (start : Nat) (data : List UInt8) (k : Nat) :
    (writeSteps path start data).take k = writeSteps path start (data.take k) := by
  induction data generalizing start k with
  | nil => simp [writeSteps]
  | cons b data ih =>
    cases k with
    | zero => rfl
    | succ k => rw [writeSteps, List.take_succ_cons, ih, List.take_succ_cons, writeSteps]

theorem length_writeSteps (path : Text) (start : Nat) (data : List UInt8) :
    (writeSteps path start data).length = data.length := by
  induction data generalizing start with
  | nil => rfl
  | cons b data ih => rw [writeSteps, List.length_cons, ih, List.length_cons]

/-- The store after some steps of a run: the copy is being made, or it is complete and the partition
is being written, or the target is in place. -/
theorem foldl_take_steps {path : Text} {content : List UInt8} (hfile : s.file path = some content)
    (hT : T.length ≤ content.length) (k : Nat) :
    let s' := ((patchSteps path S T).take k).foldl Storage.apply s
    k = 0 ∧ s' = s ∨
      (0 < k ∧ k ≤ S.length) ∧ s' = { s with cache := some (S.take (k - 1)) } ∨
      S.length < k ∧ s'.cache = some S ∧
        (∃ content', s'.file path = some content' ∧ content'.length = content.length) ∨
      S.length < k ∧ s' = { s with cache := none }.setFile path (T ++ content.drop T.length) := by
  intro s'
  cases k with
  | zero => exact .inl ⟨rfl, rfl⟩
  | succ k =>
    right
    rcases Nat.lt_or_ge k S.length with hsaving | hsaved
    · left
      refine ⟨by omega, ?_⟩
      have htake : (patchSteps path S T).take (k + 1) =
          saveSteps (S.take k) := by
        rw [patchSteps, List.take_append_of_le_length (by rw [length_saveSteps]; omega),
          take_saveSteps]
      show List.foldl _ s _ = _
      rw [htake, foldl_saveSteps, Nat.add_sub_cancel]
    · right
      have htake : (patchSteps path S T).take (k + 1) =
          saveSteps S ++ (writeSteps path 0 T ++ [DiskStep.unlinkCache]).take (k - S.length) := by
        rw [patchSteps, List.take_append, List.take_of_length_le (by rw [length_saveSteps]; omega),
          length_saveSteps, show k + 1 - (S.length + 1) = k - S.length by omega]
      have hfile' : { s with cache := some S }.file path = some content := hfile
      rcases Nat.lt_or_ge T.length (k - S.length) with hdone | hwriting
      · right
        have hall : (writeSteps path 0 T ++ [DiskStep.unlinkCache]).take (k - S.length) =
            writeSteps path 0 T ++ [DiskStep.unlinkCache] := by
          apply List.take_of_length_le
          rw [List.length_append, length_writeSteps, List.length_singleton]
          omega
        refine ⟨by omega, ?_⟩
        show List.foldl _ s _ = _
        rw [htake, hall, List.foldl_append, foldl_saveSteps, List.foldl_append,
          foldl_writeSteps_zero hfile' hT]
        rfl
      · left
        have hsome : (writeSteps path 0 T ++ [DiskStep.unlinkCache]).take (k - S.length) =
            writeSteps path 0 (T.take (k - S.length)) := by
          rw [List.take_append_of_le_length (by rw [length_writeSteps]; omega), take_writeSteps]
        have hlen : (T.take (k - S.length)).length ≤ content.length := by
          rw [List.length_take]
          omega
        have hs' : s' = { s with cache := some S }.setFile path (T.take (k - S.length) ++
            content.drop (T.take (k - S.length)).length) := by
          show List.foldl _ s _ = _
          rw [htake, hsome, List.foldl_append, foldl_saveSteps, foldl_writeSteps_zero hfile' hlen]
        rw [hs']
        refine ⟨by omega, rfl, _, Storage.setFile_file .., ?_⟩
        rw [List.length_append, List.length_drop]
        omega

section
variable (hP : Patching env args S T)
include hP

/-- A run that is killed in a safe state leaves a safe state, unless it was about to overwrite the
copy that it needs. -/
theorem Patching.killed (hroom : Room (partitionPath args.sourceFilename) S T s)
    (hsafe : Safe (partitionPath args.sourceFilename) S T s) (k : Nat) :
    Room (partitionPath args.sourceFilename) S T (killed env args k s) ∧
      (Safe (partitionPath args.sourceFilename) S T (killed env args k s) ↔
        CopyKept env args S k s) := by
  rcases hP.run hroom hsafe with ⟨hrun, hT⟩ | ⟨hrun, hsource⟩
  · have heq : ApplyPatch.killed env args k s = s := by
      rw [ApplyPatch.killed, Prog.steps, hrun, List.take_nil, List.foldl_nil]
    rw [heq]
    refine ⟨hroom, iff_of_true hsafe fun hload => ?_⟩
    rcases hP.load hroom with ⟨data, hdata, -⟩ | ⟨-, -, hnot⟩
    · rw [hdata] at hload
      cases hload
    · exact absurd hT hnot
  · have hload := hP.load hroom
    obtain ⟨content, hfile, hS, hT⟩ := hroom
    have hsteps := foldl_take_steps (S := S) hfile hT k
    rw [ApplyPatch.killed, Prog.steps, hrun]
    dsimp only at hsteps ⊢
    rcases hsteps with ⟨hk, heq⟩ | ⟨⟨hpos, hle⟩, heq⟩ | ⟨hlt, hcache, content', hfile',
      hlen⟩ | ⟨hlt, heq⟩
    · rw [heq]
      exact ⟨⟨content, hfile, hS, hT⟩, iff_of_true hsafe fun _ => .inl hk⟩
    · rw [heq]
      refine ⟨⟨content, hfile, hS, hT⟩, ?_⟩
      rcases hload with ⟨data, hdata, -⟩ | ⟨hnone, hnotS, hnotT⟩
      · have hholds : s.Holds (partitionPath args.sourceFilename) S := by
          rcases hsource with h | h
          · exact h
          · rw [hdata] at h
            cases h
        refine iff_of_true (.inl hholds) fun h => ?_
        rw [hdata] at h
        cases h
      · refine iff_of_false ?_ fun hkept => ?_
        · rintro (h | h | h)
          · exact hnotS h
          · exact hnotT h
          · have := congrArg (Option.map List.length) h
            simp only [Option.map_some, List.length_take, Option.some.injEq] at this
            omega
        · have := hkept hnone
          omega
    · exact ⟨⟨content', hfile', by omega, by omega⟩, iff_of_true (.inr (.inr hcache)) fun _ =>
        .inr hlt⟩
    · rw [heq]
      have hlen : (T ++ content.drop T.length).length = content.length := by
        rw [List.length_append, List.length_drop]
        omega
      exact ⟨⟨_, Storage.setFile_file .., by omega, by omega⟩,
        iff_of_true (.inr (.inl ⟨_, Storage.setFile_file .., List.prefix_append ..⟩)) fun _ =>
        .inr hlt⟩

theorem Patching.uninterrupted (hroom : Room (partitionPath args.sourceFilename) S T s)
    (hsafe : Safe (partitionPath args.sourceFilename) S T s) :
    (applypatch env args).result () s = some (0, ()) ∧
      (((applypatch env args).steps () s).foldl Storage.apply s).Holds
        (partitionPath args.sourceFilename) T := by
  rcases hP.run hroom hsafe with ⟨hrun, hT⟩ | ⟨hrun, -⟩
  · rw [Prog.result, Prog.steps, hrun]
    exact ⟨rfl, hT⟩
  · obtain ⟨content, hfile, -, hT⟩ := hroom
    have hfile' : { s with cache := some S }.file (partitionPath args.sourceFilename) =
        some content :=
      hfile
    rw [Prog.result, Prog.steps, hrun]
    refine ⟨rfl, T ++ content.drop T.length, ?_, List.prefix_append ..⟩
    rw [patchSteps, List.foldl_append, foldl_saveSteps, List.foldl_append,
      foldl_writeSteps_zero hfile' hT]
    exact Storage.setFile_file { s with cache := some S } _ _

end

/-- Runs one after the other, each of which is killed somewhere, but not while it overwrites the
copy that it needs. -/
def killedRuns (env : PatchEnv) (args : PatchArgs) (S T : List UInt8) : System Storage where
  init s := Room (partitionPath args.sourceFilename) S T s ∧
    Safe (partitionPath args.sourceFilename) S T s
  step s s' := ∃ k, CopyKept env args S k s ∧ s' = killed env args k s

/-- In every state that such runs reach, the partition holds the source or the target, or the cache
holds the source, and a run that is not killed returns 0 with the target in the partition. At each
moment of the next run this is so unless the run is overwriting the copy that it needs. -/
theorem killedRuns_safe (hP : Patching env args S T) (h : (killedRuns env args S T).Reach s) :
    Safe (partitionPath args.sourceFilename) S T s ∧
      (∀ k, Safe (partitionPath args.sourceFilename) S T (killed env args k s) ↔
        CopyKept env args S k s) ∧
      (applypatch env args).result () s = some (0, ()) ∧
      (((applypatch env args).steps () s).foldl Storage.apply s).Holds
        (partitionPath args.sourceFilename) T := by
  have hinv : (killedRuns env args S T).Inductive fun s =>
      Room (partitionPath args.sourceFilename) S T s ∧
        Safe (partitionPath args.sourceFilename) S T s := by
    constructor
    · exact fun s hs => hs
    · rintro s s' ⟨hroom, hsafe⟩ ⟨k, hkept, rfl⟩
      obtain ⟨hroom', hiff⟩ := hP.killed hroom hsafe k
      exact ⟨hroom', hiff.mpr hkept⟩
  obtain ⟨hroom, hsafe⟩ := hinv.reach h
  exact ⟨hsafe, fun k => (hP.killed hroom hsafe k).2, hP.uninterrupted hroom hsafe⟩

/-- The images `ab` and `cd`. -/
def imageAB : List UInt8 := [0x61, 0x62]

def imageCD : List UInt8 := [0x63, 0x64]

/-- A partition is patched from `ab` to `cd`. -/
def crashArgs : PatchArgs where
  sourceFilename := sampleName [imageAB, imageCD]
  targetFilename := ['-']
  targetSha1Str := hexText (sampleSha1 imageCD)
  patches := [(hexText (sampleSha1 imageAB), rawPatch imageCD)]
  bonus := none

theorem patching_crashArgs : Patching sampleEnv crashArgs imageAB imageCD where
  target := rfl
  emmc := by decide +kernel
  name := by
    refine ⟨[(2, hexText (sampleSha1 imageCD)), (2, hexText (sampleSha1 imageAB))],
      by decide +kernel, ?_, ?_, ?_⟩
    · rw [List.forall_mem_cons, List.forall_mem_singleton]
      exact ⟨.inr ⟨rfl, by decide +kernel⟩, .inl ⟨rfl, by decide +kernel⟩⟩
    · exact ⟨_, List.mem_cons_of_mem _ (List.mem_singleton_self _), rfl, by decide +kernel⟩
    · exact ⟨_, List.mem_cons_self, rfl, by decide +kernel⟩
  targetSha1 := by decide +kernel
  patch := ⟨rawPatch imageCD, by decide +kernel, by decide +kernel⟩
  space _ := rfl
  injective data := ⟨fun h => sampleSha1_injective h, fun h => sampleSha1_injective h⟩

/-- The source is in the partition. -/
def crashStart : Storage := ⟨fun _ => some imageAB, none⟩

theorem crashStart_safe : Room (partitionPath crashArgs.sourceFilename) imageAB imageCD
      crashStart ∧
    Safe (partitionPath crashArgs.sourceFilename) imageAB imageCD crashStart :=
  ⟨⟨_, rfl, by decide, by decide⟩, .inl ⟨_, rfl, List.prefix_rfl⟩⟩

/-- A run that is killed when it has written one byte of the target. -/
theorem killedRuns_safe_halfWritten :
    (killed sampleEnv crashArgs 4 crashStart).file ['p'] = some [0x63, 0x62] ∧
    Safe (partitionPath crashArgs.sourceFilename) imageAB imageCD
      (killed sampleEnv crashArgs 4 crashStart) := by
  have hkept : CopyKept sampleEnv crashArgs imageAB 4 crashStart := fun _ => .inr (by decide)
  refine ⟨by decide +kernel, ?_⟩
  exact (killedRuns_safe patching_crashArgs
    ((System.Reach.init crashStart_safe).step ⟨4, hkept, rfl⟩)).1

/-- The next run is killed when it has truncated the copy. Then the source is lost, and the run
after it fails. -/
theorem not_killedRuns_safe : Patching sampleEnv crashArgs imageAB imageCD ∧
    Room (partitionPath crashArgs.sourceFilename) imageAB imageCD crashStart ∧
    crashStart.Holds (partitionPath crashArgs.sourceFilename) imageAB ∧
    ¬ Safe (partitionPath crashArgs.sourceFilename) imageAB imageCD
      (killed sampleEnv crashArgs 1 (killed sampleEnv crashArgs 4 crashStart)) ∧
    (applypatch sampleEnv crashArgs).result ()
      (killed sampleEnv crashArgs 1 (killed sampleEnv crashArgs 4 crashStart)) = some (1, ()) := by
  refine ⟨patching_crashArgs, crashStart_safe.1, ⟨_, rfl, List.prefix_rfl⟩, ?_, by decide +kernel⟩
  have hfile : (killed sampleEnv crashArgs 1 (killed sampleEnv crashArgs 4 crashStart)).file
      (partitionPath crashArgs.sourceFilename) = some [0x63, 0x62] := by decide +kernel
  have hcache : (killed sampleEnv crashArgs 1 (killed sampleEnv crashArgs 4 crashStart)).cache ≠
      some imageAB := by decide +kernel
  rintro (⟨content, hcontent, hprefix⟩ | ⟨content, hcontent, hprefix⟩ | h)
  · cases hfile.symm.trans hcontent
    exact absurd hprefix (by decide)
  · cases hfile.symm.trans hcontent
    exact absurd hprefix (by decide)
  · exact hcache h

end BootableRecovery.ApplyPatch
