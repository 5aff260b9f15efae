import BootableRecovery.ApplyPatch.CrashSafety

/-!
# Flashing an image

`applypatch_flash` of `applypatch/applypatch.cpp` writes a source to a partition that does not hold
it yet. The digest is checked over all of the source, and the number of bytes that are written is an
argument of its own; if the source cannot be loaded, the write is tried all the same.
-/

namespace BootableRecovery.ApplyPatch

/-- The arguments of `applypatch_flash`, of which the texts end before their first NUL. -/
structure FlashArgs where
  sourceFilename : Text
  targetFilename : Text
  targetSha1Str : Text
  targetSize : Nat
  targetSize_lt : targetSize < 2 ^ 64

variable (env : PatchEnv)

/-- `WriteToPartition` of `len` bytes from the data of a `FileContents` on, which may have fewer
bytes. A vector without elements has no storage, and every write from the null pointer fails. -/
def writeFileContents (data : List UInt8) (len : Nat) (target : Text) : PatchM Bool :=
  if data = [] ∧ 0 < len then return false
  else writeToPartition (env.lib.bytesAt data 0 len) target

/-- The name with which the target is loaded. -/
def flashName (args : FlashArgs) : Text :=
  [':'].intercalate ((cstr args.targetFilename).splitOn ':' ++
    [Nat.toDigits 10 args.targetSize, cstr args.targetSha1Str])

/-- The size of the vector that `LoadPartitionContents` makes once it has opened the device. -/
def partitionBuffer (filename : Text) (s : Storage) : Nat :=
  match parseName filename with
  | none => 0
  | some (path, pairs) => if (s.file path).isSome then ((pairs.getLast?).map Prod.fst).getD 0 else 0

/-- The size of the vector that `LoadFileContents` makes before it reads. -/
def fileBuffer (filename : Text) (s : Storage) : Nat :=
  if "EMMC:".toList.isPrefixOf filename then partitionBuffer filename s
  else ((s.file filename).map List.length).getD 0

/-- `applypatch_flash`; the result is what it returns. -/
def applypatchFlash (args : FlashArgs) : PatchM Nat := do
  match parseSha1 args.targetSha1Str with
  | none => return 1
  | some targetSha1 =>
    let pieces := (cstr args.targetFilename).splitOn ':'
    if pieces.length ≠ 2 ∨ pieces.head? ≠ some "EMMC".toList then return 1
    else
      let s ← Prog.store
      if ¬env.lib.CanAllocate (partitionBuffer (flashName args) s) then Prog.abort
      else
        let target := loadPartitionContents env (flashName args) s
        if target.any fun data => env.sha1 data = targetSha1 then return 0
        else if ¬env.lib.CanAllocate (fileBuffer (cstr args.sourceFilename) s) then Prog.abort
        else
          let source := loadFileContents env (cstr args.sourceFilename) s
          if source.any fun data => env.sha1 data ≠ targetSha1 then return 1
          -- without a source, `source_file` is what the load of the target has left
          else if ← writeFileContents env (source.getD (target.getD [])) args.targetSize
              (cstr args.targetFilename) then
            return 0
          else return 1

/-- The partition that is flashed. -/
def FlashArgs.path (args : FlashArgs) : Text := partitionPath (cstr args.targetFilename)

/-! ## What a run should do -/

variable (args : FlashArgs) (s : Storage)

/-- There is memory for the vectors that the source and the target are loaded into. -/
structure Loadable : Prop where
  target : (s.file args.path).isSome → env.lib.CanAllocate args.targetSize
  source : env.lib.CanAllocate (fileBuffer (cstr args.sourceFilename) s)

/-- The source is the image with the digest and the size of the target. -/
def SourceGood : Prop := env.lib.CanAllocate (fileBuffer (cstr args.sourceFilename) s) ∧
  ∃ data, loadFileContents env (cstr args.sourceFilename) s = some data ∧
    parseSha1 args.targetSha1Str = some (env.sha1 data) ∧ data.length = args.targetSize

/-- Only bytes of an image with the digest and the size of the target are written; if the source is
another one or cannot be loaded, the run fails and leaves the partition unchanged; and if it returns
0, the partition starts with such an image. -/
structure FlashMeets : Prop where
  writes : (applypatchFlash env args).steps () s = [] ∨
    ∃ image n, image.length = args.targetSize ∧ parseSha1 args.targetSha1Str =
    some (env.sha1 image) ∧
      (applypatchFlash env args).steps () s = writeSteps args.path 0 (image.take n)
  rejects : ¬SourceGood env args s →
    (∃ r, (applypatchFlash env args).result () s = some (r, ()) ∧ r ≠ 0) ∧
    (((applypatchFlash env args).steps () s).foldl Storage.apply s).file args.path =
    s.file args.path
  flashed : (applypatchFlash env args).result () s = some (0, ()) → ∃ content,
    (((applypatchFlash env args).steps () s).foldl Storage.apply s).file args.path = some content ∧
      args.targetSize ≤ content.length ∧
      parseSha1 args.targetSha1Str = some (env.sha1 (content.take args.targetSize))

/-- The partition starts with an image that has the digest and the size, which is not 0. -/
def Already : Prop := ∃ content, s.file args.path = some content ∧ 0 < args.targetSize ∧
  args.targetSize ≤ content.length ∧
  parseSha1 args.targetSha1Str = some (env.sha1 (content.take args.targetSize))

/-- A write of `len` bytes from `data` on fails without a change of the partition: it cannot be
opened, there are no data, or the partition is too short and already holds what is written until its
end. -/
def FailsUnchanged (data : List UInt8) : Prop :=
  s.file args.path = none ∨ (data = [] ∧ 0 < args.targetSize) ∨
  ∃ content, s.file args.path = some content ∧ content.length < args.targetSize ∧
    content = (env.lib.bytesAt data 0 args.targetSize).take content.length ∧
    (content = [] ∨ ∃ image, image.length = args.targetSize ∧
      parseSha1 args.targetSha1Str = some (env.sha1 image) ∧ content = image.take content.length)

/-- When a run does what it should. -/
def Flashable : Prop :=
  parseSha1 args.targetSha1Str = none ∨
  (cstr args.targetFilename).splitOn ':' ≠ ["EMMC".toList, args.path] ∨
  SourceGood env args s ∨
  Loadable env args s ∧ ¬Already env args s ∧
    match loadFileContents env (cstr args.sourceFilename) s with
    | none => FailsUnchanged env args s []
    | some data =>
      parseSha1 args.targetSha1Str ≠ some (env.sha1 data) ∨ FailsUnchanged env args s data

/-! ## The load of the target -/

section
variable {env args s} {targetSha1 : List UInt8}

theorem cstr_cstr (t : Text) : cstr (cstr t) = cstr t := List.takeWhile_idem ..

theorem parseSha1_cstr (t : Text) : parseSha1 (cstr t) = parseSha1 t := by
  rw [parseSha1, parseSha1, cstr_cstr]

theorem colon_not_mem_toDigits (n : Nat) : ':' ∉ Nat.toDigits 10 n := fun h =>
  absurd (isDigit_toDigits h) (by decide)

theorem colon_not_mem_of_hexBytes {t : Text} {bytes : List UInt8} (h : hexBytes t = some bytes) :
    ':' ∉ t := by
  induction t using hexBytes.induct generalizing bytes with
  | case1 => exact List.not_mem_nil
  | case2 a => cases h
  | case3 a b t ih =>
    rw [hexBytes] at h
    obtain ⟨high, hhigh, h⟩ := Option.bind_eq_some_iff.mp h
    obtain ⟨low, hlow, h⟩ := Option.bind_eq_some_iff.mp h
    obtain ⟨rest, hrest, -⟩ := Option.bind_eq_some_iff.mp h
    have hcolon : hexDigit ':' = none := by decide
    rw [List.mem_cons, List.mem_cons, not_or, not_or]
    refine ⟨fun heq => ?_, fun heq => ?_, ih hrest⟩
    · rw [← heq, hcolon] at hhigh
      cases hhigh
    · rw [← heq, hcolon] at hlow
      cases hlow

theorem splitOn_flashName (hsha : parseSha1 args.targetSha1Str = some targetSha1)
    (hpieces : (cstr args.targetFilename).splitOn ':' = ["EMMC".toList, args.path]) :
    (flashName args).splitOn ':' = ["EMMC".toList, args.path, Nat.toDigits 10 args.targetSize,
      cstr args.targetSha1Str] := by
  have hcolon : ':' ∉ cstr args.targetSha1Str := by
    rw [parseSha1] at hsha
    split at hsha
    · exact colon_not_mem_of_hexBytes hsha
    · cases hsha
  rw [flashName, List.splitOn_intercalate, hpieces]
  · rfl
  · intro l hl
    rcases List.mem_append.mp hl with hl | hl
    · exact (of_mem_splitOn hl).1
    · rcases List.mem_cons.mp hl with rfl | hl
      · exact colon_not_mem_toDigits _
      · rw [List.mem_singleton.mp hl]
        exact hcolon
  · simp

theorem parseName_flashName (hsha : parseSha1 args.targetSha1Str = some targetSha1)
    (hpieces : (cstr args.targetFilename).splitOn ':' = ["EMMC".toList, args.path]) :
    parseName (flashName args) = if args.targetSize = 0 then none
      else some (args.path, [(args.targetSize, cstr args.targetSha1Str)]) := by
  rw [parseName, splitOn_flashName hsha hpieces]
  dsimp only
  rw [if_neg (by simp), parsePairs, parseUint_toDigits args.targetSize_lt]
  by_cases hzero : args.targetSize = 0
  · simp [hzero]
  · simp [hzero, parsePairs]

theorem canAllocate_partitionBuffer_iff (hsha : parseSha1 args.targetSha1Str = some targetSha1)
    (hpieces : (cstr args.targetFilename).splitOn ':' = ["EMMC".toList, args.path]) :
    env.lib.CanAllocate (partitionBuffer (flashName args) s) ↔
      ((s.file args.path).isSome → env.lib.CanAllocate args.targetSize) := by
  have hzero : env.lib.CanAllocate 0 := ⟨by decide, Nat.zero_le _⟩
  rw [partitionBuffer, parseName_flashName hsha hpieces]
  by_cases hsize : args.targetSize = 0
  · simp [hsize, hzero]
  · rw [if_neg hsize]
    cases hfile : s.file args.path with
    | none => simpa [hfile] using hzero
    | some content => simp [hfile]

/-- The load of the target succeeds exactly if the partition starts with it. -/
theorem loadPartitionContents_flashName (hsha : parseSha1 args.targetSha1Str = some targetSha1)
    (hpieces : (cstr args.targetFilename).splitOn ':' = ["EMMC".toList, args.path])
    (data : List UInt8) : loadPartitionContents env (flashName args) s = some data ↔
      ∃ content, s.file args.path = some content ∧ 0 < args.targetSize ∧
        args.targetSize ≤ content.length ∧ env.sha1 (content.take args.targetSize) = targetSha1 ∧
        data = content.take args.targetSize := by
  have hsha' : parseSha1 (cstr args.targetSha1Str) = some targetSha1 := by
    rw [parseSha1_cstr, hsha]
  rw [loadPartitionContents, parseName_flashName hsha hpieces]
  by_cases hzero : args.targetSize = 0
  · simp [hzero]
  · rw [if_neg hzero]
    cases hfile : s.file args.path with
    | none => simp [hfile]
    | some content =>
      simp only [Option.bind_eq_bind, Option.bind_some, hfile, matchPairs, hsha']
      constructor
      · intro h
        split at h
        · cases h
        · rename_i hlen
          split at h
          · rename_i hdigest
            cases h
            exact ⟨content, rfl, Nat.pos_of_ne_zero hzero, Nat.le_of_not_lt hlen, hdigest, rfl⟩
          · cases h
      · rintro ⟨_, heq, -, hlen, hdigest, rfl⟩
        cases heq
        rw [if_neg (Nat.not_lt.mpr hlen), if_pos hdigest]

theorem already_iff (hsha : parseSha1 args.targetSha1Str = some targetSha1)
    (hpieces : (cstr args.targetFilename).splitOn ':' = ["EMMC".toList, args.path]) :
    Already env args s ↔
      (loadPartitionContents env (flashName args) s).any
      (fun data => env.sha1 data = targetSha1) := by
  have hload := @loadPartitionContents_flashName env args s targetSha1 hsha hpieces
  constructor
  · rintro ⟨content, hfile, hpos, hlen, hdigest⟩
    have hdigest' := Option.some.inj (hsha.symm.trans hdigest)
    rw [(hload _).mpr ⟨content, hfile, hpos, hlen, hdigest'.symm, rfl⟩]
    simpa using hdigest'.symm
  · intro h
    rw [Option.any_eq_true] at h
    obtain ⟨data, hdata, -⟩ := h
    obtain ⟨content, hfile, hpos, hlen, hdigest, -⟩ := (hload data).mp hdata
    exact ⟨content, hfile, hpos, hlen, hsha.trans (congrArg some hdigest.symm)⟩

theorem load_of_not_already (hsha : parseSha1 args.targetSha1Str = some targetSha1)
    (hpieces : (cstr args.targetFilename).splitOn ':' = ["EMMC".toList, args.path])
    (h : ¬Already env args s) : loadPartitionContents env (flashName args) s = none := by
  rw [Option.eq_none_iff_forall_ne_some]
  intro data hdata
  obtain ⟨content, hfile, hpos, hlen, hdigest, -⟩ :=
    (loadPartitionContents_flashName hsha hpieces data).mp hdata
  exact h ⟨content, hfile, hpos, hlen, hsha.trans (congrArg some hdigest.symm)⟩

/-! ## The runs -/

theorem run_invalid (h : parseSha1 args.targetSha1Str = none ∨
    (cstr args.targetFilename).splitOn ':' ≠ ["EMMC".toList, args.path]) :
    applypatchFlash env args () s = ([], some (1, ())) := by
  rw [applypatchFlash]
  cases hsha : parseSha1 args.targetSha1Str with
  | none => rfl
  | some targetSha1 =>
    have hpieces := h.resolve_left (by simp [hsha])
    dsimp only
    rw [if_pos]
    · rfl
    · by_contra hvalid
      rw [not_or, not_not, not_not] at hvalid
      obtain ⟨hlength, hhead⟩ := hvalid
      obtain ⟨a, b, hab⟩ := List.length_eq_two.mp hlength
      rw [hab, List.head?_cons, Option.some.injEq] at hhead
      apply hpieces
      rw [FlashArgs.path, partitionPath, hab, hhead]
      rfl

section
variable (hsha : parseSha1 args.targetSha1Str = some targetSha1)
  (hpieces : (cstr args.targetFilename).splitOn ':' = ["EMMC".toList, args.path])
include hsha hpieces

theorem run_targetAborted (h : ¬((s.file args.path).isSome → env.lib.CanAllocate args.targetSize)) :
    applypatchFlash env args () s = ([], none) := by
  rw [applypatchFlash, hsha]
  dsimp only
  rw [if_neg (by simp [hpieces]), Prog.bind_apply _ Prog.store_apply]
  simp only [List.foldl_nil, List.nil_append]
  rw [if_pos (mt (canAllocate_partitionBuffer_iff hsha hpieces).mp h)]
  rfl

theorem run_already (hmemory : (s.file args.path).isSome → env.lib.CanAllocate args.targetSize)
    (h : Already env args s) : applypatchFlash env args () s = ([], some (0, ())) := by
  rw [applypatchFlash, hsha]
  dsimp only
  rw [if_neg (by simp [hpieces]), Prog.bind_apply _ Prog.store_apply]
  simp only [List.foldl_nil, List.nil_append]
  rw [if_neg (not_not_intro ((canAllocate_partitionBuffer_iff hsha hpieces).mpr hmemory)),
    if_pos ((already_iff hsha hpieces).mp h)]
  rfl

theorem run_sourceAborted (h : ¬Already env args s)
    (hsource : ¬env.lib.CanAllocate (fileBuffer (cstr args.sourceFilename) s)) :
    applypatchFlash env args () s = ([], none) := by
  rw [applypatchFlash, hsha]
  dsimp only
  rw [if_neg (by simp [hpieces]), Prog.bind_apply _ Prog.store_apply]
  simp only [List.foldl_nil, List.nil_append]
  by_cases htarget : env.lib.CanAllocate (partitionBuffer (flashName args) s)
  · rw [if_neg (not_not_intro htarget), if_neg (mt (already_iff hsha hpieces).mpr h),
      if_pos hsource]
    rfl
  · rw [if_pos htarget]
    rfl

theorem run_rejected {data : List UInt8} (hmemory : Loadable env args s) (h : ¬Already env args s)
    (hload : loadFileContents env (cstr args.sourceFilename) s = some data)
    (hdata : env.sha1 data ≠ targetSha1) : applypatchFlash env args () s = ([], some (1, ())) := by
  rw [applypatchFlash, hsha]
  dsimp only
  rw [if_neg (by simp [hpieces]), Prog.bind_apply _ Prog.store_apply]
  simp only [List.foldl_nil, List.nil_append]
  rw [if_neg (not_not_intro ((canAllocate_partitionBuffer_iff hsha hpieces).mpr hmemory.target)),
    if_neg (mt (already_iff hsha hpieces).mpr h), if_neg (not_not_intro hmemory.source), hload,
    if_pos (by simpa using hdata)]
  rfl

theorem run_written (hmemory : Loadable env args s) (h : ¬Already env args s)
    (hload : ∀ data, loadFileContents env (cstr args.sourceFilename) s = some data →
      env.sha1 data = targetSha1) {data : List UInt8}
    (hdata : (loadFileContents env (cstr args.sourceFilename) s).getD [] = data) :
    applypatchFlash env args () s =
      if data = [] ∧ 0 < args.targetSize then ([], some (1, ()))
      else match s.file args.path with
        | none => ([], some (1, ()))
        | some content =>
          (writeSteps args.path 0 ((env.lib.bytesAt data 0 args.targetSize).take content.length),
            some (if args.targetSize ≤ content.length then 0 else 1, ())) := by
  have hname : "EMMC:".toList.isPrefixOf (cstr args.targetFilename) = true := by
    have hjoin : [':'].intercalate ((cstr args.targetFilename).splitOn ':') =
        cstr args.targetFilename := List.intercalate_splitOn ..
    rw [hpieces] at hjoin
    rw [← hjoin, List.isPrefixOf_iff_prefix]
    exact ⟨args.path, by simp [List.intercalate]⟩
  rw [applypatchFlash, hsha]
  dsimp only
  rw [if_neg (by simp [hpieces]), Prog.bind_apply _ Prog.store_apply]
  simp only [List.foldl_nil, List.nil_append]
  rw [if_neg (not_not_intro ((canAllocate_partitionBuffer_iff hsha hpieces).mpr hmemory.target)),
    if_neg (mt (already_iff hsha hpieces).mpr h), if_neg (not_not_intro hmemory.source),
    load_of_not_already hsha hpieces h, Option.getD_none, hdata, if_neg, writeFileContents]
  · split
    · rfl
    · have hwrite := @writeToPartition_apply s (cstr args.targetFilename)
        (env.lib.bytesAt data 0 args.targetSize) hname
      rw [show partitionPath (cstr args.targetFilename) = args.path from rfl, length_bytesAt]
        at hwrite
      cases hfile : s.file args.path with
      | none =>
        rw [hfile] at hwrite
        rw [Prog.bind_apply _ hwrite]
        rfl
      | some content =>
        rw [hfile] at hwrite
        rw [Prog.bind_apply _ hwrite]
        by_cases hfits : args.targetSize ≤ content.length
        · simp [hfits]
        · simp [hfits]
  · rw [Option.any_eq_true]
    rintro ⟨data, hsome, hne⟩
    exact of_decide_eq_true hne (hload data hsome)

end

/-! ## When a run does what it should -/

theorem FlashMeets.of_nothing (h : applypatchFlash env args () s = ([], some (1, ()))) :
    FlashMeets env args s := by
  refine ⟨.inl ?_, fun _ => ?_, fun hresult => ?_⟩
  · rw [Prog.steps, h]
  · rw [Prog.result, Prog.steps, h]
    exact ⟨⟨1, rfl, by decide⟩, rfl⟩
  · rw [Prog.result, h] at hresult
    cases hresult

/-- A run that the program does not survive does what it should for the right source only: it does
not fail. -/
theorem FlashMeets.iff_of_aborted (h : applypatchFlash env args () s = ([], none)) :
    FlashMeets env args s ↔ SourceGood env args s := by
  constructor
  · intro hmeets
    by_contra hbad
    obtain ⟨⟨r, hresult, -⟩, -⟩ := hmeets.rejects hbad
    rw [Prog.result, h] at hresult
    cases hresult
  · intro hgood
    refine ⟨.inl ?_, fun hbad => absurd hgood hbad, fun hresult => ?_⟩
    · rw [Prog.steps, h]
    · rw [Prog.result, h] at hresult
      cases hresult

theorem writeSteps_injective {path : Text} {start : Nat} {bs bs' : List UInt8}
    (h : writeSteps path start bs = writeSteps path start bs') : bs = bs' := by
  induction bs generalizing start bs' with
  | nil =>
    cases bs' with
    | nil => rfl
    | cons b' bs' => cases h
  | cons b bs ih =>
    cases bs' with
    | nil => cases h
    | cons b' bs' =>
      rw [writeSteps, writeSteps, List.cons.injEq, DiskStep.writeByte.injEq] at h
      rw [h.1.2.2, ih h.2]

section
variable (hsha : parseSha1 args.targetSha1Str = some targetSha1)
  (hpieces : (cstr args.targetFilename).splitOn ':' = ["EMMC".toList, args.path])
include hsha hpieces

theorem FlashMeets.of_good (h : SourceGood env args s) : FlashMeets env args s := by
  by_cases htarget : (s.file args.path).isSome → env.lib.CanAllocate args.targetSize
  swap
  · exact (iff_of_aborted (run_targetAborted hsha hpieces htarget)).mpr h
  by_cases hal : Already env args s
  · have hrun := run_already hsha hpieces htarget hal
    refine ⟨.inl (by rw [Prog.steps, hrun]), fun hbad => absurd h hbad, fun _ => ?_⟩
    obtain ⟨content, hfile, -, hlen, hdigest⟩ := hal
    rw [Prog.steps, hrun]
    exact ⟨content, hfile, hlen, hdigest⟩
  · obtain ⟨hsource, data, hload, hdigest, hlen⟩ := h
    have hdata : ∀ d, loadFileContents env (cstr args.sourceFilename) s = some d →
        env.sha1 d = targetSha1 := by
      intro d hd
      cases hload.symm.trans hd
      exact Option.some.inj (hdigest.symm.trans hsha)
    have hrun :=
      run_written hsha hpieces ⟨htarget, hsource⟩ hal hdata (by rw [hload, Option.getD_some])
    have hbytes : env.lib.bytesAt data 0 args.targetSize = data := by
      rw [bytesAt_of_le (by omega), List.drop_zero, ← hlen, List.take_length]
    rw [if_neg (fun hnull => by rw [hnull.1] at hlen; exact Nat.ne_of_lt hnull.2 hlen),
      hbytes] at hrun
    cases hfile : s.file args.path with
    | none =>
      rw [hfile] at hrun
      exact .of_nothing hrun
    | some content =>
      rw [hfile] at hrun
      dsimp only at hrun
      refine ⟨.inr ⟨data, content.length, hlen, hdigest, by rw [Prog.steps, hrun]⟩,
        fun hbad => absurd ⟨hsource, data, hload, hdigest, hlen⟩ hbad, fun hresult => ?_⟩
      have hfits : args.targetSize ≤ content.length := by
        by_contra hlong
        rw [Prog.result, hrun, if_neg hlong] at hresult
        cases hresult
      have hwritten := foldl_writeSteps_zero hfile (show data.length ≤ content.length by omega)
      refine ⟨data ++ content.drop data.length, ?_, ?_, ?_⟩
      · rw [Prog.steps, hrun, List.take_of_length_le (by omega), hwritten, Storage.setFile_file]
      · rw [List.length_append, List.length_drop]
        omega
      · rw [List.take_left' hlen, hdigest]

/-- With a wrong source that is written all the same, it does so if the write fails without a
change. -/
theorem flashMeets_iff_failsUnchanged (hmemory : Loadable env args s)
    (hbad : ¬SourceGood env args s) (hal : ¬Already env args s)
    (hload : ∀ data, loadFileContents env (cstr args.sourceFilename) s = some data →
      env.sha1 data = targetSha1) {data : List UInt8}
    (hdata : (loadFileContents env (cstr args.sourceFilename) s).getD [] = data) :
    FlashMeets env args s ↔ FailsUnchanged env args s data := by
  have hrun := run_written hsha hpieces hmemory hal hload hdata
  by_cases hnull : data = [] ∧ 0 < args.targetSize
  · rw [if_pos hnull] at hrun
    exact iff_of_true (.of_nothing hrun) (.inr (.inl hnull))
  rw [if_neg hnull] at hrun
  cases hfile : s.file args.path with
  | none =>
    rw [hfile] at hrun
    exact iff_of_true (.of_nothing hrun) (.inl hfile)
  | some content =>
    rw [hfile] at hrun
    dsimp only at hrun
    have hlength : (env.lib.bytesAt data 0 args.targetSize).length = args.targetSize :=
      length_bytesAt ..
    rcases Nat.lt_or_ge content.length args.targetSize with hshort | hfits
    · -- the bytes up to the end of the partition are written
      rw [if_neg (Nat.not_le.mpr hshort)] at hrun
      generalize hw : (env.lib.bytesAt data 0 args.targetSize).take content.length = w at hrun
      have hwlen : w.length = content.length := by
        rw [← hw, List.length_take, hlength]
        omega
      have hwritten := foldl_writeSteps_zero hfile (Nat.le_of_eq hwlen)
      rw [hwlen, List.drop_length, List.append_nil] at hwritten
      constructor
      · intro h
        obtain ⟨-, hsame⟩ := h.rejects hbad
        rw [Prog.steps, hrun, hwritten, Storage.setFile_file, hfile, Option.some.injEq] at hsame
        refine .inr (.inr ⟨content, hfile, hshort, by rw [hw, hsame], ?_⟩)
        rcases h.writes with hnil | ⟨image, n, himage, hdigest, hsteps⟩
        · left
          rw [Prog.steps, hrun] at hnil
          rw [← hsame]
          exact writeSteps_injective hnil
        · right
          refine ⟨image, himage, hdigest, ?_⟩
          rw [Prog.steps, hrun] at hsteps
          have htake := writeSteps_injective hsteps
          have hn := congrArg List.length htake
          rw [hwlen, List.length_take, himage] at hn
          have : n = content.length := by omega
          rw [← hsame, htake, this, List.length_take, himage, Nat.min_eq_left (by omega)]
      · rintro (hnone | hnull' | ⟨content', hfile', -, hsame, himage⟩)
        · rw [hfile] at hnone
          cases hnone
        · exact absurd hnull' hnull
        · cases hfile.symm.trans hfile'
          rw [hw] at hsame
          refine ⟨?_, fun _ => ⟨?_, ?_⟩, fun hresult => ?_⟩
          · rcases himage with hnil | ⟨image, hsize, hdigest, htake⟩
            · left
              rw [Prog.steps, hrun, ← hsame, hnil]
              rfl
            · right
              refine ⟨image, content.length, hsize, hdigest, ?_⟩
              rw [Prog.steps, hrun, ← hsame, ← htake]
          · rw [Prog.result, hrun]
            exact ⟨1, rfl, by decide⟩
          · rw [Prog.steps, hrun, hwritten, Storage.setFile_file, hfile, ← hsame]
          · rw [Prog.result, hrun] at hresult
            cases hresult
    · rw [if_pos hfits] at hrun
      apply iff_of_false
      · intro h
        obtain ⟨⟨r, hresult, hr⟩, -⟩ := h.rejects hbad
        rw [Prog.result, hrun] at hresult
        cases hresult
        exact hr rfl
      · rintro (hnone | hnull' | ⟨content', hfile', hshort, -⟩)
        · rw [hfile] at hnone
          cases hnone
        · exact hnull hnull'
        · cases hfile.symm.trans hfile'
          exact Nat.not_lt.mpr hfits hshort

end

/-- A run does what it should exactly if it is `Flashable`. -/
theorem flashMeets_iff (env : PatchEnv) (args : FlashArgs) (s : Storage) :
    FlashMeets env args s ↔ Flashable env args s := by
  cases hsha : parseSha1 args.targetSha1Str with
  | none => exact iff_of_true (.of_nothing (run_invalid (.inl hsha))) (.inl hsha)
  | some targetSha1 =>
    by_cases hpieces : (cstr args.targetFilename).splitOn ':' = ["EMMC".toList, args.path]
    · by_cases hgood : SourceGood env args s
      · exact iff_of_true (.of_good hsha hpieces hgood) (.inr (.inr (.inl hgood)))
      · have hvalid : Flashable env args s ↔ Loadable env args s ∧ ¬Already env args s ∧
            match loadFileContents env (cstr args.sourceFilename) s with
            | none => FailsUnchanged env args s []
            | some data => parseSha1 args.targetSha1Str ≠ some (env.sha1 data) ∨
              FailsUnchanged env args s data := by
          simp [Flashable, hsha, hpieces, hgood]
        rw [hvalid]
        by_cases htarget : (s.file args.path).isSome → env.lib.CanAllocate args.targetSize
        swap
        · have hrun := FlashMeets.iff_of_aborted (run_targetAborted hsha hpieces htarget)
          exact iff_of_false (mt hrun.mp hgood) fun h => htarget h.1.target
        by_cases hal : Already env args s
        · refine iff_of_false (fun h => ?_) (fun h => h.2.1 hal)
          obtain ⟨⟨r, hresult, hr⟩, -⟩ := h.rejects hgood
          rw [Prog.result, run_already hsha hpieces htarget hal] at hresult
          cases hresult
          exact hr rfl
        by_cases hsource : env.lib.CanAllocate (fileBuffer (cstr args.sourceFilename) s)
        swap
        · have hrun := FlashMeets.iff_of_aborted (run_sourceAborted hsha hpieces hal hsource)
          exact iff_of_false (mt hrun.mp hgood) fun h => hsource h.1.source
        · have hmemory : Loadable env args s := ⟨htarget, hsource⟩
          rw [and_iff_right hmemory, and_iff_right hal]
          cases hload : loadFileContents env (cstr args.sourceFilename) s with
          | none =>
            exact flashMeets_iff_failsUnchanged hsha hpieces hmemory hgood hal (by simp [hload])
              (by rw [hload, Option.getD_none])
          | some data =>
            dsimp only
            by_cases hdata : env.sha1 data = targetSha1
            · rw [flashMeets_iff_failsUnchanged hsha hpieces hmemory hgood hal
                (by simpa [hload] using hdata) (by rw [hload, Option.getD_some]), hsha]
              simp [hdata]
            · refine iff_of_true (.of_nothing (run_rejected hsha hpieces hmemory hal hload hdata))
                (.inl ?_)
              rw [hsha, ne_eq, Option.some.injEq]
              exact fun heq => hdata heq.symm
    · exact iff_of_true (.of_nothing (run_invalid (.inr hpieces))) (.inr (.inl hpieces))

end

/-! ## An image that is cut off -/

/-- The file `f` holds the two bytes of the target, of which one is to be written to `p`. -/
def cutArgs : FlashArgs :=
  ⟨"f".toList, "EMMC:p".toList, hexText (sampleSha1 [0x63, 0x64]), 1, by decide⟩

def cutStart : Storage where
  file path :=
    if path = ['p'] then some [0x61] else if path = ['f'] then some [0x63, 0x64] else none
  cache := none

/-- The first byte is flashed as if it were the target. -/
theorem not_flashMeets : ¬FlashMeets sampleEnv cutArgs cutStart := by
  intro h
  have hload : loadFileContents sampleEnv (cstr cutArgs.sourceFilename) cutStart =
      some [0x63, 0x64] := by decide +kernel
  have hbad : ¬SourceGood sampleEnv cutArgs cutStart := by
    rintro ⟨-, data, hdata, -, hlen⟩
    cases hload.symm.trans hdata
    exact absurd hlen (by decide)
  have hresult : (applypatchFlash sampleEnv cutArgs).result () cutStart = some (0, ()) := by
    decide +kernel
  obtain ⟨⟨r, hr, hne⟩, -⟩ := h.rejects hbad
  cases hresult.symm.trans hr
  exact hne rfl

end BootableRecovery.ApplyPatch
