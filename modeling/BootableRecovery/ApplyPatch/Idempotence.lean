import BootableRecovery.ApplyPatch.CrashSafety

/-!
# A second run of applypatch

The partition is written only with the target, and a run that returns 0 leaves the target. The next
run may take a finished target for a source: `LoadPartitionContents` loads the smallest image that
the name lists and that the content starts with. It returns 0 if that image is the target, or if
there is a patch from it to the target.
-/

namespace BootableRecovery.ApplyPatch

variable {env : PatchEnv} {args : PatchArgs} {s : Storage}

/-- The step writes to a partition. -/
def DiskStep.isWrite : DiskStep → Bool
  | .writeByte .. => true
  | _ => false

/-- What a run should do: it writes the partition only with a string that has the digest of the
target and that the patch for the chosen source gives as a whole. If it returns 0, some prefix of
the partition has the digest of the target, and a second run returns 0 and leaves the partition as
it is. -/
structure RunsWell (env : PatchEnv) (args : PatchArgs) (s : Storage) : Prop where
  writes : ((applypatch env args).steps () s).filter DiskStep.isWrite = [] ∨
    ∃ targetSha1 source patch out n, parseSha1 args.targetSha1Str = some targetSha1 ∧
      chooseSource env args args.sourceFilename targetSha1 s = .patch source patch ∧
      targetFrom env source patch targetSha1 args.bonus = some out ∧ env.sha1 out = targetSha1 ∧
      ((applypatch env args).steps () s).filter DiskStep.isWrite =
        writeSteps (partitionPath args.sourceFilename) 0 (out.take n)
  digest : (applypatch env args).result () s = some (0, ()) →
    ∃ content n,
      (((applypatch env args).steps () s).foldl Storage.apply s).file
        (partitionPath args.sourceFilename) = some content ∧
      parseSha1 args.targetSha1Str = some (env.sha1 (content.take n))
  again : (applypatch env args).result () s = some (0, ()) →
    let s' := ((applypatch env args).steps () s).foldl Storage.apply s
    (applypatch env args).result () s' = some (0, ()) ∧
      (((applypatch env args).steps () s').foldl Storage.apply s').file = s'.file

/-- If a source is patched and the target has room in the partition, then what will be loaded after
it is the target, or there is a patch that gives the target from it. -/
def Repeatable (env : PatchEnv) (args : PatchArgs) (s : Storage) : Prop :=
  ∀ targetSha1 source patch out content, parseSha1 args.targetSha1Str = some targetSha1 →
    chooseSource env args args.sourceFilename targetSha1 s = .patch source patch →
    targetFrom env source patch targetSha1 args.bonus = some out →
    s.file (partitionPath args.sourceFilename) = some content → out.length ≤ content.length →
    ∃ data, loadFileContents env args.sourceFilename
        (s.setFile (partitionPath args.sourceFilename) (out ++ content.drop out.length)) =
          some data ∧
      (env.sha1 data = targetSha1 ∨
        ∃ patch', findMatchingPatch (env.sha1 data) args.patches = some patch' ∧
          (targetFrom env data patch' targetSha1 args.bonus).isSome)

/-! ## What a run does -/

theorem filter_saveSteps (data : List UInt8) : (saveSteps data).filter DiskStep.isWrite = [] := by
  rw [List.filter_eq_nil_iff]
  intro e he
  rcases List.mem_cons.mp he with rfl | he
  · simp [DiskStep.isWrite]
  · obtain ⟨b, -, rfl⟩ := List.mem_map.mp he
    simp [DiskStep.isWrite]

theorem filter_writeSteps (path : Text) (start : Nat) (data : List UInt8) :
    (writeSteps path start data).filter DiskStep.isWrite = writeSteps path start data := by
  induction data generalizing start with
  | nil => rfl
  | cons b data ih => rw [writeSteps, List.filter_cons_of_pos rfl, ih]

theorem matchPairs_eq_take {content data : List UInt8} {pairs : List (Nat × Text)}
    (hpos : ∀ pair ∈ pairs, pair.1 ≠ 0) (h : matchPairs env content pairs = some data) :
    data ≠ [] ∧ ∃ n, data = content.take n := by
  induction pairs with
  | nil => cases h
  | cons pair pairs ih =>
    obtain ⟨size, sha1⟩ := pair
    rw [List.forall_mem_cons] at hpos
    rw [matchPairs] at h
    split at h
    · cases h
    · rename_i hlen
      split at h
      · cases h
      · split at h
        · cases h
          refine ⟨?_, size, rfl⟩
          rw [← List.length_pos_iff, List.length_take]
          have := hpos.1
          dsimp only at this
          omega
        · exact ih hpos.2 h

theorem loadFileContents_eq_some (hemmc : "EMMC:".toList.isPrefixOf args.sourceFilename = true)
    {data : List UInt8} (h : loadFileContents env args.sourceFilename s = some data) :
    data ≠ [] ∧ ∃ content n, s.file (partitionPath args.sourceFilename) = some content ∧
      data = content.take n := by
  rw [loadFileContents, if_pos hemmc] at h
  obtain ⟨⟨path, pairs⟩, hname, h⟩ := Option.bind_eq_some_iff.mp h
  have hpath : path = partitionPath args.sourceFilename := by
    obtain ⟨rest, hsplit⟩ := splitOn_of_isPrefixOf hemmc
    rw [parseName, hsplit] at hname
    dsimp only at hname
    split at hname
    · cases hname
    · obtain ⟨pairs', -, heq⟩ := Option.map_eq_some_iff.mp hname
      cases heq
      rfl
  subst hpath
  obtain ⟨content, hfile, hmatch⟩ := Option.bind_eq_some_iff.mp h
  obtain ⟨hne, n, hdata⟩ := matchPairs_eq_take (parseName_pos hname) hmatch
  exact ⟨hne, content, n, hfile, hdata⟩

theorem loadFileContents_congr {s' : Storage} (h : s'.file = s.file) (filename : Text) :
    loadFileContents env filename s' = loadFileContents env filename s := by
  simp only [loadFileContents, loadPartitionContents, h]

/-! ## The second run -/

section
variable {targetSha1 source out content : List UInt8} {patch : Value}

/-- The store after a source was patched. -/
def patched (path : Text) (out content : List UInt8) (s : Storage) : Storage :=
  { s with cache := none }.setFile path (out ++ content.drop out.length)

theorem foldl_patchSteps {path : Text} (hfile : s.file path = some content)
    (hfits : out.length ≤ content.length) :
    (patchSteps path source out).foldl Storage.apply s = patched path out content s := by
  have hfile' : { s with cache := some source }.file path = some content := hfile
  rw [patchSteps, List.foldl_append, foldl_saveSteps, List.foldl_append,
    foldl_writeSteps_zero hfile' hfits]
  rfl

/-- A run returns 0 and leaves the partition as it is. -/
def Unchanged (env : PatchEnv) (args : PatchArgs) (s : Storage) : Prop :=
  (applypatch env args).result () s = some (0, ()) ∧
    (((applypatch env args).steps () s).foldl Storage.apply s).file = s.file

variable (htarget : args.targetFilename = ['-'])
  (hemmc : "EMMC:".toList.isPrefixOf args.sourceFilename = true)
  (hspace : ∀ n, env.makeFreeSpaceOnCache n = true) (hinj : Function.Injective env.sha1)
  (hsha : parseSha1 args.targetSha1Str = some targetSha1)
include htarget hemmc hsha

theorem unchanged_of_already
    (h : chooseSource env args args.sourceFilename targetSha1 s = .already) :
    Unchanged env args s := by
  have hrun := @applypatch_apply env args targetSha1 htarget hemmc hsha s
  rw [h] at hrun
  rw [Unchanged, Prog.result, Prog.steps, hrun]
  exact ⟨rfl, rfl⟩

include hspace hinj

/-- After a source was patched to `out`, the run finds `out` in the partition. -/
theorem unchanged_patched_iff (hout : env.sha1 out = targetSha1)
    (hfits : out.length ≤ content.length) :
    Unchanged env args (patched (partitionPath args.sourceFilename) out content s) ↔
      ∃ data, loadFileContents env args.sourceFilename
          (patched (partitionPath args.sourceFilename) out content s) = some data ∧
        (env.sha1 data = targetSha1 ∨
          ∃ patch', findMatchingPatch (env.sha1 data) args.patches = some patch' ∧
            (targetFrom env data patch' targetSha1 args.bonus).isSome) := by
  have hfile : (patched (partitionPath args.sourceFilename) out content s).file
      (partitionPath args.sourceFilename) = some (out ++ content.drop out.length) :=
    Storage.setFile_file ..
  have hcache : (patched (partitionPath args.sourceFilename) out content s).cache = none := rfl
  generalize patched (partitionPath args.sourceFilename) out content s = s' at hfile hcache ⊢
  have hrun := @applypatch_apply env args targetSha1 htarget hemmc hsha s'
  cases hload : loadFileContents env args.sourceFilename s' with
  | none =>
    -- the partition cannot be loaded, and the copy was removed
    have hchoice : chooseSource env args args.sourceFilename targetSha1 s' = .fail := by
      simp [chooseSource, hload, chooseCopy, hcache]
    rw [hchoice] at hrun
    simp [Unchanged, Prog.result, hrun]
  | some data =>
    have hne := (loadFileContents_eq_some hemmc hload).1
    by_cases hdata : env.sha1 data = targetSha1
    · have hchoice : chooseSource env args args.sourceFilename targetSha1 s' = .already := by
        simp [chooseSource, hload, hdata]
      refine iff_of_true (unchanged_of_already htarget hemmc hsha hchoice) ⟨data, rfl, .inl hdata⟩
    · cases hfind : findMatchingPatch (env.sha1 data) args.patches with
      | none =>
        have hchoice : chooseSource env args args.sourceFilename targetSha1 s' = .fail := by
          simp [chooseSource, hload, hdata, hne, hfind, chooseCopy, hcache]
        rw [hchoice] at hrun
        simp [Unchanged, Prog.result, hrun, hdata, hfind]
      | some patch' =>
        have hchoice :
            chooseSource env args args.sourceFilename targetSha1 s' = .patch data patch' := by
          simp [chooseSource, hload, hdata, hne, hfind]
        rw [hchoice] at hrun
        dsimp only at hrun
        cases hfrom : targetFrom env data patch' targetSha1 args.bonus with
        | none =>
          obtain ⟨es, r, hgen, -, hr⟩ :=
            generateTarget_of_none hemmc (hspace data.length) (.inl hfrom)
            (s := s')
          refine iff_of_false ?_ ?_
          · rintro ⟨hresult, -⟩
            rw [Prog.result, hrun, hgen] at hresult
            exact hr () hresult
          · rintro ⟨data', hdata', h | ⟨p, hp, hsome⟩⟩
            · cases hdata'
              exact hdata h
            · cases hdata'
              rw [hfind] at hp
              cases hp
              rw [hfrom] at hsome
              cases hsome
        | some out' =>
          -- the same bytes are written again
          have heq : out' = out := hinj ((sha1_of_targetFrom hfrom).trans hout.symm)
          subst heq
          have hfits' : out'.length ≤ (out' ++ content.drop out'.length).length := by
            rw [List.length_append]
            omega
          rw [generateTarget_of_some hemmc (hspace _) hfrom hfile, if_pos hfits'] at hrun
          refine iff_of_true ?_ ⟨data, rfl, .inr ⟨patch', hfind, by rw [hfrom]; rfl⟩⟩
          rw [Unchanged, Prog.result, Prog.steps, hrun]
          refine ⟨rfl, ?_⟩
          rw [foldl_patchSteps hfile hfits']
          funext p
          show (if p = _ then _ else s'.file p) = s'.file p
          split
          · rename_i hp
            rw [hp, hfile, List.drop_left' rfl]
          · rfl

end

/-! ## Every run -/

/-- A run that does not return 0 only has to be careful with the partition. -/
theorem RunsWell.of_failed (hresult : (applypatch env args).result () s ≠ some (0, ()))
    (hwrites : ((applypatch env args).steps () s).filter DiskStep.isWrite = []) :
    RunsWell env args s :=
  ⟨.inl hwrites, fun h => absurd h hresult, fun h => absurd h hresult⟩

theorem Repeatable.of_ne_patch {targetSha1 : List UInt8}
    (hsha : parseSha1 args.targetSha1Str = some targetSha1)
    (h : ∀ source patch,
      chooseSource env args args.sourceFilename targetSha1 s ≠ .patch source patch) :
    Repeatable env args s := by
  intro targetSha1' source patch out content hsha' hchoice
  cases hsha.symm.trans hsha'
  exact absurd hchoice (h source patch)

theorem load_of_already {targetSha1 : List UInt8} {filename : Text}
    (h : chooseSource env args filename targetSha1 s = .already) :
    ∃ data, loadFileContents env filename s = some data ∧ env.sha1 data = targetSha1 := by
  have hcopy : chooseCopy env args s ≠ .already := by
    unfold chooseCopy
    split
    · simp
    · split <;> simp
  unfold chooseSource at h
  dsimp only at h
  split at h
  · rename_i hany
    cases hload : loadFileContents env filename s with
    | none => simp [hload] at hany
    | some data => exact ⟨data, rfl, by simpa [hload] using hany⟩
  · generalize (if (loadFileContents env filename s).getD [] = [] ∨
      filename ≠ args.sourceFilename then
      (loadFileContents env args.sourceFilename s).getD []
      else (loadFileContents env filename s).getD []) = data at h
    split at h
    · exact absurd h hcopy
    · split at h
      · cases h
      · exact absurd h hcopy

section
variable (htarget : args.targetFilename = ['-'])
  (hemmc : "EMMC:".toList.isPrefixOf args.sourceFilename = true)
  (hspace : ∀ n, env.makeFreeSpaceOnCache n = true) (hinj : Function.Injective env.sha1)
  {targetSha1 : List UInt8} (hsha : parseSha1 args.targetSha1Str = some targetSha1)
include htarget hemmc hsha

theorem runsWell_of_already
    (h : chooseSource env args args.sourceFilename targetSha1 s = .already) :
    RunsWell env args s := by
  have hrun := @applypatch_apply env args targetSha1 htarget hemmc hsha s
  rw [h] at hrun
  have hnil : (applypatch env args).steps () s = [] := by rw [Prog.steps, hrun]
  obtain ⟨data, hload, hdata⟩ := load_of_already h
  obtain ⟨-, content, n, hfile, rfl⟩ := loadFileContents_eq_some hemmc hload
  refine ⟨.inl (by rw [hnil]; rfl), fun _ => ?_, fun _ => ?_⟩
  · rw [hnil]
    exact ⟨content, n, hfile, by rw [hdata]; exact hsha⟩
  · rw [hnil]
    exact unchanged_of_already htarget hemmc hsha h

include hspace

/-- A run whose patch does not give the target, or that finds no partition. -/
theorem runsWell_of_none {source : List UInt8} {patch : Value}
    (hchoice : chooseSource env args args.sourceFilename targetSha1 s = .patch source patch)
    (h : targetFrom env source patch targetSha1 args.bonus = none ∨
      s.file (partitionPath args.sourceFilename) = none) :
    RunsWell env args s ∧ Repeatable env args s := by
  have hrun := @applypatch_apply env args targetSha1 htarget hemmc hsha s
  rw [hchoice] at hrun
  dsimp only at hrun
  obtain ⟨es, r, hgen, hes, hr⟩ := generateTarget_of_none hemmc (hspace source.length) h
  rw [hgen] at hrun
  constructor
  · refine .of_failed (by rw [Prog.result, hrun]; exact hr ()) ?_
    rw [Prog.steps, hrun]
    rcases hes with rfl | rfl
    · rfl
    · exact filter_saveSteps source
  · intro targetSha1' source' patch' out content hsha' hchoice' hfrom hfile
    cases hsha.symm.trans hsha'
    cases hchoice.symm.trans hchoice'
    rcases h with h | h
    · rw [hfrom] at h
      cases h
    · rw [hfile] at h
      cases h

include hinj

theorem runsWell_iff_of_patch {source out content : List UInt8} {patch : Value}
    (hchoice : chooseSource env args args.sourceFilename targetSha1 s = .patch source patch)
    (hfrom : targetFrom env source patch targetSha1 args.bonus = some out)
    (hfile : s.file (partitionPath args.sourceFilename) = some content) :
    RunsWell env args s ↔ Repeatable env args s := by
  have hrun := @applypatch_apply env args targetSha1 htarget hemmc hsha s
  rw [hchoice] at hrun
  dsimp only at hrun
  rw [generateTarget_of_some hemmc (hspace _) hfrom hfile] at hrun
  have hout := sha1_of_targetFrom hfrom
  rcases Nat.lt_or_ge content.length out.length with hlong | hfits
  · -- there is no room for the target
    rw [if_neg (Nat.not_le.mpr hlong)] at hrun
    refine iff_of_true
      ⟨.inr ⟨targetSha1, source, patch, out, content.length, hsha, hchoice, hfrom, hout, ?_⟩,
        fun h => ?_, fun h => ?_⟩ ?_
    · rw [Prog.steps, hrun, List.filter_append, filter_saveSteps, filter_writeSteps,
        List.nil_append]
    · rw [Prog.result, hrun] at h
      cases h
    · rw [Prog.result, hrun] at h
      cases h
    · intro targetSha1' source' patch' out' content' hsha' hchoice' hfrom' hfile' hfits'
      cases hsha.symm.trans hsha'
      cases hchoice.symm.trans hchoice'
      cases hfrom.symm.trans hfrom'
      cases hfile.symm.trans hfile'
      omega
  · rw [if_pos hfits] at hrun
    have hsteps : (applypatch env args).steps () s =
        patchSteps (partitionPath args.sourceFilename) source out := by rw [Prog.steps, hrun]
    have hfinal : ((applypatch env args).steps () s).foldl Storage.apply s =
        patched (partitionPath args.sourceFilename) out content s := by
      rw [hsteps, foldl_patchSteps hfile hfits]
    have hload : ∀ filename, loadFileContents env filename
        (patched (partitionPath args.sourceFilename) out content s) = loadFileContents env filename
        (s.setFile (partitionPath args.sourceFilename) (out ++ content.drop out.length)) :=
      fun filename => loadFileContents_congr rfl filename
    have hsecond := unchanged_patched_iff htarget hemmc hspace hinj hsha hout hfits (s := s)
    rw [hload] at hsecond
    constructor
    · intro h targetSha1' source' patch' out' content' hsha' hchoice' hfrom' hfile' hfits'
      cases hsha.symm.trans hsha'
      cases hchoice.symm.trans hchoice'
      cases hfrom.symm.trans hfrom'
      cases hfile.symm.trans hfile'
      have hagain := h.again (by rw [Prog.result, hrun])
      rw [hfinal] at hagain
      exact hsecond.mp hagain
    · intro h
      refine ⟨.inr ⟨targetSha1, source, patch, out, out.length, hsha, hchoice, hfrom, hout, ?_⟩,
        fun _ => ?_, fun _ => ?_⟩
      · rw [hsteps, patchSteps, List.filter_append, filter_saveSteps, List.filter_append,
          filter_writeSteps, List.nil_append, List.take_length]
        exact List.append_nil _
      · rw [hfinal]
        refine ⟨_, out.length, Storage.setFile_file .., ?_⟩
        rw [List.take_left' rfl, hout]
        exact hsha
      · rw [hfinal]
        exact hsecond.mpr (h targetSha1 source patch out content hsha hchoice hfrom hfile hfits)

end

/-- The partition is only written with the target, and after a run that returns 0 it starts with
something that has the digest of the target. A second run returns 0 and changes nothing exactly if
what is loaded then is the target, or there is a patch that gives the target from it. -/
theorem runsWell_iff (htarget : args.targetFilename = ['-'])
    (hemmc : "EMMC:".toList.isPrefixOf args.sourceFilename = true)
    (hspace : ∀ n, env.makeFreeSpaceOnCache n = true) (hinj : Function.Injective env.sha1)
    (s : Storage) : RunsWell env args s ↔ Repeatable env args s := by
  cases hsha : parseSha1 args.targetSha1Str with
  | none =>
    have hrun : applypatch env args () s = ([], some (1, ())) := by
      rw [applypatch]
      simp only [htarget, if_true, hemmc, Bool.not_true, Bool.false_eq_true, if_false, hsha]
      rfl
    refine iff_of_true (.of_failed (by simp [Prog.result, hrun]) (by simp [Prog.steps, hrun])) ?_
    intro targetSha1 source patch out content h
    rw [hsha] at h
    cases h
  | some targetSha1 =>
    have hrun := @applypatch_apply env args targetSha1 htarget hemmc hsha s
    cases hchoice : chooseSource env args args.sourceFilename targetSha1 s with
    | fail =>
      rw [hchoice] at hrun
      exact iff_of_true (.of_failed (by simp [Prog.result, hrun]) (by simp [Prog.steps, hrun]))
        (.of_ne_patch hsha (by simp [hchoice]))
    | already =>
      exact iff_of_true (runsWell_of_already htarget hemmc hsha hchoice)
        (.of_ne_patch hsha (by simp [hchoice]))
    | patch source patch =>
      cases hfrom : targetFrom env source patch targetSha1 args.bonus with
      | some out =>
        cases hfile : s.file (partitionPath args.sourceFilename) with
        | some content =>
          exact runsWell_iff_of_patch htarget hemmc hspace hinj hsha hchoice hfrom hfile
        | none =>
          obtain ⟨hruns, hrepeatable⟩ :=
            runsWell_of_none htarget hemmc hspace hsha hchoice (.inr hfile)
          exact iff_of_true hruns hrepeatable
      | none =>
        obtain ⟨hruns, hrepeatable⟩ :=
          runsWell_of_none htarget hemmc hspace hsha hchoice (.inl hfrom)
        exact iff_of_true hruns hrepeatable

/-- The images `a`, `c` and `ab`. -/
def imageA : List UInt8 := [0x61]

def imageC : List UInt8 := [0x63]

/-- A partition is patched from `a` or `c` to `ab`; what the patch for `a` gives is up to the
caller. -/
def againArgs (data : List UInt8) : PatchArgs where
  sourceFilename := sampleName [imageA, imageC, imageAB]
  targetFilename := ['-']
  targetSha1Str := hexText (sampleSha1 imageAB)
  patches :=
    [(hexText (sampleSha1 imageA), rawPatch data), (hexText (sampleSha1 imageC), rawPatch imageAB)]
  bonus := none

def againStart : Storage := ⟨fun _ => some [0x63, 0x62], none⟩

/-- The target starts with the source `a`, and the patch for `a` gives the target. -/
theorem runsWell_iff_prefix : RunsWell sampleEnv (againArgs imageAB) againStart := by
  rw [runsWell_iff rfl (by decide +kernel) (fun _ => rfl) sampleSha1_injective]
  intro targetSha1 source patch out content hsha hchoice hfrom hfile hfits
  have hsha' : parseSha1 (againArgs imageAB).targetSha1Str = some (sampleSha1 imageAB) := by
    decide +kernel
  cases hsha'.symm.trans hsha
  have hout : out = imageAB := sampleSha1_injective (sha1_of_targetFrom hfrom)
  have hcontent : content = [0x63, 0x62] := (Option.some.inj hfile).symm
  subst hout hcontent
  exact ⟨imageA, by decide +kernel, .inr ⟨rawPatch imageAB, by decide +kernel, by decide +kernel⟩⟩

/-- The patch for `a` gives something else. The first run patches `c` to `ab`, and the second one
takes it for the source `a` and fails. -/
theorem not_runsWell : Function.Injective sampleEnv.sha1 ∧
    (applypatch sampleEnv (againArgs imageCD)).result () againStart = some (0, ()) ∧
    (applypatch sampleEnv (againArgs imageCD)).result ()
      (((applypatch sampleEnv (againArgs imageCD)).steps () againStart).foldl Storage.apply
        againStart) = some (1, ()) ∧
    ¬ RunsWell sampleEnv (againArgs imageCD) againStart := by
  have hfirst : (applypatch sampleEnv (againArgs imageCD)).result () againStart = some (0, ()) := by
    decide +kernel
  have hsecond : (applypatch sampleEnv (againArgs imageCD)).result ()
      (((applypatch sampleEnv (againArgs imageCD)).steps () againStart).foldl Storage.apply
        againStart) = some (1, ()) := by decide +kernel
  refine ⟨sampleSha1_injective, hfirst, hsecond, fun h => ?_⟩
  have hagain := (h.again hfirst).1
  rw [hsecond] at hagain
  cases hagain

end BootableRecovery.ApplyPatch
