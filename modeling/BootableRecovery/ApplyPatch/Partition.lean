import BootableRecovery.ApplyPatch.Streams
import BootableRecovery.LibBase.Strings
import BootableRecovery.Theory.Durable
import Mathlib.Data.Char
import Mathlib.Data.List.Lex
import Mathlib.Data.List.Sort

/-!
# Patching a partition

`applypatch` of `applypatch/applypatch.cpp`: the content of a partition is loaded by the sizes and
digests that its name lists, a patch is chosen by the digest of the source, and the target replaces
the partition. A copy of the source is kept in the cache meanwhile. Each byte that is written, the
truncation and the removal of the copy are steps of their own, so that a run can be killed between
any two of them.
-/

namespace BootableRecovery.ApplyPatch

/-! ## The store -/

/-- The partitions and files by their paths, and the copy of the source, `cache_temp_source`. -/
@[ext]
structure Storage where
  file : Text → Option (List UInt8)
  cache : Option (List UInt8)

/-- A change of the store. -/
inductive DiskStep
  | writeByte (path : Text) (i : Nat) (b : UInt8)
  | truncateCache
  | appendCache (b : UInt8)
  | unlinkCache
  deriving DecidableEq

def Storage.apply (s : Storage) : DiskStep → Storage
  | .writeByte path i b =>
    { s with file := fun p =>
        if p = path then (s.file p).map fun content => content.set i b else s.file p }
  | .truncateCache => { s with cache := some [] }
  | .appendCache b => { s with cache := s.cache.map fun content => content ++ [b] }
  | .unlinkCache => { s with cache := none }

abbrev PatchM (α : Type) : Type := Prog Storage.apply Unit α

/-! ## Names and digests -/

def hexDigit (c : Char) : Option Nat :=
  if '0' ≤ c ∧ c ≤ '9' then some (c.toNat - '0'.toNat)
  else if 'a' ≤ c ∧ c ≤ 'f' then some (c.toNat - 'a'.toNat + 10)
  else if 'A' ≤ c ∧ c ≤ 'F' then some (c.toNat - 'A'.toNat + 10)
  else none

def hexBytes : Text → Option (List UInt8)
  | [] => some []
  | [_] => none
  | a :: b :: s => do
    let high ← hexDigit a
    let low ← hexDigit b
    let rest ← hexBytes s
    return UInt8.ofNat (high * 16 + low) :: rest

def parseSha1 (str : Text) : Option (List UInt8) :=
  if (cstr str).length = 40 then hexBytes (cstr str) else none

/-- The sizes and digests that a name lists. -/
def parsePairs : List Text → Option (List (Nat × Text))
  | size :: sha1 :: rest => do
    let n ← parseUint size
    if n = 0 then none
    else
      let pairs ← parsePairs rest
      return (n, sha1) :: pairs
  | _ => some []

/-- The order in which `std::sort` puts them. -/
def PairLE (a b : Nat × Text) : Prop := a.1 < b.1 ∨ a.1 = b.1 ∧ a.2 ≤ b.2

instance : DecidableRel PairLE := fun a b =>
  inferInstanceAs (Decidable (a.1 < b.1 ∨ a.1 = b.1 ∧ a.2 ≤ b.2))

/-- The path of the partition, and the sorted sizes and digests of
`EMMC:<path>:<size>:<sha1>:...`. -/
def parseName (filename : Text) : Option (Text × List (Nat × Text)) :=
  match filename.splitOn ':' with
  | kind :: path :: rest =>
    if rest.length < 2 ∨ rest.length % 2 ≠ 0 ∨ kind ≠ "EMMC".toList then none
    else (parsePairs rest).map fun pairs => (path, pairs.insertionSort PairLE)
  | _ => none

/-! ## Loading -/

/-- What the functions use from outside: the libraries of the patches, SHA-1, and whether
`MakeFreeSpaceOnCache` finds room for some bytes. -/
structure PatchEnv where
  lib : Lib
  sha1 : List UInt8 → List UInt8
  makeFreeSpaceOnCache : Nat → Bool

variable (env : PatchEnv)

/-- The loop of `LoadPartitionContents`: the first listed size for which the content has the
digest. -/
def matchPairs (content : List UInt8) : List (Nat × Text) → Option (List UInt8)
  | [] => none
  | (size, sha1) :: pairs =>
    if content.length < size then none
    else match parseSha1 sha1 with
      | none => none
      | some digest =>
        if env.sha1 (content.take size) = digest then some (content.take size)
        else matchPairs content pairs

def loadPartitionContents (filename : Text) (s : Storage) : Option (List UInt8) := do
  let (path, pairs) ← parseName filename
  let content ← s.file path
  matchPairs env content pairs

def loadFileContents (filename : Text) (s : Storage) : Option (List UInt8) :=
  if "EMMC:".toList.isPrefixOf filename then loadPartitionContents env filename s
  else s.file filename

/-! ## Saving and writing -/

/-- `FileSink` to `cache_temp_source`. -/
def fileSink : List UInt8 → PatchM Unit
  | [] => return
  | b :: bs => do
    Prog.emit (.appendCache b)
    fileSink bs

/-- `SaveFileContents` to `cache_temp_source`. -/
def saveFileContents (data : List UInt8) : PatchM Unit := do
  Prog.emit .truncateCache
  fileSink data

/-- The writes to a partition of some size, which fail at its end. -/
def writeFrom (path : Text) (size : Nat) : (start : Nat) → List UInt8 → PatchM Bool
  | _, [] => return true
  | start, b :: bs =>
    if start < size then do
      Prog.emit (.writeByte path start b)
      writeFrom path size (start + 1) bs
    else return false

/-- The verification reads: the first page that differs, or an error at the end of the partition. -/
def verifyFrom (data content : List UInt8) : (fuel p : Nat) → Except Fault (Option Nat)
  | 0, _ => .ok none
  | fuel + 1, p =>
    if p < data.length then
      let toRead := min (data.length - p) 4096
      if content.length < p + toRead then .error .failed
      else if (content.drop p).take toRead = (data.drop p).take toRead then
        verifyFrom data content fuel (p + 4096)
      else .ok (some p)
    else .ok none

/-- The attempts of `WriteToPartition`. -/
def writeAttempts (path : Text) (data : List UInt8) : (attempts start : Nat) → PatchM Bool
  | 0, _ => return false
  | attempts + 1, start => do
    let size := (((← Prog.store).file path).getD []).length
    if ← writeFrom path size start (data.drop start) then
      match verifyFrom data (((← Prog.store).file path).getD []) data.length 0 with
      | .error _ => return false
      | .ok none => return true
      | .ok (some p) => writeAttempts path data attempts p
    else return false

def writeToPartition (data : List UInt8) (target : Text) : PatchM Bool := do
  match target.splitOn ':' with
  | kind :: path :: _ =>
    if kind ≠ "EMMC".toList then return false
    else if ((← Prog.store).file path).isNone then return false
    else writeAttempts path data 2 0
  | _ => return false

/-! ## Patches -/

/-- A `Value` of the script. -/
structure Value where
  isBlob : Bool
  data : List UInt8
  deriving DecidableEq

/-- Whether a patch starts as one of bsdiff or of imgdiff. -/
def useBsdiff (patch : List UInt8) : Option Bool :=
  if patch.take 8 = "BSDIFF40".toList.map (fun c => UInt8.ofNat c.toNat) then some true
  else if patch.take 8 = "IMGDIFF2".toList.map (fun c => UInt8.ofNat c.toNat) then some false
  else none

/-- The output of a patch, and what went into the SHA-1 context. -/
def patchOutput (source patch : List UInt8) (bonus : Option (List UInt8)) (bsdiff : Bool) :
    Except Fault (Out (List UInt8)) :=
  let (r, out) :=
    if bsdiff then applyBSDiffPatch env.lib source patch 0 (shaSink memorySink) ⟨[], []⟩
    else applyImagePatch env.lib source patch bonus memorySink ⟨[], []⟩
  r.map fun _ => out

/-- `FindMatchingPatch`: the patch for a source with the digest. -/
def findMatchingPatch (sha1 : List UInt8) (patches : List (Text × Value)) : Option Value :=
  (patches.find? fun p => parseSha1 p.1 = some sha1).map Prod.snd

/-- `GenerateTarget`; the result is what it returns. -/
def generateTarget (source : List UInt8) (patch : Value) (targetFilename : Text)
    (targetSha1 : List UInt8) (bonus : Option (List UInt8)) : PatchM Nat := do
  if !patch.isBlob then return 1
  else match useBsdiff patch.data with
    | none => return 1
    | some bsdiff =>
      if !"EMMC:".toList.isPrefixOf targetFilename then Prog.abort
      else if !env.makeFreeSpaceOnCache source.length then return 1
      else
        saveFileContents source
        match patchOutput env source patch.data bonus bsdiff with
        | .error .crashed => Prog.abort
        | .error .failed => return 1
        | .ok out =>
          if env.sha1 out.hashed ≠ targetSha1 then return 1
          else if ← writeToPartition out.sink targetFilename then
            Prog.emit .unlinkCache
            return 0
          else return 1

/-- The arguments of `applypatch`: names, the digest of the target, the patches by the digest of
their source, and the bonus data. -/
structure PatchArgs where
  sourceFilename : Text
  targetFilename : Text
  targetSha1Str : Text
  patches : List (Text × Value)
  bonus : Option (List UInt8)

/-- What is to be done: nothing, or a source is patched, or there is no source. -/
inductive Choice
  | already
  | patch (source : List UInt8) (patch : Value)
  | fail
  deriving DecidableEq

/-- The copy of the source, if there is a patch for it. -/
def chooseCopy (args : PatchArgs) (s : Storage) : Choice :=
  match s.cache with
  | none => .fail
  | some copy =>
    match findMatchingPatch (env.sha1 copy) args.patches with
    | none => .fail
    | some patch => .patch copy patch

/-- The target, the source and the copy of the source are tried, in this order. -/
def chooseSource (args : PatchArgs) (targetFilename : Text) (targetSha1 : List UInt8)
    (s : Storage) : Choice :=
  let loaded := loadFileContents env targetFilename s
  if loaded.any fun data => env.sha1 data = targetSha1 then .already
  else
    let data := loaded.getD []
    let data :=
      if data = [] ∨ targetFilename ≠ args.sourceFilename then
        (loadFileContents env args.sourceFilename s).getD []
      else data
    if data = [] then chooseCopy env args s
    else match findMatchingPatch (env.sha1 data) args.patches with
      | some patch => .patch data patch
      | none => chooseCopy env args s

/-- `applypatch`; the result is what it returns. -/
def applypatch (args : PatchArgs) : PatchM Nat := do
  let targetFilename :=
    if args.targetFilename = ['-'] then args.sourceFilename else args.targetFilename
  if !"EMMC:".toList.isPrefixOf targetFilename then return 1
  else match parseSha1 args.targetSha1Str with
    | none => return 1
    | some targetSha1 =>
      match chooseSource env args targetFilename targetSha1 (← Prog.store) with
      | .already => return 0
      | .fail => return 1
      | .patch source patch => generateTarget env source patch targetFilename targetSha1 args.bonus

/-! ## The bytes that are hashed -/

section
variable {env} {lib : Lib} {out : Out (List UInt8)}

theorem feed_memorySink (pieces : List (List UInt8)) :
    feed (shaSink memorySink) pieces out =
      (true, ⟨out.sink ++ pieces.flatten, out.hashed ++ pieces.flatten⟩) := by
  induction pieces generalizing out with
  | nil => simp [feed]
  | cons piece pieces ih => simp [feed, shaSink, memorySink, ih]

theorem hashed_applyBSDiffPatch (old patch : List UInt8) (offset : Nat)
    (h : out.hashed = out.sink) :
    (applyBSDiffPatch lib old patch offset (shaSink memorySink) out).2.hashed =
      (applyBSDiffPatch lib old patch offset (shaSink memorySink) out).2.sink := by
  unfold applyBSDiffPatch
  split
  · simp only [feed_memorySink, h]
  · exact h

theorem hashed_deflateLoop {finish : Bool} {fuel : Nat} {availIn : List UInt8}
    {c : Compression lib (List UInt8)} (h : c.out.hashed = c.out.sink) :
    (deflateLoop lib memorySink finish fuel availIn c).2.out.hashed =
      (deflateLoop lib memorySink finish fuel availIn c).2.out.sink := by
  induction fuel generalizing availIn c with
  | zero => exact h
  | succ fuel ih =>
    rw [deflateLoop]
    dsimp only
    split
    · exact h
    · split
      · rename_i hne
        exact absurd rfl hne
      · split
        · apply ih
          simp [memorySink, h]
        · simp [memorySink, h]

theorem hashed_feed_compressionSink {n : Nat} (pieces : List (List UInt8))
    {c : Compression lib (List UInt8)} (h : c.out.hashed = c.out.sink) :
    (feed (compressionSink lib memorySink n) pieces c).2.out.hashed =
      (feed (compressionSink lib memorySink n) pieces c).2.out.sink := by
  have hstep : ∀ (piece : List UInt8) {c : Compression lib (List UInt8)}, c.out.hashed =
      c.out.sink → (compressionSink lib memorySink n piece c).2.out.hashed =
        (compressionSink lib memorySink n piece c).2.out.sink := by
    intro piece c h
    have hloop := @hashed_deflateLoop lib (!(c.actualTargetLength + piece.length < n))
      (lib.calls c.stream (piece.take (piece.length % 2 ^ 32)))
        (piece.take (piece.length % 2 ^ 32)) c h
    unfold compressionSink
    dsimp only
    split <;> rename_i hc <;> rw [hc] at hloop <;> exact hloop
  induction pieces generalizing c with
  | nil => exact h
  | cons piece pieces ih =>
    rw [feed]
    split
    · exact ih (hstep piece h)
    · exact hstep piece h

theorem hashed_applyBSDiffPatchAndStreamOutput {src patch : List UInt8} {patchOffset n : Nat}
    {level method windowBits memLevel strategy : Int} (h : out.hashed = out.sink) :
    (applyBSDiffPatchAndStreamOutput lib src patch patchOffset n level method windowBits
      memLevel strategy
        memorySink out).2.hashed =
      (applyBSDiffPatchAndStreamOutput lib src patch patchOffset n level method windowBits
        memLevel strategy memorySink out).2.sink := by
  unfold applyBSDiffPatchAndStreamOutput
  split
  · exact h
  · rename_i stream _
    have hpatch : (applyBSDiffPatch lib src patch patchOffset (compressionSink lib memorySink n)
        ⟨stream, .ok, 0, out⟩).2.out.hashed = (applyBSDiffPatch lib src patch patchOffset
        (compressionSink lib memorySink n) ⟨stream, .ok, 0, out⟩).2.out.sink := by
      unfold applyBSDiffPatch
      split
      · exact hashed_feed_compressionSink _ h
      · exact h
    generalize applyBSDiffPatch lib src patch patchOffset (compressionSink lib memorySink n)
      ⟨stream, .ok, 0, out⟩ = r at hpatch ⊢
    obtain ⟨r, c⟩ := r
    cases r with
    | error fault => exact hpatch
    | ok u =>
      dsimp only
      split
      · exact hpatch
      · split <;> exact hpatch

theorem hashed_applyChunk {old patch : List UInt8} {bonus : Option (List UInt8)} {i : Nat}
    (header : ChunkHeader) (h : out.hashed = out.sink) :
    (applyChunk lib old patch bonus memorySink i header out).2.hashed =
      (applyChunk lib old patch bonus memorySink i header out).2.sink := by
  cases header with
  | normal srcStart srcLen patchOffset =>
    rw [applyChunk]
    split
    · exact h
    · exact hashed_applyBSDiffPatch _ _ _ h
  | raw data => simp [applyChunk, memorySink, h]
  | deflate srcStart srcLen patchOffset expandedLen targetLen level method windowBits memLevel
    strategy =>
    rw [applyChunk]
    split
    · exact h
    · dsimp only
      split
      · exact h
      · exact hashed_applyBSDiffPatchAndStreamOutput h

theorem hashed_applyImagePatch {old patch : List UInt8} {bonus : Option (List UInt8)}
    (h : out.hashed = out.sink) :
    (applyImagePatch lib old patch bonus memorySink out).2.hashed =
      (applyImagePatch lib old patch bonus memorySink out).2.sink := by
  have hchunks : ∀ (n i pos : Nat) (out : Out (List UInt8)), out.hashed = out.sink →
      (applyChunks lib old patch bonus memorySink n i pos out).2.hashed =
        (applyChunks lib old patch bonus memorySink n i pos out).2.sink := by
    intro n
    induction n with
    | zero => exact fun _ _ _ h => h
    | succ n ih =>
      intro i pos out h
      rw [applyChunks]
      split
      · exact h
      · rename_i header pos' _
        have hchunk := @hashed_applyChunk lib out old patch bonus i header h
        split
        · rename_i heq
          rw [heq] at hchunk
          exact hchunk
        · rename_i heq
          rw [heq] at hchunk
          exact ih _ _ _ hchunk
  unfold applyImagePatch
  split
  · exact h
  · exact hchunks _ _ _ _ h

theorem patchOutput_eq_ok {source patch : List UInt8} {bonus : Option (List UInt8)} {bsdiff : Bool}
    (h : patchOutput env source patch bonus bsdiff = .ok out) : out.hashed = out.sink := by
  unfold patchOutput at h
  cases bsdiff with
  | true =>
    have hout := @hashed_applyBSDiffPatch env.lib ⟨[], []⟩ source patch 0 rfl
    simp only [if_true] at h
    generalize applyBSDiffPatch env.lib source patch 0 (shaSink memorySink) ⟨[], []⟩ = r at h hout
    obtain ⟨r, out'⟩ := r
    cases r with
    | error fault => cases h
    | ok u => cases h; exact hout
  | false =>
    have hout := @hashed_applyImagePatch env.lib ⟨[], []⟩ source patch bonus rfl
    simp only [Bool.false_eq_true, if_false] at h
    generalize applyImagePatch env.lib source patch bonus memorySink ⟨[], []⟩ = r at h hout
    obtain ⟨r, out'⟩ := r
    cases r with
    | error fault => cases h
    | ok u => cases h; exact hout

end

/-! ## The steps of a run -/

/-- The steps of `SaveFileContents`. -/
def saveSteps (data : List UInt8) : List DiskStep := .truncateCache :: data.map .appendCache

/-- The steps that write some bytes to a partition. -/
def writeSteps (path : Text) : (start : Nat) → List UInt8 → List DiskStep
  | _, [] => []
  | start, b :: bs => .writeByte path start b :: writeSteps path (start + 1) bs

/-- The steps of a run that patches a source to a target. -/
def patchSteps (path : Text) (source target : List UInt8) : List DiskStep :=
  saveSteps source ++ (writeSteps path 0 target ++ [.unlinkCache])

/-- The store with another content of a partition. -/
def Storage.setFile (s : Storage) (path : Text) (content : List UInt8) : Storage :=
  { s with file := fun p => if p = path then some content else s.file p }

@[simp] theorem Storage.setFile_file (s : Storage) (path : Text) (content : List UInt8) :
    (s.setFile path content).file path = some content := if_pos rfl

@[simp] theorem Storage.setFile_cache (s : Storage) (path : Text) (content : List UInt8) :
    (s.setFile path content).cache = s.cache := rfl

/-- The path of the partition in a name. -/
def partitionPath (filename : Text) : Text := (filename.splitOn ':').getD 1 []

/-- What is written to the partition, if the patch gives the target. -/
def targetFrom (source : List UInt8) (patch : Value) (targetSha1 : List UInt8)
    (bonus : Option (List UInt8)) : Option (List UInt8) :=
  if !patch.isBlob then none
  else match useBsdiff patch.data with
    | none => none
    | some bsdiff =>
      match patchOutput env source patch.data bonus bsdiff with
      | .error _ => none
      | .ok out => if env.sha1 out.hashed = targetSha1 then some out.sink else none

section
variable {env} {s : Storage} {path filename : Text} {content data : List UInt8}

theorem sha1_of_targetFrom {source targetSha1 out : List UInt8} {patch : Value}
    {bonus : Option (List UInt8)} (h : targetFrom env source patch targetSha1 bonus = some out) :
    env.sha1 out = targetSha1 := by
  unfold targetFrom at h
  split at h
  · cases h
  · split at h
    · cases h
    · split at h
      · cases h
      · rename_i hout
        split at h
        · rename_i hsha
          cases h
          rw [← patchOutput_eq_ok hout]
          exact hsha
        · cases h

theorem fileSink_apply (data : List UInt8) (s : Storage) :
    fileSink data () s = (data.map .appendCache, some ((), ())) := by
  induction data generalizing s with
  | nil => rfl
  | cons b data ih =>
    rw [fileSink, Prog.bind_apply _ (Prog.emit_apply _), ih]
    rfl

theorem saveFileContents_apply (data : List UInt8) (s : Storage) :
    saveFileContents data () s = (saveSteps data, some ((), ())) := by
  unfold saveFileContents
  rw [Prog.bind_apply _ (Prog.emit_apply _), fileSink_apply]
  rfl

theorem writeFrom_apply {size start : Nat} (hstart : start ≤ size) (bs : List UInt8) (s : Storage) :
    writeFrom path size start bs () s =
      (writeSteps path start (bs.take (size - start)),
        some (decide (start + bs.length ≤ size), ())) := by
  induction bs generalizing start s with
  | nil => simp [writeFrom, writeSteps, hstart]
  | cons b bs ih =>
    rw [writeFrom]
    rcases Nat.lt_or_ge start size with hlt | hge
    · rw [if_pos hlt, Prog.bind_apply _ (Prog.emit_apply _), ih (by omega),
        show size - start = size - (start + 1) + 1 by omega, List.take_succ_cons, writeSteps,
        List.length_cons, show start + (bs.length + 1) = start + 1 + bs.length by omega]
      rfl
    · have hzero : size - start = 0 := by omega
      rw [if_neg (by omega), hzero, List.take_zero, List.length_cons, decide_eq_false (by omega)]
      rfl

theorem foldl_appendCache {copy : List UInt8} (data : List UInt8) (hs : s.cache = some copy) :
    (data.map DiskStep.appendCache).foldl Storage.apply s =
    { s with cache := some (copy ++ data) } := by
  induction data generalizing s copy with
  | nil => rw [List.append_nil, ← hs]; rfl
  | cons b data ih =>
    have hnext : (s.apply (.appendCache b)).cache = some (copy ++ [b]) := by
      simp [Storage.apply, hs]
    rw [List.map_cons, List.foldl_cons, ih hnext, List.append_assoc]
    rfl

theorem foldl_saveSteps (data : List UInt8) :
    (saveSteps data).foldl Storage.apply s = { s with cache := some data } := by
  rw [saveSteps, List.foldl_cons, foldl_appendCache data rfl]
  rfl

theorem foldl_writeSteps {pre mid post : List UInt8} (bs : List UInt8)
    (hs : s.file path = some (pre ++ mid ++ post)) (hmid : mid.length = bs.length) :
    (writeSteps path pre.length bs).foldl Storage.apply s = s.setFile path (pre ++ bs ++ post) := by
  induction bs generalizing s pre mid with
  | nil =>
    rw [List.length_eq_zero_iff.mp hmid] at hs
    rw [List.append_nil] at hs ⊢
    refine Storage.ext (funext fun p => ?_) rfl
    show s.file p = if p = path then some (pre ++ post) else s.file p
    split
    · rename_i hp
      rw [hp, hs]
    · rfl
  | cons b bs ih =>
    cases mid with
    | nil => cases hmid
    | cons c mid =>
      have hnext : (s.apply (.writeByte path pre.length b)).file path =
          some ((pre ++ [b]) ++ mid ++ post) := by
        simp [Storage.apply, hs]
      have hrest := ih hnext (Nat.succ.inj hmid)
      rw [List.length_append, List.length_singleton] at hrest
      rw [writeSteps, List.foldl_cons, hrest]
      refine Storage.ext (funext fun p => ?_) rfl
      simp only [Storage.setFile, Storage.apply, List.append_assoc, List.singleton_append]
      split
      · rfl
      · rfl

theorem foldl_writeSteps_zero (hs : s.file path = some content)
    (hdata : data.length ≤ content.length) : (writeSteps path 0 data).foldl Storage.apply s =
      s.setFile path (data ++ content.drop data.length) := by
  have hsplit :
      s.file path = some ([] ++ content.take data.length ++ content.drop data.length) := by
    rw [List.nil_append, List.take_append_drop]
    exact hs
  exact foldl_writeSteps data hsplit (by rw [List.length_take]; omega)

theorem verifyFrom_append (data rest : List UInt8) (fuel p : Nat) :
    verifyFrom data (data ++ rest) fuel p = .ok none := by
  induction fuel generalizing p with
  | zero => rfl
  | succ fuel ih =>
    rw [verifyFrom]
    split
    · have hread : ((data ++ rest).drop p).take (min (data.length - p) 4096) =
          (data.drop p).take (min (data.length - p) 4096) := by
        rw [List.drop_append_of_le_length (by omega), List.take_append_of_le_length]
        rw [List.length_drop]
        omega
      dsimp only
      rw [if_neg (by rw [List.length_append]; omega), if_pos hread]
      exact ih _
    · rfl

/-- The whole string is written and verified, or as much of it as there is room for. -/
theorem writeAttempts_apply (hs : s.file path = some content) (attempts : Nat) :
    writeAttempts path data (attempts + 1) 0 () s =
      (writeSteps path 0 (data.take content.length),
        some (decide (data.length ≤ content.length), ())) := by
  rw [writeAttempts, Prog.bind_apply _ Prog.store_apply]
  simp only [hs, Option.getD_some, List.foldl_nil, List.nil_append, List.drop_zero]
  rw [Prog.bind_apply _ (writeFrom_apply (Nat.zero_le _) data s), Nat.sub_zero, Nat.zero_add]
  rcases Nat.lt_or_ge content.length data.length with hlong | hfits
  · rw [decide_eq_false (by omega)]
    simp
  · rw [List.take_of_length_le hfits, foldl_writeSteps_zero hs hfits, decide_eq_true hfits]
    simp only [if_true]
    rw [Prog.bind_apply _ Prog.store_apply]
    simp [verifyFrom_append]

theorem splitOn_of_isPrefixOf (h : "EMMC:".toList.isPrefixOf filename = true) :
    ∃ rest, filename.splitOn ':' = "EMMC".toList :: partitionPath filename :: rest := by
  rw [List.isPrefixOf_iff_prefix] at h
  obtain ⟨t, rfl⟩ := h
  have hsplit : ("EMMC:".toList ++ t).splitOn ':' = "EMMC".toList :: t.splitOn ':' := by
    rw [show "EMMC:".toList ++ t = ['E', 'M', 'M', 'C'] ++ ':' :: t from rfl]
    rw [List.splitOn_append_cons_self, List.splitOn_eq_singleton (by decide)]
    rfl
  cases ht : t.splitOn ':' with
  | nil => exact absurd ht (List.splitOnP_ne_nil _ _)
  | cons path rest =>
    refine ⟨rest, ?_⟩
    rw [partitionPath, hsplit, ht]
    rfl

theorem writeToPartition_apply (hname : "EMMC:".toList.isPrefixOf filename = true) :
    writeToPartition data filename () s =
      match s.file (partitionPath filename) with
      | none => ([], some (false, ()))
      | some content => (writeSteps (partitionPath filename) 0 (data.take content.length),
          some (decide (data.length ≤ content.length), ())) := by
  obtain ⟨rest, hsplit⟩ := splitOn_of_isPrefixOf hname
  rw [writeToPartition, hsplit]
  simp only [ne_eq, not_true_eq_false, if_false]
  rw [Prog.bind_apply _ Prog.store_apply]
  cases hfile : s.file (partitionPath filename) with
  | none => simp
  | some content => simp [writeAttempts_apply hfile]

section
variable {source targetSha1 out : List UInt8} {patch : Value} {bonus : Option (List UInt8)}

/-- If the patch gives the target, the source is saved and the target is written. -/
theorem generateTarget_of_some (hname : "EMMC:".toList.isPrefixOf filename = true)
    (hspace : env.makeFreeSpaceOnCache source.length = true)
    (h : targetFrom env source patch targetSha1 bonus = some out)
    (hfile : s.file (partitionPath filename) = some content) :
    generateTarget env source patch filename targetSha1 bonus () s =
      if out.length ≤ content.length then
        (patchSteps (partitionPath filename) source out, some (0, ()))
      else
        (saveSteps source ++ writeSteps (partitionPath filename) 0 (out.take content.length),
          some (1, ())) := by
  unfold targetFrom at h
  rw [generateTarget]
  split at h
  · cases h
  · rename_i hblob
    rw [if_neg hblob]
    split at h
    · cases h
    · rename_i bsdiff hbsdiff
      split at h
      · cases h
      · rename_i o ho
        split at h
        · rename_i hsha
          cases h
          simp only [hbsdiff, hname, hspace, Bool.not_true, Bool.false_eq_true, if_false]
          rw [Prog.bind_apply _ (saveFileContents_apply source s), foldl_saveSteps]
          simp only [ho, hsha, ne_eq, not_true_eq_false, if_false]
          have hwrite :=
            @writeToPartition_apply { s with cache := some source } filename o.sink hname
          simp only [hfile] at hwrite
          rw [Prog.bind_apply _ hwrite]
          rcases Nat.lt_or_ge content.length o.sink.length with hlong | hfits
          · rw [decide_eq_false (Nat.not_le.mpr hlong)]
            simp [Nat.not_le.mpr hlong]
          · rw [List.take_of_length_le hfits, decide_eq_true hfits, if_pos hfits]
            simp only [if_true]
            rw [Prog.bind_apply _ (Prog.emit_apply _)]
            simp [patchSteps]
        · cases h

/-- If it does not, or there is no such partition, the partition is not written. -/
theorem generateTarget_of_none (hname : "EMMC:".toList.isPrefixOf filename = true)
    (hspace : env.makeFreeSpaceOnCache source.length = true)
    (h : targetFrom env source patch targetSha1 bonus = none ∨
      s.file (partitionPath filename) = none) :
    ∃ es r, generateTarget env source patch filename targetSha1 bonus () s = (es, r) ∧
      (es = [] ∨ es = saveSteps source) ∧ ∀ u, r ≠ some (0, u) := by
  rw [generateTarget]
  split
  · exact ⟨[], _, rfl, .inl rfl, by simp⟩
  · rename_i hblob
    cases hbsdiff : useBsdiff patch.data with
    | none => exact ⟨[], _, rfl, .inl rfl, by simp⟩
    | some bsdiff =>
      simp only [hname, hspace, Bool.not_true, Bool.false_eq_true, if_false]
      rw [Prog.bind_apply _ (saveFileContents_apply source s), foldl_saveSteps]
      cases hout : patchOutput env source patch.data bonus bsdiff with
      | error fault =>
        cases fault with
        | failed => exact ⟨_, _, rfl, .inr (List.append_nil _), by simp⟩
        | crashed => exact ⟨_, _, rfl, .inr (List.append_nil _), by simp⟩
      | ok o =>
        dsimp only
        by_cases hsha : env.sha1 o.hashed = targetSha1
        · have hsome : targetFrom env source patch targetSha1 bonus = some o.sink := by
            simp only [targetFrom, hblob, hbsdiff, hout, hsha, if_true, if_false,
              Bool.false_eq_true]
          have hfile : s.file (partitionPath filename) = none := by
            rcases h with h | h
            · rw [hsome] at h
              cases h
            · exact h
          have hwrite :=
            @writeToPartition_apply { s with cache := some source } filename o.sink hname
          simp only [hfile] at hwrite
          rw [if_neg (not_not.mpr hsha), Prog.bind_apply _ hwrite]
          exact ⟨_, _, rfl, .inr (by simp), by simp⟩
        · rw [if_pos hsha]
          exact ⟨_, _, rfl, .inr (List.append_nil _), by simp⟩

end

end

theorem applypatch_apply {env : PatchEnv} {args : PatchArgs} {targetSha1 : List UInt8}
    (htarget : args.targetFilename = ['-'])
    (hemmc : "EMMC:".toList.isPrefixOf args.sourceFilename = true)
    (hsha : parseSha1 args.targetSha1Str = some targetSha1) (s : Storage) :
    applypatch env args () s =
      match chooseSource env args args.sourceFilename targetSha1 s with
      | .already => ([], some (0, ()))
      | .fail => ([], some (1, ()))
      | .patch source patch =>
        generateTarget env source patch args.sourceFilename targetSha1 args.bonus () s := by
  rw [applypatch]
  simp only [htarget, if_true, hemmc, Bool.not_true, Bool.false_eq_true, if_false, hsha]
  rw [Prog.bind_apply _ Prog.store_apply]
  simp only [List.foldl_nil, List.nil_append]
  cases chooseSource env args args.sourceFilename targetSha1 s <;> rfl

/-! ## Small images -/

/-- Some strings and their digests. -/
def sampleDigests : List (List UInt8 × Nat) :=
  [([], 0xda39a3ee5e6b4b0d3255bfef95601890afd80709),
    ([0x61], 0x86f7e437faa5a7fce15d1ddcb9eaeaea377667b8),
    ([0x63], 0x84a516841ba77a5b4648de2cd0dfcb30ea46dbb4),
    ([0x61, 0x62], 0xda23614e02469a0d7c7bd1bdab5c9c474b1904dc),
    ([0x63, 0x62], 0x85d56cb41a65761dcea36d0ceb2f0ec45f184419),
    ([0x63, 0x64], 0x034778198a045c1ed80be271cdd029b76874f6fc)]

/-- SHA-1 of these strings, and something longer than a digest for all others. -/
def sampleSha1 (data : List UInt8) : List UInt8 :=
  match sampleDigests.find? fun p => p.1 = data with
  | some p => (leBytes 20 p.2).reverse
  | none => List.replicate 21 0 ++ data

theorem sampleSha1_injective : Function.Injective sampleSha1 := by
  have htable : ∀ p ∈ sampleDigests, ∀ q ∈ sampleDigests,
      (leBytes 20 p.2).reverse = (leBytes 20 q.2).reverse → p = q := by decide +kernel
  have hfind : ∀ {data : List UInt8} {p : List UInt8 × Nat},
      (sampleDigests.find? fun p => p.1 = data) = some p → p ∈ sampleDigests ∧ p.1 = data := by
    intro data p h
    have hdata := List.find?_some h
    exact ⟨List.mem_of_find?_eq_some h, by simpa using hdata⟩
  have hshort : ∀ n : Nat, (leBytes 20 n).reverse.length < 21 := by
    intro n
    rw [List.length_reverse, length_leBytes]
    omega
  intro a b h
  unfold sampleSha1 at h
  split at h
  · rename_i p hp
    split at h
    · rename_i q hq
      cases htable p (hfind hp).1 q (hfind hq).1 h
      exact (hfind hp).2.symm.trans (hfind hq).2
    · have := hshort p.2
      rw [h, List.length_append, List.length_replicate] at this
      omega
  · split at h
    · rename_i q hq
      have := hshort q.2
      rw [← h, List.length_append, List.length_replicate] at this
      omega
    · exact List.append_cancel_left h

def hexText (digest : List UInt8) : Text :=
  digest.flatMap fun b => [Nat.digitChar (b.toNat / 16), Nat.digitChar (b.toNat % 16)]

/-- The name of the partition `p` with some images. -/
def sampleName (imgs : List (List UInt8)) : Text :=
  ['E', 'M', 'M', 'C', ':', 'p'] ++
    imgs.flatMap fun img => ':' :: Nat.digitChar img.length :: ':' :: hexText (sampleSha1 img)

def sampleEnv : PatchEnv := ⟨sampleLib, sampleSha1, fun _ => true⟩

/-- An imgdiff patch that gives some bytes from any source. -/
def rawPatch (data : List UInt8) : Value :=
  ⟨true, PatchChunk.writePatchDataToFd [⟨.raw, 0, 0, 0, 0, data.length, data.length, 6, data⟩]⟩

end BootableRecovery.ApplyPatch
