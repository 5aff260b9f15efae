import BootableRecovery.Bu.Callbacks
import BootableRecovery.Bu.Integrity

/-!
# What a backup reports

`do_backup` with its options and with every failure of the calls that it makes: of `lseek64` and
`open` for the sizes, of `lstat`, of the functions of libtar with the writes they make, and of
`gzflush`. Only the result for the last partition is returned.
-/

namespace BootableRecovery.Bu

/-! ## The calls -/

/-- libtar with the two functions that write a partition. -/
structure TarWriter extends Libtar where
  thWrite : (savename : Text) → (size : Int) → List Block
  appendRegfile : (contents : List UInt8) → List Block
  appendDeviceContents_eq : ∀ savename contents,
    appendDeviceContents savename contents = thWrite savename contents.length ++
    appendRegfile contents

/-- What a function of libtar does when it writes an entry: how many of the blocks it hands to the
callback, what the writes answer for each of them, and what it returns. -/
structure TarCall where
  count : Nat
  answers : Nat → WriteAnswers
  rc : Int

/-- The calls for one partition: whether its size is found for the SOD, whether `lstat`, `open` and
`lseek64` succeed when it is appended, the calls of libtar, and the blocks that `tar_append_regfile`
makes of what it reads. -/
structure PartCalls where
  sodLseek : Bool
  lstat : Bool
  opens : Bool
  lseek : Bool
  thWrite : TarCall
  data : List Block
  regfile : TarCall

/-- The calls of a backup. -/
structure BackupCalls where
  gzdopen : Bool
  fdopen : Int
  sod : TarCall
  part : Nat → PartCalls
  eod : TarCall
  eof : TarCall
  gzflush : Bool

/-! ## Options -/

structure Options where
  compress : Text
  hash : Text
  deriving DecidableEq

/-- `opt_compress` and `opt_hash`. -/
def Options.default : Options := ⟨"gzip".toList, "md5".toList⟩

/-- One option with its value. -/
def Options.set (o : Options) (optname optval : Text) : Option Options :=
  if optname = "compress".toList then some { o with compress := optval }
  else if optname = "hash".toList then some { o with hash := optval }
  else none

/-- The loop of `do_backup` over the options: they and the names behind them. -/
def parseOptions : (args : List Text) → Options → Option (Options × List Text)
  | [], o => some (o, [])
  | arg :: args, o =>
    if "--".toList <+: arg then
      let optname := arg.drop 2
      if '=' ∈ optname then
        (o.set (optname.takeWhile (· ≠ '=')) (optname.dropWhile (· ≠ '=')).tail).bind
          (parseOptions args)
      else
        match args with
        | [] => none
        | optval :: args => (o.set optname optval).bind (parseOptions args)
    else some (o, arg :: args)

/-- `!strcasecmp(compress, "gzip")`. -/
def isGzip (compress : Text) : Bool := compress.map Char.toLower = "gzip".toList

/-- The result of `create_tar`. -/
def createTar (compress : Text) (calls : BackupCalls) : Int :=
  if compress.map Char.toLower = "none".toList then calls.fdopen
  else if isGzip compress then if calls.gzdopen then calls.fdopen else -1
  else -1

/-! ## The entries -/

variable {hashes : Hashes} (lib : TarWriter) (dev : Device)

/-- What the block device of a partition holds. -/
def contentsOf (part : Text) : List UInt8 :=
  ((dev.volumeForMountPoint part).map dev.contents).getD []

/-- The sizes that `append_sod` sets; -1 as an `uint64_t` if there is none. -/
def specsOf (calls : BackupCalls) (parts : List Text) : List PartSpec :=
  parts.mapIdx fun i name =>
    let size := if (calls.part i).sodLseek then (contentsOf dev name).length else 2 ^ 64 - 1
    { name, size, used := size, off := 0 }

/-- The text of the SOD, with the sizes of the partitions. -/
def sodTextOf (optHash : Text) (specs : List PartSpec) : Text :=
  line "hash.name".toList optHash ++ (line "ro.product.device".toList dev.product ++
    specs.flatMap fun part =>
      line ("fs.".toList ++ part.name ++ ".size".toList) (toText part.size) ++
        line ("fs.".toList ++ part.name ++ ".used".toList) (toText part.used))

/-- A call of libtar with the blocks of an entry. -/
def TarCall.run (c : TarCall) (blocks : List Block) (g : Globals hashes) :
    Option (List (List UInt8) × Globals hashes) :=
  writeBlocks c.answers 0 (blocks.take c.count) g

/-- `tar_append_device_contents`: its result, what was written, and the globals. -/
def tarAppendDeviceContents (c : PartCalls) (part : Text) (g : Globals hashes) :
    Option (Int × List (List UInt8) × Globals hashes) :=
  if !c.lstat then some (-1, [], g)
  else if !c.opens then some (-1, [], g)
  else do
    let size : Int := if c.lseek then (contentsOf dev part).length else -1
    let (header, g) ← c.thWrite.run (lib.thWrite part size) g
    if c.thWrite.rc ≠ 0 then return (-1, header, g)
    let (data, g) ← c.regfile.run c.data g
    if c.regfile.rc ≠ 0 then return (-1, header ++ data, g)
    return (0, header ++ data, g)

/-- The loop over the partitions from the `i`-th on, with the last result and what was written of
each. -/
def appendParts (calls : BackupCalls) : (i : Nat) → List PartSpec → (rc : Int) → Globals hashes →
    Option (Int × List (Text × List (List UInt8)) × Globals hashes)
  | _, [], rc, g => some (rc, [], g)
  | i, part :: parts, _, g => do
    let (rc, sent, g) ←
      tarAppendDeviceContents lib dev (calls.part i) part.name
      { g with curpart := some (partSet part) }
    let (rc, entries, g) ← appendParts calls (i + 1) parts rc g
    return (rc, (part.name, sent) :: entries, g)

/-- What `do_backup` returns, what was written of the blocks of each entry and of those behind them,
and whether the compressed stream was flushed. -/
structure Backup where
  rc : Int
  entries : List (Text × List (List UInt8))
  eof : List (List UInt8)
  flushed : Bool

/-- `do_backup` with the results of all calls; no result where it divides by 0 or writes behind a
buffer. -/
def doBackupWith (hashes : Hashes) (calls : BackupCalls) (args : List Text) : Option Backup :=
  match parseOptions args .default with
  | none => some ⟨-1, [], [], false⟩
  | some (o, names) =>
    match partsOf dev names [] with
    | none => some ⟨-1, [], [], false⟩
    | some parts =>
      let rc := createTar o.compress calls
      if rc ≠ 0 then some ⟨rc, [], [], false⟩
      else do
        let specs := specsOf dev calls parts
        if SodFits o.hash (sodTextOf dev o.hash specs) then
          let g : Globals hashes := ⟨.created, none⟩
          let (sod, g) ←
            calls.sod.run (lib.appendFileContents "SOD".toList (sodTextOf dev o.hash specs)) g
          let g := { g with hash.hashName := some o.hash }
          let (rc, entries, g) ← appendParts lib dev calls 0 specs rc g
          let g := { g with hash.hashName := none }
          let (eod, g) ←
            calls.eod.run (lib.appendFileContents "EOD".toList (eodText o.hash g.hash)) g
          let (eof, _) ← calls.eof.run lib.appendEof g
          return ⟨rc, ("SOD".toList, sod) :: entries ++ [("EOD".toList, eod)], eof,
            !isGzip o.compress || calls.gzflush⟩
        else none

/-! ## What the calls do -/

theorem TarCall.run_eq_some {c : TarCall} {blocks : List Block} {g g' : Globals hashes}
    {sent : List (List UInt8)}
    (h : c.run blocks g = some (sent, g')) :
    sent = delivered c.answers 0 (blocks.take c.count) ∧
      g'.hash = (blocks.take c.count).foldl tarCbWrite g.hash ∧
      (Countable g'.curpart ↔ Countable g.curpart) :=
  writeBlocks_eq_some h

theorem TarCall.run_isSome {c : TarCall} {blocks : List Block} {g : Globals hashes} :
    (c.run blocks g).isSome ↔ Survives g.curpart c.answers 0 (blocks.take c.count).length :=
  writeBlocks_isSome

theorem run_run_isSome {c c' : TarCall} {blocks blocks' : List Block} {g : Globals hashes}
    {f : List (List UInt8) × Globals hashes → List (List UInt8) × Globals hashes → β} :
    ((c.run blocks g).bind fun r => (c'.run blocks' r.2).bind fun r' => some (f r r')).isSome ↔
      Survives g.curpart c.answers 0 (blocks.take c.count).length ∧
        Survives g.curpart c'.answers 0 (blocks'.take c'.count).length := by
  rw [← TarCall.run_isSome]
  cases hfirst : c.run blocks g with
  | none => simp
  | some r =>
    obtain ⟨first, g₁⟩ := r
    obtain ⟨-, -, hcur⟩ := TarCall.run_eq_some hfirst
    have hsecond : Survives g₁.curpart c'.answers 0 (blocks'.take c'.count).length ↔
        Survives g.curpart c'.answers 0 (blocks'.take c'.count).length := or_congr_left hcur
    rw [← hsecond, ← TarCall.run_isSome]
    cases hrun : c'.run blocks' g₁ <;> simp [hrun]

namespace PartCalls
variable (c : PartCalls) (part : Text)

/-- The header that libtar hands to the callback. -/
def header : List Block :=
  if c.lstat && c.opens then
    (lib.thWrite part (if c.lseek then (contentsOf dev part).length else -1)).take c.thWrite.count
  else []

/-- The contents that libtar hands to the callback. -/
def contents : List Block :=
  if c.lstat && c.opens && c.thWrite.rc = 0 then c.data.take c.regfile.count else []

/-- The result for the partition. -/
def result : Int := if c.lstat && c.opens && c.thWrite.rc = 0 && c.regfile.rc = 0 then 0 else -1

/-- What is written of the partition. -/
def sent : List (List UInt8) :=
  delivered c.thWrite.answers 0 (c.header lib dev part) ++ delivered c.regfile.answers 0 c.contents

/-- The calls do not divide by 0. -/
def Survives (curpart : Option PartSpec) : Prop :=
  Bu.Survives curpart c.thWrite.answers 0 (c.header lib dev part).length ∧
    Bu.Survives curpart c.regfile.answers 0 c.contents.length

end PartCalls

theorem survives_zero {curpart : Option PartSpec} {answers : Nat → WriteAnswers} :
    Survives curpart answers j 0 :=
  .inr nofun

theorem Survives.congr {curpart curpart' : Option PartSpec} {answers : Nat → WriteAnswers}
    (h : Countable curpart ↔ Countable curpart') : Survives curpart answers j n ↔
    Survives curpart' answers j n :=
  or_congr_left h

section
variable {lib dev} {c : PartCalls} {part : Text} {g g' : Globals hashes} {sent : List (List UInt8)}

theorem tarAppendDeviceContents_of_closed (h : (c.lstat && c.opens) = false) :
    tarAppendDeviceContents lib dev c part g = some (-1, [], g) := by
  rw [tarAppendDeviceContents]
  cases hlstat : c.lstat with
  | false => rfl
  | true =>
    rw [hlstat, Bool.true_and] at h
    rw [h]
    rfl

theorem tarAppendDeviceContents_of_open (h : (c.lstat && c.opens) = true) :
    tarAppendDeviceContents lib dev c part g =
      (writeBlocks c.thWrite.answers 0 (c.header lib dev part) g).bind fun r =>
        if c.thWrite.rc ≠ 0 then some (-1, r.1, r.2)
        else (c.regfile.run c.data r.2).bind fun r' =>
          some (if c.regfile.rc ≠ 0 then -1 else 0, r.1 ++ r'.1, r'.2) := by
  rw [PartCalls.header, if_pos h]
  obtain ⟨hlstat, hopens⟩ := Bool.and_eq_true_iff.mp h
  rw [tarAppendDeviceContents, hlstat, hopens]
  refine Option.bind_congr fun r _ => ?_
  obtain ⟨header, g₁⟩ := r
  rcases Decidable.em (c.thWrite.rc = 0) with hrc | hrc
  · rw [if_neg (not_not_intro hrc)]
    refine (if_neg (not_not_intro hrc)).trans (Option.bind_congr fun r' _ => ?_)
    rcases Decidable.em (c.regfile.rc = 0) with hreg | hreg
    · rw [if_neg (not_not_intro hreg)]
      exact if_neg (not_not_intro hreg)
    · rw [if_pos hreg]
      exact if_pos hreg
  · rw [if_pos hrc]
    exact if_pos hrc

theorem tarAppendDeviceContents_eq_some
    (h : tarAppendDeviceContents lib dev c part g = some (rc, sent, g')) :
    rc = c.result ∧ sent = c.sent lib dev part ∧
      g'.hash = (c.header lib dev part ++ c.contents).foldl tarCbWrite g.hash ∧
      (Countable g'.curpart ↔ Countable g.curpart) := by
  cases hopen : c.lstat && c.opens with
  | false =>
    rw [tarAppendDeviceContents_of_closed hopen] at h
    cases h
    have hheader : c.header lib dev part = [] := by
      rw [PartCalls.header, hopen]
      rfl
    have hcontents : c.contents = [] := by
      rw [PartCalls.contents, hopen]
      rfl
    rw [PartCalls.result, PartCalls.sent, hheader, hcontents, hopen]
    exact ⟨rfl, rfl, rfl, Iff.rfl⟩
  | true =>
    rw [tarAppendDeviceContents_of_open hopen] at h
    obtain ⟨⟨first, g₁⟩, hfirst, h⟩ := Option.bind_eq_some_iff.mp h
    obtain ⟨hsent, hhash, hcur⟩ := writeBlocks_eq_some hfirst
    rcases Decidable.em (c.thWrite.rc = 0) with hrc | hrc
    · rw [if_neg (not_not_intro hrc)] at h
      obtain ⟨⟨data, g₂⟩, hdata, h⟩ := Option.bind_eq_some_iff.mp h
      cases h
      obtain ⟨hsent', hhash', hcur'⟩ := TarCall.run_eq_some hdata
      have hcontents : c.contents = c.data.take c.regfile.count := by
        rw [PartCalls.contents, hopen, if_pos (by simp [hrc])]
      refine ⟨?_, ?_, ?_, hcur'.trans hcur⟩
      · rw [PartCalls.result, hopen, hrc]
        rcases Decidable.em (c.regfile.rc = 0) with hreg | hreg
        · rw [if_neg (not_not_intro hreg), if_pos (by simp [hreg])]
        · rw [if_pos hreg, if_neg (by simp [hreg])]
      · rw [PartCalls.sent, hcontents, hsent, hsent']
      · rw [hhash', hhash, hcontents, List.foldl_append]
    · rw [if_pos hrc] at h
      cases h
      have hcontents : c.contents = [] := by
        rw [PartCalls.contents, if_neg (by simp [hrc])]
      rw [PartCalls.result, PartCalls.sent, hcontents, if_neg (by simp [hrc]), delivered,
        List.append_nil, List.append_nil]
      exact ⟨rfl, hsent, hhash, hcur⟩

theorem tarAppendDeviceContents_isSome :
    (tarAppendDeviceContents lib dev c part g).isSome ↔ c.Survives lib dev part g.curpart := by
  cases hopen : c.lstat && c.opens with
  | false =>
    rw [tarAppendDeviceContents_of_closed hopen, PartCalls.Survives, PartCalls.header,
      PartCalls.contents, hopen]
    exact iff_of_true rfl ⟨survives_zero, survives_zero⟩
  | true =>
    rw [tarAppendDeviceContents_of_open hopen, PartCalls.Survives, ← writeBlocks_isSome]
    cases hfirst : writeBlocks c.thWrite.answers 0 (c.header lib dev part) g with
    | none => simp
    | some r =>
      obtain ⟨first, g₁⟩ := r
      obtain ⟨-, -, hcur⟩ := writeBlocks_eq_some hfirst
      rw [Option.bind_some, Option.isSome_some, eq_self, true_and]
      rcases Decidable.em (c.thWrite.rc = 0) with hrc | hrc
      · have hcontents : c.contents = c.data.take c.regfile.count := by
          rw [PartCalls.contents, hopen, if_pos (by simp [hrc])]
        rw [if_neg (not_not_intro hrc), Option.isSome_bind, hcontents, ← Survives.congr hcur,
          ← TarCall.run_isSome]
        cases c.regfile.run c.data g₁ <;> simp
      · have hcontents : c.contents = [] := by
          rw [PartCalls.contents, if_neg (by simp [hrc])]
        rw [if_pos hrc, hcontents]
        exact iff_of_true rfl survives_zero

end

/-! ## All partitions -/

/-- What is written of the partitions from the `i`-th on. -/
def sentParts (calls : BackupCalls) : (i : Nat) → List PartSpec → List (Text × List (List UInt8))
  | _, [] => []
  | i, part :: parts =>
    (part.name, (calls.part i).sent lib dev part.name) :: sentParts calls (i + 1) parts

/-- What is handed to the callback, and hashed, for the partitions from the `i`-th on. -/
def handedParts (calls : BackupCalls) : (i : Nat) → List PartSpec → List Block
  | _, [] => []
  | i, part :: parts =>
    ((calls.part i).header lib dev part.name ++ (calls.part i).contents) ++
      handedParts calls (i + 1) parts

/-- The result for the last partition, if there is one. -/
def lastResult (calls : BackupCalls) : (i : Nat) → List PartSpec → (rc : Int) → Int
  | _, [], rc => rc
  | i, _ :: parts, _ => lastResult calls (i + 1) parts (calls.part i).result

/-- The current partition after the loop. -/
def lastPart : List PartSpec → Option PartSpec → Option PartSpec
  | [], curpart => curpart
  | part :: parts, _ => lastPart parts (some (partSet part))

/-- The calls for the partitions do not divide by 0. -/
def PartsSurvive (calls : BackupCalls) : (i : Nat) → List PartSpec → Prop
  | _, [] => True
  | i, part :: parts =>
    (calls.part i).Survives lib dev part.name (some (partSet part)) ∧
      PartsSurvive calls (i + 1) parts

theorem countable_lastPart {parts : List PartSpec} {curpart curpart' : Option PartSpec}
    (h : Countable curpart ↔ Countable curpart') :
    Countable (lastPart parts curpart) ↔ Countable (lastPart parts curpart') := by
  cases parts with
  | nil => exact h
  | cons part parts => exact Iff.rfl

section
variable {lib dev} {calls : BackupCalls} {parts : List PartSpec} {g g' : Globals hashes}

theorem appendParts_eq_some {entries : List (Text × List (List UInt8))}
    (h : appendParts lib dev calls i parts rc g = some (rc', entries, g')) :
    rc' = lastResult calls i parts rc ∧ entries = sentParts lib dev calls i parts ∧
      g'.hash = (handedParts lib dev calls i parts).foldl tarCbWrite g.hash ∧
      (Countable g'.curpart ↔ Countable (lastPart parts g.curpart)) := by
  induction parts generalizing i rc g entries with
  | nil =>
    cases h
    exact ⟨rfl, rfl, rfl, Iff.rfl⟩
  | cons part parts ih =>
    obtain ⟨⟨rc₁, sent, g₁⟩, hfirst, h⟩ := Option.bind_eq_some_iff.mp h
    obtain ⟨⟨rc₂, rest, g₂⟩, hrest, h⟩ := Option.bind_eq_some_iff.mp h
    cases h
    obtain ⟨hrc, hsent, hhash, hcur⟩ := tarAppendDeviceContents_eq_some hfirst
    obtain ⟨hrc', hsent', hhash', hcur'⟩ := ih hrest
    refine ⟨?_, ?_, ?_, hcur'.trans (countable_lastPart hcur)⟩
    · rw [hrc', hrc, lastResult]
    · rw [hsent, hsent', sentParts]
    · simp only [hhash', hhash, handedParts, List.foldl_append]

theorem appendParts_isSome : (appendParts lib dev calls i parts rc g).isSome ↔
    PartsSurvive lib dev calls i parts := by
  induction parts generalizing i rc g with
  | nil => exact iff_of_true rfl trivial
  | cons part parts ih =>
    rw [PartsSurvive, appendParts,
      ← @tarAppendDeviceContents_isSome _ _ _ _ _ { g with curpart := some (partSet part) }]
    cases hfirst : tarAppendDeviceContents lib dev (calls.part i) part.name
      { g with curpart := some (partSet part) } with
    | none => simp
    | some r =>
      obtain ⟨rc₁, sent, g₁⟩ := r
      rw [← @ih g₁ (i + 1) rc₁]
      cases hrest : appendParts lib dev calls (i + 1) parts rc₁ g₁ <;> simp [hrest]

end

/-! ## The whole backup -/

/-- The names of the command line, each without a `-` before it. -/
def requested (names : List Text) : List Text :=
  names.map fun name => if name.head? = some '-' then name.tail else name

/-- The entries of a backup that holds all partitions, with the digest of what stands between SOD
and EOD. -/
def wholeEntries (hashes : Hashes) (optHash : Text) (parts : List Text) :
    List (Text × List Block) :=
  ("SOD".toList, lib.appendFileContents "SOD".toList (sodText dev optHash parts)) ::
    parts.map (fun part => (part, partBlocks lib.toLibtar dev part)) ++
    [("EOD".toList, lib.appendFileContents "EOD".toList (reportText hashes (kindOf optHash)
      (bytesOf (parts.flatMap (partBlocks lib.toLibtar dev)))))]

/-- If `do_backup` returns 0, all entries were written, block by block, and flushed if they are
compressed. -/
def ReportsFailure (hashes : Hashes) (calls : BackupCalls) (args : List Text) : Prop :=
  ∀ b, doBackupWith lib dev hashes calls args = some b → b.rc = 0 →
    ∃ o names, parseOptions args .default = some (o, names) ∧
      b.entries = (wholeEntries lib dev hashes o.hash (requested names)).map (fun e =>
        (e.1, e.2.map List.Vector.toList)) ∧ b.flushed

/-- The blocks of the SOD that are handed to the callback. -/
def sodHanded (calls : BackupCalls) (optHash : Text) (parts : List Text) : List Block :=
  (lib.appendFileContents "SOD".toList (sodTextOf dev optHash (specsOf dev calls parts))).take
  calls.sod.count

/-- The blocks of the EOD that are handed to the callback. -/
def eodHanded (hashes : Hashes) (calls : BackupCalls) (optHash : Text) (parts : List Text) :
    List Block :=
  (lib.appendFileContents "EOD".toList (reportText hashes (kindOf optHash)
    (bytesOf (handedParts lib dev calls 0 (specsOf dev calls parts))))).take calls.eod.count

/-- The SOD keeps to the buffers, and no call divides by 0. -/
def BackupSurvives (hashes : Hashes) (calls : BackupCalls) (optHash : Text) (parts : List Text) :
    Prop :=
  SodFits optHash (sodTextOf dev optHash (specsOf dev calls parts)) ∧
  PartsSurvive lib dev calls 0 (specsOf dev calls parts) ∧
    Survives (lastPart (specsOf dev calls parts) none) calls.eod.answers 0
      (eodHanded lib dev hashes calls optHash parts).length ∧
    Survives (lastPart (specsOf dev calls parts) none) calls.eof.answers 0
    (lib.appendEof.take calls.eof.count).length

/-- There is a last partition, and one of its calls fails: `lstat` or `open`, or a function of
libtar. -/
def LastFails (calls : BackupCalls) (n : Nat) : Prop :=
  ∃ i, n = i + 1 ∧ ¬((calls.part i).lstat ∧ (calls.part i).opens ∧ (calls.part i).thWrite.rc = 0 ∧
    (calls.part i).regfile.rc = 0)

/-- libtar hands over `n` blocks, and the calls of `write` take each of them. -/
structure TarCall.Whole (c : TarCall) (n : Nat) : Prop where
  count : n ≤ c.count
  answers : ∀ j < n, TakesAll (c.answers j)

/-- No call for a partition fails: `lseek64` for the SOD, `lstat`, `open` and `lseek64` for the
header, the reads, whose blocks are those of the device, and the writes. -/
structure PartCalls.Whole (c : PartCalls) (part : Text) : Prop where
  sodLseek : c.sodLseek
  lstat : c.lstat
  opens : c.opens
  lseek : c.lseek
  thWrite : c.thWrite.Whole (lib.thWrite part (contentsOf dev part).length).length
  contents : c.contents = lib.appendRegfile (contentsOf dev part)
  regfile : ∀ j < (lib.appendRegfile (contentsOf dev part)).length, TakesAll (c.regfile.answers j)

/-- No call for an entry fails, nor `gzflush` for a compressed stream. -/
structure NoCallFails (hashes : Hashes) (calls : BackupCalls) (o : Options) (parts : List Text) :
    Prop where
  sod : calls.sod.Whole (lib.appendFileContents "SOD".toList (sodText dev o.hash parts)).length
  partitions : ∀ i part, parts[i]? = some part → (calls.part i).Whole lib dev part
  eod : calls.eod.Whole (lib.appendFileContents "EOD".toList (reportText hashes (kindOf o.hash)
    (bytesOf (parts.flatMap (partBlocks lib.toLibtar dev))))).length
  flushed : isGzip o.compress → calls.gzflush

/-- What is known of libtar: it reads back the SOD that it writes, whichever sizes were found; the
headers of a partition with its size and with the size -1 of a failed `lseek64` differ; and
`th_write` returns 0 only if it has handed over the header. Devices have less than `2 ^ 63`
bytes. -/
structure TellsSizes (calls : BackupCalls) (optHash : Text) (parts : List Text) : Prop where
  sod : lib.WritesFile "SOD".toList (sodText dev optHash parts)
  sodOf : lib.WritesFile "SOD".toList (sodTextOf dev optHash (specsOf dev calls parts))
  header : ∀ part ∈ parts,
    ¬lib.thWrite part (contentsOf dev part).length <+: lib.thWrite part (-1) ∧
    ¬lib.thWrite part (-1) <+: lib.thWrite part (contentsOf dev part).length
  handed : ∀ i part, parts[i]? = some part → (calls.part i).thWrite.rc = 0 → ∀ size,
    (lib.thWrite part size).length ≤ (calls.part i).thWrite.count
  size : ∀ part ∈ parts, (contentsOf dev part).length < 2 ^ 63

variable {dev} in
theorem partsOf_eq {names parts parts' : List Text} (h : partsOf dev names parts = some parts') :
    parts' = parts ++ requested names := by
  induction names generalizing parts with
  | nil =>
    cases h
    rw [requested, List.map_nil, List.append_nil]
  | cons name names ih =>
    rw [partsOf] at h
    rw [requested, List.map_cons]
    generalize (if name.head? = some '-' then name.tail else name) = name at h ⊢
    split at h
    · rename_i hadd
      rw [ih h, (partAdd_eq_true hadd).2.2.2, List.append_assoc, List.singleton_append, requested]
    · cases h

theorem lastResult_cons (calls : BackupCalls) (i : Nat) (part : PartSpec) (parts : List PartSpec)
    (rc : Int) :
    lastResult calls i (part :: parts) rc = (calls.part (i + parts.length)).result := by
  induction parts generalizing i part rc with
  | nil => rfl
  | cons next parts ih =>
    rw [lastResult, ih, List.length_cons, Nat.add_assoc, Nat.add_comm 1]

theorem PartCalls.result_ne_zero_iff (c : PartCalls) :
    c.result ≠ 0 ↔ ¬(c.lstat ∧ c.opens ∧ c.thWrite.rc = 0 ∧ c.regfile.rc = 0) := by
  rw [PartCalls.result]
  split
  · rename_i h
    simp only [Bool.and_eq_true, decide_eq_true_eq, and_assoc] at h
    exact iff_of_false (not_not_intro rfl) (not_not_intro h)
  · rename_i h
    simp only [Bool.and_eq_true, decide_eq_true_eq, and_assoc] at h
    exact iff_of_true (by decide) h

theorem lastResult_ne_zero_iff {calls : BackupCalls} {parts : List PartSpec} :
    lastResult calls 0 parts 0 ≠ 0 ↔ LastFails calls parts.length := by
  cases parts with
  | nil => exact iff_of_false (not_not_intro rfl) fun ⟨_, h, _⟩ => nomatch h
  | cons part parts =>
    rw [lastResult_cons, Nat.zero_add, PartCalls.result_ne_zero_iff]
    constructor
    · intro h
      exact ⟨_, rfl, h⟩
    · rintro ⟨i, hi, h⟩
      cases hi
      exact h

/-- What the EOD reports: the blocks that were handed to the callback between SOD and EOD. -/
theorem eodText_eq (optHash : Text) (sod data : List Block) :
    eodText optHash
    { data.foldl tarCbWrite { sod.foldl tarCbWrite (HashState.created : HashState hashes) with
        hashName := some optHash } with hashName := none } =
        reportText hashes (kindOf optHash) (bytesOf data) := by
  have hdata := (((@refines_created hashes).read sod).sod optHash).read data
  have hfinal := hdata.final (kindOf optHash)
  have hdatalen := hdata.datalen
  simp only [Covered.add, Option.map_none, Option.map_some, Option.getD_none, Option.getD_some,
    List.nil_append] at hfinal hdatalen
  rw [reportText, ← hfinal, ← hdatalen]
  rfl

section
variable {lib dev} {calls : BackupCalls} {args names parts : List Text} {o : Options}
  (hparse : parseOptions args .default = some (o, names)) (hparts : partsOf dev names [] =
    some parts)
  (hcreate : createTar o.compress calls = 0)
include hparse hparts hcreate

theorem doBackupWith_of_not_fits
    (hfits : ¬SodFits o.hash (sodTextOf dev o.hash (specsOf dev calls parts))) :
    doBackupWith lib dev hashes calls args = none := by
  rw [doBackupWith, hparse]
  dsimp only
  rw [hparts]
  dsimp only
  rw [hcreate, if_neg (not_not_intro rfl), if_neg hfits]

theorem doBackupWith_eq (hfits : SodFits o.hash (sodTextOf dev o.hash (specsOf dev calls parts))) :
    doBackupWith lib dev hashes calls args =
    (calls.sod.run
      (lib.appendFileContents "SOD".toList (sodTextOf dev o.hash (specsOf dev calls parts)))
      ⟨(HashState.created : HashState hashes), none⟩).bind fun sod =>
    (appendParts lib dev calls 0 (specsOf dev calls parts) 0
      { sod.2 with hash.hashName := some o.hash }).bind fun r =>
    (calls.eod.run
      (lib.appendFileContents "EOD".toList (eodText o.hash { r.2.2.hash with hashName := none }))
      { r.2.2 with hash.hashName := none }).bind fun eod =>
    (calls.eof.run lib.appendEof eod.2).bind fun eof =>
    some ⟨r.1, ("SOD".toList, sod.1) :: r.2.1 ++ [("EOD".toList, eod.1)], eof.1,
      !isGzip o.compress || calls.gzflush⟩ := by
  rw [doBackupWith, hparse]
  dsimp only
  rw [hparts]
  dsimp only
  rw [hcreate, if_neg (not_not_intro rfl), if_pos hfits]
  rfl

theorem doBackupWith_eq_some {b : Backup} (h : doBackupWith lib dev hashes calls args = some b) :
    b.rc = lastResult calls 0 (specsOf dev calls parts) 0 ∧
      b.entries =
      ("SOD".toList, delivered calls.sod.answers 0 (sodHanded lib dev calls o.hash parts)) ::
        sentParts lib dev calls 0 (specsOf dev calls parts) ++
        [("EOD".toList,
          delivered calls.eod.answers 0 (eodHanded lib dev hashes calls o.hash parts))] ∧
      b.flushed = (!isGzip o.compress || calls.gzflush) := by
  by_cases hfits : SodFits o.hash (sodTextOf dev o.hash (specsOf dev calls parts))
  swap
  · rw [doBackupWith_of_not_fits hparse hparts hcreate hfits] at h
    cases h
  rw [doBackupWith_eq hparse hparts hcreate hfits] at h
  obtain ⟨⟨sod, g₁⟩, hsod, h⟩ := Option.bind_eq_some_iff.mp h
  obtain ⟨⟨rc, entries, g₂⟩, hentries, h⟩ := Option.bind_eq_some_iff.mp h
  obtain ⟨⟨eod, g₃⟩, heod, h⟩ := Option.bind_eq_some_iff.mp h
  obtain ⟨⟨eof, g₄⟩, heof, h⟩ := Option.bind_eq_some_iff.mp h
  cases h
  obtain ⟨hsent, hhash, -⟩ := TarCall.run_eq_some hsod
  obtain ⟨hrc, hsentParts, hhashParts, -⟩ := appendParts_eq_some hentries
  obtain ⟨hsentEod, -, -⟩ := TarCall.run_eq_some heod
  dsimp only at hhash hhashParts hsentEod
  rw [hhashParts, hhash, eodText_eq] at hsentEod
  refine ⟨hrc, ?_, rfl⟩
  dsimp only
  rw [hsent, hsentParts, hsentEod]
  rfl

theorem doBackupWith_isSome :
    (doBackupWith lib dev hashes calls args).isSome ↔
    BackupSurvives lib dev hashes calls o.hash parts := by
  by_cases hfits : SodFits o.hash (sodTextOf dev o.hash (specsOf dev calls parts))
  swap
  · rw [doBackupWith_of_not_fits hparse hparts hcreate hfits]
    exact iff_of_false (by simp) fun h => hfits h.1
  rw [doBackupWith_eq hparse hparts hcreate hfits, BackupSurvives, and_iff_right hfits]
  obtain ⟨⟨sod, g₁⟩, hsod⟩ := Option.isSome_iff_exists.mp
    ((@TarCall.run_isSome _ calls.sod
      (lib.appendFileContents "SOD".toList (sodTextOf dev o.hash (specsOf dev calls parts)))
      ⟨(HashState.created : HashState hashes), none⟩).mpr (.inl nofun))
  obtain ⟨-, hhash, hcur⟩ := TarCall.run_eq_some hsod
  rw [hsod, Option.bind_some,
    ← @appendParts_isSome _ _ _ _ _ { g₁ with hash.hashName := some o.hash } 0 0]
  cases hentries : appendParts lib dev calls 0 (specsOf dev calls parts) 0
    { g₁ with hash.hashName := some o.hash } with
  | none => simp
  | some r =>
    obtain ⟨rc, entries, g₂⟩ := r
    obtain ⟨-, -, hhash', hcur'⟩ := appendParts_eq_some hentries
    have hlast := hcur'.trans (@countable_lastPart (specsOf dev calls parts) _ _ hcur)
    dsimp only at hhash hhash'
    rw [Option.bind_some, hhash', hhash, eodText_eq, ← Survives.congr hlast, ← Survives.congr hlast]
    simp only [Option.isSome_some, true_and]
    exact run_run_isSome

end

/-! ## What was written -/

theorem eq_of_appendFileContents {lib : Libtar} {name text text' : Text} {n : Nat}
    (h : lib.WritesFile name text) (h' : lib.WritesFile name text')
    (heq : (lib.appendFileContents name text').take n = lib.appendFileContents name text) :
    text' = text := by
  have happend : lib.appendFileContents name text' =
      lib.appendFileContents name text ++ (lib.appendFileContents name text').drop n := by
    rw [← heq, List.take_append_drop]
  obtain ⟨k, m, header, hread, -, hcontents, -⟩ := h ((lib.appendFileContents name text').drop n)
  obtain ⟨k', m', header', hread', -, hcontents', -⟩ := h' []
  rw [List.append_nil, happend] at hread' hcontents'
  cases hread.symm.trans hread'
  exact (Option.some.inj (Prod.mk.inj (hcontents.symm.trans hcontents')).2).symm

theorem line_append_inj {key rest rest' : Text} {a b : Nat} (ha : a < 2 ^ 64) (hb : b < 2 ^ 64)
    (h : line key (toText a) ++ rest = line key (toText b) ++ rest') : a = b ∧ rest = rest' := by
  have hnumber (n : Nat) : '\n' ∉ toText n :=
    fun hmem => absurd (not_isSpace_toText hmem) (by decide)
  simp only [line, List.append_assoc, List.cons_append, List.append_cancel_left_eq, List.cons.injEq,
    true_and, List.nil_append] at h
  have htake (n : Nat) (rest : Text) :
      (toText n ++ '\n' :: rest).takeWhile (· ≠ '\n') = toText n := by
    have hne : ∀ c ∈ toText n, c ≠ '\n' := fun c hc heq => hnumber n (heq ▸ hc)
    rw [List.takeWhile_append_of_pos (by simpa using hne), List.takeWhile_cons_of_neg (by simp),
      List.append_nil]
  have hsize : toText a = toText b := by rw [← htake a rest, h, htake]
  rw [hsize, List.append_cancel_left_eq, List.cons.injEq] at h
  refine ⟨?_, h.2⟩
  rw [← strtoul_toText ha, ← strtoul_toText hb, hsize]

theorem sizes_eq_of_lines {specs specs' : List PartSpec}
    (hnames : specs.map PartSpec.name = specs'.map PartSpec.name)
    (hlt : ∀ part ∈ specs ++ specs', part.size < 2 ^ 64 ∧ part.used < 2 ^ 64)
    (h : (specs.flatMap fun part =>
      line ("fs.".toList ++ part.name ++ ".size".toList) (toText part.size) ++
        line ("fs.".toList ++ part.name ++ ".used".toList) (toText part.used)) =
      specs'.flatMap fun part =>
      line ("fs.".toList ++ part.name ++ ".size".toList) (toText part.size) ++
        line ("fs.".toList ++ part.name ++ ".used".toList) (toText part.used)) :
    specs.map PartSpec.size = specs'.map PartSpec.size := by
  induction specs generalizing specs' with
  | nil =>
    rw [List.map_nil, eq_comm, List.map_eq_nil_iff] at hnames
    rw [hnames]
  | cons part specs ih =>
    cases specs' with
    | nil => simp at hnames
    | cons part' specs' =>
      rw [List.map_cons, List.map_cons, List.cons.injEq] at hnames
      have hpart := hlt part (by simp)
      have hpart' := hlt part' (by simp)
      rw [List.flatMap_cons, List.flatMap_cons, hnames.1, List.append_assoc,
        List.append_assoc (line _ _)] at h
      obtain ⟨hsize, h⟩ := line_append_inj hpart.1 hpart'.1 h
      obtain ⟨-, h⟩ := line_append_inj hpart.2 hpart'.2 h
      rw [List.map_cons, List.map_cons, hsize, ih hnames.2 (fun p hp => hlt p ?_) h]
      rcases List.mem_append.mp hp with hp | hp
      · exact List.mem_append_left _ (List.mem_cons_of_mem _ hp)
      · exact List.mem_append_right _ (List.mem_cons_of_mem _ hp)

section
variable {lib dev} {calls : BackupCalls} {o : Options} {parts : List Text}

theorem getElem?_specsOf (i : Nat) : (specsOf dev calls parts)[i]? = parts[i]?.map fun name =>
    let size := if (calls.part i).sodLseek then (contentsOf dev name).length else 2 ^ 64 - 1
    { name, size, used := size, off := 0 } := by
  rw [specsOf, List.getElem?_mapIdx]

theorem map_name_specsOf : (specsOf dev calls parts).map PartSpec.name = parts := by
  refine List.ext_getElem? fun i => ?_
  rw [List.getElem?_map, getElem?_specsOf, Option.map_map]
  cases parts[i]? <;> rfl

/-- The partitions with the sizes of their devices. -/
def wholeSpecs (dev : Device) (parts : List Text) : List PartSpec :=
  parts.map fun name => ⟨name, (contentsOf dev name).length, (contentsOf dev name).length, 0⟩

theorem sodTextOf_wholeSpecs (optHash : Text) :
    sodTextOf dev optHash (wholeSpecs dev parts) = sodText dev optHash parts := by
  rw [wholeSpecs, sodTextOf, sodText, List.flatMap_map]
  congr 3
  funext part
  rw [contentsOf]
  cases dev.volumeForMountPoint part <;> rfl

theorem specsOf_eq (h : ∀ i < parts.length, (calls.part i).sodLseek) :
    specsOf dev calls parts = wholeSpecs dev parts := by
  refine List.ext_getElem? fun i => ?_
  rw [getElem?_specsOf, wholeSpecs, List.getElem?_map]
  rcases Nat.lt_or_ge i parts.length with hi | hi
  · rw [h i hi]
    rfl
  · rw [List.getElem?_eq_none hi]
    rfl

theorem sodTextOf_eq_iff {optHash : Text}
    (hsize : ∀ part ∈ parts, (contentsOf dev part).length < 2 ^ 63) :
    sodTextOf dev optHash (specsOf dev calls parts) = sodText dev optHash parts ↔
      ∀ i < parts.length, (calls.part i).sodLseek := by
  constructor
  · intro h i hi
    rw [← sodTextOf_wholeSpecs, sodTextOf, sodTextOf, List.append_cancel_left_eq,
      List.append_cancel_left_eq] at h
    have hlt : ∀ part ∈ specsOf dev calls parts ++ wholeSpecs dev parts, part.size < 2 ^ 64 ∧
        part.used < 2 ^ 64 := by
      intro spec hspec
      have hall (name : Text) (hname : name ∈ parts) : (contentsOf dev name).length < 2 ^ 64 := by
        have := hsize name hname
        omega
      rcases List.mem_append.mp hspec with hspec | hspec
      · obtain ⟨k, hk⟩ := List.mem_iff_getElem?.mp hspec
        rw [getElem?_specsOf, Option.map_eq_some_iff] at hk
        obtain ⟨name, hname, rfl⟩ := hk
        have := hall name (List.mem_of_getElem? hname)
        dsimp only
        split <;> omega
      · obtain ⟨name, hname, rfl⟩ := List.mem_map.mp hspec
        exact ⟨hall name hname, hall name hname⟩
    have hsizes :=
      sizes_eq_of_lines
        (by rw [map_name_specsOf, wholeSpecs, List.map_map]; exact (List.map_id parts).symm)
      hlt h
    have hi' := congrArg (fun l : List Nat => l[i]?) hsizes
    simp only [List.getElem?_map, getElem?_specsOf, wholeSpecs, List.getElem?_eq_getElem hi,
      Option.map_some, Option.some.injEq] at hi'
    have hbound := hsize _ (List.getElem_mem hi)
    by_contra hfails
    rw [if_neg hfails] at hi'
    omega
  · intro h
    rw [specsOf_eq h, sodTextOf_wholeSpecs]

/-- The SOD was written, just if all sizes were found and no call for it failed. -/
theorem delivered_sod_iff (laws : TellsSizes lib dev calls o.hash parts) :
    delivered calls.sod.answers 0 (sodHanded lib dev calls o.hash parts) =
        (lib.appendFileContents "SOD".toList (sodText dev o.hash parts)).map List.Vector.toList ↔
      (∀ i < parts.length, (calls.part i).sodLseek) ∧
        calls.sod.Whole
        (lib.appendFileContents "SOD".toList (sodText dev o.hash parts)).length := by
  rw [delivered_eq_iff, ← sodTextOf_eq_iff laws.size, sodHanded]
  simp only [Nat.zero_add]
  constructor
  · rintro ⟨hhanded, hanswers⟩
    have htext := eq_of_appendFileContents laws.sod laws.sodOf hhanded
    rw [htext] at hhanded
    exact ⟨htext, List.take_eq_self_iff _ |>.mp hhanded, hanswers⟩
  · rintro ⟨htext, hcount, hanswers⟩
    rw [htext]
    exact ⟨List.take_of_length_le hcount, hanswers⟩

theorem partBlocks_eq (part : Text) : partBlocks lib.toLibtar dev part =
    lib.thWrite part (contentsOf dev part).length ++ lib.appendRegfile (contentsOf dev part) :=
  lib.appendDeviceContents_eq _ _

theorem PartCalls.Whole.handed {c : PartCalls} {part : Text} (h : c.Whole lib dev part) :
    c.header lib dev part = lib.thWrite part (contentsOf dev part).length ∧
      c.contents = lib.appendRegfile (contentsOf dev part) := by
  refine ⟨?_, h.contents⟩
  rw [PartCalls.header, h.lstat, h.opens, h.lseek]
  exact List.take_of_length_le h.thWrite.count

theorem PartCalls.sent_eq_iff {c : PartCalls} {part : Text} (hsod : c.sodLseek)
    (hheader : ¬lib.thWrite part (contentsOf dev part).length <+: lib.thWrite part (-1) ∧
      ¬lib.thWrite part (-1) <+: lib.thWrite part (contentsOf dev part).length)
    (hhanded : c.thWrite.rc = 0 → ∀ size, (lib.thWrite part size).length ≤ c.thWrite.count) :
    c.sent lib dev part = (partBlocks lib.toLibtar dev part).map List.Vector.toList ↔
    c.Whole lib dev part := by
  have hne : lib.thWrite part (contentsOf dev part).length ≠ [] := by
    intro hnil
    rw [hnil] at hheader
    exact hheader.1 List.nil_prefix
  rw [PartCalls.sent, partBlocks_eq]
  constructor
  · intro h
    -- both parts are known blocks, taken whole
    obtain ⟨hlstat, hopens⟩ : c.lstat = true ∧ c.opens = true := by
      rw [← Bool.and_eq_true_iff]
      by_contra hclosed
      rw [Bool.not_eq_true] at hclosed
      have hnil : c.header lib dev part = [] ∧ c.contents = [] := by
        rw [PartCalls.header, PartCalls.contents, hclosed]
        exact ⟨rfl, rfl⟩
      rw [hnil.1, hnil.2, delivered, delivered, eq_comm, List.append_nil, List.map_eq_nil_iff,
        List.append_eq_nil_iff] at h
      exact hne h.1
    have hheaderEq : c.header lib dev part =
        (lib.thWrite part (if c.lseek then (contentsOf dev part).length else -1)).take
        c.thWrite.count := by
      rw [PartCalls.header, hlstat, hopens]
      rfl
    obtain ⟨n, hn⟩ : ∃ n, n = (c.header lib dev part).length := ⟨_, rfl⟩
    rw [← List.take_append_drop n (lib.thWrite part _ ++ _), List.map_append] at h
    obtain ⟨hfirst, hrest⟩ := List.append_inj h (by
      have hlength := congrArg List.length h
      simp only [List.length_append, length_delivered, List.length_map, List.length_take,
        List.length_drop] at hlength ⊢
      omega)
    obtain ⟨hheaderTake, hanswers⟩ := delivered_eq_iff.mp hfirst
    obtain ⟨hcontents, hanswers'⟩ := delivered_eq_iff.mp hrest
    simp only [Nat.zero_add] at hanswers hanswers'
    have hprefix : c.header lib dev part <+: lib.thWrite part (contentsOf dev part).length ++
        lib.appendRegfile (contentsOf dev part) := hheaderTake ▸ List.take_prefix _ _
    cases hlseek : c.lseek with
    | false =>
      rw [hlseek, if_neg (by decide)] at hheaderEq
      exfalso
      by_cases hrc : c.thWrite.rc = 0
      · -- the header of size -1 is handed over as a whole
        rw [hheaderEq, List.take_of_length_le (hhanded hrc _)] at hprefix
        rcases List.prefix_or_prefix_of_prefix hprefix (List.prefix_append _ _) with hle | hle
        · exact hheader.2 hle
        · exact hheader.1 hle
      · have hnil : c.contents = [] := by rw [PartCalls.contents, if_neg (by simp [hrc])]
        rw [hnil, eq_comm, List.drop_eq_nil_iff] at hcontents
        rw [List.take_of_length_le hcontents] at hheaderTake
        have hle : c.header lib dev part <+: lib.thWrite part (-1) :=
          hheaderEq ▸ List.take_prefix _ _
        rw [hheaderTake] at hle
        exact hheader.1 ((List.prefix_append _ _).trans hle)
    | true =>
      rw [hlseek, if_pos rfl] at hheaderEq
      have hwhole : c.header lib dev part = lib.thWrite part (contentsOf dev part).length := by
        by_cases hrc : c.thWrite.rc = 0
        · rw [hheaderEq]
          exact List.take_of_length_le (hhanded hrc _)
        · have hnil : c.contents = [] := by rw [PartCalls.contents, if_neg (by simp [hrc])]
          rw [hnil, eq_comm, List.drop_eq_nil_iff] at hcontents
          rw [List.take_of_length_le hcontents] at hheaderTake
          have hle := congrArg List.length hheaderEq
          rw [hheaderTake, List.length_append, List.length_take] at hle
          have hempty : lib.appendRegfile (contentsOf dev part) = [] := by
            rw [← List.length_eq_zero_iff]
            omega
          rw [hheaderTake, hempty, List.append_nil]
      rw [hwhole] at hn
      rw [hn, List.take_left] at hanswers
      rw [hn, List.drop_left] at hcontents hanswers'
      exact ⟨hsod, hlstat, hopens, hlseek,
        ⟨List.take_eq_self_iff _ |>.mp (hheaderEq.symm.trans hwhole), hanswers⟩, hcontents,
        hanswers'⟩
  · intro h
    obtain ⟨hfirst, hrest⟩ := h.handed
    rw [List.map_append, hfirst, hrest]
    congr 1
    · exact delivered_eq_iff.mpr ⟨rfl, fun j hj => (Nat.zero_add j).symm ▸ h.thWrite.answers j hj⟩
    · exact delivered_eq_iff.mpr ⟨rfl, fun j hj => (Nat.zero_add j).symm ▸ h.regfile j hj⟩

/-- All partitions were written, just if no call for one of them failed. -/
theorem sentParts_eq_iff {specs : List PartSpec}
    (hcalls : ∀ k part, (specs.map PartSpec.name)[k]? = some part →
      (calls.part (i + k)).sodLseek ∧
      (¬lib.thWrite part (contentsOf dev part).length <+: lib.thWrite part (-1) ∧
        ¬lib.thWrite part (-1) <+: lib.thWrite part (contentsOf dev part).length) ∧
      ((calls.part (i + k)).thWrite.rc = 0 →
        ∀ size, (lib.thWrite part size).length ≤ (calls.part (i + k)).thWrite.count)) :
    sentParts lib dev calls i specs = (specs.map PartSpec.name).map (fun part =>
        (part, (partBlocks lib.toLibtar dev part).map List.Vector.toList)) ↔
      ∀ k part, (specs.map PartSpec.name)[k]? = some part →
      (calls.part (i + k)).Whole lib dev part := by
  induction specs generalizing i with
  | nil => simp [sentParts]
  | cons spec specs ih =>
    obtain ⟨hsod, hheader, hhanded⟩ := hcalls 0 spec.name rfl
    rw [Nat.add_zero] at hsod hhanded
    have hrest := @ih (i + 1) fun k part hk => by
      have := hcalls (k + 1) part hk
      rwa [Nat.add_comm k, ← Nat.add_assoc] at this
    rw [sentParts, List.map_cons, List.map_cons, List.cons.injEq, Prod.mk.injEq, eq_self, true_and,
      PartCalls.sent_eq_iff hsod hheader hhanded, hrest]
    constructor
    · rintro ⟨hfirst, hothers⟩ k part hk
      cases k with
      | zero =>
        cases hk
        exact hfirst
      | succ k =>
        rw [Nat.add_comm k, ← Nat.add_assoc]
        exact hothers k part hk
    · intro h
      refine ⟨h 0 spec.name rfl, fun k part hk => ?_⟩
      have := h (k + 1) part hk
      rwa [Nat.add_comm k, ← Nat.add_assoc] at this

theorem handedParts_eq {specs : List PartSpec}
    (h : ∀ k part, (specs.map PartSpec.name)[k]? = some part →
      (calls.part (i + k)).Whole lib dev part) :
      handedParts lib dev calls i specs =
      (specs.map PartSpec.name).flatMap (partBlocks lib.toLibtar dev) := by
  induction specs generalizing i with
  | nil => rfl
  | cons spec specs ih =>
    obtain ⟨hheader, hcontents⟩ := (h 0 spec.name rfl).handed
    rw [Nat.add_zero] at hheader hcontents
    rw [handedParts, List.map_cons, List.flatMap_cons, hheader, hcontents, partBlocks_eq,
      @ih (i + 1) fun k part hk => by
      have := h (k + 1) part hk
      rwa [Nat.add_comm k, ← Nat.add_assoc] at this]

theorem entries_eq_iff (laws : TellsSizes lib dev calls o.hash parts) :
    (("SOD".toList, delivered calls.sod.answers 0 (sodHanded lib dev calls o.hash parts)) ::
        sentParts lib dev calls 0 (specsOf dev calls parts) ++
        [("EOD".toList,
          delivered calls.eod.answers 0 (eodHanded lib dev hashes calls o.hash parts))] =
        (wholeEntries lib dev hashes o.hash parts).map
        (fun e => (e.1, e.2.map List.Vector.toList)) ∧
      (isGzip o.compress → calls.gzflush)) ↔ NoCallFails lib dev hashes calls o parts := by
  have hwhole :
      (wholeEntries lib dev hashes o.hash parts).map (fun e => (e.1, e.2.map List.Vector.toList)) =
      ("SOD".toList,
        (lib.appendFileContents "SOD".toList (sodText dev o.hash parts)).map List.Vector.toList) ::
        parts.map (fun part => (part, (partBlocks lib.toLibtar dev part).map List.Vector.toList)) ++
        [("EOD".toList, (lib.appendFileContents "EOD".toList (reportText hashes (kindOf o.hash)
          (bytesOf (parts.flatMap (partBlocks lib.toLibtar dev))))).map List.Vector.toList)] := by
    simp [wholeEntries]
  have hsplit : (sentParts lib dev calls 0 (specsOf dev calls parts)).length = parts.length := by
    have hlength : ∀ (specs : List PartSpec) (i : Nat), (sentParts lib dev calls i specs).length =
        specs.length := by
      intro specs
      induction specs with
      | nil => exact fun _ => rfl
      | cons spec specs ih => exact fun i => congrArg Nat.succ (ih (i + 1))
    rw [hlength, specsOf, List.length_mapIdx]
  -- the partitions, once the sizes of all are found
  have hparts (hsod : ∀ i < parts.length, (calls.part i).sodLseek) :
      sentParts lib dev calls 0 (specsOf dev calls parts) =
          parts.map
          (fun part => (part, (partBlocks lib.toLibtar dev part).map List.Vector.toList)) ↔
        ∀ i part, parts[i]? = some part → (calls.part i).Whole lib dev part := by
    have := @sentParts_eq_iff lib dev calls 0 (specsOf dev calls parts) fun k part hk => by
      rw [map_name_specsOf] at hk
      rw [Nat.zero_add]
      exact ⟨hsod k (List.getElem?_eq_some_iff.mp hk).1, laws.header part (List.mem_of_getElem? hk),
        laws.handed k part hk⟩
    simpa only [map_name_specsOf, Nat.zero_add] using this
  -- the digest, once all partitions are handed over
  have heod (h : ∀ i part, parts[i]? = some part → (calls.part i).Whole lib dev part) :
      delivered calls.eod.answers 0 (eodHanded lib dev hashes calls o.hash parts) =
          (lib.appendFileContents "EOD".toList (reportText hashes (kindOf o.hash)
            (bytesOf (parts.flatMap (partBlocks lib.toLibtar dev))))).map List.Vector.toList ↔
        calls.eod.Whole (lib.appendFileContents "EOD".toList (reportText hashes (kindOf o.hash)
          (bytesOf (parts.flatMap (partBlocks lib.toLibtar dev))))).length := by
    have hhanded := @handedParts_eq lib dev calls 0 (specsOf dev calls parts) fun k part hk => by
      rw [map_name_specsOf] at hk
      rw [Nat.zero_add]
      exact h k part hk
    rw [map_name_specsOf] at hhanded
    rw [eodHanded, hhanded, delivered_eq_iff, List.take_eq_self_iff]
    simp only [Nat.zero_add]
    exact ⟨fun h => ⟨h.1, h.2⟩, fun h => ⟨h.count, h.answers⟩⟩
  rw [hwhole, List.cons_append, List.cons_append, List.cons.injEq, Prod.mk.injEq, eq_self, true_and,
    delivered_sod_iff laws]
  constructor
  · rintro ⟨⟨⟨hsod, hfirst⟩, hrest⟩, hflush⟩
    obtain ⟨hmiddle, hlast⟩ := List.append_inj hrest (by rw [hsplit, List.length_map])
    have hall := (hparts hsod).mp hmiddle
    exact ⟨hfirst, hall, (heod hall).mp (Prod.mk.inj (List.singleton_inj.mp hlast)).2, hflush⟩
  · intro h
    have hsod : ∀ i < parts.length, (calls.part i).sodLseek := fun i hi =>
      (h.partitions i _ (List.getElem?_eq_getElem hi)).sodLseek
    rw [(hparts hsod).mpr h.partitions, (heod h.partitions).mpr h.eod]
    exact ⟨⟨⟨hsod, h.sod⟩, rfl⟩, h.flushed⟩

end

/-- The condition: where `do_backup` comes to the entries, keeps to the buffers and does not divide
by 0, its last partition fails, or no call fails. -/
def NothingLost (hashes : Hashes) (calls : BackupCalls) (args : List Text) : Prop :=
  ∀ o names parts, parseOptions args .default = some (o, names) →
  partsOf dev names [] = some parts →
    createTar o.compress calls = 0 → BackupSurvives lib dev hashes calls o.hash parts →
      LastFails calls parts.length ∨ NoCallFails lib dev hashes calls o parts

/-- `do_backup` reports what went wrong, just if nothing did or the last partition failed. -/
theorem reportsFailure_iff (hashes : Hashes) (calls : BackupCalls) (args : List Text)
    (laws : ∀ o names parts, parseOptions args .default = some (o, names) →
      partsOf dev names [] = some parts → TellsSizes lib dev calls o.hash parts) :
    ReportsFailure lib dev hashes calls args ↔ NothingLost lib dev hashes calls args := by
  constructor
  · intro h o names parts hparse hparts hcreate hsurvives
    obtain ⟨b, hb⟩ :=
      Option.isSome_iff_exists.mp ((doBackupWith_isSome hparse hparts hcreate).mpr hsurvives)
    obtain ⟨hrc, hentries, hflushed⟩ := doBackupWith_eq_some hparse hparts hcreate hb
    rcases eq_or_ne b.rc 0 with hzero | hne
    · obtain ⟨o', names', hparse', hwhole, hflush⟩ := h b hb hzero
      cases hparse.symm.trans hparse'
      have hrequested : requested names = parts := (partsOf_eq hparts).symm
      rw [hentries, hrequested] at hwhole
      refine .inr ((entries_eq_iff (laws o names parts hparse hparts)).mp ⟨hwhole, fun hgzip => ?_⟩)
      rw [hflushed, hgzip] at hflush
      exact hflush
    · refine .inl ?_
      rw [hrc, lastResult_ne_zero_iff, specsOf, List.length_mapIdx] at hne
      exact hne
  · intro h b hb hrc
    cases hparse : parseOptions args .default with
    | none =>
      rw [doBackupWith, hparse] at hb
      cases hb
      exact absurd hrc (by decide)
    | some r =>
      obtain ⟨o, names⟩ := r
      cases hparts : partsOf dev names [] with
      | none =>
        rw [doBackupWith, hparse] at hb
        dsimp only at hb
        rw [hparts] at hb
        cases hb
        exact absurd hrc (by decide)
      | some parts =>
        have hcreate : createTar o.compress calls = 0 := by
          by_contra hne
          rw [doBackupWith, hparse] at hb
          dsimp only at hb
          rw [hparts] at hb
          dsimp only at hb
          rw [if_pos hne] at hb
          cases hb
          exact hne hrc
        have hsurvives :=
          (doBackupWith_isSome hparse hparts hcreate).mp (Option.isSome_iff_exists.mpr ⟨b, hb⟩)
        obtain ⟨hresult, hentries, hflushed⟩ := doBackupWith_eq_some hparse hparts hcreate hb
        obtain hlast | hwhole := h o names parts hparse hparts hcreate hsurvives
        · refine absurd (hresult.symm.trans hrc) (lastResult_ne_zero_iff.mpr ?_)
          rwa [specsOf, List.length_mapIdx]
        · obtain ⟨hall, hflush⟩ := (entries_eq_iff (laws o names parts hparse hparts)).mpr hwhole
          refine ⟨o, names, rfl, ?_, ?_⟩
          · have hrequested : requested names = parts := (partsOf_eq hparts).symm
            rw [hentries, hall, hrequested]
          · rw [hflushed]
            cases hgzip : isGzip o.compress with
            | false => rfl
            | true => exact hflush hgzip

/-! ## A write that fails -/

namespace Sample

def tarWriter : TarWriter where
  toLibtar := tar
  thWrite name size := [headerBlock name size.toNat]
  appendRegfile := contentBlocks
  appendDeviceContents_eq name contents := by
    rw [Int.toNat_natCast]
    rfl

/-- A call whose writes take all that is left. -/
def wholeCall : TarCall := ⟨4, fun _ _ => some 512, 0⟩

/-- Calls of which only those for the SOD can fail. -/
def callsWith (sod : TarCall) : BackupCalls where
  gzdopen := true
  fdopen := 0
  sod
  part _ := ⟨true, true, true, true, wholeCall, contentBlocks [1, 2, 3], wholeCall⟩
  eod := wholeCall
  eof := wholeCall
  gzflush := true

/-- The stream cannot be written at first. -/
def lateCalls : BackupCalls := callsWith ⟨1, fun _ _ => none, -1⟩

theorem tellsSizes_callsWith (sod : TarCall) :
    TellsSizes tarWriter device (callsWith sod) md5 [boot] where
  sod := sod_written
  sodOf := by
    rw [specsOf_eq fun _ _ => rfl, sodTextOf_wholeSpecs]
    exact sod_written
  header part hpart := by
    rw [List.mem_singleton.mp hpart]
    decide +kernel
  handed _ _ _ _ _ := by
    show 1 ≤ 4
    decide
  size part hpart := by
    rw [List.mem_singleton.mp hpart]
    decide

theorem parse_boot {o : Options} {names parts : List Text}
    (hparse : parseOptions [boot] .default = some (o, names))
    (hparts : partsOf device names [] = some parts) :
    o = ⟨"gzip".toList, md5⟩ ∧ names = [boot] ∧ parts = [boot] := by
  have hboot : parseOptions [boot] .default = some (⟨"gzip".toList, md5⟩, [boot]) := by decide
  cases hboot.symm.trans hparse
  cases partsOf_boot.symm.trans hparts
  exact ⟨rfl, rfl, rfl⟩

theorem takesAll_whole : TakesAll fun _ => some 512 :=
  ⟨1, fun _ _ => ⟨512, by decide, rfl⟩, by decide⟩

theorem whole_wholeCall {n : Nat} (h : n ≤ 4) : wholeCall.Whole n := ⟨h, fun _ _ => takesAll_whole⟩

end Sample

open Sample in
/-- A backup of `boot` without failures. -/
theorem reportsFailure_iff_boot :
    ReportsFailure tarWriter device sums (callsWith wholeCall) [boot] := by
  refine (reportsFailure_iff tarWriter device sums (callsWith wholeCall) [boot]
    fun o names parts hparse hparts => ?_).mpr
    fun o names parts hparse hparts _ _ => ?_
  · obtain ⟨rfl, rfl, rfl⟩ := parse_boot hparse hparts
    exact tellsSizes_callsWith _
  · obtain ⟨rfl, rfl, rfl⟩ := parse_boot hparse hparts
    refine .inr ⟨whole_wholeCall (by decide +kernel), fun i part hpart =>
      ?_, whole_wholeCall (by decide +kernel), fun _ => rfl⟩
    rw [List.mem_singleton.mp (List.mem_of_getElem? hpart)]
    exact ⟨rfl, rfl, rfl, rfl, whole_wholeCall (by decide), rfl, fun _ _ => takesAll_whole⟩

open Sample in
/-- The SOD of the backup of `boot` is lost, and the result is 0. -/
theorem not_reportsFailure :
    ¬∀ (lib : TarWriter) (dev : Device) (hashes : Hashes) (calls : BackupCalls)
    (args : List Text), ReportsFailure lib dev hashes calls args := by
  intro h
  have hguard := (reportsFailure_iff _ _ _ _ _ fun o names parts hparse hparts => by
    obtain ⟨rfl, rfl, rfl⟩ := parse_boot hparse hparts
    exact tellsSizes_callsWith _).mp (h tarWriter device sums lateCalls [boot])
  have hcount : Countable (lastPart (specsOf device lateCalls [boot]) none) := by
    rintro _ ⟨⟩
    decide
  have hsurvives : BackupSurvives tarWriter device sums lateCalls md5 [boot] :=
    ⟨by decide +kernel, ⟨⟨.inl hcount, .inl hcount⟩, trivial⟩, .inl hcount, .inl hcount⟩
  rcases hguard ⟨"gzip".toList, md5⟩ [boot] [boot] (by decide) partsOf_boot
    (by decide) hsurvives with
    ⟨i, -, hlast⟩ | hwhole
  · exact hlast ⟨rfl, rfl, rfl, rfl⟩
  · obtain ⟨k, hall, hsum⟩ := hwhole.sod.answers 0 (by decide +kernel)
    cases k with
    | zero => exact absurd hsum (by decide)
    | succ k =>
      obtain ⟨n, -, hn⟩ := hall 0 (Nat.succ_pos k)
      cases hn

end BootableRecovery.Bu
