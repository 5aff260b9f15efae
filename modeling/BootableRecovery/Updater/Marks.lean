import BootableRecovery.Updater.BlockImg

/-!
# Which steps a function takes

The marks of a run come from its main loop alone, and `last_command_file` is written by
`UpdateLastCommandIndex` alone. The first three sections follow the functions of the source in
order; each lemma says of one function that all its steps are of the given kind.
-/

namespace BootableRecovery.BlockImg

/-- A step on the partition or on the stash directory. -/
def Step.IsData : Step → Prop
  | .write .. | .writeBytes .. | .discard _ | .fsync => True
  | .mkdirStash | .rmdirStash | .renameStash .. | .unlinkStash _ => True
  | _ => False

/-- A step that changes storage, and not a mark. -/
def Step.IsStorage : Step → Prop
  | .renameLast _ | .unlinkLast => True
  | e => e.IsData

/-- A step that changes storage and does not save a command. -/
def Step.IsUnsaving : Step → Prop
  | .unlinkLast => True
  | e => e.IsData

theorem Step.IsUnsaving.isStorage {e : Step} (h : e.IsUnsaving) : e.IsStorage := by
  cases e <;> trivial

theorem Step.IsData.isStorage {e : Step} (h : e.IsData) : e.IsStorage := by
  cases e <;> trivial

theorem Step.IsData.lastCommand_apply {env : Env} {e : Step} (h : e.IsData) (d : Disk) :
    (d.apply env e).lastCommand = d.lastCommand := by
  cases e with
  | rmdirStash =>
    simp only [Disk.apply]
    split <;> rfl
  | renameLast | unlinkLast => cases h
  | _ => rfl

/-- The variables that belong to the call and to the command at hand. -/
def CommandParameters.settings (p : CommandParameters) : Int × Text × Bool × Bool × Bool :=
  (p.cmdindex, p.cmdline, p.canwrite, p.createdstash, p.isRetry)

/-- The variables that only `PerformCommandNew` changes before the next command. -/
def CommandParameters.frame (p : CommandParameters) :
    (Int × Text × Bool × Bool × Bool) × NewThreadInfo :=
  (p.settings, p.nti)

variable {env : Env} {P : Step → Prop}

theorem confined_storage {x : M env α} {F : CommandParameters → γ}
    (h : x.Confined Step.IsData F) : x.Confined Step.IsStorage F :=
  h.mono fun _ => Step.IsData.isStorage

open CommandParameters (frame settings)

theorem confined_syscall : (syscall env).Confined P frame := by
  intro p d
  rcases hf : p.faults with _ | ⟨b, faults⟩ <;>
    simp only [Prog.steps, Prog.result, syscall, hf] <;>
    refine ⟨fun e he => (List.not_mem_nil he).elim, ?_⟩ <;> rintro _ _ ⟨⟩ <;> rfl

theorem confined_syscalls {n : Nat} : (syscalls env n).Confined P frame := by
  induction n with
  | zero => exact .pure
  | succ n ih =>
    refine .bind confined_syscall fun ok => ?_
    split
    · exact ih
    · exact .pure

theorem confined_expect {x : Option α} : (expect env x).Confined P frame := by
  cases x with
  | none => exact .abort
  | some a => exact .pure

theorem confined_onlyIf {b : Bool} {x : M env Unit} (h : x.Confined P frame) :
    (onlyIf env b x).Confined P frame := by
  unfold onlyIf
  split
  · exact h
  · exact .pure

theorem confined_parseRanges {s : Text} : (parseRanges env s).Confined P frame := by
  unfold parseRanges
  split
  · exact .pure
  · exact .abort

/-! ## Blocks -/

theorem confined_readAll {vs : List (Option Block)} {n : Nat} {buffer : List Block} :
    (readAll env vs n buffer).Confined P frame := by
  induction vs generalizing n buffer with
  | nil => exact .pure
  | cons v vs ih =>
    refine .bind confined_syscall fun ok => ?_
    split
    · split
      · exact .pure
      · split
        · exact ih
        · exact .abort
    · exact .pure

theorem confined_readBlocks {src : RangeSet} {buffer : List Block} :
    (readBlocks env src buffer).Confined P frame :=
  .bind .store fun _ => confined_readAll

theorem confined_verifyBlocks {expected : Text} {buffer : List Block} {blocks : Nat} :
    (verifyBlocks env expected buffer blocks).Confined P frame := by
  unfold verifyBlocks
  split
  · exact .pure
  · exact .abort

theorem confined_blkdiscard {r : Range} : (blkdiscard env r).Confined Step.IsData frame := by
  refine .bind confined_syscall fun ok => ?_
  split
  · exact .bind (.emit trivial) fun _ => .pure
  · exact .pure

theorem confined_discardBlocks {r : Range} : (discardBlocks env r).Confined Step.IsData frame := by
  refine .bind .get fun p => ?_
  split
  · exact confined_blkdiscard
  · exact .pure

theorem confined_writeBlock {b : Nat} {v : Block} :
    (writeBlock env b v).Confined Step.IsData frame := by
  refine .bind confined_syscall fun ok => ?_
  split
  · split
    · exact .bind (.emit trivial) fun _ => .pure
    · exact .pure
  · exact .pure

theorem confined_writeRange {bs : List Nat} {data : List Block} :
    (writeRange env bs data).Confined Step.IsData frame := by
  induction bs generalizing data with
  | nil => exact .pure
  | cons b bs ih =>
    cases data with
    | nil => exact .abort
    | cons v data =>
      refine .bind confined_writeBlock fun ok => ?_
      split
      · exact ih
      · exact .pure

theorem confined_writeRanges {rs : List Range} {data : List Block} :
    (writeRanges env rs data).Confined Step.IsData frame := by
  induction rs generalizing data with
  | nil => exact .pure
  | cons r rs ih =>
    refine .bind confined_discardBlocks fun ok => ?_
    split
    · refine .bind (confined_writeRange) fun rest => ?_
      split
      · exact ih
      · exact .pure
    · exact .pure

theorem confined_seekToOutputRange {w : RangeSinkWriter} :
    (w.seekToOutputRange env).Confined Step.IsData frame := by
  unfold RangeSinkWriter.seekToOutputRange
  split
  · exact .pure
  · split
    · exact .pure
    · refine .bind confined_discardBlocks fun ok => ?_
      split
      · refine .bind confined_syscall fun ok => ?_
        split <;> exact .pure
      · exact .pure

theorem confined_writeAll {fuel position : Nat} {data : List UInt8} :
    (RangeSinkWriter.writeAll env fuel position data).Confined Step.IsData frame := by
  induction fuel generalizing position data with
  | zero => exact .pure
  | succ fuel ih =>
    unfold RangeSinkWriter.writeAll
    split
    · exact .pure
    · refine .bind confined_syscall fun ok => ?_
      split
      · split
        · exact .bind (.emit trivial) fun _ => ih
        · exact .pure
      · exact .pure

theorem confined_writeLoop {fuel : Nat} {w : RangeSinkWriter} {data : List UInt8} {n : Nat} :
    (RangeSinkWriter.writeLoop env fuel w data n).Confined Step.IsData frame := by
  induction fuel generalizing w data n with
  | zero => exact .pure
  | succ fuel ih =>
    unfold RangeSinkWriter.writeLoop
    split
    · exact .pure
    · refine .bind (confined_seekToOutputRange) fun w' => ?_
      split
      · exact .pure
      · refine .bind confined_writeAll fun ok => ?_
        split
        · exact ih
        · exact .pure

theorem confined_write {w : RangeSinkWriter} {data : List UInt8} :
    (w.write env data).Confined Step.IsData frame := by
  unfold RangeSinkWriter.write
  split
  · exact .pure
  · exact .bind confined_writeLoop fun _ => .pure

/-! ## Stashes -/

theorem confined_printCorrupted {buffer : List Block} {src : RangeSet} :
    (printHashForCorruptedStashedBlocks env buffer src).Confined P frame := by
  unfold printHashForCorruptedStashedBlocks
  split
  · exact .pure
  · exact .abort

theorem confined_printMissing {id : Text} :
    (printHashForMissingStashedBlocks env id).Confined P frame := by
  refine .bind .get fun p => ?_
  split
  · exact .pure
  · refine .bind confined_readBlocks fun ⟨_, _⟩ => ?_
    dsimp only
    split
    · exact confined_printCorrupted
    · exact .pure

theorem confined_deleteFile {id : Text} : (deleteFile env id).Confined Step.IsData frame := by
  refine .bind confined_syscall fun ok => ?_
  split
  · exact .emit trivial
  · exact .pure

theorem confined_loadStashFromSource {id : Text} {src : RangeSet} {buffer : List Block} :
    (loadStashFromSource env id src buffer).Confined P frame := by
  refine .bind confined_readBlocks fun ⟨_, _⟩ => ?_
  dsimp only
  split
  · refine .bind confined_verifyBlocks fun ok => ?_
    split
    · exact .pure
    · exact .bind confined_printCorrupted fun _ => .pure
  · exact .pure

theorem confined_loadStashFile {id : Text} {verify printnoent : Bool} {buffer : List Block} :
    (loadStashFile env id verify buffer printnoent).Confined Step.IsData frame := by
  refine .bind .store fun d => .bind confined_syscall fun stat => ?_
  split
  · exact .bind (confined_onlyIf confined_printMissing) fun _ => .pure
  · split
    · exact .pure
    · refine .bind confined_syscall fun ok => ?_
      split
      · refine .bind confined_readAll fun ⟨_, _⟩ => ?_
        dsimp only
        split
        · split
          · exact .pure
          · refine .bind confined_verifyBlocks fun ok => ?_
            split
            · exact .pure
            · refine .bind ?_ fun _ => .bind confined_deleteFile fun _ => .pure
              refine .bind .get fun p => ?_
              split
              · exact confined_printCorrupted
              · exact .pure
        · exact .pure
      · exact .pure

theorem confined_loadStash {id : Text} {verify printnoent : Bool} {buffer : List Block} :
    (loadStash env id verify buffer printnoent).Confined Step.IsData frame := by
  refine .bind .get fun p => ?_
  split
  · exact confined_loadStashFromSource
  · exact confined_loadStashFile

theorem confined_loadStash_noverify {id : Text} {printnoent : Bool} {buffer : List Block} :
    (loadStash env id false buffer printnoent).Confined P frame := by
  refine .bind .get fun p => ?_
  split
  · exact confined_loadStashFromSource
  · refine .bind .store fun d => .bind confined_syscall fun stat => ?_
    split
    · exact .bind (confined_onlyIf confined_printMissing) fun _ => .pure
    · split
      · exact .pure
      · refine .bind confined_syscall fun ok => ?_
        split
        · refine .bind confined_readAll fun ⟨_, _⟩ => ?_
          dsimp only
          split <;> exact .pure
        · exact .pure

theorem confined_createStashFile {id : Text} {blocks : List Block} :
    (createStashFile env id blocks).Confined Step.IsData frame := by
  refine .bind .store fun d => ?_
  split
  · exact .pure
  · refine .bind confined_syscalls fun ok => ?_
    split
    · exact .bind (.emit trivial) fun _ => confined_syscalls
    · exact .pure

theorem confined_writeStash {id : Text} {blocks : List Block} {checkspace reuse : Bool} :
    (writeStash env id blocks checkspace reuse).Confined Step.IsData frame := by
  have hcreate : (do return (← createStashFile env id blocks, false) : M env _).Confined
      Step.IsData frame := .bind confined_createStashFile fun _ => .pure
  refine .bind ?_ fun ok => ?_
  · split
    · exact confined_syscall
    · exact .pure
  · split
    · split
      · refine .bind .store fun d => .bind confined_syscall fun ok => ?_
        split
        · exact .pure
        · exact hcreate
      · exact hcreate
    · exact .pure

theorem confined_freeStash {id : Text} : (freeStash env id).Confined Step.IsData frame := by
  unfold freeStash
  split
  · exact .pure
  · exact .bind confined_deleteFile fun _ => .pure

theorem confined_deleteFiles {ids : List Text} :
    (deleteFiles env ids).Confined Step.IsData frame := by
  induction ids with
  | nil => exact .pure
  | cons id ids ih => exact .bind confined_deleteFile fun _ => ih

theorem confined_deleteStash : (deleteStash env).Confined Step.IsData frame := by
  refine .bind .store fun d => .bind confined_deleteFiles fun _ =>
    .bind confined_syscall fun ok => ?_
  split
  · exact .emit trivial
  · exact .pure

/-! ## The saved command -/

theorem confined_deleteLastCommandFile :
    (deleteLastCommandFile env).Confined Step.IsUnsaving frame := by
  refine .bind confined_syscall fun ok => ?_
  split
  · exact .emit trivial
  · exact .pure

theorem confined_updateLastCommandIndex {index : Int} {cmdline : Text} :
    (updateLastCommandIndex env index cmdline).Confined Step.IsStorage frame := by
  refine .bind confined_syscalls fun ok => ?_
  split
  · exact .bind (.emit trivial) fun _ => confined_syscalls
  · exact .pure

/-! ## Commands -/

theorem confined_loadStashes {tokens : List Text} : (loadStashes env tokens).Confined P frame := by
  induction tokens with
  | nil => exact .pure
  | cons token tokens ih =>
    unfold loadStashes
    split
    · refine .bind confined_loadStash_noverify fun ⟨_, _⟩ => ?_
      dsimp only
      split
      · exact .bind confined_parseRanges fun locs => .bind .get fun p =>
          .bind confined_expect fun _ => .bind (.modify fun _ => rfl) fun _ => ih
      · exact ih
    · exact .pure

theorem confined_loadSourceRanges {tgt : RangeSet} {src : Text} {tokens : List Text} :
    (loadSourceRanges env tgt src tokens).Confined P frame := by
  unfold loadSourceRanges
  split
  · exact .pure
  · refine .bind confined_parseRanges fun src => .bind .get fun p =>
      .bind confined_readBlocks fun ⟨_, _⟩ => .bind (.modify fun _ => rfl) fun _ => ?_
    split
    · exact .pure
    · split
      · exact .pure
      · exact .bind confined_parseRanges fun locs => .bind .get fun p =>
          .bind confined_expect fun _ => .bind (.modify fun _ => rfl) fun _ => .pure

theorem confined_loadSourceBlocks {tgt : RangeSet} {count src : Text} {tokens : List Text} :
    (loadSourceBlocks env tgt count src tokens).Confined P frame := by
  unfold loadSourceBlocks
  split
  · exact .pure
  · refine .bind (.modify fun _ => rfl) fun _ => .bind confined_loadSourceRanges fun r => ?_
    split
    · exact .pure
    · refine .bind confined_loadStashes fun ok => ?_
      split <;> exact .pure

theorem confined_loadTgtSrc {tokens : List Text} {onehash : Bool} :
    (loadTgtSrc env tokens onehash).Confined P frame := by
  unfold loadTgtSrc
  split
  · refine .bind confined_parseRanges fun tgt => .bind confined_readBlocks fun ⟨_, _⟩ => ?_
    dsimp only
    split
    · exact .pure
    · refine .bind confined_verifyBlocks fun ok => ?_
      split
      · exact .pure
      · refine .bind confined_loadSourceBlocks fun r => ?_
        split <;> exact .pure
  · exact .pure

theorem confined_printSource {src : Text} {tokens : List Text} :
    (printHashForCorruptedSourceBlocks env src tokens).Confined P frame := by
  refine .bind .get fun p => ?_
  dsimp only
  split
  · exact .pure
  · split
    · exact .pure
    · exact .abort

theorem confined_recoverSource {l : LoadedSource} :
    (recoverSource env l).Confined Step.IsData frame := by
  have hload : (loadImplicitStash env l).Confined Step.IsData frame := by
    unfold loadImplicitStash
    split
    · exact .bind .get fun p => .bind confined_loadStash fun r =>
        .bind (.modify fun _ => rfl) fun _ => .pure
    · exact .pure
  refine .bind hload fun ok => ?_
  split
  · exact .pure
  · exact .bind confined_printSource fun _ => .bind (.modify fun _ => rfl) fun _ => .pure

theorem confined_stashSource {l : LoadedSource} :
    (stashSource env l).Confined Step.IsStorage frame := by
  refine .bind .get fun p => ?_
  split
  · refine .bind (confined_storage confined_writeStash) fun ⟨_, _⟩ => ?_
    dsimp only
    split
    · exact .bind confined_updateLastCommandIndex fun _ =>
        .bind (.modify fun p => by split <;> rfl) fun _ => .pure
    · exact .pure
  · exact .pure

theorem confined_loadSrcTgtVersion3 {tokens : List Text} {onehash : Bool} :
    (loadSrcTgtVersion3 env tokens onehash).Confined Step.IsStorage frame := by
  refine .bind confined_loadTgtSrc fun r => ?_
  split
  · exact .pure
  · refine .bind .get fun p => .bind confined_verifyBlocks fun ok => ?_
    split
    · exact .bind confined_stashSource fun _ => .pure
    · exact .bind (confined_storage confined_recoverSource) fun _ => .pure

theorem confined_releaseStash : (releaseStash env).Confined Step.IsData frame := by
  refine .bind .get fun p => ?_
  split
  · exact .bind confined_freeStash fun _ => .modify fun _ => rfl
  · exact .pure

theorem confined_performCommandMove : (performCommandMove env).Confined Step.IsStorage frame := by
  refine .bind .get fun p => .bind confined_loadSrcTgtVersion3 fun ⟨_, _, _⟩ => ?_
  dsimp only
  split
  · exact .pure
  · refine .bind (.modify fun p => by split <;> rfl) fun _ => .bind .get fun p =>
        .bind ?_ fun ok => ?_
    · split
      · exact confined_storage confined_writeRanges
      · exact .pure
    · split
      · exact .bind (confined_storage confined_releaseStash) fun _ => .pure
      · exact .pure

theorem confined_performCommandStash : (performCommandStash env).Confined Step.IsStorage frame := by
  refine .bind .get fun p => ?_
  split
  · refine .bind (confined_storage confined_loadStash) fun ⟨_, _⟩ =>
      .bind (.modify fun _ => rfl) fun _ => ?_
    split
    · exact .pure
    · refine .bind confined_parseRanges fun src => .bind confined_readBlocks fun ⟨_, _⟩ =>
        .bind (.modify fun _ => rfl) fun _ => ?_
      split
      · exact .pure
      · refine .bind (.modify fun _ => rfl) fun _ => .bind confined_verifyBlocks fun ok => ?_
        split
        · split
          · exact .pure
          · refine .bind (confined_storage confined_writeStash) fun ⟨_, _⟩ => ?_
            dsimp only
            split
            · exact .bind confined_updateLastCommandIndex fun _ => .pure
            · exact .pure
        · exact .pure
  · exact .pure

theorem confined_performCommandFree : (performCommandFree env).Confined Step.IsData frame := by
  refine .bind .get fun p => ?_
  split
  · refine .bind (.modify fun _ => rfl) fun _ => ?_
    split
    · exact confined_freeStash
    · exact .pure
  · exact .pure

theorem confined_zeroRange {bs : List Nat} : (zeroRange env bs).Confined Step.IsData frame := by
  induction bs with
  | nil => exact .pure
  | cons b bs ih =>
    refine .bind confined_writeBlock fun ok => ?_
    split
    · exact ih
    · exact .pure

theorem confined_zeroRanges {rs : List Range} : (zeroRanges env rs).Confined Step.IsData frame := by
  induction rs with
  | nil => exact .pure
  | cons r rs ih =>
    refine .bind confined_discardBlocks fun ok => ?_
    split
    · refine .bind confined_zeroRange fun ok => ?_
      split
      · exact ih
      · exact .pure
    · exact .pure

theorem confined_performCommandZero : (performCommandZero env).Confined Step.IsData frame := by
  refine .bind .get fun p => ?_
  split
  · refine .bind confined_parseRanges fun tgt => .bind (.modify fun _ => rfl) fun _ => ?_
    split
    · exact confined_zeroRanges
    · exact .pure
  · exact .pure

theorem confined_receiveNewData {stream : List (List UInt8)} {w : RangeSinkWriter} :
    (receiveNewData env stream w).Confined Step.IsData settings := by
  induction stream generalizing w with
  | nil => exact .bind (.modify fun _ => rfl) fun _ => .pure
  | cons data stream ih =>
    unfold receiveNewData
    split
    · exact ih
    · refine .bind (confined_write.comp Prod.fst) fun ⟨_, _⟩ => ?_
      dsimp only
      split
      · split
        · exact .bind (.modify fun _ => rfl) fun _ => .pure
        · exact ih
      · exact .bind (.modify fun _ => rfl) fun _ => .pure

theorem confined_performCommandNew : (performCommandNew env).Confined Step.IsData settings := by
  refine .bind .get fun p => ?_
  split
  · refine .bind (confined_parseRanges.comp Prod.fst) fun tgt => ?_
    split
    · split
      · exact confined_receiveNewData
      · exact .pure
    · exact .pure
  · exact .pure

theorem confined_applyPatch {pieces : List (List UInt8)} {w : RangeSinkWriter} {ok : Bool} :
    (applyPatch env pieces w ok).Confined Step.IsData frame := by
  induction pieces generalizing w with
  | nil => exact .pure
  | cons data pieces ih =>
    refine .bind confined_write fun ⟨_, _⟩ => ?_
    dsimp only
    split
    · exact ih
    · exact .pure

theorem confined_performCommandDiff {imgdiff : Bool} :
    (performCommandDiff env imgdiff).Confined Step.IsStorage frame := by
  refine .bind .get fun p => ?_
  split
  · split
    · refine .bind confined_loadSrcTgtVersion3 fun ⟨_, _, _⟩ => ?_
      dsimp only
      split
      · exact .pure
      · refine .bind (.modify fun p => by split <;> rfl) fun _ => .bind .get fun p =>
        .bind ?_ fun ok => ?_
        · split
          · exact confined_storage confined_applyPatch
          · exact .pure
        · split
          · exact .bind (confined_storage confined_releaseStash) fun _ => .pure
          · exact .pure
    · exact .pure
  · exact .pure

theorem confined_eraseRanges {rs : List Range} :
    (eraseRanges env rs).Confined Step.IsData frame := by
  induction rs with
  | nil => exact .pure
  | cons r rs ih =>
    refine .bind confined_blkdiscard fun ok => ?_
    split
    · exact ih
    · exact .pure

theorem confined_performCommandErase : (performCommandErase env).Confined Step.IsData frame := by
  refine .bind confined_syscall fun ok => ?_
  split
  · split
    · exact .pure
    · refine .bind .get fun p => ?_
      split
      · refine .bind confined_parseRanges fun tgt => ?_
        split
        · exact confined_eraseRanges
        · exact .pure
      · exact .pure
  · exact .pure

theorem confined_perform_frame {dryrun : Bool} {command : Command} {f : M env Bool}
    (h : command.perform env dryrun = some f) (hne : command ≠ .new) :
    f.Confined Step.IsStorage frame := by
  cases command <;> simp only [Command.perform] at h <;> (try split at h) <;> cases h
  · exact confined_performCommandDiff
  · exact confined_storage confined_performCommandErase
  · exact confined_storage confined_performCommandFree
  · exact confined_performCommandDiff
  · exact confined_performCommandMove
  · exact absurd rfl hne
  · exact confined_performCommandStash
  · exact confined_storage confined_performCommandZero

theorem confined_perform {dryrun : Bool} {command : Command} {f : M env Bool}
    (h : command.perform env dryrun = some f) : f.Confined Step.IsStorage settings := by
  by_cases hnew : command = .new
  · subst hnew
    simp only [Command.perform] at h
    split at h <;> cases h
    exact confined_storage confined_performCommandNew
  · exact (confined_perform_frame h hnew).comp Prod.fst

theorem confined_finishUpdate {rc : Bool} :
    (finishUpdate env rc).Confined Step.IsUnsaving frame := by
  have hstash : (deleteStash env).Confined Step.IsUnsaving frame :=
    confined_deleteStash.mono fun e he => by cases e <;> trivial
  exact .bind .get fun p =>
    .bind (confined_onlyIf (.bind hstash fun _ => confined_deleteLastCommandFile)) fun _ =>
    .bind confined_syscall fun _ => .bind (confined_onlyIf (.emit trivial)) fun _ =>
    .bind (confined_onlyIf confined_deleteLastCommandFile) fun _ => confined_onlyIf hstash

end BootableRecovery.BlockImg
