import BootableRecovery.Updater.Blocks

/-!
# Block image updates

`block_image_verify` and `block_image_update` of `updater/blockimg.cpp`: the stash files, the saved
index of the last command, the commands of a transfer list and the loop that executes them. The two
functions are one (`performBlockImageUpdate`), with a table of commands and the flag `dryrun`.

A function of the source that returns 0 or -1 returns a Boolean here, `true` for 0.
-/

namespace BootableRecovery.BlockImg

variable (env : Env)

/-- Several system calls in a row, up to the first that fails. -/
def syscalls : Nat → M env Bool
  | 0 => return true
  | n + 1 => do if ← syscall env then syscalls n else return false

/-- An `if` without an `else`. -/
def onlyIf (b : Bool) (x : M env Unit) : M env Unit := if b then x else return

/-- `RangeSet::Parse` and the `CHECK` of its result. -/
def parseRanges (s : Text) : M env RangeSet :=
  if (RangeSet.parse s).isValid then return RangeSet.parse s else abort env

/-! ## The saved command -/

def deleteLastCommandFile : M env Unit := do
  if ← syscall env then emit env .unlinkLast

/-- The index in the content of `last_command_file`. -/
def parseLastCommand (content : Text) : Option Int :=
  match (trim content).splitOn '\n' with
  | [index, _] => parseInt index
  | _ => none

def parseLastCommandFile : M env (Option Int) := do
  let d ← disk env
  match d.lastCommand with
  | some content => do
    -- open and read
    if ← syscalls env 2 then return parseLastCommand content else return none
  | none => return none

/-- What `UpdateLastCommandIndex` stores. -/
def lastCommandContent (index : Int) (cmdline : Text) : Text := toText index ++ '\n' :: cmdline

def updateLastCommandIndex (index : Int) (cmdline : Text) : M env Bool := do
  -- open, write, fsync and chown of the temporary file, then its rename
  if ← syscalls env 5 then
    emit env (.renameLast (lastCommandContent index cmdline))
    syscalls env 2
  else return false

/-! ## Stashes -/

/-- `PrintHashForCorruptedStashedBlocks`, of which only the `CHECK` has an effect. -/
def printHashForCorruptedStashedBlocks (buffer : List Block) (src : RangeSet) : M env Unit :=
  if src.blocks = buffer.length then return else abort env

def printHashForMissingStashedBlocks (id : Text) : M env Unit := do
  match (← Prog.get).stashMap.lookup id with
  | none => return
  | some src =>
    let (ok, buffer) ← readBlocks env src (List.replicate src.blocks 0)
    if ok then printHashForCorruptedStashedBlocks env buffer src

/-- `GetStashFileName` without a postfix, as the name of the file that is found there. -/
def getStashFileName (id : Text) : Text := env.resolve id

/-- `DeleteFile` of a stash file. -/
def deleteFile (id : Text) : M env Unit := do
  if ← syscall env then emit env (.unlinkStash id)

/-- `LoadStash` in verify mode for a stash whose source ranges were saved. -/
def loadStashFromSource (id : Text) (src : RangeSet) (buffer : List Block) :
    M env (Bool × List Block) := do
  let (ok, buffer) ← readBlocks env src (allocate src.blocks buffer)
  if ok then
    if ← verifyBlocks env id buffer src.blocks then return (true, buffer)
    else
      printHashForCorruptedStashedBlocks env buffer src
      return (false, buffer)
  else return (false, buffer)

/-- What `LoadStash` prints for a stash file with unexpected contents. -/
def printHashForUnexpectedStash (id : Text) (buffer : List Block) : M env Unit := do
  match (← Prog.get).stashMap.lookup id with
  | some src => printHashForCorruptedStashedBlocks env buffer src
  | none => return

/-- `LoadStash` for a stash file. -/
def loadStashFile (id : Text) (verify : Bool) (buffer : List Block) (printnoent : Bool) :
    M env (Bool × List Block) := do
  let d ← disk env
  let stat ← syscall env
  match if stat then d.stashFile (getStashFileName env id) else none with
  | none =>
    onlyIf env (!stat || printnoent) (printHashForMissingStashedBlocks env id)
    return (false, buffer)
  | some file =>
    if file.tail.val ≠ 0 then return (false, buffer)
    else if ← syscall env then
      let (ok, buffer) ← readAll env (file.blocks.map some) 0 (allocate file.blocks.length buffer)
      if ok then
        if !verify then return (true, buffer)
        else if ← verifyBlocks env id buffer file.blocks.length then return (true, buffer)
        else
          printHashForUnexpectedStash env id buffer
          deleteFile env (getStashFileName env id)
          return (false, buffer)
      else return (false, buffer)
    else return (false, buffer)

/-- `LoadStash`: whether it succeeded, and the buffer after it. -/
def loadStash (id : Text) (verify : Bool) (buffer : List Block) (printnoent : Bool) :
    M env (Bool × List Block) := do
  let p ← Prog.get
  match if p.canwrite then none else p.stashMap.lookup id with
  | some src => loadStashFromSource env id src buffer
  | none => loadStashFile env id verify buffer printnoent

/-- The part of `WriteStash` after the test for an existing file. -/
def createStashFile (id : Text) (blocks : List Block) : M env Bool := do
  if (← disk env).stash.isNone then return false
  -- open, fchown, write and fsync of the temporary file, then its rename
  else if ← syscalls env 5 then
    emit env (.renameStash (getStashFileName env id) blocks)
    syscalls env 2
  else return false

/-- `WriteStash`: whether it succeeded, and whether the file existed already. -/
def writeStash (id : Text) (blocks : List Block) (checkspace reuse : Bool) :
    M env (Bool × Bool) := do
  -- `CacheSizeCheck`
  if ← (if checkspace then syscall env else pure true) then
    if reuse then
      let d ← disk env
      if (← syscall env) && (d.stashFile (getStashFileName env id)).isSome then return (true, true)
      else return (← createStashFile env id blocks, false)
    else return (← createStashFile env id blocks, false)
  else return (false, false)

def freeStash (id : Text) : M env Bool := do
  if id.isEmpty then return false
  else
    deleteFile env (getStashFileName env id)
    return true

/-- Deletes files one after the other. -/
def deleteFiles : List Text → M env Unit
  | [] => return
  | id :: ids => do
    deleteFile env id
    deleteFiles ids

def deleteStash : M env Unit := do
  let d ← disk env
  deleteFiles env ((d.stash.getD []).map (·.1))
  if ← syscall env then emit env .rmdirStash

/-- `CreateStash`: whether it created the directory, `none` on a failure. -/
def createStash (maxblocks : Nat) (blockdev : Text) : M env (Option Bool) := do
  if blockdev.isEmpty then return none
  else
    let d ← disk env
    -- stat
    if ← syscall env then
      match d.stash with
      | none =>
        if ← syscall env then
          emit env .mkdirStash
          -- chown and `CacheSizeCheck`
          if ← syscalls env 2 then return some true else return none
        else return none
      | some files =>
        if wrapBlocks maxblocks * BLOCKSIZE > (files.map (·.2.size)).sum then
          if ← syscall env then return some false else return none
        else return some false
    else return none

/-! ## Loading the source -/

/-- The loop of `LoadSourceBlocks` over the stashes. -/
def loadStashes : List Text → M env Bool
  | [] => return true
  | token :: tokens => do
    match token.splitOn ':' with
    | [id, ranges] =>
      let (ok, stash) ← loadStash env id false [] true
      if ok then
        let locs ← parseRanges env ranges
        let buffer ← expect env (moveRange (← Prog.get).buffer locs stash)
        Prog.modify fun p => { p with buffer }
        loadStashes tokens
      else loadStashes tokens
    | _ => return false

/-- The source ranges of `LoadSourceBlocks`: `none` on a failure, else whether they overlap the
target and the tokens that are left. -/
def loadSourceRanges (tgt : RangeSet) (src : Text) (tokens : List Text) :
    M env (Option (Bool × List Text)) := do
  if src = ['-'] then return some (false, tokens)
  else
    let src ← parseRanges env src
    let (ok, buffer) ← readBlocks env src (← Prog.get).buffer
    Prog.modify fun p => { p with buffer }
    if !ok then return none
    else match tokens with
      | [] => return some (src.overlaps tgt, [])
      | locs :: tokens =>
        let locs ← parseRanges env locs
        let buffer ← expect env (moveRangeInPlace (← Prog.get).buffer locs)
        Prog.modify fun p => { p with buffer }
        return some (src.overlaps tgt, tokens)

/-- `LoadSourceBlocks` for the tokens `count src ..`: the number of source blocks and whether the
source overlaps the target, `none` on a failure. -/
def loadSourceBlocks (tgt : RangeSet) (count src : Text) (tokens : List Text) :
    M env (Option (Nat × Bool)) := do
  match parseUint count with
  | none => return none
  | some blocks =>
    Prog.modify fun p => { p with buffer := allocate (wrapBlocks blocks) p.buffer }
    match ← loadSourceRanges env tgt src tokens with
    | none => return none
    | some (overlap, tokens) =>
      if ← loadStashes env tokens then return some (blocks, overlap) else return none

/-- Where the blocks of the source ranges are in the buffer. -/
def sourceLocations (src : RangeSet) : List Text → List Nat
  | [] => List.range src.blocks
  | locs :: _ => (RangeSet.parse locs).toList

/-- `PrintHashForCorruptedSourceBlocks`, of which only the `CHECK`s have an effect. -/
def printHashForCorruptedSourceBlocks (src : Text) (tokens : List Text) : M env Unit := do
  let buffer := (← Prog.get).buffer
  if src = ['-'] ∨ !(RangeSet.parse src).isValid then return
  else
    let locs := sourceLocations (RangeSet.parse src) tokens
    if locs.length = (RangeSet.parse src).blocks ∧ ∀ i ∈ locs, i < buffer.length then return
    else abort env

/-- What `LoadSrcTgtVersion3` returns: -1, 0 or 1. -/
inductive LoadStatus
  | failed
  | ready
  | done
  deriving DecidableEq

/-- The hashes at the start of the tokens, and the tokens after them. -/
def splitHashes (onehash : Bool) : List Text → Option (Text × Text × List Text)
  | [] => none
  | srchash :: tokens =>
    if onehash then some (srchash, srchash, tokens)
    else match tokens with
      | [] => none
      | tgthash :: tokens => some (srchash, tgthash, tokens)

/-- What `LoadSrcTgtVersion3` knows when it has loaded the source: the target, the hash that the
source should have, the number of its blocks, whether it overlaps the target, and its tokens. -/
structure LoadedSource where
  tgt : RangeSet
  srchash : Text
  blocks : Nat
  overlap : Bool
  src : Text
  tokens : List Text

/-- `LoadSrcTgtVersion3` up to the hash of the source: the status and the target if that is decided
by then, or else what it has loaded. -/
def loadTgtSrc (tokens : List Text) (onehash : Bool) :
    M env ((LoadStatus × RangeSet) ⊕ LoadedSource) := do
  match splitHashes onehash tokens with
  | some (srchash, tgthash, tgt :: count :: src :: tokens) =>
    let tgt ← parseRanges env tgt
    let (ok, tgtbuffer) ← readBlocks env tgt (List.replicate tgt.blocks 0)
    if !ok then return .inl (.failed, tgt)
    else if ← verifyBlocks env tgthash tgtbuffer tgt.blocks then return .inl (.done, tgt)
    else match ← loadSourceBlocks env tgt count src tokens with
      | none => return .inl (.failed, tgt)
      | some (blocks, overlap) => return .inr { tgt, srchash, blocks, overlap, src, tokens }
  | _ => return .inl (.failed, .empty)

/-- Loads the stash that an interrupted command with an overlapping source has left. -/
def loadImplicitStash (l : LoadedSource) : M env Bool := do
  if l.overlap then
    let (ok, buffer) ← loadStash env l.srchash true (← Prog.get).buffer true
    Prog.modify fun p => { p with buffer }
    return ok
  else return false

/-- `LoadSrcTgtVersion3` when the source does not have its hash: an interrupted command may have
stashed it, or else the update cannot be resumed. -/
def recoverSource (l : LoadedSource) : M env LoadStatus := do
  if ← loadImplicitStash env l then return .ready
  else
    printHashForCorruptedSourceBlocks env l.src l.tokens
    Prog.modify fun p => { p with isunresumable := true }
    return .failed

/-- `LoadSrcTgtVersion3` when the source has its hash: an overlapping source is stashed. -/
def stashSource (l : LoadedSource) : M env LoadStatus := do
  let p ← Prog.get
  if l.overlap && p.canwrite then
    let (ok, existed) ← writeStash env l.srchash (p.buffer.take (wrapBlocks l.blocks)) true true
    if ok then
      let _ ← updateLastCommandIndex env p.cmdindex p.cmdline
      Prog.modify fun p => if existed then p else { p with freestash := l.srchash }
      return .ready
    else return .failed
  else return .ready

/-- `LoadSrcTgtVersion3`: its status, the target and the number of source blocks. -/
def loadSrcTgtVersion3 (tokens : List Text) (onehash : Bool) :
    M env (LoadStatus × RangeSet × Nat) := do
  match ← loadTgtSrc env tokens onehash with
  | .inl (status, tgt) => return (status, tgt, 0)
  | .inr l =>
    if ← verifyBlocks env l.srchash (← Prog.get).buffer (wrapBlocks l.blocks) then
      return (← stashSource env l, l.tgt, l.blocks)
    else return (← recoverSource env l, l.tgt, l.blocks)

/-! ## The commands -/

/-- The end of `PerformCommandMove` and `PerformCommandDiff`: the implicit stash is freed. -/
def releaseStash : M env Unit := do
  let p ← Prog.get
  if !p.freestash.isEmpty then
    let _ ← freeStash env p.freestash
    Prog.modify fun p => { p with freestash := [] }

def performCommandMove : M env Bool := do
  let (status, tgt, _) ← loadSrcTgtVersion3 env (← Prog.get).tokens true
  if status = .failed then return false
  else
    Prog.modify fun p => if status = .done then { p with targetVerified := true } else p
    let p ← Prog.get
    if ← (if p.canwrite && status = .ready then writeBlocks env tgt p.buffer else pure true) then
      releaseStash env
      return true
    else return false

def performCommandStash : M env Bool := do
  let p ← Prog.get
  match p.tokens with
  | id :: src :: _ =>
    let (ok, buffer) ← loadStash env id true p.buffer false
    Prog.modify fun p => { p with buffer }
    if ok then return true
    else
      let src ← parseRanges env src
      let (ok, buffer) ← readBlocks env src (allocate src.blocks buffer)
      Prog.modify fun p => { p with buffer }
      if !ok then return false
      else
        Prog.modify fun p => { p with stashMap := (id, src) :: p.stashMap.filter (·.1 ≠ id) }
        if ← verifyBlocks env id buffer src.blocks then
          if !p.canwrite then return true
          else
            let (ok, _) ← writeStash env id (buffer.take src.blocks) false false
            if ok then
              let _ ← updateLastCommandIndex env p.cmdindex p.cmdline
              return true
            else return false
        else return true
  | _ => return false

def performCommandFree : M env Bool := do
  let p ← Prog.get
  match p.tokens with
  | id :: _ =>
    Prog.modify fun p => { p with stashMap := p.stashMap.filter (·.1 ≠ id) }
    if p.createdstash || p.canwrite then freeStash env id else return true
  | [] => return false

/-- The loop of `PerformCommandZero` over the blocks of a range. -/
def zeroRange : List Nat → M env Bool
  | [] => return true
  | b :: bs => do if ← writeBlock env b 0 then zeroRange bs else return false

/-- The loop of `PerformCommandZero` over the ranges. -/
def zeroRanges : List Range → M env Bool
  | [] => return true
  | r :: rs => do
    if ← discardBlocks env r then
      if ← zeroRange env (Range.toList r) then zeroRanges rs else return false
    else return false

def performCommandZero : M env Bool := do
  let p ← Prog.get
  match p.tokens with
  | tgt :: _ =>
    let tgt ← parseRanges env tgt
    Prog.modify fun p => { p with buffer := (allocate 1 p.buffer).set 0 0 }
    if p.canwrite then zeroRanges env tgt.ranges else return true
  | [] => return false

/-- The new data for one writer, as `receive_new_data` and `PerformCommandNew` hand it over: the
pieces of the stream go to the writer until it has all its bytes. Without enough pieces the receiver
ends, and the command fails. -/
def receiveNewData : List (List UInt8) → RangeSinkWriter → M env Bool
  | [], _ => do
    Prog.modify fun p => { p with nti := ⟨[], false⟩ }
    return false
  | data :: stream, w => do
    if data.isEmpty then receiveNewData stream w
    else
      let now := min data.length w.availableSpace
      let (w, written) ← w.write env (data.take now)
      if written = now then
        if w.finished then
          Prog.modify fun p => { p with nti := ⟨data.drop now :: stream, true⟩ }
          return true
        else receiveNewData stream w
      else
        Prog.modify fun p => { p with nti := ⟨[], false⟩ }
        return false

def performCommandNew : M env Bool := do
  let p ← Prog.get
  match p.tokens with
  | tgt :: _ =>
    let tgt ← parseRanges env tgt
    if p.canwrite then
      if p.nti.receiverAvailable then receiveNewData env p.nti.stream (.make tgt) else return false
    else return true
  | [] => return false

/-- A patch is applied: its pieces go to the sink, which has to take each of them whole. -/
def applyPatch : List (List UInt8) → RangeSinkWriter → Bool → M env Bool
  | [], _, ok => return ok
  | data :: pieces, w, ok => do
    let (w, written) ← w.write env data
    if written = data.length then applyPatch pieces w ok else return false

def performCommandDiff (imgdiff : Bool) : M env Bool := do
  match (← Prog.get).tokens with
  | offset :: len :: tokens =>
    match parseUint offset, parseUint len with
    | some offset, some len =>
      let (status, tgt, blocks) ← loadSrcTgtVersion3 env tokens false
      if status = .failed then return false
      else
        Prog.modify fun p => if status = .done then { p with targetVerified := true } else p
        let p ← Prog.get
        let (pieces, ok) := env.patch imgdiff offset len (p.buffer.take (wrapBlocks blocks))
        if ← (if p.canwrite && status = .ready then applyPatch env pieces (.make tgt) ok
            else pure true) then
          releaseStash env
          return true
        else return false
    | _, _ => return false
  | _ => return false

/-- The loop of `PerformCommandErase`. -/
def eraseRanges : List Range → M env Bool
  | [] => return true
  | r :: rs => do if ← blkdiscard env r then eraseRanges rs else return false

def performCommandErase : M env Bool := do
  -- fstat
  if ← syscall env then
    if !env.isBlk then return false
    else
      let p ← Prog.get
      match p.tokens with
      | tgt :: _ =>
        let tgt ← parseRanges env tgt
        if p.canwrite then eraseRanges env tgt.ranges else return true
      | [] => return false
  else return false

/-! ## The transfer list -/

/-- The commands of a transfer list. -/
inductive Command
  | bsdiff
  | erase
  | free
  | imgdiff
  | move
  | new
  | stash
  | zero
  deriving DecidableEq

/-- The name of a command. -/
def Command.name : Command → Text
  | .bsdiff => ['b', 's', 'd', 'i', 'f', 'f']
  | .erase => ['e', 'r', 'a', 's', 'e']
  | .free => ['f', 'r', 'e', 'e']
  | .imgdiff => ['i', 'm', 'g', 'd', 'i', 'f', 'f']
  | .move => ['m', 'o', 'v', 'e']
  | .new => ['n', 'e', 'w']
  | .stash => ['s', 't', 'a', 's', 'h']
  | .zero => ['z', 'e', 'r', 'o']

/-- The lookup of `params.cmdname`, the C string of the first token, in `cmd_map`. -/
def Command.ofName (s : Text) : Option Command :=
  [bsdiff, erase, free, imgdiff, move, new, stash, zero].find? (·.name = cstr s)

/-- The table of `BlockImageVerifyFn` or `BlockImageUpdateFn`; `none` where the function pointer is
null and the command is skipped. -/
def Command.perform (dryrun : Bool) : Command → Option (M env Bool)
  | .bsdiff => some (performCommandDiff env false)
  | .erase => if dryrun then none else some (performCommandErase env)
  | .free => some (performCommandFree env)
  | .imgdiff => some (performCommandDiff env true)
  | .move => some (performCommandMove env)
  | .new => if dryrun then none else some (performCommandNew env)
  | .stash => some (performCommandStash env)
  | .zero => if dryrun then none else some (performCommandZero env)

/-- The command leaves its target with a known hash. -/
def Command.isTransfer : Command → Bool
  | .bsdiff | .imgdiff | .move => true
  | _ => false

/-- `params.cmdindex` of the line `i` after the header. -/
def cmdIndex (i : Nat) : Int := if i > INT_MAX then -1 else i

/-- After a command in verify mode: a saved index is dropped if the command, which it says was
executed, has not left its target. -/
def checkLastCommand (command : Command) (saved : Int) : M env Int := do
  let p ← Prog.get
  if !p.canwrite ∧ saved ≠ -1 ∧ p.cmdindex ≠ -1 ∧ p.cmdindex ≤ saved ∧ command.isTransfer ∧
      !p.targetVerified then
    deleteLastCommandFile env
    return -1
  else return saved

/-- After the command of line `i` in update mode: the partition is flushed. -/
def syncCommand (i : Nat) : M env Bool := do
  let p ← Prog.get
  if p.canwrite then
    emit env (.finished i)
    if ← syscall env then
      emit env .fsync
      return true
    else return false
  else return true

/-- One line of the loop of `PerformBlockImageUpdate`: the saved index after it, or `none` if the
loop is left with an error. -/
def performLine (i : Nat) (line : Text) (saved : Int) : M env (Option Int) := do
  match line.splitOn ' ' with
  | name :: tokens =>
    match Command.ofName name with
    | none => return none
    | some command =>
      let p ← Prog.get
      match command.perform env (!p.canwrite) with
      | none => return some saved
      | some f =>
        if p.canwrite ∧ cmdIndex i ≠ -1 ∧ cmdIndex i ≤ saved then
          emit env (.skipped i)
          return some saved
        else
          Prog.modify fun p => { p with
            tokens, cmdindex := cmdIndex i, cmdline := cstr line, targetVerified := false }
          emit env (.began i (← Prog.get))
          if ← f then
            let saved ← checkLastCommand env command saved
            if ← syncCommand env i then return some saved else return none
          else return none
  | [] => return none

/-- The loop of `PerformBlockImageUpdate`: whether all lines were executed. -/
def performLines : Nat → List Text → Int → M env Bool
  | _, [], _ => return true
  | i, line :: lines, saved => do
    if line.isEmpty then performLines (i + 1) lines saved
    else match ← performLine env i line saved with
      | some saved => performLines (i + 1) lines saved
      | none => return false

/-- The end of `PerformBlockImageUpdate`. -/
def finishUpdate (rc : Bool) : M env Unit := do
  let p ← Prog.get
  onlyIf env (p.canwrite && rc) (do
    deleteStash env
    deleteLastCommandFile env)
  onlyIf env (← syscall env) (emit env .fsync)
  onlyIf env p.isunresumable (deleteLastCommandFile env)
  onlyIf env (p.isunresumable || (!p.canwrite && p.createdstash)) (deleteStash env)

/-- The arguments of a call of `block_image_verify` (`dryrun`) or `block_image_update`. -/
structure Call where
  dryrun : Bool
  retry : Bool
  blockdev : Text
  transferList : Text
  newData : List (List UInt8)

/-- The saved index, -1 if there is none that can be read. -/
def savedIndex : M env Int := do
  match ← parseLastCommandFile env with
  | some index => return index
  | none =>
    deleteLastCommandFile env
    return -1

/-- `PerformBlockImageUpdate` from the stash directory on. -/
def performCommands (blockdev : Text) (stashMaxBlocks : Nat) (lines : List Text) : M env Bool := do
  match ← createStash env stashMaxBlocks blockdev with
  | none => return false
  | some createdstash =>
    Prog.modify fun p => { p with createdstash }
    let saved ← savedIndex env
    let rc ← performLines env 0 lines saved
    finishUpdate env rc
    return rc

/-- `PerformBlockImageUpdate` after the arguments are read: `true` for the value `"t"`, `false` for
the empty string. -/
def performBlockImageUpdate (call : Call) : M env Bool := do
  Prog.modify fun p => { p with
    tokens := [], cmdindex := 0, cmdline := [], freestash := [], canwrite := !call.dryrun
    createdstash := false, isunresumable := false, nti := ⟨call.newData, true⟩, buffer := []
    targetVerified := false, isRetry := p.isRetry || call.retry }
  -- open of the device, and `pthread_create`
  if ← syscalls env (if call.dryrun then 1 else 2) then
    match call.transferList.splitOn '\n' with
    | version :: total :: rest =>
      if (parseInt version).all fun v => v < 3 ∨ 4 < v then return false
      else match parseUint total with
        | none => return false
        | some 0 => return true
        | some _ => match rest with
          | _ :: stashMax :: lines => match parseUint stashMax with
            | none => return false
            | some stashMaxBlocks => performCommands env call.blockdev stashMaxBlocks lines
          | _ => return false
    | _ => return false
  else return false

end BootableRecovery.BlockImg
