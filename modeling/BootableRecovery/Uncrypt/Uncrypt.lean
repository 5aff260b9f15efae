import BootableRecovery.OtaUtil.SysUtil

/-!
# The block map of a package

`produce_block_map` of `uncrypt/uncrypt.cpp`: the blocks of a file are looked up one by one, and the
map file lists them as ranges. If the file system is encrypted, the blocks are also written to the
block device without encryption; they pass through a ring of buffers, so that a block is written
some time after it was read.
-/

namespace BootableRecovery.Uncrypt

def WINDOW_SIZE : Nat := 5

def FIBMAP_RETRY_LIMIT : Nat := 3

/-- The codes that `produce_block_map` returns if something fails. -/
inductive UncryptErrorCode
  | kUncryptFileRemoveError
  | kUncryptFileOpenError
  | kUncryptSocketWriteError
  | kUncryptFileStatError
  | kUncryptBlockOpenError
  | kUncryptIoctlError
  | kUncryptReadError
  | kUncryptWriteError
  | kUncryptFileSyncError
  | kUncryptFileCloseError
  | kUncryptFileRenameError
  deriving DecidableEq

/-- How a run of `produce_block_map` ends early: with a code, or with the overflow of a signed
number, after which nothing is promised. -/
inductive Failure
  | code (error : UncryptErrorCode)
  | overflow
  deriving DecidableEq

/-- An access to the package or to the block device, by its place. -/
inductive Access
  | read (pos len : Nat)
  | write (offset : Nat) (bytes : List UInt8)
  deriving DecidableEq

/-- The package: what is read from it, the block size, and what the ioctl `FIBMAP` gives for a block
of it in each call. `succeeds` says of each other call to the system whether it succeeds. -/
structure Package where
  data : List UInt8
  blksize : Nat
  fibmap : (call block : Nat) → Option Nat
  succeeds : (call : Nat) → Bool

/-- The map directory, the position in the temporary file, the block device and the accesses so far,
the numbers of calls so far, and the variables of the loops. -/
structure State where
  map : Option Text
  tmp : Option Text
  offset : Nat := 0
  device : BlockDevice
  accesses : List Access := []
  ioctls : Nat := 0
  calls : Nat := 0
  pos : Nat := 0
  head : Nat := 0
  tail : Nat := 0
  headBlock : Nat := 0
  ranges : List (Nat × Nat) := []
  buffers : List (List UInt8) := []

abbrev UncryptM := StateT State (Except Failure)

def addBlockToRanges : List (Nat × Nat) → (newBlock : Nat) → List (Nat × Nat)
  | [], newBlock => [(newBlock, newBlock + 1)]
  | [r], newBlock => if newBlock = r.2 then [(r.1, r.2 + 1)] else [r, (newBlock, newBlock + 1)]
  | r :: rs, newBlock => r :: addBlockToRanges rs newBlock

variable (package : Package) (encrypted : Bool)

/-- A call to the system that fails with a code. -/
def attempt (code : UncryptErrorCode) : UncryptM Unit := fun s =>
  if package.succeeds s.calls then .ok ((), { s with calls := s.calls + 1 })
    else .error (.code code)

/-- A signed number of `bits` bits has to hold the value. -/
def fits (bits value : Nat) : UncryptM Unit :=
  if value < 2 ^ (bits - 1) then return else throw .overflow

/-- An action behind a condition. -/
def onlyIf (cond : Prop) [Decidable cond] (act : UncryptM Unit) : UncryptM Unit :=
  if cond then act else return

def writeAtOffset (offset : Nat) (bytes : List UInt8) : UncryptM Unit := do
  attempt package .kUncryptWriteError
  modify fun s => { s with
    device := s.device.write offset bytes
    accesses := s.accesses ++ [.write offset bytes] }

/-- The ioctl `FIBMAP`. -/
def fibmap (block : Nat) : UncryptM (Option Nat) := fun s =>
  .ok (package.fibmap s.ioctls block, { s with ioctls := s.ioctls + 1 })

/-- The loop of `retry_fibmap`. Each call is given what the last one has left in `block`. -/
def retryFibmap : (retries block : Nat) → UncryptM Nat
  | 0, _ => throw (.code .kUncryptIoctlError)
  | retries + 1, block => do
    attempt package .kUncryptFileSyncError
    match ← fibmap package block with
    | none => throw (.code .kUncryptIoctlError)
    | some found => if found ≠ 0 then return found else retryFibmap retries found

/-- The block of the device that `headBlock` is in. -/
def findBlock (headBlock : Nat) : UncryptM Nat := do
  match ← fibmap package headBlock with
  | none => throw (.code .kUncryptIoctlError)
  | some found => if found = 0 then retryFibmap package FIBMAP_RETRY_LIMIT found else return found

/-- Writes the head buffer to a block of the device. The offset has to be an `off64_t`. -/
def saveHead (block : Nat) : UncryptM Unit := do
  fits 64 (package.blksize * block)
  let s ← get
  writeAtOffset package (package.blksize * block) (s.buffers.getD s.head [])

/-- Writes out the head buffer. The end of a range and the next head block have to be an `int`
each. -/
def writeOutHead : UncryptM Unit := do
  let s ← get
  let block ← findBlock package s.headBlock
  fits 32 (block + 1)
  modify fun s => { s with ranges := addBlockToRanges s.ranges block }
  onlyIf encrypted (saveHead package block)
  fits 32 (s.headBlock + 1)
  modify fun s => { s with head := (s.head + 1) % WINDOW_SIZE, headBlock := s.headBlock + 1 }

/-- Reads the next block to the tail buffer. -/
def fillTail : UncryptM Unit := do
  attempt package .kUncryptReadError
  modify fun s =>
    let toRead := min package.blksize (package.data.length - s.pos)
    { s with
      buffers := s.buffers.modify s.tail fun buffer =>
        (package.data.drop s.pos).take toRead ++ buffer.drop toRead
      accesses := s.accesses ++ [.read s.pos toRead]
      pos := s.pos + toRead }

/-- The next block. Without encryption, nothing is read. -/
def readNext : UncryptM Unit := do
  onlyIf encrypted (fillTail package)
  onlyIf (!encrypted) (modify fun s => { s with pos := s.pos + package.blksize })
  modify fun s => { s with tail := (s.tail + 1) % WINDOW_SIZE }

/-- The first loop. -/
def readLoop : (fuel : Nat) → UncryptM Unit
  | 0 => return
  | fuel + 1 => do
    let s ← get
    onlyIf (s.pos < package.data.length) do
      onlyIf ((s.tail + 1) % WINDOW_SIZE = s.head) (writeOutHead package encrypted)
      readNext package encrypted
      readLoop fuel

/-- The second loop. -/
def drainLoop : (fuel : Nat) → UncryptM Unit
  | 0 => return
  | fuel + 1 => do
    let s ← get
    onlyIf (s.head ≠ s.tail) do
      writeOutHead package encrypted
      drainLoop fuel

/-- `WriteStringToFd` to the temporary file. -/
def writeString (s : Text) : UncryptM Unit := do
  attempt package .kUncryptWriteError
  modify fun st =>
    let content := st.tmp.getD []
    { st with
      tmp := some (content.take st.offset ++ s ++ content.drop (st.offset + s.length))
      offset := st.offset + s.length }

def header (blkDev : Text) (size blksize : Nat) : Text :=
  blkDev ++ '\n' :: toText size ++ ' ' :: toText blksize ++ ['\n']

def rangeLine (r : Nat × Nat) : Text := toText r.1 ++ ' ' :: toText r.2 ++ ['\n']

/-- Writes the ranges. -/
def writeRanges : List (Nat × Nat) → UncryptM Unit
  | [] => return
  | r :: rs => do
    writeString package (rangeLine r)
    writeRanges rs

/-- Opens the temporary file, without `O_TRUNC`, and writes the header. -/
def openMap (blkDev : Text) : UncryptM Unit := do
  attempt package .kUncryptFileRemoveError
  modify fun s => { s with map := none }
  attempt package .kUncryptFileOpenError
  modify fun s => { s with tmp := some (s.tmp.getD []), offset := 0 }
  attempt package .kUncryptSocketWriteError
  attempt package .kUncryptFileStatError
  writeString package (header blkDev package.data.length package.blksize)

/-- Opens the package and, on an encrypted file system, the block device. -/
def openPackage (f2fs : Bool) : UncryptM Unit := do
  modify fun s => { s with
    accesses := [], pos := 0, head := 0, tail := 0, headBlock := 0, ranges := []
    buffers :=
      if encrypted then List.replicate WINDOW_SIZE (List.replicate package.blksize 0) else [] }
  attempt package .kUncryptFileOpenError
  onlyIf encrypted (attempt package .kUncryptBlockOpenError)
  onlyIf f2fs (attempt package .kUncryptIoctlError)

/-- Writes the number of ranges and the ranges. -/
def writeMap : UncryptM Unit := do
  let s ← get
  writeString package (toText s.ranges.length ++ ['\n'])
  writeRanges package s.ranges

/-- Makes the temporary file the map file. -/
def installMap : UncryptM Unit := do
  attempt package .kUncryptFileSyncError
  attempt package .kUncryptFileCloseError
  onlyIf encrypted (attempt package .kUncryptFileSyncError)
  onlyIf encrypted (attempt package .kUncryptFileCloseError)
  attempt package .kUncryptFileRenameError
  modify fun s => { s with map := s.tmp, tmp := none }
  attempt package .kUncryptFileOpenError
  attempt package .kUncryptFileSyncError
  attempt package .kUncryptFileCloseError

/-- `produce_block_map`. Each round of the first loop moves the position, and the ring has at most
as many blocks as there are buffers. -/
def produceBlockMap (blkDev : Text) (f2fs : Bool) : UncryptM Unit := do
  openMap package blkDev
  openPackage package encrypted f2fs
  readLoop package encrypted package.data.length
  drainLoop package encrypted WINDOW_SIZE
  writeMap package
  installMap package encrypted

end BootableRecovery.Uncrypt
