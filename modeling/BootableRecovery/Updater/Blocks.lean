import BootableRecovery.Updater.Device

/-!
# Reading and writing blocks

`ReadBlocks`, `WriteBlocks`, `VerifyBlocks`, `discard_blocks` and `RangeSinkWriter` of
`updater/blockimg.cpp`. Buffers have whole blocks only, as in the source, where every size is a
multiple of `BLOCKSIZE`.
-/

namespace BootableRecovery.BlockImg

variable (env : Env)

/-- `allocate`: the buffer grows to `n` blocks if it is smaller; the new bytes are zero. -/
def allocate (n : Nat) (buffer : List Block) : List Block :=
  buffer ++ List.replicate (n - buffer.length) 0

/-- `n * BLOCKSIZE` bytes in 64 bits, as a number of blocks. Only `src_block_count` and the maximal
stash size are numbers that a list can choose so large that this matters. -/
def wrapBlocks (n : Nat) : Nat := n * BLOCKSIZE % 2 ^ 64 / BLOCKSIZE

/-- Reads the given blocks one after the other into the buffer, from position `p` on; `none` stands
for a block that cannot be read. -/
def readAll : List (Option Block) → Nat → List Block → M env (Bool × List Block)
  | [], _, buffer => return (true, buffer)
  | v :: vs, p, buffer => do
    if ← syscall env then
      match v with
      | none => return (false, buffer)
      | some v => if p < buffer.length then readAll vs (p + 1) (buffer.set p v) else abort env
    else return (false, buffer)

/-- What a read of a block of the partition gives: there is nothing after the end of the device. -/
def Env.contents (d : Disk) (b : Nat) : Option Block :=
  if b < env.blocks then some (d.part b) else none

/-- `ReadBlocks`: whether it succeeded, and the buffer after it. A failing `lseek64` of a range
counts as a failing read of its first block. -/
def readBlocks (src : RangeSet) (buffer : List Block) : M env (Bool × List Block) := do
  let d ← disk env
  readAll env (src.toList.map (env.contents d)) 0 buffer

/-- `VerifyBlocks`: the first `blocks` blocks of the buffer have this hash. -/
def verifyBlocks (expected : Text) (buffer : List Block) (blocks : Nat) : M env Bool :=
  if blocks ≤ buffer.length then return env.sha1 (buffer.take blocks) = expected else abort env

/-- The ioctl `BLKDISCARD` of a range. -/
def blkdiscard (r : Range) : M env Bool := do
  if ← syscall env then
    emit env (.discard r)
    return true
  else return false

/-- `discard_blocks`: blocks are discarded only when the update is a retry. -/
def discardBlocks (r : Range) : M env Bool := do
  if (← Prog.get).isRetry then blkdiscard env r else return true

/-- Writes one block. -/
def writeBlock (b : Nat) (v : Block) : M env Bool := do
  if ← syscall env then
    if b < env.blocks then
      emit env (.write b v)
      return true
    else return false
  else return false

/-- Writes the blocks of one range; the data that is left, or `none` on a failed write. -/
def writeRange : List Nat → List Block → M env (Option (List Block))
  | [], data => return some data
  | _ :: _, [] => abort env
  | b :: bs, v :: data => do
    if ← writeBlock env b v then writeRange bs data else return none

/-- The loop of `WriteBlocks` over the ranges. -/
def writeRanges : List Range → List Block → M env Bool
  | [], _ => return true
  | r :: rs, data => do
    if ← discardBlocks env r then
      match ← writeRange env (Range.toList r) data with
      | some data => writeRanges rs data
      | none => return false
    else return false

def writeBlocks (tgt : RangeSet) (buffer : List Block) : M env Bool :=
  writeRanges env tgt.ranges buffer

/-! ## RangeSinkWriter -/

/-- A writer into the ranges of a target: the ranges it has not begun (`next_range_` on), the
position of the device in bytes, and the members of the source. -/
structure RangeSinkWriter where
  rest : List Range
  position : Nat
  currentRangeLeft : Nat
  bytesWritten : Nat
  total : Nat

namespace RangeSinkWriter

/-- The constructor. -/
def make (tgt : RangeSet) : RangeSinkWriter where
  rest := tgt.ranges
  position := 0
  currentRangeLeft := 0
  bytesWritten := 0
  total := tgt.blocks * BLOCKSIZE

def finished (w : RangeSinkWriter) : Bool := w.rest.isEmpty && w.currentRangeLeft = 0

def availableSpace (w : RangeSinkWriter) : Nat := w.total - w.bytesWritten

/-- `SeekToOutputRange`: the writer with a range to write to, `none` if there is no more or on a
failure. -/
def seekToOutputRange (w : RangeSinkWriter) : M env (Option RangeSinkWriter) :=
  if w.currentRangeLeft ≠ 0 then return some w
  else match w.rest with
    | [] => return none
    | r :: rest => do
      if ← discardBlocks env r then
        if ← syscall env then
          return some { w with
            rest, position := r.1 * BLOCKSIZE, currentRangeLeft := (r.2 - r.1) * BLOCKSIZE }
        else return none
      else return none

/-- `write_all` of a piece at the position of the device, cut at the block boundaries. The fuel is
the number of bytes. -/
def writeAll : (fuel : Nat) → (position : Nat) → List UInt8 → M env Bool
  | 0, _, _ => return true
  | fuel + 1, position, data =>
    if data.isEmpty then return true
    else do
      let n := BLOCKSIZE - position % BLOCKSIZE
      if ← syscall env then
        if position / BLOCKSIZE < env.blocks then
          emit env (.writeBytes (position / BLOCKSIZE) (position % BLOCKSIZE) (data.take n))
          writeAll fuel (position + n) (data.drop n)
        else return false
      else return false

/-- The loop of `Write`: the writer after it and the number of bytes written. -/
def writeLoop : (fuel : Nat) → RangeSinkWriter → List UInt8 → Nat → M env (RangeSinkWriter × Nat)
  | 0, w, _, written => return (w, written)
  | fuel + 1, w, data, written =>
    if data.isEmpty then return (w, written)
    else do
      match ← seekToOutputRange env w with
      | none => return (w, written)
      | some w =>
        let now := min data.length w.currentRangeLeft
        if ← writeAll env now w.position (data.take now) then
          writeLoop fuel
            { w with position := w.position + now, currentRangeLeft := w.currentRangeLeft - now }
            (data.drop now) (written + now)
        else return (w, written)

/-- `Write`: the number of bytes written, and the writer after it. -/
def write (w : RangeSinkWriter) (data : List UInt8) : M env (RangeSinkWriter × Nat) := do
  if w.finished then return (w, 0)
  else
    let (w, written) ← writeLoop env data.length w data 0
    return ({ w with bytesWritten := w.bytesWritten + written }, written)

end RangeSinkWriter

end BootableRecovery.BlockImg
