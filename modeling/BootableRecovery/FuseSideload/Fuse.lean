import Mathlib.Algebra.Order.Ring.Nat

/-!
# `fuse_sideload.cpp`

The file system that serves `/sideload/package.zip` from an untrusted host: `fetch_block` brings one
block into `block_data`, checking it against the hash of its first read, and `handle_read` answers a
read request from at most two blocks. The host's `read_block` is an input of each step. Numbers are
those of the source: `uint32_t` products are taken modulo 2^32.
-/

namespace BootableRecovery.FuseSideload

/-- `SHA256Digest`. The digest is not bounded to 32 bytes here, so that an injective hash exists. -/
abbrev SHA256Digest := List UInt8

def SHA256_DIGEST_LENGTH : Nat := 32

/-- The entry of `hashes` for a block that has not been read yet. -/
def zeroDigest : SHA256Digest := List.replicate SHA256_DIGEST_LENGTH 0

def NO_STATUS : Int := 1
def ENOENT : Int := 2
def EIO : Int := 5

/-- `FUSE_ROOT_ID + 1`. -/
def PACKAGE_FILE_ID : Nat := 2

/-- `(uint32_t) -1`, the value of `curr_block` when `block_data` holds no block. -/
def noBlock : Nat := 2 ^ 32 - 1

/-- `struct fuse_data`, without the socket and the file attributes. -/
structure FuseData where
  fileSize : Nat
  blockSize : Nat
  fileBlocks : Nat
  currBlock : Nat
  blockData : List UInt8
  extraBlock : List UInt8
  hashes : List SHA256Digest
  blockCacheMaxSize : Nat
  blockCacheSize : Nat
  /-- The block cache, if there is one: for each block its cached bytes or a null pointer. -/
  blockCache : Option (List (Option (List UInt8)))

/-- What one call of the host's `read_block` does: the bytes it writes into the buffer, from its
start on, and the value it returns. -/
structure HostRead where
  bytes : List UInt8
  result : Int

/-- `memcpy(dst, src, src.size())`. -/
def overwrite (dst src : List UInt8) : List UInt8 := src ++ dst.drop src.length

def blockCacheFetch (fd : FuseData) (block : Nat) : Int × FuseData :=
  match fd.blockCache with
  | none => (-1, fd)
  | some cache =>
    match cache.getD block none with
    | none => (-1, fd)
    | some data => (0, { fd with blockData := overwrite fd.blockData (data.take fd.blockSize) })

/-- The eviction loop of `block_cache_enter`, with `n` as the `int` of the source. The result is
`none` if the loop has not ended after `fuel` rounds. -/
def evict (fd : FuseData) (cache : List (Option (List UInt8))) :
    Nat → Int → Option (List (Option (List UInt8)) × Nat)
  | 0, _ => none
  | fuel + 1, n =>
    if n = fd.currBlock then some (cache, fd.blockCacheSize)
    else
      let n := if n < 0 then (fd.fileBlocks : Int) - 1 else n
      match cache.getD n.toNat none with
      | some _ => some (cache.set n.toNat none, fd.blockCacheSize - 1)
      | none => evict fd cache fuel (n - 1)

/-- The first half of `block_cache_enter`: evict a block if the cache is full. -/
def makeRoom (fd : FuseData) (cache : List (Option (List UInt8))) :
    Option (List (Option (List UInt8)) × Nat) :=
  if fd.blockCacheSize = fd.blockCacheMaxSize then
    -- the search starts at the block behind the current one and proceeds backward
    evict fd cache (2 * fd.fileBlocks + 2) ((fd.currBlock : Int) - 1)
  else some (cache, fd.blockCacheSize)

/-- `block_cache_enter`; `none` if the eviction loop does not end. -/
def blockCacheEnter (fd : FuseData) (block : Nat) : Option FuseData :=
  match fd.blockCache with
  | none => some fd
  | some cache => (makeRoom fd cache).map fun (cache, size) =>
    { fd with
      blockCache := some (cache.set block (some (fd.blockData.take fd.blockSize)))
      blockCacheSize := size + 1 }

/-- `block * fd->block_size`, a product of two `uint32_t`. -/
def blockStart (fd : FuseData) (block : Nat) : Nat := block * fd.blockSize % 2 ^ 32

/-- How many bytes `fetch_block` asks the host for. -/
def fetchSize (fd : FuseData) (block : Nat) : Nat :=
  if blockStart fd block + fd.blockSize > fd.fileSize then fd.fileSize - blockStart fd block
  else fd.blockSize

/-- `block_data` after the padding of a last partial block and the call of `read_block`, which may
write any bytes of the `fetch_size` it was given. -/
def readBlock (fd : FuseData) (block : Nat) (host : HostRead) : List UInt8 :=
  let padded :=
    if blockStart fd block + fd.blockSize > fd.fileSize then
      fd.blockData.take (fetchSize fd block) ++
        List.replicate (fd.blockSize - fetchSize fd block) 0
    else fd.blockData
  overwrite padded (host.bytes.take (fetchSize fd block))

section
variable (sha256 : List UInt8 → SHA256Digest)

/-- `fetch_block`; `none` if it does not end. -/
def fetchBlock (fd : FuseData) (block : Nat) (host : HostRead) : Option (Int × FuseData) :=
  if block = fd.currBlock then some (0, fd)
  else if fd.fileBlocks ≤ block then
    some (0, { fd with blockData := List.replicate fd.blockSize 0, currBlock := block })
  else
    match blockCacheFetch fd block with
    | (0, fd) => some (0, { fd with currBlock := block })
    | _ =>
      let fd := { fd with blockData := readBlock fd block host }
      if host.result < 0 then some (host.result, fd)
      else
        let fd := { fd with currBlock := block }
        let hash := sha256 fd.blockData
        let blockhash := fd.hashes.getD block zeroDigest
        if hash = blockhash then some (0, fd)
        else if blockhash.any (· ≠ 0) then some (- EIO, { fd with currBlock := noBlock })
        else
          (blockCacheEnter { fd with hashes := fd.hashes.set block hash } block).map fun fd =>
            (0, fd)

/-- A read request of the kernel: `hdr->nodeid`, `req->offset` and `req->size`. -/
structure ReadRequest where
  nodeid : Nat
  offset : Nat
  size : Nat
  deriving DecidableEq

/-- `uint32_t block = offset / fd->block_size`. -/
def blockOf (fd : FuseData) (offset : Nat) : Nat := offset / fd.blockSize % 2 ^ 32

/-- `uint32_t block_offset = offset - (block * fd->block_size)`, in 64 bits and then truncated. -/
def blockOffset (fd : FuseData) (offset : Nat) : Nat :=
  (offset + 2 ^ 64 - blockStart fd (blockOf fd offset)) % 2 ^ 32

/-- `handle_read`: the status, the bytes of the reply if one was sent, and the new state; `none` if
it does not end. The two host inputs are for the two blocks that a request can touch. -/
def handleRead (fd : FuseData) (req : ReadRequest) (host₁ host₂ : HostRead) :
    Option (Int × Option (List UInt8) × FuseData) :=
  if req.nodeid ≠ PACKAGE_FILE_ID then some (-ENOENT, none, fd)
  else do
    let block := blockOf fd req.offset
    let (result, fd) ← fetchBlock sha256 fd block host₁
    if result ≠ 0 then
      return (result, none, fd)
    let offset := blockOffset fd req.offset
    if (req.size + offset) % 2 ^ 32 ≤ fd.blockSize then
      return (NO_STATUS, some ((fd.blockData.drop offset).take req.size), fd)
    let fd := { fd with
      extraBlock :=
        overwrite fd.extraBlock ((fd.blockData.drop offset).take (fd.blockSize - offset)) }
    let first := fd.extraBlock.take (fd.blockSize - offset)
    let (result, fd) ← fetchBlock sha256 fd ((block + 1) % 2 ^ 32) host₂
    if result ≠ 0 then
      return (result, none, fd)
    return (NO_STATUS, some (first ++ fd.blockData.take (req.size - (fd.blockSize - offset))), fd)

end

def INSTALL_REQUIRED_MEMORY : Nat := 400 * 1024 * 1024

/-- `fd.file_blocks`, the file size in blocks, as a `uint32_t`. -/
def numBlocks (fileSize blockSize : Nat) : Nat :=
  if fileSize = 0 then 0 else ((fileSize - 1) / blockSize + 1) % 2 ^ 32

/-- The size that `run_fuse_sideload` gives the block cache when `free_memory` returns `mem`; 0
stands for no cache, since a cache has at least two blocks. -/
def cacheMaxSize (blockSize fileBlocks mem : Nat) : Nat :=
  let avail := (mem + 2 ^ 64 - (INSTALL_REQUIRED_MEMORY + fileBlocks * 8)) % 2 ^ 64
  let maxSize := min (avail / blockSize % 2 ^ 32) fileBlocks
  if avail < mem ∧ fileBlocks / 100 ≤ maxSize ∧ 2 ≤ maxSize then maxSize else 0

/-- The state that `run_fuse_sideload` sets up before it serves requests, or `none` where it
refuses. `mem` is the result of `free_memory`, `garbage` what `malloc` leaves in `block_data`. -/
def runFuseSideload (fileSize blockSize mem : Nat) (garbage : List UInt8) : Option FuseData :=
  if blockSize < 4096 ∨ 2 ^ 22 < blockSize then none
  else if 2 ^ 18 < numBlocks fileSize blockSize then none
  else
    some {
      fileSize, blockSize
      fileBlocks := numBlocks fileSize blockSize
      currBlock := noBlock
      blockData := (garbage ++ List.replicate blockSize 0).take blockSize
      extraBlock := List.replicate blockSize 0
      hashes := List.replicate (numBlocks fileSize blockSize) zeroDigest
      blockCacheMaxSize := cacheMaxSize blockSize (numBlocks fileSize blockSize) mem
      blockCacheSize := 0
      blockCache :=
        if cacheMaxSize blockSize (numBlocks fileSize blockSize) mem = 0 then none
        else some (List.replicate (numBlocks fileSize blockSize) none) }

end BootableRecovery.FuseSideload
