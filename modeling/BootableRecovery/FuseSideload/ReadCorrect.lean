import BootableRecovery.FuseSideload.BlockCache

/-!
# What a read shows

With an honest host every read is answered with the bytes of the file at the offset of the request,
padded with zeros behind the end of the file, as long as the 32 bits of a block number and of a
product with the block size suffice for the blocks that are read (`ReadFits`).
-/

namespace BootableRecovery.FuseSideload

/-- The `size` bytes of a file from an offset on, padded with zeros behind its end. -/
def shown (content : List UInt8) (offset size : Nat) : List UInt8 :=
  (List.range size).map fun i => content.getD (offset + i) 0

@[simp] theorem length_shown : (shown content offset size).length = size := by simp [shown]

theorem shown_add (content : List UInt8) (offset m n : Nat) :
    shown content offset (m + n) = shown content offset m ++ shown content (offset + m) n := by
  simp only [shown, List.range_add, List.map_append, List.map_map]
  congr 1
  refine List.map_congr_left fun i _ => ?_
  simp only [Function.comp_apply, Nat.add_assoc]

theorem take_drop_shown (content : List UInt8) (offset : Nat) (h : skip + n ≤ size) :
    ((shown content offset size).drop skip).take n = shown content (offset + skip) n := by
  obtain ⟨rest, rfl⟩ := Nat.le.dest h
  rw [Nat.add_assoc, shown_add, List.drop_left' length_shown, shown_add,
    List.take_left' length_shown]

theorem shown_of_le (h : offset + size ≤ content.length) :
    shown content offset size = (content.drop offset).take size := by
  refine List.ext_getElem? fun i => ?_
  rw [shown, List.getElem?_map, List.getElem?_take]
  by_cases hi : i < size
  · rw [List.getElem?_range hi, if_pos hi, Option.map_some, List.getElem?_drop,
      List.getD_eq_getElem?_getD, List.getElem?_eq_getElem (by omega)]
    rfl
  · rw [List.getElem?_eq_none (by simpa using hi), if_neg hi, Option.map_none]

theorem shown_of_ge (h : content.length ≤ offset) :
    shown content offset size = List.replicate size 0 := by
  refine List.eq_replicate_iff.mpr ⟨length_shown, fun b hb => ?_⟩
  obtain ⟨i, _, rfl⟩ := List.mem_map.mp hb
  rw [List.getD_eq_getElem?_getD, List.getElem?_eq_none (by omega)]
  rfl

/-! ## The requests to the host and the accesses to `block_data` -/

/-- The block and the number of bytes that `fetch_block` asks the host for, if it does. -/
def hostRequest (fd : FuseData) (block : Nat) : Option (Nat × Nat) :=
  if block = fd.currBlock then none
  else if fd.fileBlocks ≤ block then none
  else
    match blockCacheFetch fd block with
    | (0, _) => none
    | _ => some (block, fetchSize fd block)

section
variable (sha256 : List UInt8 → SHA256Digest)

/-- A request spills over into the next block. -/
def Spills (fd : FuseData) (req : ReadRequest) : Prop :=
  ¬(req.size + blockOffset fd req.offset) % 2 ^ 32 ≤ fd.blockSize

instance (fd : FuseData) (req : ReadRequest) : Decidable (Spills fd req) :=
  inferInstanceAs (Decidable (¬_))

/-- All requests to the host of one `handle_read`. -/
def hostRequests (fd : FuseData) (req : ReadRequest) (host₁ : HostRead) : List (Nat × Nat) :=
  if req.nodeid ≠ PACKAGE_FILE_ID then []
  else
    (hostRequest fd (blockOf fd req.offset)).toList ++
      match fetchBlock sha256 fd (blockOf fd req.offset) host₁ with
      | some (0, fd₁) =>
        if Spills fd₁ req then (hostRequest fd₁ ((blockOf fd req.offset + 1) % 2 ^ 32)).toList
          else []
      | _ => []

/-- Start and length of each part of `block_data` that a fetch touches apart from the whole of it:
the padding of a last partial block and what the host writes. The size is a `uint64_t`. -/
def fetchAccesses (fd : FuseData) (block : Nat) : List (Nat × Nat) :=
  if blockStart fd block + fd.blockSize > fd.fileSize then
    let fetch_size := (fd.fileSize + 2 ^ 64 - blockStart fd block) % 2 ^ 64
    [(fetch_size, (fd.blockSize + 2 ^ 64 - fetch_size) % 2 ^ 64), (0, fetch_size)]
  else [(0, fd.blockSize)]

/-- The same for `handle_read`, behind its fetches: what it sends or copies of one or two blocks. -/
def replyAccesses (fd : FuseData) (req : ReadRequest) : List (Nat × Nat) :=
  let offset := blockOffset fd req.offset
  if Spills fd req then
    let first := (fd.blockSize + 2 ^ 32 - offset) % 2 ^ 32
    [(offset, first), (0, (req.size + 2 ^ 64 - first) % 2 ^ 64)]
  else [(offset, req.size)]

/-- All accesses to `block_data` of one `handle_read`, if it gets as far as the reply. -/
def accesses (fd : FuseData) (req : ReadRequest) (host₁ : HostRead) : List (Nat × Nat) :=
  if req.nodeid ≠ PACKAGE_FILE_ID then []
  else
    (hostRequests sha256 fd req host₁).flatMap (fun (block, _) => fetchAccesses fd block) ++
      replyAccesses fd req

/-- A reply to a read: some bytes, or a header with an error. -/
inductive ReadReply
  | data (bytes : List UInt8)
  | error (result : Int)
  deriving DecidableEq

/-- What is written for a result of `handle_read`: the bytes that it sends itself, and what the loop
of `run_fuse_sideload` sends for any other result than `NO_STATUS`. -/
def readReplies (result : Int) (bytes : Option (List UInt8)) : List ReadReply :=
  (bytes.map .data).toList ++ if result ≠ NO_STATUS then [.error result] else []

/-- The file system with what it has done so far: its replies, its requests to the host and the
parts of `block_data` that it has touched. -/
structure Service where
  fd : FuseData
  replies : List (ReadRequest × ReadReply)
  asked : List (Nat × Nat)
  touched : List (Nat × Nat)

/-- One read request is handled. -/
def Service.handle (s : Service) (req : ReadRequest) (host₁ host₂ : HostRead) : Option Service := do
  let (result, bytes, fd) ← handleRead sha256 s.fd req host₁ host₂
  return {
    fd
    replies := (readReplies result bytes).map (req, ·) ++ s.replies
    asked := hostRequests sha256 s.fd req host₁ ++ s.asked
    touched := accesses sha256 s.fd req host₁ ++ s.touched }

variable (content : List UInt8)

/-- An honest host serves the bytes of the file, where all that it is asked for lies in the file. -/
def Honest (fd : FuseData) (block : Nat) (host : HostRead) : Prop :=
  block * fd.blockSize + fetchSize fd block ≤ content.length →
    host.bytes = (content.drop (block * fd.blockSize)).take (fetchSize fd block) ∧ 0 ≤ host.result

/-- The two blocks that a request can touch are answered honestly. -/
def HonestRead (fd : FuseData) (req : ReadRequest) (host₁ host₂ : HostRead) : Prop :=
  Honest content fd (blockOf fd req.offset) host₁ ∧
    Honest content fd ((blockOf fd req.offset + 1) % 2 ^ 32) host₂

/-- 32 bits suffice for the block `block` of the file, counted without truncation: no block of the
file has its number taken modulo 2^32, one that is taken for a block beyond the file is beyond it,
and the start of a last partial block is not truncated. -/
structure BlockFits (fd : FuseData) (block : Nat) : Prop where
  number : block % 2 ^ 32 < fd.fileBlocks → block < 2 ^ 32
  beyond : fd.fileBlocks ≤ block % 2 ^ 32 → fd.fileSize ≤ block * fd.blockSize
  start : block % 2 ^ 32 < fd.fileBlocks →
    block * fd.blockSize < 2 ^ 32 ∨ (block + 1) * fd.blockSize ≤ fd.fileSize

/-- The condition on a request: 32 bits suffice for its one or two blocks, and the block number
`(uint32_t) -1` is not read while `block_data` holds no block but other bytes than zeros. -/
structure ReadFits (fd : FuseData) (req : ReadRequest) : Prop where
  first : BlockFits fd (req.offset / fd.blockSize)
  noBlock : blockOf fd req.offset = noBlock → fd.currBlock = noBlock →
    fd.blockData = List.replicate fd.blockSize 0
  second : Spills fd req → BlockFits fd (req.offset / fd.blockSize + 1)

/-- All read requests of at most a block to a file system that `run_fuse_sideload` has set up for a
file, with an honest host. -/
def services : System Service where
  init s := s.replies = [] ∧ s.asked = [] ∧ s.touched = [] ∧ ∃ blockSize mem garbage,
    runFuseSideload content.length blockSize mem garbage = some s.fd
  step s s' := ∃ req host₁ host₂, req.size ≤ s.fd.blockSize ∧ req.offset < 2 ^ 64 ∧
    HonestRead content s.fd req host₁ host₂ ∧ s.handle sha256 req host₁ host₂ = some s'

/-- Those whose requests meet `ReadFits`. -/
def fittingServices : System Service where
  init := (services sha256 content).init
  step s s' := ∃ req host₁ host₂, req.size ≤ s.fd.blockSize ∧ req.offset < 2 ^ 64 ∧
    HonestRead content s.fd req host₁ host₂ ∧ ReadFits s.fd req ∧
    s.handle sha256 req host₁ host₂ = some s'

/-- The reply that a read should get: the bytes of the file. Only the package can be read. -/
def rightReply (req : ReadRequest) : ReadReply :=
  if req.nodeid = PACKAGE_FILE_ID then .data (shown content req.offset req.size)
  else .error (-ENOENT)

/-- Every reply shows the file, every request to the host is for the part of the block that is in
the file, and `block_data` is only touched inside. -/
structure Service.Right (s : Service) : Prop where
  replies : ∀ req reply, (req, reply) ∈ s.replies → reply = rightReply content req
  asked : ∀ block size, (block, size) ∈ s.asked →
    size = min s.fd.blockSize (content.length - block * s.fd.blockSize)
  touched : ∀ start length, (start, length) ∈ s.touched → start + length ≤ s.fd.blockSize

end

variable {sha256 : List UInt8 → SHA256Digest} {content : List UInt8}

/-! ## Every fetch ends -/

/-- There is no block cache, or one that a fetch can make room in. -/
def Caching (sha256 : List UInt8 → SHA256Digest) (fd : FuseData) : Prop :=
  fd.blockCache = none ∨ ∃ cache, CacheInv sha256 fd cache

theorem Caching.extraBlock (h : Caching sha256 fd) (extra : List UInt8) :
    Caching sha256 { fd with extraBlock := extra } := by
  rcases h with h | ⟨cache, h⟩
  · exact .inl h
  · exact .inr ⟨cache, { h with }⟩

theorem fetchBlock_ends (hlength : ∀ data, (sha256 data).length = SHA256_DIGEST_LENGTH)
    (h : Caching sha256 fd) (hlen : fd.blockData.length = fd.blockSize) (block : Nat)
    (host : HostRead) : ∃ r fd', fetchBlock sha256 fd block host = some (r, fd') ∧
    Caching sha256 fd' := by
  rcases fetchBlock_cache block host hlen with ⟨henters, heq⟩ | ⟨_, r, fd', heq, hsame, hlen'⟩
  · rcases h with h | ⟨cache, h⟩
    · refine ⟨0, entered sha256 fd block host, ?_, .inl h⟩
      rw [heq, blockCacheEnter, show (entered sha256 fd block host).blockCache = none from h]
      rfl
    · obtain ⟨fd', cache', data, henter, _, hinv⟩ := blockCacheEnter_inv hlength h henters
      exact ⟨0, fd', by rw [heq, henter]; rfl, .inr ⟨_, hinv⟩⟩
  · refine ⟨r, fd', heq, ?_⟩
    rcases h with h | ⟨cache, h⟩
    · exact .inl (hsame.blockCache.trans h)
    · exact .inr ⟨cache, h.same hsame hlen'⟩

/-! ## One block -/

/-- What `fetch_block` takes the block with this number to hold. -/
def blockShown (content : List UInt8) (fd : FuseData) (block : Nat) : List UInt8 :=
  if fd.fileBlocks ≤ block then List.replicate fd.blockSize 0
  else shown content (block * fd.blockSize) fd.blockSize

/-- What holds of the state between requests. -/
structure Shows (sha256 : List UInt8 → SHA256Digest) (content : List UInt8) (fd : FuseData) :
    Prop where
  blockSize_pos : 0 < fd.blockSize
  blockSize_le : fd.blockSize ≤ 2 ^ 22
  fileSize : fd.fileSize = content.length
  fileBlocks : ∀ block < fd.fileBlocks, block * fd.blockSize < fd.fileSize
  fileBlocks_le : fd.fileBlocks ≤ 2 ^ 18
  hashes_length : fd.hashes.length = fd.fileBlocks
  data_length : fd.blockData.length = fd.blockSize
  curr : fd.currBlock ≠ noBlock → fd.blockData = blockShown content fd fd.currBlock
  cache : ∀ cache, fd.blockCache = some cache → ∀ b c, cache.getD b none = some c →
    c = shown content (b * fd.blockSize) fd.blockSize
  hashes : ∀ b, (fd.hashes.getD b zeroDigest).any (· ≠ 0) = true →
    fd.hashes.getD b zeroDigest = sha256 (shown content (b * fd.blockSize) fd.blockSize)

/-- A fetch leaves the sizes as they are. -/
structure SameSizes (fd fd' : FuseData) : Prop where
  blockSize : fd'.blockSize = fd.blockSize
  fileSize : fd'.fileSize = fd.fileSize
  fileBlocks : fd'.fileBlocks = fd.fileBlocks

theorem blockShown_of_lt (content : List UInt8) (h : block < fd.fileBlocks) :
    blockShown content fd block = shown content (block * fd.blockSize) fd.blockSize :=
  if_neg (Nat.not_le.mpr h)

theorem blockShown_of_ge (content : List UInt8) (h : fd.fileBlocks ≤ block) :
    blockShown content fd block = List.replicate fd.blockSize 0 :=
  if_pos h

theorem SameSizes.blockShown (h : SameSizes fd fd') :
    blockShown content fd' block = blockShown content fd block := by
  unfold FuseSideload.blockShown
  rw [h.fileBlocks, h.blockSize]

theorem BlockFits.blockShown (h : BlockFits fd block) (hsize : fd.fileSize = content.length) :
    blockShown content fd (block % 2 ^ 32) = shown content (block * fd.blockSize) fd.blockSize := by
  by_cases hb : block % 2 ^ 32 < fd.fileBlocks
  · rw [blockShown_of_lt content hb, Nat.mod_eq_of_lt (h.number hb)]
  · rw [blockShown_of_ge content (Nat.le_of_not_lt hb),
      shown_of_ge (hsize ▸ h.beyond (Nat.le_of_not_lt hb))]

/-- `fetch_size` is exact if the start of a partial block is not truncated. -/
theorem fetchSize_eq
    (hstart : block * fd.blockSize < 2 ^ 32 ∨ (block + 1) * fd.blockSize ≤ fd.fileSize)
    (hlt : block * fd.blockSize < fd.fileSize) :
    fetchSize fd block = min fd.blockSize (fd.fileSize - block * fd.blockSize) := by
  unfold fetchSize blockStart
  rcases hstart with hstart | hstart
  · rw [Nat.mod_eq_of_lt hstart]
    split <;> omega
  · rw [Nat.succ_mul] at hstart
    have := Nat.mod_le (block * fd.blockSize) (2 ^ 32)
    rw [if_neg (by omega)]
    omega

theorem readBlock_eq (hlen : fd.blockData.length = fd.blockSize)
    (hb : host.bytes.length = fetchSize fd block) :
    readBlock fd block host =
    host.bytes ++ List.replicate (fd.blockSize - fetchSize fd block) 0 := by
  have hle := fetchSize_le fd block
  unfold readBlock
  rw [List.take_of_length_le (Nat.le_of_eq hb), overwrite]
  split
  · have htake : (fd.blockData.take (fetchSize fd block)).length = host.bytes.length := by
      rw [List.length_take, hlen, hb]
      omega
    rw [List.drop_left' htake]
  · rename_i hfull
    have hsize : fetchSize fd block = fd.blockSize := if_neg hfull
    rw [hb, hsize, ← hlen, List.drop_length, Nat.sub_self]
    rfl

theorem readBlock_shown (h : Shows sha256 content fd) (hblock : block < fd.fileBlocks)
    (hstart : block * fd.blockSize < 2 ^ 32 ∨ (block + 1) * fd.blockSize ≤ fd.fileSize)
    (hh : Honest content fd block host) :
    0 ≤ host.result ∧ readBlock fd block host =
    shown content (block * fd.blockSize) fd.blockSize := by
  have hlt := h.fileBlocks block hblock
  have hsize := fetchSize_eq hstart hlt
  have hle : block * fd.blockSize + fetchSize fd block ≤ content.length := by
    rw [hsize, ← h.fileSize]
    omega
  obtain ⟨hbytes, hresult⟩ := hh hle
  rw [← shown_of_le hle] at hbytes
  refine ⟨hresult, ?_⟩
  rw [readBlock_eq h.data_length (by rw [hbytes, length_shown]), hbytes]
  have hsplit := shown_add content (block * fd.blockSize) (fetchSize fd block)
    (fd.blockSize - fetchSize fd block)
  rw [Nat.add_sub_cancel' (fetchSize_le fd block)] at hsplit
  rw [hsplit]
  congr 1
  by_cases hfull : fd.blockSize - fetchSize fd block = 0
  · rw [hfull]
    rfl
  · refine (shown_of_ge ?_).symm
    rw [← h.fileSize]
    omega

theorem Shows.setData (h : Shows sha256 content fd) (hd : data = blockShown content fd block) :
    Shows sha256 content { fd with blockData := data, currBlock := block } where
  blockSize_pos := h.blockSize_pos
  blockSize_le := h.blockSize_le
  fileSize := h.fileSize
  fileBlocks := h.fileBlocks
  fileBlocks_le := h.fileBlocks_le
  hashes_length := h.hashes_length
  data_length := by
    rw [hd, blockShown]
    split <;> simp
  curr := fun _ => hd
  cache := h.cache
  hashes := h.hashes

theorem Shows.setExtra (h : Shows sha256 content fd) (extra : List UInt8) :
    Shows sha256 content { fd with extraBlock := extra } := { h with }

theorem Shows.setHash (h : Shows sha256 content fd) (hblock : block < fd.fileBlocks) :
    Shows sha256 content { fd with
      hashes :=
  fd.hashes.set block (sha256 (shown content (block * fd.blockSize) fd.blockSize)) } := by
  refine { h with hashes_length := by simpa using h.hashes_length, hashes := fun b hb => ?_ }
  by_cases hbb : b = block
  · subst b
    rw [List.getD_eq_getElem?_getD, List.getElem?_set_self (h.hashes_length ▸ hblock)]
    rfl
  · rw [List.getD_eq_getElem?_getD, List.getElem?_set_ne (Ne.symm hbb),
      ← List.getD_eq_getElem?_getD] at hb ⊢
    exact h.hashes b hb

theorem Shows.enter (h : Shows sha256 content fd)
    (hd : fd.blockData = shown content (block * fd.blockSize) fd.blockSize)
    (he : blockCacheEnter fd block = some fd') :
    Shows sha256 content fd' ∧ SameSizes fd fd' ∧ fd'.blockData = fd.blockData ∧
      fd'.currBlock = fd.currBlock := by
  obtain ⟨⟨cache, size, rfl⟩, hentries⟩ := blockCacheEnter_spec he
  refine ⟨{ h with cache := fun cache' hcache' b c hbc => ?_ }, ⟨rfl, rfl, rfl⟩, rfl, rfl⟩
  rcases hentries cache' hcache' b c hbc with ⟨rfl, rfl⟩ | ⟨cache₀, hcache₀, hbc₀⟩
  · rw [List.take_of_length_le (Nat.le_of_eq h.data_length)]
    exact hd
  · exact h.cache cache₀ hcache₀ b c hbc₀

/-- The condition on a fetch under which it leaves what the block shows. -/
structure FetchFits (fd : FuseData) (block : Nat) : Prop where
  start : block < fd.fileBlocks →
    block * fd.blockSize < 2 ^ 32 ∨ (block + 1) * fd.blockSize ≤ fd.fileSize
  noBlock : block = noBlock → fd.currBlock = noBlock → fd.blockData = List.replicate fd.blockSize 0

/-- **One fetch** from an honest host succeeds and leaves what the block shows. -/
theorem fetchBlock_shows (h : Shows sha256 content fd) (hfit : FetchFits fd block)
    (hh : Honest content fd block host) (he : fetchBlock sha256 fd block host = some (r, fd')) :
    Shows sha256 content fd' ∧ SameSizes fd fd' ∧ r = 0 ∧
    fd'.blockData = blockShown content fd block ∧
      fd'.currBlock = block := by
  unfold fetchBlock at he
  by_cases hcur : block = fd.currBlock
  · -- the current block
    rw [if_pos hcur] at he
    cases he
    refine ⟨h, ⟨rfl, rfl, rfl⟩, rfl, ?_, hcur.symm⟩
    by_cases hb : block = noBlock
    · have hge : fd.fileBlocks ≤ block := by
        have := h.fileBlocks_le
        rw [hb, noBlock]
        omega
      rw [hfit.noBlock hb (hcur ▸ hb), blockShown_of_ge content hge]
    · rw [h.curr (hcur ▸ hb), hcur]
  rw [if_neg hcur] at he
  by_cases hblock : fd.fileBlocks ≤ block
  · -- beyond the end of the file
    rw [if_pos hblock] at he
    cases he
    have hd := (blockShown_of_ge content hblock).symm
    exact ⟨h.setData hd, ⟨rfl, rfl, rfl⟩, rfl, hd, rfl⟩
  rw [if_neg hblock] at he
  have hlt := Nat.lt_of_not_le hblock
  have hshown := blockShown_of_lt content hlt
  split at he
  · -- a cached block
    rename_i fd₁ hfetch
    cases he
    obtain ⟨cache, data, hcache, hdata, rfl⟩ := blockCacheFetch_zero hfetch
    obtain rfl := h.cache cache hcache block data hdata
    have hd :
        overwrite fd.blockData
        ((shown content (block * fd.blockSize) fd.blockSize).take fd.blockSize) =
        blockShown content fd block := by
      rw [List.take_of_length_le (Nat.le_of_eq length_shown),
        overwrite_of_length_eq (length_shown.trans h.data_length.symm), hshown]
    exact ⟨h.setData hd, ⟨rfl, rfl, rfl⟩, rfl, hd, rfl⟩
  · -- the host is asked
    obtain ⟨hresult, hread⟩ := readBlock_shown h hlt (hfit.start hlt) hh
    rw [hread, if_neg (by omega)] at he
    have hd := hshown.symm
    by_cases hhash : sha256 (shown content (block * fd.blockSize) fd.blockSize) =
      fd.hashes.getD block zeroDigest
    · rw [if_pos hhash] at he
      cases he
      exact ⟨h.setData hd, ⟨rfl, rfl, rfl⟩, rfl, hd, rfl⟩
    rw [if_neg hhash] at he
    split at he
    · -- a recorded hash is that of the block
      rename_i hany
      exact absurd (h.hashes block hany).symm hhash
    · obtain ⟨fd₁, henter, heq⟩ := Option.map_eq_some_iff.mp he
      cases heq
      obtain ⟨hshows, hsizes, hdata, hcurr⟩ := ((h.setData hd).setHash hlt).enter rfl henter
      exact ⟨hshows, ⟨hsizes.1, hsizes.2, hsizes.3⟩, rfl, hdata.trans hd, hcurr⟩

theorem BlockFits.fetchFits (h : BlockFits fd block)
    (hno : block % 2 ^ 32 = noBlock → fd.currBlock = noBlock →
      fd.blockData = List.replicate fd.blockSize 0) : FetchFits fd (block % 2 ^ 32) where
  start hb := by
    rw [Nat.mod_eq_of_lt (h.number hb)]
    exact h.start hb
  noBlock := hno

theorem BlockFits.same (h : BlockFits fd block) (hs : SameSizes fd fd') : BlockFits fd' block where
  number := by rw [hs.fileBlocks]; exact h.number
  beyond := by rw [hs.fileBlocks, hs.fileSize, hs.blockSize]; exact h.beyond
  start := by rw [hs.fileBlocks, hs.fileSize, hs.blockSize]; exact h.start

theorem Honest.same (h : Honest content fd block host) (hs : SameSizes fd fd') :
    Honest content fd' block host := by
  unfold Honest fetchSize blockStart at *
  rw [hs.blockSize, hs.fileSize]
  exact h

/-! ## One request -/

theorem blockOffset_shows (h : Shows sha256 content fd) (offset : Nat) :
    blockOffset fd offset = offset % fd.blockSize :=
  blockOffset_eq h.blockSize_pos h.blockSize_le offset

theorem spills_iff (h : Shows sha256 content fd) (hsize : req.size ≤ fd.blockSize) :
    Spills fd req ↔ fd.blockSize < req.size + req.offset % fd.blockSize := by
  have hlt := Nat.mod_lt req.offset h.blockSize_pos
  have hle := h.blockSize_le
  unfold Spills
  rw [blockOffset_shows h, Nat.mod_eq_of_lt (by omega), Nat.not_le]

theorem part_shown (h : Shows sha256 content fd) (hfit : BlockFits fd block)
    (hd : data = blockShown content fd (block % 2 ^ 32)) (hle : skip + n ≤ fd.blockSize) :
    (data.drop skip).take n = shown content (block * fd.blockSize + skip) n := by
  rw [hd, hfit.blockShown h.fileSize, take_drop_shown _ _ hle]

/-- The next block of a request that spills over, when its first block has been fetched. -/
theorem ReadFits.next (h : Shows sha256 content fd) (hsize : req.size ≤ fd.blockSize)
    (hh : HonestRead content fd req host₁ host₂) (hfit : ReadFits fd req)
    (h₁ : fetchBlock sha256 fd (blockOf fd req.offset) host₁ = some (r₁, fd₁))
    (hspill : Spills fd₁ req) (extra : List UInt8) :
    FetchFits { fd₁ with extraBlock := extra } ((blockOf fd req.offset + 1) % 2 ^ 32) ∧
      Honest content { fd₁ with extraBlock := extra } ((blockOf fd req.offset + 1) % 2 ^ 32)
      host₂ := by
  obtain ⟨hshows₁, hsame₁, _, _, hcurr₁⟩ :=
    fetchBlock_shows h (hfit.first.fetchFits hfit.noBlock) hh.1 h₁
  have hsame : SameSizes fd { fd₁ with extraBlock := extra } := ⟨hsame₁.1, hsame₁.2, hsame₁.3⟩
  rw [spills_iff hshows₁ (by rw [hsame₁.blockSize]; exact hsize), hsame₁.blockSize,
    ← spills_iff h hsize] at hspill
  refine ⟨?_, hh.2.same hsame⟩
  rw [blockOf, Nat.mod_add_mod]
  refine ((hfit.second hspill).same hsame).fetchFits fun hb hc => ?_
  -- the first block is the current one, and the next one has another number
  replace hc : fd₁.currBlock = FuseSideload.noBlock := hc
  rw [hcurr₁, FuseSideload.noBlock] at hc
  rw [FuseSideload.noBlock] at hb
  omega

theorem handleRead_shows (h : Shows sha256 content fd) (hsize : req.size ≤ fd.blockSize)
    (hh : HonestRead content fd req host₁ host₂) (hfit : ReadFits fd req)
    (he : handleRead sha256 fd req host₁ host₂ = some (status, reply, fd')) :
    Shows sha256 content fd' ∧ SameSizes fd fd' ∧
      ∀ bytes, reply = some bytes → bytes = shown content req.offset req.size := by
  rcases handleRead_cases he with ⟨rfl, rfl⟩ | ⟨r₁, fd₁, h₁, hcase⟩
  · exact ⟨h, ⟨rfl, rfl, rfl⟩, fun _ h => nomatch h⟩
  obtain ⟨hshows₁, hsame₁, rfl, hdata₁, hcurr₁⟩ :=
    fetchBlock_shows h (hfit.first.fetchFits hfit.noBlock) hh.1 h₁
  have hdiv :
      req.offset = req.offset / fd.blockSize * fd.blockSize + req.offset % fd.blockSize := by
    rw [Nat.mul_comm]
    exact (Nat.div_add_mod ..).symm
  have hlt := Nat.mod_lt req.offset h.blockSize_pos
  have hoff : blockOffset fd₁ req.offset = req.offset % fd.blockSize := by
    rw [blockOffset_shows hshows₁, hsame₁.blockSize]
  have hspills : Spills fd₁ req ↔ _ := spills_iff hshows₁ (by rw [hsame₁.blockSize]; exact hsize)
  unfold Spills at hspills
  rw [hsame₁.blockSize, hoff] at hspills
  rw [hoff] at hcase
  generalize hq : req.offset % fd.blockSize = off at hdiv hlt hoff hspills hcase
  rcases hcase with ⟨rfl, rfl⟩ | ⟨_, hfits, rfl, rfl⟩ | ⟨_, hspill, extra, r₂, h₂, hreply⟩
  · exact ⟨hshows₁, hsame₁, fun _ h => nomatch h⟩
  · -- the request lies in one block
    refine ⟨hshows₁, hsame₁, fun bytes hb => ?_⟩
    cases hb
    rw [hsame₁.blockSize] at hfits
    have hle : off + req.size ≤ fd.blockSize := by
      have := mt hspills.mpr (not_not_intro hfits)
      omega
    rw [part_shown h hfit.first hdata₁ hle, ← hdiv]
  · -- it spills over
    rw [hsame₁.blockSize] at hspill
    have hlt₂ := hspills.mp hspill
    have hspills₁ : Spills fd₁ req := by
      rw [Spills, hoff, hsame₁.blockSize]
      exact hspill
    have hsecond : BlockFits fd (req.offset / fd.blockSize + 1) :=
      hfit.second ((spills_iff h hsize).mpr (hq ▸ hlt₂))
    have hnext :
        (blockOf fd req.offset + 1) % 2 ^ 32 = (req.offset / fd.blockSize + 1) % 2 ^ 32 := by
      rw [blockOf, Nat.mod_add_mod]
    have hshows₁' := hshows₁.setExtra extra
    have hsame₁' : SameSizes fd { fd₁ with extraBlock := extra } := ⟨hsame₁.1, hsame₁.2, hsame₁.3⟩
    obtain ⟨hfits₂, hhost⟩ := hfit.next h hsize hh h₁ hspills₁ extra
    obtain ⟨hshows₂, hsame₂, rfl, hdata₂, _⟩ := fetchBlock_shows hshows₁' hfits₂ hhost h₂
    rw [hnext] at hdata₂
    have hsame : SameSizes fd fd' :=
      ⟨hsame₂.1.trans hsame₁.1, hsame₂.2.trans hsame₁.2, hsame₂.3.trans hsame₁.3⟩
    refine ⟨hshows₂, hsame, fun bytes hb => ?_⟩
    rcases hreply with rfl | ⟨_, first, hfirst, rfl⟩
    · cases hb
    cases hb
    -- the first part is the end of the first block
    have hpart : (fd₁.blockData.drop off).take (fd.blockSize - off) =
        shown content (req.offset / fd.blockSize * fd.blockSize + off) (fd.blockSize - off) :=
      part_shown h hfit.first hdata₁ (by omega)
    rw [← hdiv] at hpart
    rw [hsame₁.blockSize, hpart, overwrite, List.take_left' length_shown] at hfirst
    have hrest : (fd'.blockData.drop 0).take (req.size - (fd.blockSize - off)) =
        shown content ((req.offset / fd.blockSize + 1) * fd.blockSize + 0)
        (req.size - (fd.blockSize - off)) :=
      part_shown h hsecond (hdata₂.trans hsame₁'.blockShown) (by omega)
    rw [List.drop_zero] at hrest
    rw [hfirst, hsame.blockSize, hrest, Nat.succ_mul, Nat.add_zero]
    have hstart :
        req.offset / fd.blockSize * fd.blockSize + fd.blockSize =
        req.offset + (fd.blockSize - off) := by
      omega
    rw [hstart, ← shown_add]
    congr 1
    omega

theorem handleRead_of_not_spills (hid : req.nodeid = PACKAGE_FILE_ID)
    (h₁ : fetchBlock sha256 fd (blockOf fd req.offset) host₁ = some (0, fd₁))
    (hspill : ¬Spills fd₁ req) : handleRead sha256 fd req host₁ host₂ =
      some (NO_STATUS, some ((fd₁.blockData.drop (blockOffset fd₁ req.offset)).take req.size),
        fd₁) := by
  unfold handleRead
  rw [if_neg (not_not_intro hid)]
  refine Option.bind_eq_some_iff.mpr ⟨(0, fd₁), h₁, ?_⟩
  exact (if_neg (not_not_intro rfl)).trans (if_pos (Decidable.of_not_not hspill))

/-- What a request that spills over leaves in `extra_block`. -/
def extraOf (fd : FuseData) (req : ReadRequest) : List UInt8 :=
  overwrite fd.extraBlock
    ((fd.blockData.drop (blockOffset fd req.offset)).take
      (fd.blockSize - blockOffset fd req.offset))

theorem handleRead_of_spills (hid : req.nodeid = PACKAGE_FILE_ID)
    (h₁ : fetchBlock sha256 fd (blockOf fd req.offset) host₁ = some (0, fd₁))
    (hspill : Spills fd₁ req)
    (h₂ : fetchBlock sha256 { fd₁ with extraBlock := extraOf fd₁ req }
      ((blockOf fd req.offset + 1) % 2 ^ 32) host₂ = some (0, fd₂)) :
    handleRead sha256 fd req host₁ host₂ = some (NO_STATUS,
      some ((extraOf fd₁ req).take (fd₁.blockSize - blockOffset fd₁ req.offset) ++
        fd₂.blockData.take (req.size - (fd₂.blockSize - blockOffset fd₁ req.offset))), fd₂) := by
  unfold handleRead
  rw [if_neg (not_not_intro hid)]
  refine Option.bind_eq_some_iff.mpr ⟨(0, fd₁), h₁, ?_⟩
  refine (if_neg (not_not_intro rfl)).trans ((if_neg hspill).trans ?_)
  refine Option.bind_eq_some_iff.mpr ⟨(0, fd₂), h₂, ?_⟩
  exact if_neg (not_not_intro rfl)

theorem handleRead_answers (hlength : ∀ data, (sha256 data).length = SHA256_DIGEST_LENGTH)
    (h : Shows sha256 content fd) (hcaching : Caching sha256 fd) (hsize : req.size ≤ fd.blockSize)
    (hh : HonestRead content fd req host₁ host₂) (hfit : ReadFits fd req) :
    ∃ result bytes fd', handleRead sha256 fd req host₁ host₂ = some (result, bytes, fd') ∧
      Caching sha256 fd' ∧ readReplies result bytes = [rightReply content req] := by
  by_cases hid : req.nodeid = PACKAGE_FILE_ID
  · suffices hsent :
        ∃ bytes fd', handleRead sha256 fd req host₁ host₂ = some (NO_STATUS, some bytes, fd') ∧
        Caching sha256 fd' by
      obtain ⟨bytes, fd', he, hcaching'⟩ := hsent
      obtain ⟨_, _, hbytes⟩ := handleRead_shows h hsize hh hfit he
      refine ⟨NO_STATUS, some bytes, fd', he, hcaching', ?_⟩
      rw [rightReply, if_pos hid, ← hbytes bytes rfl]
      simp [readReplies]
    obtain ⟨r₁, fd₁, h₁, hcaching₁⟩ :=
      fetchBlock_ends hlength hcaching h.data_length (blockOf fd req.offset) host₁
    obtain ⟨hshows₁, hsame₁, rfl, _, _⟩ :=
      fetchBlock_shows h (hfit.first.fetchFits hfit.noBlock) hh.1 h₁
    by_cases hspill : Spills fd₁ req
    · -- the next block is fetched, too
      obtain ⟨hfits₂, hhost₂⟩ := hfit.next h hsize hh h₁ hspill (extraOf fd₁ req)
      have hshows₁' := hshows₁.setExtra (extraOf fd₁ req)
      obtain ⟨r₂, fd₂, h₂, hcaching₂⟩ := fetchBlock_ends hlength
        (hcaching₁.extraBlock (extraOf fd₁ req)) hshows₁'.data_length
          ((blockOf fd req.offset + 1) % 2 ^ 32) host₂
      obtain ⟨_, _, rfl, _, _⟩ := fetchBlock_shows hshows₁' hfits₂ hhost₂ h₂
      exact ⟨_, fd₂, handleRead_of_spills hid h₁ hspill h₂, hcaching₂⟩
    · exact ⟨_, fd₁, handleRead_of_not_spills hid h₁ hspill, hcaching₁⟩
  · refine ⟨-ENOENT, none, fd, if_pos hid, hcaching, ?_⟩
    rw [rightReply, if_neg hid]
    simp [readReplies, ENOENT, NO_STATUS]

/-! ## Requests to the host and accesses -/

theorem hostRequest_shows (h : Shows sha256 content fd)
    (hstart : block < fd.fileBlocks → block * fd.blockSize < 2 ^ 32 ∨
      (block + 1) * fd.blockSize ≤ fd.fileSize) (hr : hostRequest fd block = some (b, size)) :
    b = block ∧ block < fd.fileBlocks ∧
    size = min fd.blockSize (content.length - b * fd.blockSize) := by
  unfold hostRequest at hr
  split at hr
  · cases hr
  split at hr
  · cases hr
  rename_i hblock
  have hlt := Nat.lt_of_not_le hblock
  split at hr
  · cases hr
  · cases hr
    exact ⟨rfl, hlt, by rw [fetchSize_eq (hstart hlt) (h.fileBlocks _ hlt), h.fileSize]⟩

/-- The accesses of a fetch of a block of the file stay inside, whether its start is truncated or
not. -/
theorem fetchAccesses_inside (h : Shows sha256 content fd) (hblock : block < fd.fileBlocks)
    (hmem : (start, length) ∈ fetchAccesses fd block) : start + length ≤ fd.blockSize := by
  have hlt := h.fileBlocks block hblock
  have hbs := h.blockSize_le
  have hle : blockStart fd block ≤ block * fd.blockSize := Nat.mod_le ..
  have hstart : blockStart fd block < 2 ^ 32 := Nat.mod_lt _ (by decide)
  unfold fetchAccesses at hmem
  split at hmem
  · simp only [List.mem_cons, Prod.mk.injEq, List.not_mem_nil, or_false] at hmem
    omega
  · simp only [List.mem_cons, Prod.mk.injEq, List.not_mem_nil, or_false] at hmem
    omega

theorem replyAccesses_inside (h : Shows sha256 content fd) (hsize : req.size ≤ fd.blockSize)
    (hmem : (start, length) ∈ replyAccesses fd req) : start + length ≤ fd.blockSize := by
  have hlt := Nat.mod_lt req.offset h.blockSize_pos
  have hbs := h.blockSize_le
  unfold replyAccesses at hmem
  rw [blockOffset_shows h] at hmem
  simp only [spills_iff h hsize] at hmem
  generalize req.offset % fd.blockSize = off at hlt hmem
  split at hmem
  · simp only [List.mem_cons, Prod.mk.injEq, List.not_mem_nil, or_false] at hmem
    omega
  · simp only [List.mem_cons, Prod.mk.injEq, List.not_mem_nil, or_false] at hmem
    omega

theorem hostRequests_shows (h : Shows sha256 content fd) (hsize : req.size ≤ fd.blockSize)
    (hh : HonestRead content fd req host₁ host₂) (hfit : ReadFits fd req)
    (hmem : (b, size) ∈ hostRequests sha256 fd req host₁) :
    b < fd.fileBlocks ∧ size = min fd.blockSize (content.length - b * fd.blockSize) := by
  unfold hostRequests at hmem
  split at hmem
  · cases hmem
  rcases List.mem_append.mp hmem with hmem | hmem
  · obtain ⟨rfl, hlt, hsize⟩ :=
      hostRequest_shows h (hfit.first.fetchFits hfit.noBlock).start (Option.mem_toList.mp hmem)
    exact ⟨hlt, hsize⟩
  · split at hmem
    · rename_i fd₁ h₁
      obtain ⟨hshows₁, hsame₁, _, _, _⟩ :=
        fetchBlock_shows h (hfit.first.fetchFits hfit.noBlock) hh.1 h₁
      split at hmem
      · rename_i hspill
        have hstart := (hfit.next h hsize hh h₁ hspill fd₁.extraBlock).1.start
        obtain ⟨rfl, hlt, hsize⟩ := hostRequest_shows hshows₁ hstart (Option.mem_toList.mp hmem)
        rw [hsame₁.fileBlocks] at hlt
        rw [hsame₁.blockSize] at hsize
        exact ⟨hlt, hsize⟩
      · cases hmem
    · cases hmem

/-! ## Runs -/

theorem runFuseSideload_shows (h : runFuseSideload content.length blockSize mem garbage = some fd) :
    Shows sha256 content fd := by
  unfold runFuseSideload at h
  split at h
  · cases h
  split at h
  · cases h
  cases h
  refine ⟨by dsimp only; omega, by dsimp only; omega, rfl, fun block hb => ?_, by dsimp only; omega,
    by simp, by simp, fun hne => absurd rfl hne, fun cache hcache b c hbc => ?_, fun b hb => ?_⟩
  · -- the truncated number of blocks is not larger than the right one
    dsimp only [numBlocks] at hb ⊢
    split at hb
    · cases hb
    · have hle := Nat.mod_le ((content.length - 1) / blockSize + 1) (2 ^ 32)
      have hdiv : block ≤ (content.length - 1) / blockSize := by omega
      have := (Nat.le_div_iff_mul_le (by omega)).mp hdiv
      omega
  · dsimp only at hcache
    split at hcache
    · cases hcache
    · cases hcache
      rw [List.getD_eq_getElem?_getD, List.getElem?_replicate] at hbc
      split at hbc <;> cases hbc
  · dsimp only at hb
    rw [List.getD_eq_getElem?_getD, List.getElem?_replicate] at hb
    split at hb <;> exact absurd hb (by decide)

theorem runFuseSideload_caching (h : runFuseSideload fileSize blockSize mem garbage = some fd) :
    Caching sha256 fd := by
  by_cases hnone : fd.blockCache = none
  · exact .inl hnone
  · exact .inr (runFuseSideload_cacheInv h hnone)

section
variable (hlength : ∀ data, (sha256 data).length = SHA256_DIGEST_LENGTH)
include hlength

theorem fittingServices_inductive : (fittingServices sha256 content).Inductive fun s =>
    Shows sha256 content s.fd ∧ Caching sha256 s.fd ∧ s.Right content where
  init s h := by
    obtain ⟨hr, ha, ht, blockSize, mem, garbage, h⟩ := h
    exact ⟨runFuseSideload_shows h, runFuseSideload_caching h,
      by simp [hr], by simp [ha], by simp [ht]⟩
  step s s' h hs := by
    obtain ⟨hinv, hcaching, hright⟩ := h
    obtain ⟨req, host₁, host₂, hsize, _, hh, hfit, hs⟩ := hs
    obtain ⟨⟨result, bytes, fd'⟩, he, hs⟩ := Option.bind_eq_some_iff.mp hs
    cases hs
    obtain ⟨hinv', hsame, _⟩ := handleRead_shows hinv hsize hh hfit he
    obtain ⟨_, _, _, he', hcaching', hreplies⟩ :=
      handleRead_answers hlength hinv hcaching hsize hh hfit
    cases he.symm.trans he'
    refine ⟨hinv', hcaching', fun r reply hmem => ?_, fun b size hmem =>
      ?_, fun start length hmem => ?_⟩
    · dsimp only at hmem
      rw [hreplies] at hmem
      rcases List.mem_append.mp hmem with hmem | hmem
      · cases List.mem_singleton.mp hmem
        rfl
      · exact hright.replies r reply hmem
    · rw [hsame.blockSize]
      rcases List.mem_append.mp hmem with hmem | hmem
      · exact (hostRequests_shows hinv hsize hh hfit hmem).2
      · exact hright.asked b size hmem
    · rw [hsame.blockSize]
      rcases List.mem_append.mp hmem with hmem | hmem
      · unfold accesses at hmem
        split at hmem
        · cases hmem
        rcases List.mem_append.mp hmem with hmem | hmem
        · obtain ⟨⟨b, size⟩, hb, hmem⟩ := List.mem_flatMap.mp hmem
          exact fetchAccesses_inside hinv (hostRequests_shows hinv hsize hh hfit hb).1 hmem
        · exact replyAccesses_inside hinv hsize hmem
      · exact hright.touched start length hmem

/-- **Reads are right.** With an honest host, and where 32 bits suffice for every request, all
replies show the file, the host is asked for what the file has of a block, and `block_data` is not
left. The next read is answered, too, with one reply. -/
theorem fittingServices_right (h : (fittingServices sha256 content).Reach s) :
    s.Right content ∧ ∀ req host₁ host₂, req.size ≤ s.fd.blockSize →
      HonestRead content s.fd req host₁ host₂ → ReadFits s.fd req →
      ∃ s', s.handle sha256 req host₁ host₂ = some s' ∧
        s'.replies = (req, rightReply content req) :: s.replies := by
  obtain ⟨hinv, hcaching, hright⟩ := (fittingServices_inductive hlength).reach h
  refine ⟨hright, fun req host₁ host₂ hsize hh hfit => ?_⟩
  obtain ⟨result, bytes, fd', he, _, hreplies⟩ :=
    handleRead_answers hlength hinv hcaching hsize hh hfit
  refine ⟨_, by rw [Service.handle, he]; rfl, ?_⟩
  dsimp only
  rw [hreplies]
  rfl

end

theorem cacheMaxSize_zero (blockSize fileBlocks : Nat) :
    cacheMaxSize blockSize fileBlocks 0 = 0 := by
  unfold cacheMaxSize
  exact if_neg fun h => Nat.not_lt_zero _ h.1

/-- The first steps of a fresh file system without a cache, whose first host request fails. -/
theorem handle_of_failure (sha256 : List UInt8 → SHA256Digest) (req : ReadRequest)
    (host₁ host₂ : HostRead) (h : runFuseSideload content.length blockSize 0 garbage = some fd)
    (hid : req.nodeid = PACKAGE_FILE_ID) (hblock : blockOf fd req.offset < fd.fileBlocks)
    (hr : host₁.result < 0) :
    ∃ s', (Service.mk fd [] [] []).handle sha256 req host₁ host₂ = some s' ∧
      s'.fd.blockSize = fd.blockSize ∧
      (blockOf fd req.offset, fetchSize fd (blockOf fd req.offset)) ∈ s'.asked := by
  have hshows : Shows sha256 content fd := runFuseSideload_shows h
  have hle := hshows.fileBlocks_le
  have hcurr : fd.currBlock = noBlock ∧ fd.blockCache = none := by
    unfold runFuseSideload at h
    split at h
    · cases h
    split at h
    · cases h
    cases h
    refine ⟨rfl, ?_⟩
    dsimp only
    rw [cacheMaxSize_zero, if_pos rfl]
  have hne : blockOf fd req.offset ≠ fd.currBlock := by
    rw [hcurr.1, noBlock]
    omega
  have hfetch : fetchBlock sha256 fd (blockOf fd req.offset) host₁ =
      some (host₁.result, { fd with blockData := readBlock fd (blockOf fd req.offset) host₁ }) := by
    unfold fetchBlock blockCacheFetch
    rw [if_neg hne, if_neg (Nat.not_le.mpr hblock), hcurr.2]
    exact if_pos hr
  have hrequest : hostRequest fd (blockOf fd req.offset) =
      some (blockOf fd req.offset, fetchSize fd (blockOf fd req.offset)) := by
    unfold hostRequest blockCacheFetch
    rw [if_neg hne, if_neg (Nat.not_le.mpr hblock), hcurr.2]
    rfl
  have hread : handleRead sha256 fd req host₁ host₂ =
      some (host₁.result, none,
        { fd with blockData := readBlock fd (blockOf fd req.offset) host₁ }) := by
    unfold handleRead
    rw [if_neg (not_not_intro hid)]
    dsimp only
    rw [hfetch]
    exact if_pos (by omega)
  refine ⟨_, by rw [Service.handle, hread]; rfl, rfl, ?_⟩
  refine List.mem_append_left _ ?_
  unfold hostRequests
  rw [if_neg (not_not_intro hid), hrequest]
  exact List.mem_append_left _ (List.mem_singleton_self _)

/-- For the last byte of a file of 4 GiB and one byte, the host is asked for a whole block. -/
theorem exists_not_right (sha256 : List UInt8 → SHA256Digest) (hlen : content.length = 2 ^ 32 + 1) :
    ∃ s, (services sha256 content).Reach s ∧ ¬s.Right content := by
  have hrun : ∃ fd, runFuseSideload content.length 32768 0 [] = some fd ∧ fd.fileSize = 2 ^ 32 + 1 ∧
      fd.blockSize = 32768 ∧ fd.fileBlocks = 131073 := by
    rw [hlen]
    exact ⟨_, rfl, rfl, rfl, rfl⟩
  obtain ⟨fd, hfd, hsize, hbs, hblocks⟩ := hrun
  have hblock : blockOf fd (2 ^ 32) = 131072 := by
    rw [blockOf, hbs]
    decide
  have hfetch : fetchSize fd 131072 = 32768 := by simp [fetchSize, blockStart, hbs, hsize]
  obtain ⟨s', hs', hbs', hasked⟩ := handle_of_failure sha256 ⟨PACKAGE_FILE_ID, 2 ^ 32, 1⟩
    ⟨[], - EIO⟩ ⟨[], - EIO⟩ hfd rfl (by rw [hblock, hblocks]; decide) (by decide)
  have hhonest : HonestRead content fd ⟨PACKAGE_FILE_ID, 2 ^ 32, 1⟩ ⟨[], - EIO⟩ ⟨[], - EIO⟩ := by
    constructor
    · intro hle
      rw [hblock, hfetch, hbs, hlen] at hle
      omega
    · intro hle
      rw [hblock, hbs, hlen] at hle
      omega
  refine ⟨s', .step (.init ⟨rfl, rfl, rfl, 32768, 0, [], hfd⟩) ⟨_, _, _, ?_, ?_, hhonest, hs'⟩,
    fun hright => ?_⟩
  · rw [hbs]
    decide
  · decide
  · have := hright.asked _ _ hasked
    rw [hbs', hblock, hfetch, hbs, hlen] at this
    omega

/-- A read across the end of the first block of a file of a block and one byte, which it also
leaves. -/
theorem fittingServices_right_sevens :
    ∃ s, (fittingServices zerosHash (List.replicate 4097 7)).Reach s ∧
    s.replies = [(⟨PACKAGE_FILE_ID, 4094, 4⟩, .data [7, 7, 7, 0])] ∧
    s.Right (List.replicate 4097 7) ∧ ∀ req host₁ host₂, req.size ≤ s.fd.blockSize →
      HonestRead (List.replicate 4097 7) s.fd req host₁ host₂ → ReadFits s.fd req →
      ∃ s', s.handle zerosHash req host₁ host₂ = some s' ∧
        s'.replies = (req, rightReply (List.replicate 4097 7) req) :: s.replies := by
  have hsizes : (runFuseSideload 4097 4096 0 []).map (fun fd =>
      (fd.fileSize, fd.blockSize, fd.fileBlocks, fd.currBlock)) =
        some (4097, 4096, 2, noBlock) := rfl
  have hrun :
      ((runFuseSideload 4097 4096 0 []).bind fun fd =>
        (Service.mk fd [] [] []).handle zerosHash ⟨PACKAGE_FILE_ID, 4094, 4⟩ ⟨List.replicate 4096 7,
          0⟩ ⟨[7], 0⟩).map (·.replies) =
          some [(⟨PACKAGE_FILE_ID, 4094, 4⟩, .data [7, 7, 7, 0])] := by decide +kernel
  obtain ⟨s, hs, hreplies⟩ := Option.map_eq_some_iff.mp hrun
  obtain ⟨fd, hfd, hs⟩ := Option.bind_eq_some_iff.mp hs
  rw [hfd, Option.map_some, Option.some.injEq, Prod.mk.injEq, Prod.mk.injEq, Prod.mk.injEq]
    at hsizes
  obtain ⟨hsize, hbs, hblocks, hcurr⟩ := hsizes
  have hdiv : 4094 / fd.blockSize = 0 := by rw [hbs]
  have hblock : blockOf fd 4094 = 0 := by rw [blockOf, hdiv, Nat.zero_mod]
  have hhonest :
      HonestRead (List.replicate 4097 7) fd ⟨PACKAGE_FILE_ID, 4094, 4⟩ ⟨List.replicate 4096 7, 0⟩
      ⟨[7], 0⟩ := by
    have hfirst : fetchSize fd 0 = 4096 := by simp [fetchSize, blockStart, hbs, hsize]
    have hsecond : fetchSize fd 1 = 1 := by simp [fetchSize, blockStart, hbs, hsize]
    have hnext : (blockOf fd 4094 + 1) % 2 ^ 32 = 1 := by
      rw [hblock]
      decide
    constructor
    · intro _
      rw [hblock, Nat.zero_mul, List.drop_zero, hfirst, List.take_replicate]
      exact ⟨rfl, Int.le_refl 0⟩
    · intro _
      rw [hnext, hbs, List.drop_replicate, hsecond, List.take_replicate]
      exact ⟨rfl, Int.le_refl 0⟩
  have hfits : ReadFits fd ⟨PACKAGE_FILE_ID, 4094, 4⟩ := by
    refine ⟨⟨fun _ => ?_, fun h => ?_, fun _ => .inl ?_⟩, fun h => ?_, fun _ =>
      ⟨fun _ => ?_, fun h => ?_, fun _ => .inl ?_⟩⟩
    · rw [hdiv]
      decide
    · rw [hdiv, hblocks] at h
      exact absurd h (by decide)
    · rw [hdiv, hbs]
      decide
    · rw [hblock] at h
      exact absurd h (by decide)
    · rw [hdiv]
      decide
    · rw [hdiv, hblocks] at h
      exact absurd h (by decide)
    · rw [hdiv, hbs]
      decide
  have hreach : (fittingServices zerosHash (List.replicate 4097 7)).Reach s := .step
    (.init ⟨rfl, rfl, rfl, 4096, 0, [], by rw [List.length_replicate, hfd]⟩)
    ⟨_, _, _, by rw [hbs]; decide, by decide, hhonest, hfits, hs⟩
  obtain ⟨hright, hnext⟩ := fittingServices_right (fun _ => rfl) hreach
  exact ⟨s, hreach, hreplies, hright, hnext⟩

/-- The start of the last block of a file beyond 4 GiB is truncated. -/
theorem services_not_right :
    ¬∀ (sha256 : List UInt8 → SHA256Digest) (content : List UInt8) (s : Service),
      (services sha256 content).Reach s → s.Right content := by
  intro h
  have hlen : (List.replicate (2 ^ 32 + 1) (0 : UInt8)).length = 2 ^ 32 + 1 := List.length_replicate
  obtain ⟨s, hs, hn⟩ := exists_not_right zerosHash hlen
  exact hn (h _ _ _ hs)

end BootableRecovery.FuseSideload
