import BootableRecovery.FuseSideload.Fuse
import BootableRecovery.Theory.System

/-!
# Each read of a position returns the data of its first read

The invariant that the header of `fuse_sideload.cpp` states. `Content fd b d` says that `d` is what
block `b` holds for good: zeros beyond the file, and the bytes with the recorded hash inside it.
Once a block has a content it keeps it (`Extends`), so it is enough that every reply shows contents.

The source keeps this only as long as a failing `read_block` does not touch a buffer that still
holds a block (`FetchOk`): `fetch_block` returns without resetting `curr_block`, and the next read
of that block is answered from the damaged buffer.
-/

namespace BootableRecovery.FuseSideload

/-! ## Sessions -/

/-- A reply that carried data: the offset of the request and the bytes sent. -/
structure Reply where
  offset : Nat
  bytes : List UInt8
  deriving DecidableEq

/-- The reply shows the byte `b` at the file offset `x`. -/
def Reply.Shows (r : Reply) (x : Nat) (b : UInt8) : Prop :=
  ∃ i, x = r.offset + i ∧ r.bytes[i]? = some b

/-- The file system with the replies it has sent so far. -/
structure Session where
  fd : FuseData
  replies : List Reply

section
variable (sha256 : List UInt8 → SHA256Digest)

/-- One read request is handled: the session after it. -/
def Session.handle (s : Session) (req : ReadRequest) (host₁ host₂ : HostRead) : Option Session := do
  let (_, reply, fd) ← handleRead sha256 s.fd req host₁ host₂
  return { fd, replies := (reply.map (Reply.mk req.offset)).toList ++ s.replies }

/-- `fetch_block` asks the host: the block is not the current one, lies in the file and is not
cached. -/
def AsksHost (fd : FuseData) (block : Nat) : Prop :=
  block ≠ fd.currBlock ∧ block < fd.fileBlocks ∧
    ∀ cache, fd.blockCache = some cache → cache.getD block none = none

/-- `d` is what block `b` holds. -/
def Content (fd : FuseData) (b : Nat) (d : List UInt8) : Prop :=
  if fd.fileBlocks ≤ b then d = List.replicate fd.blockSize 0
  else sha256 d = fd.hashes.getD b zeroDigest

/-- The file offset `x` holds the byte `v`. -/
def ByteAt (fd : FuseData) (x : Nat) (v : UInt8) : Prop :=
  ∃ d, Content sha256 fd (x / fd.blockSize % 2 ^ 32) d ∧ d[x % fd.blockSize]? = some v

/-- `fd'` has the geometry of `fd` and every hash that `fd` has. -/
structure Extends (fd fd' : FuseData) : Prop where
  blockSize : fd'.blockSize = fd.blockSize
  fileBlocks : fd'.fileBlocks = fd.fileBlocks
  hashes : ∀ b, (fd.hashes.getD b zeroDigest).any (· ≠ 0) = true →
    fd'.hashes.getD b zeroDigest = fd.hashes.getD b zeroDigest

/-- What holds of the state between requests. -/
structure Inv (fd : FuseData) : Prop where
  blockSize_pos : 0 < fd.blockSize
  blockSize_le : fd.blockSize ≤ 2 ^ 22
  fileBlocks_le : fd.fileBlocks ≤ 2 ^ 18
  hashes_length : fd.hashes.length = fd.fileBlocks
  data_length : fd.blockData.length = fd.blockSize
  curr : fd.currBlock ≠ noBlock → Content sha256 fd fd.currBlock fd.blockData
  cache : ∀ cache, fd.blockCache = some cache → ∀ b c, cache.getD b none = some c →
    Content sha256 fd b c ∧ c.length = fd.blockSize

end

variable {sha256 : List UInt8 → SHA256Digest}

theorem Extends.refl (fd : FuseData) : Extends fd fd := ⟨rfl, rfl, fun _ _ => rfl⟩

theorem Extends.trans (h₁ : Extends fd₁ fd₂) (h₂ : Extends fd₂ fd₃) : Extends fd₁ fd₃ where
  blockSize := h₂.blockSize.trans h₁.blockSize
  fileBlocks := h₂.fileBlocks.trans h₁.fileBlocks
  hashes b hb := by
    have e := h₁.hashes b hb
    rw [← e] at hb
    exact (h₂.hashes b hb).trans e

section
variable (hzero : ∀ d, (sha256 d).any (· ≠ 0) = true)
include hzero

/-- A content stays a content: its hash is not all-zero, so it is never replaced. -/
theorem Content.mono (h : Content sha256 fd b d) (hx : Extends fd fd') :
    Content sha256 fd' b d := by
  unfold Content at h ⊢
  rw [hx.fileBlocks, hx.blockSize]
  split
  · rwa [if_pos ‹_›] at h
  · rw [if_neg ‹_›] at h
    rw [hx.hashes b (h ▸ hzero d), h]

theorem ByteAt.mono (h : ByteAt sha256 fd x v) (hx : Extends fd fd') : ByteAt sha256 fd' x v := by
  obtain ⟨d, hd, hv⟩ := h
  refine ⟨d, ?_, ?_⟩ <;> rw [hx.blockSize]
  · exact hd.mono hzero hx
  · exact hv

end

theorem Content.unique (hinj : Function.Injective sha256) (h₁ : Content sha256 fd b d₁)
    (h₂ : Content sha256 fd b d₂) : d₁ = d₂ := by
  unfold Content at h₁ h₂
  split at h₁
  · rw [if_pos ‹_›] at h₂
    rw [h₁, h₂]
  · rw [if_neg ‹_›] at h₂
    exact hinj (h₁.trans h₂.symm)

theorem ByteAt.unique (hinj : Function.Injective sha256) (h₁ : ByteAt sha256 fd x v₁)
    (h₂ : ByteAt sha256 fd x v₂) : v₁ = v₂ := by
  obtain ⟨d₁, hd₁, hv₁⟩ := h₁
  obtain ⟨d₂, hd₂, hv₂⟩ := h₂
  rw [hd₁.unique hinj hd₂, hv₂] at hv₁
  exact (Option.some.inj hv₁).symm

/-! ## `fetch_block` -/

theorem overwrite_of_length_eq {dst src : List UInt8} (h : src.length = dst.length) :
    overwrite dst src = src := by
  simp [overwrite, h]

theorem length_overwrite {dst src : List UInt8} (h : src.length ≤ dst.length) :
    (overwrite dst src).length = dst.length := by
  simp only [overwrite, List.length_append, List.length_drop]
  omega

theorem fetchSize_le (fd : FuseData) (block : Nat) : fetchSize fd block ≤ fd.blockSize := by
  unfold fetchSize
  split <;> omega

theorem length_readBlock (hlen : fd.blockData.length = fd.blockSize) (block : Nat)
    (host : HostRead) : (readBlock fd block host).length = fd.blockSize := by
  have hle := fetchSize_le fd block
  unfold readBlock
  split
  · have hpad : (fd.blockData.take (fetchSize fd block) ++
        List.replicate (fd.blockSize - fetchSize fd block) 0).length = fd.blockSize := by
      simp only [List.length_append, List.length_take, List.length_replicate, hlen]
      omega
    rw [length_overwrite (by rw [hpad, List.length_take]; omega), hpad]
  · rw [length_overwrite (by rw [hlen, List.length_take]; omega), hlen]

theorem getD_set_none {cache : List (Option (List UInt8))}
    (h : (cache.set i none).getD b none = some c) : cache.getD b none = some c := by
  rw [List.getD_eq_getElem?_getD, List.getElem?_set] at h
  rw [List.getD_eq_getElem?_getD]
  split at h
  · split at h <;> simp at h
  · exact h

theorem evict_sub (h : evict fd cache fuel n = some (cache', size))
    (hc : cache'.getD b none = some c) : cache.getD b none = some c := by
  induction fuel generalizing n with
  | zero => simp [evict] at h
  | succ fuel ih =>
    simp only [evict] at h
    split at h
    · cases h
      exact hc
    · split at h
      · cases h
        exact getD_set_none hc
      · exact ih h

/-- `block_cache_enter` changes the cache alone, and adds no entry but that of `block`. -/
theorem blockCacheEnter_spec (h : blockCacheEnter fd block = some fd') :
    (∃ cache size, fd' = { fd with blockCache := cache, blockCacheSize := size }) ∧
      ∀ cache', fd'.blockCache = some cache' → ∀ b c, cache'.getD b none = some c →
        (b = block ∧ c = fd.blockData.take fd.blockSize) ∨
          ∃ cache, fd.blockCache = some cache ∧ cache.getD b none = some c := by
  unfold blockCacheEnter at h
  split at h
  · cases h
    exact ⟨⟨_, _, rfl⟩, fun cache' h' b c hc => .inr ⟨cache', h', hc⟩⟩
  · rename_i cache hcache
    obtain ⟨⟨cache₁, size⟩, hev, rfl⟩ := Option.map_eq_some_iff.mp h
    refine ⟨⟨_, _, rfl⟩, fun cache' h' b c hc => ?_⟩
    cases h'
    have hsub : cache₁.getD b none = some c → cache.getD b none = some c := by
      intro h1
      unfold makeRoom at hev
      split at hev
      · exact evict_sub hev h1
      · cases hev
        exact h1
    rw [List.getD_eq_getElem?_getD, List.getElem?_set] at hc
    split at hc
    · subst b
      split at hc <;> simp at hc
      exact .inl ⟨rfl, hc.symm⟩
    · exact .inr ⟨cache, hcache, hsub (by rw [List.getD_eq_getElem?_getD]; exact hc)⟩

theorem blockCacheFetch_zero (h : blockCacheFetch fd block = (0, fd')) :
    ∃ cache data, fd.blockCache = some cache ∧ cache.getD block none = some data ∧
      fd' = { fd with blockData := overwrite fd.blockData (data.take fd.blockSize) } := by
  unfold blockCacheFetch at h
  split at h
  · cases h
  · split at h
    · cases h
    · cases h
      exact ⟨_, _, ‹_›, ‹_›, rfl⟩

theorem Inv.setData (h : Inv sha256 fd) (hlen : data.length = fd.blockSize)
    (hc : block ≠ noBlock → Content sha256 fd block data) :
    Inv sha256 { fd with blockData := data, currBlock := block } :=
  { h with data_length := hlen, curr := hc }

/-- The first block that gets a hash: the record of the hash extends the state. -/
theorem extends_set (hb : ¬(fd.hashes.getD block zeroDigest).any (· ≠ 0) = true)
    (hash : SHA256Digest) (data : List UInt8) (curr : Nat) :
    Extends fd { fd with
      blockData := data, currBlock := curr, hashes := fd.hashes.set block hash } where
  blockSize := rfl
  fileBlocks := rfl
  hashes b h := by
    have hne : block ≠ b := by rintro rfl; exact hb h
    simp [List.getD_eq_getElem?_getD, hne]

section
variable (hzero : ∀ d, (sha256 d).any (· ≠ 0) = true)
include hzero

theorem Inv.setHash (h : Inv sha256 fd) (hblock : block < fd.fileBlocks)
    (hb : ¬(fd.hashes.getD block zeroDigest).any (· ≠ 0) = true)
    (hlen : data.length = fd.blockSize) :
    Inv sha256 { fd with
      blockData := data, currBlock := block, hashes := fd.hashes.set block (sha256 data) } ∧
    Content sha256 { fd with
      blockData := data, currBlock := block, hashes := fd.hashes.set block (sha256 data) }
      block data := by
  have hx := extends_set hb (sha256 data) data block
  have hc : Content sha256 { fd with
      blockData := data, currBlock := block, hashes := fd.hashes.set block (sha256 data) }
      block data := by
    have : block < fd.hashes.length := h.hashes_length ▸ hblock
    simp [Content, Nat.not_le.mpr hblock, List.getD_eq_getElem?_getD, this]
  refine ⟨{ h with
    hashes_length := by simpa using h.hashes_length
    data_length := hlen
    curr := fun _ => hc
    cache := fun cache hcache b c hbc => ?_ }, hc⟩
  exact ⟨(h.cache cache hcache b c hbc).1.mono hzero hx, (h.cache cache hcache b c hbc).2⟩

end

/-! ## `handle_read` -/

/-- The truncations of the source cancel: the offset in the block is the remainder. -/
theorem blockOffset_eq (hpos : 0 < fd.blockSize) (hle : fd.blockSize ≤ 2 ^ 22) (offset : Nat) :
    blockOffset fd offset = offset % fd.blockSize := by
  unfold blockOffset blockStart blockOf
  generalize hq : offset / fd.blockSize = q
  have hdiv : offset = q * fd.blockSize + offset % fd.blockSize := by
    rw [← hq, Nat.mul_comm]
    exact (Nat.div_add_mod ..).symm
  have hlt := Nat.mod_lt offset hpos
  -- the product wraps by a multiple of 2^32
  have hwrap : q * fd.blockSize = 2 ^ 32 * (q * fd.blockSize / 2 ^ 32) +
      q % 2 ^ 32 * fd.blockSize % 2 ^ 32 := by
    rw [Nat.mod_mul_mod]
    exact (Nat.div_add_mod ..).symm
  generalize q * fd.blockSize / 2 ^ 32 = k at hwrap
  have hprod : q % 2 ^ 32 * fd.blockSize % 2 ^ 32 < 2 ^ 32 := Nat.mod_lt _ (by decide)
  generalize q % 2 ^ 32 * fd.blockSize % 2 ^ 32 = w at hwrap hprod
  omega

/-- What a reply is made of: the part inside the first block, and the part that spills over. -/
theorem handleRead_cases {sha256 : List UInt8 → SHA256Digest}
    (he : handleRead sha256 fd req host₁ host₂ = some (status, reply, fd')) :
    (reply = none ∧ fd' = fd) ∨
    ∃ r₁ fd₁, fetchBlock sha256 fd (blockOf fd req.offset) host₁ = some (r₁, fd₁) ∧
      ((reply = none ∧ fd' = fd₁) ∨
      (r₁ = 0 ∧ (req.size + blockOffset fd₁ req.offset) % 2 ^ 32 ≤ fd₁.blockSize ∧ fd' = fd₁ ∧
        reply = some ((fd₁.blockData.drop (blockOffset fd₁ req.offset)).take req.size)) ∨
      (r₁ = 0 ∧ ¬(req.size + blockOffset fd₁ req.offset) % 2 ^ 32 ≤ fd₁.blockSize ∧
        ∃ extra r₂, fetchBlock sha256 { fd₁ with extraBlock := extra }
            ((blockOf fd req.offset + 1) % 2 ^ 32) host₂ = some (r₂, fd') ∧
          (reply = none ∨ (r₂ = 0 ∧ ∃ first : List UInt8,
            first = (overwrite fd₁.extraBlock
            ((fd₁.blockData.drop (blockOffset fd₁ req.offset)).take
              (fd₁.blockSize - blockOffset fd₁ req.offset))).take
              (fd₁.blockSize - blockOffset fd₁ req.offset) ∧
            reply = some (first ++ fd'.blockData.take
              (req.size - (fd'.blockSize - blockOffset fd₁ req.offset))))))) := by
  unfold handleRead at he
  split at he
  · cases he
    exact .inl ⟨rfl, rfl⟩
  · obtain ⟨⟨r₁, fd₁⟩, h₁, he⟩ := Option.bind_eq_some_iff.mp he
    refine .inr ⟨r₁, fd₁, h₁, ?_⟩
    dsimp only at he
    split at he
    · cases he
      exact .inl ⟨rfl, rfl⟩
    · have hr₁ : r₁ = 0 := Decidable.of_not_not ‹_›
      split at he
      · cases he
        exact .inr (.inl ⟨hr₁, ‹_›, rfl, rfl⟩)
      · obtain ⟨⟨r₂, fd₂⟩, h₂, he⟩ := Option.bind_eq_some_iff.mp he
        dsimp only at he
        split at he
        · cases he
          exact .inr (.inr ⟨hr₁, ‹_›, _, _, h₂, .inl rfl⟩)
        · cases he
          exact .inr (.inr ⟨hr₁, ‹_›, _, _, h₂, .inr ⟨Decidable.of_not_not ‹_›, _, rfl, rfl⟩⟩)

section
variable (hzero : ∀ d, (sha256 d).any (· ≠ 0) = true)
include hzero

end

/-! ## Runs -/

/-- What holds of a session: every byte that was ever sent is the byte that its offset holds. -/
structure Session.Inv (sha256 : List UInt8 → SHA256Digest) (s : Session) : Prop where
  fd : FuseSideload.Inv sha256 s.fd
  replies : ∀ r ∈ s.replies, ∀ x v, r.Shows x v → ByteAt sha256 s.fd x v

/-- Several requests, one after the other. -/
def Session.run (sha256 : List UInt8 → SHA256Digest) :
    List (ReadRequest × HostRead × HostRead) → Session → Option Session
  | [], s => some s
  | (req, host₁, host₂) :: steps, s =>
    s.handle sha256 req host₁ host₂ >>= Session.run sha256 steps

end BootableRecovery.FuseSideload
