import BootableRecovery.FuseSideload.FirstRead

/-!
# The block cache

`block_cache_enter` is only called for a block that is not cached, and when the cache is full some
other block is: so the backward search of the eviction loop, which stops at the current block, frees
one before it gets there. From this the count of cached blocks stays within its bound over all
fetches, with any host.
-/

namespace BootableRecovery.FuseSideload

/-! ## The eviction loop -/

/-- What an eviction comes to: one block other than the current one is freed. -/
def Frees (fd : FuseData) (cache : List (Option (List UInt8))) (i : Nat) : Prop :=
  i ≠ fd.currBlock ∧ i < fd.fileBlocks ∧ (cache.getD i none).isSome

theorem evict_of_cached (hn : n ≠ fd.currBlock)
    (hi : (if n < 0 then (fd.fileBlocks : Int) - 1 else n).toNat = i)
    (hc : (cache.getD i none).isSome) :
    evict fd cache (fuel + 1) n = some (cache.set i none, fd.blockCacheSize - 1) := by
  obtain ⟨data, hdata⟩ := Option.isSome_iff_exists.mp hc
  simp only [evict, if_neg hn, hi, hdata]

theorem evict_of_empty (hn : n ≠ fd.currBlock)
    (hm : (if n < 0 then (fd.fileBlocks : Int) - 1 else n) = m)
    (hc : cache.getD m.toNat none = none) :
    evict fd cache (fuel + 1) n = evict fd cache fuel (m - 1) := by
  simp only [evict, if_neg hn, hm, hc]

theorem evict_below (k : Nat) (hk : k ≤ fd.currBlock) (hcurr : fd.currBlock < fd.fileBlocks) :
    (∃ i, Frees fd cache i ∧
      evict fd cache (k + fuel) ((k : Int) - 1) = some (cache.set i none, fd.blockCacheSize - 1)) ∨
    ((∀ i < k, cache.getD i none = none) ∧
      evict fd cache (k + fuel) ((k : Int) - 1) = evict fd cache fuel (-1)) := by
  induction k with
  | zero => exact .inr ⟨fun i hi => absurd hi (Nat.not_lt_zero i), by simp⟩
  | succ k ih =>
    have hn : ((k + 1 : Nat) : Int) - 1 = k := by omega
    have hne : (k : Int) ≠ fd.currBlock := by omega
    have hwrap : (if (k : Int) < 0 then (fd.fileBlocks : Int) - 1 else k) = k := if_neg (by omega)
    rw [hn, Nat.add_right_comm]
    cases hc : cache.getD k none with
    | some data =>
      refine .inl ⟨k, ⟨by omega, by omega, by rw [hc]; rfl⟩, ?_⟩
      exact evict_of_cached hne (by rw [hwrap]; rfl) (by rw [hc]; rfl)
    | none =>
      rw [evict_of_empty hne hwrap hc]
      rcases ih (by omega) with hfreed | ⟨hall, heq⟩
      · exact .inl hfreed
      · refine .inr ⟨fun i hi => ?_, heq⟩
        rcases Nat.lt_succ_iff_lt_or_eq.mp hi with hi | rfl
        · exact hall i hi
        · exact hc

/-- The search above the current block, after the index has wrapped around. -/
theorem evict_above (j : Nat) (hj : fd.currBlock + j < fd.fileBlocks)
    (hex : ∃ i, fd.currBlock < i ∧ i ≤ fd.currBlock + j ∧ (cache.getD i none).isSome) :
    ∃ i, Frees fd cache i ∧ evict fd cache (j + fuel) ((fd.currBlock : Int) + j) =
      some (cache.set i none, fd.blockCacheSize - 1) := by
  induction j with
  | zero =>
    obtain ⟨i, hlt, hle, _⟩ := hex
    omega
  | succ j ih =>
    have hne : (fd.currBlock : Int) + (j + 1 : Nat) ≠ fd.currBlock := by omega
    have hwrap : (if (fd.currBlock : Int) + (j + 1 : Nat) < 0 then (fd.fileBlocks : Int) - 1
        else (fd.currBlock : Int) + (j + 1 : Nat)) = (fd.currBlock : Int) + (j + 1 : Nat) :=
      if_neg (by omega)
    have hnat : ((fd.currBlock : Int) + (j + 1 : Nat)).toNat = fd.currBlock + (j + 1) := by omega
    rw [Nat.add_right_comm]
    cases hc : cache.getD (fd.currBlock + (j + 1)) none with
    | some data =>
      refine ⟨_, ⟨by omega, hj, by rw [hc]; rfl⟩, ?_⟩
      exact evict_of_cached hne (by rw [hwrap, hnat]) (by rw [hc]; rfl)
    | none =>
      rw [evict_of_empty hne hwrap (by rw [hnat]; exact hc),
        show (fd.currBlock : Int) + (j + 1 : Nat) - 1 = fd.currBlock + j by omega]
      refine ih (by omega) ?_
      obtain ⟨i, hlt, hle, hsome⟩ := hex
      refine ⟨i, hlt, ?_, hsome⟩
      have : i ≠ fd.currBlock + (j + 1) := by
        rintro rfl
        rw [hc] at hsome
        cases hsome
      omega

/-- **The eviction ends.** When some block other than the current one is cached, the search frees
one such block, on either side of the wrap-around. -/
theorem evict_spec (hcurr : fd.currBlock < fd.fileBlocks) (hlen : cache.length = fd.fileBlocks)
    (hself : cache.getD fd.currBlock none = none) (hex : ∃ i, (cache.getD i none).isSome) :
    ∃ i, Frees fd cache i ∧ evict fd cache (2 * fd.fileBlocks + 2) ((fd.currBlock : Int) - 1) =
      some (cache.set i none, fd.blockCacheSize - 1) := by
  have hfuel :
      2 * fd.fileBlocks + 2 = fd.currBlock + (2 * fd.fileBlocks + 1 - fd.currBlock + 1) := by
    omega
  rw [hfuel]
  rcases evict_below fd.currBlock (Nat.le_refl _) hcurr with hfreed | ⟨hall, heq⟩
  · exact hfreed
  -- nothing below: the cached block is above, and the search goes on from the last block
  obtain ⟨i, hi⟩ := hex
  have hlt : fd.currBlock < i := by
    rcases Nat.lt_trichotomy i fd.currBlock with h | h | h
    · rw [hall i h] at hi
      cases hi
    · rw [h, hself] at hi
      cases hi
    · exact h
  have hile : i < fd.fileBlocks := by
    by_contra hge
    rw [List.getD_eq_getElem?_getD, List.getElem?_eq_none (by omega)] at hi
    cases hi
  have hne : (-1 : Int) ≠ fd.currBlock := by omega
  rw [heq]
  cases hc : cache.getD (fd.fileBlocks - 1) none with
  | some data =>
    refine ⟨fd.fileBlocks - 1, ⟨by omega, by omega, by rw [hc]; rfl⟩, ?_⟩
    exact evict_of_cached hne (by rw [if_pos (by omega)]; omega) (by rw [hc]; rfl)
  | none =>
    have hm : ((fd.fileBlocks : Int) - 1).toNat = fd.fileBlocks - 1 := by omega
    rw [evict_of_empty hne (if_pos (by omega)) (by rw [hm]; exact hc)]
    have hlast : i ≠ fd.fileBlocks - 1 := by
      rintro rfl
      rw [hc] at hi
      cases hi
    have hfuel : 2 * fd.fileBlocks + 1 - fd.currBlock =
        fd.fileBlocks - 2 - fd.currBlock + (fd.fileBlocks + 3) := by omega
    have hfrom :
        (fd.fileBlocks : Int) - 1 - 1 =
        fd.currBlock + (fd.fileBlocks - 2 - fd.currBlock : Nat) := by
      omega
    rw [hfuel, hfrom]
    exact evict_above _ (by omega) ⟨i, hlt, by omega, hi⟩

/-! ## Entering a block -/

section
variable (sha256 : List UInt8 → SHA256Digest)

/-- `fetch_block` calls `block_cache_enter`: the host has served a block whose hash is not
recorded. -/
structure Enters (fd : FuseData) (block : Nat) (host : HostRead) : Prop where
  asks : AsksHost fd block
  result : ¬host.result < 0
  differs : sha256 (readBlock fd block host) ≠ fd.hashes.getD block zeroDigest
  first : ¬(fd.hashes.getD block zeroDigest).any (· ≠ 0) = true

/-- The state with which it does. -/
def entered (fd : FuseData) (block : Nat) (host : HostRead) : FuseData :=
  { fd with
    blockData := readBlock fd block host
    currBlock := block
    hashes := fd.hashes.set block (sha256 (readBlock fd block host)) }

/-- A fetch that does not get there leaves the cache and the hashes as they were. -/
structure SameCache (fd fd' : FuseData) : Prop where
  fileBlocks : fd'.fileBlocks = fd.fileBlocks
  blockSize : fd'.blockSize = fd.blockSize
  hashes : fd'.hashes = fd.hashes
  blockCache : fd'.blockCache = fd.blockCache
  blockCacheSize : fd'.blockCacheSize = fd.blockCacheSize
  blockCacheMaxSize : fd'.blockCacheMaxSize = fd.blockCacheMaxSize

/-- The fetches of a file system that `run_fuse_sideload` has set up with a cache, with any host. -/
def fetches : System FuseData where
  init fd := fd.blockCache ≠ none ∧ ∃ fileSize blockSize mem garbage,
    runFuseSideload fileSize blockSize mem garbage = some fd
  step fd fd' := ∃ block host r, fetchBlock sha256 fd block host = some (r, fd')

/-- The invariant of the block cache. -/
structure CacheInv (fd : FuseData) (cache : List (Option (List UInt8))) : Prop where
  blockCache : fd.blockCache = some cache
  length : cache.length = fd.fileBlocks
  /-- `block_cache_size` is the number of cached blocks. -/
  size : fd.blockCacheSize = cache.countP Option.isSome
  size_le : fd.blockCacheSize ≤ fd.blockCacheMaxSize
  two_le : 2 ≤ fd.blockCacheMaxSize
  data_length : fd.blockData.length = fd.blockSize
  hashes_length : fd.hashes.length = fd.fileBlocks
  digests : ∀ digest ∈ fd.hashes, digest.length = SHA256_DIGEST_LENGTH
  /-- A cached block has the hash that is stored for it, and that is for good. -/
  hash : ∀ b data, cache.getD b none = some data → sha256 data = fd.hashes.getD b zeroDigest ∧
    (fd.hashes.getD b zeroDigest).any (· ≠ 0) = true

end

variable {sha256 : List UInt8 → SHA256Digest}

theorem asksHost_iff (hcur : block ≠ fd.currBlock) (hblock : ¬fd.fileBlocks ≤ block) :
    AsksHost fd block ↔ blockCacheFetch fd block = (-1, fd) := by
  unfold AsksHost blockCacheFetch
  cases fd.blockCache with
  | none => simp [hcur, Nat.lt_of_not_le hblock]
  | some cache => cases hdata : cache.getD block none <;>
      simp [hcur, Nat.lt_of_not_le hblock, hdata, -List.getD_eq_getElem?_getD]

/-- A fetch that finds the block in `block_data`, beyond the file or in the cache. -/
theorem fetchBlock_of_not_asksHost (h : ¬AsksHost fd block)
    (hlen : fd.blockData.length = fd.blockSize) :
    ∃ fd', fetchBlock sha256 fd block host = some (0, fd') ∧ SameCache fd fd' ∧
      fd'.blockData.length = fd.blockSize := by
  unfold fetchBlock
  by_cases hcur : block = fd.currBlock
  · exact ⟨fd, if_pos hcur, ⟨rfl, rfl, rfl, rfl, rfl, rfl⟩, hlen⟩
  rw [if_neg hcur]
  by_cases hblock : fd.fileBlocks ≤ block
  · exact ⟨_, if_pos hblock, ⟨rfl, rfl, rfl, rfl, rfl, rfl⟩, by simp⟩
  rw [if_neg hblock]
  rw [asksHost_iff hcur hblock] at h
  unfold blockCacheFetch at h ⊢
  split at h
  · exact absurd rfl h
  · split at h
    · exact absurd rfl h
    · refine ⟨_, rfl, ⟨rfl, rfl, rfl, rfl, rfl, rfl⟩, ?_⟩
      refine (length_overwrite ?_).trans hlen
      rw [List.length_take, hlen]
      exact Nat.min_le_left ..

theorem fetchBlock_of_asksHost (h : AsksHost fd block) (hlen : fd.blockData.length = fd.blockSize) :
    (Enters sha256 fd block host ∧ fetchBlock sha256 fd block host =
      (blockCacheEnter (entered sha256 fd block host) block).map fun fd => (0, fd)) ∨
    (¬Enters sha256 fd block host ∧ ∃ r fd', fetchBlock sha256 fd block host = some (r, fd') ∧
      SameCache fd fd' ∧ fd'.blockData.length = fd.blockSize) := by
  have hlen' := length_readBlock hlen block host
  have hfetch := (asksHost_iff h.1 (Nat.not_le.mpr h.2.1)).mp h
  unfold fetchBlock
  rw [if_neg h.1, if_neg (Nat.not_le.mpr h.2.1), hfetch]
  dsimp only
  by_cases hresult : host.result < 0
  · exact .inr ⟨fun he => he.result hresult, _, _, if_pos hresult, ⟨rfl, rfl, rfl, rfl, rfl, rfl⟩,
      hlen'⟩
  rw [if_neg hresult]
  by_cases hhash : sha256 (readBlock fd block host) = fd.hashes.getD block zeroDigest
  · exact .inr ⟨fun he => he.differs hhash, _, _, if_pos hhash, ⟨rfl, rfl, rfl, rfl, rfl, rfl⟩,
      hlen'⟩
  rw [if_neg hhash]
  by_cases hfirst : (fd.hashes.getD block zeroDigest).any (· ≠ 0) = true
  · exact .inr ⟨fun he => he.first hfirst, _, _, if_pos hfirst, ⟨rfl, rfl, rfl, rfl, rfl, rfl⟩,
      hlen'⟩
  · exact .inl ⟨⟨h, hresult, hhash, hfirst⟩, if_neg hfirst⟩

/-- **One fetch, seen from the cache.** Either it ends in `block_cache_enter` or it leaves the cache
and the hashes alone. -/
theorem fetchBlock_cache (block : Nat) (host : HostRead)
    (hlen : fd.blockData.length = fd.blockSize) :
    (Enters sha256 fd block host ∧ fetchBlock sha256 fd block host =
      (blockCacheEnter (entered sha256 fd block host) block).map fun fd => (0, fd)) ∨
    (¬Enters sha256 fd block host ∧ ∃ r fd', fetchBlock sha256 fd block host = some (r, fd') ∧
      SameCache fd fd' ∧ fd'.blockData.length = fd.blockSize) := by
  by_cases h : AsksHost fd block
  · exact fetchBlock_of_asksHost h hlen
  · obtain ⟨fd', hfd', hsame⟩ := fetchBlock_of_not_asksHost h hlen
    exact .inr ⟨fun he => h he.asks, 0, fd', hfd', hsame⟩

theorem CacheInv.same (h : CacheInv sha256 fd cache) (hs : SameCache fd fd')
    (hlen : fd'.blockData.length = fd.blockSize) : CacheInv sha256 fd' cache where
  blockCache := hs.blockCache.trans h.blockCache
  length := h.length.trans hs.fileBlocks.symm
  size := hs.blockCacheSize.trans h.size
  size_le := by rw [hs.blockCacheSize, hs.blockCacheMaxSize]; exact h.size_le
  two_le := hs.blockCacheMaxSize.symm ▸ h.two_le
  data_length := hlen.trans hs.blockSize.symm
  hashes_length := by rw [hs.hashes, hs.fileBlocks]; exact h.hashes_length
  digests := hs.hashes.symm ▸ h.digests
  hash := hs.hashes.symm ▸ h.hash

/-- What the first half of `block_cache_enter` does to the cache: a full one loses one other
block. -/
structure RoomFor (fd : FuseData) (block : Nat) (cache cache' : List (Option (List UInt8))) :
    Prop where
  full : fd.blockCacheSize = fd.blockCacheMaxSize →
    ∃ i, i ≠ block ∧ (cache.getD i none).isSome ∧ cache' = cache.set i none
  room : fd.blockCacheSize ≠ fd.blockCacheMaxSize → cache' = cache

theorem RoomFor.length (h : RoomFor fd block cache cache') : cache'.length = cache.length := by
  by_cases hfull : fd.blockCacheSize = fd.blockCacheMaxSize
  · obtain ⟨i, _, _, rfl⟩ := h.full hfull
    exact List.length_set
  · rw [h.room hfull]

theorem RoomFor.sub (h : RoomFor fd block cache cache') (hb : cache'.getD b none = some data) :
    cache.getD b none = some data := by
  by_cases hfull : fd.blockCacheSize = fd.blockCacheMaxSize
  · obtain ⟨i, _, _, rfl⟩ := h.full hfull
    exact getD_set_none hb
  · rwa [h.room hfull] at hb

theorem RoomFor.self (h : RoomFor fd block cache cache') :
    cache'.getD block none = cache.getD block none := by
  by_cases hfull : fd.blockCacheSize = fd.blockCacheMaxSize
  · obtain ⟨i, hne, _, rfl⟩ := h.full hfull
    rw [List.getD_eq_getElem?_getD, List.getElem?_set_ne hne, ← List.getD_eq_getElem?_getD]
  · rw [h.room hfull]

theorem countP_isSome_set {cache : List (Option (List UInt8))} (hi : i < cache.length) :
    (cache.set i entry).countP Option.isSome =
      cache.countP Option.isSome - (if (cache.getD i none).isSome then 1 else 0) +
        (if entry.isSome then 1 else 0) := by
  rw [List.countP_set hi, List.getD_eq_getElem?_getD, List.getElem?_eq_getElem hi, Option.getD_some]

theorem exists_cached {cache : List (Option (List UInt8))} (h : 0 < cache.countP Option.isSome) :
    ∃ i, (cache.getD i none).isSome := by
  obtain ⟨entry, hmem, hsome⟩ := List.countP_pos_iff.mp h
  obtain ⟨i, hi, rfl⟩ := List.getElem_of_mem hmem
  exact ⟨i, by rw [List.getD_eq_getElem?_getD, List.getElem?_eq_getElem hi]; exact hsome⟩

theorem makeRoom_spec (host : HostRead) (h : CacheInv sha256 fd cache)
    (hblock : block < fd.fileBlocks) (hfresh : cache.getD block none = none) :
    ∃ cache', makeRoom (entered sha256 fd block host) cache =
    some (cache', cache'.countP Option.isSome) ∧
      cache'.countP Option.isSome < fd.blockCacheMaxSize ∧ RoomFor fd block cache cache' := by
  have hle := h.size_le
  have htwo := h.two_le
  unfold makeRoom
  by_cases hfull : fd.blockCacheSize = fd.blockCacheMaxSize
  · have hcached : ∃ i, (cache.getD i none).isSome := exists_cached (by rw [← h.size]; omega)
    have hspec : ∃ i, Frees (entered sha256 fd block host) cache i ∧ _ :=
      evict_spec hblock h.length hfresh hcached
    obtain ⟨i, ⟨hne, hi, hsome⟩, hevict⟩ := hspec
    have hcount : (cache.set i none).countP Option.isSome = fd.blockCacheSize - 1 := by
      rw [countP_isSome_set (h.length.symm ▸ hi), if_pos hsome, ← h.size]
      rfl
    refine ⟨cache.set i none, ?_,
      by omega, fun _ => ⟨i, hne, hsome, rfl⟩, fun hroom => absurd hfull hroom⟩
    rw [hcount]
    exact (if_pos hfull).trans hevict
  · refine ⟨cache, ?_, by rw [← h.size]; omega, fun h => absurd h hfull, fun _ => rfl⟩
    rw [← h.size]
    exact if_neg hfull

section
variable (hlength : ∀ data, (sha256 data).length = SHA256_DIGEST_LENGTH)
include hlength

/-- The hash of a first read is not all zeros: it differs from the entry that is. -/
theorem any_of_enters (h : CacheInv sha256 fd cache) (he : Enters sha256 fd block host) :
    (sha256 (readBlock fd block host)).any (· ≠ 0) = true := by
  by_contra hzero
  have hall : ∀ digest : SHA256Digest, digest.length = SHA256_DIGEST_LENGTH →
      ¬digest.any (· ≠ 0) = true → digest = zeroDigest := by
    intro digest hlen hany
    refine List.eq_replicate_iff.mpr ⟨hlen, fun x hx => ?_⟩
    by_contra hne
    exact hany (List.any_eq_true.mpr ⟨x, hx, by simpa using hne⟩)
  refine he.differs ?_
  have hi : block < fd.hashes.length := h.hashes_length ▸ he.asks.2.1
  rw [hall _ (hlength _) hzero, hall _ _ he.first]
  rw [List.getD_eq_getElem?_getD, List.getElem?_eq_getElem hi]
  exact h.digests _ (List.getElem_mem hi)

theorem blockCacheEnter_inv (h : CacheInv sha256 fd cache) (he : Enters sha256 fd block host) :
    ∃ fd' cache' data, blockCacheEnter (entered sha256 fd block host) block = some fd' ∧
      RoomFor fd block cache cache' ∧ CacheInv sha256 fd' (cache'.set block (some data)) := by
  have hblock := he.asks.2.1
  have hfresh := he.asks.2.2 cache h.blockCache
  have hlen := length_readBlock h.data_length block host
  obtain ⟨cache', hroom, hlt, hfor⟩ := makeRoom_spec host h hblock hfresh
  have hi : block < cache'.length := by rw [hfor.length, h.length]; exact hblock
  have hstored : ∀ b, (fd.hashes.set block (sha256 (readBlock fd block host))).getD b zeroDigest =
      if b = block then sha256 (readBlock fd block host) else fd.hashes.getD b zeroDigest := by
    intro b
    rw [List.getD_eq_getElem?_getD, List.getD_eq_getElem?_getD]
    split
    · subst b
      rw [List.getElem?_set_self (h.hashes_length ▸ hblock)]
      rfl
    · rw [List.getElem?_set_ne (Ne.symm ‹_›)]
  have henter : blockCacheEnter (entered sha256 fd block host) block =
      some { entered sha256 fd block host with
        blockCache := some (cache'.set block (some (readBlock fd block host)))
        blockCacheSize := cache'.countP Option.isSome + 1 } := by
    have htake : (readBlock fd block host).take fd.blockSize = readBlock fd block host :=
      List.take_of_length_le (Nat.le_of_eq hlen)
    simp only [blockCacheEnter, entered, h.blockCache] at hroom ⊢
    rw [hroom]
    simp only [Option.map_some, htake]
  refine ⟨_, cache', _, henter, hfor, rfl, ?_, ?_, hlt, h.two_le, hlen, ?_, ?_, ?_⟩
  · rw [List.length_set, hfor.length]
    exact h.length
  · rw [countP_isSome_set hi, hfor.self, hfresh]
    rfl
  · exact List.length_set.trans h.hashes_length
  · intro digest hd
    rcases List.mem_or_eq_of_mem_set hd with hd | rfl
    · exact h.digests digest hd
    · exact hlength _
  · intro b data hb
    simp only [entered, hstored]
    by_cases hbb : b = block
    · subst b
      rw [List.getD_eq_getElem?_getD, List.getElem?_set_self hi] at hb
      cases hb
      rw [if_pos rfl]
      exact ⟨rfl, any_of_enters hlength h he⟩
    · rw [if_neg hbb]
      rw [List.getD_eq_getElem?_getD, List.getElem?_set_ne (Ne.symm hbb),
        ← List.getD_eq_getElem?_getD] at hb
      exact h.hash b data (hfor.sub hb)

end

/-! ## All fetches -/

theorem runFuseSideload_cacheInv (h : runFuseSideload fileSize blockSize mem garbage = some fd)
    (hc : fd.blockCache ≠ none) : ∃ cache, CacheInv sha256 fd cache := by
  unfold runFuseSideload at h
  split at h
  · cases h
  split at h
  · cases h
  cases h
  dsimp only at hc
  split at hc
  · exact absurd rfl hc
  rename_i hmax
  have htwo : 2 ≤ cacheMaxSize blockSize (numBlocks fileSize blockSize) mem := by
    unfold cacheMaxSize at hmax ⊢
    dsimp only at hmax ⊢
    split
    · rename_i hadmit
      exact hadmit.2.2
    · rw [if_neg ‹_›] at hmax
      exact absurd rfl hmax
  refine ⟨List.replicate _ none, if_neg hmax, List.length_replicate, ?_, Nat.zero_le _, htwo, ?_,
    List.length_replicate, ?_, ?_⟩
  · rw [List.countP_replicate]
    rfl
  · simp
  · intro digest hd
    rw [List.eq_of_mem_replicate hd]
    rfl
  · intro b data hb
    rw [List.getD_eq_getElem?_getD, List.getElem?_replicate] at hb
    split at hb <;> cases hb

section
variable (hlength : ∀ data, (sha256 data).length = SHA256_DIGEST_LENGTH)
include hlength

theorem fetches_inductive :
    (fetches sha256).Inductive fun fd => ∃ cache, CacheInv sha256 fd cache where
  init fd h := by
    obtain ⟨hc, fileSize, blockSize, mem, garbage, h⟩ := h
    exact runFuseSideload_cacheInv h hc
  step fd fd' h hs := by
    obtain ⟨cache, h⟩ := h
    obtain ⟨block, host, r, hs⟩ := hs
    rcases fetchBlock_cache block host h.data_length with ⟨he, heq⟩ | ⟨_, r', fd₁, heq, hsame, hlen⟩
    · obtain ⟨fd₁, cache', data, henter, _, hinv⟩ := blockCacheEnter_inv hlength h he
      rw [heq, henter] at hs
      cases hs
      exact ⟨_, hinv⟩
    · rw [heq] at hs
      cases hs
      exact ⟨cache, h.same hsame hlen⟩

/-- **The block cache.** In every state that fetches with any host lead to, the count is that of the
cached blocks and within its bound, and the cached blocks have the stored hashes. The next fetch
ends whatever the host does; when it enters a block, that one is not cached, and a full cache loses
exactly one other block. -/
theorem fetches_cache (h : (fetches sha256).Reach fd) :
    ∃ cache, CacheInv sha256 fd cache ∧ ∀ block host,
      ∃ r fd', fetchBlock sha256 fd block host = some (r, fd') ∧
        (¬Enters sha256 fd block host → fd'.blockCache = some cache) ∧
        (Enters sha256 fd block host → cache.getD block none = none ∧
          blockCacheEnter (entered sha256 fd block host) block = some fd' ∧
          ∃ cache' data, RoomFor fd block cache cache' ∧
            fd'.blockCache = some (cache'.set block (some data))) := by
  obtain ⟨cache, h⟩ := (fetches_inductive hlength).reach h
  refine ⟨cache, h, fun block host => ?_⟩
  rcases fetchBlock_cache block host h.data_length with ⟨he, heq⟩ | ⟨he, r, fd', heq, hsame, _⟩
  · obtain ⟨fd', cache', data, henter, hfor, hinv⟩ := blockCacheEnter_inv hlength h he
    refine ⟨0, fd', ?_, fun hn => absurd he hn, fun _ =>
      ⟨he.asks.2.2 cache h.blockCache, henter, ?_⟩⟩
    · rw [heq, henter]
      rfl
    · exact ⟨cache', data, hfor, hinv.blockCache⟩
  · exact ⟨r, fd', heq, fun _ => hsame.blockCache.trans h.blockCache, fun hn => absurd hn he⟩

end

/-- SHA-256 on a block of 4096 zeros, the only data that is hashed below. -/
def zerosHash (_ : List UInt8) : SHA256Digest :=
  [173, 127, 172, 178, 88, 111, 198, 233, 102, 192, 4, 215, 209, 209, 107, 2, 79, 88, 5,
    255, 124, 180, 124, 122, 133, 218, 189, 139, 72, 137, 44, 167]

/-- A file of three blocks, freshly mounted with memory for a cache of two. -/
def threeBlocks : Option FuseData :=
  runFuseSideload (3 * 4096) 4096 (INSTALL_REQUIRED_MEMORY + 3 * 8 + 2 * 4096) []

/-- Several fetches, one after the other, from a host that serves zeros. -/
def fetchAll (sha256 : List UInt8 → SHA256Digest) : List Nat → FuseData → Option FuseData
  | [], fd => some fd
  | block :: blocks, fd => do
    let (_, fd) ← fetchBlock sha256 fd block ⟨[], 0⟩
    fetchAll sha256 blocks fd

theorem fetchAll_reach (hr : (fetches sha256).Reach fd) (h : fetchAll sha256 blocks fd = some fd') :
    (fetches sha256).Reach fd' := by
  induction blocks generalizing fd with
  | nil =>
    cases h
    exact hr
  | cons block blocks ih =>
    obtain ⟨⟨r, fd₁⟩, h₁, h⟩ := Option.bind_eq_some_iff.mp h
    exact ih (hr.step ⟨block, _, r, h₁⟩) h

/-- Two blocks fill the cache; the fetch of the third one ends. -/
theorem fetches_cache_threeBlocks :
    ∃ fd cache, (threeBlocks >>= fetchAll zerosHash [0, 1]) = some fd ∧
    CacheInv zerosHash fd cache ∧ fd.blockCacheSize = fd.blockCacheMaxSize ∧
    ∃ r fd', fetchBlock zerosHash fd 2 ⟨[], 0⟩ = some (r, fd') := by
  have hrun : (threeBlocks >>= fetchAll zerosHash [0, 1]).map
      (fun fd => decide (fd.blockCacheSize = 2 ∧ fd.blockCacheMaxSize = 2)) = some true := by
        decide +kernel
  have hcache : threeBlocks.map (·.blockCache.isSome) = some true := by decide +kernel
  obtain ⟨fd, hfd, hfull⟩ := Option.map_eq_some_iff.mp hrun
  obtain ⟨fd₀, hinit, h⟩ := Option.bind_eq_some_iff.mp hfd
  have hsome : fd₀.blockCache ≠ none := by
    rw [hinit, Option.map_some, Option.some.injEq] at hcache
    exact Option.isSome_iff_ne_none.mp hcache
  have hreach : (fetches zerosHash).Reach fd := fetchAll_reach (.init ⟨hsome, _, _, _, _, hinit⟩) h
  obtain ⟨hsize, hmax⟩ := of_decide_eq_true hfull
  obtain ⟨cache, hinv, hnext⟩ := fetches_cache (fun _ => rfl) hreach
  obtain ⟨r, fd', heq, _⟩ := hnext 2 ⟨[], 0⟩
  exact ⟨fd, cache, hfd, hinv, hsize.trans hmax.symm, r, fd', heq⟩

end BootableRecovery.FuseSideload
