import BootableRecovery.FuseSideload.Requests
import BootableRecovery.LibBase.Scanf

/-!
# A package over adb

`minadbd`: the loop of `run_fuse_sideload` with the kernel on one side and, behind `read_block_adb`,
the adb host on the other. The provider writes the number of a block in eight digits and reads as
many bytes as there are of the block; at the end it writes `DONEDONE`. The host and the bytes under
way take their steps at any time between those of the loop. In every state the two sides agree on
what is under way (`InSync`), so all reads show the package (`sideloads_answered`), and
`AdbProgress` goes on to show that none of them waits forever.
-/

namespace BootableRecovery.FuseSideload

/-! ## The two sides -/

/-- `WriteFdFmt(ad.sfd, "%08u", block)`. -/
def blockRequest (block : Nat) : Text :=
  List.replicate (8 - (Nat.toDigits 10 block).length) '0' ++ Nat.toDigits 10 block

/-- What `vtab.close` writes. -/
def doneDone : Text := "DONEDONE".toList

/-- What `read_block_adb` is at: the answer of the host to a fetch that has not been made. -/
def noRead : HostRead := ⟨[], 0⟩

/-- What the host has sent for a block, among all blocks that were read for a request. -/
def readFor (reads : List (Nat × HostRead)) (block : Nat) : HostRead :=
  (reads.lookup block).getD noRead

/-- The two blocks that a read can touch. -/
def firstBlock (fd : FuseData) (req : Request) : Nat := blockOf fd req.read.offset

def secondBlock (fd : FuseData) (req : Request) : Nat := (blockOf fd req.read.offset + 1) % 2 ^ 32

/-- What the loop is doing. In `read_block_adb` it waits for `size` bytes of a block, some of which
it has got. -/
inductive Phase
  | idle
  | serving (req : Request) (reads : List (Nat × HostRead))
  | waiting (req : Request) (reads : List (Nat × HostRead)) (block size : Nat) (got : List UInt8)
  | closed

/-- The adb host: what it has read of a message, the blocks that it has sent, and whether it was
told to stop. -/
structure AdbHost where
  buffer : Text
  served : List Nat
  done : Bool

/-- The loop, the host and the bytes between them. -/
structure Sideload where
  server : Server
  phase : Phase
  requests : List Request
  answers : List Answer
  toHost : Text
  fromHost : List UInt8
  host : AdbHost

/-- What the kernel sends to a file system that was mounted with `max_read`. It reads inside of
files, and 2^43 is far behind their ends. -/
def FromKernel (fd : FuseData) (req : Request) : Prop :=
  req.opcode = FUSE_READ → req.read.size ≤ fd.blockSize ∧ req.read.offset < 2 ^ 43

/-- `sideload_host_service`: the sizes are read as `int`, and go on as `uint64_t` and `uint32_t`. -/
def sideloadHostService (args : Text) (mem : Nat) (garbage : List UInt8) : Option FuseData :=
  match (fscanf "%d:%d" args).values with
  | [fileSize, blockSize] =>
    runFuseSideload (fileSize.bmod (2 ^ 32) % 2 ^ 64).toNat (blockSize % 2 ^ 32).toNat mem garbage
  | _ => none

section
variable (kernelMinor : Nat) (sha256 : List UInt8 → SHA256Digest) (content : List UInt8)

/-- The block of a request to the host has not been read. -/
def unread (reads : List (Nat × HostRead)) (ask : Nat × Nat) : Bool := (reads.lookup ask.1).isNone

/-- The next block that the request needs from the host, and how much of it. -/
def nextAsk (fd : FuseData) (req : Request) (reads : List (Nat × HostRead)) : Option (Nat × Nat) :=
  if req.length < inHeaderSize ∨ req.opcode ≠ FUSE_READ then none
  else (hostRequests sha256 fd req.read (readFor reads (firstBlock fd req))).find? (unread reads)

/-- What the host sends for a block of the file. -/
def hostBlock (blockSize block : Nat) : List UInt8 :=
  (content.drop (block * blockSize)).take blockSize

/-- The steps. -/
inductive Sideload.Step (s : Sideload) : Sideload → Prop
  /-- A request is read. -/
  | request : s.phase = .idle → FromKernel s.server.fd req →
    Step s { s with phase := .serving req [], requests := s.requests ++ [req] }
  /-- `read_block_adb` writes the number of a block. -/
  | ask : s.phase = .serving req reads → nextAsk sha256 s.server.fd req reads = some (block, size) →
    Step s { s with
      phase := .waiting req reads block size [], toHost := s.toHost ++ blockRequest block }
  /-- Some bytes arrive. -/
  | receive (chunk rest : List UInt8) : s.phase = .waiting req reads block size got →
    s.fromHost = chunk ++ rest → chunk ≠ [] → got.length + chunk.length ≤ size →
    Step s { s with phase := .waiting req reads block size (got ++ chunk), fromHost := rest }
  /-- `read_block_adb` returns. -/
  | received : s.phase = .waiting req reads block size got → got.length = size →
    Step s { s with phase := .serving req ((block, ⟨got, 0⟩) :: reads) }
  /-- The request is answered. -/
  | answer : s.phase = .serving req reads → nextAsk sha256 s.server.fd req reads = none →
    s.server.serve kernelMinor req sha256 (readFor reads (firstBlock s.server.fd req))
      (readFor reads (secondBlock s.server.fd req)) = some (sent, server') →
    Step s { s with phase := .idle, server := server', answers := s.answers ++ sent }
  /-- SIGTERM has come: `vtab.close`. -/
  | terminate : s.phase = .idle → Step s { s with phase := .closed, toHost := s.toHost ++ doneDone }
  /-- The host reads a part of a message. -/
  | hostReads (chunk rest : Text) : s.toHost = chunk ++ rest → chunk ≠ [] →
    s.host.buffer.length + chunk.length ≤ 8 →
    Step s { s with toHost := rest, host := { s.host with buffer := s.host.buffer ++ chunk } }
  /-- It has read the number of a block, and sends it. -/
  | hostServes : s.host.buffer.length = 8 → s.host.buffer ≠ doneDone →
    digitsValue 10 s.host.buffer = some block → Step s { s with
      fromHost := s.fromHost ++ hostBlock content s.server.fd.blockSize block
      host := { s.host with buffer := [], served := s.host.served ++ [block] } }
  /-- It has read that it is done. -/
  | hostDone :
    s.host.buffer = doneDone → Step s { s with host := { s.host with buffer := [], done := true } }

/-- A sideload of a package. -/
def sideloads : System Sideload where
  init s := s.phase = .idle ∧ s.requests = [] ∧ s.answers = [] ∧ s.toHost = [] ∧ s.fromHost = [] ∧
    s.host = ⟨[], [], false⟩ ∧ content.length < 2 ^ 31 ∧ s.server.fd.fileSize = content.length ∧
    ∃ args mem garbage, sideloadHostService args mem garbage = some s.server.fd
  step := Sideload.Step kernelMinor sha256 content

/-- The answer to a request: a read of the package shows it. -/
structure Shown (a : Answer) (req : Request) : Prop where
  answers : Answers a req
  read : req.opcode = FUSE_READ → req.nodeid = PACKAGE_FILE_ID →
    a.error = 0 ∧ a.body = .data req.read.size (shown content req.read.offset req.read.size)

end

/-- The request that is being answered. -/
def Phase.pending : Phase → List Request
  | .idle => []
  | .serving req _ => [req]
  | .waiting req _ _ _ _ => [req]
  | .closed => []

/-! ## The messages to the host -/

theorem length_blockRequest (h : block < 10 ^ 8) : (blockRequest block).length = 8 := by
  have hlen : (Nat.toDigits 10 block).length ≤ 8 :=
    (Nat.length_toDigits_le_iff (by decide) (by decide)).mpr h
  rw [blockRequest, List.length_append, List.length_replicate]
  omega

theorem mapM_zeros (k : Nat) :
    (List.replicate k '0').mapM (digitValue 10) = some (List.replicate k 0) := by
  induction k with
  | zero => rfl
  | succ k ih =>
    rw [List.replicate_succ, List.mapM_cons, ih]
    rfl

theorem foldl_zeros (k n : Nat) :
    (List.replicate k 0).foldl (fun n d => n * 10 + d) n = n * 10 ^ k := by
  induction k generalizing n with
  | zero => simp
  | succ k ih =>
    rw [List.replicate_succ, List.foldl_cons, ih, Nat.add_zero, Nat.mul_assoc, ← Nat.pow_succ']

theorem digitsValue_blockRequest (block : Nat) :
    digitsValue 10 (blockRequest block) = some block := by
  obtain ⟨ds, hds, hfold⟩ := mapM_digitValue_toDigits (by decide : 1 < 10) (by decide) block
  have hne : blockRequest block ≠ [] := List.append_ne_nil_of_right_ne_nil _ Nat.toDigits_ne_nil
  rw [digitsValue, if_neg hne, blockRequest, List.mapM_append, mapM_zeros, hds]
  simp only [Option.pure_def, Option.bind_eq_bind, Option.bind_some, Option.map_some,
    List.foldl_append, foldl_zeros, Nat.zero_mul, hfold]

theorem blockRequest_ne_doneDone (block : Nat) : blockRequest block ≠ doneDone := by
  intro h
  have hvalue := digitsValue_blockRequest block
  rw [h] at hvalue
  cases hvalue

/-! ## What the host sends -/

section

variable {kernelMinor : Nat} {sha256 : List UInt8 → SHA256Digest} {content : List UInt8}
    {fd : FuseData} {req : Request}
  {reads : List (Nat × HostRead)}

/-- The file system shows a file whose size is an `int`, which its blocks cover. -/
structure Mounted (sha256 : List UInt8 → SHA256Digest) (content : List UInt8) (fd : FuseData) :
    Prop where
  shows : Shows sha256 content fd
  small : content.length < 2 ^ 31
  blockSize_ge : 4096 ≤ fd.blockSize
  covered : content.length ≤ fd.fileBlocks * fd.blockSize

theorem Mounted.same (h : Mounted sha256 content fd) (hshows : Shows sha256 content fd')
    (hs : SameSizes fd fd') : Mounted sha256 content fd' where
  shows := hshows
  small := h.small
  blockSize_ge := hs.blockSize ▸ h.blockSize_ge
  covered := by rw [hs.fileBlocks, hs.blockSize]; exact h.covered

theorem Mounted.readFits (h : Mounted sha256 content fd) {req : ReadRequest}
    (hoff : req.offset < 2 ^ 43) : ReadFits fd req := by
  have hsmall := h.small
  have hdiv : req.offset / fd.blockSize < 2 ^ 31 :=
    (Nat.div_lt_iff_lt_mul h.shows.blockSize_pos).mpr
    (Nat.lt_of_lt_of_le hoff (Nat.mul_le_mul_left (2 ^ 31) h.blockSize_ge))
  have hfits : ∀ block < 2 ^ 31 + 1, BlockFits fd block := by
    intro block hb
    have hmod : block % 2 ^ 32 = block := Nat.mod_eq_of_lt (by omega)
    refine ⟨fun _ => by omega, fun hge => ?_, fun hlt => .inl ?_⟩
    · rw [h.shows.fileSize]
      exact h.covered.trans (Nat.mul_le_mul_right _ (hmod ▸ hge))
    · have hlt := h.shows.fileBlocks _ hlt
      rw [hmod, h.shows.fileSize] at hlt
      omega
  have hlast : noBlock = 2 ^ 32 - 1 := rfl
  refine ⟨hfits _ (by omega), fun hno _ => ?_, fun _ => hfits _ (by omega)⟩
  rw [blockOf, hlast, Nat.mod_eq_of_lt (by omega)] at hno
  omega

/-- What the host has of a block. -/
def honest (content : List UInt8) (fd : FuseData) (block : Nat) : HostRead :=
  ⟨hostBlock content fd.blockSize block, 0⟩

theorem Mounted.honest (h : Mounted sha256 content fd) (block : Nat) :
    Honest content fd block (honest content fd block) := by
  intro hle
  refine ⟨?_, Int.le_refl 0⟩
  have hsmall := h.small
  have hstart : blockStart fd block = block * fd.blockSize := Nat.mod_eq_of_lt (by omega)
  dsimp only [FuseSideload.honest, hostBlock]
  unfold fetchSize
  rw [hstart, h.shows.fileSize]
  split
  · rw [List.take_of_length_le (by rw [List.length_drop]; omega),
      List.take_of_length_le (by rw [List.length_drop])]
  · rfl

/-- All that was read is what the host has. -/
def Served (content : List UInt8) (fd : FuseData) (reads : List (Nat × HostRead)) : Prop :=
  ∀ block r, reads.lookup block = some r → r = honest content fd block

theorem Served.readFor (h : Served content fd reads) (hb : (reads.lookup block).isSome) :
    readFor reads block = honest content fd block := by
  obtain ⟨r, hr⟩ := Option.isSome_iff_exists.mp hb
  rw [FuseSideload.readFor, hr, Option.getD_some, h block r hr]

/-! ## Fetches that do not ask the host -/

theorem fetchBlock_congr (h : hostRequest fd block = none ∨ host = host') :
    fetchBlock sha256 fd block host = fetchBlock sha256 fd block host' := by
  rcases h with h | rfl
  · unfold fetchBlock
    by_cases hcur : block = fd.currBlock
    · rw [if_pos hcur, if_pos hcur]
    rw [if_neg hcur, if_neg hcur]
    by_cases hblock : fd.fileBlocks ≤ block
    · rw [if_pos hblock, if_pos hblock]
    rw [if_neg hblock, if_neg hblock]
    unfold hostRequest at h
    rw [if_neg hcur, if_neg hblock] at h
    obtain ⟨fd', heq⟩ : ∃ fd', blockCacheFetch fd block = (0, fd') := by
      split at h
      · exact ⟨_, ‹_›⟩
      · cases h
    rw [heq]
    rfl
  · rfl

theorem hostRequests_congr {req : ReadRequest}
    (h : hostRequest fd (blockOf fd req.offset) = none ∨ host = host') :
    hostRequests sha256 fd req host = hostRequests sha256 fd req host' := by
  unfold hostRequests
  rw [fetchBlock_congr h]

theorem hostRequest_extraBlock (extra : List UInt8) (block : Nat) :
    hostRequest { fd with extraBlock := extra } block = hostRequest fd block := by
  unfold hostRequest blockCacheFetch
  cases fd.blockCache with
  | none => rfl
  | some cache =>
    dsimp only
    cases cache.getD block none <;> rfl

/-- What `handle_read` does behind the first fetch, and behind the second one. -/
def readRest (sha256 : List UInt8 → SHA256Digest) (req : ReadRequest) (block : Nat)
    (host : HostRead) (r : Int × FuseData) : Option (Int × Option (List UInt8) × FuseData) :=
  if r.1 ≠ 0 then some (r.1, none, r.2)
  else if (req.size + blockOffset r.2 req.offset) % 2 ^ 32 ≤ r.2.blockSize then
    some (NO_STATUS, some ((r.2.blockData.drop (blockOffset r.2 req.offset)).take req.size), r.2)
  else
    let fd := { r.2 with
      extraBlock := overwrite r.2.extraBlock ((r.2.blockData.drop (blockOffset r.2 req.offset)).take
        (r.2.blockSize - blockOffset r.2 req.offset)) }
    (fetchBlock sha256 fd block host).bind fun r' =>
      if r'.1 ≠ 0 then some (r'.1, none, r'.2)
      else some (NO_STATUS, some (fd.extraBlock.take (fd.blockSize - blockOffset r.2 req.offset) ++
        r'.2.blockData.take (req.size - (r'.2.blockSize - blockOffset r.2 req.offset))), r'.2)

theorem handleRead_eq {req : ReadRequest} (hnode : req.nodeid = PACKAGE_FILE_ID)
    (host₁ host₂ : HostRead) :
    handleRead sha256 fd req host₁ host₂ = (fetchBlock sha256 fd (blockOf fd req.offset) host₁).bind
      (readRest sha256 req ((blockOf fd req.offset + 1) % 2 ^ 32) host₂) := by
  rw [handleRead, if_neg (not_not_intro hnode)]
  rfl

theorem readRest_congr {req : ReadRequest} {r : Int × FuseData}
    (h : r.1 = 0 → Spills r.2 req → hostRequest r.2 block = none ∨ host = host') :
    readRest sha256 req block host r = readRest sha256 req block host' r := by
  unfold readRest
  by_cases hr : r.1 ≠ 0
  · rw [if_pos hr, if_pos hr]
  rw [if_neg hr, if_neg hr]
  by_cases hfits : (req.size + blockOffset r.2 req.offset) % 2 ^ 32 ≤ r.2.blockSize
  · rw [if_pos hfits, if_pos hfits]
  rw [if_neg hfits, if_neg hfits]
  dsimp only
  have hsame := h (Decidable.of_not_not hr) hfits
  rw [fetchBlock_congr (hsame.imp_left ((hostRequest_extraBlock _ block).trans))]

theorem handleRead_congr {req : ReadRequest}
    (h₁ : hostRequest fd (blockOf fd req.offset) = none ∨ host₁ = host₁')
    (h₂ : ∀ fd₁, fetchBlock sha256 fd (blockOf fd req.offset) host₁' = some (0, fd₁) →
      Spills fd₁ req → hostRequest fd₁ ((blockOf fd req.offset + 1) % 2 ^ 32) = none ∨
      host₂ = host₂') (hnode : req.nodeid = PACKAGE_FILE_ID) :
    handleRead sha256 fd req host₁ host₂ = handleRead sha256 fd req host₁' host₂' := by
  rw [handleRead_eq hnode, handleRead_eq hnode]
  generalize (blockOf fd req.offset + 1) % 2 ^ 32 = next at h₂ ⊢
  generalize blockOf fd req.offset = first at h₁ h₂ ⊢
  rw [fetchBlock_congr h₁]
  cases hfetch : fetchBlock sha256 fd first host₁' with
  | none => rw [Option.bind_none, Option.bind_none]
  | some r =>
    rw [Option.bind_some, Option.bind_some]
    refine readRest_congr fun hr hspills => h₂ r.2 ?_ hspills
    rw [hfetch, ← hr]

/-! ## What a request needs -/

/-- A read of the package whose header is complete. -/
structure Reading (req : Request) : Prop where
  complete : inHeaderSize ≤ req.length
  opcode : req.opcode = FUSE_READ
  nodeid : req.nodeid = PACKAGE_FILE_ID

theorem hostRequest_block (h : hostRequest fd block = some ask) : ask.1 = block := by
  unfold hostRequest at h
  split_ifs at h
  split at h
  · cases h
  · cases h
    rfl

theorem hostRequests_first (sha256 : List UInt8 → SHA256Digest) {req : ReadRequest}
    (hnode : req.nodeid = PACKAGE_FILE_ID) (h : hostRequest fd (blockOf fd req.offset) = some ask)
    (host : HostRead) : ∃ rest, hostRequests sha256 fd req host = ask :: rest := by
  rw [hostRequests, if_neg (not_not_intro hnode), h, Option.toList_some, List.singleton_append]
  exact ⟨_, rfl⟩

theorem mem_hostRequests_second {req : ReadRequest} (hnode : req.nodeid = PACKAGE_FILE_ID)
    (hfetch : fetchBlock sha256 fd (blockOf fd req.offset) host = some (0, fd₁))
    (hspills : Spills fd₁ req)
    (h : hostRequest fd₁ ((blockOf fd req.offset + 1) % 2 ^ 32) = some ask) :
    ask ∈ hostRequests sha256 fd req host := by
  unfold hostRequests
  rw [if_neg (not_not_intro hnode), hfetch]
  refine List.mem_append_right _ ?_
  split
  · rename_i heq
    cases heq
    rw [if_pos hspills]
    exact Option.mem_toList.mpr h
  · rename_i hne
    exact absurd rfl (hne fd₁)

theorem hostRequests_blocks {req : ReadRequest} {host : HostRead}
    (h : ask ∈ hostRequests sha256 fd req host) :
    ask.1 = blockOf fd req.offset ∨ ask.1 = (blockOf fd req.offset + 1) % 2 ^ 32 := by
  unfold hostRequests at h
  split at h
  · cases h
  rcases List.mem_append.mp h with h | h
  · exact .inl (hostRequest_block (Option.mem_toList.mp h))
  split at h
  · split at h
    · exact .inr (hostRequest_block (Option.mem_toList.mp h))
    · cases h
  · cases h

theorem readFor_of_asked (hserved : Served content fd reads)
    (h : hostRequest fd' block = none ∨ (reads.lookup block).isSome) :
    hostRequest fd' block = none ∨ readFor reads block = honest content fd block :=
  h.imp_right hserved.readFor

theorem nextAsk_reading (h : nextAsk sha256 fd req reads = some ask) : Reading req := by
  unfold nextAsk at h
  split at h
  · cases h
  rename_i hread
  push Not at hread
  refine ⟨hread.1, hread.2, ?_⟩
  by_contra hnode
  have hnode : req.read.nodeid ≠ PACKAGE_FILE_ID := hnode
  rw [hostRequests, if_pos hnode] at h
  cases h

/-- A block is asked for once, and only if an honest host makes the loop ask for it. -/
theorem nextAsk_spec (hserved : Served content fd reads)
    (h : nextAsk sha256 fd req reads = some (block, size)) :
    (block, size) ∈ hostRequests sha256 fd req.read (honest content fd (firstBlock fd req)) ∧
      reads.lookup block = none := by
  have hreading := nextAsk_reading h
  have hnot : ¬(req.length < inHeaderSize ∨ req.opcode ≠ FUSE_READ) := by
    rintro (hlen | hop)
    · exact absurd hreading.complete (Nat.not_le.mpr hlen)
    · exact hop hreading.opcode
  rw [nextAsk, if_neg hnot] at h
  have hunread : unread reads (block, size) = true := List.find?_some h
  have hnone : reads.lookup block = none := Option.isNone_iff_eq_none.mp hunread
  refine ⟨?_, hnone⟩
  by_cases hfirst : hostRequest fd (firstBlock fd req) = none ∨
    (reads.lookup (firstBlock fd req)).isSome
  · have hsame : hostRequests sha256 fd req.read _ = hostRequests sha256 fd req.read _ :=
      hostRequests_congr (readFor_of_asked hserved hfirst)
    exact hsame ▸ List.mem_of_find?_eq_some h
  · -- it is the first block
    push Not at hfirst
    obtain ⟨ask, hask⟩ := Option.ne_none_iff_exists'.mp hfirst.1
    have hunread : unread reads ask = true := by
      rw [unread, hostRequest_block hask]
      exact Option.isNone_iff_eq_none.mpr (Option.not_isSome_iff_eq_none.mp hfirst.2)
    obtain ⟨rest, hrest⟩ :=
      hostRequests_first sha256 hreading.nodeid hask (readFor reads (firstBlock fd req))
    rw [hrest, List.find?_cons_of_pos hunread] at h
    cases h
    obtain ⟨rest, hrest⟩ :=
      hostRequests_first sha256 hreading.nodeid hask (honest content fd (firstBlock fd req))
    rw [hrest]
    exact List.mem_cons_self

/-- Where nothing is left to ask for, the answer is that of an honest host. -/
theorem nextAsk_none (hserved : Served content fd reads) (hreading : Reading req)
    (h : nextAsk sha256 fd req reads = none) :
    handleRead sha256 fd req.read (readFor reads (firstBlock fd req))
    (readFor reads (secondBlock fd req)) =
      handleRead sha256 fd req.read (honest content fd (firstBlock fd req))
      (honest content fd (secondBlock fd req)) := by
  have hnot : ¬(req.length < inHeaderSize ∨ req.opcode ≠ FUSE_READ) := by
    rintro (hlen | hop)
    · exact absurd hreading.complete (Nat.not_le.mpr hlen)
    · exact hop hreading.opcode
  rw [nextAsk, if_neg hnot, List.find?_eq_none] at h
  have hread : ∀ ask ∈ hostRequests sha256 fd req.read (readFor reads (firstBlock fd req)),
      (reads.lookup ask.1).isSome := by
    intro ask hask
    simpa [unread] using h ask hask
  have hfirst : hostRequest fd (firstBlock fd req) = none ∨
      readFor reads (firstBlock fd req) = honest content fd (firstBlock fd req) := by
    refine readFor_of_asked hserved ?_
    cases hask : hostRequest fd (firstBlock fd req) with
    | none => exact .inl rfl
    | some ask =>
      obtain ⟨rest, hrest⟩ :=
        hostRequests_first sha256 hreading.nodeid hask (readFor reads (firstBlock fd req))
      have hsome := hread ask (hrest ▸ List.mem_cons_self)
      rw [hostRequest_block hask] at hsome
      exact .inr hsome
  rw [hostRequests_congr hfirst] at hread
  refine handleRead_congr hfirst (fun fd₁ hfetch hspills => ?_) hreading.nodeid
  refine readFor_of_asked hserved ?_
  cases hask : hostRequest fd₁ ((blockOf fd req.read.offset + 1) % 2 ^ 32) with
  | none => exact .inl rfl
  | some ask =>
    have hsome := hread ask (mem_hostRequests_second hreading.nodeid hfetch hspills hask)
    rw [hostRequest_block hask] at hsome
    exact .inr hsome

/-! ## An answer -/

theorem handleRead_succeeds {req : ReadRequest} (h : Mounted sha256 content fd)
    (hsize : req.size ≤ fd.blockSize) (hoff : req.offset < 2 ^ 43)
    (hnode : req.nodeid = PACKAGE_FILE_ID)
    (he : handleRead sha256 fd req (honest content fd (blockOf fd req.offset))
      (honest content fd ((blockOf fd req.offset + 1) % 2 ^ 32)) = some (status, reply, fd')) :
    status = NO_STATUS := by
  have hfit := h.readFits hoff
  rw [handleRead_eq hnode] at he
  obtain ⟨⟨r₁, fd₁⟩, h₁, he⟩ := Option.bind_eq_some_iff.mp he
  obtain ⟨hshows₁, hsame₁, rfl, _, hcurr₁⟩ :=
    fetchBlock_shows h.shows (hfit.first.fetchFits hfit.noBlock) (h.honest _) h₁
  unfold readRest at he
  rw [if_neg (not_not_intro rfl)] at he
  split at he
  · cases he
    rfl
  · -- the second block
    rename_i hspills
    have hsecond : BlockFits fd (req.offset / fd.blockSize + 1) := by
      have hspills : Spills fd₁ req := hspills
      rw [spills_iff hshows₁ (by rw [hsame₁.blockSize]; exact hsize), hsame₁.blockSize,
        ← spills_iff h.shows hsize] at hspills
      exact hfit.second hspills
    have hnext :
        (blockOf fd req.offset + 1) % 2 ^ 32 = (req.offset / fd.blockSize + 1) % 2 ^ 32 := by
      rw [blockOf, Nat.mod_add_mod]
    have hno : (req.offset / fd.blockSize + 1) % 2 ^ 32 = noBlock → fd₁.currBlock = noBlock →
        fd₁.blockData = List.replicate fd₁.blockSize 0 := by
      intro hb hc
      rw [hcurr₁, noBlock] at hc
      rw [noBlock] at hb
      omega
    rw [hnext] at he
    obtain ⟨⟨r₂, fd₂⟩, h₂, he⟩ := Option.bind_eq_some_iff.mp he
    have hzero :
        ∀ extra, fetchBlock sha256 { fd₁ with extraBlock := extra }
        ((req.offset / fd.blockSize + 1) % 2 ^ 32)
        (honest content fd ((req.offset / fd.blockSize + 1) % 2 ^ 32)) = some (r₂, fd₂) →
          r₂ = 0 := by
      intro extra h₂
      have hshows : Shows sha256 content { fd₁ with extraBlock := extra } := { hshows₁ with }
      have hsame : SameSizes fd { fd₁ with extraBlock := extra } := ⟨hsame₁.1, hsame₁.2, hsame₁.3⟩
      exact (fetchBlock_shows hshows ((hsecond.same hsame).fetchFits hno) ((h.honest _).same hsame)
        h₂).2.2.1
    rw [if_neg (not_not_intro (hzero _ h₂))] at he
    cases he
    rfl

/-- A request that is no read of the package leaves the file system as it is. -/
theorem handleRequest_other (h : ¬(req.opcode = FUSE_READ ∧ req.nodeid = PACKAGE_FILE_ID))
    (he : handleRequest kernelMinor s req sha256 host₁ host₂ = some (result, body, fd')) :
    fd' = s.fd := by
  unfold handleRequest at he
  dsimp only at he
  split_ifs at he with _ _ _ _ hread
  · cases he
    rfl
  · cases he
    rfl
  · cases he
    rfl
  · cases he
    rfl
  · obtain ⟨⟨status, reply, fd₁⟩, hhandle, heq⟩ := Option.map_eq_some_iff.mp he
    have hnode : req.read.nodeid ≠ PACKAGE_FILE_ID := fun hnode => h ⟨hread, hnode⟩
    rw [handleRead, if_pos hnode] at hhandle
    cases hhandle
    cases heq
    rfl
  · cases he
    rfl
  · cases he
    rfl
  · cases he
    rfl

theorem handleRequest_read (h : req.opcode = FUSE_READ) :
    handleRequest kernelMinor s req sha256 host₁ host₂ =
      (handleRead sha256 s.fd req.read host₁ host₂).map fun (result, bytes, fd) =>
        (result, bytes.map (.data req.read.size), fd) := by
  unfold handleRequest
  dsimp only
  rw [if_neg (by rw [h]; decide), if_neg (by rw [h]; decide), if_neg (by rw [h]; decide),
    if_neg (by rw [h]; decide), if_pos h]

theorem Mounted.sized (h : Mounted sha256 content fd) : Sized fd :=
  ⟨h.shows.blockSize_pos, h.shows.blockSize_le, h.shows.data_length⟩

theorem serve_shown {s s' : Server} (h : Mounted sha256 content s.fd)
    (hkernel : FromKernel s.fd req) (hserved : Served content s.fd reads)
    (hnone : nextAsk sha256 s.fd req reads = none)
    (he : s.serve kernelMinor req sha256 (readFor reads (firstBlock s.fd req))
      (readFor reads (secondBlock s.fd req)) = some (sent, s')) :
    Mounted sha256 content s'.fd ∧ SameSizes s.fd s'.fd ∧
    List.Forall₂ (Shown content) sent (complete [req]) := by
  obtain ⟨_, _, hanswers⟩ := serve_answers h.sized (fun hread => (hkernel hread).1) he
  unfold Server.serve at he
  by_cases hshort : req.length < inHeaderSize
  · rw [if_pos hshort] at he
    cases he
    rw [show complete [req] = [] from List.filter_cons_of_neg (by simpa using hshort)]
    exact ⟨h, ⟨rfl, rfl, rfl⟩, .nil⟩
  rw [if_neg hshort] at he hanswers
  rw [show complete [req] = [req] from List.filter_cons_of_pos (by simpa using hshort)]
  obtain ⟨⟨result, body, fd⟩, hreq, heq⟩ := Option.map_eq_some_iff.mp he
  cases heq
  obtain ⟨a, rest, hanswer, hrest, hsent⟩ := List.forall₂_cons_right_iff.mp hanswers
  obtain rfl := List.forall₂_nil_right_iff.mp hrest
  by_cases hread : req.opcode = FUSE_READ ∧ req.nodeid = PACKAGE_FILE_ID
  · obtain ⟨hsize, hoff⟩ := hkernel hread.1
    rw [handleRequest_read hread.1,
      nextAsk_none hserved ⟨Nat.not_lt.mp hshort, hread.1, hread.2⟩ hnone] at hreq
    obtain ⟨⟨status, reply, fd₁⟩, hhandle, heq⟩ := Option.map_eq_some_iff.mp hreq
    cases heq
    obtain ⟨hshows, hsame, hreply⟩ :=
      handleRead_shows h.shows hsize ⟨h.honest _, h.honest _⟩ (h.readFits hoff) hhandle
    obtain rfl := handleRead_succeeds h hsize hoff hread.2 hhandle
    obtain ⟨_, _, ⟨_, bytes, rfl, _⟩ | ⟨hne, _⟩⟩ := handleRead_sized h.sized hsize hhandle
    · refine ⟨h.same hshows hsame, hsame, ?_⟩
      rw [if_neg (not_not_intro rfl), List.append_nil]
      refine .cons ⟨?_, fun _ _ => ⟨rfl, ?_⟩⟩ .nil
      · cases hsent
        exact hanswer
      · rw [hreply bytes rfl]
        rfl
    · exact absurd rfl hne
  · obtain rfl := handleRequest_other hread hreq
    refine ⟨h, ⟨rfl, rfl, rfl⟩, ?_⟩
    rw [hsent]
    exact .cons ⟨hanswer, fun hop hnode => absurd ⟨hop, hnode⟩ hread⟩ .nil

/-- What is asked for is a part of the package, and all that there is of the block. -/
structure Asked (content : List UInt8) (fd : FuseData) (block size : Nat) : Prop where
  inside : block * fd.blockSize < content.length
  block_lt : block < 10 ^ 8
  all : size = (hostBlock content fd.blockSize block).length
  pos : 0 < size

theorem nextAsk_asked (h : Mounted sha256 content fd) (hkernel : FromKernel fd req)
    (hserved : Served content fd reads) (hask : nextAsk sha256 fd req reads = some (block, size)) :
    Asked content fd block size := by
  obtain ⟨hsize, hoff⟩ := hkernel (nextAsk_reading hask).opcode
  obtain ⟨hmem, _⟩ := nextAsk_spec hserved hask
  obtain ⟨hlt, hmin⟩ :=
    hostRequests_shows h.shows hsize ⟨h.honest _, h.honest (secondBlock fd req)⟩
      (h.readFits hoff) hmem
  have hinside := h.shows.fileBlocks _ hlt
  rw [h.shows.fileSize] at hinside
  have hle := h.shows.fileBlocks_le
  have hpos := h.shows.blockSize_pos
  refine ⟨hinside, by omega, ?_, by omega⟩
  rw [hostBlock, List.length_take, List.length_drop, hmin]

end

/-! ## The two sides together -/

/-- Nothing is under way. -/
structure Quiet (s : Sideload) : Prop where
  toHost : s.toHost = []
  fromHost : s.fromHost = []
  buffer : s.host.buffer = []
  going : s.host.done = false

/-- A request with what was read for it. -/
structure Serving (content : List UInt8) (s : Sideload) (req : Request)
    (reads : List (Nat × HostRead)) : Prop where
  fromKernel : FromKernel s.server.fd req
  served : Served content s.server.fd reads

/-- A message is on its way to the host. -/
structure Told (s : Sideload) (message : Text) : Prop where
  under : s.host.buffer ++ s.toHost = message
  fromHost : s.fromHost = []
  going : s.host.done = false

/-- A block is on its way from the host. -/
structure Sent (content : List UInt8) (s : Sideload) (block : Nat) (got : List UInt8) : Prop where
  toHost : s.toHost = []
  buffer : s.host.buffer = []
  going : s.host.done = false
  under : got ++ s.fromHost = hostBlock content s.server.fd.blockSize block

/-- What is under way is what the loop waits for. -/
inductive InSync (sha256 : List UInt8 → SHA256Digest) (content : List UInt8) (s : Sideload) : Prop
  | idle : s.phase = .idle → Quiet s → InSync sha256 content s
  | serving : s.phase = .serving req reads → Quiet s → Serving content s req reads →
    InSync sha256 content s
  | told : s.phase = .waiting req reads block size [] → Serving content s req reads →
    nextAsk sha256 s.server.fd req reads = some (block, size) → Told s (blockRequest block) →
    InSync sha256 content s
  | sent : s.phase = .waiting req reads block size got → Serving content s req reads →
    nextAsk sha256 s.server.fd req reads = some (block, size) → Sent content s block got →
    InSync sha256 content s
  | closing : s.phase = .closed → Told s doneDone → InSync sha256 content s
  | closed : s.phase = .closed → s.toHost = [] → s.fromHost = [] → s.host.buffer = [] →
    s.host.done = true → InSync sha256 content s

/-- The invariant of a sideload. -/
structure Sideload.Inv (sha256 : List UInt8 → SHA256Digest) (content : List UInt8) (s : Sideload) :
    Prop where
  mounted : Mounted sha256 content s.server.fd
  sync : InSync sha256 content s
  answered : ∃ handled, s.requests = handled ++ s.phase.pending ∧
    List.Forall₂ (Shown content) s.answers (complete handled)
  served : ∀ block ∈ s.host.served, block * s.server.fd.blockSize < content.length

section

variable {kernelMinor : Nat} {sha256 : List UInt8 → SHA256Digest} {content : List UInt8}
    {fd : FuseData} {req : Request}
  {reads : List (Nat × HostRead)} {s s' : Sideload}

theorem runFuseSideload_mounted (h : runFuseSideload fileSize blockSize mem garbage = some fd)
    (hsize : fd.fileSize = content.length) (hsmall : content.length < 2 ^ 31) :
    Mounted sha256 content fd := by
  have hfile : fd.fileSize = fileSize ∧ 4096 ≤ fd.blockSize ∧
      fd.fileBlocks = numBlocks fd.fileSize fd.blockSize := by
    unfold runFuseSideload at h
    split at h
    · cases h
    split at h
    · cases h
    cases h
    exact ⟨rfl, by dsimp only; omega, rfl⟩
  obtain ⟨rfl, hge, hblocks⟩ := hfile
  rw [hsize] at h hblocks
  have hshows : Shows sha256 content fd := runFuseSideload_shows h
  refine ⟨hshows, hsmall, hge, ?_⟩
  rw [hblocks, numBlocks]
  split
  · omega
  · have hdiv := Nat.div_add_mod (content.length - 1) fd.blockSize
    have hlt := Nat.mod_lt (content.length - 1) hshows.blockSize_pos
    have hle := Nat.div_le_self (content.length - 1) fd.blockSize
    rw [Nat.mod_eq_of_lt (by omega), Nat.add_mul, Nat.one_mul, Nat.mul_comm]
    omega

theorem sideloads_init (h : (sideloads kernelMinor sha256 content).init s) :
    s.Inv sha256 content := by
  obtain ⟨hphase, hrequests, hanswers, htoHost, hfromHost, hhost, hsmall, hsize, args, mem, garbage,
      hservice⟩ := h
  have hmounted : Mounted sha256 content s.server.fd := by
    unfold sideloadHostService at hservice
    split at hservice
    · exact runFuseSideload_mounted hservice hsize hsmall
    · cases hservice
  refine ⟨hmounted, .idle hphase ⟨htoHost, hfromHost, by rw [hhost], by rw [hhost]⟩,
    ⟨[], ?_, ?_⟩, ?_⟩
  · rw [hphase, hrequests]
    rfl
  · rw [hanswers]
    exact .nil
  · rw [hhost]
    exact fun _ hmem => nomatch hmem

/-! ### What the state says of what is under way -/

theorem InSync.of_idle (h : InSync sha256 content s) (hphase : s.phase = .idle) : Quiet s := by
  cases h with
  | idle _ hquiet => exact hquiet
  | serving hp => cases hphase.symm.trans hp
  | told hp => cases hphase.symm.trans hp
  | sent hp => cases hphase.symm.trans hp
  | closing hp => cases hphase.symm.trans hp
  | closed hp => cases hphase.symm.trans hp

theorem InSync.of_serving (h : InSync sha256 content s) (hphase : s.phase = .serving req reads) :
    Quiet s ∧ Serving content s req reads := by
  cases h with
  | idle hp => cases hphase.symm.trans hp
  | serving hp hquiet hserving =>
    cases hphase.symm.trans hp
    exact ⟨hquiet, hserving⟩
  | told hp => cases hphase.symm.trans hp
  | sent hp => cases hphase.symm.trans hp
  | closing hp => cases hphase.symm.trans hp
  | closed hp => cases hphase.symm.trans hp

theorem InSync.of_waiting (h : InSync sha256 content s)
    (hphase : s.phase = .waiting req reads block size got) :
    Serving content s req reads ∧ nextAsk sha256 s.server.fd req reads = some (block, size) ∧
      ((got = [] ∧ Told s (blockRequest block)) ∨ Sent content s block got) := by
  cases h with
  | idle hp => cases hphase.symm.trans hp
  | serving hp => cases hphase.symm.trans hp
  | told hp hserving hask htold =>
    cases hphase.symm.trans hp
    exact ⟨hserving, hask, .inl ⟨rfl, htold⟩⟩
  | sent hp hserving hask hsent =>
    cases hphase.symm.trans hp
    exact ⟨hserving, hask, .inr hsent⟩
  | closing hp => cases hphase.symm.trans hp
  | closed hp => cases hphase.symm.trans hp

/-- A message to the host is the number of the block that is waited for, or the last one. -/
theorem InSync.of_message (h : InSync sha256 content s) (hne : s.host.buffer ++ s.toHost ≠ []) :
    (∃ req reads block size, s.phase = .waiting req reads block size [] ∧
      Serving content s req reads ∧ nextAsk sha256 s.server.fd req reads = some (block, size) ∧
      Told s (blockRequest block)) ∨
    (s.phase = .closed ∧ Told s doneDone) := by
  have hempty : ¬(s.host.buffer = [] ∧ s.toHost = []) := mt List.append_eq_nil_iff.mpr hne
  cases h with
  | idle _ hquiet => exact absurd ⟨hquiet.buffer, hquiet.toHost⟩ hempty
  | serving _ hquiet => exact absurd ⟨hquiet.buffer, hquiet.toHost⟩ hempty
  | told hp hserving hask htold => exact .inl ⟨_, _, _, _, hp, hserving, hask, htold⟩
  | sent _ _ _ hsent => exact absurd ⟨hsent.buffer, hsent.toHost⟩ hempty
  | closing hp htold => exact .inr ⟨hp, htold⟩
  | closed _ htoHost _ hbuffer => exact absurd ⟨hbuffer, htoHost⟩ hempty

theorem Told.read (h : Told s message) (hlen : message.length = 8)
    (hbuffer : s.host.buffer.length = 8) : s.host.buffer = message ∧ s.toHost = [] := by
  have happ := congrArg List.length h.under
  rw [List.length_append, hlen, hbuffer] at happ
  have hnil : s.toHost = [] := List.length_eq_zero_iff.mp (by omega)
  have hunder := h.under
  rw [hnil, List.append_nil] at hunder
  exact ⟨hunder, hnil⟩

/-! ### The steps -/

theorem Sideload.Inv.request (h : s.Inv sha256 content) (hphase : s.phase = .idle)
    (hkernel : FromKernel s.server.fd req) :
    Sideload.Inv sha256 content
    { s with phase := .serving req [], requests := s.requests ++ [req] } where
  mounted := h.mounted
  sync := by
    have hquiet := h.sync.of_idle hphase
    refine .serving rfl ⟨hquiet.toHost, hquiet.fromHost, hquiet.buffer, hquiet.going⟩ ⟨hkernel, ?_⟩
    intro block r hr
    cases hr
  answered := by
    obtain ⟨handled, hrequests, hall⟩ := h.answered
    rw [hphase, Phase.pending, List.append_nil] at hrequests
    exact ⟨handled, congrArg (· ++ [req]) hrequests, hall⟩
  served := h.served

theorem Sideload.Inv.ask (h : s.Inv sha256 content) (hphase : s.phase = .serving req reads)
    (hask : nextAsk sha256 s.server.fd req reads = some (block, size)) :
    Sideload.Inv sha256 content
      { s with phase := .waiting req reads block size [], toHost := s.toHost ++ blockRequest block }
      where
  mounted := h.mounted
  sync := by
    obtain ⟨hquiet, hserving⟩ := h.sync.of_serving hphase
    refine .told rfl ⟨hserving.fromKernel, hserving.served⟩ hask ⟨?_, hquiet.fromHost, hquiet.going⟩
    dsimp only
    rw [hquiet.buffer, hquiet.toHost]
    rfl
  answered := by
    obtain ⟨handled, hrequests, hall⟩ := h.answered
    rw [hphase] at hrequests
    exact ⟨handled, hrequests, hall⟩
  served := h.served

theorem Sideload.Inv.receive (h : s.Inv sha256 content)
    (hphase : s.phase = .waiting req reads block size got) (hfrom : s.fromHost = chunk ++ rest)
    (hne : chunk ≠ []) : Sideload.Inv sha256 content
      { s with phase := .waiting req reads block size (got ++ chunk), fromHost := rest } where
  mounted := h.mounted
  sync := by
    obtain ⟨hserving, hask, ⟨_, htold⟩ | hsent⟩ := h.sync.of_waiting hphase
    · -- nothing can have come
      exact absurd (List.append_eq_nil_iff.mp (hfrom.symm.trans htold.fromHost)).1 hne
    · refine .sent rfl ⟨hserving.fromKernel, hserving.served⟩ hask ⟨hsent.toHost, hsent.buffer,
        hsent.going, ?_⟩
      have hunder := hsent.under
      rw [hfrom, ← List.append_assoc] at hunder
      exact hunder
  answered := by
    obtain ⟨handled, hrequests, hall⟩ := h.answered
    rw [hphase] at hrequests
    exact ⟨handled, hrequests, hall⟩
  served := h.served

theorem Served.cons (h : Served content fd reads) :
    Served content fd ((block, honest content fd block) :: reads) := by
  intro b r hr
  rw [List.lookup_cons] at hr
  split at hr
  · rename_i heq
    cases hr
    rw [eq_of_beq heq]
  · exact h b r hr

theorem Sideload.Inv.received (h : s.Inv sha256 content)
    (hphase : s.phase = .waiting req reads block size got) (hlen : got.length = size) :
    Sideload.Inv sha256 content { s with phase := .serving req ((block, ⟨got, 0⟩) :: reads) } where
  mounted := h.mounted
  sync := by
    obtain ⟨hserving, hask, hway⟩ := h.sync.of_waiting hphase
    have hasked := nextAsk_asked h.mounted hserving.fromKernel hserving.served hask
    rcases hway with ⟨rfl, _⟩ | hsent
    · -- the block is not empty
      have hpos := hasked.pos
      rw [← hlen] at hpos
      exact absurd hpos (Nat.lt_irrefl 0)
    · have happ := congrArg List.length hsent.under
      rw [List.length_append, hlen, ← hasked.all] at happ
      have hnil : s.fromHost = [] := List.length_eq_zero_iff.mp (by omega)
      have hunder := hsent.under
      rw [hnil, List.append_nil] at hunder
      refine .serving rfl ⟨hsent.toHost, hnil, hsent.buffer, hsent.going⟩ ⟨hserving.fromKernel, ?_⟩
      rw [hunder]
      exact hserving.served.cons
  answered := by
    obtain ⟨handled, hrequests, hall⟩ := h.answered
    rw [hphase] at hrequests
    exact ⟨handled, hrequests, hall⟩
  served := h.served

theorem Sideload.Inv.answer (h : s.Inv sha256 content) (hphase : s.phase = .serving req reads)
    (hnone : nextAsk sha256 s.server.fd req reads = none)
    (hserve : s.server.serve kernelMinor req sha256 (readFor reads (firstBlock s.server.fd req))
      (readFor reads (secondBlock s.server.fd req)) = some (sent, server')) :
    Sideload.Inv sha256 content
    { s with phase := .idle, server := server', answers := s.answers ++ sent } := by
  obtain ⟨hquiet, hserving⟩ := h.sync.of_serving hphase
  obtain ⟨hmounted, hsame, hshown⟩ :=
    serve_shown h.mounted hserving.fromKernel hserving.served hnone hserve
  refine ⟨hmounted, .idle rfl ⟨hquiet.toHost, hquiet.fromHost, hquiet.buffer, hquiet.going⟩, ?_, ?_⟩
  · obtain ⟨handled, hrequests, hall⟩ := h.answered
    rw [hphase] at hrequests
    refine ⟨handled ++ [req], hrequests.trans (List.append_nil _).symm, ?_⟩
    rw [complete, List.filter_append]
    exact List.rel_append hall hshown
  · dsimp only
    rw [hsame.blockSize]
    exact h.served

theorem Sideload.Inv.terminate (h : s.Inv sha256 content) (hphase : s.phase = .idle) :
    Sideload.Inv sha256 content { s with phase := .closed, toHost := s.toHost ++ doneDone } where
  mounted := h.mounted
  sync := by
    have hquiet := h.sync.of_idle hphase
    refine .closing rfl ⟨?_, hquiet.fromHost, hquiet.going⟩
    dsimp only
    rw [hquiet.buffer, hquiet.toHost]
    rfl
  answered := by
    obtain ⟨handled, hrequests, hall⟩ := h.answered
    rw [hphase] at hrequests
    exact ⟨handled, hrequests, hall⟩
  served := h.served

theorem Sideload.Inv.hostReads (h : s.Inv sha256 content) (hto : s.toHost = chunk ++ rest)
    (hne : chunk ≠ []) : Sideload.Inv sha256 content
      { s with toHost := rest, host := { s.host with buffer := s.host.buffer ++ chunk } } where
  mounted := h.mounted
  sync := by
    have hmessage : s.host.buffer ++ s.toHost ≠ [] := by
      rw [hto]
      exact List.append_ne_nil_of_right_ne_nil _ (List.append_ne_nil_of_left_ne_nil hne _)
    have hunder :
        (s.host.buffer ++ chunk) ++ rest = s.host.buffer ++ s.toHost := by
        rw [hto, List.append_assoc]
    rcases h.sync.of_message hmessage with ⟨req, reads, block, size, hp, hserving, hask,
      htold⟩ | ⟨hp, htold⟩
    · exact .told hp ⟨hserving.fromKernel, hserving.served⟩ hask ⟨hunder.trans htold.under,
        htold.fromHost, htold.going⟩
    · exact .closing hp ⟨hunder.trans htold.under, htold.fromHost, htold.going⟩
  answered := h.answered
  served := h.served

theorem Sideload.Inv.hostServes (h : s.Inv sha256 content) (hlen : s.host.buffer.length = 8)
    (hdone : s.host.buffer ≠ doneDone) (hvalue : digitsValue 10 s.host.buffer = some block) :
    Sideload.Inv sha256 content { s with
      fromHost := s.fromHost ++ hostBlock content s.server.fd.blockSize block
      host := { s.host with buffer := [], served := s.host.served ++ [block] } } := by
  have hmessage : s.host.buffer ++ s.toHost ≠ [] := by
    intro hnil
    rw [(List.append_eq_nil_iff.mp hnil).1] at hlen
    cases hlen
  rcases h.sync.of_message hmessage with ⟨req, reads, asked, size, hp, hserving, hask,
    htold⟩ | ⟨hp, htold⟩
  · have hasked := nextAsk_asked h.mounted hserving.fromKernel hserving.served hask
    obtain ⟨hbuffer, hnil⟩ := htold.read (length_blockRequest hasked.block_lt) hlen
    rw [hbuffer, digitsValue_blockRequest] at hvalue
    cases hvalue
    refine ⟨h.mounted, ?_, h.answered, ?_⟩
    · refine .sent hp ⟨hserving.fromKernel, hserving.served⟩ hask ⟨hnil, rfl, htold.going, ?_⟩
      dsimp only
      rw [htold.fromHost]
      rfl
    · intro b hb
      rcases List.mem_append.mp hb with hb | hb
      · exact h.served b hb
      · rw [List.mem_singleton.mp hb]
        exact hasked.inside
  · exact absurd (htold.read rfl hlen).1 hdone

theorem Sideload.Inv.hostDone (h : s.Inv sha256 content) (hdone : s.host.buffer = doneDone) :
    Sideload.Inv sha256 content { s with host := { s.host with buffer := [], done := true } } where
  mounted := h.mounted
  sync := by
    have hlen : s.host.buffer.length = 8 := by rw [hdone]; rfl
    have hmessage : s.host.buffer ++ s.toHost ≠ [] := by
      rw [hdone]
      exact List.append_ne_nil_of_left_ne_nil (by decide) _
    rcases h.sync.of_message hmessage with ⟨req, reads, block, size, _, hserving, hask,
      htold⟩ | ⟨hp, htold⟩
    · -- the number of a block is read otherwise
      have hasked := nextAsk_asked h.mounted hserving.fromKernel hserving.served hask
      have hbuffer := (htold.read (length_blockRequest hasked.block_lt) hlen).1
      exact absurd (hbuffer.symm.trans hdone) (blockRequest_ne_doneDone block)
    · exact .closed hp (htold.read rfl hlen).2 htold.fromHost rfl rfl
  answered := h.answered
  served := h.served

theorem sideloads_inductive :
    (sideloads kernelMinor sha256 content).Inductive (Sideload.Inv sha256 content) where
  init _ h := sideloads_init h
  step s s' h hs := by
    cases hs with
    | request hphase hkernel => exact h.request hphase hkernel
    | ask hphase hask => exact h.ask hphase hask
    | receive _ _ hphase hfrom hne _ => exact h.receive hphase hfrom hne
    | received hphase hlen => exact h.received hphase hlen
    | answer hphase hnone hserve => exact h.answer hphase hnone hserve
    | terminate hphase => exact h.terminate hphase
    | hostReads _ _ hto hne _ => exact h.hostReads hto hne
    | hostServes hlen hdone hvalue => exact h.hostServes hlen hdone hvalue
    | hostDone hdone => exact h.hostDone hdone

/-- Whatever the kernel asks and in whatever order the bytes come, the requests get their answers
one by one, reads of the package show it, and the host is only asked for blocks that it has. -/
theorem sideloads_answered (h : (sideloads kernelMinor sha256 content).Reach s) :
    (∃ handled, s.requests = handled ++ s.phase.pending ∧
      List.Forall₂ (Shown content) s.answers (complete handled)) ∧
      ∀ block ∈ s.host.served, block * s.server.fd.blockSize < content.length :=
  ⟨(sideloads_inductive.reach h).answered, (sideloads_inductive.reach h).served⟩

/-- A read of four bytes of the package from its start, in block 0. -/
def readOfFour : Request := ⟨80, FUSE_READ, 7, PACKAGE_FILE_ID, List.replicate 16 0 ++ [4, 0, 0, 0]⟩

/-- A read of the whole of three zeros, whose number and bytes come in parts. -/
theorem sideloads_answered_threeZeros : ∃ s, (sideloads 26 zerosHash [0, 0, 0]).Reach s ∧
    s.answers.map (·.body) = [.data 4 [0, 0, 0, 0]] ∧ s.host.served = [0] ∧
    (∃ handled, s.requests = handled ++ s.phase.pending ∧
      List.Forall₂ (Shown [0, 0, 0]) s.answers (complete handled)) ∧
      ∀ block ∈ s.host.served, block * s.server.fd.blockSize < ([0, 0, 0] : List UInt8).length := by
  have hasks : (sideloadHostService "3:4096".toList 0 []).map (fun fd => (fd.fileSize, fd.blockSize,
      nextAsk zerosHash fd readOfFour [], nextAsk zerosHash fd readOfFour [(0, ⟨[0, 0, 0], 0⟩)])) =
        some (3, 4096, some (0, 3), none) := by
    decide +kernel
  have hserves : (sideloadHostService "3:4096".toList 0 []).bind (fun fd =>
      ((Server.mk fd 0 0).serve 26 readOfFour zerosHash ⟨[0, 0, 0], 0⟩ noRead).map
        (·.1.map (·.body))) = some [.data 4 [0, 0, 0, 0]] := by
    decide +kernel
  obtain ⟨fd, hfd, hasks⟩ := Option.map_eq_some_iff.mp hasks
  rw [hfd, Option.bind_some] at hserves
  simp only [Prod.mk.injEq] at hasks
  obtain ⟨hsize, hbs, hask, hnone⟩ := hasks
  obtain ⟨⟨answers, server⟩, hserve, hbody⟩ := Option.map_eq_some_iff.mp hserves
  have hoffset : readOfFour.read.offset = 0 := by decide
  have hfirst :
      firstBlock fd readOfFour =
      0 := by rw [firstBlock, blockOf, hoffset, Nat.zero_div, Nat.zero_mod]
  have hsecond : secondBlock fd readOfFour = 1 :=
    congrArg (fun block => (block + 1) % 2 ^ 32) hfirst
  have hserve' : (Server.mk fd 0 0).serve 26 readOfFour zerosHash
      (readFor [(0, ⟨[0, 0, 0], 0⟩)] (firstBlock fd readOfFour))
      (readFor [(0, ⟨[0, 0, 0], 0⟩)] (secondBlock fd readOfFour)) = some (answers, server) := by
    rw [hfirst, hsecond]
    exact hserve
  have hblock : hostBlock [0, 0, 0] fd.blockSize 0 = [0, 0, 0] := by simp [hostBlock, hbs]
  have hreach :
      (sideloads 26 zerosHash [0, 0, 0]).Reach ⟨⟨fd, 0, 0⟩, .idle, [], [], [], [],
        ⟨[], [], false⟩⟩ :=
    .init ⟨rfl, rfl, rfl, rfl, rfl, rfl, by decide, hsize, _, _, _, hfd⟩
  have hreach :=
    hreach.step (.request rfl fun _ =>
      ⟨by rw [hbs]; decide, show readOfFour.read.offset < 2 ^ 43 by decide⟩)
  have hreach := hreach.step (.ask rfl hask)
  have hreach :=
    hreach.step
      (.hostReads (List.replicate 5 '0') (List.replicate 3 '0') rfl (by decide)
        (Nat.le_add_right 5 3))
  have hreach := hreach.step (.hostReads (List.replicate 3 '0') [] rfl (by decide) (Nat.le_refl 8))
  have hreach :=
    hreach.step (.hostServes rfl (blockRequest_ne_doneDone 0) (digitsValue_blockRequest 0))
  rw [hblock] at hreach
  have hreach := hreach.step (.receive [0, 0] [0] rfl rfl (by decide) (Nat.le_succ 2))
  have hreach := hreach.step (.receive [0] [] rfl rfl (by decide) (Nat.le_refl 3))
  have hreach := hreach.step (.received rfl rfl)
  have hreach := hreach.step (.answer rfl hnone hserve')
  exact ⟨_, hreach, hbody, rfl, sideloads_answered hreach⟩

end

end BootableRecovery.FuseSideload
