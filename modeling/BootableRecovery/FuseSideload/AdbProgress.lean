import BootableRecovery.FuseSideload.AdbProvider

/-!
# Reads over adb end

With a host that serves what it is asked for, no read waits forever: from every state of a sideload,
in whatever order the two sides go on, the loop comes to its next request, and once it is told to
stop, so is the host (`sideloads_progress`).
-/

namespace BootableRecovery.FuseSideload

/-! ## How much is left -/

/-- The blocks that a request has not read. -/
def unreadBlocks (fd : FuseData) (req : Request) (reads : List (Nat × HostRead)) : Nat :=
  [firstBlock fd req, secondBlock fd req].countP fun block => (reads.lookup block).isNone

/-- What is left of a message to the host, which reads it first. -/
def Sideload.messageRank (s : Sideload) : Nat := 2 * s.toHost.length + s.host.buffer.length

/-- More than is left of a block and of its number. -/
def blockRank : Nat := 2 ^ 23

/-- What is left of a request: the blocks not read, and what has not come of the one that is waited
for. -/
def Sideload.rank (s : Sideload) : Nat :=
  match s.phase with
  | .idle => 0
  | .serving req reads => blockRank * (unreadBlocks s.server.fd req reads + 1)
  | .waiting req reads _ size got =>
    blockRank * unreadBlocks s.server.fd req reads + (size - got.length) + s.messageRank + 1
  | .closed => s.messageRank

section

variable {kernelMinor : Nat} {sha256 : List UInt8 → SHA256Digest} {content : List UInt8}
    {fd : FuseData} {req : Request}
  {reads : List (Nat × HostRead)} {s s' : Sideload}

theorem Sideload.rank_serving (h : s.phase = .serving req reads) :
    s.rank = blockRank * (unreadBlocks s.server.fd req reads + 1) := by
  rw [rank, h]

theorem Sideload.rank_waiting (h : s.phase = .waiting req reads block size got) :
    s.rank = blockRank * unreadBlocks s.server.fd req reads + (size - got.length) +
    s.messageRank + 1 := by
  rw [rank, h]

theorem Sideload.rank_closed (h : s.phase = .closed) : s.rank = s.messageRank := by
  rw [rank, h]

theorem firstBlock_ne_secondBlock (fd : FuseData) (req : Request) :
    firstBlock fd req ≠ secondBlock fd req := by
  have hlt : firstBlock fd req < 2 ^ 32 := Nat.mod_lt _ (by decide)
  have hsecond : secondBlock fd req = (firstBlock fd req + 1) % 2 ^ 32 := rfl
  intro h
  rw [← h] at hsecond
  omega

theorem unreadBlocks_cons (hblock : block = firstBlock fd req ∨ block = secondBlock fd req)
    (hnone : reads.lookup block = none) (r : HostRead) :
    unreadBlocks fd req ((block, r) :: reads) + 1 = unreadBlocks fd req reads := by
  have hne := firstBlock_ne_secondBlock fd req
  unfold unreadBlocks
  generalize firstBlock fd req = first at hblock hne ⊢
  generalize secondBlock fd req = second at hblock hne ⊢
  have hother : ∀ b, b ≠ block → ((block, r) :: reads).lookup b = reads.lookup b := by
    intro b hb
    rw [List.lookup_cons, beq_false_of_ne hb]
  rcases hblock with rfl | rfl
  · simp only [List.countP_cons, List.countP_nil, hother second hne.symm, hnone,
      List.lookup_cons_self]
    simp
  · simp only [List.countP_cons, List.countP_nil, hother first hne, hnone, List.lookup_cons_self]
    simp [Nat.add_comm]

/-! ## Reads end -/

section
variable (hlength : ∀ data, (sha256 data).length = SHA256_DIGEST_LENGTH)
include hlength

theorem handleRead_ends (h : Caching sha256 fd) (hsized : Sized fd) (req : ReadRequest)
    (host₁ host₂ : HostRead) : ∃ status reply fd', handleRead sha256 fd req host₁ host₂ =
    some (status, reply, fd') ∧ Caching sha256 fd' := by
  by_cases hnode : req.nodeid = PACKAGE_FILE_ID
  · rw [handleRead_eq hnode]
    generalize (blockOf fd req.offset + 1) % 2 ^ 32 = next
    obtain ⟨r₁, fd₁, h₁, hcaching₁⟩ :=
      fetchBlock_ends hlength h hsized.data_length (blockOf fd req.offset) host₁
    obtain ⟨hsized₁, _, _⟩ := fetchBlock_sized hsized h₁
    rw [h₁, Option.bind_some, readRest]
    split
    · exact ⟨_, _, _, rfl, hcaching₁⟩
    split
    · exact ⟨_, _, _, rfl, hcaching₁⟩
    · dsimp only
      obtain ⟨r₂, fd₂, h₂, hcaching₂⟩ := fetchBlock_ends hlength
        (hcaching₁.extraBlock
          (overwrite fd₁.extraBlock ((fd₁.blockData.drop (blockOffset fd₁ req.offset)).take
            (fd₁.blockSize - blockOffset fd₁ req.offset)))) hsized₁.data_length next host₂
      rw [h₂, Option.bind_some]
      split
      · exact ⟨_, _, _, rfl, hcaching₂⟩
      · exact ⟨_, _, _, rfl, hcaching₂⟩
  · rw [handleRead, if_pos hnode]
    exact ⟨_, _, _, rfl, h⟩

theorem serve_ends {s : Server} (h : Caching sha256 s.fd) (hsized : Sized s.fd) (kernelMinor : Nat)
    (req : Request) (host₁ host₂ : HostRead) :
    ∃ sent s', s.serve kernelMinor req sha256 host₁ host₂ = some (sent, s') := by
  rw [Server.serve]
  split
  · exact ⟨_, _, rfl⟩
  have hreq : ∃ r, handleRequest kernelMinor s req sha256 host₁ host₂ = some r := by
    by_cases hread : req.opcode = FUSE_READ
    · obtain ⟨status, reply, fd', heq, _⟩ := handleRead_ends hlength h hsized req.read host₁ host₂
      rw [handleRequest_read hread, heq]
      exact ⟨_, rfl⟩
    · unfold handleRequest
      dsimp only
      rw [if_neg hread]
      split_ifs <;> exact ⟨_, rfl⟩
  obtain ⟨r, hr⟩ := hreq
  rw [hr]
  exact ⟨_, _, rfl⟩

theorem serve_caching {s s' : Server} (h : Caching sha256 s.fd) (hsized : Sized s.fd)
    (he : s.serve kernelMinor req sha256 host₁ host₂ = some (sent, s')) : Caching sha256 s'.fd := by
  unfold Server.serve at he
  split at he
  · cases he
    exact h
  obtain ⟨⟨result, body, fd⟩, hreq, heq⟩ := Option.map_eq_some_iff.mp he
  cases heq
  by_cases hread : req.opcode = FUSE_READ
  · obtain ⟨status, reply, fd', heq, hcaching⟩ :=
      handleRead_ends hlength h hsized req.read host₁ host₂
    rw [handleRequest_read hread, heq] at hreq
    cases hreq
    exact hcaching
  · obtain rfl := handleRequest_other (fun h => hread h.1) hreq
    exact h

end

end

/-! ## The steps lower the rank -/

section

variable {kernelMinor : Nat} {sha256 : List UInt8 → SHA256Digest} {content : List UInt8}
    {req : Request}
  {reads : List (Nat × HostRead)} {s s' : Sideload}

/-- The loop can take its next request, or the host was told to stop. -/
def Sideload.AtRest (s : Sideload) : Prop := s.phase = .idle ∨ s.host.done = true

/-- What holds of a sideload, with a cache that fetches can use. -/
structure Sideload.Live (sha256 : List UInt8 → SHA256Digest) (content : List UInt8) (s : Sideload) :
    Prop where
  inv : s.Inv sha256 content
  caching : Caching sha256 s.server.fd

theorem rank_lt_of_messageRank (h : s.Inv sha256 content)
    (hmessage : s.host.buffer ++ s.toHost ≠ []) (hphase : s'.phase = s.phase)
    (hserver : s'.server = s.server) (hlt : s'.messageRank < s.messageRank) : s'.rank < s.rank := by
  rcases h.sync.of_message hmessage with ⟨req, reads, block, size, hp, _⟩ | ⟨hp, _⟩
  · rw [Sideload.rank_waiting hp, Sideload.rank_waiting (hphase.trans hp), hserver]
    omega
  · rw [Sideload.rank_closed hp, Sideload.rank_closed (hphase.trans hp)]
    exact hlt

theorem rank_ask (h : s.Inv sha256 content) (hphase : s.phase = .serving req reads)
    (hask : nextAsk sha256 s.server.fd req reads = some (block, size)) :
    Sideload.rank
    { s with phase := .waiting req reads block size [], toHost := s.toHost ++ blockRequest block } <
      s.rank := by
  obtain ⟨hquiet, hserving⟩ := h.sync.of_serving hphase
  have hasked := nextAsk_asked h.mounted hserving.fromKernel hserving.served hask
  have hsize : size ≤ s.server.fd.blockSize := by
    rw [hasked.all]
    exact List.length_take_le ..
  have hle := h.mounted.shows.blockSize_le
  rw [Sideload.rank_serving hphase, Sideload.rank_waiting rfl]
  dsimp only [Sideload.messageRank]
  rw [hquiet.toHost, hquiet.buffer, List.nil_append, length_blockRequest hasked.block_lt,
    Nat.mul_succ]
  simp only [blockRank, List.length_nil]
  omega

theorem rank_receive (hphase : s.phase = .waiting req reads block size got) (hne : chunk ≠ [])
    (hle : got.length + chunk.length ≤ size) :
    Sideload.rank
    { s with phase := .waiting req reads block size (got ++ chunk), fromHost := rest } <
    s.rank := by
  have hpos := List.length_pos_iff.mpr hne
  rw [Sideload.rank_waiting hphase, Sideload.rank_waiting rfl, List.length_append]
  dsimp only [Sideload.messageRank]
  omega

theorem rank_received (h : s.Inv sha256 content)
    (hphase : s.phase = .waiting req reads block size got) :
    Sideload.rank { s with phase := .serving req ((block, ⟨got, 0⟩) :: reads) } < s.rank := by
  obtain ⟨hserving, hask, _⟩ := h.sync.of_waiting hphase
  obtain ⟨hmem, hnone⟩ := nextAsk_spec hserving.served hask
  have hunread := unreadBlocks_cons (hostRequests_blocks hmem) hnone ⟨got, 0⟩
  rw [Sideload.rank_waiting hphase, Sideload.rank_serving rfl]
  dsimp only
  rw [hunread]
  omega

theorem rank_step (h : s.Inv sha256 content) (hgoing : ¬s.AtRest)
    (hs : Sideload.Step kernelMinor sha256 content s s') : s'.rank < s.rank := by
  cases hs with
  | request hphase => exact absurd (.inl hphase) hgoing
  | ask hphase hask => exact rank_ask h hphase hask
  | receive _ _ hphase _ hne hle => exact rank_receive hphase hne hle
  | received hphase => exact rank_received h hphase
  | answer hphase =>
    rw [Sideload.rank_serving hphase]
    exact Nat.mul_pos (by decide) (Nat.succ_pos _)
  | terminate hphase => exact absurd (.inl hphase) hgoing
  | hostReads chunk rest hto hne =>
    have hpos := List.length_pos_iff.mpr hne
    refine rank_lt_of_messageRank h ?_ rfl rfl ?_
    · rw [hto]
      exact List.append_ne_nil_of_right_ne_nil _ (List.append_ne_nil_of_left_ne_nil hne _)
    · dsimp only [Sideload.messageRank]
      rw [hto, List.length_append, List.length_append]
      omega
  | hostServes hbuffer =>
    refine rank_lt_of_messageRank h ?_ rfl rfl ?_
    · exact List.append_ne_nil_of_left_ne_nil (List.ne_nil_of_length_pos (by omega)) _
    · dsimp only [Sideload.messageRank]
      rw [hbuffer, List.length_nil]
      omega
  | hostDone hdone =>
    refine rank_lt_of_messageRank h ?_ rfl rfl ?_
    · rw [hdone]
      exact List.append_ne_nil_of_left_ne_nil (by decide) _
    · dsimp only [Sideload.messageRank]
      rw [hdone, List.length_nil]
      exact Nat.lt_add_of_pos_right (by decide)

/-! ## There is a next step -/

theorem Told.step (h : Told s message) (hlen : message.length = 8) (hne : s.toHost ≠ []) :
    ∃ s', Sideload.Step kernelMinor sha256 content s s' := by
  refine ⟨_, .hostReads s.toHost [] (List.append_nil _).symm hne ?_⟩
  have happ := congrArg List.length h.under
  rw [List.length_append, hlen] at happ
  omega

theorem live_step (hlength : ∀ data, (sha256 data).length = SHA256_DIGEST_LENGTH)
    (h : s.Live sha256 content) : (∃ s', Sideload.Step kernelMinor sha256 content s s') ∨
    s.AtRest := by
  cases h.inv.sync with
  | idle hphase => exact .inr (.inl hphase)
  | @serving req reads hphase =>
    refine .inl ?_
    cases hask : nextAsk sha256 s.server.fd req reads with
    | none =>
      obtain ⟨sent, server', hserve⟩ :=
        serve_ends hlength h.caching h.inv.mounted.sized kernelMinor req
        (readFor reads (firstBlock s.server.fd req)) (readFor reads (secondBlock s.server.fd req))
      exact ⟨_, .answer hphase hask hserve⟩
    | some ask => exact ⟨_, .ask hphase hask⟩
  | @told _ _ block _ hphase hserving hask htold =>
    have hasked := nextAsk_asked h.inv.mounted hserving.fromKernel hserving.served hask
    refine .inl ?_
    by_cases hne : s.toHost = []
    · have hbuffer := htold.under
      rw [hne, List.append_nil] at hbuffer
      have hlen : s.host.buffer.length = 8 := hbuffer ▸ length_blockRequest hasked.block_lt
      have hvalue := digitsValue_blockRequest block
      rw [← hbuffer] at hvalue
      exact ⟨_, .hostServes hlen (hbuffer ▸ blockRequest_ne_doneDone block) hvalue⟩
    · exact htold.step (length_blockRequest hasked.block_lt) hne
  | sent hphase hserving hask hsent =>
    have hasked := nextAsk_asked h.inv.mounted hserving.fromKernel hserving.served hask
    have happ := congrArg List.length hsent.under
    rw [List.length_append, ← hasked.all] at happ
    refine .inl ?_
    by_cases hne : s.fromHost = []
    · rw [hne, List.length_nil, Nat.add_zero] at happ
      exact ⟨_, .received hphase happ⟩
    · exact ⟨_, .receive s.fromHost [] hphase (List.append_nil _).symm hne (Nat.le_of_eq happ)⟩
  | closing hphase htold =>
    refine .inl ?_
    by_cases hne : s.toHost = []
    · have hbuffer := htold.under
      rw [hne, List.append_nil] at hbuffer
      exact ⟨_, .hostDone hbuffer⟩
    · exact htold.step rfl hne
  | closed _ _ _ _ hdone => exact .inr (.inr hdone)

/-! ## All runs -/

theorem sideloads_live (hlength : ∀ data, (sha256 data).length = SHA256_DIGEST_LENGTH) :
    (sideloads kernelMinor sha256 content).Inductive (Sideload.Live sha256 content) where
  init s h := by
    refine ⟨sideloads_inductive.init s h, ?_⟩
    obtain ⟨_, _, _, _, _, _, _, _, args, mem, garbage, hservice⟩ := h
    unfold sideloadHostService at hservice
    split at hservice
    · by_cases hcache : s.server.fd.blockCache = none
      · exact .inl hcache
      · exact .inr (runFuseSideload_cacheInv hservice hcache)
    · cases hservice
  step s s' h hs := by
    refine ⟨sideloads_inductive.step s s' h.inv hs, ?_⟩
    cases hs with
    | answer _ _ hserve => exact serve_caching hlength h.caching h.inv.mounted.sized hserve
    | _ => exact h.caching

/-- Every run from a state that a sideload is in comes to the next request, or to a host that was
told to stop. -/
theorem sideloads_progress (hlength : ∀ data, (sha256 data).length = SHA256_DIGEST_LENGTH)
    (h : (sideloads kernelMinor sha256 content).Reach s) :
    Inevitable (sideloads kernelMinor sha256 content).step Sideload.AtRest s :=
  have hlive := sideloads_live hlength
  .of_rank Sideload.rank
    (fun s s' hI hgoing hs => ⟨hlive.step s s' hI hs, rank_step hI.inv hgoing hs⟩)
    (fun _ hI => live_step hlength hI) (hlive.reach h)

/-- A read of three zeros that has begun. -/
theorem sideloads_progress_threeZeros : ∃ s, (sideloads 26 zerosHash [0, 0, 0]).Reach s ∧
    ¬s.AtRest ∧ Inevitable (sideloads 26 zerosHash [0, 0, 0]).step Sideload.AtRest s := by
  have hask : (sideloadHostService "3:4096".toList 0 []).map (fun fd => (fd.fileSize, fd.blockSize,
      nextAsk zerosHash fd readOfFour [])) = some (3, 4096, some (0, 3)) := by
    decide +kernel
  obtain ⟨fd, hfd, hask⟩ := Option.map_eq_some_iff.mp hask
  simp only [Prod.mk.injEq] at hask
  obtain ⟨hsize, hbs, hask⟩ := hask
  have hreach :
      (sideloads 26 zerosHash [0, 0, 0]).Reach ⟨⟨fd, 0, 0⟩, .idle, [], [], [], [],
        ⟨[], [], false⟩⟩ :=
    .init ⟨rfl, rfl, rfl, rfl, rfl, rfl, by decide, hsize, _, _, _, hfd⟩
  have hreach :=
    hreach.step (.request rfl fun _ =>
      ⟨by rw [hbs]; decide, show readOfFour.read.offset < 2 ^ 43 by decide⟩)
  have hreach := hreach.step (.ask rfl hask)
  refine ⟨_, hreach, ?_, sideloads_progress (fun _ => rfl) hreach⟩
  rintro (hphase | hdone)
  · cases hphase
  · cases hdone

end

end BootableRecovery.FuseSideload
