import BootableRecovery.FuseSideload.ReadCorrect
import BootableRecovery.Theory.LittleEndian
import Mathlib.Data.List.Forall2

/-!
# The requests of the kernel

The handlers of `fuse_sideload.cpp` for all requests, and a round of the loop of
`run_fuse_sideload`: each request whose header is complete gets one answer, whatever the host does
(`serving_answers`). The structures in the messages are those of `linux/fuse.h`.
-/

namespace BootableRecovery.FuseSideload

def FUSE_ROOT_ID : Nat := 1
def FUSE_KERNEL_VERSION : Nat := 7

def FUSE_LOOKUP : Nat := 1
def FUSE_GETATTR : Nat := 3
def FUSE_OPEN : Nat := 14
def FUSE_READ : Nat := 15
def FUSE_RELEASE : Nat := 18
def FUSE_FLUSH : Nat := 25
def FUSE_INIT : Nat := 26

def ENOSYS : Int := 38

/-- `sizeof(fuse_in_header)` and `sizeof(fuse_out_header)`. -/
def inHeaderSize : Nat := 40
def outHeaderSize : Nat := 16

/-- `FUSE_SIDELOAD_HOST_FILENAME`. -/
def hostFilename : List UInt8 := "package.zip".toList.map fun c => UInt8.ofNat c.toNat

/-- A request: how many bytes were read, its header, and what stands behind it in the buffer. -/
structure Request where
  length : Nat
  opcode : Nat
  unique : Nat
  nodeid : Nat
  data : List UInt8

/-- A field of the structure behind the header. -/
def Request.field (req : Request) (offset size : Nat) : Nat :=
  leNat ((req.data.drop offset).take size)

/-- `fuse_read_in`. -/
def Request.read (req : Request) : ReadRequest := ⟨req.nodeid, req.field 8 8, req.field 16 4⟩

/-- `fuse_attr`, without what stays zero. -/
structure Attr where
  ino : Nat
  size : Nat
  blocks : Nat
  mode : Nat
  nlink : Nat
  uid : Nat
  gid : Nat
  blksize : Nat
  deriving DecidableEq

/-- What follows the header of a reply: the structures of `fuse.h`, without what stays zero, or some
bytes, which the header takes for so many. -/
inductive Body
  | none
  | init (major minor maxReadahead flags maxBackground congestionThreshold maxWrite size : Nat)
  | attr (attrValid : Nat) (attr : Attr)
  | entry (nodeid generation entryValid attrValid : Nat) (attr : Attr)
  | opened (fh : Nat)
  | data (size : Nat) (bytes : List UInt8)
  deriving DecidableEq

/-- The size that the header states. -/
def Body.stated : Body → Nat
  | none => 0
  | init _ _ _ _ _ _ _ size => size
  | attr _ _ => 104
  | entry _ _ _ _ _ => 128
  | opened _ => 16
  | data size _ => size

/-- The number of bytes that are written. -/
def Body.written : Body → Nat
  | data _ bytes => bytes.length
  | body => body.stated

/-- `fuse_out_header` and what follows it. -/
structure Answer where
  len : Nat
  error : Int
  unique : Nat
  body : Body
  deriving DecidableEq

/-- `struct fuse_data`, with the owner of the files. -/
structure Server where
  fd : FuseData
  uid : Nat
  gid : Nat

def Server.fillAttr (s : Server) (nodeid size mode : Nat) : Attr where
  ino := nodeid
  size
  blocks := if size = 0 then 0 else (size - 1) / 4096 + 1
  mode
  nlink := 1
  uid := s.uid
  gid := s.gid
  blksize := 4096

/-- `S_IFDIR | 0555` and `S_IFREG | 0444`. -/
def rootMode : Nat := 0o40555
def packageMode : Nat := 0o100444

section
variable (kernelMinor : Nat) (s : Server) (req : Request)

/-- `handle_init`, with the minor version of the header that it was built with. The structure of a
kernel up to 7.22 is smaller. -/
def handleInit : Int × Option Body :=
  if req.field 0 4 ≠ FUSE_KERNEL_VERSION ∨ req.field 4 4 < 6 then (-1, none)
  else
    (NO_STATUS,
      some (.init FUSE_KERNEL_VERSION (min (req.field 4 4) kernelMinor) (req.field 8 4) 0 32 32 4096
        (if req.field 4 4 ≤ 22 then 24 else 64)))

def handleGetattr : Int × Option Body :=
  if req.nodeid =
  FUSE_ROOT_ID then (NO_STATUS, some (.attr 10 (s.fillAttr req.nodeid 4096 rootMode)))
  else if req.nodeid = PACKAGE_FILE_ID then
    (NO_STATUS, some (.attr 10 (s.fillAttr PACKAGE_FILE_ID s.fd.fileSize packageMode)))
  else (-ENOENT, none)

/-- `handle_lookup`, of the name up to its NUL. -/
def handleLookup : Int × Option Body :=
  if req.data.takeWhile (· ≠ 0) = hostFilename then
    (NO_STATUS,
      some (.entry PACKAGE_FILE_ID PACKAGE_FILE_ID 10 10
        (s.fillAttr PACKAGE_FILE_ID s.fd.fileSize packageMode)))
  else (-ENOENT, none)

def handleOpen : Int × Option Body :=
  if req.nodeid ≠ PACKAGE_FILE_ID then (-ENOENT, none) else (NO_STATUS, some (.opened 10))

def handleFlush : Int × Option Body := (0, none)

def handleRelease : Int × Option Body := (0, none)

variable (sha256 : List UInt8 → SHA256Digest) (host₁ host₂ : HostRead)

/-- The handler of a request. -/
def handleRequest : Option (Int × Option Body × FuseData) :=
  let unchanged (r : Int × Option Body) := some (r.1, r.2, s.fd)
  if req.opcode = FUSE_INIT then unchanged (handleInit kernelMinor req)
  else if req.opcode = FUSE_LOOKUP then unchanged (handleLookup s req)
  else if req.opcode = FUSE_GETATTR then unchanged (handleGetattr s req)
  else if req.opcode = FUSE_OPEN then unchanged (handleOpen req)
  else if req.opcode = FUSE_READ then
    (handleRead sha256 s.fd req.read host₁ host₂).map fun (result, bytes, fd) =>
      (result, bytes.map (.data req.read.size), fd)
  else if req.opcode = FUSE_FLUSH then unchanged handleFlush
  else if req.opcode = FUSE_RELEASE then unchanged handleRelease
  else unchanged (-ENOSYS, none)

/-- `fuse_reply`, and what `handle_read` does in its place. -/
def fuseReply (body : Body) : Answer := ⟨outHeaderSize + body.stated, 0, req.unique, body⟩

/-- One round of the loop. -/
def Server.serve : Option (List Answer × Server) :=
  if req.length < inHeaderSize then some ([], s)
  else (handleRequest kernelMinor s req sha256 host₁ host₂).map fun (result, body, fd) =>
    ((body.map (fuseReply req)).toList ++
      if result ≠ NO_STATUS then [⟨outHeaderSize, result, req.unique, .none⟩]
      else [], { s with fd })

end

/-- The loop with what it has read and written so far. -/
structure Loop where
  server : Server
  requests : List Request
  answers : List Answer

/-- The loop of `run_fuse_sideload` with any requests and any host, as long as reads are no longer
than a block, which is what the file system was mounted with. -/
def serving (kernelMinor : Nat) (sha256 : List UInt8 → SHA256Digest) : System Loop where
  init l := l.requests = [] ∧ l.answers = [] ∧ ∃ fileSize blockSize mem garbage,
    runFuseSideload fileSize blockSize mem garbage = some l.server.fd
  step l l' :=
    ∃ req host₁ host₂ answers server, (req.opcode = FUSE_READ →
      req.read.size ≤ l.server.fd.blockSize) ∧ l.server.serve kernelMinor req sha256 host₁ host₂ =
      some (answers, server) ∧
    l' = ⟨server, l.requests ++ [req], l.answers ++ answers⟩

/-- The answer is for the request, is as long as its header says, and has either a result or an
error. -/
structure Answers (a : Answer) (req : Request) : Prop where
  unique : a.unique = req.unique
  len : a.len = outHeaderSize + a.body.written
  error : a.error = 0 ∨ a.body = .none

/-! ## One round -/

variable {kernelMinor : Nat} {sha256 : List UInt8 → SHA256Digest} {s s' : Server} {req : Request}

/-- What the lengths of answers need of the state. -/
structure Sized (fd : FuseData) : Prop where
  blockSize_pos : 0 < fd.blockSize
  blockSize_le : fd.blockSize ≤ 2 ^ 22
  data_length : fd.blockData.length = fd.blockSize

/-- A fetch keeps the sizes, whatever the host does, and its result is no status of a handler. -/
theorem fetchBlock_sized (h : Sized fd) (he : fetchBlock sha256 fd block host = some (r, fd')) :
    Sized fd' ∧ fd'.blockSize = fd.blockSize ∧ r ≠ NO_STATUS := by
  have hread := length_readBlock h.data_length block host
  unfold fetchBlock at he
  split at he
  · cases he
    exact ⟨h, rfl, by decide⟩
  · split at he
    · cases he
      exact ⟨⟨h.blockSize_pos, h.blockSize_le, List.length_replicate⟩, rfl, by decide⟩
    · split at he
      · -- a cached block
        rename_i fd₁ hfetch
        cases he
        obtain ⟨cache, data, _, _, rfl⟩ := blockCacheFetch_zero hfetch
        have hlen : (overwrite fd.blockData (data.take fd.blockSize)).length = fd.blockSize := by
          refine (length_overwrite ?_).trans h.data_length
          rw [List.length_take, h.data_length]
          exact Nat.min_le_left ..
        exact ⟨⟨h.blockSize_pos, h.blockSize_le, hlen⟩, rfl, by decide⟩
      · dsimp only at he
        split_ifs at he with hresult hhash hany
        · cases he
          exact ⟨⟨h.blockSize_pos, h.blockSize_le, hread⟩, rfl, by unfold NO_STATUS; omega⟩
        · cases he
          exact ⟨⟨h.blockSize_pos, h.blockSize_le, hread⟩, rfl, by decide⟩
        · cases he
          exact ⟨⟨h.blockSize_pos, h.blockSize_le, hread⟩, rfl, by decide⟩
        · obtain ⟨fd₁, henter, heq⟩ := Option.map_eq_some_iff.mp he
          cases heq
          obtain ⟨⟨cache, size, rfl⟩, _⟩ := blockCacheEnter_spec henter
          exact ⟨⟨h.blockSize_pos, h.blockSize_le, hread⟩, rfl, by decide⟩

theorem handleRead_sized {req : ReadRequest} (h : Sized fd) (hsize : req.size ≤ fd.blockSize)
    (he : handleRead sha256 fd req host₁ host₂ = some (status, reply, fd')) :
    Sized fd' ∧ fd'.blockSize = fd.blockSize ∧
      ((status = NO_STATUS ∧ ∃ bytes, reply = some bytes ∧ bytes.length = req.size) ∨
        (status ≠ NO_STATUS ∧ reply = none)) := by
  unfold handleRead at he
  split at he
  · cases he
    exact ⟨h, rfl, .inr ⟨by decide, rfl⟩⟩
  obtain ⟨⟨r₁, fd₁⟩, h₁, he⟩ := Option.bind_eq_some_iff.mp he
  obtain ⟨hsized₁, hbs₁, hr₁⟩ := fetchBlock_sized h h₁
  have hoff := blockOffset_eq hsized₁.blockSize_pos hsized₁.blockSize_le req.offset
  have hlt := Nat.mod_lt req.offset hsized₁.blockSize_pos
  have hle := hsized₁.blockSize_le
  dsimp only at he
  rw [hoff] at he
  generalize req.offset % fd₁.blockSize = off at hlt he
  split at he
  · cases he
    exact ⟨hsized₁, hbs₁, .inr ⟨hr₁, rfl⟩⟩
  split at he
  · -- the request lies in one block
    rename_i hfits
    cases he
    rw [Nat.mod_eq_of_lt (by omega)] at hfits
    refine ⟨hsized₁, hbs₁, .inl ⟨rfl, _, rfl, ?_⟩⟩
    rw [List.length_take, List.length_drop, hsized₁.data_length]
    omega
  · -- it spills over
    rename_i hspill
    rw [Nat.mod_eq_of_lt (by omega)] at hspill
    obtain ⟨⟨r₂, fd₂⟩, h₂, he⟩ := Option.bind_eq_some_iff.mp he
    have hmid : ∀ extra, Sized { fd₁ with extraBlock := extra } := fun _ => { hsized₁ with }
    obtain ⟨hsized₂, hbs₂, hr₂⟩ := fetchBlock_sized (hmid _) h₂
    have hbs : fd₂.blockSize = fd.blockSize := hbs₂.trans hbs₁
    dsimp only at he
    split at he
    · cases he
      exact ⟨hsized₂, hbs, .inr ⟨hr₂, rfl⟩⟩
    · cases he
      refine ⟨hsized₂, hbs, .inl ⟨rfl, _, rfl, ?_⟩⟩
      have hfirst :
          ((fd₁.blockData.drop off).take (fd₁.blockSize - off)).length = fd₁.blockSize - off := by
        rw [List.length_take, List.length_drop, hsized₁.data_length, Nat.min_self]
      have hlen : fd'.blockData.length = fd₁.blockSize := hsized₂.data_length.trans hbs₂
      rw [List.length_append, List.length_take, List.length_take, overwrite, List.length_append,
        hfirst, hlen]
      have hbs₂' : fd'.blockSize = fd₁.blockSize := hbs₂
      omega

theorem handleRequest_answers (h : Sized s.fd)
    (hsize : req.opcode = FUSE_READ → req.read.size ≤ s.fd.blockSize)
    (he : handleRequest kernelMinor s req sha256 host₁ host₂ = some (result, body, fd')) :
    Sized fd' ∧ fd'.blockSize = s.fd.blockSize ∧
      ((result = NO_STATUS ∧ ∃ b, body = some b ∧ b.stated = b.written) ∨
        (result ≠ NO_STATUS ∧ body = none)) := by
  have unchanged : ∀ {r : Int × Option Body}, some (r.1, r.2, s.fd) = some (result, body, fd') →
      ((r.1 = NO_STATUS ∧ ∃ b, r.2 = some b ∧ b.stated = b.written) ∨
        (r.1 ≠ NO_STATUS ∧ r.2 = none)) →
      Sized fd' ∧ fd'.blockSize = s.fd.blockSize ∧
        ((result = NO_STATUS ∧ ∃ b, body = some b ∧ b.stated = b.written) ∨
          (result ≠ NO_STATUS ∧ body = none)) := by
    rintro r ⟨⟩ hr
    exact ⟨h, rfl, hr⟩
  unfold handleRequest at he
  dsimp only at he
  split_ifs at he with _ _ _ _ hread
  · refine unchanged he ?_
    unfold handleInit
    split
    · exact .inr ⟨by decide, rfl⟩
    · exact .inl ⟨rfl, _, rfl, rfl⟩
  · refine unchanged he ?_
    unfold handleLookup
    split
    · exact .inl ⟨rfl, _, rfl, rfl⟩
    · exact .inr ⟨by decide, rfl⟩
  · refine unchanged he ?_
    unfold handleGetattr
    split_ifs
    · exact .inl ⟨rfl, _, rfl, rfl⟩
    · exact .inl ⟨rfl, _, rfl, rfl⟩
    · exact .inr ⟨by decide, rfl⟩
  · refine unchanged he ?_
    unfold handleOpen
    split
    · exact .inr ⟨by decide, rfl⟩
    · exact .inl ⟨rfl, _, rfl, rfl⟩
  · obtain ⟨⟨status, reply, fd₁⟩, hhandle, heq⟩ := Option.map_eq_some_iff.mp he
    cases heq
    obtain ⟨hsized, hbs, ⟨rfl, bytes, rfl, hlen⟩ | ⟨hstatus, rfl⟩⟩ :=
      handleRead_sized h (hsize hread) hhandle
    · exact ⟨hsized, hbs, .inl ⟨rfl, _, rfl, hlen.symm⟩⟩
    · exact ⟨hsized, hbs, .inr ⟨hstatus, rfl⟩⟩
  · exact unchanged (r := handleFlush) he (.inr ⟨by decide, rfl⟩)
  · exact unchanged (r := handleRelease) he (.inr ⟨by decide, rfl⟩)
  · exact unchanged (r := (-ENOSYS, none)) he (.inr ⟨by decide, rfl⟩)

/-- One round: a request with a complete header gets one answer, and a shorter one none. -/
theorem serve_answers (h : Sized s.fd)
    (hsize : req.opcode = FUSE_READ → req.read.size ≤ s.fd.blockSize)
    (he : s.serve kernelMinor req sha256 host₁ host₂ = some (answers, s')) :
    Sized s'.fd ∧ s'.fd.blockSize = s.fd.blockSize ∧
      List.Forall₂ Answers answers (if req.length < inHeaderSize then [] else [req]) := by
  unfold Server.serve at he
  split_ifs at he ⊢ with hshort
  · cases he
    exact ⟨h, rfl, .nil⟩
  · obtain ⟨⟨result, body, fd⟩, hreq, heq⟩ := Option.map_eq_some_iff.mp he
    cases heq
    obtain ⟨hsized, hbs, ⟨rfl, b, rfl, hb⟩ | ⟨hresult, rfl⟩⟩ := handleRequest_answers h hsize hreq
    · refine ⟨hsized, hbs, ?_⟩
      rw [if_neg (not_not_intro rfl)]
      exact .cons ⟨rfl, by rw [fuseReply, hb], .inl rfl⟩ .nil
    · refine ⟨hsized, hbs, ?_⟩
      rw [if_pos hresult]
      exact .cons ⟨rfl, rfl, .inr rfl⟩ .nil

/-! ## All rounds -/

theorem runFuseSideload_sized (h : runFuseSideload fileSize blockSize mem garbage = some fd) :
    Sized fd := by
  unfold runFuseSideload at h
  split at h
  · cases h
  split at h
  · cases h
  cases h
  exact ⟨by dsimp only; omega, by dsimp only; omega, by simp⟩

/-- The requests whose header is complete. -/
def complete (reqs : List Request) : List Request :=
  reqs.filter fun req => inHeaderSize ≤ req.length

theorem complete_concat (reqs : List Request) (req : Request) :
    complete (reqs ++ [req]) = complete reqs ++ if req.length < inHeaderSize then []
    else [req] := by
  rw [complete, List.filter_append, List.filter_cons, List.filter_nil]
  by_cases hshort : req.length < inHeaderSize
  · rw [if_pos hshort, if_neg (by simpa using hshort)]
    rfl
  · rw [if_neg hshort, if_pos (by simpa using hshort)]
    rfl

theorem serving_inductive : (serving kernelMinor sha256).Inductive fun l =>
    Sized l.server.fd ∧ List.Forall₂ Answers l.answers (complete l.requests) where
  init l h := by
    obtain ⟨hreqs, hanswers, fileSize, blockSize, mem, garbage, h⟩ := h
    rw [hreqs, hanswers]
    exact ⟨runFuseSideload_sized h, .nil⟩
  step l l' h hs := by
    obtain ⟨hsized, hall⟩ := h
    obtain ⟨req, host₁, host₂, answers, server, hsize, hserve, rfl⟩ := hs
    obtain ⟨hsized', _, hanswers⟩ := serve_answers hsized hsize hserve
    rw [complete_concat]
    exact ⟨hsized', List.rel_append hall hanswers⟩

/-- Whatever the kernel asks and the host does, the requests get their answers one by one and in
their order. -/
theorem serving_answers (h : (serving kernelMinor sha256).Reach l) :
    List.Forall₂ Answers l.answers (complete l.requests) :=
  (serving_inductive.reach h).2

/-- A request for the attributes of the package, and one that is too short. -/
theorem serving_answers_getattr : ∃ l, (serving 26 zerosHash).Reach l ∧
    l.answers.map (fun a => (a.unique, a.len, a.error)) = [(7, 120, 0)] ∧
    List.Forall₂ Answers l.answers (complete l.requests) := by
  obtain ⟨fd, hfd⟩ :=
    Option.isSome_iff_exists.mp (show (runFuseSideload 3 4096 0 []).isSome from rfl)
  have hreach : (serving 26 zerosHash).Reach ⟨⟨fd, 0, 0⟩, [], []⟩ :=
    .init ⟨rfl, rfl, _, _, _, _, hfd⟩
  have hstep :=
    hreach.step ⟨⟨56, FUSE_GETATTR, 7, PACKAGE_FILE_ID, []⟩, ⟨[], 0⟩, ⟨[], 0⟩, _, _, fun _ =>
      Nat.zero_le _, rfl, rfl⟩
  have hstep' :=
    hstep.step ⟨⟨39, FUSE_GETATTR, 8, PACKAGE_FILE_ID, []⟩, ⟨[], 0⟩, ⟨[], 0⟩, _, _, fun _ =>
      Nat.zero_le _, rfl, rfl⟩
  exact ⟨_, hstep', rfl, serving_answers hstep'⟩

end BootableRecovery.FuseSideload
