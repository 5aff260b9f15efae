import BootableRecovery.Theory.LittleEndian
import BootableRecovery.OtaUtil.RangeSet

/-!
# The container of an imgdiff patch

`PatchChunk` of `applypatch/imgdiff.cpp` with the functions that write a list of chunks to the patch
file, and the part of `ApplyImagePatch` in `applypatch/imgpatch.cpp` that reads the header of one
chunk after the other. The headers come first, the data of a raw chunk with its header; the bsdiff
patches of the other chunks follow in order.
-/

namespace BootableRecovery.ApplyPatch

/-- `CHUNK_NORMAL`, `CHUNK_DEFLATE` and `CHUNK_RAW`. -/
inductive ChunkType
  | normal
  | deflate
  | raw
  deriving DecidableEq

/-- The number of a type in the file. -/
def ChunkType.code : ChunkType → Int
  | .normal => 0
  | .deflate => 2
  | .raw => 3

def METHOD : Int := 8
def WINDOWBITS : Int := -15
def MEMLEVEL : Int := 8
def STRATEGY : Int := 0

structure PatchChunk where
  type : ChunkType
  sourceStart : Nat
  sourceLen : Nat
  sourceUncompressedLen : Nat
  targetStart : Nat
  targetLen : Nat
  targetUncompressedLen : Nat
  targetCompressLevel : Nat
  data : List UInt8
  deriving DecidableEq

namespace PatchChunk

def getHeaderSize (c : PatchChunk) : Nat :=
  match c.type with
  | .normal => 4 + 8 * 3
  | .deflate => 4 + 8 * 5 + 4 * 5
  | .raw => 4 + 4 + c.data.length

/-- `WriteHeaderToFd`: the bytes that are written, and the offset of the next patch. -/
def writeHeaderToFd (c : PatchChunk) (offset : Nat) : List UInt8 × Nat :=
  match c.type with
  | .normal =>
    (int32Bytes c.type.code ++ leBytes 8 c.sourceStart ++ leBytes 8 c.sourceLen ++ leBytes 8 offset,
      offset + c.data.length)
  | .deflate =>
    (int32Bytes c.type.code ++ leBytes 8 c.sourceStart ++ leBytes 8 c.sourceLen ++
      leBytes 8 offset ++ leBytes 8 c.sourceUncompressedLen ++ leBytes 8 c.targetUncompressedLen ++
      int32Bytes c.targetCompressLevel ++ int32Bytes METHOD ++ int32Bytes WINDOWBITS ++
      int32Bytes MEMLEVEL ++ int32Bytes STRATEGY,
      offset + c.data.length)
  | .raw => (int32Bytes c.type.code ++ int32Bytes c.data.length ++ c.data, offset)

def patchSize (c : PatchChunk) : Nat :=
  match c.type with
  | .raw => c.getHeaderSize
  | _ => c.getHeaderSize + c.data.length

/-- The loop of `WritePatchDataToFd` over the headers. -/
def writeHeaders : List PatchChunk → (offset : Nat) → List UInt8
  | [], _ => []
  | c :: cs, offset => (c.writeHeaderToFd offset).1 ++ writeHeaders cs (c.writeHeaderToFd offset).2

/-- The loop of `WritePatchDataToFd` over the bsdiff patches. -/
def writePatches (cs : List PatchChunk) : List UInt8 :=
  cs.flatMap fun c => if c.type = .raw then [] else c.data

/-- `"IMGDIFF2"`. -/
def MAGIC : List UInt8 := [73, 77, 71, 68, 73, 70, 70, 50]

def writePatchDataToFd (cs : List PatchChunk) : List UInt8 :=
  let totalHeaderSize := 12 + (cs.map getHeaderSize).sum
  MAGIC ++ int32Bytes cs.length ++ writeHeaders cs totalHeaderSize ++ writePatches cs

end PatchChunk

/-! ## Reading -/

/-- How a function of the patcher can end early: it reports an error, or a `CHECK` fails or memory
outside a buffer is accessed. -/
inductive Fault
  | failed
  | crashed
  deriving DecidableEq

/-- What `ApplyImagePatch` takes from the header of a chunk. -/
inductive ChunkHeader
  | normal (srcStart srcLen patchOffset : Nat)
  | raw (data : List UInt8)
  | deflate (srcStart srcLen patchOffset expandedLen targetLen : Nat)
      (level method windowBits memLevel strategy : Int)
  deriving DecidableEq

/-- `Read8`, as a `size_t`. -/
def read8 (patch : List UInt8) (p : Nat) : Nat := leNat ((patch.drop p).take 8)

def read4 (patch : List UInt8) (p : Nat) : Int := leInt32 ((patch.drop p).take 4)

/-- A `size_t` from an `int`. -/
def sizeT (n : Int) : Nat := (n % 2 ^ 64).toNat

/-- One round of `ApplyImagePatch`, up to the work on the chunk: the header at `pos` and the
position after it. The sum of `pos` and a raw length can wrap around, and the data is then
outside. -/
def readChunk (patch : List UInt8) (pos : Nat) : Except Fault (ChunkHeader × Nat) :=
  if pos + 4 > patch.length then .error .failed
  else
    let type := read4 patch pos
    let pos := pos + 4
    if type = ChunkType.normal.code then
      if pos + 24 > patch.length then .error .failed
      else .ok (.normal (read8 patch pos) (read8 patch (pos + 8)) (read8 patch (pos + 16)),
        pos + 24)
    else if type = ChunkType.raw.code then
      if pos + 4 > patch.length then .error .failed
      else
        let dataLen := sizeT (read4 patch pos)
        let pos := pos + 4
        if (pos + dataLen) % 2 ^ 64 > patch.length then .error .failed
        else if pos + dataLen ≤ patch.length then
          .ok (.raw ((patch.drop pos).take dataLen), pos + dataLen)
        else .error .crashed
    else if type = ChunkType.deflate.code then
      if pos + 60 > patch.length then .error .failed
      else .ok (.deflate (read8 patch pos) (read8 patch (pos + 8)) (read8 patch (pos + 16))
        (read8 patch (pos + 24)) (read8 patch (pos + 32)) (read4 patch (pos + 40))
        (read4 patch (pos + 44)) (read4 patch (pos + 48)) (read4 patch (pos + 52))
        (read4 patch (pos + 56)), pos + 60)
    else .error .failed

/-- The number of chunks, if the file has the right magic number. A negative number means none. -/
def readChunkCount (patch : List UInt8) : Except Fault Nat :=
  if patch.length < 12 then .error .failed
  else if patch.take 8 ≠ PatchChunk.MAGIC then .error .failed
  else .ok (read4 patch 8).toNat

/-- The headers of `n` chunks from `pos` on. -/
def readChunks (patch : List UInt8) : (n pos : Nat) → Except Fault (List ChunkHeader)
  | 0, _ => .ok []
  | n + 1, pos => do
    let (header, pos) ← readChunk patch pos
    let headers ← readChunks patch n pos
    return header :: headers

/-- All headers that `ApplyImagePatch` visits if none of the chunks fails. -/
def readPatch (patch : List UInt8) : Except Fault (List ChunkHeader) := do
  let n ← readChunkCount patch
  readChunks patch n 12

/-- What is read stands for the chunk: the parameters are the same, a raw chunk has its data, and
the offset of another chunk is a place where its own bsdiff patch stands. -/
def ChunkHeader.Of (patch : List UInt8) (c : PatchChunk) (h : ChunkHeader) : Prop :=
  match c.type with
  | .normal => ∃ offset, h = .normal c.sourceStart c.sourceLen offset ∧
      c.data <+: patch.drop offset ∧ offset ≤ patch.length
  | .deflate => ∃ offset, h = .deflate c.sourceStart c.sourceLen offset c.sourceUncompressedLen
      c.targetUncompressedLen c.targetCompressLevel METHOD WINDOWBITS MEMLEVEL STRATEGY ∧
      c.data <+: patch.drop offset ∧ offset ≤ patch.length
  | .raw => h = .raw c.data

/-- The numbers of a chunk that are written have room in their fields. -/
structure PatchChunk.Sized (c : PatchChunk) : Prop where
  sourceStart : c.sourceStart < 2 ^ 63
  sourceLen : c.sourceLen < 2 ^ 63
  sourceUncompressedLen : c.sourceUncompressedLen < 2 ^ 63
  targetUncompressedLen : c.targetUncompressedLen < 2 ^ 63
  targetCompressLevel : c.targetCompressLevel < 2 ^ 31
  raw : c.type = .raw → c.data.length < 2 ^ 31

/-! ## Reading back what was written -/

section
variable {patch rest : List UInt8} {p k : Nat}

theorem drop_add_of_drop {l : List UInt8} (h : patch.drop p = l ++ rest) (hk : l.length = k) :
    patch.drop (p + k) = rest := by
  rw [← List.drop_drop, h, ← hk, List.drop_left]

theorem length_of_drop {l : List UInt8} (h : patch.drop p = l) (hl : l ≠ []) :
    patch.length = p + l.length := by
  have hlen := congrArg List.length h
  have hpos := List.length_pos_iff.mpr hl
  rw [List.length_drop] at hlen
  omega

theorem read8_of_drop {n : Nat} (h : patch.drop p = leBytes 8 n ++ rest) (hn : n < 2 ^ 63) :
    read8 patch p = n := by
  rw [read8, h, List.take_left' (by simp)]
  exact leNat_leBytes_of_lt (Nat.lt_trans hn (by decide))

theorem read4_of_drop {n : Int} (h : patch.drop p = int32Bytes n ++ rest) (h₁ : -2 ^ 31 ≤ n)
    (h₂ : n < 2 ^ 31) : read4 patch p = n := by
  rw [read4, h, List.take_left' (by simp)]
  exact leInt32_int32Bytes h₁ h₂

end

namespace PatchChunk

theorem length_writeHeaderToFd (c : PatchChunk) (offset : Nat) :
    (c.writeHeaderToFd offset).1.length = c.getHeaderSize := by
  unfold writeHeaderToFd getHeaderSize
  cases c.type <;> simp only [List.length_append, length_int32Bytes, length_leBytes]

/-- What `ApplyImagePatch` reads where a header was written. -/
def header (c : PatchChunk) (offset : Nat) : ChunkHeader :=
  match c.type with
  | .normal => .normal c.sourceStart c.sourceLen offset
  | .deflate => .deflate c.sourceStart c.sourceLen offset c.sourceUncompressedLen
      c.targetUncompressedLen c.targetCompressLevel METHOD WINDOWBITS MEMLEVEL STRATEGY
  | .raw => .raw c.data

theorem readChunk_writeHeaderToFd {c : PatchChunk} {patch rest : List UInt8} {pos offset : Nat}
    (hc : c.Sized) (hoff : offset < 2 ^ 63) (hlen : patch.length < 2 ^ 63)
    (h : patch.drop pos = (c.writeHeaderToFd offset).1 ++ rest) :
    readChunk patch pos = .ok (c.header offset, pos + c.getHeaderSize) := by
  have hpatch := length_of_drop h (by
    rw [Ne, List.append_eq_nil_iff, not_and_or, ← List.length_eq_zero_iff, length_writeHeaderToFd]
    left
    unfold getHeaderSize
    split <;> omega)
  rw [List.length_append, length_writeHeaderToFd] at hpatch
  unfold readChunk
  cases htype : c.type with
  | normal =>
    simp only [writeHeaderToFd, getHeaderSize, header, htype, List.append_assoc] at h hpatch ⊢
    have h₁ := drop_add_of_drop h (length_int32Bytes _)
    have h₂ := drop_add_of_drop h₁ (length_leBytes _ _)
    have h₃ := drop_add_of_drop h₂ (length_leBytes _ _)
    rw [if_neg (by omega), read4_of_drop h (by decide) (by decide), if_pos rfl, if_neg (by omega),
      read8_of_drop h₁ hc.sourceStart, read8_of_drop h₂ hc.sourceLen, read8_of_drop h₃ hoff]
  | deflate =>
    simp only [writeHeaderToFd, getHeaderSize, header, htype, List.append_assoc] at h hpatch ⊢
    have h₁ := drop_add_of_drop h (length_int32Bytes _)
    have h₂ := drop_add_of_drop h₁ (length_leBytes _ _)
    have h₃ := drop_add_of_drop h₂ (length_leBytes _ _)
    have h₄ := drop_add_of_drop h₃ (length_leBytes _ _)
    have h₅ := drop_add_of_drop h₄ (length_leBytes _ _)
    have h₆ := drop_add_of_drop h₅ (length_leBytes _ _)
    have h₇ := drop_add_of_drop h₆ (length_int32Bytes _)
    have h₈ := drop_add_of_drop h₇ (length_int32Bytes _)
    have h₉ := drop_add_of_drop h₈ (length_int32Bytes _)
    have h₁₀ := drop_add_of_drop h₉ (length_int32Bytes _)
    simp only [Nat.add_assoc, Nat.reduceAdd] at h₁ h₂ h₃ h₄ h₅ h₆ h₇ h₈ h₉ h₁₀ ⊢
    have hlevel := hc.targetCompressLevel
    rw [if_neg (by omega), read4_of_drop h (by decide) (by decide), if_neg (by decide),
      if_neg (by decide), if_pos rfl, if_neg (by omega), read8_of_drop h₁ hc.sourceStart,
      read8_of_drop h₂ hc.sourceLen, read8_of_drop h₃ hoff,
      read8_of_drop h₄ hc.sourceUncompressedLen, read8_of_drop h₅ hc.targetUncompressedLen,
      read4_of_drop h₆ (by omega) (by omega), read4_of_drop h₇ (by decide) (by decide),
      read4_of_drop h₈ (by decide) (by decide), read4_of_drop h₉ (by decide) (by decide),
      read4_of_drop h₁₀ (by decide) (by decide)]
  | raw =>
    simp only [writeHeaderToFd, getHeaderSize, header, htype, List.append_assoc] at h hpatch ⊢
    have h₁ := drop_add_of_drop h (length_int32Bytes _)
    have h₂ := drop_add_of_drop h₁ (length_int32Bytes _)
    have hdata := hc.raw htype
    have hsize : sizeT (c.data.length : Int) = c.data.length := by
      unfold sizeT
      omega
    rw [if_neg (by omega), read4_of_drop h (by decide) (by decide), if_neg (by decide), if_pos rfl,
      if_neg (by omega), read4_of_drop h₁ (by omega) (by omega), hsize,
      Nat.mod_eq_of_lt (by omega), if_neg (by omega), if_pos (by omega), h₂, List.take_left' rfl]
    simp only [Nat.add_assoc, Nat.reduceAdd]

/-- The bytes of a chunk after the headers. -/
def payload (c : PatchChunk) : List UInt8 := if c.type = .raw then [] else c.data

theorem writeHeaderToFd_snd (c : PatchChunk) (offset : Nat) :
    (c.writeHeaderToFd offset).2 = offset + c.payload.length := by
  unfold writeHeaderToFd payload
  cases c.type <;> simp

theorem patchSize_eq (c : PatchChunk) : c.patchSize = c.getHeaderSize + c.payload.length := by
  unfold patchSize payload
  cases c.type <;> simp

/-- What is read for a list of chunks, the first patch standing at `offset`. -/
def headers : List PatchChunk → (offset : Nat) → List ChunkHeader
  | [], _ => []
  | c :: cs, offset => c.header offset :: headers cs (offset + c.payload.length)

theorem readChunks_writeHeaders {cs : List PatchChunk} {patch rest : List UInt8} {pos offset : Nat}
    (hcs : ∀ c ∈ cs, c.Sized) (hoff : offset + (cs.map (·.payload.length)).sum < 2 ^ 63)
    (hlen : patch.length < 2 ^ 63) (h : patch.drop pos = writeHeaders cs offset ++ rest) :
    readChunks patch cs.length pos = .ok (headers cs offset) := by
  induction cs generalizing pos offset with
  | nil => rfl
  | cons c cs ih =>
    rw [List.map_cons, List.sum_cons] at hoff
    rw [writeHeaders, List.append_assoc, writeHeaderToFd_snd] at h
    have hread := readChunk_writeHeaderToFd (hcs c List.mem_cons_self) (by omega) hlen h
    have hrest := ih (fun c hc => hcs c (List.mem_cons_of_mem _ hc)) (by omega)
      (drop_add_of_drop h (length_writeHeaderToFd c offset))
    simp only [List.length_cons, readChunks, hread, hrest, headers, bind, Except.bind, pure,
      Except.pure]

theorem forall₂_headers {cs : List PatchChunk} {patch : List UInt8} {offset : Nat}
    (h : patch.drop offset = writePatches cs) (hle : offset ≤ patch.length) :
    List.Forall₂ (fun c h => ChunkHeader.Of patch c h) cs (headers cs offset) := by
  induction cs generalizing offset with
  | nil => exact .nil
  | cons c cs ih =>
    have hcons : patch.drop offset = c.payload ++ writePatches cs := h
    have hrest := drop_add_of_drop hcons rfl
    have hlen := congrArg List.length hcons
    rw [List.length_drop, List.length_append] at hlen
    refine .cons ?_ (ih hrest (by omega))
    -- the patches from `offset` on start with that of `c`
    unfold ChunkHeader.Of header
    cases htype : c.type with
    | raw => simp
    | normal =>
      rw [payload, htype, if_neg (by decide)] at hcons
      exact ⟨offset, rfl, ⟨_, hcons.symm⟩, hle⟩
    | deflate =>
      rw [payload, htype, if_neg (by decide)] at hcons
      exact ⟨offset, rfl, ⟨_, hcons.symm⟩, hle⟩

theorem length_writeHeaders (cs : List PatchChunk) (offset : Nat) :
    (writeHeaders cs offset).length = (cs.map getHeaderSize).sum := by
  induction cs generalizing offset with
  | nil => rfl
  | cons c cs ih =>
    rw [writeHeaders, List.length_append, length_writeHeaderToFd, ih, List.map_cons, List.sum_cons]

theorem length_writePatches (cs : List PatchChunk) :
    (writePatches cs).length = (cs.map (·.payload.length)).sum := by
  rw [writePatches, List.length_flatMap]
  rfl

/-- The size that `GeneratePatches` records in the split info is the size of the file. -/
theorem length_writePatchDataToFd (cs : List PatchChunk) :
    (writePatchDataToFd cs).length = 12 + (cs.map patchSize).sum := by
  have hsum : (cs.map patchSize).sum =
      (cs.map getHeaderSize).sum + (cs.map (·.payload.length)).sum := by
    induction cs with
    | nil => rfl
    | cons c cs ih =>
      simp only [List.map_cons, List.sum_cons, patchSize_eq, ih]
      omega
  have h8 : MAGIC.length = 8 := rfl
  simp only [writePatchDataToFd, List.length_append, h8, length_int32Bytes, length_writeHeaders,
    length_writePatches, hsum]
  omega

theorem writePatchDataToFd_eq (cs : List PatchChunk) : writePatchDataToFd cs =
    MAGIC ++ (int32Bytes cs.length ++
      (writeHeaders cs (12 + (cs.map getHeaderSize).sum) ++ writePatches cs)) := by
  simp only [writePatchDataToFd, List.append_assoc]

theorem readChunkCount_writePatchDataToFd (cs : List PatchChunk) :
    readChunkCount (writePatchDataToFd cs) = .ok (leInt32 (int32Bytes cs.length)).toNat := by
  have hlen := length_writePatchDataToFd cs
  have h8 : MAGIC.length = 8 := rfl
  have hmagic : (writePatchDataToFd cs).take 8 = MAGIC := by
    rw [writePatchDataToFd_eq, List.take_left' h8]
  have hdrop := drop_add_of_drop ((List.drop_zero).trans (writePatchDataToFd_eq cs)) h8
  rw [Nat.zero_add] at hdrop
  rw [readChunkCount, if_neg (by omega), if_neg (by simp [hmagic]), read4, hdrop,
    List.take_left' (length_int32Bytes _)]

theorem readPatch_writePatchDataToFd {cs : List PatchChunk} (hcs : ∀ c ∈ cs, c.Sized)
    (hcount : cs.length < 2 ^ 31) (htotal : 12 + (cs.map patchSize).sum < 2 ^ 63) :
    ∃ hs, readPatch (writePatchDataToFd cs) = .ok hs ∧
      List.Forall₂ (fun c h => ChunkHeader.Of (writePatchDataToFd cs) c h) cs hs := by
  have hlen := length_writePatchDataToFd cs
  have h8 : MAGIC.length = 8 := rfl
  have hfile := writePatchDataToFd_eq cs
  have hcountRead := readChunkCount_writePatchDataToFd cs
  rw [leInt32_int32Bytes (by omega) (by omega), Int.toNat_natCast] at hcountRead
  generalize writePatchDataToFd cs = patch at hlen hfile hcountRead ⊢
  have hd₀ := drop_add_of_drop ((List.drop_zero).trans hfile) h8
  rw [Nat.zero_add] at hd₀
  have hd₁ := drop_add_of_drop hd₀ (length_int32Bytes _)
  rw [show 8 + 4 = 12 from rfl] at hd₁
  have hd₂ := drop_add_of_drop hd₁ (length_writeHeaders cs _)
  have hbound : 12 + (cs.map getHeaderSize).sum + (cs.map (·.payload.length)).sum < 2 ^ 63 := by
    have := congrArg List.length hfile
    simp only [List.length_append, h8, length_int32Bytes, length_writeHeaders,
      length_writePatches] at this
    omega
  refine ⟨headers cs (12 + (cs.map getHeaderSize).sum), ?_, forall₂_headers hd₂ ?_⟩
  · have hchunks := readChunks_writeHeaders hcs hbound (by rwa [hlen]) hd₁
    rw [readPatch, hcountRead]
    exact hchunks
  · have := congrArg List.length hfile
    simp only [List.length_append, h8, length_int32Bytes, length_writeHeaders,
      length_writePatches] at this
    omega

end PatchChunk

end BootableRecovery.ApplyPatch
