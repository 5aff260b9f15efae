import BootableRecovery.ApplyPatch.Container

/-!
# Applying an imgdiff patch

`ApplyBSDiffPatch` of `applypatch/bspatch.cpp` and `ApplyImagePatch` of `applypatch/imgpatch.cpp`.
The libraries they use are parameters: `bspatch`, which hands its output to a sink piece by piece,
and zlib, whose deflate stream is a state that each call of `deflate` changes.
-/

namespace BootableRecovery.ApplyPatch

/-- What a call of `deflate` returns, as far as its callers look at it. -/
inductive DeflateRet
  | ok
  | streamEnd
  | error
  deriving DecidableEq

/-- The outcome of a call of `deflate`: the stream after it, the input that is left, the output, and
the return value. -/
structure Deflated (σ : Type) where
  stream : σ
  availIn : List UInt8
  output : List UInt8
  ret : DeflateRet

/-- The libraries. `deflate` is given the input, whether the flush mode is `Z_FINISH` (it is
`Z_NO_FLUSH` otherwise) and the room for its output. `calls` is a number of calls after which a loop
over `deflate` is given up. `inflate` is the raw stream that the input starts with: the data that it
stands for and the number of bytes that it takes. `endsWithin` tells, if there is no such stream,
that the input is only the start of one: `inflate` then fails without a message. `bspatch` gives the
pieces that it hands to its sink and whether it succeeds if the sink takes them all. `beyond` is
what stands in memory after the end of a vector, and `memory` is the size of the largest vector that
there is memory for. -/
structure Lib where
  Stream : Type
  deflateInit2 : (level method windowBits memLevel strategy : Int) → Option Stream
  deflate : Stream → List UInt8 → (finish : Bool) → (room : Nat) → Deflated Stream
  calls : Stream → List UInt8 → Nat
  inflate : List UInt8 → Option (List UInt8 × Nat)
  endsWithin : List UInt8 → Bool
  bsdiff : (old new : List UInt8) → Option (List UInt8)
  bspatch : (old patch : List UInt8) → List (List UInt8) × Bool
  beyond : Nat → UInt8
  memory : Nat

/-- The constructor of a vector of bytes returns: it throws `std::length_error` from `2 ^ 63` on,
and `std::bad_alloc` if memory is short, which ends the program. -/
def CanAllocate (memory size : Nat) : Prop := size < 2 ^ 63 ∧ size ≤ memory

instance (memory size : Nat) : Decidable (CanAllocate memory size) :=
  inferInstanceAs (Decidable (_ ∧ _))

theorem CanAllocate.of_le {memory m n : Nat} (h : CanAllocate memory n) (hle : m ≤ n) :
    CanAllocate memory m :=
  ⟨hle.trans_lt h.1, hle.trans h.2⟩

abbrev Lib.CanAllocate (lib : Lib) (size : Nat) : Prop := ApplyPatch.CanAllocate lib.memory size

/-- A library whose functions all fail. -/
instance : Inhabited Lib where
  default := ⟨Unit, fun _ _ _ _ _ => none, fun s input _ _ => ⟨s, input, [], .error⟩, fun _ _ => 0,
    fun _ => none, fun _ => false, fun _ _ => none, fun _ _ => ([], false), fun _ => 0, 0⟩

/-- A sink takes some bytes and returns how many of them it has taken. -/
abbrev Sink (σ : Type) := List UInt8 → σ → Nat × σ

/-- The outcome of a function that feeds a sink. -/
abbrev Outcome (σ : Type) := Except Fault Unit × σ

/-- A sink, and the bytes that went into the SHA-1 context. -/
structure Out (σ : Type) where
  sink : σ
  hashed : List UInt8

/-- The sink of `ApplyBSDiffPatch`, which also updates the context. -/
def shaSink (sink : Sink σ) : Sink (Out σ) := fun data out =>
  ((sink data out.sink).1, ⟨(sink data out.sink).2, out.hashed ++ data.take (sink data out.sink).1⟩)

/-- A sink that keeps all bytes in memory. -/
def memorySink : Sink (List UInt8) := fun data out => (data.length, out ++ data)

/-- Hands one piece after the other to the sink, until it takes less than a piece. -/
def feed (sink : Sink σ) : List (List UInt8) → σ → Bool × σ
  | [], s => (true, s)
  | piece :: pieces, s =>
    if (sink piece s).1 = piece.length then feed sink pieces (sink piece s).2
    else (false, (sink piece s).2)

variable (lib : Lib)

/-- `ApplyBSDiffPatch` to any sink. -/
def applyBSDiffPatch (old patch : List UInt8) (patchOffset : Nat) (sink : Sink σ) (s : σ) :
    Outcome σ :=
  if patchOffset ≤ patch.length then
    let (pieces, ok) := lib.bspatch old (patch.drop patchOffset)
    let (fed, s) := feed sink pieces s
    (if fed && ok then .ok () else .error .failed, s)
  else (.error .crashed, s)

/-! ## Deflating on the fly -/

def BUFFER_SIZE : Nat := 32768

/-- The variables of `ApplyBSDiffPatchAndStreamOutput`. -/
structure Compression (σ : Type) where
  stream : lib.Stream
  ret : DeflateRet
  actualTargetLength : Nat
  out : Out σ

/-- The loop of `compression_sink`. -/
def deflateLoop (sink : Sink σ) (finish : Bool) :
    (fuel : Nat) → List UInt8 → Compression lib σ → Bool × Compression lib σ
  | 0, _, c => (false, c)
  | fuel + 1, availIn, c =>
    let d := lib.deflate c.stream availIn finish BUFFER_SIZE
    if d.ret = .error then (false, { c with stream := d.stream, ret := d.ret })
    else if (sink d.output c.out.sink).1 ≠ d.output.length then
      (false, { c with
        stream := d.stream, ret := d.ret, out := ⟨(sink d.output c.out.sink).2, c.out.hashed⟩ })
    else
      let c := { c with
        stream := d.stream
        ret := d.ret
        out := ⟨(sink d.output c.out.sink).2, c.out.hashed ++ d.output⟩ }
      if (d.availIn ≠ [] ∨ d.output.length = BUFFER_SIZE) ∧ d.ret ≠ .streamEnd then
        deflateLoop sink finish fuel d.availIn c
      else (true, c)

/-- `compression_sink`. The number of bytes is cut to 32 bits in `avail_in`. -/
def compressionSink (sink : Sink σ) (expectedTargetLength : Nat) : Sink (Compression lib σ) :=
  fun data c =>
    let finish := !(c.actualTargetLength + data.length < expectedTargetLength)
    let availIn := data.take (data.length % 2 ^ 32)
    match deflateLoop lib sink finish (lib.calls c.stream availIn) availIn c with
    | (true, c) =>
      (data.length, { c with actualTargetLength := c.actualTargetLength + data.length })
    | (false, c) => (0, c)

def applyBSDiffPatchAndStreamOutput (src patch : List UInt8)
    (patchOffset expectedTargetLength : Nat) (level method windowBits memLevel strategy : Int)
    (sink : Sink σ) (out : Out σ) : Outcome (Out σ) :=
  match lib.deflateInit2 level method windowBits memLevel strategy with
  | none => (.error .failed, out)
  | some stream =>
    match applyBSDiffPatch lib src patch patchOffset (compressionSink lib sink expectedTargetLength)
        ⟨stream, .ok, 0, out⟩ with
    | (.error fault, c) => (.error fault, c.out)
    | (.ok (), c) =>
      if c.ret ≠ .streamEnd then (.error .failed, c.out)
      else if expectedTargetLength ≠ c.actualTargetLength then (.error .failed, c.out)
      else (.ok (), c.out)

/-! ## ApplyImagePatch -/

/-- The source data of a deflate chunk: what the stream `src` inflates to, with the bonus data after
it. `avail_in` and `avail_out` have 32 bits. -/
def expandedSource (src : List UInt8) (expandedLen : Nat) (bonus : List UInt8) :
    Except Fault (List UInt8) :=
  if ¬lib.CanAllocate expandedLen then .error .crashed
  else if expandedLen ≠ 0 then
    match lib.inflate (src.take (src.length % 2 ^ 32)) with
    | none => .error .failed
    | some (data, _) =>
      let availOut := expandedLen % 2 ^ 32
      if availOut < data.length then .error .failed
      else if availOut - data.length ≠ bonus.length then .error .failed
      else .ok (data ++ List.replicate (expandedLen - data.length - bonus.length) 0 ++ bonus)
  else .ok []

/-- The bytes of the source that a chunk names. Their end is computed in 64 bits. -/
def sourceSlice (old : List UInt8) (srcStart srcLen : Nat) : Except Fault (List UInt8) :=
  if (srcStart + srcLen) % 2 ^ 64 > old.length then .error .failed
  else if srcStart + srcLen ≤ old.length then .ok ((old.drop srcStart).take srcLen)
  else .error .crashed

/-- The work on chunk `i`. -/
def applyChunk (old patch : List UInt8) (bonus : Option (List UInt8)) (sink : Sink σ) (i : Nat)
    (header : ChunkHeader) (out : Out σ) : Outcome (Out σ) :=
  match header with
  | .normal srcStart srcLen patchOffset =>
    match sourceSlice old srcStart srcLen with
    | .error fault => (.error fault, out)
    | .ok src => applyBSDiffPatch lib src patch patchOffset (shaSink sink) out
  | .raw data =>
    let out := { out with hashed := out.hashed ++ data }
    let (n, s) := sink data out.sink
    (if n = data.length then .ok () else .error .failed, { out with sink := s })
  | .deflate srcStart srcLen patchOffset expandedLen targetLen level method windowBits memLevel
      strategy =>
    match sourceSlice old srcStart srcLen with
    | .error fault => (.error fault, out)
    | .ok src =>
      let bonusData := if i = 1 then bonus.getD [] else []
      match expandedSource lib src expandedLen bonusData with
      | .error fault => (.error fault, out)
      | .ok expanded =>
        applyBSDiffPatchAndStreamOutput lib expanded patch patchOffset targetLen level method
          windowBits memLevel strategy sink out

/-- The loop of `ApplyImagePatch`, from chunk `i` at position `pos` on. -/
def applyChunks (old patch : List UInt8) (bonus : Option (List UInt8)) (sink : Sink σ) :
    (n i pos : Nat) → Out σ → Outcome (Out σ)
  | 0, _, _, out => (.ok (), out)
  | n + 1, i, pos, out =>
    match readChunk patch pos with
    | .error fault => (.error fault, out)
    | .ok (header, pos) =>
      match applyChunk lib old patch bonus sink i header out with
      | (.error fault, out) => (.error fault, out)
      | (.ok (), out) => applyChunks old patch bonus sink n (i + 1) pos out

def applyImagePatch (old patch : List UInt8) (bonus : Option (List UInt8)) (sink : Sink σ)
    (out : Out σ) : Outcome (Out σ) :=
  match readChunkCount patch with
  | .error fault => (.error fault, out)
  | .ok n => applyChunks lib old patch bonus sink n 0 12 out

/-! ## The chunks of a container -/

/-- The work on a list of chunks, from chunk `i` on. -/
def applyHeaders (old patch : List UInt8) (bonus : Option (List UInt8)) (sink : Sink σ) :
    (i : Nat) → List ChunkHeader → Out σ → Outcome (Out σ)
  | _, [], out => (.ok (), out)
  | i, header :: headers, out =>
    match applyChunk lib old patch bonus sink i header out with
    | (.error fault, out) => (.error fault, out)
    | (.ok (), out) => applyHeaders old patch bonus sink (i + 1) headers out

variable {lib} {old patch : List UInt8} {bonus : Option (List UInt8)} {sink : Sink σ}

theorem applyChunks_eq {n i pos : Nat} {hs : List ChunkHeader} {out : Out σ}
    (h : readChunks patch n pos = .ok hs) :
    applyChunks lib old patch bonus sink n i pos out =
      applyHeaders lib old patch bonus sink i hs out := by
  induction n generalizing i pos hs out with
  | zero => cases h; rfl
  | succ n ih =>
    rw [readChunks] at h
    cases hchunk : readChunk patch pos with
    | error fault => rw [hchunk] at h; cases h
    | ok r =>
      rw [hchunk] at h
      cases hrest : readChunks patch n r.2 with
      | error fault => simp [bind, Except.bind, hrest] at h
      | ok hs' =>
        simp only [bind, Except.bind, hrest, pure, Except.pure, Except.ok.injEq] at h
        subst h
        rw [applyChunks, applyHeaders, hchunk]
        dsimp only
        split
        · rfl
        · exact ih hrest

theorem applyImagePatch_eq {hs : List ChunkHeader} {out : Out σ} (h : readPatch patch = .ok hs) :
    applyImagePatch lib old patch bonus sink out =
    applyHeaders lib old patch bonus sink 0 hs out := by
  rw [readPatch] at h
  unfold applyImagePatch
  cases hn : readChunkCount patch with
  | error fault => rw [hn] at h; cases h
  | ok n =>
    rw [hn] at h
    exact applyChunks_eq h

/-- `ApplyImagePatch` visits the chunks that were written, in order, each with its parameters and
its own data, and the file has the size that is recorded for it. -/
theorem applyImagePatch_writePatchDataToFd {cs : List PatchChunk} (hcs : ∀ c ∈ cs, c.Sized)
    (hcount : cs.length < 2 ^ 31) (htotal : 12 + (cs.map PatchChunk.patchSize).sum < 2 ^ 63) :
    (PatchChunk.writePatchDataToFd cs).length = 12 + (cs.map PatchChunk.patchSize).sum ∧
    ∃ hs, List.Forall₂ (ChunkHeader.Of (PatchChunk.writePatchDataToFd cs)) cs hs ∧
      ∀ (lib : Lib) (σ : Type) (old : List UInt8) (bonus : Option (List UInt8)) (sink : Sink σ)
        (out : Out σ),
        applyImagePatch lib old (PatchChunk.writePatchDataToFd cs) bonus sink out =
          applyHeaders lib old (PatchChunk.writePatchDataToFd cs) bonus sink 0 hs out := by
  obtain ⟨hs, hread, hof⟩ := PatchChunk.readPatch_writePatchDataToFd hcs hcount htotal
  refine ⟨PatchChunk.length_writePatchDataToFd cs, hs, hof, ?_⟩
  intro lib σ old bonus sink out
  exact applyImagePatch_eq hread

/-- One chunk of each type. -/
def sampleChunks : List PatchChunk :=
  [⟨.normal, 0, 200, 200, 0, 180, 180, 6, [1, 2]⟩, ⟨.raw, 0, 0, 0, 180, 3, 3, 6, [7, 8, 9]⟩,
    ⟨.deflate, 200, 12, 40, 183, 10, 38, 9, [3]⟩]

theorem applyImagePatch_writePatchDataToFd_sample :
    (PatchChunk.writePatchDataToFd sampleChunks).length = 12 + (28 + 2) + 11 + (64 + 1) ∧
    ∃ hs, List.Forall₂ (ChunkHeader.Of (PatchChunk.writePatchDataToFd sampleChunks))
    sampleChunks hs := by
  have hsized : ∀ c ∈ sampleChunks, c.Sized := by
    intro c hc
    simp only [sampleChunks, List.mem_cons, List.not_mem_nil, or_false] at hc
    rcases hc with rfl | rfl | rfl <;> constructor <;> simp
  obtain ⟨hlen, hs, hof, -⟩ := applyImagePatch_writePatchDataToFd hsized (by decide) (by decide)
  exact ⟨hlen, hs, hof⟩

theorem applyImagePatch_of_manyChunks {cs : List PatchChunk} {out : Out σ}
    (h : cs.length = 2 ^ 31) :
    applyImagePatch lib old (PatchChunk.writePatchDataToFd cs) bonus sink out = (.ok (), out) := by
  have hcount : (leInt32 (int32Bytes ((2 ^ 31 : Nat) : Int))).toNat = 0 := by decide
  rw [applyImagePatch, PatchChunk.readChunkCount_writePatchDataToFd, h, hcount]
  rfl

/-- A raw chunk of one byte. -/
def sampleRaw : PatchChunk := ⟨.raw, 0, 0, 0, 0, 1, 1, 6, [7]⟩

/-- A list of `2 ^ 31` raw chunks, whose number is written as a negative one. -/
theorem not_applyImagePatch_writePatchDataToFd :
    ¬∀ cs : List PatchChunk, (∀ c ∈ cs, c.Sized) → 12 + (cs.map PatchChunk.patchSize).sum < 2 ^ 63 →
      (PatchChunk.writePatchDataToFd cs).length = 12 + (cs.map PatchChunk.patchSize).sum ∧
      ∃ hs, List.Forall₂ (ChunkHeader.Of (PatchChunk.writePatchDataToFd cs)) cs hs ∧
        ∀ (lib : Lib) (σ : Type) (old : List UInt8) (bonus : Option (List UInt8)) (sink : Sink σ)
          (out : Out σ),
          applyImagePatch lib old (PatchChunk.writePatchDataToFd cs) bonus sink out =
            applyHeaders lib old (PatchChunk.writePatchDataToFd cs) bonus sink 0 hs out := by
  intro h
  have hlen : (List.replicate (2 ^ 31) sampleRaw).length = 2 ^ 31 := List.length_replicate
  have hsize : ((List.replicate (2 ^ 31) sampleRaw).map PatchChunk.patchSize).sum = 2 ^ 31 * 9 := by
    rw [List.map_replicate, List.sum_replicate_nat]
    rfl
  have hsized : ∀ c ∈ List.replicate (2 ^ 31) sampleRaw, c.Sized := by
    intro c hc
    rw [List.eq_of_mem_replicate hc]
    constructor <;> simp [sampleRaw]
  have hcons :
      List.replicate (2 ^ 31) sampleRaw = sampleRaw :: List.replicate (2 ^ 31 - 1) sampleRaw :=
    List.replicate_succ
  generalize List.replicate (2 ^ 31) sampleRaw = cs at hlen hsize hsized hcons
  obtain ⟨-, hs, hof, happly⟩ := h cs hsized (by omega)
  -- a sink that takes nothing is not called, though the first chunk has a byte
  have hnone := happly default Unit [] none (fun _ s => (0, s)) ⟨(), []⟩
  rw [applyImagePatch_of_manyChunks hlen] at hnone
  rw [hcons] at hof
  cases hof with
  | cons hfirst _ =>
    change _ = ChunkHeader.raw [7] at hfirst
    subst hfirst
    cases hnone

end BootableRecovery.ApplyPatch
