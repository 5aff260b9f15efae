import BootableRecovery.ApplyPatch.ImgPatch

/-!
# Image chunks

`ImageChunk`, `PatchChunk` and the parts of `Image` and `ImageModeImage` of
`applypatch/imgdiff.cpp`: a file is cut into chunks, the deflate chunks of source and target that
cannot or need not be patched in their inflated form are turned into normal ones, and a bsdiff patch
is made for each target chunk.
-/

namespace BootableRecovery.ApplyPatch

/-- The bytes in memory from position `p` of a file on, which may end after the file. -/
def Lib.bytesAt (lib : Lib) (file : List UInt8) (p n : Nat) : List UInt8 :=
  (List.range n).map fun i => (file[p + i]?).getD (lib.beyond (p + i - file.length))

/-- `ImageChunk`; `file` is what `input_file_ptr_` points to. -/
structure ImageChunk where
  type : ChunkType
  start : Nat
  file : List UInt8
  rawDataLen : Nat
  compressLevel : Nat := 6
  uncompressedData : List UInt8 := []
  entryName : Text := []
  deriving DecidableEq

namespace ImageChunk

/-- The bytes of the chunk. -/
def raw (c : ImageChunk) : List UInt8 := (c.file.drop c.start).take c.rawDataLen

def getRawData (c : ImageChunk) : Except Fault (List UInt8) :=
  if c.start + c.rawDataLen ≤ c.file.length then .ok c.raw else .error .crashed

/-- `DataForPatch`, with `DataLengthForPatch` as its length. -/
def dataForPatch (c : ImageChunk) : Except Fault (List UInt8) :=
  if c.type = .deflate then .ok c.uncompressedData else c.getRawData

def dataLengthForPatch (c : ImageChunk) : Nat :=
  if c.type = .deflate then c.uncompressedData.length else c.rawDataLen

/-- `operator==`. -/
def equals (c other : ImageChunk) : Except Fault Bool :=
  if c.type ≠ other.type then .ok false
  else if c.rawDataLen ≠ other.rawDataLen then .ok false
  else do
    let a ← c.getRawData
    let b ← other.getRawData
    return a = b

def setBonusData (c : ImageChunk) (bonus : List UInt8) : Option ImageChunk :=
  if c.type = .deflate then some { c with uncompressedData := c.uncompressedData ++ bonus }
  else none

def changeDeflateChunkToNormal (c : ImageChunk) : ImageChunk :=
  if c.type = .deflate then { c with type := .normal, uncompressedData := [] } else c

def isAdjacentNormal (c other : ImageChunk) : Bool :=
  c.type = .normal && other.type = .normal && other.start = c.start + c.rawDataLen

def mergeAdjacentNormal (c other : ImageChunk) : ImageChunk :=
  { c with rawDataLen := c.rawDataLen + other.rawDataLen }

variable (lib : Lib)

/-- The loop of `TryReconstruction`: the number of bytes that deflate has given and that are those
of the file from `pos` on. -/
def reconstructLoop (file : List UInt8) (pos : Nat) :
    (fuel : Nat) → lib.Stream → List UInt8 → (offset : Nat) → Option Nat
  | 0, _, _, _ => none
  | fuel + 1, stream, availIn, offset =>
    let d := lib.deflate stream availIn true BUFFER_SIZE
    if d.ret = .error then none
    else if d.output ≠ lib.bytesAt file (pos + offset) d.output.length then none
    else if d.ret = .streamEnd then some (offset + d.output.length)
    else reconstructLoop file pos fuel d.stream d.availIn (offset + d.output.length)

def tryReconstruction (c : ImageChunk) (level : Nat) : Bool :=
  match lib.deflateInit2 level METHOD WINDOWBITS MEMLEVEL STRATEGY with
  | none => false
  | some stream =>
    let availIn := c.uncompressedData.take (c.uncompressedData.length % 2 ^ 32)
    reconstructLoop lib c.file c.start (lib.calls stream availIn) stream availIn 0 =
      some c.rawDataLen

/-- `ReconstructDeflateChunk`: the chunk with the level that reproduces it. -/
def reconstructDeflateChunk (c : ImageChunk) : Option ImageChunk :=
  if c.type ≠ .deflate then none
  else if c.tryReconstruction lib 6 then some { c with compressLevel := 6 }
  else if c.tryReconstruction lib 9 then some { c with compressLevel := 9 }
  else none

def makePatch (tgt src : ImageChunk) : Except Fault (List UInt8) := do
  let old ← src.dataForPatch
  let new ← tgt.dataForPatch
  match lib.bsdiff old new with
  | some patch => return patch
  | none => .error .failed

end ImageChunk

namespace PatchChunk

/-- The constructor from a target, a source and the patch between them. -/
def make (tgt src : ImageChunk) (data : List UInt8) : PatchChunk where
  type := tgt.type
  sourceStart := src.start
  sourceLen := src.rawDataLen
  sourceUncompressedLen := src.dataLengthForPatch
  targetStart := tgt.start
  targetLen := tgt.rawDataLen
  targetUncompressedLen := tgt.dataLengthForPatch
  targetCompressLevel := tgt.compressLevel
  data := data

/-- The constructor of a `CHUNK_RAW` patch. -/
def makeRaw (tgt : ImageChunk) : Except Fault PatchChunk := do
  let data ← tgt.dataForPatch
  return {
    type := .raw
    sourceStart := 0
    sourceLen := 0
    sourceUncompressedLen := 0
    targetStart := tgt.start
    targetLen := tgt.rawDataLen
    targetUncompressedLen := tgt.dataLengthForPatch
    targetCompressLevel := tgt.compressLevel
    data := data }

def rawDataIsSmaller (tgt : ImageChunk) (patchSize : Nat) : Bool :=
  tgt.type = .normal && (tgt.rawDataLen ≤ 160 || tgt.rawDataLen < patchSize)

/-- The patch for one target chunk, in `GeneratePatches` and `GeneratePatchesInternal`. -/
def generate (lib : Lib) (tgt src : ImageChunk) : Except Fault PatchChunk :=
  if rawDataIsSmaller tgt 0 then makeRaw tgt
  else do
    let patch ← ImageChunk.makePatch lib tgt src
    if rawDataIsSmaller tgt patch.length then makeRaw tgt
    else return make tgt src patch

end PatchChunk

/-- `MergeAdjacentNormalChunks`, with the chunk that is extended at the moment. -/
def mergeFrom (cur : ImageChunk) : List ImageChunk → List ImageChunk
  | [] => [cur]
  | c :: cs =>
    if cur.isAdjacentNormal c then mergeFrom (cur.mergeAdjacentNormal c) cs
      else cur :: mergeFrom c cs

def mergeAdjacentNormalChunks : List ImageChunk → List ImageChunk
  | [] => []
  | c :: cs => mergeFrom c cs

/-! ## Image mode -/

namespace ImageMode

variable (lib : Lib)

def GZIP_HEADER_LEN : Nat := 10
def GZIP_FOOTER_LEN : Nat := 8

/-- The bytes `1f 8b 08 00` stand at `pos`. -/
def magicAt (file : List UInt8) (pos : Nat) : Bool :=
  pos + 4 ≤ file.length && (file.drop pos).take 4 = [0x1f, 0x8b, 0x08, 0x00]

/-- The number of bytes from `pos` on that are scanned until a gzip header or the end. -/
def normalLen (file : List UInt8) (pos : Nat) : (fuel : Nat) → (dataLen : Nat) → Nat
  | 0, dataLen => dataLen
  | fuel + 1, dataLen =>
    if dataLen + pos < file.length then
      if magicAt file (pos + dataLen) then dataLen else normalLen file pos fuel (dataLen + 1)
    else dataLen

/-- The deflate stream at `pos`: its length in the file and its data, if it ends with a footer that
has the right size. `avail_in` has 32 bits, and the difference from the end of the file to the
footer can wrap around. -/
def deflateAt (file : List UInt8) (pos : Nat) : Option (Nat × List UInt8) :=
  let availIn := (file.length - pos) % 2 ^ 32
  match lib.inflate ((file.drop pos).take availIn) with
  | none => none
  | some (data, used) =>
    let rawDataLen := file.length - (availIn - used) - pos
    let footerIndex := pos + rawDataLen + GZIP_FOOTER_LEN - 4
    if (file.length + 2 ^ 64 - footerIndex) % 2 ^ 64 < 4 then none
    else if leNat (lib.bytesAt file footerIndex 4) ≠ data.length then none
    else some (rawDataLen, data)

/-- `LOG` streams `strm.msg`, a null pointer, for what is at `pos`: the input of `inflate` ends
within the stream, or after `2 ^ 32` bytes of data `avail_out` is cut to 0. -/
def logsNullAt (file : List UInt8) (pos : Nat) : Bool :=
  let input := (file.drop pos).take ((file.length - pos) % 2 ^ 32)
  match lib.inflate input with
  | none => lib.endsWithin input
  | some (data, _) => 2 ^ 32 < data.length

/-- The chunks that `Initialize` adds from `pos` on. Each round takes at least one byte. -/
def scan (file : List UInt8) : (fuel : Nat) → (pos : Nat) → List ImageChunk
  | 0, _ => []
  | fuel + 1, pos =>
    if pos < file.length then
      if magicAt file pos then
        if file.length - pos < GZIP_HEADER_LEN + GZIP_FOOTER_LEN then
          [{ type := .normal, start := pos, file, rawDataLen := file.length - pos }]
        else
          let header : ImageChunk :=
            { type := .normal, start := pos, file, rawDataLen := GZIP_HEADER_LEN }
          let pos := pos + GZIP_HEADER_LEN
          match deflateAt lib file pos with
          | none => header :: scan file fuel pos
          | some (rawDataLen, data) =>
            header ::
            { type := .deflate, start := pos, file, rawDataLen, uncompressedData := data } ::
            { type := .normal, start := pos + rawDataLen, file, rawDataLen := GZIP_FOOTER_LEN } ::
            scan file fuel (pos + rawDataLen + GZIP_FOOTER_LEN)
      else
        let dataLen := normalLen file pos (file.length - pos) 0
        { type := .normal, start := pos, file, rawDataLen := dataLen } ::
          scan file fuel (pos + dataLen)
    else []

/-- The chunks that `Initialize` adds. -/
def initializeImage (file : List UInt8) : List ImageChunk := scan lib file file.length 0

/-- A round of the loop of `Initialize` from `pos` on streams a null pointer. -/
def scanLogsNull (file : List UInt8) : (fuel : Nat) → (pos : Nat) → Bool
  | 0, _ => false
  | fuel + 1, pos =>
    if pos < file.length then
      if magicAt file pos then
        if file.length - pos < GZIP_HEADER_LEN + GZIP_FOOTER_LEN then false
        else
          let pos := pos + GZIP_HEADER_LEN
          logsNullAt lib file pos || match deflateAt lib file pos with
            | none => scanLogsNull file fuel pos
            | some (rawDataLen, _) => scanLogsNull file fuel (pos + rawDataLen + GZIP_FOOTER_LEN)
      else scanLogsNull file fuel (pos + normalLen file pos (file.length - pos) 0)
    else false

/-- `Initialize`. -/
def scanImage (file : List UInt8) : Except Fault (List ImageChunk) :=
  if scanLogsNull lib file file.length 0 then .error .crashed else .ok (initializeImage lib file)

/-- One round of the loop of `CheckAndProcessChunks`. -/
def processChunks (tgt src : ImageChunk) : Except Fault (ImageChunk × ImageChunk) :=
  if tgt.type ≠ .deflate then .ok (tgt, src)
  else do
    if ← tgt.equals src then
      return (tgt.changeDeflateChunkToNormal, src.changeDeflateChunkToNormal)
    else match tgt.reconstructDeflateChunk lib with
      | some tgt => return (tgt, src)
      | none => return (tgt.changeDeflateChunkToNormal, src.changeDeflateChunkToNormal)

def checkAndProcessChunks (tgt src : List ImageChunk) :
    Except Fault (List ImageChunk × List ImageChunk) := do
  let tgt := mergeAdjacentNormalChunks tgt
  let src := mergeAdjacentNormalChunks src
  if tgt.length ≠ src.length then .error .failed
  else if (tgt.zip src).any (fun c => c.1.type ≠ c.2.type) then .error .failed
  else
    let pairs ← (tgt.zip src).mapM fun c => processChunks lib c.1 c.2
    let tgt := mergeAdjacentNormalChunks (pairs.map Prod.fst)
    let src := mergeAdjacentNormalChunks (pairs.map Prod.snd)
    if tgt.length ≠ src.length then .error .failed else return (tgt, src)

def setBonusData (src : List ImageChunk) (bonus : List UInt8) : Except Fault (List ImageChunk) :=
  match src with
  | c₀ :: c₁ :: cs =>
    match c₁.setBonusData bonus with
    | some c₁ => .ok (c₀ :: c₁ :: cs)
    | none => .error .failed
  | _ => .error .failed

def generatePatches (tgt src : List ImageChunk) : Except Fault (List UInt8) := do
  let chunks ← (tgt.zip src).mapM fun c => PatchChunk.generate lib c.1 c.2
  return PatchChunk.writePatchDataToFd chunks

/-- `imgdiff` in image mode: the patch file. -/
def imgdiff (srcFile tgtFile : List UInt8) (bonus : Option (List UInt8)) :
    Except Fault (List UInt8) := do
  let src ← scanImage lib srcFile
  let tgt ← scanImage lib tgtFile
  let (tgt, src) ← checkAndProcessChunks lib tgt src
  let bonus := bonus.getD []
  let src ← if bonus ≠ [] then setBonusData src bonus else pure src
  generatePatches lib tgt src

end ImageMode

end BootableRecovery.ApplyPatch
