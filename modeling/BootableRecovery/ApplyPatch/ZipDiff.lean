import BootableRecovery.ApplyPatch.ImgDiff
import BootableRecovery.OtaUtil.SortedRangeSet

/-!
# Zip mode

`ZipModeImage` of `applypatch/imgdiff.cpp`: the chunks of a zip file are its entries and what stands
between them. With a block limit, source and target are split into pieces, a patch is made for each
piece, and the split info says which blocks of the source a piece needs.
-/

namespace BootableRecovery.ApplyPatch.ZipMode

/-- What is used of a `ZipEntry`; `deflated` stands for the method `kCompressDeflated`. -/
structure ZipEntry where
  name : Text
  offset : Nat
  compressedLength : Nat
  deflated : Bool
  deriving DecidableEq

/-- The zip library: the entries of an archive, in the order of the iteration, and the data of a
deflated entry. -/
structure ZipArchive where
  entries : List UInt8 → Option (List ZipEntry)
  extractToMemory : List UInt8 → ZipEntry → Option (List UInt8)

variable (lib : Lib) (zip : ZipArchive)

/-! ## Initialize -/

/-- The bytes `50 4b 05 06` stand at `i`. -/
def eocdAt (file : List UInt8) (i : Nat) : Bool := (file.drop i).take 4 = [0x50, 0x4b, 0x05, 0x06]

/-- The loop of `GetZipFileSize`, which looks for the end of the central directory from `i - 1`
down. -/
def eocdLoop (file : List UInt8) : (i : Nat) → Except Fault Nat
  | 0 => .error .failed
  | i + 1 =>
    if eocdAt file i then
      if leNat ((file.drop (i + 4)).take 2) ≠ 0 then .error .crashed
      else
        let fileSize := i + 22 + leNat ((file.drop (i + 20)).take 2)
        if fileSize ≤ file.length then .ok fileSize else .error .crashed
    else eocdLoop file i

def getZipFileSize (file : List UInt8) : Except Fault Nat :=
  if file.length < 22 then .error .failed else eocdLoop file (file.length - 22 + 1)

/-- The chunks of an entry that is larger than the limit. -/
def splitEntry (limit : Nat) (file : List UInt8) (e : ZipEntry) :
    (fuel count compressedLen : Nat) → List ImageChunk
  | 0, _, _ => []
  | fuel + 1, count, compressedLen =>
    if 0 < compressedLen then
      let length := min limit compressedLen
      { type := .normal, start := e.offset + limit * count, file, rawDataLen := length
        entryName := e.name ++ '-' :: toText count } ::
      splitEntry limit file e fuel (count + 1) (compressedLen - length)
    else []

/-- `AddZipEntryToChunks`; the archive is the first `zipSize` bytes of the file. -/
def addZipEntryToChunks (limit : Nat) (file : List UInt8) (zipSize : Nat) (e : ZipEntry) :
    Except Fault (List ImageChunk) :=
  if e.compressedLength = 0 then .ok []
  else if 0 < limit ∧ limit < e.compressedLength then
    .ok (splitEntry limit file e e.compressedLength 0 e.compressedLength)
  else if e.deflated then
    match zip.extractToMemory (file.take zipSize) e with
    | none => .error .failed
    | some data => .ok [{
        type := .deflate, start := e.offset, file, rawDataLen := e.compressedLength
        uncompressedData := data, entryName := e.name }]
  else .ok [{
    type := .normal, start := e.offset, file, rawDataLen := e.compressedLength, entryName :=
    e.name }]

/-- The chunks of a source: its entries and the end of the file. -/
def sourceChunks (limit : Nat) (file : List UInt8) (zipSize : Nat) (es : List ZipEntry) :
    Except Fault (List ImageChunk) := do
  let chunks ← es.mapM (addZipEntryToChunks zip limit file zipSize)
  let entriesEnd := (es.getLast?.map fun e => e.offset + e.compressedLength).getD 0
  if entriesEnd < file.length then
    return chunks.flatten ++
      [{ type := .normal, start := entriesEnd, file, rawDataLen := file.length - entriesEnd }]
  else .error .crashed

/-- The chunks of a target from `pos` on: its entries and what is between them. A difference can
wrap around. -/
def targetChunks (limit : Nat) (file : List UInt8) (zipSize : Nat) :
    (pos : Nat) → List ZipEntry → Except Fault (List ImageChunk)
  | pos, [] =>
    .ok (if pos < file.length then
      [{ type := .normal, start := pos, file, rawDataLen := file.length - pos }] else [])
  | pos, e :: es =>
    if pos < file.length then
      let gap : List ImageChunk := if pos = e.offset then [] else
        [{ type := .normal, start := pos, file, rawDataLen := (e.offset + 2 ^ 64 - pos) % 2 ^ 64 }]
      if e.offset < file.length then do
        let chunks ← addZipEntryToChunks zip limit file zipSize e
        let rest ← targetChunks limit file zipSize (e.offset + e.compressedLength) es
        return gap ++ chunks ++ rest
      else .ok gap
    else .ok []

/-- The entries that become chunks, sorted by offset. -/
def tempEntries (limit : Nat) (es : List ZipEntry) : List ZipEntry :=
  (es.filter fun e => e.deflated || 0 < limit).insertionSort fun e₁ e₂ => e₁.offset ≤ e₂.offset

/-- `Initialize` of a source or a target. -/
def initializeImage (isSource : Bool) (limit : Nat) (file : List UInt8) :
    Except Fault (List ImageChunk) := do
  let zipSize ← getZipFileSize file
  match zip.entries (file.take zipSize) with
  | none => .error .failed
  | some es =>
    if isSource then sourceChunks zip limit file zipSize (tempEntries limit es)
    else targetChunks zip limit file zipSize 0 (tempEntries limit es)

/-! ## CheckAndProcessChunks -/

/-- The chunk has the name, or one of the two is the first piece of a split entry. -/
def answersTo (c : ImageChunk) (name : Text) : Bool :=
  c.entryName = name || name = c.entryName ++ ['-', '0'] || c.entryName = name ++ ['-', '0']

/-- The chunks that `FindChunkByName` stops at. -/
def isFound (name : Text) (findNormal : Bool) (c : ImageChunk) : Bool :=
  name ≠ [] && (c.type = .deflate || findNormal) && answersTo c name

def findChunkByName (chunks : List ImageChunk) (name : Text) (findNormal : Bool) :
    Option ImageChunk :=
  chunks.find? (isFound name findNormal)

/-- `ChangeDeflateChunkToNormal` of the chunk that `FindChunkByName` finds. -/
def changeFound (name : Text) : List ImageChunk → List ImageChunk
  | [] => []
  | c :: cs =>
    if isFound name false c then c.changeDeflateChunkToNormal :: cs else c :: changeFound name cs

/-- One round of the loop of `CheckAndProcessChunks`: the target chunk, and all source chunks. -/
def processChunk (tgt : ImageChunk) (src : List ImageChunk) :
    Except Fault (ImageChunk × List ImageChunk) :=
  if tgt.type ≠ .deflate then .ok (tgt, src)
  else match findChunkByName src tgt.entryName false with
    | none => .ok (tgt.changeDeflateChunkToNormal, src)
    | some srcChunk => do
      if ← tgt.equals srcChunk then
        return (tgt.changeDeflateChunkToNormal, changeFound tgt.entryName src)
      else match tgt.reconstructDeflateChunk lib with
        | some tgt => return (tgt, src)
        | none => return (tgt.changeDeflateChunkToNormal, changeFound tgt.entryName src)

/-- The loop of `CheckAndProcessChunks`. -/
def processChunks : List ImageChunk → List ImageChunk →
    Except Fault (List ImageChunk × List ImageChunk)
  | [], src => .ok ([], src)
  | tgt :: tgts, src => do
    let (tgt, src) ← processChunk lib tgt src
    let (tgts, src) ← processChunks tgts src
    return (tgt :: tgts, src)

def checkAndProcessChunks (limit : Nat) (tgt src : List ImageChunk) :
    Except Fault (List ImageChunk × List ImageChunk) := do
  let (tgt, src) ← processChunks lib tgt src
  return (if limit = 0 then mergeAdjacentNormalChunks tgt else tgt, src)

/-! ## GeneratePatches -/

def pseudoSource (file : List UInt8) : ImageChunk :=
  { type := .normal, start := 0, file, rawDataLen := file.length }

/-- The source chunk that a target chunk is patched from. -/
def sourceFor (src : List ImageChunk) (file : List UInt8) (tgt : ImageChunk) : ImageChunk :=
  (if tgt.type ≠ .deflate then none else findChunkByName src tgt.entryName false).getD
    (pseudoSource file)

def generatePatchesInternal (tgt src : List ImageChunk) (file : List UInt8) :
    Except Fault (List PatchChunk) :=
  tgt.mapM fun t => PatchChunk.generate lib t (sourceFor src file t)

/-- `GeneratePatches` without a limit. A failure leaves too few patch chunks, which the `CHECK`
after it finds. -/
def generatePatches (tgt src : List ImageChunk) (file : List UInt8) : Except Fault (List UInt8) :=
  match generatePatchesInternal lib tgt src file with
  | .error _ => .error .crashed
  | .ok chunks => .ok (PatchChunk.writePatchDataToFd chunks)

/-- `imgdiff -z`: the patch file. -/
def imgdiff (srcFile tgtFile : List UInt8) : Except Fault (List UInt8) := do
  let src ← initializeImage zip true 0 srcFile
  let tgt ← initializeImage zip false 0 tgtFile
  let (tgt, src) ← checkAndProcessChunks lib 0 tgt src
  generatePatches lib tgt src srcFile

/-! ## Splitting -/

def BLOCK_SIZE : Nat := 4096

/-- `AlignHead`: the start and length, and whether something is left. -/
def alignHead (start length : Nat) : Bool × Nat × Nat :=
  let residual := if start % BLOCK_SIZE = 0 then 0 else BLOCK_SIZE - start % BLOCK_SIZE
  if length ≤ residual then (false, start, 0) else (true, start + residual, length - residual)

def alignTail (start length : Nat) : Bool × Nat × Nat :=
  let residual := (start + length) % BLOCK_SIZE
  if length ≤ residual then (false, start, 0) else (true, start, length - residual)

/-- `RemoveUsedBlocks`: what is left of a source range, or nothing. -/
def removeUsedBlocks (start length : Nat) (used : SortedRangeSet) : Option (Nat × Nat) :=
  if !used.overlapsFile start length then some (start, length)
  else
    let (ok, start, length) := alignHead start length
    if ok && !used.overlapsFile start length then some (start, length)
    else
      let (ok, start, length) := alignTail start length
      if ok && !used.overlapsFile start length then some (start, length) else none

/-- A piece of the target, with the source chunks and the source content for it. -/
structure Piece where
  tgt : List ImageChunk
  src : List ImageChunk
  content : List UInt8
  deriving DecidableEq

/-- The loop of `AddSplitImageFromChunkList` that aligns the target chunks in the beginning. -/
def alignChunks (tgtFile : List UInt8) : List ImageChunk → List ImageChunk
  | [] => []
  | c :: cs =>
    match alignHead c.start c.rawDataLen with
    | (true, start, length) =>
      { type := .normal, start, file := tgtFile, rawDataLen := length } :: cs
    | (false, _, _) => alignChunks tgtFile cs

/-- The normal chunk that aligns the contents in the end. -/
def tailChunk (tgtFile : List UInt8) (cs : List ImageChunk) : List ImageChunk :=
  match cs.getLast? with
  | none => []
  | some c =>
    let endOffset := c.start + c.rawDataLen
    if endOffset % BLOCK_SIZE ≠ 0 ∧ endOffset < tgtFile.length then
      [{ type := .normal, start := endOffset, file := tgtFile
         rawDataLen := min (tgtFile.length - endOffset) (BLOCK_SIZE - endOffset % BLOCK_SIZE) }]
    else []

/-- The content of the source for a set of blocks, the last one cut at the end of the file. -/
def contentOf (srcFile : List UInt8) (ranges : SortedRangeSet) : List UInt8 :=
  ranges.ranges.flatMap fun r =>
    (srcFile.take (min srcFile.length (r.2 * BLOCK_SIZE))).drop (r.1 * BLOCK_SIZE)

/-- `AddSplitImageFromChunkList`: the new piece, if something is left after the alignment. -/
def addSplitImageFromChunkList (tgtFile srcFile : List UInt8) (srcRanges : SortedRangeSet)
    (splitTgt splitSrc : List ImageChunk) : Except Fault (Option Piece) :=
  if splitTgt = [] then .error .crashed
  else
    let aligned := alignChunks tgtFile splitTgt
    if aligned = [] then .ok none
    else
      let tgt := mergeAdjacentNormalChunks (aligned ++ tailChunk tgtFile aligned)
      -- a range that starts after the end of the file is outside
      if srcRanges.ranges.any fun r => srcFile.length < r.1 * BLOCK_SIZE then .error .crashed
      else
        let content := contentOf srcFile srcRanges
        if content = [] then .error .crashed else .ok (some ⟨tgt, splitSrc, content⟩)

/-- The variables of `SplitZipModeImageWithLimit`: the target chunks that are left, the ranges used
for earlier pieces, the ranges and chunks of the current piece, the pieces and their ranges. -/
structure Splitting where
  rest : List ImageChunk
  usedSrcRanges : SortedRangeSet
  srcRanges : SortedRangeSet
  splitSrc : List ImageChunk
  splitTgt : List ImageChunk
  pieces : List Piece
  ranges : List SortedRangeSet

/-- The target chunk as a normal chunk without a name. -/
def plain (tgtFile : List UInt8) (c : ImageChunk) : ImageChunk :=
  { type := .normal, start := c.start, file := tgtFile, rawDataLen := c.rawDataLen }

/-- The end of a piece: it is added, and the next one starts. -/
def closePiece (tgtFile srcFile : List UInt8) (s : Splitting) : Except Fault Splitting := do
  let added ← addSplitImageFromChunkList tgtFile srcFile s.srcRanges s.splitTgt s.splitSrc
  return {
    rest := s.rest
    usedSrcRanges := if added.isSome then s.usedSrcRanges.insert s.srcRanges else s.usedSrcRanges
    srcRanges := .empty
    splitSrc := []
    splitTgt := []
    pieces := s.pieces ++ added.toList
    ranges := if added.isSome then s.ranges ++ [s.srcRanges] else s.ranges }

/-- One round of the loop of `SplitZipModeImageWithLimit` with target chunk `tgt`. If there is not
enough space for it, it is handled again in the next piece. -/
def splitRound (limit : Nat) (tgtFile srcFile : List UInt8) (src : List ImageChunk)
    (tgt : ImageChunk) (rest : List ImageChunk) (s : Splitting) : Except Fault Splitting :=
  match findChunkByName src tgt.entryName true with
  | none => .ok { s with rest, splitTgt := s.splitTgt ++ [plain tgtFile tgt] }
  | some c =>
    if ¬ (0 < c.rawDataLen ∧ c.rawDataLen ≤ limit) then .error .crashed
    else match removeUsedBlocks c.start c.rawDataLen s.usedSrcRanges with
      | none => .ok { s with rest, splitTgt := s.splitTgt ++ [plain tgtFile tgt] }
      | some (srcOffset, srcLength) =>
        if s.srcRanges.blocks * BLOCK_SIZE + srcLength ≤ limit then
          let s := { s with rest, srcRanges := s.srcRanges.insertFile srcOffset srcLength }
          if c.type = .deflate ∧ srcLength = c.rawDataLen then
            .ok { s with splitSrc := s.splitSrc ++ [c], splitTgt := s.splitTgt ++ [tgt] }
          else .ok { s with splitTgt := s.splitTgt ++ [plain tgtFile tgt] }
        else closePiece tgtFile srcFile s

/-- The loop of `SplitZipModeImageWithLimit`. -/
def splitLoop (limit : Nat) (tgtFile srcFile : List UInt8) (src : List ImageChunk) :
    (fuel : Nat) → Splitting → Except Fault Splitting
  | 0, _ => .error .crashed
  | fuel + 1, s =>
    match s.rest with
    | [] => .ok s
    | tgt :: rest => do
      let s ← splitRound limit tgtFile srcFile src tgt rest s
      splitLoop limit tgtFile srcFile src fuel s

/-- The checks of `ValidateSplitImages` on the chunks of a target piece, from `lastOffset` on. -/
def validateChunks : (lastOffset : Nat) → List ImageChunk → Option Nat
  | lastOffset, [] => some lastOffset
  | lastOffset, c :: cs =>
    if lastOffset = c.start then validateChunks (lastOffset + c.rawDataLen) cs else none

/-- The checks of `ValidateSplitImages` on the target pieces. -/
def validateTargets : (lastOffset : Nat) → List (List ImageChunk) → Option Nat
  | lastOffset, [] => some lastOffset
  | lastOffset, chunks :: images =>
    if chunks ≠ [] ∧ lastOffset % BLOCK_SIZE = 0 then do
      let lastOffset ← validateChunks lastOffset chunks
      validateTargets lastOffset images
    else none

/-- The checks of `ValidateSplitImages` on the source ranges. -/
def validateRanges : (used : SortedRangeSet) → List SortedRangeSet → Bool
  | _, [] => true
  | used, r :: rs => !used.overlaps r.toRangeSet && validateRanges (used.insert r) rs

def validateSplitImages (pieces : List Piece) (ranges : List SortedRangeSet) (totalTgtSize : Nat) :
    Bool :=
  validateTargets 0 (pieces.map Piece.tgt) = some totalTgtSize && pieces.length = ranges.length &&
    validateRanges .empty ranges

/-- `SplitZipModeImageWithLimit`: the pieces and their source ranges. Each target chunk is handled
at most twice. -/
def splitZipModeImageWithLimit (limit : Nat) (tgtFile srcFile : List UInt8)
    (tgt src : List ImageChunk) : Except Fault (List Piece × List SortedRangeSet) :=
  match src.getLast? with
  | none => .error .crashed
  | some centralDirectory =>
    if centralDirectory.type ≠ .normal then .error .crashed
    else do
      let cdStart := centralDirectory.start
      let cdLen := centralDirectory.dataLengthForPatch
      let s ← splitLoop limit tgtFile srcFile src (2 * tgt.length + 1)
        ⟨tgt, SortedRangeSet.empty.insertFile cdStart cdLen, .empty, [], [], [], []⟩
      let s ← closePiece tgtFile srcFile
        { s with srcRanges := s.srcRanges.insertFile cdStart cdLen }
      if validateSplitImages s.pieces s.ranges tgtFile.length then .ok (s.pieces, s.ranges)
      else .error .crashed

/-! ## Patches for the pieces -/

def updateSourceOffset (srcRange : SortedRangeSet) (c : PatchChunk) : Except Fault PatchChunk :=
  if c.type = .deflate then
    match srcRange.getOffsetInRangeSet c.sourceStart with
    | some start => .ok { c with sourceStart := start }
    | none => .error .crashed
  else .ok c

/-- A line of the split info. -/
structure SplitInfo where
  patchSize : Nat
  tgtSize : Nat
  srcRanges : SortedRangeSet

/-- The patch and the split info for one piece. -/
def generatePiece (p : Piece) (ranges : SortedRangeSet) :
    Except Fault (List UInt8 × SplitInfo) := do
  let chunks ← generatePatchesInternal lib p.tgt p.src p.content
  let chunks ← chunks.mapM (updateSourceOffset ranges)
  match p.tgt.head?, p.tgt.getLast? with
  | some first, some last =>
    return (PatchChunk.writePatchDataToFd chunks, {
      patchSize := 12 + (chunks.map PatchChunk.patchSize).sum
      tgtSize := last.start + last.rawDataLen - first.start
      srcRanges := ranges })
  | _, _ => .error .crashed

/-- `GeneratePatches` for the pieces: the patch file, and what the split info says. -/
def generateSplitPatches (pieces : List Piece) (ranges : List SortedRangeSet) :
    Except Fault (List UInt8 × List SplitInfo) := do
  let rs ← (pieces.zip ranges).mapM fun p => generatePiece lib p.1 p.2
  return ((rs.map Prod.fst).flatten, rs.map Prod.snd)

/-- `imgdiff -z` with a block limit: the patch file and the split info. -/
def imgdiffWithLimit (blocksLimit : Nat) (srcFile tgtFile : List UInt8) :
    Except Fault (List UInt8 × List SplitInfo) := do
  let limit := blocksLimit * BLOCK_SIZE % 2 ^ 64
  let src ← initializeImage zip true limit srcFile
  let tgt ← initializeImage zip false limit tgtFile
  let (tgt, src) ← checkAndProcessChunks lib limit tgt src
  let (pieces, ranges) ← splitZipModeImageWithLimit limit tgtFile srcFile tgt src
  generateSplitPatches lib pieces ranges

end BootableRecovery.ApplyPatch.ZipMode
