import BootableRecovery.OtaUtil.Insertions
import BootableRecovery.ApplyPatch.ZipMode

/-!
# The size of the pieces

`SplitZipModeImageWithLimit` adds a source chunk to a piece if the blocks of the piece and the bytes
of the chunk are within the limit. The chunk can stand in one block more than its bytes fill, so
that a piece has at most one block more than the limit.
-/

namespace BootableRecovery.ApplyPatch.ZipMode

open SortedRangeSet (blocksHeld blocks_insertFile_le blocksHeld_le)

/-! ## The chunks of the source -/

variable {lib : Lib} {zip : ZipArchive} {limit : Nat} {srcFile tgtFile : List UInt8}
  {tgt src : List ImageChunk} {cd : ImageChunk}

/-- The chunks stand in the file, and the last one is a normal chunk with data. -/
structure SourceChunks (srcFile : List UInt8) (src : List ImageChunk) (cd : ImageChunk) : Prop where
  inFile : ∀ c ∈ src, c.start + c.rawDataLen ≤ srcFile.length
  last : src.getLast? = some cd
  cdType : cd.type = .normal
  cdLen : 0 < cd.rawDataLen

theorem SourceChunks.changeFound (h : SourceChunks srcFile src cd) (name : Text) :
    SourceChunks srcFile (changeFound name src) cd where
  inFile := by
    refine forall_mem_changeFound name (fun c hc => ?_) h.inFile
    unfold ImageChunk.changeDeflateChunkToNormal
    split <;> exact hc
  last := getLast?_changeFound h.last h.cdType
  cdType := h.cdType
  cdLen := h.cdLen

theorem SourceChunks.processChunk {t t' : ImageChunk} {src' : List ImageChunk}
    (h : SourceChunks srcFile src cd) (hprocess : processChunk lib t src = .ok (t', src')) :
    SourceChunks srcFile src' cd := by
  rw [ZipMode.processChunk] at hprocess
  split at hprocess
  · cases hprocess
    exact h
  · split at hprocess
    · cases hprocess
      exact h
    · obtain ⟨same, -, hprocess⟩ := bind_eq_ok.mp hprocess
      split at hprocess
      · cases hprocess
        exact h.changeFound t.entryName
      · split at hprocess
        · cases hprocess
          exact h
        · cases hprocess
          exact h.changeFound t.entryName

theorem SourceChunks.processChunks {tgt' src' : List ImageChunk} (h : SourceChunks srcFile src cd)
    (hprocess : processChunks lib tgt src = .ok (tgt', src')) : SourceChunks srcFile src' cd := by
  induction tgt generalizing src tgt' with
  | nil =>
    cases hprocess
    exact h
  | cons t tgt ih =>
    obtain ⟨⟨t', src₁⟩, hone, hprocess⟩ := bind_eq_ok.mp hprocess
    obtain ⟨⟨tgt₁, src₂⟩, hrest, hprocess⟩ := bind_eq_ok.mp hprocess
    cases hprocess
    exact ih (h.processChunk hone) hrest

theorem sourceChunks_of_processedImages (zlaws : zip.Lawful lib)
    (h : processedImages lib zip limit srcFile tgtFile = .ok (tgt, src)) :
    ∃ cd, SourceChunks srcFile src cd := by
  obtain ⟨src₀, hsrc₀, h⟩ := bind_eq_ok.mp h
  obtain ⟨tgt₀, -, h⟩ := bind_eq_ok.mp h
  obtain ⟨⟨tgt₁, src₁⟩, hprocess, h⟩ := bind_eq_ok.mp h
  cases h
  obtain ⟨hsrcs, cd, hlast, hcd⟩ := initializeImage_source zlaws hsrc₀
  have hsource : SourceChunks srcFile src₀ cd :=
    ⟨fun c hc => (hsrcs c hc).2.2, hlast, hcd, (hsrcs cd (List.mem_of_getLast? hlast)).1.pos⟩
  exact ⟨cd, hsource.processChunks hprocess⟩

/-! ## The loop -/

/-- The piece that is being filled and the pieces before it have at most one block more than `L`. -/
structure Splitting.Bounded (L : Nat) (s : Splitting) : Prop where
  current : s.srcRanges.blocks ≤ L + 1
  emitted : ∀ r ∈ s.ranges, r.blocks ≤ L + 1

variable {L : Nat} {s s' : Splitting}

theorem closePiece_ranges (h : closePiece tgtFile srcFile s = .ok s') :
    s'.srcRanges = .empty ∧ (s'.ranges = s.ranges ∨ s'.ranges = s.ranges ++ [s.srcRanges]) := by
  obtain ⟨added, -, h⟩ := bind_eq_ok.mp h
  cases h
  cases added with
  | none => exact ⟨rfl, .inl rfl⟩
  | some p => exact ⟨rfl, .inr rfl⟩

theorem Splitting.Bounded.close (hs : s.Bounded L) (h : closePiece tgtFile srcFile s = .ok s') :
    s'.Bounded L := by
  obtain ⟨hempty, hranges⟩ := closePiece_ranges h
  refine ⟨hempty ▸ Nat.zero_le _, ?_⟩
  rcases hranges with hranges | hranges
  · exact hranges ▸ hs.emitted
  · rw [hranges, List.forall_mem_append, List.forall_mem_singleton]
    exact ⟨hs.emitted, hs.current⟩

/-- A round keeps the bound: the bytes of a chunk that goes into the piece fill no more blocks than
there is space for. -/
theorem Splitting.Bounded.round {t : ImageChunk} {rest : List ImageChunk}
    (hsrc : SourceChunks srcFile src cd) (hsize : srcFile.length < 2 ^ 63) (hs : s.Bounded L)
    (h : splitRound (L * BLOCK_SIZE) tgtFile srcFile src t rest s = .ok s') : s'.Bounded L := by
  unfold splitRound at h
  split at h
  · cases h
    exact ⟨hs.current, hs.emitted⟩
  · rename_i c hfind
    have hfile := hsrc.inFile c (findChunkByName_eq_some hfind).1
    split at h
    · cases h
    · rename_i hpos
      rw [not_not] at hpos
      split at h
      · cases h
        exact ⟨hs.current, hs.emitted⟩
      · rename_i srcOffset srcLength hremove
        obtain ⟨hpos', -, hend, -, -⟩ := removeUsedBlocks_eq_some hpos.1 (by omega) hremove
        split at h
        · rename_i hfits
          have hspace : srcLength ≤ (L - s.srcRanges.blocks) * SortedRangeSet.kBlockSize := by
            unfold BLOCK_SIZE at hfits
            unfold SortedRangeSet.kBlockSize
            omega
          have hle : s.srcRanges.blocks ≤ L := by
            unfold BLOCK_SIZE at hfits
            omega
          have hinsert : (s.srcRanges.insertFile srcOffset srcLength).blocks ≤ L + 1 :=
            calc (s.srcRanges.insertFile srcOffset srcLength).blocks
              _ ≤ s.srcRanges.blocks + blocksHeld srcOffset srcLength :=
                blocks_insertFile_le _ hpos' (by omega)
              _ ≤ s.srcRanges.blocks + (L - s.srcRanges.blocks + 1) :=
                Nat.add_le_add_left (blocksHeld_le srcOffset hspace) _
              _ = L + 1 := by omega
          split at h <;> cases h <;> exact ⟨hinsert, hs.emitted⟩
        · exact hs.close h

theorem Splitting.Bounded.loop {fuel : Nat} (hsrc : SourceChunks srcFile src cd)
    (hsize : srcFile.length < 2 ^ 63) (hs : s.Bounded L)
    (h : splitLoop (L * BLOCK_SIZE) tgtFile srcFile src fuel s = .ok s') : s'.Bounded L := by
  induction fuel generalizing s with
  | zero => cases h
  | succ fuel ih =>
    rw [splitLoop] at h
    split at h
    · cases h
      exact hs
    · obtain ⟨s₁, hround, h⟩ := bind_eq_ok.mp h
      exact ih (hs.round hsrc hsize hround) h

/-! ## All pieces -/

theorem splitZipModeImageWithLimit_eq_ok {pieces : List Piece} {ranges : List SortedRangeSet}
    (hlast : src.getLast? = some cd)
    (h : splitZipModeImageWithLimit limit tgtFile srcFile tgt src = .ok (pieces, ranges)) :
    ∃ s s', splitLoop limit tgtFile srcFile src (2 * tgt.length + 1) (Splitting.start tgt cd) =
    .ok s ∧
      closePiece tgtFile srcFile
        { s with srcRanges := s.srcRanges.insertFile cd.start cd.dataLengthForPatch } = .ok s' ∧
      s'.ranges = ranges := by
  unfold splitZipModeImageWithLimit at h
  rw [hlast] at h
  dsimp only at h
  split at h
  · cases h
  · obtain ⟨s, hloop, h⟩ := bind_eq_ok.mp h
    obtain ⟨s', hclose, h⟩ := bind_eq_ok.mp h
    split at h
    · cases h
      exact ⟨s, s', hloop, hclose, rfl⟩
    · cases h

/-- With a limit of `L` blocks, the source ranges of a piece have at most `L + 1` blocks. The last
piece has the blocks of the central directory, too. -/
theorem splitZipModeImageWithLimit_blocks (zlaws : zip.Lawful lib) (hsize : srcFile.length < 2 ^ 63)
    (himages : processedImages lib zip (L * BLOCK_SIZE) srcFile tgtFile = .ok (tgt, src))
    {pieces : List Piece} {ranges : List SortedRangeSet}
    (h : splitZipModeImageWithLimit (L * BLOCK_SIZE) tgtFile srcFile tgt src =
      .ok (pieces, ranges)) :
      ∃ cd, src.getLast? = some cd ∧ (∀ r ∈ ranges.dropLast, r.blocks ≤ L + 1) ∧
      ∀ r ∈ ranges.getLast?, r.blocks ≤ L + 1 + blocksHeld cd.start cd.rawDataLen := by
  obtain ⟨cd, hsrc⟩ := sourceChunks_of_processedImages zlaws himages
  obtain ⟨s, s', hloop, hclose, rfl⟩ := splitZipModeImageWithLimit_eq_ok hsrc.last h
  have hstart : (Splitting.start tgt cd).Bounded L := ⟨Nat.zero_le _, List.forall_mem_nil _⟩
  have hs := hstart.loop hsrc hsize hloop
  have hfile := hsrc.inFile cd (List.mem_of_getLast? hsrc.last)
  have hcdLen : cd.dataLengthForPatch = cd.rawDataLen := by
    simp [ImageChunk.dataLengthForPatch, hsrc.cdType]
  have hinsert : (s.srcRanges.insertFile cd.start cd.dataLengthForPatch).blocks ≤
      L + 1 + blocksHeld cd.start cd.rawDataLen := by
    rw [hcdLen]
    exact Nat.le_trans (blocks_insertFile_le _ hsrc.cdLen (by omega))
      (Nat.add_le_add_right hs.current _)
  refine ⟨cd, hsrc.last, ?_⟩
  rcases (closePiece_ranges hclose).2 with hranges | hranges
  · rw [hranges]
    refine ⟨fun r hr => hs.emitted r (List.mem_of_mem_dropLast hr), fun r hr => ?_⟩
    exact Nat.le_add_right_of_le (hs.emitted r (List.mem_of_getLast? hr))
  · rw [hranges, List.dropLast_concat, List.getLast?_concat]
    refine ⟨hs.emitted, fun r hr => ?_⟩
    cases hr
    exact hinsert

theorem splitZipModeImageWithLimit_blocks_small : ∃ tgt src pieces ranges cd,
    processedImages sampleLib sampleZip (1 * BLOCK_SIZE) zipA zipB = .ok (tgt, src) ∧
    splitZipModeImageWithLimit (1 * BLOCK_SIZE) zipB zipA tgt src = .ok (pieces, ranges) ∧
    src.getLast? = some cd ∧ (∀ r ∈ ranges.dropLast, r.blocks ≤ 1 + 1) ∧
      ∀ r ∈ ranges.getLast?, r.blocks ≤ 1 + 1 + blocksHeld cd.start cd.rawDataLen := by
  have hrun : ((processedImages sampleLib sampleZip (1 * BLOCK_SIZE) zipA zipB).toOption.any
      fun p => (splitZipModeImageWithLimit (1 * BLOCK_SIZE) zipB zipA p.1 p.2).isOk) = true := by
    decide +kernel
  cases himages : processedImages sampleLib sampleZip (1 * BLOCK_SIZE) zipA zipB with
  | error fault => rw [himages] at hrun; cases hrun
  | ok p =>
    obtain ⟨tgt, src⟩ := p
    rw [himages] at hrun
    cases hsplit : splitZipModeImageWithLimit (1 * BLOCK_SIZE) zipB zipA tgt src with
    | error fault =>
      change (splitZipModeImageWithLimit (1 * BLOCK_SIZE) zipB zipA tgt src).isOk = true at hrun
      rw [hsplit] at hrun
      cases hrun
    | ok r =>
      obtain ⟨pieces, ranges⟩ := r
      obtain ⟨cd, h⟩ :=
        splitZipModeImageWithLimit_blocks sampleZip_lawful (by decide +kernel) himages hsplit
      exact ⟨tgt, src, pieces, ranges, cd, rfl, hsplit, h⟩

end BootableRecovery.ApplyPatch.ZipMode
