import BootableRecovery.ApplyPatch.ZipMode

/-!
# Round trip with a block limit

The patch of each piece is applied to the source blocks of the piece. A deflate source chunk stands
in these blocks in one part, at the place that `UpdateSourceOffset` computes.
-/

namespace BootableRecovery.ApplyPatch.ZipMode

open SortedRangeSet (kBlockSize)

variable {srcFile tgtFile : List UInt8}

/-! ## Places in the content of a piece -/

/-- The bytes of a range of blocks, the last one cut at the end of the file. -/
def rangeBytes (srcFile : List UInt8) (r : Range) : List UInt8 :=
  (srcFile.take (min srcFile.length (r.2 * BLOCK_SIZE))).drop (r.1 * BLOCK_SIZE)

theorem contentOf_eq (ranges : SortedRangeSet) :
    contentOf srcFile ranges = ranges.ranges.flatMap (rangeBytes srcFile) := rfl

theorem length_rangeBytes (r : Range) :
    (rangeBytes srcFile r).length = min srcFile.length (r.2 * BLOCK_SIZE) - r.1 * BLOCK_SIZE := by
  rw [rangeBytes, List.length_drop, List.length_take]
  omega

section
variable {l : List Range} {start len : Nat}

theorem length_flatMap_rangeBytes_le {lo : Nat} (hsorted : l.Pairwise fun a b => a.2 < b.1)
    (hin : ∀ r ∈ l, r.1 < r.2 ∧ lo ≤ r.1 * BLOCK_SIZE ∧ r.1 * BLOCK_SIZE < srcFile.length)
    (hlo : lo ≤ srcFile.length) :
    lo + (l.flatMap (rangeBytes srcFile)).length ≤ srcFile.length := by
  induction l generalizing lo with
  | nil => simpa using hlo
  | cons r l ih =>
    rw [List.forall_mem_cons] at hin
    obtain ⟨⟨hlt, hstart, hend⟩, hin⟩ := hin
    rw [List.pairwise_cons] at hsorted
    have hrest := @ih (min srcFile.length (r.2 * BLOCK_SIZE)) hsorted.2
      (by
        intro r' hr'
        have := hsorted.1 r' hr'
        refine ⟨(hin r' hr').1, ?_, (hin r' hr').2.2⟩
        unfold BLOCK_SIZE
        omega)
      (Nat.min_le_left ..)
    rw [List.flatMap_cons, List.length_append, length_rangeBytes]
    unfold BLOCK_SIZE at *
    omega

/-- Bytes whose blocks are in the ranges stand in the content in one part. -/
theorem newBlockStart_spec {n : Nat} (hsorted : l.Pairwise fun a b => a.2 < b.1)
    (hin : ∀ r ∈ l, r.1 < r.2 ∧ r.1 * BLOCK_SIZE < srcFile.length) (hlen : 0 < len)
    (hend : start + len ≤ srcFile.length)
    (hmem : ∀ b, Holds start len b → ∃ r ∈ l, r.1 ≤ b ∧ b < r.2) :
    ∃ m, SortedRangeSet.newBlockStart (start / kBlockSize) l n = some (n + m) ∧
      m * kBlockSize + start % kBlockSize + len ≤ (l.flatMap (rangeBytes srcFile)).length ∧
      ((l.flatMap (rangeBytes srcFile)).drop (m * kBlockSize + start % kBlockSize)).take len =
        (srcFile.drop start).take len := by
  induction l generalizing n with
  | nil =>
    obtain ⟨r, hr, -⟩ := hmem (start / kBlockSize) ⟨Nat.le_refl _, Nat.div_le_div_right (by omega)⟩
    cases hr
  | cons r l ih =>
    rw [List.forall_mem_cons] at hin
    rw [List.pairwise_cons] at hsorted
    rw [SortedRangeSet.newBlockStart]
    split
    · -- a range before the bytes, which is in the file as a whole
      rename_i hafter
      have hmem' : ∀ b, Holds start len b → ∃ r ∈ l, r.1 ≤ b ∧ b < r.2 := by
        intro b hb
        obtain ⟨r', hr', hbr⟩ := hmem b hb
        rcases List.mem_cons.mp hr' with rfl | hr'
        · have := hb.1
          omega
        · exact ⟨r', hr', hbr⟩
      have hfull : r.2 * BLOCK_SIZE ≤ srcFile.length := by
        obtain ⟨r', hr', -⟩ :=
          hmem' (start / kBlockSize) ⟨Nat.le_refl _, Nat.div_le_div_right (by omega)⟩
        have := hsorted.1 r' hr'
        have := (hin.2 r' hr').2
        unfold BLOCK_SIZE at *
        omega
      obtain ⟨m, hm, hle, hbytes⟩ := @ih (n + (r.2 - r.1)) hsorted.2 hin.2 hmem'
      have hlength : (rangeBytes srcFile r).length = (r.2 - r.1) * kBlockSize := by
        rw [length_rangeBytes, Nat.min_eq_right hfull, Nat.sub_mul]
        rfl
      refine ⟨r.2 - r.1 + m, by rw [hm, Nat.add_assoc], ?_, ?_⟩
      · rw [List.flatMap_cons, List.length_append, hlength, Nat.add_mul]
        omega
      · rw [List.flatMap_cons, Nat.add_mul, Nat.add_assoc, ← hlength, List.drop_length_add_append]
        exact hbytes
    · -- the range of the bytes: the block after it is in none
      rename_i hbefore
      have hout : ∀ b, b ≤ r.2 → ∀ r' ∈ l, ¬ (r'.1 ≤ b ∧ b < r'.2) := by
        intro b hb r' hr' hbr
        have := hsorted.1 r' hr'
        omega
      have hfirst : r.1 ≤ start / kBlockSize := by
        obtain ⟨r', hr', hbr⟩ :=
          hmem (start / kBlockSize) ⟨Nat.le_refl _, Nat.div_le_div_right (by omega)⟩
        rcases List.mem_cons.mp hr' with rfl | hr'
        · exact hbr.1
        · exact absurd hbr (hout _ (by omega) r' hr')
      have hlast : (start + len - 1) / kBlockSize < r.2 := by
        by_contra hno
        obtain ⟨r', hr', hbr⟩ := hmem r.2 ⟨by omega, by omega⟩
        rcases List.mem_cons.mp hr' with rfl | hr'
        · omega
        · exact hout _ (Nat.le_refl _) r' hr' hbr
      rw [if_pos hfirst]
      have hplace : (start / kBlockSize - r.1) * kBlockSize + start % kBlockSize =
          start - r.1 * BLOCK_SIZE := by
        unfold BLOCK_SIZE
        unfold SortedRangeSet.kBlockSize at *
        omega
      have hstart : r.1 * BLOCK_SIZE ≤ start := by
        unfold BLOCK_SIZE
        unfold SortedRangeSet.kBlockSize at hfirst
        omega
      have hfits : start + len ≤ min srcFile.length (r.2 * BLOCK_SIZE) := by
        unfold BLOCK_SIZE
        unfold SortedRangeSet.kBlockSize at hlast
        omega
      refine ⟨_, rfl, ?_, ?_⟩
      · rw [hplace, List.flatMap_cons, List.length_append, length_rangeBytes]
        omega
      · rw [hplace, List.flatMap_cons, List.drop_append_of_le_length, List.take_append_of_le_length,
          rangeBytes, List.drop_drop, Nat.add_sub_cancel' hstart, List.drop_take, List.take_take,
          Nat.min_eq_left (by omega)]
        · rw [List.length_drop, length_rangeBytes]
          omega
        · rw [length_rangeBytes]
          omega

end

theorem length_contentOf_le {ranges : SortedRangeSet} (hin : InFile srcFile ranges) :
    (contentOf srcFile ranges).length ≤ srcFile.length := by
  have := @length_flatMap_rangeBytes_le srcFile _ 0 ranges.sorted
    (fun r hr => ⟨ranges.nonempty r hr, Nat.zero_le _, hin.of_mem_ranges hr⟩) (Nat.zero_le _)
  rw [contentOf_eq]
  omega

/-- `GetOffsetInRangeSet` gives the place of the bytes in the content of the piece. -/
theorem contentOf_slice {ranges : SortedRangeSet} {start len : Nat} (hin : InFile srcFile ranges)
    (hlen : 0 < len) (hend : start + len ≤ srcFile.length)
    (hmem : ∀ n, Holds start len n → n ∈ ranges) :
    ∃ place, ranges.getOffsetInRangeSet start = some place ∧
      place + len ≤ (contentOf srcFile ranges).length ∧
      ((contentOf srcFile ranges).drop place).take len = (srcFile.drop start).take len := by
  obtain ⟨m, hm, hle, hbytes⟩ := newBlockStart_spec (n := 0) ranges.sorted
    (fun r hr => ⟨ranges.nonempty r hr, hin.of_mem_ranges hr⟩) hlen hend
    fun n hn => SortedRangeSet.mem_iff.mp (hmem n hn)
  refine ⟨m * kBlockSize + start % kBlockSize, ?_, hle, hbytes⟩
  rw [SortedRangeSet.getOffsetInRangeSet, hm, Nat.zero_add]
  rfl

/-! ## The chunks of a piece -/

variable {lib : Lib} {laws : lib.Lawful} {tgt src : List ImageChunk}

theorem Target.mergeable (laws : lib.Lawful) (tgtFile : List UInt8) :
    Mergeable tgtFile (Target laws) where
  normal _ _ hpos := ⟨.inl rfl, hpos, .inl rfl⟩
  plain _ hc := ⟨.inl rfl, hc.pos, .inl rfl⟩
  merge c d hc hadj := by
    simp only [ImageChunk.isAdjacentNormal, Bool.and_eq_true, decide_eq_true_eq] at hadj
    exact ⟨hc.level, Nat.add_pos_left hc.pos _, .inl hadj.1.1⟩

theorem Processed.splitImages (h : Processed laws srcFile tgtFile tgt src)
    (hsize : srcFile.length < 2 ^ 63) : ∃ cd, SplitImages tgtFile srcFile tgt src cd := by
  obtain ⟨cd, hlast, hcd⟩ := h.last
  exact ⟨cd, h.nonempty, h.tiles, hsize, fun c hc => (h.sources c hc).2.2, hlast, hcd,
    (h.sources cd (List.mem_of_getLast? hlast)).1.pos⟩

/-- The place of a byte of the source in the content of a piece. -/
def placeIn (ranges : SortedRangeSet) (offset : Nat) : Nat :=
  (ranges.getOffsetInRangeSet offset).getD 0

section
variable {p : Piece} {ranges : SortedRangeSet}

/-- The content of the piece holds the deflate stream of the source chunk of each deflate chunk. -/
theorem Piece.Ok.stream (hok : p.Ok (Target laws) srcFile src ranges)
    (hsources : ∀ c ∈ src, c.WellFormed lib ∧ c.file = srcFile ∧
      c.start + c.rawDataLen ≤ srcFile.length) {t : ImageChunk} (ht : t ∈ p.tgt)
    (hdeflate : t.type = .deflate) :
    ∃ c ∈ src, findChunkByName p.src t.entryName false = some c ∧ c.type = .deflate ∧
      ranges.getOffsetInRangeSet c.start = some (placeIn ranges c.start) ∧
      placeIn ranges c.start + c.rawDataLen ≤ p.content.length ∧
      (p.content.drop (placeIn ranges c.start)).take c.rawDataLen = c.raw := by
  obtain ⟨d, hd, hfound⟩ := (hok.chunks.tgt t ht).2 hdeflate
  obtain ⟨c, hc⟩ : ∃ c, findChunkByName p.src t.entryName false = some c := by
    rw [← Option.isSome_iff_exists, findChunkByName, List.find?_isSome]
    exact ⟨d, hd, hfound⟩
  obtain ⟨hmem, htype, hpos, hholds⟩ := hok.chunks.src c (findChunkByName_eq_some hc).1
  obtain ⟨-, hfile, hle⟩ := hsources c hmem
  obtain ⟨place, hplace, hend, hbytes⟩ := contentOf_slice hok.inFile hpos hle hholds
  have hplaceIn : placeIn ranges c.start = place := by rw [placeIn, hplace]; rfl
  refine ⟨c, hmem, hc, htype, ?_, ?_, ?_⟩
  · rw [hplaceIn, hplace]
  · rwa [hplaceIn, hok.content]
  · rw [hplaceIn, hok.content, hbytes, ImageChunk.raw, hfile]

theorem Piece.Ok.matched (hok : p.Ok (Target laws) srcFile src ranges)
    (hsources : ∀ c ∈ src, c.WellFormed lib ∧ c.file = srcFile ∧
      c.start + c.rawDataLen ≤ srcFile.length) {t : ImageChunk} (ht : t ∈ p.tgt) :
    Matched laws p.content (placeIn ranges) [] t (sourceFor p.src p.content t) := by
  have htgt := (hok.chunks.tgt t ht).1
  refine ⟨htgt.level, ?_⟩
  rcases htgt.kind with hnormal | ⟨hdeflate, -, hlt, hone⟩
  · refine .inl ⟨hnormal, ?_, ?_⟩ <;> simp [sourceFor, hnormal, pseudoSource]
  · obtain ⟨c, hmem, hc, htype, -, hend, hbytes⟩ := hok.stream hsources ht hdeflate
    have hsource : sourceFor p.src p.content t = c := by simp [sourceFor, hdeflate, hc]
    rw [hsource]
    obtain ⟨hwf, -, -⟩ := hsources c hmem
    rcases hwf.kind with hnormal | ⟨-, -, ⟨used, hinf⟩, hclt⟩
    · rw [htype] at hnormal
      cases hnormal
    · exact .inr ⟨hdeflate, htype, hlt, hone, hend,
        ⟨c.uncompressedData, used, hbytes ▸ hinf, (List.append_nil _).symm⟩, hclt⟩

theorem updateSourceOffset_eq_ok {c c' : PatchChunk} (h : updateSourceOffset ranges c = .ok c') :
    c' = c.relocate (placeIn ranges) := by
  unfold updateSourceOffset at h
  unfold PatchChunk.relocate
  split at h
  · rename_i htype
    split at h
    · rename_i start hstart
      cases h
      rw [if_pos htype, placeIn, hstart]
      rfl
    · cases h
  · rename_i htype
    cases h
    rw [if_neg htype]

theorem mapM_updateSourceOffset_eq_ok {cs cs' : List PatchChunk}
    (h : cs.mapM (updateSourceOffset ranges) = .ok cs') :
    cs' = cs.map (PatchChunk.relocate (placeIn ranges)) := by
  have hall := forall₂_of_mapM h
  clear h
  induction hall with
  | nil => rfl
  | cons hc _ ih => rw [List.map_cons, updateSourceOffset_eq_ok hc, ih]

/-- The bytes of the target that a piece stands for. -/
def Piece.bytes (p : Piece) : List UInt8 := (p.tgt.map ImageChunk.raw).flatten

/-- The patch of a piece is made from its chunks, and the split info says how long the patch and the
piece are. -/
theorem generatePiece_eq_ok {patch : List UInt8} {info : SplitInfo} {lo hi : Nat}
    (htiles : Tiles tgtFile lo p.tgt hi) (hhi : hi ≤ tgtFile.length)
    (h : generatePiece lib p ranges = .ok (patch, info)) :
    (∃ cs, generatePatchesInternal lib p.tgt p.src p.content = .ok cs ∧
      patch = PatchChunk.writePatchDataToFd (cs.map (PatchChunk.relocate (placeIn ranges)))) ∧
    info.patchSize = patch.length ∧ info.tgtSize = p.bytes.length ∧ info.srcRanges = ranges := by
  obtain ⟨cs, hcs, h⟩ := bind_eq_ok.mp h
  obtain ⟨cs', hcs', h⟩ := bind_eq_ok.mp h
  have hrelocate := mapM_updateSourceOffset_eq_ok hcs'
  subst hrelocate
  split at h
  · rename_i first last hfirst hlast
    cases h
    refine ⟨⟨cs, hcs, rfl⟩, (PatchChunk.length_writePatchDataToFd _).symm, ?_, rfl⟩
    have hne : p.tgt ≠ [] := by
      intro hnil
      rw [hnil] at hfirst
      cases hfirst
    obtain ⟨c, hc, hend⟩ := htiles.getLast?_end hne
    cases hlast.symm.trans hc
    have hstart : first.start = lo := by
      cases htgt : p.tgt with
      | nil => exact absurd htgt hne
      | cons d ds =>
        rw [htgt] at hfirst htiles
        cases hfirst
        exact htiles.2.1
    rw [Piece.bytes, htiles.flatten_raw, List.length_take, List.length_drop]
    dsimp only
    omega
  · cases h

/-- The patch of a piece gives the bytes of the piece, unless a deflate chunk has no data. -/
theorem Piece.Ok.roundTrip (hok : p.Ok (Target laws) srcFile src ranges)
    (hsources : ∀ c ∈ src, c.WellFormed lib ∧ c.file = srcFile ∧
      c.start + c.rawDataLen ≤ srcFile.length) (hsrc : srcFile.length < 2 ^ 31)
    (htgt : tgtFile.length < 2 ^ 31) {lo hi : Nat} (htiles : Tiles tgtFile lo p.tgt hi)
    (hhi : hi ≤ tgtFile.length) {cs : List PatchChunk}
    (hcs : generatePatchesInternal lib p.tgt p.src p.content = .ok cs) {patch : List UInt8}
    (hpatch : patch = PatchChunk.writePatchDataToFd (cs.map (PatchChunk.relocate (placeIn ranges))))
    (hlen : patch.length < 2 ^ 63) :
    ((applyImagePatch lib p.content patch none memorySink ⟨[], []⟩).1 = .ok () ↔
      ∀ t ∈ p.tgt, ¬ (t.type = .deflate ∧ t.uncompressedData = [])) ∧
    ((applyImagePatch lib p.content patch none memorySink ⟨[], []⟩).1 = .ok () →
      (applyImagePatch lib p.content patch none memorySink ⟨[], []⟩).2.sink = p.bytes) := by
  have hcontent : p.content.length ≤ srcFile.length := by
    rw [hok.content]
    exact length_contentOf_le hok.inFile
  have hall := forall₂_of_mapM hcs
  have hmatched : MatchedFrom laws p.content (placeIn ranges) none 0
      (p.tgt.map fun t => (t, sourceFor p.src p.content t)) := by
    apply MatchedFrom.of_forall
    intro q hq j _
    obtain ⟨t, ht, rfl⟩ := List.mem_map.mp hq
    rw [show bonusAt none j = [] by simp [bonusAt]]
    exact hok.matched hsources ht
  obtain ⟨hyields, hsized, hempty⟩ := hmatched.yieldsFrom (by omega) htgt
    (by
      intro q hq
      obtain ⟨t, ht, rfl⟩ := List.mem_map.mp hq
      exact (htiles.of_mem ht).1)
    (List.forall₂_map_left_iff.mpr hall)
  rw [List.map_map] at hyields
  replace hempty := hempty.trans List.forall_mem_map
  have hcount : (cs.map (PatchChunk.relocate (placeIn ranges))).length < 2 ^ 31 := by
    have := htiles.length_le fun t ht => (hok.chunks.tgt t ht).1.pos
    rw [List.length_map, ← hall.length_eq]
    omega
  subst hpatch
  have hround := applyImagePatch_writePatchDataToFd_iff (by omega) hsized hcount hlen hyields
  have hne := not_isEmptyStream_of_applyImagePatch (by omega) hsized hcount hlen hyields
  refine ⟨⟨fun h => hempty.mp (hne h), fun h => (hround.mpr (hempty.mpr h)).1⟩, fun h => ?_⟩
  exact (hround.mpr (hne h)).2

end

/-! ## All pieces -/

/-- The patch file cut by the sizes that the split info records. -/
def cutPatches (patchFile : List UInt8) : List SplitInfo → List (List UInt8 × SplitInfo)
  | [] => []
  | info :: infos =>
    (patchFile.take info.patchSize, info) :: cutPatches (patchFile.drop info.patchSize) infos

/-- The patch of a piece, applied to the source blocks that the split info records. -/
def applyPiece (lib : Lib) (srcFile : List UInt8) (p : List UInt8 × SplitInfo) :
    Except Fault Unit × Out (List UInt8) :=
  applyImagePatch lib (contentOf srcFile p.2.srcRanges) p.1 none memorySink ⟨[], []⟩

/-- Every patch can be applied to the source blocks of its piece and gives as many bytes as the
split info records, and the pieces make up the target. -/
def PiecesRoundTrip (lib : Lib) (srcFile tgtFile patchFile : List UInt8) (infos : List SplitInfo) :
    Prop :=
  (∀ p ∈ cutPatches patchFile infos, (applyPiece lib srcFile p).1 = .ok () ∧
    (applyPiece lib srcFile p).2.sink.length = p.2.tgtSize) ∧
  ((cutPatches patchFile infos).map fun p => (applyPiece lib srcFile p).2.sink).flatten = tgtFile

theorem cutPatches_flatten {rs : List (List UInt8 × SplitInfo)}
    (h : ∀ r ∈ rs, r.2.patchSize = r.1.length) :
    cutPatches (rs.map Prod.fst).flatten (rs.map Prod.snd) = rs := by
  induction rs with
  | nil => rfl
  | cons r rs ih =>
    rw [List.forall_mem_cons] at h
    rw [List.map_cons, List.map_cons, List.flatten_cons, cutPatches, h.1, List.take_left' rfl,
      List.drop_left' rfl, ih h.2]

/-- What is known of the patch and the split info of a piece. -/
structure PieceResult (lib : Lib) (srcFile : List UInt8) (p : Piece) (r : List UInt8 × SplitInfo) :
    Prop where
  patchSize : r.2.patchSize = r.1.length
  tgtSize : r.2.tgtSize = p.bytes.length
  ok : (applyPiece lib srcFile r).1 = .ok () ↔
    ∀ t ∈ p.tgt, ¬ (t.type = .deflate ∧ t.uncompressedData = [])
  output : (applyPiece lib srcFile r).1 = .ok () → (applyPiece lib srcFile r).2.sink = p.bytes

theorem piecesRoundTrip_iff {pieces : List Piece} {rs : List (List UInt8 × SplitInfo)}
    (htiles : Tiles tgtFile 0 (pieces.flatMap Piece.tgt) tgtFile.length)
    (hrs : List.Forall₂ (PieceResult lib srcFile) pieces rs) :
    PiecesRoundTrip lib srcFile tgtFile (rs.map Prod.fst).flatten (rs.map Prod.snd) ↔
      ∀ p ∈ pieces, ∀ t ∈ p.tgt, ¬ (t.type = .deflate ∧ t.uncompressedData = []) := by
  have hsize : ∀ r ∈ rs, r.2.patchSize = r.1.length :=
    (forall_mem_iff_of_forall₂ hrs (P := fun _ => True) fun _ _ _ hr =>
      ⟨fun _ => hr.patchSize, fun _ => trivial⟩).mp fun _ _ => trivial
  rw [PiecesRoundTrip, cutPatches_flatten hsize]
  have hok := forall_mem_iff_of_forall₂ hrs fun p _ r hr => hr.ok.symm
  constructor
  · intro h
    exact hok.mpr fun r hr => (h.1 r hr).1
  · intro h
    have happly := hok.mp h
    -- the outputs are the bytes of the pieces
    have houtputs : (rs.map fun r => (applyPiece lib srcFile r).2.sink) = pieces.map Piece.bytes ∧
        ∀ r ∈ rs, (applyPiece lib srcFile r).2.sink.length = r.2.tgtSize := by
      clear hsize hok h htiles
      induction hrs with
      | nil => simp
      | @cons p r pieces rs hr _ ih =>
        rw [List.forall_mem_cons] at happly
        obtain ⟨hmap, hlen⟩ := ih happly.2
        have hout := hr.output happly.1
        refine ⟨?_, ?_⟩
        · rw [List.map_cons, List.map_cons, hout, hmap]
        · rw [List.forall_mem_cons]
          exact ⟨by rw [hout, hr.tgtSize], hlen⟩
    refine ⟨fun r hr => ⟨happly r hr, houtputs.2 r hr⟩, ?_⟩
    have hflatten := htiles.flatten_raw
    rw [List.drop_zero, Nat.sub_zero, List.take_length] at hflatten
    rw [houtputs.1, ← hflatten]
    clear htiles houtputs hflatten happly h hok hsize hrs
    induction pieces with
    | nil => rfl
    | cons p pieces ih =>
      rw [List.map_cons, List.flatten_cons, ih, List.flatMap_cons, List.map_append,
        List.flatten_append, Piece.bytes]

theorem Tiles.of_mem_pieces {pieces : List Piece} {lo hi : Nat}
    (h : Tiles tgtFile lo (pieces.flatMap Piece.tgt) hi) {p : Piece} (hp : p ∈ pieces) :
    ∃ lo' hi', Tiles tgtFile lo' p.tgt hi' ∧ hi' ≤ hi := by
  obtain ⟨before, after, rfl⟩ := List.append_of_mem hp
  rw [List.flatMap_append, List.flatMap_cons, Tiles.append_iff] at h
  obtain ⟨lo', -, h⟩ := h
  obtain ⟨hi', hpiece, hrest⟩ := Tiles.append_iff.mp h
  exact ⟨lo', hi', hpiece, hrest.le⟩

theorem imgdiffWithLimit_eq_ok {zip : ZipArchive} {blocksLimit : Nat} {patchFile : List UInt8}
    {infos : List SplitInfo}
    (h : imgdiffWithLimit lib zip blocksLimit srcFile tgtFile = .ok (patchFile, infos)) :
    ∃ tgt src pieces ranges rs,
      processedImages lib zip (blocksLimit * BLOCK_SIZE % 2 ^ 64) srcFile tgtFile = .ok (tgt, src) ∧
      splitZipModeImageWithLimit (blocksLimit * BLOCK_SIZE % 2 ^ 64) tgtFile srcFile tgt src =
        .ok (pieces, ranges) ∧
      (pieces.zip ranges).mapM (fun p => generatePiece lib p.1 p.2) = .ok rs ∧
      patchFile = (rs.map Prod.fst).flatten ∧ infos = rs.map Prod.snd := by
  obtain ⟨src₀, hsrc₀, h⟩ := bind_eq_ok.mp h
  obtain ⟨tgt₀, htgt₀, h⟩ := bind_eq_ok.mp h
  obtain ⟨⟨tgt, src⟩, hcheck, h⟩ := bind_eq_ok.mp h
  obtain ⟨⟨pieces, ranges⟩, hsplit, h⟩ := bind_eq_ok.mp h
  obtain ⟨rs, hrs, h⟩ := bind_eq_ok.mp h
  cases h
  have hprocessed : processedImages lib zip (blocksLimit * BLOCK_SIZE % 2 ^ 64) srcFile tgtFile =
      .ok (tgt, src) := by
    rw [processedImages, bind_eq_ok]
    exact ⟨src₀, hsrc₀, bind_eq_ok.mpr ⟨tgt₀, htgt₀, hcheck⟩⟩
  exact ⟨tgt, src, pieces, ranges, rs, hprocessed, hsplit, hrs, rfl, rfl⟩

/-- The patches of all pieces give the target exactly if no deflate chunk of a piece is without
data. The content of a piece holds the deflate stream of the source chunk of each deflate chunk, at
the place that the patch names. -/
theorem imgdiffWithLimit_roundTrip (laws : lib.Lawful) {zip : ZipArchive} (zlaws : zip.Lawful lib)
    {blocksLimit : Nat} {patchFile : List UInt8} {infos : List SplitInfo}
    (hdisjoint : EntriesDisjoint zip (blocksLimit * BLOCK_SIZE % 2 ^ 64) tgtFile)
    (hsrc : srcFile.length < 2 ^ 31) (htgt : tgtFile.length < 2 ^ 31)
    (hpatch : patchFile.length < 2 ^ 63)
    (h : imgdiffWithLimit lib zip blocksLimit srcFile tgtFile = .ok (patchFile, infos)) :
    ∃ tgt src pieces ranges,
      processedImages lib zip (blocksLimit * BLOCK_SIZE % 2 ^ 64) srcFile tgtFile = .ok (tgt, src) ∧
      splitZipModeImageWithLimit (blocksLimit * BLOCK_SIZE % 2 ^ 64) tgtFile srcFile tgt src =
        .ok (pieces, ranges) ∧
      (∀ q ∈ pieces.zip ranges, ∀ t ∈ q.1.tgt, t.type = .deflate →
        ∃ c ∈ src, findChunkByName q.1.src t.entryName false = some c ∧
          ∃ place, q.2.getOffsetInRangeSet c.start = some place ∧
            ((contentOf srcFile q.2).drop place).take c.rawDataLen = c.raw) ∧
      (PiecesRoundTrip lib srcFile tgtFile patchFile infos ↔
        ∀ p ∈ pieces, ∀ t ∈ p.tgt, ¬ (t.type = .deflate ∧ t.uncompressedData = [])) := by
  obtain ⟨tgt, src, pieces, ranges, rs, hprocessed, hsplit, hrs, rfl, rfl⟩ :=
    imgdiffWithLimit_eq_ok h
  have hspec := processedImages_spec laws zlaws (by omega) hdisjoint hprocessed
  obtain ⟨cd, himages⟩ := hspec.splitImages (by omega)
  have hresult := himages.result_of_split (Target.mergeable laws tgtFile) hspec.targets hsplit
  obtain ⟨hlength, hoks⟩ := List.forall₂_iff_zip.mp hresult.pieces
  have hok : ∀ q ∈ pieces.zip ranges, q.1.Ok (Target laws) srcFile src q.2 := fun q hq => hoks hq
  refine ⟨tgt, src, pieces, ranges, hprocessed, hsplit, ?_, ?_⟩
  · intro q hq t ht hdeflate
    obtain ⟨c, hmem, hc, -, hplace, -, hbytes⟩ := (hok q hq).stream hspec.sources ht hdeflate
    exact ⟨c, hmem, hc, _, hplace, (hok q hq).content ▸ hbytes⟩
  · apply piecesRoundTrip_iff hresult.tiles
    have hall := forall₂_of_mapM hrs
    have hzip : pieces = (pieces.zip ranges).map Prod.fst :=
      (List.map_fst_zip (Nat.le_of_eq hlength)).symm
    rw [hzip, List.forall₂_map_left_iff, List.forall₂_iff_zip]
    refine ⟨hall.length_eq, ?_⟩
    intro q r hqr
    have hq : q ∈ pieces.zip ranges := (List.of_mem_zip hqr).1
    have hr : r ∈ rs := (List.of_mem_zip hqr).2
    obtain ⟨lo, hi, htiles, hhi⟩ := Tiles.of_mem_pieces hresult.tiles (List.of_mem_zip hq).1
    obtain ⟨⟨cs, hcs, hpatch'⟩, hsize, htgtSize, hranges⟩ :=
      generatePiece_eq_ok htiles hhi ((List.forall₂_iff_zip.mp hall).2 hqr)
    have hle : r.1.length ≤ (rs.map Prod.fst).flatten.length :=
      (List.sublist_flatten_of_mem (List.mem_map_of_mem hr)).length_le
    obtain ⟨hround, houtput⟩ := (hok q hq).roundTrip hspec.sources hsrc htgt htiles hhi hcs hpatch'
      (by omega)
    rw [(hok q hq).content, ← hranges] at hround houtput
    exact ⟨hsize, htgtSize, hround, houtput⟩

/-! ## Two blocks -/

/-- The letter `a` in the first block, and a stored entry before the central directory. -/
def zipLarge : List UInt8 :=
  zipFile [memberA [0x61], ⟨[0x62], 0, [0x11, 0x00, 0x1c, 0xc7], List.replicate 4096 0x00, 4096⟩]

/-- An entry without data. -/
def zipNil : List UInt8 := zipFile [⟨[0x61], 8, [0x00, 0x00, 0x00, 0x00], [0x03, 0x00], 0⟩]

/-- The patch file and the split info for a block limit of 1. -/
def largePatch (file : List UInt8) : List UInt8 :=
  ((imgdiffWithLimit sampleLib sampleZip 1 zipLarge file).toOption.getD ([], [])).1

def largeInfos (file : List UInt8) : List SplitInfo :=
  ((imgdiffWithLimit sampleLib sampleZip 1 zipLarge file).toOption.getD ([], [])).2

theorem eq_ok_of_any {x : Except ε (List α × List β)} {p : List α × List β → Bool}
    (h : x.toOption.any p = true) :
    x = .ok ((x.toOption.getD ([], [])).1, (x.toOption.getD ([], [])).2) ∧
    p (x.toOption.getD ([], [])) = true := by
  cases x with
  | error fault => cases h
  | ok r => exact ⟨rfl, h⟩

/-- There is a patch file for the block limit of 1, and its length is one of a file. -/
theorem imgdiffWithLimit_zipLarge {file : List UInt8}
    (h : (imgdiffWithLimit sampleLib sampleZip 1 zipLarge file).toOption.any
      (fun r => decide (r.1.length < 2 ^ 63)) = true) :
    imgdiffWithLimit sampleLib sampleZip 1 zipLarge file = .ok (largePatch file, largeInfos file) ∧
      (largePatch file).length < 2 ^ 63 := by
  obtain ⟨hok, hlt⟩ := eq_ok_of_any h
  exact ⟨hok, of_decide_eq_true hlt⟩

theorem zipB_disjoint_limit : EntriesDisjoint sampleZip (1 * BLOCK_SIZE % 2 ^ 64) zipB :=
  entriesDisjoint_of 103 [⟨['a'], 31, 3, true⟩] (by decide +kernel) (by decide +kernel)
    (by decide +kernel)

theorem imgdiffWithLimit_roundTrip_large :
    imgdiffWithLimit sampleLib sampleZip 1 zipLarge zipB = .ok (largePatch zipB, largeInfos zipB) ∧
    PiecesRoundTrip sampleLib zipLarge zipB (largePatch zipB) (largeInfos zipB) := by
  obtain ⟨h, hlt⟩ := @imgdiffWithLimit_zipLarge zipB (by decide +kernel)
  obtain ⟨tgt, src, pieces, ranges, hprocessed, hsplit, -, hround⟩ :=
    imgdiffWithLimit_roundTrip sampleLaws sampleZip_lawful zipB_disjoint_limit (by decide +kernel)
      (by decide +kernel) hlt h
  refine ⟨h, hround.mpr ?_⟩
  have hall :
      ((processedImages sampleLib sampleZip (1 * BLOCK_SIZE % 2 ^ 64) zipLarge zipB).toOption.all
        fun p => (splitZipModeImageWithLimit (1 * BLOCK_SIZE % 2 ^ 64) zipB zipLarge p.1
          p.2).toOption.all fun q =>
          decide (∀ p ∈ q.1, ∀ t ∈ p.tgt, ¬ (t.type = .deflate ∧ t.uncompressedData = []))) =
      true := by decide +kernel
  simp only [hprocessed, Except.toOption, Option.all_some, hsplit] at hall
  exact of_decide_eq_true hall

/-- The patch from an entry with data to one without cannot be applied. -/
theorem not_imgdiffWithLimit_roundTrip : Nonempty sampleLib.Lawful ∧ sampleZip.Lawful sampleLib ∧
    EntriesDisjoint sampleZip (1 * BLOCK_SIZE % 2 ^ 64) zipNil ∧
    imgdiffWithLimit sampleLib sampleZip 1 zipLarge zipNil =
    .ok (largePatch zipNil, largeInfos zipNil) ∧
    ¬ PiecesRoundTrip sampleLib zipLarge zipNil (largePatch zipNil) (largeInfos zipNil) := by
  refine ⟨⟨sampleLaws⟩, sampleZip_lawful, ?_,
    (imgdiffWithLimit_zipLarge (by decide +kernel)).1, ?_⟩
  · exact entriesDisjoint_of 102 [⟨['a'], 31, 2, true⟩] (by decide +kernel) (by decide +kernel)
      (by decide +kernel)
  · intro h
    have hfail : ((cutPatches (largePatch zipNil) (largeInfos zipNil)).any
        fun p => (applyPiece sampleLib zipLarge p).1 = .error .failed) = true := by decide +kernel
    obtain ⟨p, hp, hfailed⟩ := List.any_eq_true.mp hfail
    rw [decide_eq_true_eq, (h.1 p hp).1] at hfailed
    cases hfailed

end BootableRecovery.ApplyPatch.ZipMode
