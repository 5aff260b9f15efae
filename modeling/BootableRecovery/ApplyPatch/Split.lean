import BootableRecovery.ApplyPatch.Tiling
import BootableRecovery.ApplyPatch.ZipDiff

/-!
# The pieces of a split image

`SplitZipModeImageWithLimit` ends and passes all its checks: the pieces of the target start at block
boundaries, stand one after the other and cover the file, and no two of them share a source block.
-/

namespace BootableRecovery.ApplyPatch.ZipMode

open SortedRangeSet (kBlockSize)

/-! ## Alignment -/

/-- The first block boundary that is not before `n`. -/
def blockEnd (n : Nat) : Nat := (n + 4095) / 4096 * 4096

theorem alignHead_eq (start length : Nat) :
    alignHead start length = if start + length ≤ blockEnd start then (false, start, 0)
      else (true, blockEnd start, start + length - blockEnd start) := by
  have hle : start ≤ blockEnd start := by
    unfold blockEnd
    omega
  have hres : (if start % BLOCK_SIZE = 0 then 0 else BLOCK_SIZE - start % BLOCK_SIZE) =
      blockEnd start - start := by
    unfold blockEnd BLOCK_SIZE
    split <;> omega
  rw [alignHead, hres]
  split
  · rw [if_pos (by omega)]
  · rw [if_neg (by omega), show start + (blockEnd start - start) = blockEnd start by omega,
      show length - (blockEnd start - start) = start + length - blockEnd start by omega]

variable {tgtFile srcFile : List UInt8} {a b : Nat} {cs : List ImageChunk}

theorem alignChunks_spec (h : Tiles tgtFile a cs b) :
    alignChunks tgtFile cs = [] ∧ b ≤ blockEnd a ∨
      alignChunks tgtFile cs ≠ [] ∧ blockEnd a < b ∧
        Tiles tgtFile (blockEnd a) (alignChunks tgtFile cs) b := by
  induction cs generalizing a with
  | nil =>
    have : a = b := h
    refine .inl ⟨rfl, ?_⟩
    unfold blockEnd
    omega
  | cons c cs ih =>
    obtain ⟨hfile, hstart, h⟩ := h
    rw [alignChunks, alignHead_eq, hstart]
    split
    · rename_i heq
      split at heq
      · cases heq
      · rename_i hlong
        cases heq
        refine .inr ⟨List.cons_ne_nil _ _, ?_, rfl, rfl, ?_⟩
        · exact Nat.lt_of_lt_of_le (Nat.not_le.mp hlong) h.le
        · dsimp only
          rwa [show blockEnd a + (a + c.rawDataLen - blockEnd a) = a + c.rawDataLen by omega]
    · rename_i heq
      split at heq
      · rename_i hshort
        have hend : blockEnd (a + c.rawDataLen) = blockEnd a := by
          unfold blockEnd at hshort ⊢
          omega
        rw [← hend]
        exact ih h
      · cases heq

theorem tailChunk_spec (h : Tiles tgtFile a cs b) (hcs : cs ≠ []) (hb : b ≤ tgtFile.length) :
    Tiles tgtFile a (cs ++ tailChunk tgtFile cs) (min tgtFile.length (blockEnd b)) := by
  obtain ⟨c, hlast, hend⟩ := h.getLast?_end hcs
  rw [Tiles.append_iff]
  refine ⟨b, h, ?_⟩
  simp only [tailChunk, hlast, hend]
  split
  · refine ⟨rfl, rfl, ?_⟩
    show b + min (tgtFile.length - b) (BLOCK_SIZE - b % BLOCK_SIZE) =
      min tgtFile.length (blockEnd b)
    unfold BLOCK_SIZE blockEnd at *
    omega
  · show b = min tgtFile.length (blockEnd b)
    unfold BLOCK_SIZE blockEnd at *
    omega

/-! ## The content of a piece -/

/-- The block numbers of a set are blocks of the file. -/
def InFile (srcFile : List UInt8) (ranges : SortedRangeSet) : Prop :=
  ∀ n ∈ ranges, n * BLOCK_SIZE < srcFile.length

theorem InFile.of_mem_ranges {ranges : SortedRangeSet} (h : InFile srcFile ranges) {r : Range}
    (hr : r ∈ ranges.ranges) : r.1 * BLOCK_SIZE < srcFile.length := by
  apply h
  rw [SortedRangeSet.mem_iff]
  exact ⟨r, hr, Nat.le_refl _, ranges.nonempty r hr⟩

theorem contentOf_ne_nil {ranges : SortedRangeSet} (h : InFile srcFile ranges)
    (hne : ranges.ranges ≠ []) : contentOf srcFile ranges ≠ [] := by
  cases hranges : ranges.ranges with
  | nil => exact absurd hranges hne
  | cons r rs =>
    have hr : r ∈ ranges.ranges := hranges ▸ List.mem_cons_self
    have hin := h.of_mem_ranges hr
    have hlt := ranges.nonempty r hr
    have hslice :
        (srcFile.take (min srcFile.length (r.2 * BLOCK_SIZE))).drop (r.1 * BLOCK_SIZE) ≠ [] := by
      rw [Ne, List.drop_eq_nil_iff, List.length_take]
      unfold BLOCK_SIZE at *
      omega
    rw [contentOf, hranges, List.flatMap_cons]
    exact List.append_ne_nil_of_left_ne_nil hslice _

/-- `AddSplitImageFromChunkList` makes a piece up to the next block boundary, or there is nothing
left up to it. -/
theorem addSplitImageFromChunkList_spec {ranges : SortedRangeSet} (splitSrc : List ImageChunk)
    (h : Tiles tgtFile a cs b) (hcs : cs ≠ []) (hb : b ≤ tgtFile.length)
    (hin : InFile srcFile ranges) (hne : ranges.ranges ≠ []) :
    addSplitImageFromChunkList tgtFile srcFile ranges cs splitSrc = .ok none ∧
        blockEnd b = blockEnd a ∨
      ∃ tgt, addSplitImageFromChunkList tgtFile srcFile ranges cs splitSrc =
          .ok (some ⟨tgt, splitSrc, contentOf srcFile ranges⟩) ∧
        tgt = mergeAdjacentNormalChunks (alignChunks tgtFile cs ++
          tailChunk tgtFile (alignChunks tgtFile cs)) ∧ tgt ≠ [] ∧ blockEnd a < tgtFile.length ∧
        Tiles tgtFile (blockEnd a) tgt (min tgtFile.length (blockEnd b)) := by
  rw [addSplitImageFromChunkList, if_neg hcs]
  rcases alignChunks_spec h with ⟨hnil, hle⟩ | ⟨hal, hlt, htiles⟩
  · left
    refine ⟨by simp [hnil], ?_⟩
    have := h.le
    unfold blockEnd at *
    omega
  · right
    have hany : ¬ (ranges.ranges.any fun r => srcFile.length < r.1 * BLOCK_SIZE) = true := by
      rw [List.any_eq_true]
      rintro ⟨r, hr, hout⟩
      have := hin.of_mem_ranges hr
      rw [decide_eq_true_eq] at hout
      omega
    rw [if_neg hal, if_neg hany, if_neg (contentOf_ne_nil hin hne)]
    refine ⟨_, rfl, rfl, ?_, by omega, ?_⟩
    · exact mergeAdjacentNormalChunks_ne_nil (List.append_ne_nil_of_left_ne_nil hal _)
    · exact (tailChunk_spec htiles hal hb).mergeAdjacentNormalChunks

/-! ## Source ranges -/

/-- The block `n` holds one of `len` bytes from `start` on. -/
def Holds (start len n : Nat) : Prop := start / kBlockSize ≤ n ∧ n ≤ (start + len - 1) / kBlockSize

theorem alignHead_spec (start length : Nat) :
    start ≤ (alignHead start length).2.1 ∧
      (alignHead start length).2.1 + (alignHead start length).2.2 ≤ start + length ∧
      ((alignHead start length).2.2 = length → (alignHead start length).2.1 = start) ∧
      ((alignHead start length).1 = true → 0 < (alignHead start length).2.2) := by
  have hle : start ≤ blockEnd start := by
    unfold blockEnd
    omega
  rw [alignHead_eq]
  split
  · simp
  · dsimp only
    omega

theorem alignTail_spec (start length : Nat) :
    (alignTail start length).2.1 = start ∧ (alignTail start length).2.2 ≤ length ∧
      ((alignTail start length).1 = true → 0 < (alignTail start length).2.2) := by
  unfold alignTail
  dsimp only
  split
  · simp
  · dsimp only
    omega

/-- What `RemoveUsedBlocks` leaves is a part of the source chunk without used blocks. -/
theorem removeUsedBlocks_eq_some {start length start' length' : Nat} {used : SortedRangeSet}
    (hlen : 0 < length) (hlt : start + length < 2 ^ 63)
    (h : removeUsedBlocks start length used = some (start', length')) :
    0 < length' ∧ start ≤ start' ∧ start' + length' ≤ start + length ∧
      (length' = length → start' = start) ∧ ∀ n, Holds start' length' n → n ∉ used := by
  have hfree : ∀ {s l : Nat}, 0 < l → s + l < 2 ^ 63 → used.overlapsFile s l = false →
      ∀ n, Holds s l n → n ∉ used := by
    intro s l hl hs hno n hn hmem
    have := (SortedRangeSet.overlapsFile_iff hl hs).mpr ⟨n, hmem, hn⟩
    rw [hno] at this
    cases this
  unfold removeUsedBlocks at h
  split at h
  · rename_i hno
    cases h
    exact ⟨hlen, Nat.le_refl _, Nat.le_refl _, fun _ => rfl, hfree hlen hlt (by simpa using hno)⟩
  · obtain ⟨hstart, hend, hsame, hpos⟩ := alignHead_spec start length
    generalize alignHead start length = head at hstart hend hsame hpos h
    obtain ⟨ok, start₁, length₁⟩ := head
    dsimp only at hstart hend hsame hpos h
    split at h
    · rename_i hok
      cases h
      rw [Bool.and_eq_true, Bool.not_eq_true'] at hok
      exact ⟨hpos hok.1, hstart, hend, hsame, hfree (hpos hok.1) (by omega) hok.2⟩
    · obtain ⟨htail, hlen₂, hpos₂⟩ := alignTail_spec start₁ length₁
      generalize alignTail start₁ length₁ = tail at htail hlen₂ hpos₂ h
      obtain ⟨ok₂, start₂, length₂⟩ := tail
      dsimp only at htail hlen₂ hpos₂ h
      subst htail
      split at h
      · rename_i hok
        cases h
        rw [Bool.and_eq_true, Bool.not_eq_true'] at hok
        have := hpos₂ hok.1
        exact ⟨this, hstart, by omega, fun heq => hsame (by omega), hfree this (by omega) hok.2⟩
      · cases h

/-! ## The input -/

/-- A target image whose chunks tile its file, and a source image with a central directory at its
end. -/
structure SplitImages (tgtFile srcFile : List UInt8) (tgt src : List ImageChunk) (cd : ImageChunk) :
    Prop where
  nonempty : tgtFile ≠ []
  tiles : Tiles tgtFile 0 tgt tgtFile.length
  size : srcFile.length < 2 ^ 63
  inFile : ∀ c ∈ src, c.start + c.rawDataLen ≤ srcFile.length
  last : src.getLast? = some cd
  cdType : cd.type = .normal
  cdLen : 0 < cd.rawDataLen

/-- The named chunks of the source have at most `limit` bytes, and no name of a target chunk stands
for the central directory. -/
structure SplitInput (limit : Nat) (tgtFile srcFile : List UInt8) (tgt src : List ImageChunk)
    (cd : ImageChunk) : Prop extends SplitImages tgtFile srcFile tgt src cd where
  names : ∀ t ∈ tgt, t.entryName ≠ ['-', '0']
  named : ∀ c ∈ src, c.entryName ≠ [] → 0 < c.rawDataLen ∧ c.rawDataLen ≤ limit

variable {limit : Nat} {tgt src : List ImageChunk} {cd : ImageChunk}

theorem findChunkByName_eq_some {name : Text} {findNormal : Bool} {c : ImageChunk}
    (h : findChunkByName src name findNormal = some c) :
    c ∈ src ∧ name ≠ [] ∧ (c.type = .deflate ∨ findNormal = true) ∧ answersTo c name = true ∧
      (name ≠ ['-', '0'] → c.entryName ≠ []) := by
  have hmem := List.mem_of_find?_eq_some h
  have hfound := List.find?_some h
  simp only [isFound, Bool.and_eq_true, Bool.or_eq_true, decide_eq_true_eq] at hfound
  obtain ⟨⟨hname, htype⟩, hanswers⟩ := hfound
  refine ⟨hmem, hname, htype, hanswers, ?_⟩
  intro hzero hnil
  simp only [answersTo, hnil, Bool.or_eq_true, decide_eq_true_eq, List.nil_append] at hanswers
  rcases hanswers with (h | h) | h
  · exact hname h.symm
  · exact hzero h
  · cases name <;> cases h

/-! ## The end of a piece -/

/-- A property of the target chunks that normal chunks have, also after merging. -/
structure Mergeable (tgtFile : List UInt8) (Q : ImageChunk → Prop) : Prop where
  normal : ∀ start rawDataLen, 0 < rawDataLen →
    Q { type := .normal, start, file := tgtFile, rawDataLen }
  plain : ∀ c, Q c → Q (plain tgtFile c)
  merge : ∀ c d : ImageChunk, Q c → c.isAdjacentNormal d → Q (c.mergeAdjacentNormal d)

/-- The chunks of a piece: each deflate chunk of the target has its source in the piece, and the
blocks of each source chunk are those of the piece. -/
structure PieceChunks (Q : ImageChunk → Prop) (src tgtChunks srcChunks : List ImageChunk)
    (ranges : SortedRangeSet) : Prop where
  tgt : ∀ t ∈ tgtChunks, Q t ∧ (t.type = .deflate → ∃ c ∈ srcChunks, isFound t.entryName false c)
  src : ∀ c ∈ srcChunks, c ∈ src ∧ c.type = .deflate ∧ 0 < c.rawDataLen ∧
    ∀ n, Holds c.start c.rawDataLen n → n ∈ ranges

/-- A piece and its source ranges. -/
structure Piece.Ok (Q : ImageChunk → Prop) (srcFile : List UInt8) (src : List ImageChunk)
    (p : Piece) (ranges : SortedRangeSet) : Prop where
  head : ∃ c cs, p.tgt = c :: cs ∧ c.start % BLOCK_SIZE = 0
  content : p.content = contentOf srcFile ranges
  inFile : InFile srcFile ranges
  chunks : PieceChunks Q src p.tgt p.src ranges

variable {Q : ImageChunk → Prop}

theorem mem_alignChunks {c : ImageChunk} (h : c ∈ alignChunks tgtFile cs) :
    (∃ start length, 0 < length ∧
      c = { type := .normal, start, file := tgtFile, rawDataLen := length }) ∨ c ∈ cs := by
  induction cs with
  | nil => cases h
  | cons d cs ih =>
    rw [alignChunks] at h
    split at h
    · rename_i start length hhead
      rcases List.mem_cons.mp h with rfl | h
      · obtain ⟨-, -, -, hpos⟩ := alignHead_spec d.start d.rawDataLen
        rw [hhead] at hpos
        exact .inl ⟨_, _, hpos rfl, rfl⟩
      · exact .inr (List.mem_cons_of_mem _ h)
    · exact (ih h).imp id (List.mem_cons_of_mem _)

theorem mem_tailChunk {c : ImageChunk} (h : c ∈ tailChunk tgtFile cs) :
    ∃ start length, 0 < length ∧
      c = { type := .normal, start, file := tgtFile, rawDataLen := length } := by
  unfold tailChunk at h
  split at h
  · cases h
  · dsimp only at h
    split at h
    · refine ⟨_, _, ?_, List.mem_singleton.mp h⟩
      unfold BLOCK_SIZE at *
      omega
    · cases h

theorem PieceChunks.align (hQ : Mergeable tgtFile Q) {splitSrc : List ImageChunk}
    {ranges : SortedRangeSet} (h : PieceChunks Q src cs splitSrc ranges) :
    PieceChunks Q src (mergeAdjacentNormalChunks (alignChunks tgtFile cs ++
      tailChunk tgtFile (alignChunks tgtFile cs))) splitSrc ranges := by
  refine ⟨forall_mem_mergeAdjacentNormalChunks ?_ ?_, h.src⟩
  · intro c d hc _ hadj
    refine ⟨hQ.merge c d hc.1 hadj, fun htype => ?_⟩
    simp only [ImageChunk.isAdjacentNormal, Bool.and_eq_true, decide_eq_true_eq] at hadj
    rw [show c.type = .deflate from htype] at hadj
    cases hadj.1.1
  · have hplain : ∀ {c : ImageChunk}, (∃ start length, 0 < length ∧
        c = { type := .normal, start, file := tgtFile, rawDataLen := length }) →
        Q c ∧ (c.type = .deflate → ∃ d ∈ splitSrc, isFound c.entryName false d) := by
      rintro c ⟨start, length, hpos, rfl⟩
      exact ⟨hQ.normal start length hpos, fun htype => by cases htype⟩
    intro c hc
    rcases List.mem_append.mp hc with hc | hc
    · rcases mem_alignChunks hc with hc | hc
      · exact hplain hc
      · exact h.tgt c hc
    · exact hplain (mem_tailChunk hc)

/-- The pieces cover the file up to the next block boundary, and one piece may be new. -/
theorem closePiece_spec (hQ : Mergeable tgtFile Q) {s : Splitting}
    (hpieces : Tiles tgtFile 0 (s.pieces.flatMap Piece.tgt) (min tgtFile.length (blockEnd a)))
    (htiles : Tiles tgtFile a s.splitTgt b) (hb : b ≤ tgtFile.length) (hsplit : s.splitTgt ≠ [])
    (hin : InFile srcFile s.srcRanges) (hne : s.srcRanges.ranges ≠ [])
    (hchunks : PieceChunks Q src s.splitTgt s.splitSrc s.srcRanges) :
    ∃ s', closePiece tgtFile srcFile s = .ok s' ∧ s'.rest = s.rest ∧ s'.srcRanges = .empty ∧
      s'.splitSrc = [] ∧ s'.splitTgt = [] ∧
      Tiles tgtFile 0 (s'.pieces.flatMap Piece.tgt) (min tgtFile.length (blockEnd b)) ∧
      (s'.pieces = s.pieces ∧ s'.ranges = s.ranges ∧ s'.usedSrcRanges = s.usedSrcRanges ∨
        ∃ p, p.Ok Q srcFile src s.srcRanges ∧ s'.pieces = s.pieces ++ [p] ∧
          s'.ranges = s.ranges ++ [s.srcRanges] ∧
          s'.usedSrcRanges = s.usedSrcRanges.insert s.srcRanges) := by
  rcases addSplitImageFromChunkList_spec s.splitSrc htiles hsplit hb hin hne with
    ⟨hadd, hend⟩ | ⟨tgt, hadd, htgt, hnil, hlt, hpiece⟩
  · simp only [closePiece, hadd, bind, Except.bind, pure, Except.pure]
    refine ⟨_, rfl, rfl, rfl, rfl, rfl, ?_, .inl ⟨?_, rfl, rfl⟩⟩
    · simpa [hend] using hpieces
    · simp
  · simp only [closePiece, hadd, bind, Except.bind, pure, Except.pure]
    refine ⟨_, rfl, rfl, rfl, rfl, rfl, ?_, .inr ⟨_, ?_, rfl, rfl, rfl⟩⟩
    · simp only [Option.toList_some, List.flatMap_append, List.flatMap_singleton]
      rw [Nat.min_eq_right (Nat.le_of_lt hlt)] at hpieces
      exact Tiles.append_iff.mpr ⟨_, hpieces, hpiece⟩
    · refine ⟨?_, rfl, hin, htgt ▸ hchunks.align hQ⟩
      cases tgt with
      | nil => exact absurd rfl hnil
      | cons c cs =>
        refine ⟨c, cs, rfl, ?_⟩
        rw [hpiece.2.1]
        unfold blockEnd BLOCK_SIZE
        omega

/-! ## The loop -/

/-- The invariant of the loop of `SplitZipModeImageWithLimit`. The pieces cover the target up to the
first block boundary after the start `a` of the current piece, whose chunks reach up to `b`. The
blocks of the current piece are not used by an earlier piece, and the central directory is kept for
the last one. -/
structure Splitting.Inv (Q : ImageChunk → Prop) (tgtFile srcFile : List UInt8)
    (tgt src : List ImageChunk) (cd : ImageChunk) (s : Splitting) : Prop where
  rest : ∀ t ∈ s.rest, t ∈ tgt
  tiles : ∃ a b, Tiles tgtFile 0 (s.pieces.flatMap Piece.tgt) (min tgtFile.length (blockEnd a)) ∧
    Tiles tgtFile a s.splitTgt b ∧ Tiles tgtFile b s.rest tgtFile.length
  started : s.srcRanges.ranges ≠ [] → s.splitTgt ≠ []
  ended : s.rest = [] → s.splitTgt ≠ []
  inFile : InFile srcFile s.srcRanges
  free : ∀ n ∈ s.srcRanges, n ∉ s.usedSrcRanges
  reserved : ∀ n, Holds cd.start cd.rawDataLen n → n ∈ s.usedSrcRanges
  chunks : PieceChunks Q src s.splitTgt s.splitSrc s.srcRanges
  pieces : List.Forall₂ (Piece.Ok Q srcFile src) s.pieces s.ranges
  disjoint : s.ranges.Pairwise fun r r' => ∀ n ∈ r, n ∉ r'
  used : ∀ r ∈ s.ranges, ∀ n ∈ r, n ∈ s.usedSrcRanges ∧ ¬ Holds cd.start cd.rawDataLen n

/-- The number of rounds that are left at most. -/
def Splitting.rounds (s : Splitting) : Nat :=
  2 * s.rest.length + if s.srcRanges.ranges = [] then 0 else 1

theorem ranges_ne_nil {rs : SortedRangeSet} {n : Nat} (h : n ∈ rs) : rs.ranges ≠ [] := by
  intro hnil
  rw [SortedRangeSet.mem_iff, hnil] at h
  obtain ⟨r, hr, -⟩ := h
  cases hr

theorem Tiles.snoc {lo hi mid : Nat} {c : ImageChunk} (c' : ImageChunk) {cs rest : List ImageChunk}
    (h : Tiles tgtFile lo cs mid) (hrest : Tiles tgtFile mid (c :: rest) hi)
    (hfile : c'.file = tgtFile) (hstart : c'.start = c.start)
    (hlen : c'.rawDataLen = c.rawDataLen) :
    ∃ mid', Tiles tgtFile lo (cs ++ [c']) mid' ∧ Tiles tgtFile mid' rest hi := by
  obtain ⟨-, hc, hrest⟩ := hrest
  exact ⟨_, Tiles.append_iff.mpr ⟨mid, h, hfile, hstart.trans hc, hlen ▸ rfl⟩, hrest⟩

section
variable {s : Splitting} {t : ImageChunk} {rest : List ImageChunk}

/-- The invariant after a target chunk that goes into the piece as a normal chunk. -/
theorem Splitting.Inv.push_plain (hQ : Mergeable tgtFile Q) (hQt : Q t)
    (h : s.Inv Q tgtFile srcFile tgt src cd) (hs : s.rest = t :: rest) :
    Splitting.Inv Q tgtFile srcFile tgt src cd
      { s with rest, splitTgt := s.splitTgt ++ [plain tgtFile t] } := by
  obtain ⟨a, b, hpieces, hsplit, hrest⟩ := h.tiles
  rw [hs] at hrest
  obtain ⟨mid, hsplit', hrest'⟩ := Tiles.snoc (plain tgtFile t) hsplit hrest rfl rfl rfl
  refine { h with
    rest := fun t' ht' => h.rest t' (hs ▸ List.mem_cons_of_mem _ ht')
    tiles := ⟨a, mid, hpieces, hsplit', hrest'⟩
    started := fun _ => by simp
    ended := fun _ => by simp
    chunks := ⟨?_, h.chunks.src⟩ }
  intro t' ht'
  rcases List.mem_append.mp ht' with ht' | ht'
  · exact h.chunks.tgt t' ht'
  · rw [List.mem_singleton.mp ht']
    exact ⟨hQ.plain t hQt, fun htype => by cases htype⟩

/-- The invariant after a target chunk with a source chunk, from which `len` bytes from `start` on
are used for the piece. -/
theorem Splitting.Inv.push {start len : Nat} (t' : ImageChunk) (extra : List ImageChunk)
    (h : s.Inv Q tgtFile srcFile tgt src cd) (hs : s.rest = t :: rest) (hlen : 0 < len)
    (hsize : srcFile.length < 2 ^ 63) (hend : start + len ≤ srcFile.length)
    (hfree : ∀ n, Holds start len n → n ∉ s.usedSrcRanges)
    (hplace : t'.file = tgtFile ∧ t'.start = t.start ∧ t'.rawDataLen = t.rawDataLen) (ht : Q t')
    (hfound : t'.type = .deflate → ∃ c ∈ extra, isFound t'.entryName false c)
    (hextra : ∀ c ∈ extra, c ∈ src ∧ c.type = .deflate ∧ 0 < c.rawDataLen ∧ c.start = start ∧
      c.rawDataLen = len) :
    Splitting.Inv Q tgtFile srcFile tgt src cd
      { s with
        rest, srcRanges := s.srcRanges.insertFile start len, splitSrc := s.splitSrc ++ extra
        splitTgt := s.splitTgt ++ [t'] } := by
  have hmem : ∀ {n}, n ∈ s.srcRanges.insertFile start len ↔ n ∈ s.srcRanges ∨ Holds start len n :=
    SortedRangeSet.mem_insertFile hlen (by omega)
  obtain ⟨a, b, hpieces, hsplit, hrest⟩ := h.tiles
  rw [hs] at hrest
  obtain ⟨mid, hsplit', hrest'⟩ := Tiles.snoc t' hsplit hrest hplace.1 hplace.2.1 hplace.2.2
  refine { h with
    rest := fun t' ht' => h.rest t' (hs ▸ List.mem_cons_of_mem _ ht')
    tiles := ⟨a, mid, hpieces, hsplit', hrest'⟩
    started := fun _ => by simp
    ended := fun _ => by simp
    inFile := ?_
    free := ?_
    chunks := ⟨?_, ?_⟩ }
  · intro n hn
    rcases hmem.mp hn with hn | ⟨-, hn⟩
    · exact h.inFile n hn
    · unfold BLOCK_SIZE
      unfold SortedRangeSet.kBlockSize at hn
      omega
  · intro n hn
    rcases hmem.mp hn with hn | hn
    · exact h.free n hn
    · exact hfree n hn
  · intro t'' ht''
    rcases List.mem_append.mp ht'' with ht'' | ht''
    · obtain ⟨hq, hfound'⟩ := h.chunks.tgt t'' ht''
      refine ⟨hq, fun htype => ?_⟩
      obtain ⟨c, hc, hcfound⟩ := hfound' htype
      exact ⟨c, List.mem_append_left _ hc, hcfound⟩
    · rw [List.mem_singleton.mp ht'']
      refine ⟨ht, fun htype => ?_⟩
      obtain ⟨c, hc, hcfound⟩ := hfound htype
      exact ⟨c, List.mem_append_right _ hc, hcfound⟩
  · intro c hc
    rcases List.mem_append.mp hc with hc | hc
    · obtain ⟨hcsrc, htype, hpos, hholds⟩ := h.chunks.src c hc
      exact ⟨hcsrc, htype, hpos, fun n hn => hmem.mpr (.inl (hholds n hn))⟩
    · obtain ⟨hcsrc, htype, hpos, hstart, hlen⟩ := hextra c hc
      exact ⟨hcsrc, htype, hpos, fun n hn => hmem.mpr (.inr (hstart ▸ hlen ▸ hn))⟩

theorem Splitting.Inv.close (hQ : Mergeable tgtFile Q) (h : s.Inv Q tgtFile srcFile tgt src cd)
    (hs : s.rest ≠ []) (hne : s.srcRanges.ranges ≠ []) :
    ∃ s', closePiece tgtFile srcFile s = .ok s' ∧ s'.Inv Q tgtFile srcFile tgt src cd ∧
      s'.rest = s.rest ∧ s'.srcRanges = .empty := by
  obtain ⟨a, b, hpieces, hsplit, hrest⟩ := h.tiles
  obtain ⟨s', hclose, hrest', hranges, hsrc, htgt, htiles, hadded⟩ :=
    closePiece_spec hQ hpieces hsplit hrest.le (h.started hne) h.inFile hne h.chunks
  refine ⟨s', hclose, ?_, hrest', hranges⟩
  have hnone : ∀ n, n ∉ s'.srcRanges := by
    rw [hranges]
    exact fun n => SortedRangeSet.not_mem_empty
  constructor
  case rest => exact hrest' ▸ h.rest
  case tiles => exact ⟨b, b, htiles, htgt ▸ rfl, hrest' ▸ hrest⟩
  case started => exact fun hne' => absurd (hranges ▸ rfl) hne'
  case ended => exact fun hnil => absurd (hrest' ▸ hnil) hs
  case inFile => exact fun n hn => absurd hn (hnone n)
  case free => exact fun n hn => absurd hn (hnone n)
  case chunks => exact ⟨by simp [htgt], by simp [hsrc]⟩
  case reserved =>
    intro n hn
    rcases hadded with ⟨-, -, hused⟩ | ⟨p, -, -, -, hused⟩
    · exact hused ▸ h.reserved n hn
    · rw [hused, SortedRangeSet.mem_insert]
      exact .inl (h.reserved n hn)
  case pieces =>
    rcases hadded with ⟨hp, hr, -⟩ | ⟨p, hok, hp, hr, -⟩
    · rw [hp, hr]
      exact h.pieces
    · rw [hp, hr]
      exact List.rel_append h.pieces (.cons hok .nil)
  case disjoint =>
    rcases hadded with ⟨-, hr, -⟩ | ⟨p, -, -, hr, -⟩
    · exact hr ▸ h.disjoint
    · rw [hr, List.pairwise_append]
      refine ⟨h.disjoint, List.pairwise_singleton _ _, ?_⟩
      intro r hr' r' hmem n hn hn'
      rw [List.mem_singleton.mp hmem] at hn'
      exact h.free n hn' (h.used r hr' n hn).1
  case used =>
    rcases hadded with ⟨-, hr, hused⟩ | ⟨p, -, -, hr, hused⟩
    · rw [hr, hused]
      exact h.used
    · rw [hr, hused]
      intro r hr' n hn
      rw [SortedRangeSet.mem_insert]
      rcases List.mem_append.mp hr' with hr' | hr'
      · exact ⟨.inl (h.used r hr' n hn).1, (h.used r hr' n hn).2⟩
      · rw [List.mem_singleton.mp hr'] at hn
        exact ⟨.inr hn, fun hcd => h.free n hn (h.reserved n hcd)⟩

end

theorem splitRound_spec (hQ : Mergeable tgtFile Q) (hQt : ∀ t ∈ tgt, Q t)
    (hin : SplitImages tgtFile srcFile tgt src cd) {s : Splitting} {t : ImageChunk}
    {rest : List ImageChunk} (hs : s.rest = t :: rest) (h : s.Inv Q tgtFile srcFile tgt src cd)
    (hlimit : ∀ c, findChunkByName src t.entryName true = some c →
      0 < c.rawDataLen ∧ c.rawDataLen ≤ limit) :
    ∃ s', splitRound limit tgtFile srcFile src t rest s = .ok s' ∧
      s'.Inv Q tgtFile srcFile tgt src cd ∧ s'.rounds < s.rounds := by
  have ht : t ∈ tgt := h.rest t (hs ▸ List.mem_cons_self)
  have hfewer : ∀ {s' : Splitting}, s'.rest = rest → s'.rounds < s.rounds := by
    intro s' hs'
    unfold Splitting.rounds
    rw [hs, hs', List.length_cons]
    split <;> split <;> omega
  unfold splitRound
  cases hfind : findChunkByName src t.entryName true with
  | none => exact ⟨_, rfl, h.push_plain hQ (hQt t ht) hs, hfewer rfl⟩
  | some c =>
    obtain ⟨hc, hname, -, hanswers, -⟩ := findChunkByName_eq_some hfind
    obtain ⟨hpos, hle⟩ := hlimit c hfind
    have hfile := hin.inFile c hc
    have hsize := hin.size
    dsimp only
    rw [if_neg (not_not.mpr ⟨hpos, hle⟩)]
    cases hremove : removeUsedBlocks c.start c.rawDataLen s.usedSrcRanges with
    | none => exact ⟨_, rfl, h.push_plain hQ (hQt t ht) hs, hfewer rfl⟩
    | some r =>
      obtain ⟨srcOffset, srcLength⟩ := r
      obtain ⟨hpos', hstart, hend, hsame, hfree⟩ := removeUsedBlocks_eq_some hpos (by omega) hremove
      dsimp only
      split
      · -- the source blocks have room in the piece
        have hplace := hin.tiles.of_mem ht
        split
        · rename_i hwhole
          refine ⟨_, rfl, ?_, hfewer rfl⟩
          refine Splitting.Inv.push t [c] h hs hpos' hsize (by omega) hfree ⟨hplace.1, rfl, rfl⟩
            (hQt t ht) ?_ ?_
          · intro _
            refine ⟨c, List.mem_singleton_self c, ?_⟩
            simp [isFound, hname, hwhole.1, hanswers]
          · intro d hd
            rw [List.mem_singleton.mp hd]
            exact ⟨hc, hwhole.1, hpos, (hsame hwhole.2).symm, hwhole.2.symm⟩
        · refine ⟨_, rfl, ?_, hfewer rfl⟩
          simpa using Splitting.Inv.push (plain tgtFile t) [] h hs hpos' hsize (by omega) hfree
            ⟨rfl, rfl, rfl⟩ (hQ.plain t (hQt t ht)) (fun htype => by cases htype) (by simp)
      · -- the piece is full
        rename_i hfull
        have hne : s.srcRanges.ranges ≠ [] := by
          intro hnil
          have hzero : s.srcRanges.blocks = 0 := by simp [RangeSet.blocks, hnil]
          rw [hzero] at hfull
          omega
        obtain ⟨s', hclose, hinv, hrest, hranges⟩ := h.close hQ (by simp [hs]) hne
        refine ⟨s', hclose, hinv, ?_⟩
        have hempty : s'.srcRanges.ranges = [] := hranges ▸ rfl
        unfold Splitting.rounds
        rw [hrest, if_pos hempty, if_neg hne]
        omega

theorem limit_of_splitRound {s s' : Splitting} {t c : ImageChunk} {rest : List ImageChunk}
    (h : splitRound limit tgtFile srcFile src t rest s = .ok s')
    (hc : findChunkByName src t.entryName true = some c) :
    0 < c.rawDataLen ∧ c.rawDataLen ≤ limit := by
  unfold splitRound at h
  rw [hc] at h
  by_contra hno
  dsimp only at h
  rw [if_pos hno] at h
  cases h

theorem splitLoop_spec (hQ : Mergeable tgtFile Q) (hQt : ∀ t ∈ tgt, Q t)
    (hin : SplitInput limit tgtFile srcFile tgt src cd) {s : Splitting} {fuel : Nat}
    (hfuel : s.rounds < fuel) (h : s.Inv Q tgtFile srcFile tgt src cd) :
    ∃ s', splitLoop limit tgtFile srcFile src fuel s = .ok s' ∧
      s'.Inv Q tgtFile srcFile tgt src cd ∧ s'.rest = [] := by
  induction fuel generalizing s with
  | zero => omega
  | succ fuel ih =>
    rw [splitLoop]
    cases hs : s.rest with
    | nil => exact ⟨s, rfl, h, hs⟩
    | cons t rest =>
      have ht : t ∈ tgt := h.rest t (hs ▸ List.mem_cons_self)
      obtain ⟨s₁, hround, hinv, hlt⟩ := splitRound_spec hQ hQt hin.toSplitImages hs h fun c hc => by
        obtain ⟨hmem, -, -, -, hnamed⟩ := findChunkByName_eq_some hc
        exact hin.named c hmem (hnamed (hin.names t ht))
      simp only [hround, bind, Except.bind]
      exact ih (by omega) hinv

theorem inv_of_splitLoop (hQ : Mergeable tgtFile Q) (hQt : ∀ t ∈ tgt, Q t)
    (hin : SplitImages tgtFile srcFile tgt src cd) {s s' : Splitting} {fuel : Nat}
    (hloop : splitLoop limit tgtFile srcFile src fuel s = .ok s')
    (h : s.Inv Q tgtFile srcFile tgt src cd) :
    s'.Inv Q tgtFile srcFile tgt src cd ∧ s'.rest = [] := by
  induction fuel generalizing s with
  | zero => cases hloop
  | succ fuel ih =>
    rw [splitLoop] at hloop
    cases hs : s.rest with
    | nil =>
      rw [hs] at hloop
      cases hloop
      exact ⟨h, hs⟩
    | cons t rest =>
      rw [hs] at hloop
      obtain ⟨s₁, hround, hloop⟩ := bind_eq_ok.mp hloop
      obtain ⟨s₂, hround', hinv, -⟩ :=
        splitRound_spec hQ hQt hin hs h fun c hc => limit_of_splitRound hround hc
      rw [hround] at hround'
      cases hround'
      exact ih hloop hinv

/-! ## The checks at the end -/

theorem validateChunks_eq_some {lo hi : Nat} (h : Tiles tgtFile lo cs hi) :
    validateChunks lo cs = some hi := by
  induction cs generalizing lo with
  | nil => exact congrArg some h
  | cons c cs ih =>
    obtain ⟨-, hstart, h⟩ := h
    rw [validateChunks, if_pos hstart.symm, ih h]

theorem validateTargets_eq_some {pieces : List Piece} {lo hi : Nat}
    (h : Tiles tgtFile lo (pieces.flatMap Piece.tgt) hi)
    (hhead : ∀ p ∈ pieces, ∃ c cs, p.tgt = c :: cs ∧ c.start % BLOCK_SIZE = 0) :
    validateTargets lo (pieces.map Piece.tgt) = some hi := by
  induction pieces generalizing lo with
  | nil => exact congrArg some h
  | cons p pieces ih =>
    rw [List.forall_mem_cons] at hhead
    obtain ⟨⟨c, cs, hp, haligned⟩, hhead⟩ := hhead
    rw [List.flatMap_cons, Tiles.append_iff] at h
    obtain ⟨mid, hpiece, hrest⟩ := h
    have hstart : c.start = lo := by
      rw [hp] at hpiece
      exact hpiece.2.1
    rw [List.map_cons, validateTargets, if_pos ⟨by simp [hp], hstart ▸ haligned⟩,
      validateChunks_eq_some hpiece]
    exact ih hrest hhead

theorem validateRanges_eq_true {used : SortedRangeSet} {ranges : List SortedRangeSet}
    (hused : ∀ r ∈ ranges, ∀ n ∈ r, n ∉ used)
    (hdisjoint : ranges.Pairwise fun r r' => ∀ n ∈ r, n ∉ r') :
    validateRanges used ranges = true := by
  induction ranges generalizing used with
  | nil => rfl
  | cons r ranges ih =>
    rw [List.forall_mem_cons] at hused
    rw [List.pairwise_cons] at hdisjoint
    have hno : used.overlaps r.toRangeSet = false := by
      rw [Bool.eq_false_iff, Ne, SortedRangeSet.overlaps_iff]
      rintro ⟨n, hn, hnr⟩
      exact hused.1 n hnr hn
    rw [validateRanges, hno, Bool.not_false, Bool.true_and]
    apply ih _ hdisjoint.2
    intro r' hr' n hn hmem
    rcases SortedRangeSet.mem_insert.mp hmem with hmem | hmem
    · exact hused.2 r' hr' n hn hmem
    · exact hdisjoint.1 r' hr' n hmem hn

/-- The pieces of a split image. -/
structure SplitResult (Q : ImageChunk → Prop) (tgtFile srcFile : List UInt8) (src : List ImageChunk)
    (pieces : List Piece) (ranges : List SortedRangeSet) : Prop where
  tiles : Tiles tgtFile 0 (pieces.flatMap Piece.tgt) tgtFile.length
  pieces : List.Forall₂ (Piece.Ok Q srcFile src) pieces ranges
  disjoint : ranges.Pairwise fun r r' => ∀ n ∈ r, n ∉ r'

theorem SplitResult.head {pieces : List Piece} {ranges : List SortedRangeSet}
    (h : SplitResult Q tgtFile srcFile src pieces ranges) :
    ∀ p ∈ pieces, ∃ c cs, p.tgt = c :: cs ∧ c.start % BLOCK_SIZE = 0 := by
  intro p hp
  obtain ⟨i, hi, rfl⟩ := List.mem_iff_getElem.mp hp
  exact ((List.forall₂_iff_get.mp h.pieces).2 i hi (h.pieces.length_eq ▸ hi)).head

theorem SplitResult.validate {pieces : List Piece} {ranges : List SortedRangeSet}
    (h : SplitResult Q tgtFile srcFile src pieces ranges) :
    validateSplitImages pieces ranges tgtFile.length = true := by
  rw [validateSplitImages, validateTargets_eq_some h.tiles h.head,
    validateRanges_eq_true (fun _ _ _ _ => SortedRangeSet.not_mem_empty) h.disjoint]
  simp [h.pieces.length_eq]

/-- The state before the loop. -/
def Splitting.start (tgt : List ImageChunk) (cd : ImageChunk) : Splitting :=
  ⟨tgt, SortedRangeSet.empty.insertFile cd.start cd.dataLengthForPatch, .empty, [], [], [], []⟩

section
variable (hin : SplitImages tgtFile srcFile tgt src cd)
include hin

theorem SplitImages.mem_insertFile {rs : SortedRangeSet} {n : Nat} :
    n ∈ rs.insertFile cd.start cd.dataLengthForPatch ↔
      n ∈ rs ∨ Holds cd.start cd.rawDataLen n := by
  have hcdLen : cd.dataLengthForPatch = cd.rawDataLen := by
    simp [ImageChunk.dataLengthForPatch, hin.cdType]
  have hcdFile := hin.inFile cd (List.mem_of_getLast? hin.last)
  have hsize := hin.size
  rw [hcdLen]
  exact SortedRangeSet.mem_insertFile hin.cdLen (by omega)

theorem SplitImages.inv_start : (Splitting.start tgt cd).Inv Q tgtFile srcFile tgt src cd := by
  have htgt : tgt ≠ [] := by
    rintro rfl
    have hzero : 0 = tgtFile.length := hin.tiles
    exact hin.nonempty (List.length_eq_zero_iff.mp hzero.symm)
  constructor
  case rest => exact fun t ht => ht
  case tiles => exact ⟨0, 0, (Nat.min_eq_right (Nat.zero_le _)).symm, rfl, hin.tiles⟩
  case started => exact fun hne => absurd rfl hne
  case ended => exact fun hnil => absurd hnil htgt
  case inFile => exact fun n hn => absurd hn SortedRangeSet.not_mem_empty
  case free => exact fun n hn => absurd hn SortedRangeSet.not_mem_empty
  case reserved => exact fun n hn => hin.mem_insertFile.mpr (.inr hn)
  case chunks => exact ⟨by simp [Splitting.start], by simp [Splitting.start]⟩
  case pieces => exact .nil
  case disjoint => exact List.Pairwise.nil
  case used => simp [Splitting.start]

theorem SplitImages.close_last (hQ : Mergeable tgtFile Q) {s : Splitting}
    (hinv : s.Inv Q tgtFile srcFile tgt src cd) (hrest : s.rest = []) :
    ∃ s', closePiece tgtFile srcFile
        { s with srcRanges := s.srcRanges.insertFile cd.start cd.dataLengthForPatch } = .ok s' ∧
      SplitResult Q tgtFile srcFile src s'.pieces s'.ranges := by
  have hcdLen := hin.cdLen
  have hcdFile := hin.inFile cd (List.mem_of_getLast? hin.last)
  obtain ⟨a, b, hpieces, hsplit, hb⟩ := hinv.tiles
  rw [hrest] at hb
  have hb' : b = tgtFile.length := hb
  subst hb'
  have hinFile : InFile srcFile (s.srcRanges.insertFile cd.start cd.dataLengthForPatch) := by
    intro n hn
    rcases hin.mem_insertFile.mp hn with hn | ⟨-, hn⟩
    · exact hinv.inFile n hn
    · unfold BLOCK_SIZE
      unfold SortedRangeSet.kBlockSize at hn
      omega
  have hne : (s.srcRanges.insertFile cd.start cd.dataLengthForPatch).ranges ≠ [] :=
    ranges_ne_nil (hin.mem_insertFile.mpr
      (.inr ⟨Nat.le_refl _, Nat.div_le_div_right (by omega)⟩))
  have hchunks : PieceChunks Q src s.splitTgt s.splitSrc
      (s.srcRanges.insertFile cd.start cd.dataLengthForPatch) := by
    refine ⟨hinv.chunks.tgt, fun c hc => ?_⟩
    obtain ⟨hsrc, htype, hpos, hholds⟩ := hinv.chunks.src c hc
    exact ⟨hsrc, htype, hpos, fun n hn => hin.mem_insertFile.mpr (.inl (hholds n hn))⟩
  obtain ⟨s', hclose, -, -, -, -, htiles, hadded⟩ := closePiece_spec hQ
    (s := { s with srcRanges := s.srcRanges.insertFile cd.start cd.dataLengthForPatch })
    hpieces hsplit (Nat.le_refl _) (hinv.ended hrest) hinFile hne hchunks
  refine ⟨s', hclose, ?_, ?_, ?_⟩
  · rwa [Nat.min_eq_left (by unfold blockEnd; omega)] at htiles
  · rcases hadded with ⟨hp, hr, -⟩ | ⟨p, hok, hp, hr, -⟩
    · rw [hp, hr]
      exact hinv.pieces
    · rw [hp, hr]
      exact List.rel_append hinv.pieces (.cons hok .nil)
  · rcases hadded with ⟨-, hr, -⟩ | ⟨p, -, -, hr, -⟩
    · exact hr ▸ hinv.disjoint
    · rw [hr, List.pairwise_append]
      refine ⟨hinv.disjoint, List.pairwise_singleton _ _, ?_⟩
      intro r hr' r' hr'' n hn hn'
      rw [List.mem_singleton.mp hr''] at hn'
      obtain ⟨hused, hcd⟩ := hinv.used r hr' n hn
      rcases hin.mem_insertFile.mp hn' with hn' | hn'
      · exact hinv.free n hn' hused
      · exact hcd hn'

/-- What `SplitZipModeImageWithLimit` gives if the loop ends in a state. -/
theorem SplitImages.split_eq (hQ : Mergeable tgtFile Q) {s : Splitting}
    (hloop : splitLoop limit tgtFile srcFile src (2 * tgt.length + 1) (Splitting.start tgt cd) =
      .ok s) (hinv : s.Inv Q tgtFile srcFile tgt src cd) (hrest : s.rest = []) :
    ∃ pieces ranges, splitZipModeImageWithLimit limit tgtFile srcFile tgt src =
    .ok (pieces, ranges) ∧
      SplitResult Q tgtFile srcFile src pieces ranges := by
  obtain ⟨s', hclose, hresult⟩ := hin.close_last hQ hinv hrest
  refine ⟨s'.pieces, s'.ranges, ?_, hresult⟩
  rw [Splitting.start] at hloop
  simp only [splitZipModeImageWithLimit, hin.last, hin.cdType, ne_eq, not_true_eq_false, if_false,
    hloop, bind, Except.bind, hclose, hresult.validate, if_true]

/-- If `SplitZipModeImageWithLimit` ends, its pieces are as they should be. -/
theorem SplitImages.result_of_split (hQ : Mergeable tgtFile Q) (hQt : ∀ t ∈ tgt, Q t)
    {pieces : List Piece} {ranges : List SortedRangeSet}
    (h : splitZipModeImageWithLimit limit tgtFile srcFile tgt src = .ok (pieces, ranges)) :
    SplitResult Q tgtFile srcFile src pieces ranges := by
  cases hloop : splitLoop limit tgtFile srcFile src (2 * tgt.length + 1)
    (Splitting.start tgt cd) with
  | error fault =>
    rw [Splitting.start] at hloop
    simp [splitZipModeImageWithLimit, hin.last, hin.cdType, hloop, bind, Except.bind] at h
  | ok s =>
    obtain ⟨hinv, hrest⟩ := inv_of_splitLoop hQ hQt hin hloop hin.inv_start
    obtain ⟨pieces', ranges', hsplit, hresult⟩ := hin.split_eq hQ hloop hinv hrest
    rw [h] at hsplit
    cases hsplit
    exact hresult

end

/-- The split ends and no check fails: the pieces of the target are not empty, start at block
boundaries and stand one after the other from the start of the file to its end, and the source
ranges, one set for each piece, share no block. -/
theorem splitZipModeImageWithLimit_covers (hin : SplitInput limit tgtFile srcFile tgt src cd) :
    ∃ pieces ranges, splitZipModeImageWithLimit limit tgtFile srcFile tgt src =
    .ok (pieces, ranges) ∧
      (∀ p ∈ pieces, ∃ c cs, p.tgt = c :: cs ∧ c.start % BLOCK_SIZE = 0) ∧
      Tiles tgtFile 0 (pieces.flatMap Piece.tgt) tgtFile.length ∧
      ranges.length = pieces.length ∧ ranges.Pairwise fun r r' => ∀ n ∈ r, n ∉ r' := by
  have hQ : Mergeable tgtFile fun _ => True :=
    ⟨fun _ _ _ => trivial, fun _ _ => trivial, fun _ _ _ _ => trivial⟩
  obtain ⟨s, hloop, hinv, hrest⟩ := splitLoop_spec hQ (fun _ _ => trivial) hin
    (show (Splitting.start tgt cd).rounds < 2 * tgt.length + 1 from Nat.lt_succ_self _)
      hin.inv_start
  obtain ⟨pieces, ranges, hsplit, hresult⟩ := hin.split_eq hQ hloop hinv hrest
  exact ⟨pieces, ranges, hsplit, hresult.head, hresult.tiles, hresult.pieces.length_eq.symm,
    hresult.disjoint⟩

section
variable (tgtFile srcFile)

/-- Five blocks with a deflated entry `a` and a stored entry `b`. -/
def smallTarget : List ImageChunk :=
  [{ type := .deflate, start := 0, file := tgtFile, rawDataLen := 5000, uncompressedData := [0],
      entryName := ['a'] },
    { type := .normal, start := 5000, file := tgtFile, rawDataLen := 4000 },
    { type := .normal, start := 9000, file := tgtFile, rawDataLen := 7000, entryName := ['b'] },
    { type := .normal, start := 16000, file := tgtFile, rawDataLen := 4480 }]

/-- Three blocks with the entries `b` and `a`, and the central directory after them. -/
def smallSource : List ImageChunk :=
  [{ type := .normal, start := 30, file := srcFile, rawDataLen := 4000, entryName := ['b'] },
    { type := .deflate, start := 4060, file := srcFile, rawDataLen := 4096,
      uncompressedData := [1], entryName := ['a'] },
    { type := .normal, start := 8156, file := srcFile, rawDataLen := 4132 }]

end

/-- Each of the two entries has its own blocks of the source. -/
theorem splitZipModeImageWithLimit_covers_small : ∃ pieces ranges,
    splitZipModeImageWithLimit 4096 (List.replicate 20480 0) (List.replicate 12288 0)
      (smallTarget (List.replicate 20480 0)) (smallSource (List.replicate 12288 0)) =
      .ok (pieces, ranges) ∧ (∀ p ∈ pieces, ∃ c cs, p.tgt = c :: cs ∧ c.start % BLOCK_SIZE = 0) ∧
      Tiles (List.replicate 20480 0) 0 (pieces.flatMap Piece.tgt) 20480 ∧
      ranges.length = pieces.length ∧ ranges.Pairwise fun r r' => ∀ n ∈ r, n ∉ r' := by
  have htgt : (List.replicate 20480 (0 : UInt8)).length = 20480 := List.length_replicate
  have hsrc : (List.replicate 12288 (0 : UInt8)).length = 12288 := List.length_replicate
  have hin :
      SplitInput 4096 (List.replicate 20480 0) (List.replicate 12288 0)
      (smallTarget (List.replicate 20480 0))
      (smallSource (List.replicate 12288 0))
      { type := .normal, start := 8156, file := List.replicate 12288 0, rawDataLen := 4132 } := by
    generalize List.replicate 20480 (0 : UInt8) = tgtFile at *
    generalize List.replicate 12288 (0 : UInt8) = srcFile at *
    refine ⟨⟨?_, ?_, ?_, ?_, rfl, rfl, Nat.succ_pos _⟩, ?_, ?_⟩
    · rintro rfl
      cases htgt
    · simp [smallTarget, Tiles, htgt]
    · simp [hsrc]
    · simp [smallSource, hsrc]
    · simp [smallTarget]
    · simp [smallSource]
  have hcovers := splitZipModeImageWithLimit_covers hin
  rwa [htgt] at hcovers

end BootableRecovery.ApplyPatch.ZipMode
