import Mathlib.Data.List.Forall2
import BootableRecovery.ApplyPatch.Tiling

/-!
# Round trip in image mode

The scan for gzip members cuts a file into chunks without a gap; source and target keep their
parallel structure while chunks are merged; and the patch gives the target back, unless it has a
deflate stream without data that the patcher should make.
-/

namespace BootableRecovery.ApplyPatch

/-- A chunk as `Initialize` makes it. -/
structure ImageChunk.WellFormed (lib : Lib) (c : ImageChunk) : Prop where
  level : c.compressLevel = 6
  pos : 0 < c.rawDataLen
  kind : c.type = .normal ∨ c.type = .deflate ∧ c.start + c.rawDataLen ≤ c.file.length ∧
    (∃ used, lib.inflate c.raw = some (c.uncompressedData, used)) ∧
    c.uncompressedData.length < 2 ^ 32

theorem ImageChunk.WellFormed.mergeAdjacentNormalChunks {lib : Lib} {cs : List ImageChunk}
    (h : ∀ c ∈ cs, c.WellFormed lib) :
    ∀ c ∈ ApplyPatch.mergeAdjacentNormalChunks cs, c.WellFormed lib := by
  apply forall_mem_mergeAdjacentNormalChunks _ h
  intro c d hc hd hadj
  simp only [ImageChunk.isAdjacentNormal, Bool.and_eq_true, decide_eq_true_eq] at hadj
  exact ⟨hc.level, Nat.add_pos_left hc.pos _, .inl hadj.1.1⟩

namespace ImageMode

variable {lib : Lib} {file : List UInt8}

/-! ## The scan -/

theorem le_normalLen (file : List UInt8) (pos fuel dataLen : Nat) :
    dataLen ≤ normalLen file pos fuel dataLen := by
  induction fuel generalizing dataLen with
  | zero => exact Nat.le_refl _
  | succ fuel ih =>
    rw [normalLen]
    split
    · split
      · exact Nat.le_refl _
      · exact Nat.le_trans (Nat.le_succ _) (ih _)
    · exact Nat.le_refl _

theorem normalLen_pos {pos : Nat} (hpos : pos < file.length) (hmagic : ¬ magicAt file pos) :
    0 < normalLen file pos (file.length - pos) 0 := by
  obtain ⟨n, hn⟩ : ∃ n, file.length - pos = n + 1 := ⟨file.length - pos - 1, by omega⟩
  rw [hn, normalLen, if_pos (by omega), if_neg (by simpa using hmagic)]
  exact le_normalLen ..

theorem deflateAt_eq_some (laws : lib.Lawful) {pos rawDataLen : Nat} {data : List UInt8}
    (hlt : file.length < 2 ^ 32) (h : deflateAt lib file pos = some (rawDataLen, data)) :
    0 < rawDataLen ∧ pos + rawDataLen ≤ file.length ∧
      lib.inflate ((file.drop pos).take rawDataLen) = some (data, rawDataLen) ∧
      data.length < 2 ^ 32 := by
  have htake : (file.drop pos).take (file.length - pos) = file.drop pos := by
    rw [← List.length_drop, List.take_length]
  simp only [deflateAt, Nat.mod_eq_of_lt (show file.length - pos < 2 ^ 32 by omega), htake] at h
  cases hinf : lib.inflate (file.drop pos) with
  | none => rw [hinf] at h; cases h
  | some r =>
    obtain ⟨d, used⟩ := r
    obtain ⟨hpos, hle, hself⟩ := laws.inflate hinf
    rw [List.length_drop] at hle
    have hlen : file.length - (file.length - pos - used) - pos = used := by omega
    simp only [hinf, hlen] at h
    split at h
    · cases h
    · split at h
      · cases h
      · rename_i hfooter
        simp only [Option.some.injEq, Prod.mk.injEq] at h
        obtain ⟨rfl, rfl⟩ := h
        rw [not_not] at hfooter
        have hbound := leNat_lt (lib.bytesAt file (pos + used + GZIP_FOOTER_LEN - 4) 4)
        rw [hfooter, length_bytesAt] at hbound
        exact ⟨hpos, by omega, hself, by omega⟩

/-- `Initialize` cuts the file into chunks, from its start to its end or further. -/
theorem scan_spec (laws : lib.Lawful) (hlt : file.length < 2 ^ 32) {fuel pos : Nat}
    (hfuel : file.length - pos ≤ fuel) :
    (∃ hi, file.length ≤ hi ∧ Tiles file pos (scan lib file fuel pos) hi) ∧
      ∀ c ∈ scan lib file fuel pos, c.WellFormed lib := by
  induction fuel generalizing pos with
  | zero => exact ⟨⟨pos, by omega, rfl⟩, by simp [scan]⟩
  | succ fuel ih =>
    rw [scan]
    split
    case isFalse hpos => exact ⟨⟨pos, by omega, rfl⟩, by simp⟩
    case isTrue hpos =>
    split
    case isTrue hmagic =>
      split
      case isTrue hshort =>
        refine ⟨⟨file.length, Nat.le_refl _, rfl, rfl, ?_⟩, ?_⟩
        · show pos + (file.length - pos) = file.length
          omega
        · rw [List.forall_mem_singleton]
          exact ⟨rfl, by dsimp only; omega, .inl rfl⟩
      case isFalse hlong =>
        have hheader : ImageChunk.WellFormed lib
            { type := .normal, start := pos, file, rawDataLen := GZIP_HEADER_LEN } :=
          ⟨rfl, Nat.zero_lt_succ _, .inl rfl⟩
        have h18 : GZIP_HEADER_LEN + GZIP_FOOTER_LEN = 18 := rfl
        have h10 : GZIP_HEADER_LEN = 10 := rfl
        simp only
        split
        case h_1 =>
          obtain ⟨⟨hi, hhi, htiles⟩, hwf⟩ :=
            ih (show file.length - (pos + GZIP_HEADER_LEN) ≤ fuel by omega)
          refine ⟨⟨hi, hhi, rfl, rfl, htiles⟩, ?_⟩
          rw [List.forall_mem_cons]
          exact ⟨hheader, hwf⟩
        case h_2 rawDataLen data hdeflate =>
          obtain ⟨hrawpos, hle, hinf, hdata⟩ := deflateAt_eq_some laws hlt hdeflate
          obtain ⟨⟨hi, hhi, htiles⟩, hwf⟩ := ih (show file.length -
            (pos + GZIP_HEADER_LEN + rawDataLen + GZIP_FOOTER_LEN) ≤ fuel by omega)
          refine ⟨⟨hi, hhi, rfl, rfl, rfl, rfl, rfl, rfl, htiles⟩, ?_⟩
          rw [List.forall_mem_cons, List.forall_mem_cons, List.forall_mem_cons]
          exact ⟨hheader, ⟨rfl, hrawpos, .inr ⟨rfl, hle, ⟨_, hinf⟩, hdata⟩⟩,
            ⟨rfl, Nat.zero_lt_succ _, .inl rfl⟩, hwf⟩
    case isFalse hmagic =>
      have hnormal := normalLen_pos hpos (by simpa using hmagic)
      obtain ⟨⟨hi, hhi, htiles⟩, hwf⟩ := ih (show file.length -
        (pos + normalLen file pos (file.length - pos) 0) ≤ fuel by omega)
      refine ⟨⟨hi, hhi, rfl, rfl, htiles⟩, ?_⟩
      rw [List.forall_mem_cons]
      exact ⟨⟨rfl, hnormal, .inl rfl⟩, hwf⟩

/-! ## Parallel lists -/

/-- `MergeAdjacentNormalChunks` on both images at once. -/
def mergePairsFrom (cur : ImageChunk × ImageChunk) :
    List (ImageChunk × ImageChunk) → List (ImageChunk × ImageChunk)
  | [] => [cur]
  | p :: ps =>
    if cur.1.type = .normal ∧ p.1.type = .normal then
      mergePairsFrom (cur.1.mergeAdjacentNormal p.1, cur.2.mergeAdjacentNormal p.2) ps
    else cur :: mergePairsFrom p ps

def mergePairs : List (ImageChunk × ImageChunk) → List (ImageChunk × ImageChunk)
  | [] => []
  | p :: ps => mergePairsFrom p ps

section
variable {cur : ImageChunk × ImageChunk} {ps : List (ImageChunk × ImageChunk)} {lo hi : Nat}

theorem map_fst_mergePairsFrom (h : Tiles file lo ((cur :: ps).map Prod.fst) hi) :
    (mergePairsFrom cur ps).map Prod.fst = mergeFrom cur.1 (ps.map Prod.fst) := by
  induction ps generalizing cur lo with
  | nil => rfl
  | cons p ps ih =>
    rw [mergePairsFrom, List.map_cons, mergeFrom, Tiles.isAdjacentNormal h]
    simp only [Bool.and_eq_true, decide_eq_true_eq]
    split
    · exact ih h.merge_head
    · rw [List.map_cons, ih h.2.2]

theorem map_snd_mergePairsFrom (h : Tiles file lo ((cur :: ps).map Prod.snd) hi)
    (htype : ∀ p ∈ cur :: ps, p.1.type = p.2.type) :
    (mergePairsFrom cur ps).map Prod.snd = mergeFrom cur.2 (ps.map Prod.snd) := by
  induction ps generalizing cur lo with
  | nil => rfl
  | cons p ps ih =>
    have hcur := htype cur List.mem_cons_self
    have hp := htype p (by simp)
    have hps : ∀ q ∈ p :: ps, q.1.type = q.2.type := fun q hq => htype q (List.mem_cons_of_mem _ hq)
    rw [mergePairsFrom, List.map_cons, mergeFrom, Tiles.isAdjacentNormal h, hcur, hp]
    simp only [Bool.and_eq_true, decide_eq_true_eq]
    split
    · apply ih h.merge_head
      rw [List.forall_mem_cons] at hps ⊢
      exact ⟨hcur, hps.2⟩
    · rw [List.map_cons, ih h.2.2 hps]

/-- What holds of all pairs, and of two normal pairs as one, holds after the merge. -/
theorem forall_mem_mergePairsFrom {P : ImageChunk × ImageChunk → Prop}
    (hmerge : ∀ p q : ImageChunk × ImageChunk, P p → P q → p.1.type = .normal → q.1.type = .normal →
      P (p.1.mergeAdjacentNormal q.1, p.2.mergeAdjacentNormal q.2))
    (h : ∀ p ∈ cur :: ps, P p) : ∀ p ∈ mergePairsFrom cur ps, P p := by
  induction ps generalizing cur with
  | nil => exact h
  | cons q ps ih =>
    rw [List.forall_mem_cons] at h
    obtain ⟨hcur, hq⟩ := h
    rw [mergePairsFrom]
    split
    · rename_i hnormal
      apply ih
      rw [List.forall_mem_cons] at hq ⊢
      exact ⟨hmerge cur q hcur hq.1 hnormal.1 hnormal.2, hq.2⟩
    · rw [List.forall_mem_cons]
      exact ⟨hcur, ih hq⟩

theorem forall_mem_mergePairs {P : ImageChunk × ImageChunk → Prop}
    (hmerge : ∀ p q : ImageChunk × ImageChunk, P p → P q → p.1.type = .normal → q.1.type = .normal →
      P (p.1.mergeAdjacentNormal q.1, p.2.mergeAdjacentNormal q.2))
    (h : ∀ p ∈ ps, P p) : ∀ p ∈ mergePairs ps, P p := by
  cases ps with
  | nil => exact h
  | cons p ps => exact forall_mem_mergePairsFrom hmerge h

theorem mem_mergePairsFrom_of_deflate {p : ImageChunk × ImageChunk} (hp : p.1.type = .deflate) :
    p ∈ mergePairsFrom cur ps ↔ p ∈ cur :: ps := by
  induction ps generalizing cur with
  | nil => rfl
  | cons q ps ih =>
    rw [mergePairsFrom]
    split
    · rename_i hnormal
      have hne : ∀ r : ImageChunk × ImageChunk, r.1.type = .normal → p ≠ r := by
        rintro r hr rfl
        rw [hp] at hr
        cases hr
      have hcur := hne cur hnormal.1
      have hq := hne q hnormal.2
      have hboth := hne (cur.1.mergeAdjacentNormal q.1, cur.2.mergeAdjacentNormal q.2) hnormal.1
      rw [ih]
      simp only [List.mem_cons, hcur, hq, hboth, false_or]
    · rw [List.mem_cons, ih, List.mem_cons (l := q :: ps)]

theorem mem_mergePairs_of_deflate {p : ImageChunk × ImageChunk} (hp : p.1.type = .deflate) :
    p ∈ mergePairs ps ↔ p ∈ ps := by
  cases ps with
  | nil => rfl
  | cons q ps => exact mem_mergePairsFrom_of_deflate hp

theorem map_mergePairs {file' : List UInt8} {lo' hi' : Nat}
    (hfst : Tiles file lo (ps.map Prod.fst) hi) (hsnd : Tiles file' lo' (ps.map Prod.snd) hi')
    (htype : ∀ p ∈ ps, p.1.type = p.2.type) :
    (mergePairs ps).map Prod.fst = mergeAdjacentNormalChunks (ps.map Prod.fst) ∧
      (mergePairs ps).map Prod.snd = mergeAdjacentNormalChunks (ps.map Prod.snd) := by
  cases ps with
  | nil => exact ⟨rfl, rfl⟩
  | cons p ps => exact ⟨map_fst_mergePairsFrom hfst, map_snd_mergePairsFrom hsnd htype⟩

end

/-! ## Processing -/

/-- The patcher has to make a deflate stream without data for this target chunk: it is not that of
the source, and it can be reconstructed. -/
def MakesEmptyStream (lib : Lib) (tgt src : ImageChunk) : Prop :=
  tgt.type = .deflate ∧ tgt.uncompressedData = [] ∧ tgt.raw ≠ src.raw ∧
    (tgt.reconstructDeflateChunk lib).isSome

/-- What `CheckAndProcessChunks` makes of a target and a source chunk. -/
structure Processed (laws : lib.Lawful) (p p' : ImageChunk × ImageChunk) : Prop where
  tgt : p'.1.file = p.1.file ∧ p'.1.start = p.1.start ∧ p'.1.rawDataLen = p.1.rawDataLen
  src : p'.2.file = p.2.file ∧ p'.2.start = p.2.start ∧ p'.2.rawDataLen = p.2.rawDataLen
  type : p'.1.type = p'.2.type
  level : p'.1.compressLevel = 6 ∨ p'.1.compressLevel = 9
  kind : p'.1.type = .normal ∨ p'.1.type = .deflate ∧ p.1.type = .deflate ∧ p'.2 = p.2 ∧
    p'.1.uncompressedData.length < 2 ^ 32 ∧
    laws.oneShot p'.1.compressLevel p'.1.uncompressedData = p'.1.raw
  empty : p'.1.type = .deflate ∧ p'.1.uncompressedData = [] ↔ MakesEmptyStream lib p.1 p.2

theorem equals_eq_ok {tgt src : ImageChunk} {b : Bool} (htype : tgt.type = src.type)
    (h : tgt.equals src = .ok b) (htgt : tgt.start + tgt.rawDataLen ≤ tgt.file.length)
    (hsrc : src.start + src.rawDataLen ≤ src.file.length) : b = true ↔ tgt.raw = src.raw := by
  rw [ImageChunk.equals, if_neg (not_not.mpr htype)] at h
  split at h
  · rename_i hlen
    cases h
    refine ⟨fun h => absurd h (by decide), fun hraw => absurd ?_ hlen⟩
    rw [← ImageChunk.length_raw htgt, ← ImageChunk.length_raw hsrc, hraw]
  · rw [ImageChunk.getRawData, ImageChunk.getRawData, if_pos htgt, if_pos hsrc] at h
    simp only [bind, Except.bind, pure, Except.pure, Except.ok.injEq] at h
    rw [← h, decide_eq_true_eq]

theorem processChunks_spec (laws : lib.Lawful) {tgt src : ImageChunk} {p' : ImageChunk × ImageChunk}
    (htgt : tgt.WellFormed lib) (hsrc : src.WellFormed lib) (htype : tgt.type = src.type)
    (h : processChunks lib tgt src = .ok p') : Processed laws (tgt, src) p' := by
  rw [processChunks] at h
  rcases htgt.kind with hnormal | ⟨hdeflate, hle, -, hlt⟩
  · rw [if_pos (by simp [hnormal])] at h
    cases h
    exact ⟨⟨rfl, rfl, rfl⟩, ⟨rfl, rfl, rfl⟩, htype, .inl htgt.level, .inl hnormal,
      by simp [MakesEmptyStream, hnormal]⟩
  · rcases hsrc.kind with hsnormal | ⟨hsdeflate, hsle, -⟩
    · rw [hdeflate, hsnormal] at htype
      cases htype
    · rw [if_neg (not_not.mpr hdeflate)] at h
      cases heq : tgt.equals src with
      | error fault => rw [heq] at h; cases h
      | ok b =>
        have hraw := equals_eq_ok htype heq hle hsle
        have hboth : tgt.changeDeflateChunkToNormal.type = .normal ∧
            src.changeDeflateChunkToNormal.type = .normal := by
          simp [ImageChunk.changeDeflateChunkToNormal, hdeflate, hsdeflate]
        have hnormal : ∀ {q : ImageChunk × ImageChunk},
            q = (tgt.changeDeflateChunkToNormal, src.changeDeflateChunkToNormal) →
            ¬ MakesEmptyStream lib tgt src → Processed laws (tgt, src) q := by
          rintro q rfl hnot
          refine ⟨?_, ?_, hboth.1.trans hboth.2.symm, .inl ?_, .inl hboth.1, ?_⟩
          · simp [ImageChunk.changeDeflateChunkToNormal, hdeflate]
          · simp [ImageChunk.changeDeflateChunkToNormal, hsdeflate]
          · simp [ImageChunk.changeDeflateChunkToNormal, hdeflate, htgt.level]
          · simp [hboth.1, hnot]
        simp only [heq, bind, Except.bind] at h
        cases b with
        | true =>
          cases h
          exact hnormal rfl fun hempty => hempty.2.2.1 (hraw.mp rfl)
        | false =>
          simp only [Bool.false_eq_true, if_false] at h
          cases hrec : tgt.reconstructDeflateChunk lib with
          | none =>
            rw [hrec] at h
            cases h
            exact hnormal rfl fun hempty => by simp [MakesEmptyStream, hrec] at hempty
          | some tgt' =>
            rw [hrec] at h
            cases h
            obtain ⟨-, level, hlevel, rfl, hone⟩ :=
              ImageChunk.reconstructDeflateChunk_eq_some laws hle hlt hrec
            have hne : tgt.raw ≠ src.raw := fun h => absurd (hraw.mpr h) (by decide)
            exact ⟨⟨rfl, rfl, rfl⟩, ⟨rfl, rfl, rfl⟩, htype, hlevel,
              .inr ⟨hdeflate, hdeflate, rfl, hlt, hone⟩,
              by simp [MakesEmptyStream, hdeflate, hrec, hne]⟩

theorem checkAndProcessChunks_eq_ok {tgt src tgt' src' : List ImageChunk}
    (h : checkAndProcessChunks lib tgt src = .ok (tgt', src')) :
    ∃ pairs, ((mergeAdjacentNormalChunks tgt).zip (mergeAdjacentNormalChunks src)).mapM
        (fun c => processChunks lib c.1 c.2) = .ok pairs ∧
      (mergeAdjacentNormalChunks tgt).length = (mergeAdjacentNormalChunks src).length ∧
      (∀ p ∈ (mergeAdjacentNormalChunks tgt).zip (mergeAdjacentNormalChunks src),
        p.1.type = p.2.type) ∧
      tgt' = mergeAdjacentNormalChunks (pairs.map Prod.fst) ∧
      src' = mergeAdjacentNormalChunks (pairs.map Prod.snd) := by
  unfold checkAndProcessChunks at h
  simp only at h
  split at h
  · cases h
  · rename_i hlen
    split at h
    · cases h
    · rename_i htypes
      cases hpairs : ((mergeAdjacentNormalChunks tgt).zip (mergeAdjacentNormalChunks src)).mapM
          fun c => processChunks lib c.1 c.2 with
      | error fault => simp [hpairs, bind, Except.bind] at h
      | ok pairs =>
        simp only [hpairs, bind, Except.bind] at h
        split at h
        · cases h
        · cases h
          refine ⟨pairs, rfl, not_not.mp hlen, ?_, rfl, rfl⟩
          intro p hp
          by_contra hne
          exact htypes (List.any_eq_true.mpr ⟨p, hp, by simpa using hne⟩)

/-- The chunks of both images after `CheckAndProcessChunks`, side by side. -/
structure Aligned (laws : lib.Lawful) (srcFile tgtFile : List UInt8)
    (pairs : List (ImageChunk × ImageChunk)) : Prop where
  tiles : ∃ hi, tgtFile.length ≤ hi ∧ Tiles tgtFile 0 (pairs.map Prod.fst) hi
  pos : ∀ p ∈ pairs, 0 < p.1.rawDataLen
  tgt : ∀ p ∈ pairs, p.1.type = .deflate → p.1.start + p.1.rawDataLen ≤ tgtFile.length
  src : ∀ p ∈ pairs, p.2.type = .deflate → p.2 ∈ initializeImage lib srcFile
  matched : ∀ p ∈ pairs, Matched laws srcFile id [] p.1 p.2
  empty : (∀ p ∈ pairs, ¬ (p.1.type = .deflate ∧ p.1.uncompressedData = [])) ↔
    ∀ p ∈ (mergeAdjacentNormalChunks (initializeImage lib tgtFile)).zip
      (mergeAdjacentNormalChunks (initializeImage lib srcFile)), ¬ MakesEmptyStream lib p.1 p.2

section
variable {laws : lib.Lawful} {srcFile tgtFile : List UInt8} {pairs : List (ImageChunk × ImageChunk)}

theorem Matched.of_processed {p p' : ImageChunk × ImageChunk} (h : Processed laws p p')
    (hsrc : p.2.WellFormed lib) (hfile : p.2.file = srcFile) :
    Matched laws srcFile id [] p'.1 p'.2 := by
  refine ⟨h.level, ?_⟩
  have htype := h.type
  rcases h.kind with hnormal | ⟨hdeflate, -, heq, hlt, hone⟩
  · exact .inl ⟨hnormal, htype ▸ hnormal, h.src.1.trans hfile⟩
  · rw [hdeflate, heq] at htype
    rcases hsrc.kind with hnormal | ⟨-, hle, ⟨used, hinf⟩, hslt⟩
    · rw [hnormal] at htype
      cases htype
    · rw [heq]
      refine .inr ⟨hdeflate, htype.symm, hlt, hone, hfile ▸ hle, ⟨p.2.uncompressedData, used, ?_,
        (List.append_nil _).symm⟩, hslt⟩
      rw [← hfile]
      exact hinf

theorem forall₂_processed (laws : lib.Lawful) (hsrc : srcFile.length < 2 ^ 32)
    (htgt : tgtFile.length < 2 ^ 32)
    (htypes : ∀ p ∈ (mergeAdjacentNormalChunks (initializeImage lib tgtFile)).zip
      (mergeAdjacentNormalChunks (initializeImage lib srcFile)), p.1.type = p.2.type)
    (h : ((mergeAdjacentNormalChunks (initializeImage lib tgtFile)).zip
      (mergeAdjacentNormalChunks (initializeImage lib srcFile))).mapM
        (fun c => processChunks lib c.1 c.2) = .ok pairs) :
    List.Forall₂ (Processed laws) ((mergeAdjacentNormalChunks (initializeImage lib tgtFile)).zip
      (mergeAdjacentNormalChunks (initializeImage lib srcFile))) pairs := by
  have htgtWf := ImageChunk.WellFormed.mergeAdjacentNormalChunks
    (scan_spec laws htgt (Nat.le_refl (tgtFile.length - 0))).2
  have hsrcWf := ImageChunk.WellFormed.mergeAdjacentNormalChunks
    (scan_spec laws hsrc (Nat.le_refl (srcFile.length - 0))).2
  have hwf : ∀ p ∈ (mergeAdjacentNormalChunks (initializeImage lib tgtFile)).zip
      (mergeAdjacentNormalChunks (initializeImage lib srcFile)),
      p.1.WellFormed lib ∧ p.2.WellFormed lib ∧ p.1.type = p.2.type := by
    intro p hp
    obtain ⟨hp₁, hp₂⟩ := List.of_mem_zip hp
    exact ⟨htgtWf p.1 hp₁, hsrcWf p.2 hp₂, htypes p hp⟩
  apply ((List.forall₂_and_left _ _).mpr ⟨hwf, forall₂_of_mapM h⟩).imp
  rintro p p' ⟨⟨hp₁, hp₂, htype⟩, hprocess⟩
  exact processChunks_spec laws hp₁ hp₂ htype hprocess

theorem aligned_of_processed (hsrc : srcFile.length < 2 ^ 32) (htgt : tgtFile.length < 2 ^ 32)
    (hlen : (mergeAdjacentNormalChunks (initializeImage lib tgtFile)).length =
      (mergeAdjacentNormalChunks (initializeImage lib srcFile)).length)
    (hpairs : List.Forall₂ (Processed laws)
      ((mergeAdjacentNormalChunks (initializeImage lib tgtFile)).zip
        (mergeAdjacentNormalChunks (initializeImage lib srcFile))) pairs) :
    (mergePairs pairs).map Prod.fst = mergeAdjacentNormalChunks (pairs.map Prod.fst) ∧
    (mergePairs pairs).map Prod.snd = mergeAdjacentNormalChunks (pairs.map Prod.snd) ∧
    Aligned laws srcFile tgtFile (mergePairs pairs) := by
  have hempties := forall_mem_iff_of_forall₂ hpairs fun _ _ _ h => not_congr h.empty.symm
  obtain ⟨⟨tgtHi, htgtHi, htgtTiles⟩, htgtWf⟩ :=
    scan_spec laws htgt (Nat.le_refl (tgtFile.length - 0))
  obtain ⟨⟨srcHi, -, hsrcTiles⟩, hsrcWf⟩ := scan_spec laws hsrc (Nat.le_refl (srcFile.length - 0))
  have hsrcMem : ∀ c ∈ mergeAdjacentNormalChunks (initializeImage lib srcFile),
      c.type = .deflate → c ∈ initializeImage lib srcFile := fun c hc htype =>
    (mem_mergeAdjacentNormalChunks_of_ne_normal (by simp [htype])).mp hc
  replace htgtTiles := htgtTiles.mergeAdjacentNormalChunks
  replace hsrcTiles := hsrcTiles.mergeAdjacentNormalChunks
  replace htgtWf := ImageChunk.WellFormed.mergeAdjacentNormalChunks htgtWf
  replace hsrcWf := ImageChunk.WellFormed.mergeAdjacentNormalChunks hsrcWf
  simp only [initializeImage, Nat.sub_zero]
    at htgtTiles hsrcTiles htgtWf hsrcWf hsrcMem hpairs hlen ⊢
  generalize mergeAdjacentNormalChunks (scan lib tgtFile tgtFile.length 0) = tgt at *
  generalize mergeAdjacentNormalChunks (scan lib srcFile srcFile.length 0) = src at *
  have hmem : ∀ p ∈ tgt.zip src, p.1 ∈ tgt ∧ p.2 ∈ src := fun p hp => List.of_mem_zip hp
  have hfst : Tiles tgtFile 0 (pairs.map Prod.fst) tgtHi := by
    rw [← List.map_fst_zip (Nat.le_of_eq hlen)] at htgtTiles
    apply htgtTiles.congr
    rw [List.forall₂_map_left_iff, List.forall₂_map_right_iff]
    exact hpairs.imp fun _ _ h => h.tgt
  have hsnd : Tiles srcFile 0 (pairs.map Prod.snd) srcHi := by
    rw [← List.map_snd_zip (Nat.le_of_eq hlen.symm)] at hsrcTiles
    apply hsrcTiles.congr
    rw [List.forall₂_map_left_iff, List.forall₂_map_right_iff]
    exact hpairs.imp fun _ _ h => h.src
  have hall : ∀ p' ∈ pairs, p'.1.type = p'.2.type ∧ 0 < p'.1.rawDataLen ∧
      (p'.1.type = .deflate → p'.1.start + p'.1.rawDataLen ≤ tgtFile.length) ∧
      (p'.2.type = .deflate → p'.2 ∈ scan lib srcFile srcFile.length 0) ∧
      Matched laws srcFile id [] p'.1 p'.2 := by
    refine (forall_mem_iff_of_forall₂ hpairs (P := fun _ => True) ?_).mp fun _ _ => trivial
    intro p hp p' h
    obtain ⟨hp₁, hp₂⟩ := hmem p hp
    have hdeflate : p'.1.type = .deflate → p.1.type = .deflate ∧ p'.2 = p.2 := by
      intro htype
      rcases h.kind with hnormal | ⟨-, hdeflate, heq, -⟩
      · rw [htype] at hnormal
        cases hnormal
      · exact ⟨hdeflate, heq⟩
    refine ⟨fun _ => ⟨h.type, ?_, ?_, ?_, ?_⟩, fun _ => trivial⟩
    · rw [h.tgt.2.2]
      exact (htgtWf p.1 hp₁).pos
    · intro htype
      rcases (htgtWf p.1 hp₁).kind with hnormal | ⟨-, hle, -⟩
      · rw [(hdeflate htype).1] at hnormal
        cases hnormal
      · rwa [h.tgt.2.1, h.tgt.2.2, ← (htgtTiles.of_mem hp₁).1]
    · intro htype
      have heq := (hdeflate (h.type.trans htype)).2
      rw [heq] at htype ⊢
      exact hsrcMem p.2 hp₂ htype
    · exact Matched.of_processed h (hsrcWf p.2 hp₂) (hsrcTiles.of_mem hp₂).1
  obtain ⟨hmfst, hmsnd⟩ := map_mergePairs hfst hsnd fun p hp => (hall p hp).1
  have hmerged := forall_mem_mergePairs (fun p q hp hq hp₁ hq₁ => ?_) hall
  · refine ⟨hmfst, hmsnd, ⟨tgtHi, htgtHi, hmfst ▸ hfst.mergeAdjacentNormalChunks⟩,
      fun p hp => (hmerged p hp).2.1, fun p hp => (hmerged p hp).2.2.1,
      fun p hp => (hmerged p hp).2.2.2.1, fun p hp => (hmerged p hp).2.2.2.2, ?_⟩
    rw [hempties]
    constructor
    · intro h p hp hempty
      exact h p ((mem_mergePairs_of_deflate hempty.1).mpr hp) hempty
    · intro h p hp hempty
      exact h p ((mem_mergePairs_of_deflate hempty.1).mp hp) hempty
  · -- two normal pairs as one
    obtain ⟨hptype, hppos, -, -, hplevel, hpm⟩ := hp
    have hp₂ : p.2.type = .normal := hptype ▸ hp₁
    have hpfile : p.2.file = srcFile := by
      rcases hpm with ⟨-, -, hfile⟩ | ⟨htype, -⟩
      · exact hfile
      · rw [hp₁] at htype
        cases htype
    refine ⟨hptype, Nat.add_pos_left hppos _, ?_, ?_, hplevel, .inl ⟨hp₁, hp₂, hpfile⟩⟩
    · intro htype
      rw [show p.1.type = .deflate from htype] at hp₁
      cases hp₁
    · intro htype
      rw [show p.2.type = .deflate from htype] at hp₂
      cases hp₂

/-! ## The round trip -/

theorem setBonusData_eq_ok {src src' : List ImageChunk} {bonus : List UInt8}
    (h : setBonusData src bonus = .ok src') : ∃ c₀ c₁ cs, src = c₀ :: c₁ :: cs ∧
      c₁.type = .deflate ∧
      src' = c₀ :: { c₁ with uncompressedData := c₁.uncompressedData ++ bonus } :: cs := by
  unfold setBonusData at h
  split at h
  · rename_i c₀ c₁ cs
    rw [ImageChunk.setBonusData] at h
    by_cases htype : c₁.type = .deflate
    · rw [if_pos htype] at h
      cases h
      exact ⟨c₀, c₁, cs, rfl, htype, rfl⟩
    · rw [if_neg htype] at h
      cases h
  · cases h

theorem zip_map_fst_snd {α β : Type} (l : List (α × β)) :
    (l.map Prod.fst).zip (l.map Prod.snd) = l := by
  induction l with
  | nil => rfl
  | cons p l ih => rw [List.map_cons, List.map_cons, List.zip_cons_cons, ih]

/-- With the bonus data in the second source chunk, the chunks are still matched. -/
theorem Aligned.matchedFrom {bonus : Option (List UInt8)} {src' : List ImageChunk}
    (h : Aligned laws srcFile tgtFile pairs)
    (hbonus : ∀ c ∈ initializeImage lib srcFile,
      c.uncompressedData.length + (bonus.getD []).length < 2 ^ 32)
    (hset : (if bonus.getD [] ≠ [] then setBonusData (pairs.map Prod.snd) (bonus.getD [])
      else pure (pairs.map Prod.snd)) = .ok src') :
    ((pairs.map Prod.fst).zip src').map Prod.fst = pairs.map Prod.fst ∧
      MatchedFrom laws srcFile id bonus 0 ((pairs.map Prod.fst).zip src') := by
  split at hset
  · obtain ⟨c₀, c₁, cs, heq, htype, rfl⟩ := setBonusData_eq_ok hset
    obtain ⟨p₀, ps, rfl, rfl, hps⟩ := List.map_eq_cons_iff.mp heq
    obtain ⟨p₁, ps, rfl, rfl, rfl⟩ := List.map_eq_cons_iff.mp hps
    refine ⟨by simp [List.map_fst_zip], ?_⟩
    rw [List.map_cons, List.map_cons, List.zip_cons_cons, List.zip_cons_cons, zip_map_fst_snd]
    have h₀ := h.matched p₀ (by simp)
    obtain ⟨hlevel, h₁⟩ := h.matched p₁ (by simp)
    have hrest : MatchedFrom laws srcFile id bonus 2 ps := by
      apply MatchedFrom.of_forall
      intro p hp j hj
      rw [bonusAt, if_neg (by omega)]
      exact h.matched p (by simp [hp])
    refine ⟨h₀, ⟨hlevel, ?_⟩, hrest⟩
    rcases h₁ with ⟨-, hnormal, -⟩ | ⟨htgt, hsrc, hlt, hone, hle, ⟨data, used, hinf, hdata⟩, -⟩
    · rw [htype] at hnormal
      cases hnormal
    · refine .inr ⟨htgt, hsrc, hlt, hone, hle, ⟨data, used, hinf, ?_⟩, ?_⟩
      · rw [List.append_nil] at hdata
        simp [bonusAt, hdata]
      · have := hbonus p₁.2 (h.src p₁ (by simp) htype)
        rwa [List.length_append]
  · rename_i hnil
    cases hset
    rw [zip_map_fst_snd]
    refine ⟨rfl, MatchedFrom.of_forall ?_⟩
    intro p hp i _
    rw [bonusAt, not_not.mp hnil, ite_self]
    exact h.matched p hp

theorem generatePatches_eq_ok {tgt src : List ImageChunk} {patch : List UInt8}
    (h : generatePatches lib tgt src = .ok patch) :
    ∃ cs, List.Forall₂ (fun (p : ImageChunk × ImageChunk) c =>
        PatchChunk.generate lib p.1 p.2 = .ok c) (tgt.zip src) cs ∧
      patch = PatchChunk.writePatchDataToFd cs := by
  unfold generatePatches at h
  cases hgen : (tgt.zip src).mapM fun c => PatchChunk.generate lib c.1 c.2 with
  | error fault => simp [hgen, bind, Except.bind] at h
  | ok cs =>
    simp only [hgen, bind, Except.bind, pure, Except.pure, Except.ok.injEq] at h
    exact ⟨cs, forall₂_of_mapM hgen, h.symm⟩

theorem scanImage_eq_ok {file : List UInt8} {cs : List ImageChunk}
    (h : scanImage lib file = .ok cs) : cs = initializeImage lib file := by
  unfold scanImage at h
  split at h
  · cases h
  · cases h
    rfl

theorem imgdiff_eq_ok {bonus : Option (List UInt8)} {patch : List UInt8}
    (h : imgdiff lib srcFile tgtFile bonus = .ok patch) :
    ∃ tgt src src', checkAndProcessChunks lib (initializeImage lib tgtFile)
        (initializeImage lib srcFile) = .ok (tgt, src) ∧
      (if bonus.getD [] ≠ [] then setBonusData src (bonus.getD []) else pure src) = .ok src' ∧
      generatePatches lib tgt src' = .ok patch := by
  unfold imgdiff at h
  obtain ⟨src, hsrc, h⟩ := bind_eq_ok.mp h
  obtain ⟨tgt, htgt, h⟩ := bind_eq_ok.mp h
  rw [scanImage_eq_ok hsrc, scanImage_eq_ok htgt] at h
  cases hcheck : checkAndProcessChunks lib (initializeImage lib tgtFile)
      (initializeImage lib srcFile) with
  | error fault => simp [hcheck, bind, Except.bind] at h
  | ok r =>
    obtain ⟨tgt, src⟩ := r
    simp only [hcheck, bind, Except.bind] at h
    by_cases hb : bonus.getD [] ≠ []
    · rw [if_pos hb] at h
      cases hset : setBonusData src (bonus.getD []) with
      | error fault => rw [hset] at h; cases h
      | ok src' =>
        rw [hset] at h
        exact ⟨tgt, src, src', rfl, by rw [if_pos hb, hset], h⟩
    · rw [if_neg hb] at h
      exact ⟨tgt, src, src, rfl, by rw [if_neg hb]; rfl, h⟩

/-- The patch gives the target, unless the patcher has to make a deflate stream without data. -/
theorem applyImagePatch_imgdiff (laws : lib.Lawful) {bonus : Option (List UInt8)}
    {patch : List UInt8}
    (hsrc : srcFile.length < 2 ^ 31) (htgt : tgtFile.length < 2 ^ 31)
    (hpatch : patch.length < 2 ^ 63) (hbonus : ∀ c ∈ initializeImage lib srcFile,
      c.uncompressedData.length + (bonus.getD []).length < 2 ^ 32)
    (h : imgdiff lib srcFile tgtFile bonus = .ok patch) :
    ((applyImagePatch lib srcFile patch bonus memorySink ⟨[], []⟩).1 = .ok () ∧
      (applyImagePatch lib srcFile patch bonus memorySink ⟨[], []⟩).2.sink = tgtFile) ↔
    ∀ p ∈ (mergeAdjacentNormalChunks (initializeImage lib tgtFile)).zip
      (mergeAdjacentNormalChunks (initializeImage lib srcFile)),
      ¬ MakesEmptyStream lib p.1 p.2 := by
  obtain ⟨tgt, src, src', hcheck, hset, hgen⟩ := imgdiff_eq_ok h
  obtain ⟨cs, hcs, rfl⟩ := generatePatches_eq_ok hgen
  obtain ⟨pairs, hpairs, hlen, htypes, rfl, rfl⟩ := checkAndProcessChunks_eq_ok hcheck
  have hprocessed := forall₂_processed laws (by omega) (by omega) htypes hpairs
  obtain ⟨hfst, hsnd, haligned⟩ := aligned_of_processed (by omega) (by omega) hlen hprocessed
  rw [← hsnd] at hset
  rw [← hfst] at hcs
  obtain ⟨hmap, hmatched⟩ := haligned.matchedFrom hbonus hset
  obtain ⟨hi, hhi, htiles⟩ := haligned.tiles
  rw [← haligned.empty]
  generalize mergePairs pairs = merged at *
  have hmem : ∀ p ∈ (merged.map Prod.fst).zip src', ∃ q ∈ merged, q.1 = p.1 := fun p hp =>
    List.mem_map.mp (List.of_mem_zip hp).1
  have hfile : ∀ p ∈ (merged.map Prod.fst).zip src', p.1.file = tgtFile := fun p hp =>
    (htiles.of_mem (List.of_mem_zip hp).1).1
  obtain ⟨hyields, hsized, hempty⟩ := hmatched.yieldsFrom (by omega) htgt hfile hcs
  rw [PatchChunk.relocate_id, List.map_id] at hyields hsized hempty
  -- every chunk is in the file, or there were no patch for it
  have hin : ∀ p ∈ (merged.map Prod.fst).zip src', p.1.start + p.1.rawDataLen ≤ tgtFile.length := by
    refine (forall_mem_iff_of_forall₂ hcs (Q := fun _ => True) ?_).mpr fun _ _ => trivial
    intro p hp c hc
    refine ⟨fun _ => trivial, fun _ => ?_⟩
    obtain ⟨q, hq, hqp⟩ := hmem p hp
    rcases (haligned.matched q hq).2 with ⟨hnormal, -⟩ | ⟨hdeflate, -⟩
    · rw [hqp] at hnormal
      exact hfile p hp ▸ ImageChunk.le_of_generate hnormal hc
    · rw [← hqp]
      exact haligned.tgt q hq hdeflate
  rw [← hmap] at htiles
  have hhi' : hi = tgtFile.length := by
    apply Nat.le_antisymm _ hhi
    apply htiles.hi_le (Nat.zero_le _)
    intro c hc
    obtain ⟨p, hp, rfl⟩ := List.mem_map.mp hc
    exact hin p hp
  have hflatten := htiles.flatten_raw
  rw [hhi', List.drop_zero, Nat.sub_zero, List.take_length, List.map_map] at hflatten
  have hcount : cs.length < 2 ^ 31 := by
    have hle := htiles.length_le (by
      rw [hmap]
      intro c hc
      obtain ⟨q, hq, rfl⟩ := List.mem_map.mp hc
      exact haligned.pos q hq)
    rw [List.length_map, hcs.length_eq] at hle
    omega
  have hround := applyImagePatch_writePatchDataToFd_iff (by omega) hsized hcount hpatch hyields
  rw [show (((merged.map Prod.fst).zip src').map fun p => p.1.raw).flatten = tgtFile from hflatten]
    at hround
  rw [hround, hempty]
  -- the target chunks are those of the merged pairs
  constructor
  · intro h q hq
    have : q.1 ∈ ((merged.map Prod.fst).zip src').map Prod.fst := by
      rw [hmap]
      exact List.mem_map_of_mem hq
    obtain ⟨p, hp, hpq⟩ := List.mem_map.mp this
    rw [← hpq]
    exact h p hp
  · intro h p hp
    obtain ⟨q, hq, hqp⟩ := hmem p hp
    rw [← hqp]
    exact h q hq

/-- A gzip member: its header, a deflate stream, the checksum and the size. -/
def gzipMember (stream checksum : List UInt8) (size : Nat) : List UInt8 :=
  [0x1f, 0x8b, 0x08, 0x00, 0x00, 0x00, 0x00, 0x00, 0x00, 0x03] ++ stream ++ checksum ++
  leBytes 4 size

/-- `"a"`, `"b"` and nothing, as gzip writes them. -/
def gzipA : List UInt8 := gzipMember [0x4b, 0x04, 0x00] [0x43, 0xbe, 0xb7, 0xe8] 1

def gzipB : List UInt8 := gzipMember [0x4b, 0x02, 0x00] [0xf9, 0xef, 0xbe, 0x71] 1

def gzipNil : List UInt8 := gzipMember [0x03, 0x00] [0x00, 0x00, 0x00, 0x00] 0

instance : DecidablePred fun p : ImageChunk × ImageChunk => MakesEmptyStream lib p.1 p.2 :=
  fun _ => inferInstanceAs (Decidable (_ ∧ _ ∧ _ ∧ _))

/-- The patch from `gzipA` to a member with the deflate stream of `data`. -/
def gzipPatch (footer data : List UInt8) : List UInt8 :=
  PatchChunk.writePatchDataToFd
    [⟨.raw, 0, 0, 0, 0, 10, 10, 6, gzipA.take 10⟩,
      ⟨.deflate, 10, 3, 1, 10, (sampleDeflate data).length, data.length, 6,
        leBytes 8 data.length ++ data⟩,
      ⟨.raw, 0, 0, 0, 10 + (sampleDeflate data).length, 8, 8, 6, footer⟩]

theorem applyImagePatch_imgdiff_gzip :
    imgdiff sampleLib gzipA gzipB none = .ok (gzipPatch (gzipB.drop 13) [0x62]) ∧
    (applyImagePatch sampleLib gzipA (gzipPatch (gzipB.drop 13) [0x62]) none memorySink
      ⟨[], []⟩).1 = .ok () ∧
    (applyImagePatch sampleLib gzipA (gzipPatch (gzipB.drop 13) [0x62]) none memorySink
      ⟨[], []⟩).2.sink = gzipB := by
  have h : imgdiff sampleLib gzipA gzipB none = .ok (gzipPatch (gzipB.drop 13) [0x62]) := by
    decide +kernel
  exact ⟨h, (applyImagePatch_imgdiff sampleLaws (by decide) (by decide) (by decide +kernel)
    (by decide +kernel) h).mpr (by decide +kernel)⟩

/-- From a member with data to one without, there is a patch that cannot be applied. -/
theorem not_applyImagePatch_imgdiff : Nonempty sampleLib.Lawful ∧
    imgdiff sampleLib gzipA gzipNil none = .ok (gzipPatch (gzipNil.drop 12) []) ∧
    (applyImagePatch sampleLib gzipA (gzipPatch (gzipNil.drop 12) []) none memorySink
      ⟨[], []⟩).1 = .error .failed := by
  refine ⟨⟨sampleLaws⟩, ?_, ?_⟩
  · decide +kernel
  · decide +kernel

end

end ImageMode

end BootableRecovery.ApplyPatch
