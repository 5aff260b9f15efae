import BootableRecovery.Theory.System
import BootableRecovery.ApplyPatch.Streams

/-!
# Hostile patches

`ApplyImagePatch` compares 64-bit sums of the numbers in a patch with the sizes of its buffers. A
sum that wraps around can lead past such a check, and a bsdiff offset after the end of the patch or
a vector that is too large ends the program. The run stays inside its buffers and returns exactly if
this happens in none of the rounds that it reaches.
-/

namespace BootableRecovery.ApplyPatch

/-! ## Reading a header -/

theorem read8_lt (patch : List UInt8) (p : Nat) : read8 patch p < 2 ^ 64 := by
  have hlen : ((patch.drop p).take 8).length ≤ 8 := List.length_take_le ..
  calc read8 patch p
    _ < 256 ^ ((patch.drop p).take 8).length := leNat_lt _
    _ ≤ 256 ^ 8 := Nat.pow_le_pow_right (by omega) hlen
    _ = 2 ^ 64 := by norm_num

theorem read4_bounds (patch : List UInt8) (p : Nat) :
    -2 ^ 31 ≤ read4 patch p ∧ read4 patch p < 2 ^ 31 := by
  have hle := Int.le_bmod (x := leNat ((patch.drop p).take 4)) (m := 2 ^ 32) (by omega)
  have hlt := Int.bmod_lt (x := leNat ((patch.drop p).take 4)) (m := 2 ^ 32) (by omega)
  unfold read4 leInt32
  omega

theorem sizeT_wraps_iff {n size : Nat} {len : Int} (hlen : -2 ^ 31 ≤ len ∧ len < 2 ^ 31)
    (hsize : size < 2 ^ 63) (hn : n ≤ size) :
    (n + sizeT len) % 2 ^ 64 ≤ size ∧ size < n + sizeT len ↔ ¬ (0 ≤ len ∨ n + len < 0) := by
  unfold sizeT
  omega

variable {patch : List UInt8} {pos : Nat}

/-- If there is a raw chunk at `pos`, its length is not negative, or it leads to before the
patch. -/
def RawFits (patch : List UInt8) (pos : Nat) : Prop :=
  pos + 8 ≤ patch.length → read4 patch pos = ChunkType.raw.code →
    0 ≤ read4 patch (pos + 4) ∨ (pos + 8 : Nat) + read4 patch (pos + 4) < 0

theorem readChunk_eq_crashed_iff (hpatch : patch.length < 2 ^ 63) :
    readChunk patch pos = .error .crashed ↔ ¬ RawFits patch pos := by
  unfold RawFits
  rw [Classical.not_imp, Classical.not_imp]
  constructor
  · intro h
    unfold readChunk at h
    dsimp only at h
    split at h
    · cases h
    split at h
    · split at h <;> cases h
    split at h
    · rename_i hraw
      split at h
      · cases h
      rename_i hshort
      split at h
      · cases h
      rename_i hcheck
      split at h
      · cases h
      rename_i hin
      have hpos : pos + 8 ≤ patch.length := by omega
      exact ⟨hpos, hraw, (sizeT_wraps_iff (read4_bounds patch (pos + 4)) hpatch hpos).mp
        ⟨Nat.not_lt.mp hcheck, Nat.not_le.mp hin⟩⟩
    split at h
    · split at h <;> cases h
    · cases h
  · rintro ⟨hpos, hraw, hwraps⟩
    obtain ⟨hcheck, hin⟩ :=
      (sizeT_wraps_iff (read4_bounds patch (pos + 4)) hpatch hpos).mpr hwraps
    have hnormal : read4 patch pos ≠ ChunkType.normal.code := by rw [hraw]; decide
    unfold readChunk
    dsimp only
    rw [if_neg (by omega), if_neg hnormal, if_pos hraw, if_neg (by omega),
      if_neg (Nat.not_lt.mpr hcheck), if_neg (Nat.not_le.mpr hin)]

/-- The source range of a header, if it has one. -/
def ChunkHeader.source : ChunkHeader → Nat × Nat
  | .normal srcStart srcLen _ => (srcStart, srcLen)
  | .raw _ => (0, 0)
  | .deflate srcStart srcLen _ _ _ _ _ _ _ _ => (srcStart, srcLen)

theorem source_of_readChunk {header : ChunkHeader} {pos' : Nat}
    (h : readChunk patch pos = .ok (header, pos')) :
    header.source.1 < 2 ^ 64 ∧ header.source.2 < 2 ^ 64 := by
  unfold readChunk at h
  dsimp only at h
  split at h
  · cases h
  split at h
  · split at h
    · cases h
    · cases h
      exact ⟨read8_lt _ _, read8_lt _ _⟩
  split at h
  · split at h
    · cases h
    split at h
    · cases h
    split at h
    · cases h
      exact ⟨Nat.two_pow_pos 64, Nat.two_pow_pos 64⟩
    · cases h
  split at h
  · split at h
    · cases h
    · cases h
      exact ⟨read8_lt _ _, read8_lt _ _⟩
  · cases h

/-! ## The work on a chunk -/

variable {lib : Lib} {σ : Type} {old : List UInt8} {bonus : Option (List UInt8)} {sink : Sink σ}

/-- The end of the source range does not wrap around to a place in the source. -/
def SourceFits (old : List UInt8) (srcStart srcLen : Nat) : Prop :=
  srcStart + srcLen < 2 ^ 64 ∨ 2 ^ 64 + old.length < srcStart + srcLen

/-- The source range is inside, the check finds that it is not, or its end wraps around. -/
theorem sourceSlice_cases (hold : old.length < 2 ^ 63) {srcStart srcLen : Nat}
    (hstart : srcStart < 2 ^ 64) (hlen : srcLen < 2 ^ 64) :
    (SourceFits old srcStart srcLen ∧ srcStart + srcLen ≤ old.length ∧
        sourceSlice old srcStart srcLen = .ok ((old.drop srcStart).take srcLen)) ∨
      (SourceFits old srcStart srcLen ∧ ¬ srcStart + srcLen ≤ old.length ∧
        sourceSlice old srcStart srcLen = .error .failed) ∨
      (¬ SourceFits old srcStart srcLen ∧ sourceSlice old srcStart srcLen = .error .crashed) := by
  unfold sourceSlice SourceFits
  split
  · exact .inr (.inl ⟨by omega, by omega, rfl⟩)
  · split
    · exact .inl ⟨by omega, by assumption, rfl⟩
    · exact .inr (.inr ⟨by omega, rfl⟩)

theorem applyBSDiffPatch_eq_crashed_iff {patchOffset : Nat} {s : σ} {src : List UInt8} :
    (applyBSDiffPatch lib src patch patchOffset sink s).1 = .error .crashed ↔
      patch.length < patchOffset := by
  unfold applyBSDiffPatch
  split
  · refine ⟨fun h => ?_, fun h => by omega⟩
    dsimp only at h
    split at h <;> cases h
  · exact ⟨fun _ => by omega, fun _ => rfl⟩

theorem applyBSDiffPatchAndStreamOutput_eq_crashed_iff {src : List UInt8}
    {patchOffset expectedTargetLength : Nat} {level method windowBits memLevel strategy : Int}
    {out : Out σ} :
    (applyBSDiffPatchAndStreamOutput lib src patch patchOffset expectedTargetLength level method
        windowBits memLevel strategy sink out).1 = .error .crashed ↔
      (lib.deflateInit2 level method windowBits memLevel strategy).isSome ∧
        patch.length < patchOffset := by
  unfold applyBSDiffPatchAndStreamOutput
  cases lib.deflateInit2 level method windowBits memLevel strategy with
  | none => simp
  | some stream =>
    have hcrash :=
      @applyBSDiffPatch_eq_crashed_iff patch lib _ (compressionSink lib sink expectedTargetLength)
      patchOffset ⟨stream, .ok, 0, out⟩ src
    rw [Option.isSome_some, eq_self, true_and, ← hcrash]
    dsimp only
    split
    · rename_i heq
      rw [heq]
    · rename_i heq
      rw [heq]
      split
      · simp
      · split <;> simp

theorem expandedSource_eq_crashed_iff {src bonusData : List UInt8} {expandedLen : Nat} :
    expandedSource lib src expandedLen bonusData = .error .crashed ↔
    ¬lib.CanAllocate expandedLen := by
  unfold expandedSource
  split
  · exact ⟨fun _ => by assumption, fun _ => rfl⟩
  · refine ⟨fun h => ?_, fun h => by contradiction⟩
    split at h
    · split at h
      · cases h
      · dsimp only at h
        split at h
        · cases h
        · split at h <;> cases h
    · cases h

/-- What the numbers of chunk `i` have to be. The vector for the source data is made if the source
range is inside, and bspatch is called for a deflate chunk if its source can be inflated and its
parameters are good. -/
def ChunkHeader.Fits (lib : Lib) (old patch : List UInt8) (bonus : Option (List UInt8)) (i : Nat) :
    ChunkHeader → Prop
  | .normal srcStart srcLen patchOffset =>
    SourceFits old srcStart srcLen ∧ (srcStart + srcLen ≤ old.length → patchOffset ≤ patch.length)
  | .raw _ => True
  | .deflate srcStart srcLen patchOffset expandedLen _ level method windowBits memLevel strategy =>
    SourceFits old srcStart srcLen ∧ (srcStart + srcLen ≤ old.length → lib.CanAllocate expandedLen ∧
      ((expandedSource lib ((old.drop srcStart).take srcLen) expandedLen
          (if i = 1 then bonus.getD [] else [])).isOk →
        (lib.deflateInit2 level method windowBits memLevel strategy).isSome →
        patchOffset ≤ patch.length))

theorem applyChunk_eq_crashed_iff (hold : old.length < 2 ^ 63) {i : Nat} {header : ChunkHeader}
    {out : Out σ} (hsource : header.source.1 < 2 ^ 64 ∧ header.source.2 < 2 ^ 64) :
    (applyChunk lib old patch bonus sink i header out).1 = .error .crashed ↔
      ¬ header.Fits lib old patch bonus i := by
  cases header with
  | raw data =>
    simp only [applyChunk, ChunkHeader.Fits]
    split <;> simp
  | normal srcStart srcLen patchOffset =>
    simp only [applyChunk, ChunkHeader.Fits]
    rcases sourceSlice_cases hold hsource.1 hsource.2 with
      ⟨hfits, hin, hslice⟩ | ⟨hfits, hout, hslice⟩ | ⟨hwraps, hslice⟩
    · simp only [ChunkHeader.source] at hfits hin hslice
      simp [hslice, hfits, hin, applyBSDiffPatch_eq_crashed_iff]
    · simp only [ChunkHeader.source] at hfits hout hslice
      simp [hslice, hfits, hout]
    · simp only [ChunkHeader.source] at hwraps hslice
      simp [hslice, hwraps]
  | deflate srcStart srcLen patchOffset expandedLen targetLen level method windowBits memLevel
    strategy =>
    simp only [applyChunk, ChunkHeader.Fits]
    rcases sourceSlice_cases hold hsource.1 hsource.2 with
      ⟨hfits, hin, hslice⟩ | ⟨hfits, hout, hslice⟩ | ⟨hwraps, hslice⟩
    · simp only [ChunkHeader.source] at hfits hin hslice
      have hvector := @expandedSource_eq_crashed_iff lib ((old.drop srcStart).take srcLen)
        (if i = 1 then bonus.getD [] else []) expandedLen
      simp only [hslice, hfits, hin, true_and, forall_const]
      cases hexpand : expandedSource lib ((old.drop srcStart).take srcLen) expandedLen
          (if i = 1 then bonus.getD [] else []) with
      | error fault =>
        rw [hexpand, Except.error.injEq] at hvector
        simpa [Except.isOk, Except.toBool] using hvector
      | ok expanded =>
        rw [hexpand] at hvector
        simp only [reduceCtorEq, false_iff, not_not] at hvector
        simp only [applyBSDiffPatchAndStreamOutput_eq_crashed_iff, Except.isOk, Except.toBool,
          hvector, true_and, forall_const, Classical.not_imp, Nat.not_le]
    · simp only [ChunkHeader.source] at hfits hout hslice
      simp [hslice, hfits, hout]
    · simp only [ChunkHeader.source] at hwraps hslice
      simp [hslice, hwraps]

/-! ## The loop -/

/-- Where the loop of `ApplyImagePatch` stands: the number of the chunk, the position of its header,
and what has been written. -/
structure LoopState (σ : Type) where
  i : Nat
  pos : Nat
  out : Out σ

/-- The loop from a state on; in each step a chunk is applied. -/
def patchLoop (lib : Lib) (old patch : List UInt8) (bonus : Option (List UInt8)) (sink : Sink σ)
    (start : LoopState σ) : System (LoopState σ) where
  init s := s = start
  step s s' := ∃ header, readChunk patch s.pos = .ok (header, s'.pos) ∧
    applyChunk lib old patch bonus sink s.i header s.out = (.ok (), s'.out) ∧ s'.i = s.i + 1

/-- The numbers of the chunk that comes next are as they have to be. -/
structure LoopState.Fits (lib : Lib) (old patch : List UInt8) (bonus : Option (List UInt8))
    (s : LoopState σ) : Prop where
  raw : RawFits patch s.pos
  header : ∀ header pos', readChunk patch s.pos = .ok (header, pos') →
    header.Fits lib old patch bonus s.i

variable {start s : LoopState σ}

theorem le_of_reach (h : (patchLoop lib old patch bonus sink start).Reach s) : start.i ≤ s.i := by
  have hinv : (patchLoop lib old patch bonus sink start).Inductive fun s => start.i ≤ s.i := by
    refine ⟨fun s hs => hs ▸ Nat.le_refl _, ?_⟩
    rintro s s' hs ⟨header, -, -, hi⟩
    omega
  exact hinv.reach h

theorem patchLoop_reach_iff : (patchLoop lib old patch bonus sink start).Reach s ↔
    start = s ∨ ∃ s₁, (patchLoop lib old patch bonus sink start).step start s₁ ∧
      (patchLoop lib old patch bonus sink s₁).Reach s := by
  constructor
  · rintro ⟨s₀, rfl, h⟩
    exact h.cases_head.imp id fun ⟨s₁, hstep, hrest⟩ => ⟨s₁, hstep, s₁, rfl, hrest⟩
  · rintro (rfl | ⟨s₁, hstep, _, rfl, hrest⟩)
    · exact .init rfl
    · exact ⟨start, rfl, .head hstep hrest⟩

theorem forall_reach_iff_of_stuck {n : Nat}
    (h : ∀ s₁, ¬ (patchLoop lib old patch bonus sink start).step start s₁) :
    (∀ s, (patchLoop lib old patch bonus sink start).Reach s → s.i < start.i + (n + 1) →
      s.Fits lib old patch bonus) ↔ start.Fits lib old patch bonus := by
  constructor
  · exact fun hall => hall start (.init rfl) (by omega)
  · intro hfits s hs _
    rcases patchLoop_reach_iff.mp hs with rfl | ⟨s₁, hstep, -⟩
    · exact hfits
    · exact absurd hstep (h s₁)

/-- A round fails to stay inside exactly if the numbers of the chunk do not fit, and the loop goes
on from where a good round leads. -/
theorem applyChunks_ne_crashed_iff (hold : old.length < 2 ^ 63) (hpatch : patch.length < 2 ^ 63)
    {n : Nat} :
    (applyChunks lib old patch bonus sink n start.i start.pos start.out).1 ≠ .error .crashed ↔
      ∀ s, (patchLoop lib old patch bonus sink start).Reach s → s.i < start.i + n →
        s.Fits lib old patch bonus := by
  induction n generalizing start with
  | zero =>
    refine ⟨fun _ s hs hlt => ?_, fun _ => by simp [applyChunks]⟩
    have := le_of_reach hs
    omega
  | succ n ih =>
    rw [applyChunks]
    cases hread : readChunk patch start.pos with
    | error fault =>
      have hraw := @readChunk_eq_crashed_iff patch start.pos hpatch
      rw [hread, Except.error.injEq] at hraw
      have hstuck : ∀ s₁, ¬ (patchLoop lib old patch bonus sink start).step start s₁ := by
        rintro s₁ ⟨header, hread', -⟩
        rw [hread] at hread'
        cases hread'
      rw [forall_reach_iff_of_stuck hstuck]
      rw [Ne, Except.error.injEq, hraw, not_not]
      exact ⟨fun h => ⟨h, fun header pos' hread' => by rw [hread] at hread'; cases hread'⟩, fun h =>
        h.raw⟩
    | ok r =>
      obtain ⟨header, pos'⟩ := r
      have hraw : RawFits patch start.pos := by
        by_contra hno
        rw [← readChunk_eq_crashed_iff hpatch, hread] at hno
        cases hno
      have hfits : start.Fits lib old patch bonus ↔ header.Fits lib old patch bonus start.i := by
        refine ⟨fun h => h.header header pos' hread, fun h =>
          ⟨hraw, fun header' pos'' hread' => ?_⟩⟩
        rw [hread] at hread'
        cases hread'
        exact h
      have hcrash :=
        @applyChunk_eq_crashed_iff patch lib σ old bonus sink hold start.i header start.out
        (source_of_readChunk hread)
      cases happly : applyChunk lib old patch bonus sink start.i header start.out with
      | mk result out' =>
        rw [happly] at hcrash
        dsimp only at hcrash ⊢
        rw [happly]
        cases result with
        | error fault =>
          have hstuck : ∀ s₁, ¬ (patchLoop lib old patch bonus sink start).step start s₁ := by
            rintro s₁ ⟨header', hread', happly', -⟩
            rw [hread] at hread'
            cases hread'
            rw [happly] at happly'
            cases happly'
          rw [forall_reach_iff_of_stuck hstuck, hfits, Ne, hcrash, not_not]
        | ok _ =>
          have hgood : start.Fits lib old patch bonus := by
            rw [hfits]
            by_contra hno
            rw [← hcrash] at hno
            cases hno
          have hnext := @ih ⟨start.i + 1, pos', out'⟩
          dsimp only at hnext ⊢
          rw [hnext]
          constructor
          · intro hall s hs hlt
            rcases patchLoop_reach_iff.mp hs with rfl | ⟨⟨i₁, pos₁, out₁⟩,
              ⟨header', hread', happly', hi⟩, hrest⟩
            · exact hgood
            · dsimp only at hread' happly' hi
              rw [hread] at hread'
              cases hread'
              rw [happly] at happly'
              cases happly'
              subst hi
              exact hall s hrest (by omega)
          · intro hall s hs hlt
            refine hall s (patchLoop_reach_iff.mpr (.inr ⟨_, ⟨header, hread, happly, rfl⟩, hs⟩))
              (by omega)

/-- The run returns 0 or -1 and stays inside the patch and the source exactly if the numbers of each
chunk that it comes to fit. -/
theorem applyImagePatch_safe_iff (hold : old.length < 2 ^ 63) (hpatch : patch.length < 2 ^ 63)
    (out : Out σ) :
    (applyImagePatch lib old patch bonus sink out).1 ≠ .error .crashed ↔
      ∀ n, readChunkCount patch = .ok n →
      ∀ s, (patchLoop lib old patch bonus sink ⟨0, 12, out⟩).Reach s →
        s.i < n → s.Fits lib old patch bonus := by
  unfold applyImagePatch
  cases hcount : readChunkCount patch with
  | error fault =>
    refine ⟨fun _ n hn => (by cases hn), fun _ hcrash => ?_⟩
    unfold readChunkCount at hcount
    split at hcount
    · cases hcount
      cases hcrash
    · split at hcount
      · cases hcount
        cases hcrash
      · cases hcount
  | ok n =>
    have hloop := @applyChunks_ne_crashed_iff patch lib σ old bonus sink ⟨0, 12, out⟩ hold hpatch n
    dsimp only at hloop ⊢
    rw [hloop, Nat.zero_add]
    exact ⟨fun h n' hn => Except.ok.inj hn ▸ h, fun h => h n rfl⟩

/-- A patch with one chunk. -/
def oneChunk (type : ChunkType) (body : List UInt8) : List UInt8 :=
  PatchChunk.MAGIC ++ int32Bytes 1 ++ int32Bytes type.code ++ body

theorem applyImagePatch_safe_raw :
    LoopState.Fits sampleLib [] (oneChunk .raw (int32Bytes 2 ++ [0x61, 0x62]))
    none (⟨0, 12, ⟨[], []⟩⟩ : LoopState (List UInt8)) := by
  have hrun :
      (applyImagePatch sampleLib [] (oneChunk .raw (int32Bytes 2 ++ [0x61, 0x62])) none memorySink
        ⟨[], []⟩).1 ≠ .error .crashed := by decide +kernel
  exact (applyImagePatch_safe_iff (by decide) (by decide +kernel) ⟨[], []⟩).mp hrun 1
    (by decide +kernel) _
    (.init rfl) Nat.one_pos

/-- A raw length of -1, a source range that ends after `2 ^ 64`, and a bsdiff offset after the
patch. -/
theorem not_applyImagePatch_safe :
    (applyImagePatch sampleLib [0x61] (oneChunk .raw (int32Bytes (-1))) none memorySink
      ⟨[], []⟩).1 = .error .crashed ∧
    (applyImagePatch sampleLib [0x61] (oneChunk .normal (leBytes 8 (2 ^ 64 - 1) ++ leBytes 8 2 ++
      leBytes 8 0)) none memorySink ⟨[], []⟩).1 = .error .crashed ∧
    (applyImagePatch sampleLib [0x61]
      (oneChunk .normal (leBytes 8 0 ++ leBytes 8 1 ++ leBytes 8 1000)) none memorySink ⟨[],
      []⟩).1 = .error .crashed := by
  decide +kernel

end BootableRecovery.ApplyPatch
