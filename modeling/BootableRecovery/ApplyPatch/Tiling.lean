import BootableRecovery.ApplyPatch.Streams

/-!
# Chunks that tile a file

The chunks of a target stand one after the other (`Tiles`), and merging adjacent normal chunks keeps
that. If each patch chunk gives its part of the target (`PatchChunk.Yields`), the patch gives all of
it.
-/

namespace BootableRecovery.ApplyPatch

/-- The chunks of `file` stand one after the other from `lo` to `hi`. -/
def Tiles (file : List UInt8) : (lo : Nat) → List ImageChunk → (hi : Nat) → Prop
  | lo, [], hi => lo = hi
  | lo, c :: cs, hi => c.file = file ∧ c.start = lo ∧ Tiles file (lo + c.rawDataLen) cs hi

namespace Tiles

variable {file : List UInt8} {lo hi : Nat} {c : ImageChunk} {cs cs' : List ImageChunk}

theorem le (h : Tiles file lo cs hi) : lo ≤ hi := by
  induction cs generalizing lo with
  | nil => exact Nat.le_of_eq h
  | cons c cs ih => exact Nat.le_trans (Nat.le_add_right ..) (ih h.2.2)

theorem append_iff : Tiles file lo (cs ++ cs') hi ↔
    ∃ mid, Tiles file lo cs mid ∧ Tiles file mid cs' hi := by
  induction cs generalizing lo with
  | nil => simp [Tiles]
  | cons c cs ih =>
    simp only [List.cons_append, Tiles, ih]
    constructor
    · rintro ⟨hfile, hstart, mid, h₁, h₂⟩
      exact ⟨mid, ⟨hfile, hstart, h₁⟩, h₂⟩
    · rintro ⟨mid, ⟨hfile, hstart, h₁⟩, h₂⟩
      exact ⟨hfile, hstart, mid, h₁, h₂⟩

theorem of_mem (h : Tiles file lo cs hi) (hc : c ∈ cs) :
    c.file = file ∧ lo ≤ c.start ∧ c.start + c.rawDataLen ≤ hi := by
  induction cs generalizing lo with
  | nil => cases hc
  | cons d cs ih =>
    obtain ⟨hfile, hstart, h⟩ := h
    rcases List.mem_cons.mp hc with rfl | hc
    · exact ⟨hfile, Nat.le_of_eq hstart.symm, hstart ▸ h.le⟩
    · obtain ⟨hcfile, hlo, hhi⟩ := ih h hc
      exact ⟨hcfile, by omega, hhi⟩

theorem flatten_raw (h : Tiles file lo cs hi) :
    (cs.map ImageChunk.raw).flatten = (file.drop lo).take (hi - lo) := by
  induction cs generalizing lo with
  | nil =>
    have : lo = hi := h
    simp [this]
  | cons c cs ih =>
    obtain ⟨hfile, hstart, h⟩ := h
    have hle := h.le
    rw [List.map_cons, List.flatten_cons, ih h, ImageChunk.raw, hfile, hstart, ← List.drop_drop,
      show hi - lo = c.rawDataLen + (hi - (lo + c.rawDataLen)) by omega, List.take_add]

theorem hi_le (h : Tiles file lo cs hi) (hlo : lo ≤ file.length)
    (hcs : ∀ c ∈ cs, c.start + c.rawDataLen ≤ file.length) : hi ≤ file.length := by
  induction cs generalizing lo with
  | nil =>
    have : lo = hi := h
    omega
  | cons c cs ih =>
    obtain ⟨-, rfl, h⟩ := h
    rw [List.forall_mem_cons] at hcs
    exact ih h hcs.1 hcs.2

theorem length_le (h : Tiles file lo cs hi) (hcs : ∀ c ∈ cs, 0 < c.rawDataLen) :
    lo + cs.length ≤ hi := by
  induction cs generalizing lo with
  | nil => exact Nat.le_of_eq h
  | cons c cs ih =>
    rw [List.forall_mem_cons] at hcs
    have := ih h.2.2 hcs.2
    rw [List.length_cons]
    omega

theorem getLast?_end (h : Tiles file lo cs hi) (hcs : cs ≠ []) :
    ∃ c, cs.getLast? = some c ∧ c.start + c.rawDataLen = hi := by
  induction cs generalizing lo with
  | nil => exact absurd rfl hcs
  | cons c cs ih =>
    obtain ⟨-, hstart, h⟩ := h
    cases cs with
    | nil => exact ⟨c, rfl, hstart ▸ h⟩
    | cons d cs =>
      rw [List.getLast?_cons_cons]
      exact ih h (List.cons_ne_nil d cs)

theorem congr (h : Tiles file lo cs hi)
    (heq : List.Forall₂ (fun c c' : ImageChunk => c'.file = c.file ∧ c'.start = c.start ∧
      c'.rawDataLen = c.rawDataLen) cs cs') : Tiles file lo cs' hi := by
  induction heq generalizing lo with
  | nil => exact h
  | cons hc _ ih =>
    obtain ⟨hfile, hstart, h⟩ := h
    refine ⟨hc.1.trans hfile, hc.2.1.trans hstart, ?_⟩
    rw [hc.2.2]
    exact ih h

theorem merge_head {d : ImageChunk} (h : Tiles file lo (c :: d :: cs) hi) :
    Tiles file lo (c.mergeAdjacentNormal d :: cs) hi := by
  obtain ⟨hfile, hstart, -, -, h⟩ := h
  rw [Nat.add_assoc] at h
  exact ⟨hfile, hstart, h⟩

theorem mergeFrom (h : Tiles file lo (c :: cs) hi) :
    Tiles file lo (ApplyPatch.mergeFrom c cs) hi := by
  induction cs generalizing lo c with
  | nil => exact h
  | cons d cs ih =>
    rw [ApplyPatch.mergeFrom]
    split
    · exact ih h.merge_head
    · exact ⟨h.1, h.2.1, ih h.2.2⟩

theorem mergeAdjacentNormalChunks (h : Tiles file lo cs hi) :
    Tiles file lo (ApplyPatch.mergeAdjacentNormalChunks cs) hi := by
  cases cs with
  | nil => exact h
  | cons c cs => exact h.mergeFrom

theorem isAdjacentNormal {d : ImageChunk} (h : Tiles file lo (c :: d :: cs) hi) :
    c.isAdjacentNormal d = (c.type = .normal && d.type = .normal) := by
  obtain ⟨-, hstart, -, hdstart, -⟩ := h
  simp [ImageChunk.isAdjacentNormal, hstart, hdstart]

end Tiles

/-! ## Deflate chunks are not merged -/

section
variable {c d : ImageChunk} {cs : List ImageChunk}

theorem mem_mergeFrom_of_ne_normal (hd : d.type ≠ .normal) :
    d ∈ mergeFrom c cs ↔ d ∈ c :: cs := by
  induction cs generalizing c with
  | nil => rfl
  | cons e cs ih =>
    rw [mergeFrom]
    split
    · rename_i hadj
      simp only [ImageChunk.isAdjacentNormal, Bool.and_eq_true, decide_eq_true_eq] at hadj
      have hc : d ≠ c.mergeAdjacentNormal e := fun h => hd (h ▸ hadj.1.1)
      have hc' : d ≠ c := fun h => hd (h ▸ hadj.1.1)
      have he : d ≠ e := fun h => hd (h ▸ hadj.1.2)
      rw [ih]
      simp [hc, hc', he]
    · simp [ih]

theorem mem_mergeAdjacentNormalChunks_of_ne_normal (hd : d.type ≠ .normal) :
    d ∈ mergeAdjacentNormalChunks cs ↔ d ∈ cs := by
  cases cs with
  | nil => rfl
  | cons c cs => exact mem_mergeFrom_of_ne_normal hd

/-- What holds of all chunks, and of two normal chunks as one, holds after the merge. -/
theorem forall_mem_mergeAdjacentNormalChunks {P : ImageChunk → Prop}
    (hmerge : ∀ c d : ImageChunk, P c → P d → c.isAdjacentNormal d → P (c.mergeAdjacentNormal d))
    (h : ∀ c ∈ cs, P c) : ∀ c ∈ mergeAdjacentNormalChunks cs, P c := by
  cases cs with
  | nil => exact h
  | cons c cs =>
    show ∀ d ∈ mergeFrom c cs, P d
    induction cs generalizing c with
    | nil => exact h
    | cons e cs ih =>
      rw [List.forall_mem_cons, List.forall_mem_cons] at h
      obtain ⟨hc, he, hcs⟩ := h
      rw [mergeFrom]
      split
      · rename_i hadj
        exact ih _ (List.forall_mem_cons.mpr ⟨hmerge c e hc he hadj, hcs⟩)
      · exact List.forall_mem_cons.mpr ⟨hc, ih _ (List.forall_mem_cons.mpr ⟨he, hcs⟩)⟩

theorem mergeAdjacentNormalChunks_ne_nil (h : cs ≠ []) : mergeAdjacentNormalChunks cs ≠ [] := by
  cases cs with
  | nil => exact absurd rfl h
  | cons c cs =>
    clear h
    show mergeFrom c cs ≠ []
    induction cs generalizing c with
    | nil => exact List.cons_ne_nil _ _
    | cons d cs ih =>
      rw [mergeFrom]
      split
      · exact ih _
      · exact List.cons_ne_nil _ _

end

/-! ## What a patch chunk gives -/

variable {lib : Lib} (laws : lib.Lawful)

/-- The bonus data is for chunk 1. -/
def bonusAt (bonus : Option (List UInt8)) (i : Nat) : List UInt8 :=
  if i = 1 then bonus.getD [] else []

/-- Chunk `c` stands for the bytes `tgt` of the target: it holds them, or the patch for them from a
part of `old`; or it holds the patch for the data whose deflate stream they are. -/
def PatchChunk.Yields (old bonus : List UInt8) (c : PatchChunk) (tgt : List UInt8) : Prop :=
  match c.type with
  | .raw => c.data = tgt
  | .normal => c.sourceStart + c.sourceLen ≤ old.length ∧
      lib.bsdiff ((old.drop c.sourceStart).take c.sourceLen) tgt = some c.data
  | .deflate => c.sourceStart + c.sourceLen ≤ old.length ∧
      (c.targetCompressLevel = 6 ∨ c.targetCompressLevel = 9) ∧
      ∃ src new, expandedSource lib ((old.drop c.sourceStart).take c.sourceLen)
          c.sourceUncompressedLen bonus = .ok src ∧
        lib.bsdiff src new = some c.data ∧ new.length = c.targetUncompressedLen ∧
        new.length < 2 ^ 32 ∧ laws.oneShot c.targetCompressLevel new = tgt

/-- The chunks from `i` on stand for parts of the target. -/
def PatchChunk.YieldsFrom (old : List UInt8) (bonus : Option (List UInt8)) :
    (i : Nat) → List PatchChunk → List (List UInt8) → Prop
  | _, [], [] => True
  | i, c :: cs, tgt :: tgts =>
    c.Yields laws old (bonusAt bonus i) tgt ∧ YieldsFrom old bonus (i + 1) cs tgts
  | _, _, _ => False

/-- The chunk is a deflate stream without data. -/
def PatchChunk.IsEmptyStream (c : PatchChunk) : Prop :=
  c.type = .deflate ∧ c.targetUncompressedLen = 0

theorem sourceSlice_of_le {old : List UInt8} {srcStart srcLen : Nat}
    (h : srcStart + srcLen ≤ old.length) (hold : old.length < 2 ^ 63) :
    sourceSlice old srcStart srcLen = .ok ((old.drop srcStart).take srcLen) := by
  rw [sourceSlice, Nat.mod_eq_of_lt (by omega), if_neg (by omega), if_pos h]

section
variable {laws} {old patch tgt : List UInt8} {bonus : Option (List UInt8)} {c : PatchChunk}
  {header : ChunkHeader} {i : Nat}

theorem applyChunk_of_yields (hold : old.length < 2 ^ 63) (hof : header.Of patch c)
    (hc : c.Yields laws old (bonusAt bonus i) tgt) (hne : ¬ c.IsEmptyStream)
    (out : Out (List UInt8)) :
    applyChunk lib old patch bonus memorySink i header out =
      (.ok (), ⟨out.sink ++ tgt, out.hashed ++ tgt⟩) := by
  unfold ChunkHeader.Of at hof
  unfold PatchChunk.Yields at hc
  cases htype : c.type with
  | raw =>
    simp only [htype] at hof hc
    subst hof hc
    simp [applyChunk]
  | normal =>
    simp only [htype] at hof hc
    obtain ⟨offset, rfl, hdata, hoff⟩ := hof
    obtain ⟨hle, hdiff⟩ := hc
    simp only [applyChunk, sourceSlice_of_le hle hold]
    exact applyBSDiffPatch_shaSink laws hdiff hdata hoff out
  | deflate =>
    simp only [htype] at hof hc
    obtain ⟨offset, rfl, hdata, hoff⟩ := hof
    obtain ⟨hle, hlevel, src, new, hsrc, hdiff, hlen, hlt, rfl⟩ := hc
    have hnew : new ≠ [] := by
      rintro rfl
      exact hne ⟨htype, hlen.symm⟩
    rw [bonusAt] at hsrc
    simp only [applyChunk, sourceSlice_of_le hle hold, hsrc, ← hlen]
    exact applyBSDiffPatchAndStreamOutput_of_ne_nil laws hlevel hdiff hdata hoff hnew hlt out

theorem applyChunk_of_isEmptyStream (hold : old.length < 2 ^ 63) (hof : header.Of patch c)
    (hc : c.Yields laws old (bonusAt bonus i) tgt) (hempty : c.IsEmptyStream)
    (out : Out (List UInt8)) :
    applyChunk lib old patch bonus memorySink i header out = (.error .failed, out) := by
  obtain ⟨htype, hlen₀⟩ := hempty
  unfold ChunkHeader.Of at hof
  unfold PatchChunk.Yields at hc
  simp only [htype] at hof hc
  obtain ⟨offset, rfl, hdata, hoff⟩ := hof
  obtain ⟨hle, hlevel, src, new, hsrc, hdiff, hlen, -⟩ := hc
  rw [hlen₀, List.length_eq_zero_iff] at hlen
  subst hlen
  rw [bonusAt] at hsrc
  simp only [applyChunk, sourceSlice_of_le hle hold, hsrc, hlen₀]
  exact applyBSDiffPatchAndStreamOutput_nil laws hlevel hdiff hdata hoff out

section
variable {cs : List PatchChunk} {tgts : List (List UInt8)} {headers : List ChunkHeader}

theorem applyHeaders_of_yields (hold : old.length < 2 ^ 63)
    (hof : List.Forall₂ (ChunkHeader.Of patch) cs headers)
    (hcs : PatchChunk.YieldsFrom laws old bonus i cs tgts) (hne : ∀ c ∈ cs, ¬ c.IsEmptyStream)
    (out : Out (List UInt8)) :
    applyHeaders lib old patch bonus memorySink i headers out =
      (.ok (), ⟨out.sink ++ tgts.flatten, out.hashed ++ tgts.flatten⟩) := by
  induction hof generalizing i tgts out with
  | nil =>
    cases tgts with
    | nil => simp [applyHeaders]
    | cons tgt tgts => exact hcs.elim
  | cons hc _ ih =>
    cases tgts with
    | nil => exact hcs.elim
    | cons tgt tgts =>
      rw [applyHeaders, applyChunk_of_yields hold hc hcs.1 (hne _ List.mem_cons_self) out]
      dsimp only
      rw [ih hcs.2 fun c hc => hne c (List.mem_cons_of_mem _ hc)]
      simp

theorem applyHeaders_of_isEmptyStream (hold : old.length < 2 ^ 63)
    (hof : List.Forall₂ (ChunkHeader.Of patch) cs headers)
    (hcs : PatchChunk.YieldsFrom laws old bonus i cs tgts) (hempty : ∃ c ∈ cs, c.IsEmptyStream)
    (out : Out (List UInt8)) :
    (applyHeaders lib old patch bonus memorySink i headers out).1 ≠ .ok () := by
  induction hof generalizing i tgts out with
  | nil =>
    obtain ⟨c, hmem, -⟩ := hempty
    cases hmem
  | @cons d header cs headers hd _ ih =>
    cases tgts with
    | nil => exact hcs.elim
    | cons tgt tgts =>
      rw [applyHeaders]
      by_cases hstream : d.IsEmptyStream
      · rw [applyChunk_of_isEmptyStream hold hd hcs.1 hstream out]
        simp
      · obtain ⟨c, hmem, hc⟩ := hempty
        have hmem' : c ∈ cs := by
          rcases List.mem_cons.mp hmem with rfl | hmem
          · exact absurd hc hstream
          · exact hmem
        rw [applyChunk_of_yields hold hd hcs.1 hstream out]
        exact ih hcs.2 ⟨c, hmem', hc⟩ _

end

theorem exists_of_applyHeaders_ok {σ : Type} {sink : Sink σ} {cs : List PatchChunk}
    {headers : List ChunkHeader} {out : Out σ}
    (hof : List.Forall₂ (ChunkHeader.Of patch) cs headers)
    (hok : (applyHeaders lib old patch bonus sink i headers out).1 = .ok ()) :
    ∀ c ∈ cs, ∃ j header out', header.Of patch c ∧
      (applyChunk lib old patch bonus sink j header out').1 = .ok () := by
  induction hof generalizing i out with
  | nil => simp
  | @cons d header cs headers hd _ ih =>
    rw [applyHeaders] at hok
    rw [List.forall_mem_cons]
    cases hchunk : applyChunk lib old patch bonus sink i header out with
    | mk r out₁ =>
      rw [hchunk] at hok
      cases r with
      | error fault => cases hok
      | ok u => exact ⟨⟨i, header, out, hd, by rw [hchunk]⟩, ih hok⟩

theorem not_isEmptyStream_of_applyImagePatch {cs : List PatchChunk} {tgts : List (List UInt8)}
    (hold : old.length < 2 ^ 63) (hsized : ∀ c ∈ cs, c.Sized) (hcount : cs.length < 2 ^ 31)
    (hlen : (PatchChunk.writePatchDataToFd cs).length < 2 ^ 63)
    (hcs : PatchChunk.YieldsFrom laws old bonus 0 cs tgts)
    (hok : (applyImagePatch lib old (PatchChunk.writePatchDataToFd cs) bonus memorySink
      ⟨[], []⟩).1 = .ok ()) : ∀ c ∈ cs, ¬ c.IsEmptyStream := by
  rw [PatchChunk.length_writePatchDataToFd] at hlen
  obtain ⟨hs, hread, hof⟩ := PatchChunk.readPatch_writePatchDataToFd hsized hcount hlen
  rw [applyImagePatch_eq hread] at hok
  intro c hc hempty
  exact applyHeaders_of_isEmptyStream hold hof hcs ⟨c, hc, hempty⟩ _ hok

/-- A patch file whose chunks stand for the parts of a target gives the target, unless one of them
is a deflate stream without data. -/
theorem applyImagePatch_writePatchDataToFd_iff {cs : List PatchChunk} {tgts : List (List UInt8)}
    (hold : old.length < 2 ^ 63) (hsized : ∀ c ∈ cs, c.Sized) (hcount : cs.length < 2 ^ 31)
    (hlen : (PatchChunk.writePatchDataToFd cs).length < 2 ^ 63)
    (hcs : PatchChunk.YieldsFrom laws old bonus 0 cs tgts) :
    ((applyImagePatch lib old (PatchChunk.writePatchDataToFd cs) bonus memorySink ⟨[], []⟩).1 =
      .ok () ∧ (applyImagePatch lib old (PatchChunk.writePatchDataToFd cs) bonus memorySink
        ⟨[], []⟩).2.sink = tgts.flatten) ↔
    ∀ c ∈ cs, ¬ c.IsEmptyStream := by
  constructor
  · intro h
    exact not_isEmptyStream_of_applyImagePatch hold hsized hcount hlen hcs h.1
  · intro hne
    rw [PatchChunk.length_writePatchDataToFd] at hlen
    obtain ⟨hs, hread, hof⟩ := PatchChunk.readPatch_writePatchDataToFd hsized hcount hlen
    rw [applyImagePatch_eq hread, applyHeaders_of_yields hold hof hcs hne]
    simp

end

/-! ## Patches between chunks -/

/-- The chunk with the place of its deflate stream in another file. -/
def PatchChunk.relocate (f : Nat → Nat) (c : PatchChunk) : PatchChunk :=
  if c.type = .deflate then { c with sourceStart := f c.sourceStart } else c

theorem PatchChunk.relocate_id : PatchChunk.relocate id = id := by
  funext c
  unfold PatchChunk.relocate
  split <;> rfl

/-- A target chunk and the source chunk that it is patched from. The bytes of a deflate source stand
in `old` at the place that `f` gives. -/
def Matched (old : List UInt8) (f : Nat → Nat) (bonus : List UInt8) (tgt src : ImageChunk) : Prop :=
  (tgt.compressLevel = 6 ∨ tgt.compressLevel = 9) ∧
  (tgt.type = .normal ∧ src.type = .normal ∧ src.file = old ∨
    tgt.type = .deflate ∧ src.type = .deflate ∧ tgt.uncompressedData.length < 2 ^ 32 ∧
      laws.oneShot tgt.compressLevel tgt.uncompressedData = tgt.raw ∧
      f src.start + src.rawDataLen ≤ old.length ∧
      (∃ data used, lib.inflate ((old.drop (f src.start)).take src.rawDataLen) = some (data, used) ∧
        src.uncompressedData = data ++ bonus) ∧
      src.uncompressedData.length < 2 ^ 32)

section
variable {laws} {old bonus : List UInt8} {f : Nat → Nat} {tgt src : ImageChunk} {c : PatchChunk}

theorem ImageChunk.getRawData_eq_ok {c : ImageChunk} {data : List UInt8}
    (h : c.getRawData = .ok data) : c.start + c.rawDataLen ≤ c.file.length ∧ data = c.raw := by
  rw [ImageChunk.getRawData] at h
  split at h
  · cases h
    exact ⟨by assumption, rfl⟩
  · cases h

theorem ImageChunk.length_raw {c : ImageChunk} (h : c.start + c.rawDataLen ≤ c.file.length) :
    c.raw.length = c.rawDataLen := by
  rw [ImageChunk.raw, List.length_take, List.length_drop]
  omega

theorem PatchChunk.makeRaw_eq_ok (htype : tgt.type = .normal) (h : PatchChunk.makeRaw tgt = .ok c) :
    c.type = .raw ∧ c.data = tgt.raw ∧ c.sourceStart = 0 ∧ c.sourceLen = 0 ∧
      c.sourceUncompressedLen = 0 ∧ c.targetUncompressedLen = tgt.rawDataLen ∧
      c.targetCompressLevel = tgt.compressLevel ∧
      tgt.start + tgt.rawDataLen ≤ tgt.file.length := by
  unfold PatchChunk.makeRaw at h
  rw [ImageChunk.dataForPatch, if_neg (by simp [htype])] at h
  cases hraw : tgt.getRawData with
  | error fault => rw [hraw] at h; cases h
  | ok data =>
    rw [hraw] at h
    obtain ⟨hle, rfl⟩ := ImageChunk.getRawData_eq_ok hraw
    cases h
    exact ⟨rfl, rfl, rfl, rfl, rfl, by simp [ImageChunk.dataLengthForPatch, htype], rfl, hle⟩

theorem ImageChunk.makePatch_eq_ok {patch : List UInt8} (h : tgt.makePatch lib src = .ok patch) :
    ∃ old new, src.dataForPatch = .ok old ∧ tgt.dataForPatch = .ok new ∧
      lib.bsdiff old new = some patch := by
  unfold ImageChunk.makePatch at h
  cases hold : src.dataForPatch with
  | error fault => rw [hold] at h; cases h
  | ok old =>
    cases hnew : tgt.dataForPatch with
    | error fault => rw [hold, hnew] at h; cases h
    | ok new =>
      rw [hold, hnew] at h
      cases hdiff : lib.bsdiff old new with
      | none => simp [bind, Except.bind, hdiff] at h
      | some data =>
        simp only [bind, Except.bind, hdiff, pure, Except.pure, Except.ok.injEq] at h
        exact ⟨old, new, rfl, rfl, h ▸ hdiff⟩

theorem PatchChunk.generate_eq_ok (h : PatchChunk.generate lib tgt src = .ok c) :
    tgt.type = .normal ∧ PatchChunk.makeRaw tgt = .ok c ∨
    ∃ patch, tgt.makePatch lib src = .ok patch ∧ c = PatchChunk.make tgt src patch := by
  unfold PatchChunk.generate at h
  have hsmall : ∀ {n}, PatchChunk.rawDataIsSmaller tgt n = true → tgt.type = .normal := by
    intro n hn
    simp only [PatchChunk.rawDataIsSmaller, Bool.and_eq_true, decide_eq_true_eq] at hn
    exact hn.1
  split at h
  · rename_i hn
    exact .inl ⟨hsmall hn, h⟩
  · cases hpatch : tgt.makePatch lib src with
    | error fault => rw [hpatch] at h; cases h
    | ok patch =>
      simp only [hpatch, bind, Except.bind] at h
      split at h
      · rename_i hn
        exact .inl ⟨hsmall hn, h⟩
      · cases h
        exact .inr ⟨patch, rfl, rfl⟩

theorem expandedSource_eq {data : List UInt8} {used : Nat} {stream : List UInt8}
    (hmemory : 2 ^ 32 ≤ lib.memory) (h : lib.inflate stream = some (data, used))
    (hstream : stream.length < 2 ^ 32) (hlt : (data ++ bonus).length < 2 ^ 32) :
    expandedSource lib stream (data ++ bonus).length bonus = .ok (data ++ bonus) := by
  rw [expandedSource, if_neg (not_not.mpr ⟨by omega, by omega⟩)]
  split
  · rw [Nat.mod_eq_of_lt hstream, List.take_length, h]
    simp only [Nat.mod_eq_of_lt hlt]
    rw [if_neg (by simp), if_neg (by simp)]
    simp
  · rename_i hzero
    rw [not_not, List.length_eq_zero_iff] at hzero
    rw [hzero]

theorem Matched.yields (hm : Matched laws old f bonus tgt src) (hold : old.length < 2 ^ 32)
    (h : PatchChunk.generate lib tgt src = .ok c) :
    (c.relocate f).Yields laws old bonus tgt.raw ∧
      ((c.relocate f).IsEmptyStream ↔ tgt.type = .deflate ∧ tgt.uncompressedData = []) := by
  rcases hm with ⟨hlevel, ⟨htgt, hsrc, rfl⟩ |
    ⟨htgt, hsrc, hlt, hone, hle, ⟨data, used, hinf, hunc⟩, hsrclt⟩⟩
  · rcases PatchChunk.generate_eq_ok h with ⟨-, hraw⟩ | ⟨patch, hpatch, rfl⟩
    · obtain ⟨htype, hdata, -⟩ := PatchChunk.makeRaw_eq_ok htgt hraw
      simp [PatchChunk.relocate, PatchChunk.Yields, PatchChunk.IsEmptyStream, htype, hdata, htgt]
    · obtain ⟨old, new, hfrom, hto, hdiff⟩ := ImageChunk.makePatch_eq_ok hpatch
      rw [ImageChunk.dataForPatch, if_neg (by simp [hsrc])] at hfrom
      rw [ImageChunk.dataForPatch, if_neg (by simp [htgt])] at hto
      obtain ⟨hle, rfl⟩ := ImageChunk.getRawData_eq_ok hfrom
      obtain ⟨-, rfl⟩ := ImageChunk.getRawData_eq_ok hto
      simp only [PatchChunk.relocate, PatchChunk.make, PatchChunk.Yields, PatchChunk.IsEmptyStream,
        htgt, reduceCtorEq, if_false, false_and, and_true]
      exact ⟨hle, hdiff⟩
  · rcases PatchChunk.generate_eq_ok h with ⟨hnormal, -⟩ | ⟨patch, hpatch, rfl⟩
    · rw [htgt] at hnormal
      cases hnormal
    · obtain ⟨_, _, hfrom, hto, hdiff⟩ := ImageChunk.makePatch_eq_ok hpatch
      rw [ImageChunk.dataForPatch, if_pos hsrc] at hfrom
      rw [ImageChunk.dataForPatch, if_pos htgt] at hto
      cases hfrom
      cases hto
      simp only [PatchChunk.relocate, PatchChunk.make, PatchChunk.Yields, PatchChunk.IsEmptyStream,
        htgt, if_true, true_and, ImageChunk.dataLengthForPatch, hsrc, List.length_eq_zero_iff,
        and_true]
      refine ⟨hle, hlevel, src.uncompressedData, tgt.uncompressedData, ?_, hdiff, rfl, hlt, hone⟩
      rw [hunc] at hsrclt ⊢
      refine expandedSource_eq laws.memory hinf ?_ hsrclt
      rw [List.length_take, List.length_drop]
      omega

theorem PatchChunk.sized_of_generate (hlevel : tgt.compressLevel = 6 ∨ tgt.compressLevel = 9)
    (hfile : tgt.file.length < 2 ^ 31)
    (hkind : tgt.type = .normal ∧ src.type = .normal ∧ src.file.length < 2 ^ 63 ∨
      tgt.type = .deflate ∧ tgt.uncompressedData.length < 2 ^ 32 ∧ f src.start < 2 ^ 63 ∧
        src.rawDataLen < 2 ^ 63 ∧ src.dataLengthForPatch < 2 ^ 63)
    (h : PatchChunk.generate lib tgt src = .ok c) : (c.relocate f).Sized := by
  have hlevel' : tgt.compressLevel < 2 ^ 31 := by omega
  rcases hkind with ⟨htgt, hsrc, hsrclt⟩ | ⟨htgt, hunc, hstart, hlen, hdata⟩
  · rcases PatchChunk.generate_eq_ok h with ⟨-, hraw⟩ | ⟨patch, hpatch, rfl⟩
    · obtain ⟨htype, hdata, hstart, hlen, hulen, htlen, hclevel, hle⟩ :=
        PatchChunk.makeRaw_eq_ok htgt hraw
      have hlength : c.data.length ≤ tgt.file.length := by
        rw [hdata, ImageChunk.length_raw hle]
        omega
      constructor <;> simp only [PatchChunk.relocate, htype, reduceCtorEq, if_false] <;> omega
    · obtain ⟨old, new, hfrom, hto, -⟩ := ImageChunk.makePatch_eq_ok hpatch
      rw [ImageChunk.dataForPatch, if_neg (by simp [hsrc])] at hfrom
      rw [ImageChunk.dataForPatch, if_neg (by simp [htgt])] at hto
      obtain ⟨hle, -⟩ := ImageChunk.getRawData_eq_ok hfrom
      obtain ⟨hle', -⟩ := ImageChunk.getRawData_eq_ok hto
      constructor <;> simp only [PatchChunk.relocate, PatchChunk.make,
        ImageChunk.dataLengthForPatch, htgt, hsrc, reduceCtorEq, if_false, false_imp_iff] <;> omega
  · rcases PatchChunk.generate_eq_ok h with ⟨hnormal, -⟩ | ⟨patch, -, rfl⟩
    · rw [htgt] at hnormal
      cases hnormal
    · have htlen : tgt.dataLengthForPatch = tgt.uncompressedData.length := by
        simp [ImageChunk.dataLengthForPatch, htgt]
      constructor <;> simp only [PatchChunk.relocate, PatchChunk.make, htgt, htlen, if_true,
        reduceCtorEq, false_imp_iff] <;> omega

theorem Matched.sized (hm : Matched laws old f bonus tgt src) (hold : old.length < 2 ^ 32)
    (htgtlt : tgt.file.length < 2 ^ 31) (h : PatchChunk.generate lib tgt src = .ok c) :
    (c.relocate f).Sized := by
  rcases hm with ⟨hlevel, ⟨htgt, hsrc, rfl⟩ | ⟨htgt, hsrc, hlt, -, hle, -, hsrclt⟩⟩
  · exact PatchChunk.sized_of_generate hlevel htgtlt (.inl ⟨htgt, hsrc, by omega⟩) h
  · refine PatchChunk.sized_of_generate hlevel htgtlt
      (.inr ⟨htgt, hlt, by omega, by omega, ?_⟩) h
    rw [ImageChunk.dataLengthForPatch, if_pos hsrc]
    omega

theorem ImageChunk.le_of_generate (htgt : tgt.type = .normal)
    (h : PatchChunk.generate lib tgt src = .ok c) :
    tgt.start + tgt.rawDataLen ≤ tgt.file.length := by
  rcases PatchChunk.generate_eq_ok h with ⟨-, hraw⟩ | ⟨patch, hpatch, rfl⟩
  · exact (PatchChunk.makeRaw_eq_ok htgt hraw).2.2.2.2.2.2.2
  · obtain ⟨old, new, -, hto, -⟩ := ImageChunk.makePatch_eq_ok hpatch
    rw [ImageChunk.dataForPatch, if_neg (by simp [htgt])] at hto
    exact (ImageChunk.getRawData_eq_ok hto).1

end

/-! ## All chunks of an image -/

theorem bind_eq_ok {α β ε : Type} {x : Except ε α} {g : α → Except ε β} {b : β} :
    (x >>= g) = .ok b ↔ ∃ a, x = .ok a ∧ g a = .ok b := by
  cases x with
  | error e => simp [bind, Except.bind]
  | ok a => simp [bind, Except.bind]

theorem forall₂_of_mapM {α β ε : Type} {g : α → Except ε β} {l : List α} {l' : List β}
    (h : l.mapM g = .ok l') : List.Forall₂ (fun a b => g a = .ok b) l l' := by
  induction l generalizing l' with
  | nil =>
    cases h
    exact .nil
  | cons a l ih =>
    rw [List.mapM_cons] at h
    cases ha : g a with
    | error e => rw [ha] at h; cases h
    | ok b =>
      cases hl : l.mapM g with
      | error e => simp [ha, hl, bind, Except.bind] at h
      | ok bs =>
        simp only [ha, hl, bind, Except.bind, pure, Except.pure, Except.ok.injEq] at h
        subst h
        exact .cons ha (ih hl)

/-- What holds of all elements of one list holds of all elements of the other. -/
theorem forall_mem_iff_of_forall₂ {α β : Type} {R : α → β → Prop} {P : α → Prop} {Q : β → Prop}
    {l : List α} {l' : List β} (h : List.Forall₂ R l l')
    (hPQ : ∀ a ∈ l, ∀ b, R a b → (P a ↔ Q b)) : (∀ a ∈ l, P a) ↔ ∀ b ∈ l', Q b := by
  induction h with
  | nil => simp
  | cons hab _ ih =>
    rw [List.forall_mem_cons, List.forall_mem_cons, hPQ _ List.mem_cons_self _ hab,
      ih fun a ha => hPQ a (List.mem_cons_of_mem _ ha)]

/-- The pairs from index `i` on are matched; the bonus data is for chunk 1. -/
def MatchedFrom (old : List UInt8) (f : Nat → Nat) (bonus : Option (List UInt8)) :
    (i : Nat) → List (ImageChunk × ImageChunk) → Prop
  | _, [] => True
  | i, p :: ps => Matched laws old f (bonusAt bonus i) p.1 p.2 ∧ MatchedFrom old f bonus (i + 1) ps

section
variable {laws} {old tgtFile : List UInt8} {bonus : Option (List UInt8)} {f : Nat → Nat} {i : Nat}
  {ps : List (ImageChunk × ImageChunk)} {cs : List PatchChunk}

theorem MatchedFrom.of_forall
    (h : ∀ p ∈ ps, ∀ j, i ≤ j → Matched laws old f (bonusAt bonus j) p.1 p.2) :
    MatchedFrom laws old f bonus i ps := by
  induction ps generalizing i with
  | nil => trivial
  | cons p ps ih =>
    refine ⟨h p List.mem_cons_self i (Nat.le_refl i), ih ?_⟩
    intro q hq j hj
    exact h q (List.mem_cons_of_mem _ hq) j (Nat.le_of_succ_le hj)

theorem MatchedFrom.yieldsFrom (hm : MatchedFrom laws old f bonus i ps) (hold : old.length < 2 ^ 32)
    (htgt : tgtFile.length < 2 ^ 31) (hfile : ∀ p ∈ ps, p.1.file = tgtFile)
    (hcs : List.Forall₂ (fun (p : ImageChunk × ImageChunk) c =>
      PatchChunk.generate lib p.1 p.2 = .ok c) ps cs) :
    PatchChunk.YieldsFrom laws old bonus i (cs.map (PatchChunk.relocate f))
        (ps.map fun p => p.1.raw) ∧
      (∀ c ∈ cs.map (PatchChunk.relocate f), c.Sized) ∧
      ((∀ c ∈ cs.map (PatchChunk.relocate f), ¬ c.IsEmptyStream) ↔
        ∀ p ∈ ps, ¬ (p.1.type = .deflate ∧ p.1.uncompressedData = [])) := by
  induction hcs generalizing i with
  | nil => simp [PatchChunk.YieldsFrom]
  | @cons p c ps cs hc _ ih =>
    obtain ⟨hp, hps⟩ := hm
    obtain ⟨hyield, hempty⟩ := hp.yields hold hc
    have hsized := hp.sized hold (by rw [hfile p List.mem_cons_self]; exact htgt) hc
    obtain ⟨hyields, hsizeds, hempties⟩ := ih hps fun q hq => hfile q (List.mem_cons_of_mem _ hq)
    refine ⟨⟨hyield, hyields⟩, ?_, ?_⟩
    · rw [List.map_cons, List.forall_mem_cons]
      exact ⟨hsized, hsizeds⟩
    · rw [List.map_cons, List.forall_mem_cons, List.forall_mem_cons, hempty, hempties]

end

end BootableRecovery.ApplyPatch
