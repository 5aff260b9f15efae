import BootableRecovery.ApplyPatch.ImageMode
import BootableRecovery.ApplyPatch.Split

/-!
# Round trip in zip mode

The chunks of a zip file tile it, and `CheckAndProcessChunks` keeps that. Without a block limit, the
patch gives the target back if every deflate chunk that is left has data and still finds its deflate
source chunk. A source chunk can be lost: a later target chunk may turn it into a normal one.
-/

namespace BootableRecovery.ApplyPatch.ZipMode

/-- What is known of the zip library: the data of an entry stands in the archive, and what is
extracted is what its deflate stream inflates to. -/
structure ZipArchive.Lawful (lib : Lib) (zip : ZipArchive) : Prop where
  inFile : ∀ {archive es e}, zip.entries archive = some es → e ∈ es →
    e.offset + e.compressedLength ≤ archive.length
  extract : ∀ {archive e data}, zip.extractToMemory archive e = some data →
    (∃ used, lib.inflate ((archive.drop e.offset).take e.compressedLength) = some (data, used)) ∧
      data.length < 2 ^ 32

/-- The entries of a file that become chunks stand one after the other. -/
def EntriesDisjoint (zip : ZipArchive) (limit : Nat) (file : List UInt8) : Prop :=
  ∀ zipSize es, getZipFileSize file = .ok zipSize → zip.entries (file.take zipSize) = some es →
    (tempEntries limit es).Pairwise fun e e' => e.offset + e.compressedLength ≤ e'.offset

variable {lib : Lib} {zip : ZipArchive} {limit zipSize : Nat} {file : List UInt8}

/-! ## The chunks of a file -/

theorem tiles_splitEntry (hlimit : 0 < limit) (e : ZipEntry) {fuel count n : Nat}
    (hfuel : n ≤ fuel) :
    Tiles file (e.offset + limit * count) (splitEntry limit file e fuel count n)
      (e.offset + limit * count + n) := by
  induction fuel generalizing count n with
  | zero =>
    rw [Nat.le_zero.mp hfuel]
    rfl
  | succ fuel ih =>
    rw [splitEntry]
    split
    · rename_i hpos
      rcases Nat.lt_or_ge limit n with hlong | hshort
      · have htiles := @ih (count + 1) (n - min limit n) (by omega)
        refine ⟨rfl, rfl, ?_⟩
        rw [Nat.mul_succ] at htiles
        dsimp only
        rwa [show e.offset + limit * count + n = e.offset + (limit * count + limit) +
            (n - min limit n) by omega,
          show e.offset + limit * count + min limit n = e.offset + (limit * count + limit) by omega]
      · have hnil : splitEntry limit file e fuel (count + 1) (n - min limit n) = [] := by
          rw [show n - min limit n = 0 by omega]
          cases fuel <;> rfl
        dsimp only
        rw [hnil]
        refine ⟨rfl, rfl, ?_⟩
        show e.offset + limit * count + min limit n = e.offset + limit * count + n
        omega
    · rw [show n = 0 by omega]
      rfl

theorem of_mem_splitEntry (hlimit : 0 < limit) {e : ZipEntry} {fuel count n : Nat} {c : ImageChunk}
    (hc : c ∈ splitEntry limit file e fuel count n) : c.WellFormed lib ∧ c.rawDataLen ≤ limit := by
  induction fuel generalizing count n with
  | zero => cases hc
  | succ fuel ih =>
    rw [splitEntry] at hc
    split at hc
    · rename_i hpos
      rcases List.mem_cons.mp hc with rfl | hc
      · exact ⟨⟨rfl, by dsimp only; omega, .inl rfl⟩, Nat.min_le_left ..⟩
      · exact ih hc
    · cases hc

theorem take_drop_take {n o l : Nat} (h : o + l ≤ n) :
    ((file.take n).drop o).take l = (file.drop o).take l := by
  rw [List.drop_take, List.take_take, Nat.min_eq_left (by omega)]

theorem addZipEntryToChunks_spec (zlaws : zip.Lawful lib) {e : ZipEntry} {cs : List ImageChunk}
    (he : e.offset + e.compressedLength ≤ (file.take zipSize).length)
    (h : addZipEntryToChunks zip limit file zipSize e = .ok cs) :
    Tiles file e.offset cs (e.offset + e.compressedLength) ∧
      ∀ c ∈ cs, c.WellFormed lib ∧ (0 < limit → c.rawDataLen ≤ limit) := by
  rw [List.length_take] at he
  unfold addZipEntryToChunks at h
  split at h
  · rename_i hzero
    cases h
    exact ⟨by rw [hzero]; rfl, by simp⟩
  · rename_i hne
    split at h
    · rename_i hlarge
      cases h
      have htiles : Tiles file (e.offset + limit * 0) _ _ :=
        tiles_splitEntry hlarge.1 e (Nat.le_refl e.compressedLength)
      refine ⟨htiles, fun c hc => ?_⟩
      obtain ⟨hwf, hle⟩ := of_mem_splitEntry hlarge.1 hc
      exact ⟨hwf, fun _ => hle⟩
    · rename_i hsmall
      have hle : 0 < limit → e.compressedLength ≤ limit := by omega
      split at h
      · cases hdata : zip.extractToMemory (file.take zipSize) e with
        | none => rw [hdata] at h; cases h
        | some data =>
          rw [hdata] at h
          cases h
          obtain ⟨⟨used, hinf⟩, hlt⟩ := zlaws.extract hdata
          rw [take_drop_take (by omega)] at hinf
          refine ⟨⟨rfl, rfl, rfl⟩, ?_⟩
          rw [List.forall_mem_singleton]
          exact ⟨⟨rfl, Nat.pos_of_ne_zero hne, .inr ⟨rfl, by dsimp only; omega, ⟨used, hinf⟩, hlt⟩⟩,
            hle⟩
      · cases h
        refine ⟨⟨rfl, rfl, rfl⟩, ?_⟩
        rw [List.forall_mem_singleton]
        exact ⟨⟨rfl, Nat.pos_of_ne_zero hne, .inl rfl⟩, hle⟩

theorem targetChunks_spec (zlaws : zip.Lawful lib) (hsize : file.length < 2 ^ 63) {pos : Nat}
    {es : List ZipEntry} {cs : List ImageChunk} (hpos : pos ≤ file.length)
    (hes : ∀ e ∈ es, pos ≤ e.offset ∧ e.offset + e.compressedLength ≤ (file.take zipSize).length)
    (hsorted : es.Pairwise fun e e' => e.offset + e.compressedLength ≤ e'.offset)
    (h : targetChunks zip limit file zipSize pos es = .ok cs) :
    Tiles file pos cs file.length ∧ ∀ c ∈ cs, c.WellFormed lib := by
  induction es generalizing pos cs with
  | nil =>
    rw [targetChunks] at h
    cases h
    split
    · refine ⟨⟨rfl, rfl, ?_⟩, ?_⟩
      · show pos + (file.length - pos) = file.length
        omega
      · rw [List.forall_mem_singleton]
        exact ⟨rfl, by dsimp only; omega, .inl rfl⟩
    · exact ⟨show pos = file.length by omega, by simp⟩
  | cons e es ih =>
    rw [List.forall_mem_cons] at hes
    obtain ⟨⟨hoff, hend⟩, hes⟩ := hes
    rw [List.pairwise_cons] at hsorted
    have hend' := hend
    rw [List.length_take] at hend'
    rw [targetChunks] at h
    split at h
    · rename_i hlt
      -- what is between the last entry and this one
      have hgap : Tiles file pos (if pos = e.offset then [] else
            [{ type := .normal, start := pos, file,
                rawDataLen := (e.offset + 2 ^ 64 - pos) % 2 ^ 64 }]) e.offset ∧
          ∀ c ∈ (if pos = e.offset then [] else
            [{ type := .normal, start := pos, file,
                rawDataLen := (e.offset + 2 ^ 64 - pos) % 2 ^ 64 }] : List ImageChunk),
            c.WellFormed lib := by
        split
        · exact ⟨by assumption, by simp⟩
        · have hlen : (e.offset + 2 ^ 64 - pos) % 2 ^ 64 = e.offset - pos := by omega
          rw [hlen]
          refine ⟨⟨rfl, rfl, ?_⟩, ?_⟩
          · show pos + (e.offset - pos) = e.offset
            omega
          · rw [List.forall_mem_singleton]
            exact ⟨rfl, by dsimp only; omega, .inl rfl⟩
      dsimp only at h
      generalize (if pos = e.offset then [] else
        [{ type := .normal, start := pos, file,
            rawDataLen := (e.offset + 2 ^ 64 - pos) % 2 ^ 64 }] : List ImageChunk) = gap at h hgap
      split at h
      · obtain ⟨chunks, hchunks, h⟩ := bind_eq_ok.mp h
        obtain ⟨rest, hrest, h⟩ := bind_eq_ok.mp h
        cases h
        obtain ⟨hentry, hentryWf⟩ := addZipEntryToChunks_spec zlaws hend hchunks
        obtain ⟨hrestTiles, hrestWf⟩ := ih (by omega)
          (fun e' he' => ⟨hsorted.1 e' he', (hes e' he').2⟩) hsorted.2 hrest
        refine ⟨Tiles.append_iff.mpr ⟨_, Tiles.append_iff.mpr ⟨_, hgap.1, hentry⟩, hrestTiles⟩, ?_⟩
        intro c hc
        rcases List.mem_append.mp hc with hc | hc
        · rcases List.mem_append.mp hc with hc | hc
          · exact hgap.2 c hc
          · exact (hentryWf c hc).1
        · exact hrestWf c hc
      · cases h
        have hlast : e.offset = file.length := by omega
        exact ⟨hlast ▸ hgap.1, hgap.2⟩
    · cases h
      exact ⟨show pos = file.length by omega, by simp⟩

theorem eocdLoop_eq_ok {i n : Nat} (h : eocdLoop file i = .ok n) : n ≤ file.length := by
  induction i with
  | zero => cases h
  | succ i ih =>
    rw [eocdLoop] at h
    split at h
    · split at h
      · cases h
      · dsimp only at h
        split at h
        · cases h
          assumption
        · cases h
    · exact ih h

theorem getZipFileSize_eq_ok {n : Nat} (h : getZipFileSize file = .ok n) :
    n ≤ file.length ∧ file ≠ [] := by
  unfold getZipFileSize at h
  split at h
  · cases h
  · rename_i hlen
    refine ⟨eocdLoop_eq_ok h, ?_⟩
    rintro rfl
    simp at hlen

theorem mem_tempEntries {es : List ZipEntry} {e : ZipEntry} (h : e ∈ tempEntries limit es) :
    e ∈ es := by
  rw [tempEntries, List.mem_insertionSort] at h
  exact List.mem_of_mem_filter h

theorem initializeImage_target (zlaws : zip.Lawful lib) (hsize : file.length < 2 ^ 63)
    (hdisjoint : EntriesDisjoint zip limit file) {cs : List ImageChunk}
    (h : initializeImage zip false limit file = .ok cs) :
    file ≠ [] ∧ Tiles file 0 cs file.length ∧ ∀ c ∈ cs, c.WellFormed lib := by
  obtain ⟨n, hn, h⟩ := bind_eq_ok.mp h
  obtain ⟨-, hne⟩ := getZipFileSize_eq_ok hn
  cases hes : zip.entries (file.take n) with
  | none => rw [hes] at h; cases h
  | some es =>
    simp only [hes, Bool.false_eq_true, if_false] at h
    exact ⟨hne, targetChunks_spec zlaws hsize (Nat.zero_le _)
      (fun e he => ⟨Nat.zero_le _, zlaws.inFile hes (mem_tempEntries he)⟩)
      (hdisjoint n es hn hes) h⟩

theorem initializeImage_source (zlaws : zip.Lawful lib) {cs : List ImageChunk}
    (h : initializeImage zip true limit file = .ok cs) :
    (∀ c ∈ cs, c.WellFormed lib ∧ c.file = file ∧ c.start + c.rawDataLen ≤ file.length) ∧
      ∃ cd, cs.getLast? = some cd ∧ cd.type = .normal := by
  obtain ⟨n, hn, h⟩ := bind_eq_ok.mp h
  cases hes : zip.entries (file.take n) with
  | none => rw [hes] at h; cases h
  | some es =>
    simp only [hes, if_true] at h
    obtain ⟨chunks, hchunks, h⟩ := bind_eq_ok.mp h
    dsimp only at h
    split at h
    · rename_i hend
      cases h
      refine ⟨?_, _, List.getLast?_concat .., rfl⟩
      intro c hc
      rcases List.mem_append.mp hc with hc | hc
      · obtain ⟨l, hl, hc⟩ := List.mem_flatten.mp hc
        have hall := forall₂_of_mapM hchunks
        obtain ⟨i, hi, rfl⟩ := List.mem_iff_getElem.mp hl
        have hi' : i < (tempEntries limit es).length := hall.length_eq ▸ hi
        have he := zlaws.inFile hes (mem_tempEntries (List.getElem_mem hi'))
        obtain ⟨htiles, hwf⟩ :=
          addZipEntryToChunks_spec zlaws he ((List.forall₂_iff_get.mp hall).2 i hi' hi)
        obtain ⟨hfile, -, hle⟩ := htiles.of_mem hc
        rw [List.length_take] at he
        exact ⟨(hwf c hc).1, hfile, by omega⟩
      · rw [List.mem_singleton.mp hc]
        exact ⟨⟨rfl, by dsimp only; omega, .inl rfl⟩, rfl, by dsimp only; omega⟩
    · cases h

/-! ## CheckAndProcessChunks -/

variable {laws : lib.Lawful}

/-- A target chunk after `CheckAndProcessChunks`: a deflate chunk can be made again from its
data. -/
structure Target (laws : lib.Lawful) (c : ImageChunk) : Prop where
  level : c.compressLevel = 6 ∨ c.compressLevel = 9
  pos : 0 < c.rawDataLen
  kind : c.type = .normal ∨ c.type = .deflate ∧ c.start + c.rawDataLen ≤ c.file.length ∧
    c.uncompressedData.length < 2 ^ 32 ∧ laws.oneShot c.compressLevel c.uncompressedData = c.raw

theorem wellFormed_change {c : ImageChunk} (h : c.WellFormed lib) :
    c.changeDeflateChunkToNormal.WellFormed lib ∧ c.changeDeflateChunkToNormal.type = .normal ∧
      c.changeDeflateChunkToNormal.file = c.file ∧ c.changeDeflateChunkToNormal.start = c.start ∧
      c.changeDeflateChunkToNormal.rawDataLen = c.rawDataLen := by
  unfold ImageChunk.changeDeflateChunkToNormal
  split
  · exact ⟨⟨h.level, h.pos, .inl rfl⟩, rfl, rfl, rfl, rfl⟩
  · rename_i hne
    rcases h.kind with hnormal | hdeflate
    · exact ⟨h, hnormal, rfl, rfl, rfl⟩
    · exact absurd hdeflate.1 hne

theorem Target.of_normal {c : ImageChunk} (h : c.WellFormed lib) (hnormal : c.type = .normal) :
    Target laws c :=
  ⟨.inl h.level, h.pos, .inl hnormal⟩

theorem forall_mem_changeFound {P : ImageChunk → Prop} (name : Text) {src : List ImageChunk}
    (hchange : ∀ c, P c → P c.changeDeflateChunkToNormal) (h : ∀ c ∈ src, P c) :
    ∀ c ∈ changeFound name src, P c := by
  induction src with
  | nil => exact h
  | cons c src ih =>
    rw [List.forall_mem_cons] at h
    rw [changeFound]
    split
    · exact List.forall_mem_cons.mpr ⟨hchange c h.1, h.2⟩
    · exact List.forall_mem_cons.mpr ⟨h.1, ih h.2⟩

theorem getLast?_changeFound {name : Text} {src : List ImageChunk} {cd : ImageChunk}
    (h : src.getLast? = some cd) (hcd : cd.type = .normal) :
    (changeFound name src).getLast? = some cd := by
  induction src with
  | nil => cases h
  | cons c src ih =>
    cases src with
    | nil =>
      have hc : c = cd := Option.some.inj h
      simp [changeFound, isFound, hc, hcd]
    | cons d src =>
      rw [List.getLast?_cons_cons] at h
      have hrest := ih h
      rw [changeFound]
      split
      · rwa [List.getLast?_cons_cons]
      · rw [List.getLast?_cons, hrest]
        rfl

/-- One round makes a target chunk that stands in the same place. What holds of the source chunks
and does not get lost when one of them becomes normal is kept. -/
theorem processChunk_spec (laws : lib.Lawful) {L : List ImageChunk → Prop}
    (hchange : ∀ name src, L src → L (changeFound name src)) {tgt tgt' : ImageChunk}
    {src src' : List ImageChunk} (htgt : tgt.WellFormed lib) (hsrc : L src)
    (h : processChunk lib tgt src = .ok (tgt', src')) :
    Target laws tgt' ∧ (tgt'.file = tgt.file ∧ tgt'.start = tgt.start ∧
      tgt'.rawDataLen = tgt.rawDataLen) ∧ L src' := by
  obtain ⟨hwf, hnormal, hfile, hstart, hlen⟩ := wellFormed_change htgt
  have hsrc' := hchange tgt.entryName src hsrc
  rw [processChunk] at h
  split at h
  · rename_i hne
    cases h
    rcases htgt.kind with hkind | hkind
    · exact ⟨.of_normal htgt hkind, ⟨rfl, rfl, rfl⟩, hsrc⟩
    · exact absurd hkind.1 hne
  · rename_i htype
    rw [not_not] at htype
    split at h
    · cases h
      exact ⟨.of_normal hwf hnormal, ⟨hfile, hstart, hlen⟩, hsrc⟩
    · obtain ⟨b, -, h⟩ := bind_eq_ok.mp h
      split at h
      · cases h
        exact ⟨.of_normal hwf hnormal, ⟨hfile, hstart, hlen⟩, hsrc'⟩
      · split at h
        · rename_i c hrec
          cases h
          rcases htgt.kind with hkind | ⟨-, hle, -, hlt⟩
          · rw [hkind] at htype
            cases htype
          · obtain ⟨-, level, hlevel, rfl, hone⟩ :=
              ImageChunk.reconstructDeflateChunk_eq_some laws hle hlt hrec
            exact ⟨⟨hlevel, htgt.pos, .inr ⟨htype, hle, hlt, hone⟩⟩, ⟨rfl, rfl, rfl⟩, hsrc⟩
        · cases h
          exact ⟨.of_normal hwf hnormal, ⟨hfile, hstart, hlen⟩, hsrc'⟩

theorem processChunks_spec (laws : lib.Lawful) {L : List ImageChunk → Prop}
    (hchange : ∀ name src, L src → L (changeFound name src)) {tgt tgt' src src' : List ImageChunk}
    (htgt : ∀ c ∈ tgt, c.WellFormed lib) (hsrc : L src)
    (h : processChunks lib tgt src = .ok (tgt', src')) :
    (∀ c ∈ tgt', Target laws c) ∧
      List.Forall₂ (fun c c' : ImageChunk => c'.file = c.file ∧ c'.start = c.start ∧
        c'.rawDataLen = c.rawDataLen) tgt tgt' ∧ L src' := by
  induction tgt generalizing tgt' src with
  | nil =>
    cases h
    exact ⟨by simp, .nil, hsrc⟩
  | cons c tgt ih =>
    rw [List.forall_mem_cons] at htgt
    obtain ⟨⟨c', src₁⟩, hone, h⟩ := bind_eq_ok.mp h
    obtain ⟨⟨tgt₁, src₂⟩, hrest, h⟩ := bind_eq_ok.mp h
    cases h
    obtain ⟨hc', hplace, hsrc₁⟩ := processChunk_spec laws hchange htgt.1 hsrc hone
    obtain ⟨htgt₁, hplaces, hsrc₂⟩ := ih htgt.2 hsrc₁ hrest
    exact ⟨List.forall_mem_cons.mpr ⟨hc', htgt₁⟩, .cons hplace hplaces, hsrc₂⟩

/-- The chunks of target and source after `CheckAndProcessChunks`. -/
def processedImages (lib : Lib) (zip : ZipArchive) (limit : Nat) (srcFile tgtFile : List UInt8) :
    Except Fault (List ImageChunk × List ImageChunk) := do
  let src ← initializeImage zip true limit srcFile
  let tgt ← initializeImage zip false limit tgtFile
  checkAndProcessChunks lib limit tgt src

/-- What is known of them. -/
structure Processed (laws : lib.Lawful) (srcFile tgtFile : List UInt8) (tgt src : List ImageChunk) :
    Prop where
  nonempty : tgtFile ≠ []
  tiles : Tiles tgtFile 0 tgt tgtFile.length
  targets : ∀ c ∈ tgt, Target laws c
  sources : ∀ c ∈ src, c.WellFormed lib ∧ c.file = srcFile ∧ c.start + c.rawDataLen ≤ srcFile.length
  last : ∃ cd, src.getLast? = some cd ∧ cd.type = .normal

theorem Target.mergeAdjacentNormalChunks {cs : List ImageChunk} (h : ∀ c ∈ cs, Target laws c) :
    ∀ c ∈ ApplyPatch.mergeAdjacentNormalChunks cs, Target laws c := by
  apply forall_mem_mergeAdjacentNormalChunks _ h
  intro c d hc hd hadj
  simp only [ImageChunk.isAdjacentNormal, Bool.and_eq_true, decide_eq_true_eq] at hadj
  exact ⟨hc.level, Nat.add_pos_left hc.pos _, .inl hadj.1.1⟩

theorem processedImages_spec (laws : lib.Lawful) (zlaws : zip.Lawful lib)
    {srcFile tgtFile : List UInt8} (hsize : tgtFile.length < 2 ^ 63)
    (hdisjoint : EntriesDisjoint zip limit tgtFile) {tgt src : List ImageChunk}
    (h : processedImages lib zip limit srcFile tgtFile = .ok (tgt, src)) :
    Processed laws srcFile tgtFile tgt src := by
  obtain ⟨src₀, hsrc₀, h⟩ := bind_eq_ok.mp h
  obtain ⟨tgt₀, htgt₀, h⟩ := bind_eq_ok.mp h
  obtain ⟨⟨tgt₁, src₁⟩, hprocess, h⟩ := bind_eq_ok.mp h
  cases h
  obtain ⟨hne, htiles, hwf⟩ := initializeImage_target zlaws hsize hdisjoint htgt₀
  obtain ⟨hsrcs, cd, hlast, hcd⟩ := initializeImage_source zlaws hsrc₀
  have hchange : ∀ name (cs : List ImageChunk),
      ((∀ c ∈ cs, c.WellFormed lib ∧ c.file = srcFile ∧ c.start + c.rawDataLen ≤ srcFile.length) ∧
        cs.getLast? = some cd) →
      (∀ c ∈ changeFound name cs, c.WellFormed lib ∧ c.file = srcFile ∧
        c.start + c.rawDataLen ≤ srcFile.length) ∧ (changeFound name cs).getLast? = some cd := by
    rintro name cs ⟨hcs, hcslast⟩
    refine ⟨forall_mem_changeFound name ?_ hcs, getLast?_changeFound hcslast hcd⟩
    rintro c ⟨hc, hfile, hle⟩
    obtain ⟨hc', -, hfile', hstart, hlen⟩ := wellFormed_change hc
    exact ⟨hc', hfile'.trans hfile, hstart ▸ hlen ▸ hle⟩
  obtain ⟨htgt₁, hplaces, hsrc₁, hlast₁⟩ :=
    processChunks_spec laws hchange hwf ⟨hsrcs, hlast⟩ hprocess
  have htiles₁ := htiles.congr hplaces
  split
  · exact ⟨hne, htiles₁.mergeAdjacentNormalChunks, Target.mergeAdjacentNormalChunks htgt₁,
      hsrc₁, cd, hlast₁, hcd⟩
  · exact ⟨hne, htiles₁, htgt₁, hsrc₁, cd, hlast₁, hcd⟩

theorem imgdiff_eq_ok {srcFile tgtFile patch : List UInt8}
    (h : imgdiff lib zip srcFile tgtFile = .ok patch) :
    ∃ tgt src cs, processedImages lib zip 0 srcFile tgtFile = .ok (tgt, src) ∧
      generatePatchesInternal lib tgt src srcFile = .ok cs ∧
      patch = PatchChunk.writePatchDataToFd cs := by
  obtain ⟨src₀, hsrc₀, h⟩ := bind_eq_ok.mp h
  obtain ⟨tgt₀, htgt₀, h⟩ := bind_eq_ok.mp h
  obtain ⟨⟨tgt, src⟩, hcheck, h⟩ := bind_eq_ok.mp h
  have hprocessed : processedImages lib zip 0 srcFile tgtFile = .ok (tgt, src) := by
    rw [processedImages, bind_eq_ok]
    exact ⟨src₀, hsrc₀, bind_eq_ok.mpr ⟨tgt₀, htgt₀, hcheck⟩⟩
  simp only [generatePatches] at h
  split at h
  · cases h
  · rename_i cs hcs
    cases h
    exact ⟨tgt, src, cs, hprocessed, hcs, rfl⟩

/-! ## The round trip -/

section
variable {srcFile tgtFile patch : List UInt8} {tgt src : List ImageChunk}

/-- A target chunk that is still a deflate chunk has data, and there is still a deflate source chunk
for it. -/
def Patchable (tgt src : List ImageChunk) : Prop :=
  ∀ t ∈ tgt, t.type = .deflate →
    t.uncompressedData ≠ [] ∧ (findChunkByName src t.entryName false).isSome

/-- A chunk and the source chunk that is found for it, or the whole file for a normal chunk. -/
theorem Processed.matched (h : Processed laws srcFile tgtFile tgt src) {t : ImageChunk}
    (ht : t ∈ tgt) (hfound : t.type = .deflate → (findChunkByName src t.entryName false).isSome) :
    Matched laws srcFile id [] t (sourceFor src srcFile t) := by
  have htgt := h.targets t ht
  refine ⟨htgt.level, ?_⟩
  rcases htgt.kind with hnormal | ⟨hdeflate, -, hlt, hone⟩
  · refine .inl ⟨hnormal, ?_, ?_⟩ <;> simp [sourceFor, hnormal, pseudoSource]
  · obtain ⟨c, hc⟩ := Option.isSome_iff_exists.mp (hfound hdeflate)
    have hsource : sourceFor src srcFile t = c := by simp [sourceFor, hdeflate, hc]
    obtain ⟨hmem, -, htype, -⟩ := findChunkByName_eq_some hc
    obtain ⟨hwf, rfl, -⟩ := h.sources c hmem
    rw [hsource]
    rcases hwf.kind with hnormal | ⟨hcdeflate, hle, ⟨used, hinf⟩, hclt⟩
    · simp [hnormal] at htype
    · exact .inr ⟨hdeflate, hcdeflate, hlt, hone, hle,
        ⟨c.uncompressedData, used, hinf, (List.append_nil _).symm⟩, hclt⟩

theorem Processed.length_lt (h : Processed laws srcFile tgtFile tgt src)
    (htgt : tgtFile.length < 2 ^ 31) : tgt.length < 2 ^ 31 := by
  have := h.tiles.length_le fun c hc => (h.targets c hc).pos
  omega

theorem Processed.sized (h : Processed laws srcFile tgtFile tgt src)
    (hsrc : srcFile.length < 2 ^ 31) (htgt : tgtFile.length < 2 ^ 31) {t : ImageChunk}
    (ht : t ∈ tgt) {c : PatchChunk}
    (hc : PatchChunk.generate lib t (sourceFor src srcFile t) = .ok c) : c.Sized := by
  have hfile : t.file.length < 2 ^ 31 := by rwa [(h.tiles.of_mem ht).1]
  by_cases hfound : t.type = .deflate → (findChunkByName src t.entryName false).isSome
  · simpa [PatchChunk.relocate_id] using (h.matched ht hfound).sized (by omega) hfile hc
  · rw [Classical.not_imp] at hfound
    have hsource : sourceFor src srcFile t = pseudoSource srcFile := by
      rw [Option.not_isSome_iff_eq_none] at hfound
      simp [sourceFor, hfound.2]
    rw [hsource] at hc
    have hunc : t.uncompressedData.length < 2 ^ 32 := by
      rcases (h.targets t ht).kind with hnormal | hdeflate
      · rw [hfound.1] at hnormal
        cases hnormal
      · exact hdeflate.2.2.1
    have := PatchChunk.sized_of_generate (f := id) (h.targets t ht).level hfile
      (.inr ⟨hfound.1, hunc, ?_, ?_, ?_⟩) hc
    · simpa [PatchChunk.relocate_id] using this
    · simp [pseudoSource]
    · show srcFile.length < 2 ^ 63
      omega
    · show srcFile.length < 2 ^ 63
      omega

theorem Processed.roundTrip (h : Processed laws srcFile tgtFile tgt src)
    (hsrc : srcFile.length < 2 ^ 31) (htgt : tgtFile.length < 2 ^ 31) {cs : List PatchChunk}
    (hcs : List.Forall₂ (fun t c => PatchChunk.generate lib t (sourceFor src srcFile t) =
      .ok c) tgt cs) (hpatch : (PatchChunk.writePatchDataToFd cs).length < 2 ^ 63)
    (hpatchable : Patchable tgt src) :
    (applyImagePatch lib srcFile (PatchChunk.writePatchDataToFd cs) none memorySink ⟨[], []⟩).1 =
    .ok () ∧ (applyImagePatch lib srcFile (PatchChunk.writePatchDataToFd cs) none memorySink
      ⟨[], []⟩).2.sink = tgtFile := by
  have hmatched :
      MatchedFrom laws srcFile id none 0 (tgt.map fun t => (t, sourceFor src srcFile t)) := by
    apply MatchedFrom.of_forall
    intro p hp j _
    obtain ⟨t, ht, rfl⟩ := List.mem_map.mp hp
    rw [show bonusAt none j = [] by simp [bonusAt]]
    exact h.matched ht fun htype => (hpatchable t ht htype).2
  obtain ⟨hyields, hsized, hempty⟩ := hmatched.yieldsFrom (by omega) htgt
    (by
      intro p hp
      obtain ⟨t, ht, rfl⟩ := List.mem_map.mp hp
      exact (h.tiles.of_mem ht).1)
    (List.forall₂_map_left_iff.mpr hcs)
  rw [PatchChunk.relocate_id, List.map_id] at hyields hsized hempty
  have hround := applyImagePatch_writePatchDataToFd_iff (by omega) hsized
    (hcs.length_eq ▸ h.length_lt htgt) hpatch hyields
  have hflatten := h.tiles.flatten_raw
  rw [List.drop_zero, Nat.sub_zero, List.take_length] at hflatten
  rw [List.map_map] at hround
  rw [show (tgt.map ((fun p : ImageChunk × ImageChunk => p.1.raw) ∘
    fun t => (t, sourceFor src srcFile t))).flatten = tgtFile from hflatten] at hround
  apply hround.mpr
  apply hempty.mpr
  intro p hp hnil
  obtain ⟨t, ht, rfl⟩ := List.mem_map.mp hp
  exact (hpatchable t ht hnil.1).1 hnil.2

/-- The whole source file cannot be inflated to as many bytes as it has. -/
theorem expandedSource_eq_error (hmemory : 2 ^ 32 ≤ lib.memory) (hsrc : srcFile.length < 2 ^ 32)
    (hne : srcFile ≠ [])
    (hstream : ∀ data used, lib.inflate srcFile = some (data, used) →
      data.length ≠ srcFile.length) :
      expandedSource lib srcFile srcFile.length [] = .error .failed := by
  rw [expandedSource, if_neg (not_not.mpr ⟨by omega, by omega⟩), if_pos (by simp [hne]),
    Nat.mod_eq_of_lt hsrc, List.take_length]
  cases hinf : lib.inflate srcFile with
  | none => rfl
  | some r =>
    obtain ⟨data, used⟩ := r
    have hlen := hstream data used hinf
    dsimp only
    split
    · rfl
    · rw [if_pos (by simp only [List.length_nil]; omega)]

theorem Processed.patchable (h : Processed laws srcFile tgtFile tgt src) (hne : srcFile ≠ [])
    (hsrc : srcFile.length < 2 ^ 31) (htgt : tgtFile.length < 2 ^ 31) {cs : List PatchChunk}
    (hcs : List.Forall₂ (fun t c => PatchChunk.generate lib t (sourceFor src srcFile t) =
      .ok c) tgt cs) (hpatch : (PatchChunk.writePatchDataToFd cs).length < 2 ^ 63)
    (hstream : ∀ data used, lib.inflate srcFile = some (data, used) → data.length ≠ srcFile.length)
    (hok : (applyImagePatch lib srcFile (PatchChunk.writePatchDataToFd cs) none memorySink
      ⟨[], []⟩).1 = .ok ()) : Patchable tgt src := by
  have hget : ∀ t ∈ tgt, ∃ c ∈ cs, PatchChunk.generate lib t (sourceFor src srcFile t) = .ok c := by
    intro t ht
    obtain ⟨i, hi, rfl⟩ := List.mem_iff_getElem.mp ht
    have hi' : i < cs.length := hcs.length_eq ▸ hi
    exact ⟨cs[i], List.getElem_mem hi', (List.forall₂_iff_get.mp hcs).2 i hi hi'⟩
  have hsized : ∀ c ∈ cs, c.Sized :=
    (forall_mem_iff_of_forall₂ hcs (P := fun _ => True) fun t ht c hc =>
      ⟨fun _ => h.sized hsrc htgt ht hc, fun _ => trivial⟩).mp fun _ _ => trivial
  rw [PatchChunk.length_writePatchDataToFd] at hpatch
  obtain ⟨hs, hread, hof⟩ :=
    PatchChunk.readPatch_writePatchDataToFd hsized (hcs.length_eq ▸ h.length_lt htgt) hpatch
  rw [applyImagePatch_eq hread] at hok
  have hall := exists_of_applyHeaders_ok hof hok
  intro t ht htype
  obtain ⟨c, hc, hgen⟩ := hget t ht
  obtain ⟨j, header, out, hheader, happly⟩ := hall c hc
  have hfound : (findChunkByName src t.entryName false).isSome := by
    by_contra hnone
    rw [Option.not_isSome_iff_eq_none] at hnone
    -- the whole source is taken for a deflate stream
    rw [show sourceFor src srcFile t = pseudoSource srcFile by simp [sourceFor, hnone]] at hgen
    rcases PatchChunk.generate_eq_ok hgen with ⟨hnormal, -⟩ | ⟨data, -, rfl⟩
    · rw [htype] at hnormal
      cases hnormal
    · simp only [ChunkHeader.Of, PatchChunk.make, htype] at hheader
      obtain ⟨offset, rfl, -⟩ := hheader
      have hslice : sourceSlice srcFile 0 srcFile.length = .ok srcFile := by
        rw [sourceSlice_of_le (by omega) (by omega), List.drop_zero, List.take_length]
      simp only [applyChunk, pseudoSource, ImageChunk.dataLengthForPatch, hslice, Option.getD_none,
        ite_self, reduceCtorEq, if_false,
        expandedSource_eq_error laws.memory (by omega) hne hstream] at happly
  refine ⟨?_, hfound⟩
  intro hnil
  obtain ⟨hyields, hempty⟩ := (h.matched ht fun _ => hfound).yields (by omega) hgen
  rw [PatchChunk.relocate_id, id] at hyields hempty
  have hbonus : bonusAt none j = [] := by simp [bonusAt]
  rw [← hbonus] at hyields
  have herror :=
    applyChunk_of_isEmptyStream (by omega) hheader hyields (hempty.mpr ⟨htype, hnil⟩) out
  rw [herror] at happly
  cases happly

/-- The patch gives the target if every deflate chunk can be patched. If the source file is not
itself a deflate stream for as many bytes as it has, it gives the target only then. -/
theorem applyImagePatch_imgdiff_zip (laws : lib.Lawful) (zlaws : zip.Lawful lib)
    (hdisjoint : EntriesDisjoint zip 0 tgtFile) (hsrc : srcFile.length < 2 ^ 31)
    (htgt : tgtFile.length < 2 ^ 31) (hpatch : patch.length < 2 ^ 63)
    (h : imgdiff lib zip srcFile tgtFile = .ok patch) :
    ∃ tgt src, processedImages lib zip 0 srcFile tgtFile = .ok (tgt, src) ∧
      (Patchable tgt src →
        (applyImagePatch lib srcFile patch none memorySink ⟨[], []⟩).1 = .ok () ∧
        (applyImagePatch lib srcFile patch none memorySink ⟨[], []⟩).2.sink = tgtFile) ∧
      ((∀ data used, lib.inflate srcFile = some (data, used) → data.length ≠ srcFile.length) →
        (applyImagePatch lib srcFile patch none memorySink ⟨[], []⟩).1 = .ok () →
        Patchable tgt src) := by
  obtain ⟨tgt, src, cs, hprocessed, hcs, rfl⟩ := imgdiff_eq_ok h
  have hspec := processedImages_spec laws zlaws (by omega) hdisjoint hprocessed
  have hne : srcFile ≠ [] := by
    obtain ⟨src₀, hsrc₀, -⟩ := bind_eq_ok.mp hprocessed
    obtain ⟨n, hn, -⟩ := bind_eq_ok.mp hsrc₀
    exact (getZipFileSize_eq_ok hn).2
  have hall := forall₂_of_mapM hcs
  exact ⟨tgt, src, hprocessed, hspec.roundTrip hsrc htgt hall hpatch,
    hspec.patchable hne hsrc htgt hall hpatch⟩

/-! ## Small archives -/

/-- An entry as it is written into a zip file. -/
structure Member where
  name : List UInt8
  method : Nat
  checksum : List UInt8
  stream : List UInt8
  size : Nat

/-- What the local header and the central directory have in common. -/
def Member.fields (m : Member) : List UInt8 :=
  leBytes 2 m.method ++ [0x00, 0x00, 0x21, 0x00] ++ m.checksum ++ leBytes 4 m.stream.length ++
    leBytes 4 m.size ++ leBytes 2 m.name.length

def localFiles (rest : List UInt8) : List Member → List UInt8
  | [] => rest
  | m :: ms =>
    [0x50, 0x4b, 0x03, 0x04, 0x14, 0x00, 0x00, 0x00] ++ (m.fields ++ ([0x00, 0x00] ++
      (m.name ++ (m.stream ++ localFiles rest ms))))

def centralDirectory : (offset : Nat) → List Member → List UInt8
  | _, [] => []
  | offset, m :: ms =>
    [0x50, 0x4b, 0x01, 0x02, 0x14, 0x00, 0x14, 0x00, 0x00, 0x00] ++ m.fields ++
      List.replicate 10 0x00 ++ [0x80, 0x01] ++ leBytes 4 offset ++ m.name ++
      centralDirectory (offset + 30 + m.name.length + m.stream.length) ms

def zipFile (ms : List Member) : List UInt8 :=
  let directory := centralDirectory 0 ms
  let filesLength := (ms.map fun m => 30 + m.name.length + m.stream.length).sum
  localFiles (directory ++ [0x50, 0x4b, 0x05, 0x06, 0x00, 0x00, 0x00, 0x00] ++
    leBytes 2 ms.length ++ leBytes 2 ms.length ++ leBytes 4 directory.length ++
    leBytes 4 filesLength ++ [0x00, 0x00]) ms

/-- The entries of a central directory. -/
def sampleEntries (archive : List UInt8) : (count : Nat) → (directory : List UInt8) → List ZipEntry
  | 0, _ => []
  | count + 1, directory =>
    let field (bytes : List UInt8) (start n : Nat) : Nat := leNat ((bytes.drop start).take n)
    let header := field directory 42 4
    { name := ((directory.drop 46).take (field directory 28 2)).map fun b => Char.ofNat b.toNat
      offset := header + 30 + field archive (header + 26) 2 + field archive (header + 28) 2
      compressedLength := field directory 20 4
      deflated := field directory 10 2 = 8 } ::
    sampleEntries archive count
      (directory.drop (46 + field directory 28 2 + field directory 30 2 + field directory 32 2))

/-- A library for archives without a comment. -/
def sampleZip : ZipArchive where
  entries archive :=
    let eocd := archive.drop (archive.length - 22)
    let es := sampleEntries archive (leNat ((eocd.drop 10).take 2))
      (archive.drop (leNat ((eocd.drop 16).take 4)))
    if es.all fun e => e.offset + e.compressedLength ≤ archive.length then some es else none
  extractToMemory archive e :=
    (sampleInflate ((archive.drop e.offset).take e.compressedLength)).map Prod.fst

theorem length_of_sampleInflate {input data : List UInt8} {used : Nat}
    (h : sampleInflate input = some (data, used)) : data.length ≤ 1 := by
  unfold sampleInflate at h
  split at h
  all_goals first
    | cases h
      decide
    | cases h

theorem sampleZip_lawful : sampleZip.Lawful sampleLib where
  inFile {archive es e} h he := by
    simp only [sampleZip] at h
    split at h
    · rename_i hall
      cases h
      simpa using List.all_eq_true.mp hall e he
    · cases h
  extract {archive e data} h := by
    obtain ⟨⟨data, used⟩, hinf, rfl⟩ := Option.map_eq_some_iff.mp h
    have := length_of_sampleInflate hinf
    exact ⟨⟨used, hinf⟩, by dsimp only; omega⟩

instance : Decidable (Patchable tgt src) :=
  inferInstanceAs (Decidable (∀ t ∈ tgt, t.type = .deflate →
    t.uncompressedData ≠ [] ∧ (findChunkByName src t.entryName false).isSome))

/-- The letters `a` and `b`, as zip files hold them. -/
def memberA (name : List UInt8) : Member :=
  ⟨name, 8, [0x43, 0xbe, 0xb7, 0xe8], [0x4b, 0x04, 0x00], 1⟩

def memberB (name : List UInt8) : Member :=
  ⟨name, 8, [0xf9, 0xef, 0xbe, 0x71], [0x4b, 0x02, 0x00], 1⟩

def zipA : List UInt8 := zipFile [memberA [0x61]]

def zipB : List UInt8 := zipFile [memberB [0x61]]

/-- The entries `a` and `a-0`. -/
def zipBA : List UInt8 := zipFile [memberB [0x61], memberA [0x61, 0x2d, 0x30]]

theorem entriesDisjoint_of (n : Nat) (es : List ZipEntry) (hn : getZipFileSize file = .ok n)
    (hes : zip.entries (file.take n) = some es)
    (h : (tempEntries limit es).Pairwise fun e e' => e.offset + e.compressedLength ≤ e'.offset) :
    EntriesDisjoint zip limit file := by
  intro n' es' hn' hes'
  cases hn.symm.trans hn'
  cases hes.symm.trans hes'
  exact h

theorem zipB_disjoint : EntriesDisjoint sampleZip 0 zipB :=
  entriesDisjoint_of 103 [⟨['a'], 31, 3, true⟩] (by decide +kernel) (by decide +kernel)
    (by decide +kernel)

def zipPatch (file : List UInt8) : List UInt8 :=
  (imgdiff sampleLib sampleZip zipA file).toOption.getD []

theorem applyImagePatch_imgdiff_zip_small :
    imgdiff sampleLib sampleZip zipA zipB = .ok (zipPatch zipB) ∧
    (applyImagePatch sampleLib zipA (zipPatch zipB) none memorySink ⟨[], []⟩).1 = .ok () ∧
    (applyImagePatch sampleLib zipA (zipPatch zipB) none memorySink ⟨[], []⟩).2.sink = zipB := by
  have h : imgdiff sampleLib sampleZip zipA zipB = .ok (zipPatch zipB) := by decide +kernel
  obtain ⟨tgt, src, hprocessed, hround, -⟩ :=
    applyImagePatch_imgdiff_zip sampleLaws sampleZip_lawful
    zipB_disjoint (by decide +kernel) (by decide +kernel) (by decide +kernel) h
  have hpatchable : ∀ p, processedImages sampleLib sampleZip 0 zipA zipB = .ok p →
      Patchable p.1 p.2 := by
    intro p hp
    have : ((processedImages sampleLib sampleZip 0 zipA zipB).toOption.all
      fun p => decide (Patchable p.1 p.2)) = true := by decide +kernel
    rw [hp] at this
    exact of_decide_eq_true this
  exact ⟨h, hround (hpatchable _ hprocessed)⟩

/-- The entry `a-0` is equal to the entry `a` of the source and makes it a normal chunk. The entry
`a` that relies on it is then patched from the whole file, and the patch cannot be applied. -/
theorem not_applyImagePatch_imgdiff_zip : Nonempty sampleLib.Lawful ∧ sampleZip.Lawful sampleLib ∧
    EntriesDisjoint sampleZip 0 zipA ∧ EntriesDisjoint sampleZip 0 zipBA ∧
    imgdiff sampleLib sampleZip zipA zipBA = .ok (zipPatch zipBA) ∧
    (applyImagePatch sampleLib zipA (zipPatch zipBA) none memorySink ⟨[], []⟩).1 =
    .error .failed := by
  refine ⟨⟨sampleLaws⟩, sampleZip_lawful, ?_, ?_, ?_, ?_⟩
  · exact entriesDisjoint_of 103 [⟨['a'], 31, 3, true⟩] (by decide +kernel)
      (by decide +kernel) (by decide +kernel)
  · exact entriesDisjoint_of 188 [⟨['a'], 31, 3, true⟩, ⟨['a', '-', '0'], 67, 3, true⟩]
      (by decide +kernel) (by decide +kernel) (by decide +kernel)
  · decide +kernel
  · decide +kernel

end

end BootableRecovery.ApplyPatch.ZipMode
