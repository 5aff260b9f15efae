import BootableRecovery.ApplyPatch.ZipMode

/-!
# The chunks of a target zip

`InitializeChunks` of a target runs with a cursor over the file and over the entries, sorted by
offset. If no entry starts in the data of another one, the chunks are the pieces of the entries and
what is between them. Entries without data have no pieces, and without a limit stored entries have
none either.
-/

namespace BootableRecovery.ApplyPatch.ZipMode

/-- The entry is in the list of `InitializeChunks`. -/
def ZipEntry.isListed (limit : Nat) (e : ZipEntry) : Bool := e.deflated || 0 < limit

/-- Piece `i` of an entry that is larger than the limit. -/
def entryPiece (limit : Nat) (file : List UInt8) (e : ZipEntry) (i : Nat) : ImageChunk :=
  { type := .normal, start := e.offset + limit * i, file
    rawDataLen := min limit (e.compressedLength - limit * i), entryName :=
    e.name ++ '-' :: toText i }

/-- An entry as one chunk, or as consecutive chunks if it is larger than the limit. -/
def entryPieces (limit : Nat) (file data : List UInt8) (e : ZipEntry) : List ImageChunk :=
  if 0 < limit ∧ limit < e.compressedLength then
    (List.range ((e.compressedLength + limit - 1) / limit)).map (entryPiece limit file e)
  else
    [{ type := if e.deflated then .deflate else .normal, start := e.offset, file
       rawDataLen := e.compressedLength, uncompressedData := if e.deflated then data else []
       entryName := e.name }]

/-- A chunk between two entries. -/
def gapChunk (file : List UInt8) (start rawDataLen : Nat) : ImageChunk :=
  { type := .normal, start, file, rawDataLen }

variable {lib : Lib} {zip : ZipArchive} {limit zipSize : Nat} {file : List UInt8} {e : ZipEntry}
  {es : List ZipEntry} {cs : List ImageChunk}

/-! ## The pieces of an entry -/

theorem splitEntry_eq (hlimit : 0 < limit) (e : ZipEntry) {fuel count n : Nat}
    (hn : n = e.compressedLength - limit * count) (hfuel : n ≤ fuel) :
    splitEntry limit file e fuel count n =
      (List.range' count ((n + limit - 1) / limit)).map (entryPiece limit file e) := by
  induction fuel generalizing count n with
  | zero =>
    have hzero : (n + limit - 1) / limit = 0 := Nat.div_eq_of_lt (by omega)
    rw [hzero]
    rfl
  | succ fuel ih =>
    rw [splitEntry]
    split
    · rename_i hpos
      have hcount : (n + limit - 1) / limit = (n - min limit n + limit - 1) / limit + 1 := by
        rcases Nat.le_total limit n with hle | hle
        · rw [Nat.min_eq_left hle, ← Nat.add_div_right _ hlimit]
          congr 1
          omega
        · rw [Nat.min_eq_right hle, Nat.div_eq_of_lt_le (k := 1) (by omega) (by omega),
            Nat.div_eq_of_lt (by omega)]
      have hrest := @ih (count + 1) (n - min limit n) (by rw [Nat.mul_succ]; omega) (by omega)
      rw [hcount, List.range'_succ, List.map_cons, ← hrest, entryPiece, ← hn]
    · have hzero : (n + limit - 1) / limit = 0 := Nat.div_eq_of_lt (by omega)
      rw [hzero]
      rfl

/-- What is extracted from the archive. -/
def entryData (zip : ZipArchive) (file : List UInt8) (zipSize : Nat) (e : ZipEntry) : List UInt8 :=
  (zip.extractToMemory (file.take zipSize) e).getD []

/-- If `AddZipEntryToChunks` extracts the entry, that succeeds. -/
def Extracts (zip : ZipArchive) (limit : Nat) (file : List UInt8) (zipSize : Nat) (e : ZipEntry) :
    Prop :=
  e.deflated = true → 0 < e.compressedLength → ¬ (0 < limit ∧ limit < e.compressedLength) →
    (zip.extractToMemory (file.take zipSize) e).isSome

theorem addZipEntryToChunks_eq (h : Extracts zip limit file zipSize e) :
    addZipEntryToChunks zip limit file zipSize e = .ok (if e.compressedLength = 0 then []
      else entryPieces limit file (entryData zip file zipSize e) e) := by
  unfold addZipEntryToChunks entryPieces
  by_cases hzero : e.compressedLength = 0
  · rw [if_pos hzero, if_pos hzero]
  rw [if_neg hzero, if_neg hzero]
  by_cases hlarge : 0 < limit ∧ limit < e.compressedLength
  · rw [if_pos hlarge, if_pos hlarge, splitEntry_eq hlarge.1 e (by simp) (Nat.le_refl _),
      List.range_eq_range']
  rw [if_neg hlarge, if_neg hlarge]
  cases hdeflated : e.deflated with
  | false => rfl
  | true =>
    obtain ⟨data, hdata⟩ :=
      Option.isSome_iff_exists.mp (h hdeflated (Nat.pos_of_ne_zero hzero) hlarge)
    rw [entryData, hdata]
    rfl

theorem tiles_entryPieces (hpos : 0 < e.compressedLength) (data : List UInt8) :
    Tiles file e.offset (entryPieces limit file data e) (e.offset + e.compressedLength) ∧
      ∀ c ∈ entryPieces limit file data e, 0 < c.rawDataLen := by
  unfold entryPieces
  split
  · rename_i hlarge
    have hsplit :=
      @splitEntry_eq limit file hlarge.1 e _ 0 e.compressedLength (by simp) (Nat.le_refl _)
    rw [List.range_eq_range', ← hsplit]
    have htiles : Tiles file (e.offset + limit * 0) _ _ :=
      tiles_splitEntry hlarge.1 e (Nat.le_refl e.compressedLength)
    refine ⟨htiles, fun c hc => ?_⟩
    have hwf : c.WellFormed sampleLib ∧ c.rawDataLen ≤ limit := of_mem_splitEntry hlarge.1 hc
    exact hwf.1.pos
  · exact ⟨⟨rfl, rfl, rfl⟩, List.forall_mem_singleton.mpr hpos⟩

/-! ## The chunks of the file -/

/-- The chunks of a target from `pos` on: they tile the file and none is empty; an entry with data
stands in them in its pieces, and what is not a piece of an entry is a normal chunk without a
name. -/
structure TargetLayout (zip : ZipArchive) (limit : Nat) (file : List UInt8) (zipSize pos : Nat)
    (es : List ZipEntry) (cs : List ImageChunk) : Prop where
  tiles : Tiles file pos cs file.length
  nonempty : ∀ c ∈ cs, 0 < c.rawDataLen
  entries : ∀ e ∈ es, 0 < e.compressedLength →
    entryPieces limit file (entryData zip file zipSize e) e <:+: cs
  others : ∀ c ∈ cs, (∃ start len, c = gapChunk file start len) ∨
    ∃ e ∈ es, 0 < e.compressedLength ∧ c ∈ entryPieces limit file (entryData zip file zipSize e) e

/-- What is between the cursor and the next entry. -/
def gapUpTo (file : List UInt8) (pos offset : Nat) : List ImageChunk :=
  if pos = offset then [] else [gapChunk file pos (offset - pos)]

theorem tiles_gapUpTo {pos offset : Nat} (h : pos ≤ offset) :
    Tiles file pos (gapUpTo file pos offset) offset ∧
    ∀ c ∈ gapUpTo file pos offset, 0 < c.rawDataLen := by
  unfold gapUpTo
  split
  · exact ⟨by assumption, List.forall_mem_nil _⟩
  · refine ⟨⟨rfl, rfl, ?_⟩, List.forall_mem_singleton.mpr ?_⟩
    · show pos + (offset - pos) = offset
      omega
    · show 0 < offset - pos
      omega

theorem of_mem_gapUpTo {pos offset : Nat} {c : ImageChunk} (hc : c ∈ gapUpTo file pos offset) :
    ∃ start len, c = gapChunk file start len := by
  unfold gapUpTo at hc
  split at hc
  · cases hc
  · exact ⟨_, _, List.mem_singleton.mp hc⟩

theorem TargetLayout.gap {pos : Nat} (hpos : pos ≤ file.length)
    (hes : ∀ e ∈ es, e.compressedLength = 0) :
    TargetLayout zip limit file zipSize pos es (gapUpTo file pos file.length) where
  tiles := (tiles_gapUpTo hpos).1
  nonempty := (tiles_gapUpTo hpos).2
  entries e he hdata := absurd (hes e he) (Nat.ne_of_gt hdata)
  others _ hc := .inl (of_mem_gapUpTo hc)

theorem TargetLayout.cons {pos : Nat} (hpos : pos ≤ e.offset)
    (h : TargetLayout zip limit file zipSize (e.offset + e.compressedLength) es cs) :
    TargetLayout zip limit file zipSize pos (e :: es) (gapUpTo file pos e.offset ++
      (if e.compressedLength = 0 then []
        else entryPieces limit file (entryData zip file zipSize e) e) ++ cs) := by
  obtain ⟨hgap, hgapPos⟩ := @tiles_gapUpTo file _ _ hpos
  by_cases hzero : e.compressedLength = 0
  · rw [if_pos hzero, List.append_nil]
    rw [hzero, Nat.add_zero] at h
    constructor
    case tiles => exact Tiles.append_iff.mpr ⟨_, hgap, h.tiles⟩
    case nonempty => exact List.forall_mem_append.mpr ⟨hgapPos, h.nonempty⟩
    case entries =>
      refine List.forall_mem_cons.mpr ⟨fun hdata => absurd hzero (Nat.ne_of_gt hdata), ?_⟩
      exact fun e' he' hdata => (h.entries e' he' hdata).trans (List.suffix_append ..).isInfix
    case others =>
      refine List.forall_mem_append.mpr ⟨fun c hc => .inl (of_mem_gapUpTo hc), fun c hc => ?_⟩
      exact (h.others c hc).imp id fun ⟨e', he', hdata⟩ => ⟨e', List.mem_cons_of_mem _ he', hdata⟩
  · rw [if_neg hzero]
    have hdata := Nat.pos_of_ne_zero hzero
    obtain ⟨hpieces, hpiecesPos⟩ := @tiles_entryPieces limit file _ hdata
      (entryData zip file zipSize e)
    constructor
    case tiles =>
      exact Tiles.append_iff.mpr ⟨_, Tiles.append_iff.mpr ⟨_, hgap, hpieces⟩, h.tiles⟩
    case nonempty =>
      exact List.forall_mem_append.mpr ⟨List.forall_mem_append.mpr ⟨hgapPos, hpiecesPos⟩,
        h.nonempty⟩
    case entries =>
      refine List.forall_mem_cons.mpr ⟨fun _ => ⟨_, _, rfl⟩, fun e' he' hdata' => ?_⟩
      exact (h.entries e' he' hdata').trans (List.suffix_append ..).isInfix
    case others =>
      refine List.forall_mem_append.mpr ⟨List.forall_mem_append.mpr ⟨?_, ?_⟩, ?_⟩
      · exact fun c hc => .inl (of_mem_gapUpTo hc)
      · exact fun c hc => .inr ⟨e, List.mem_cons_self, hdata, hc⟩
      · intro c hc
        exact (h.others c hc).imp id fun ⟨e', he', hdata⟩ => ⟨e', List.mem_cons_of_mem _ he', hdata⟩

theorem targetChunks_layout (hsize : file.length < 2 ^ 63) {pos : Nat} (hpos : pos ≤ file.length)
    (hes : ∀ e ∈ es, pos ≤ e.offset ∧ e.offset + e.compressedLength ≤ file.length ∧
      Extracts zip limit file zipSize e)
    (hsorted : es.Pairwise fun e e' => e.offset + e.compressedLength ≤ e'.offset) :
    ∃ cs, targetChunks zip limit file zipSize pos es = .ok cs ∧
      TargetLayout zip limit file zipSize pos es cs := by
  induction es generalizing pos with
  | nil =>
    have hgap : gapUpTo file pos file.length = if pos < file.length then
        [{ type := .normal, start := pos, file, rawDataLen := file.length - pos }] else [] := by
      unfold gapUpTo
      rcases Nat.lt_or_eq_of_le hpos with hlt | heq
      · rw [if_neg (Nat.ne_of_lt hlt), if_pos hlt]
        rfl
      · rw [if_pos heq, if_neg (Nat.not_lt.mpr (Nat.le_of_eq heq.symm))]
    exact ⟨_, rfl, hgap ▸ TargetLayout.gap hpos (List.forall_mem_nil _)⟩
  | cons e es ih =>
    have hempty : file.length ≤ e.offset → ∀ e' ∈ e :: es, e'.compressedLength = 0 := by
      intro hlast e' he'
      have hend := (hes e' he').2.1
      rcases List.mem_cons.mp he' with rfl | he'
      · omega
      · have := (List.pairwise_cons.mp hsorted).1 e' he'
        omega
    rw [List.forall_mem_cons] at hes
    obtain ⟨⟨hoff, hend, hextract⟩, hes⟩ := hes
    rw [List.pairwise_cons] at hsorted
    rw [targetChunks]
    by_cases hlt : pos < file.length
    · have hgap : (if pos = e.offset then [] else [{ type := .normal, start := pos, file
                                                     rawDataLen :=
                                                     (e.offset + 2 ^ 64 - pos) % 2 ^ 64 }] :
          List ImageChunk) = gapUpTo file pos e.offset := by
        rw [gapUpTo, gapChunk, show (e.offset + 2 ^ 64 - pos) % 2 ^ 64 = e.offset - pos by omega]
      rw [if_pos hlt, hgap]
      by_cases hin : e.offset < file.length
      · obtain ⟨cs, hcs, hlayout⟩ := ih hend
          (fun e' he' => ⟨hsorted.1 e' he', (hes e' he').2⟩) hsorted.2
        rw [if_pos hin, addZipEntryToChunks_eq hextract, hcs]
        exact ⟨_, rfl, hlayout.cons hoff⟩
      · have hlast : e.offset = file.length := by omega
        rw [if_neg hin, hlast]
        exact ⟨_, rfl, TargetLayout.gap hpos (hempty (Nat.not_lt.mp hin))⟩
    · have hdone : gapUpTo file pos file.length = [] := if_pos (by omega)
      rw [if_neg hlt]
      exact ⟨_, rfl, hdone ▸ TargetLayout.gap hpos (hempty (by omega))⟩

/-! ## Any central directory -/

/-- Neither entry starts in the data of the other one. -/
def Apart (e e' : ZipEntry) : Prop :=
  ¬ (e.offset ≤ e'.offset ∧ e'.offset < e.offset + e.compressedLength) ∧
    ¬ (e'.offset ≤ e.offset ∧ e.offset < e'.offset + e'.compressedLength)

/-- For a file with entries in any order, sorted by offset, the listed entries with data stand in
the chunks of the target in their pieces, and the rest of the file is in normal chunks without a
name. -/
theorem targetChunks_entries {sorted : List ZipEntry} (hsize : file.length < 2 ^ 63)
    (hinFile : ∀ e ∈ es, e.offset + e.compressedLength ≤ file.length) (hapart : es.Pairwise Apart)
    (hextract : ∀ e ∈ es, Extracts zip limit file zipSize e)
    (hperm : sorted.Perm (es.filter (ZipEntry.isListed limit)))
    (hsorted : sorted.Pairwise fun e e' => e.offset ≤ e'.offset) :
    ∃ cs, targetChunks zip limit file zipSize 0 sorted = .ok cs ∧
      TargetLayout zip limit file zipSize 0 (es.filter (ZipEntry.isListed limit)) cs := by
  have hmem : ∀ {e}, e ∈ sorted → e ∈ es := fun he => List.mem_of_mem_filter (hperm.mem_iff.mp he)
  have happart' : sorted.Pairwise Apart :=
    (hperm.pairwise_iff fun h => ⟨h.2, h.1⟩).mpr (hapart.filter _)
  have hends : sorted.Pairwise fun e e' => e.offset + e.compressedLength ≤ e'.offset :=
    (hsorted.and happart').imp fun ⟨hle, hno, _⟩ => Nat.not_lt.mp fun hlt => hno ⟨hle, hlt⟩
  obtain ⟨cs, hcs, hlayout⟩ := targetChunks_layout hsize (Nat.zero_le _)
    (fun e he => ⟨Nat.zero_le _, hinFile e (hmem he), hextract e (hmem he)⟩) hends
  refine ⟨cs, hcs, hlayout.tiles, hlayout.nonempty, ?_, ?_⟩
  · exact fun e he => hlayout.entries e (hperm.mem_iff.mpr he)
  · intro c hc
    exact (hlayout.others c hc).imp id fun ⟨e, he, hdata⟩ => ⟨e, hperm.mem_iff.mp he, hdata⟩

/-- The entries of `zipBA`, with one without data between them, last one first. -/
def unorderedEntries : List ZipEntry :=
  [⟨['a', '-', '0'], 67, 3, true⟩, ⟨['n'], 34, 0, false⟩, ⟨['a'], 31, 3, true⟩]

instance : DecidableRel Apart := fun e e' =>
  inferInstanceAs (Decidable (¬ (e.offset ≤ e'.offset ∧ e'.offset < e.offset + e.compressedLength) ∧
    ¬ (e'.offset ≤ e.offset ∧ e.offset < e'.offset + e'.compressedLength)))

theorem targetChunks_entries_unordered :
    ∃ cs, targetChunks sampleZip 2 zipBA zipBA.length 0 unorderedEntries.reverse = .ok cs ∧
      TargetLayout sampleZip 2 zipBA zipBA.length 0
        (unorderedEntries.filter (ZipEntry.isListed 2)) cs := by
  refine targetChunks_entries (by decide +kernel) (by decide +kernel) (by decide) ?_ (by decide)
    (by decide)
  intro e he hdeflated hdata hsmall
  have hlarge : ∀ e ∈ unorderedEntries, e.deflated = true → 2 < e.compressedLength := by decide
  exact absurd ⟨Nat.succ_pos 1, hlarge e he hdeflated⟩ hsmall

/-- An archive with the letter `b` as it is. -/
def zipStored : List UInt8 := zipFile [⟨[0x62], 0, [0xf9, 0xef, 0xbe, 0x71], [0x62], 1⟩]

/-- Without a limit, a stored entry is a part of a chunk that has no name. -/
theorem not_targetChunks_entries : ∃ es, sampleZip.entries zipStored = some es ∧ es.Pairwise Apart ∧
    ¬ ∃ cs, initializeImage sampleZip false 0 zipStored = .ok cs ∧
      TargetLayout sampleZip 0 zipStored zipStored.length 0 es cs := by
  refine ⟨[⟨['b'], 31, 1, false⟩], by decide +kernel, by decide, ?_⟩
  rintro ⟨cs, hcs, hlayout⟩
  have hrun : (initializeImage sampleZip false 0 zipStored).toOption =
      some [gapChunk zipStored 0 zipStored.length] := by decide +kernel
  rw [hcs] at hrun
  cases Option.some.inj hrun
  have hinfix := hlayout.entries _ List.mem_cons_self (Nat.succ_pos 0)
  rw [entryPieces, if_neg (by decide)] at hinfix
  have hmem := hinfix.subset List.mem_cons_self
  rw [List.mem_singleton, gapChunk, ImageChunk.mk.injEq] at hmem
  exact absurd hmem.2.1 (by decide)

end BootableRecovery.ApplyPatch.ZipMode
