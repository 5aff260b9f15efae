import BootableRecovery.ApplyPatch.ImgDiff

/-!
# What the patcher relies on

The laws of bsdiff and zlib (`Lib.Lawful`), and what follows for the code around them: a chunk that
`ReconstructDeflateChunk` has accepted is what the patcher deflates again, however `bspatch` cuts
its output into pieces. If there is no piece at all, the deflate stream is never finished.
-/

namespace BootableRecovery.ApplyPatch

/-- What is known of the libraries. `oneShot` is the deflate stream of some data for a compression
level and the parameters that imgdiff uses. `Rep s level fed out` holds of a deflate stream that was
fed `fed` and has given `out`, and `Full s` of one whose last call filled its output. -/
structure Lib.Lawful (lib : Lib) where
  oneShot : (level : Nat) → List UInt8 → List UInt8
  Rep : lib.Stream → (level : Nat) → (fed out : List UInt8) → Prop
  Full : lib.Stream → Prop
  /-- A stream for one of the levels that imgdiff tries can be set up. -/
  init : ∀ level : Nat, level = 6 ∨ level = 9 →
    ∃ s, lib.deflateInit2 level METHOD WINDOWBITS MEMLEVEL STRATEGY = some s ∧ Rep s level [] []
  /-- `deflate` stops when the output is full or, with `Z_NO_FLUSH`, when the input is used up; with
  `Z_FINISH` it goes on to the end of the stream, which depends on the whole input only. Without
  `Z_FINISH` and without input there has to be output left. -/
  deflate : ∀ {s level fed out} (input : List UInt8) (finish : Bool) {room : Nat},
    Rep s level fed out → finish = true ∨ input ≠ [] ∨ Full s → 0 < room →
    ((lib.deflate s input finish room).ret = .ok ∧
      (∃ used, input = used ++ (lib.deflate s input finish room).availIn ∧
        Rep (lib.deflate s input finish room).stream level (fed ++ used)
          (out ++ (lib.deflate s input finish room).output)) ∧
      ((lib.deflate s input finish room).output.length = room ∧
          Full (lib.deflate s input finish room).stream ∧
          lib.calls (lib.deflate s input finish room).stream
            (lib.deflate s input finish room).availIn < lib.calls s input ∨
        (lib.deflate s input finish room).output.length < room ∧
          (lib.deflate s input finish room).availIn = [] ∧ finish = false)) ∨
    ((lib.deflate s input finish room).ret = .streamEnd ∧ finish = true ∧
      (lib.deflate s input finish room).availIn = [] ∧
      out ++ (lib.deflate s input finish room).output = oneShot level (fed ++ input))
  /-- A call may be needed. -/
  calls : ∀ {s level fed out} (input : List UInt8), Rep s level fed out → 0 < lib.calls s input
  /-- A raw stream ends in itself. -/
  inflate : ∀ {input data : List UInt8} {used : Nat}, lib.inflate input = some (data, used) →
    0 < used ∧ used ≤ input.length ∧ lib.inflate (input.take used) = some (data, used)
  /-- `bspatch` of a bsdiff patch gives the new data in non-empty pieces, whatever stands after the
  patch. -/
  bspatch : ∀ {old new patch : List UInt8} (rest : List UInt8), lib.bsdiff old new = some patch →
    (lib.bspatch old (patch ++ rest)).2 = true ∧ (lib.bspatch old (patch ++ rest)).1.flatten = new ∧
    ∀ piece ∈ (lib.bspatch old (patch ++ rest)).1, piece ≠ []
  /-- There is memory for what imgdiff had in memory. -/
  memory : 2 ^ 32 ≤ lib.memory

variable {lib : Lib} (laws : lib.Lawful)

/-! ## Feeding a memory sink -/

@[simp] theorem memorySink_apply (data out : List UInt8) :
    memorySink data out = (data.length, out ++ data) := rfl

theorem feed_shaSink (pieces : List (List UInt8)) (out : Out (List UInt8)) :
    feed (shaSink memorySink) pieces out =
      (true, ⟨out.sink ++ pieces.flatten, out.hashed ++ pieces.flatten⟩) := by
  induction pieces generalizing out with
  | nil => simp [feed]
  | cons piece pieces ih => simp [feed, shaSink, ih]

include laws

theorem applyBSDiffPatch_shaSink {old new data patch : List UInt8} {offset : Nat}
    (hdiff : lib.bsdiff old new = some data) (hdata : data <+: patch.drop offset)
    (hoff : offset ≤ patch.length) (out : Out (List UInt8)) :
    applyBSDiffPatch lib old patch offset (shaSink memorySink) out =
      (.ok (), ⟨out.sink ++ new, out.hashed ++ new⟩) := by
  obtain ⟨rest, hrest⟩ := hdata
  obtain ⟨hok, hflat, -⟩ := laws.bspatch rest hdiff
  rw [applyBSDiffPatch, if_pos hoff, ← hrest]
  dsimp only
  rw [feed_shaSink, hok, hflat]
  rfl

/-! ## Deflating on the fly -/

/-- One run of the loop over `deflate` takes the whole input: with `Z_NO_FLUSH` the stream goes on,
with `Z_FINISH` it is finished. -/
theorem deflateLoop_spec (finish : Bool) {fuel level : Nat} {fed out input base hbase : List UInt8}
    {c : Compression lib (List UInt8)} (hrep : laws.Rep c.stream level fed out)
    (hinput : finish = true ∨ input ≠ [] ∨ laws.Full c.stream)
    (hsink : c.out.sink = base ++ out) (hhash : c.out.hashed = hbase ++ out)
    (hfuel : lib.calls c.stream input ≤ fuel) :
    ∃ c' out', deflateLoop lib memorySink finish fuel input c = (true, c') ∧
      c'.actualTargetLength = c.actualTargetLength ∧
      c'.out = ⟨base ++ out', hbase ++ out'⟩ ∧
      ((finish = false ∧ laws.Rep c'.stream level (fed ++ input) out') ∨
        (finish = true ∧ c'.ret = .streamEnd ∧ out' = laws.oneShot level (fed ++ input))) := by
  induction fuel generalizing c fed out input with
  | zero =>
    have := laws.calls input hrep
    omega
  | succ fuel ih =>
    have hstep := laws.deflate input finish hrep hinput (by decide : 0 < BUFFER_SIZE)
    rw [deflateLoop]
    simp only [memorySink_apply, ne_eq, not_true_eq_false, if_false]
    generalize lib.deflate c.stream input finish BUFFER_SIZE = d at hstep ⊢
    rcases hstep with ⟨hret, ⟨used, huse, hrep'⟩, hmore⟩ | ⟨hret, hfin, hin, hout⟩
    · rw [if_neg (by simp [hret])]
      rcases hmore with ⟨hfull, hleft, hcalls⟩ | ⟨hless, hin, hfin⟩
      · -- the output buffer is full: the next call
        rw [if_pos ⟨.inr hfull, by simp [hret]⟩]
        obtain ⟨c', out', hloop, hactual, hc', hend⟩ := ih
          (c := ⟨d.stream, d.ret, c.actualTargetLength,
            ⟨c.out.sink ++ d.output, c.out.hashed ++ d.output⟩⟩) hrep' (.inr (.inr hleft))
          (by simp [hsink]) (by simp [hhash]) (Nat.le_of_lt_succ (Nat.lt_of_lt_of_le hcalls hfuel))
        refine ⟨c', out', hloop, hactual, hc', ?_⟩
        rwa [List.append_assoc, ← huse] at hend
      · -- the input is used up
        rw [if_neg (by simp [hin, Nat.ne_of_lt hless])]
        refine ⟨_, out ++ d.output, rfl, rfl, by simp [hsink, hhash], .inl ⟨hfin, ?_⟩⟩
        rw [hin, List.append_nil] at huse
        rw [huse]
        exact hrep'
    · rw [if_neg (by simp [hret]), if_neg (by simp [hret])]
      exact ⟨_, out ++ d.output, rfl, rfl, by simp [hsink, hhash], .inr ⟨hfin, hret, hout⟩⟩

/-- All pieces of a target but the last are fed with `Z_NO_FLUSH`, the last one with `Z_FINISH`. -/
theorem feed_compressionSink (expected : Nat) (base hbase : List UInt8)
    {pieces : List (List UInt8)} {level : Nat} {fed out : List UInt8}
    {c : Compression lib (List UInt8)}
    (hne : pieces ≠ []) (hpieces : ∀ piece ∈ pieces, piece ≠ [])
    (hexp : expected = fed.length + pieces.flatten.length) (hlt : expected < 2 ^ 32)
    (hactual : c.actualTargetLength = fed.length) (hrep : laws.Rep c.stream level fed out)
    (hsink : c.out.sink = base ++ out) (hhash : c.out.hashed = hbase ++ out) :
    ∃ c', feed (compressionSink lib memorySink expected) pieces c = (true, c') ∧
      c'.ret = .streamEnd ∧ c'.actualTargetLength = expected ∧
      c'.out = ⟨base ++ laws.oneShot level (fed ++ pieces.flatten),
        hbase ++ laws.oneShot level (fed ++ pieces.flatten)⟩ := by
  induction pieces generalizing fed out c with
  | nil => exact absurd rfl hne
  | cons piece pieces ih =>
    rw [List.flatten_cons, List.length_append] at hexp
    have hpos : 0 < piece.length := List.length_pos_iff.mpr (hpieces piece List.mem_cons_self)
    have hin : piece.take (piece.length % 2 ^ 32) = piece := by
      rw [Nat.mod_eq_of_lt (by omega), List.take_length]
    obtain ⟨c', out', hloop, hact, hc', hend⟩ := deflateLoop_spec laws
      (!decide (c.actualTargetLength + piece.length < expected)) hrep
      (.inr (.inl (hpieces piece List.mem_cons_self))) hsink hhash
      (Nat.le_refl (lib.calls c.stream piece))
    have hone : compressionSink lib memorySink expected piece c =
        (piece.length, { c' with actualTargetLength := c'.actualTargetLength + piece.length }) := by
      simp only [compressionSink, hin, hloop]
    rw [feed, hone, if_pos rfl]
    rcases hend with ⟨hfin, hrep'⟩ | ⟨hfin, hret, hout⟩
    · -- there are more pieces
      simp only [Bool.not_eq_false', decide_eq_true_eq] at hfin
      have hrest : pieces ≠ [] := by
        rintro rfl
        simp at hexp
        omega
      obtain ⟨c'', hfeed, hret, hact', hout⟩ := ih hrest
        (fun p hp => hpieces p (List.mem_cons_of_mem _ hp)) (by rw [List.length_append]; omega)
        (c := { c' with actualTargetLength := c'.actualTargetLength + piece.length })
        (by simp only [List.length_append]; omega) hrep' (by rw [hc']) (by rw [hc'])
      refine ⟨c'', hfeed, hret, hact', ?_⟩
      rw [hout, List.append_assoc, List.flatten_cons]
    · -- this is the last piece
      simp only [Bool.not_eq_true', decide_eq_false_iff_not] at hfin
      have hnil : pieces = [] := by
        cases pieces with
        | nil => rfl
        | cons p ps =>
          have : 0 < p.length := List.length_pos_iff.mpr (hpieces p (by simp))
          rw [List.flatten_cons, List.length_append] at hexp
          omega
      subst hnil
      refine ⟨_, rfl, hret, ?_, ?_⟩
      · simp at hexp
        simp only
        omega
      · simp [hc', hout]

section
variable {old new data patch : List UInt8} {offset level : Nat}

/-- Data that is not empty is deflated to the stream that deflate gives for it in one go. -/
theorem applyBSDiffPatchAndStreamOutput_of_ne_nil (hlevel : level = 6 ∨ level = 9)
    (hdiff : lib.bsdiff old new = some data) (hdata : data <+: patch.drop offset)
    (hoff : offset ≤ patch.length) (hne : new ≠ []) (hlt : new.length < 2 ^ 32)
    (out : Out (List UInt8)) :
    applyBSDiffPatchAndStreamOutput lib old patch offset new.length level METHOD WINDOWBITS MEMLEVEL
      STRATEGY memorySink out =
      (.ok (), ⟨out.sink ++ laws.oneShot level new, out.hashed ++ laws.oneShot level new⟩) := by
  obtain ⟨stream, hinit, hrep⟩ := laws.init level hlevel
  obtain ⟨rest, hrest⟩ := hdata
  obtain ⟨hok, hflat, hpieces⟩ := laws.bspatch rest hdiff
  rw [hrest] at hok hflat hpieces
  have hcut : (lib.bspatch old (patch.drop offset)).1 ≠ [] := by
    intro hnil
    rw [hnil] at hflat
    exact hne hflat.symm
  obtain ⟨c', hfeed, hret, hact, hout⟩ := feed_compressionSink laws new.length out.sink
    out.hashed (c := ⟨stream, .ok, 0, out⟩) hcut hpieces (by rw [hflat]; simp) hlt rfl hrep
      (by simp) (by simp)
  rw [List.nil_append, hflat] at hout
  simp only [applyBSDiffPatchAndStreamOutput, hinit, applyBSDiffPatch, if_pos hoff, hfeed, hok,
    Bool.and_self, if_true, hret, hact, hout, ne_eq, not_true_eq_false, if_false]

/-- For empty data the sink is never called, so the stream is not finished. -/
theorem applyBSDiffPatchAndStreamOutput_nil (hlevel : level = 6 ∨ level = 9)
    (hdiff : lib.bsdiff old [] = some data) (hdata : data <+: patch.drop offset)
    (hoff : offset ≤ patch.length) (out : Out (List UInt8)) :
    applyBSDiffPatchAndStreamOutput lib old patch offset 0 level METHOD WINDOWBITS MEMLEVEL
      STRATEGY memorySink out = (.error .failed, out) := by
  obtain ⟨stream, hinit, -⟩ := laws.init level hlevel
  obtain ⟨rest, hrest⟩ := hdata
  obtain ⟨hok, hflat, hpieces⟩ := laws.bspatch rest hdiff
  rw [hrest] at hok hflat hpieces
  have hcut : (lib.bspatch old (patch.drop offset)).1 = [] := by
    rw [List.eq_nil_iff_forall_not_mem]
    intro piece hmem
    exact hpieces piece hmem (List.flatten_eq_nil_iff.mp hflat piece hmem)
  simp only [applyBSDiffPatchAndStreamOutput, hinit, applyBSDiffPatch, if_pos hoff, hcut, feed, hok,
    Bool.and_self, if_true]
  rfl

end

/-! ## Reconstruction -/

omit laws in
theorem length_bytesAt (file : List UInt8) (p n : Nat) : (lib.bytesAt file p n).length = n := by
  simp [Lib.bytesAt]

omit laws in
theorem bytesAt_add (file : List UInt8) (p m n : Nat) :
    lib.bytesAt file p (m + n) = lib.bytesAt file p m ++ lib.bytesAt file (p + m) n := by
  unfold Lib.bytesAt
  rw [List.range_add, List.map_append, List.map_map]
  congr 1
  apply List.map_congr_left
  intro i _
  simp only [Function.comp, Nat.add_assoc]

omit laws in
theorem bytesAt_of_le {file : List UInt8} {p n : Nat} (h : p + n ≤ file.length) :
    lib.bytesAt file p n = (file.drop p).take n := by
  apply List.ext_getElem
  · rw [length_bytesAt, List.length_take, List.length_drop]
    omega
  · intro i h₁ h₂
    rw [length_bytesAt] at h₁
    simp [Lib.bytesAt, List.getElem?_eq_getElem (show p + i < file.length by omega)]

theorem reconstructLoop_eq_some {file : List UInt8} {pos fuel level offset n : Nat}
    {s : lib.Stream} {fed input : List UInt8}
    (hrep : laws.Rep s level fed (lib.bytesAt file pos offset))
    (h : ImageChunk.reconstructLoop lib file pos fuel s input offset = some n) :
    lib.bytesAt file pos n = laws.oneShot level (fed ++ input) := by
  induction fuel generalizing s fed input offset with
  | zero => cases h
  | succ fuel ih =>
    have hstep := laws.deflate input true hrep (.inl rfl) (by decide : 0 < BUFFER_SIZE)
    rw [ImageChunk.reconstructLoop] at h
    generalize lib.deflate s input true BUFFER_SIZE = d at hstep h
    have hsame : d.output = lib.bytesAt file (pos + offset) d.output.length := by
      by_contra hdiff
      rw [if_pos hdiff, ite_self] at h
      cases h
    have hout : lib.bytesAt file pos offset ++ d.output =
        lib.bytesAt file pos (offset + d.output.length) := by
      rw [bytesAt_add, ← hsame]
    rw [if_neg (not_not.mpr hsame)] at h
    rcases hstep with ⟨hret, ⟨used, huse, hrep'⟩, -⟩ | ⟨hret, -, -, hend⟩
    · rw [if_neg (by simp [hret]), if_neg (by simp [hret])] at h
      rw [hout] at hrep'
      have hrest := ih hrep' h
      rwa [List.append_assoc, ← huse] at hrest
    · rw [if_neg (by simp [hret]), if_pos hret] at h
      cases h
      rw [← hout, hend]

theorem oneShot_of_tryReconstruction {c : ImageChunk} {level : Nat} (hlevel : level = 6 ∨ level = 9)
    (hfile : c.start + c.rawDataLen ≤ c.file.length) (hlt : c.uncompressedData.length < 2 ^ 32)
    (h : c.tryReconstruction lib level = true) :
    laws.oneShot level c.uncompressedData = c.raw := by
  obtain ⟨stream, hinit, hrep⟩ := laws.init level hlevel
  have hdata :
      c.uncompressedData.take (c.uncompressedData.length % 2 ^ 32) = c.uncompressedData := by
    rw [Nat.mod_eq_of_lt hlt, List.take_length]
  simp only [ImageChunk.tryReconstruction, hinit, hdata, decide_eq_true_eq] at h
  have hbytes := reconstructLoop_eq_some laws (by simpa [Lib.bytesAt] using hrep) h
  rw [← List.nil_append c.uncompressedData, ← hbytes, bytesAt_of_le hfile]
  rfl

/-- `ReconstructDeflateChunk` records a level that gives the chunk again. -/
theorem ImageChunk.reconstructDeflateChunk_eq_some {c c' : ImageChunk}
    (hfile : c.start + c.rawDataLen ≤ c.file.length) (hlt : c.uncompressedData.length < 2 ^ 32)
    (h : c.reconstructDeflateChunk lib = some c') :
    c.type = .deflate ∧ ∃ level, (level = 6 ∨ level = 9) ∧ c' = { c with compressLevel := level } ∧
      laws.oneShot level c.uncompressedData = c.raw := by
  unfold ImageChunk.reconstructDeflateChunk at h
  split at h
  · cases h
  · rename_i htype
    refine ⟨not_not.mp htype, ?_⟩
    split at h
    · cases h
      exact ⟨6, .inl rfl, rfl,
        oneShot_of_tryReconstruction laws (.inl rfl) hfile hlt (by assumption)⟩
    · split at h
      · cases h
        exact ⟨9, .inr rfl, rfl,
          oneShot_of_tryReconstruction laws (.inr rfl) hfile hlt (by assumption)⟩
      · cases h

omit laws

/-! ## A library for examples -/

/-- The deflate streams that zlib makes, at both levels, of no data and of one letter; other data is
stored. -/
def sampleDeflate : List UInt8 → List UInt8
  | [] => [0x03, 0x00]
  | [0x61] => [0x4b, 0x04, 0x00]
  | [0x62] => [0x4b, 0x02, 0x00]
  | data => 0x01 :: leBytes 2 data.length ++ leBytes 2 (65535 - data.length) ++ data

/-- The streams of `sampleDeflate` for no data and for one letter. -/
def sampleInflate : List UInt8 → Option (List UInt8 × Nat)
  | 0x03 :: 0x00 :: _ => some ([], 2)
  | 0x4b :: 0x04 :: 0x00 :: _ => some ([0x61], 3)
  | 0x4b :: 0x02 :: 0x00 :: _ => some ([0x62], 3)
  | _ => none

/-- The starts of these streams. -/
def sampleEndsWithin (input : List UInt8) : Bool :=
  [[], [0x03], [0x4b], [0x4b, 0x04], [0x4b, 0x02]].contains input

/-- The length of the new data and the data itself. -/
def sampleBsdiff (_ new : List UInt8) : Option (List UInt8) :=
  if new.length < 256 ^ 8 then some (leBytes 8 new.length ++ new) else none

def sampleBspatch (_ patch : List UInt8) : List (List UInt8) × Bool :=
  match (patch.drop 8).take (leNat (patch.take 8)) with
  | [] => ([], true)
  | new => ([new], true)

/-- A library that keeps all input until the end of a stream. -/
def sampleLib : Lib where
  Stream := List UInt8
  deflateInit2 _ _ _ _ _ := some []
  deflate fed input finish _ :=
    if finish then ⟨fed, [], sampleDeflate (fed ++ input), .streamEnd⟩
    else ⟨fed ++ input, [], [], .ok⟩
  calls _ _ := 1
  inflate := sampleInflate
  endsWithin := sampleEndsWithin
  bsdiff := sampleBsdiff
  bspatch := sampleBspatch
  beyond _ := 0
  memory := 2 ^ 32

theorem sampleInflate_eq_some {input data : List UInt8} {used : Nat}
    (h : sampleInflate input = some (data, used)) :
    0 < used ∧ used ≤ input.length ∧ sampleInflate (input.take used) = some (data, used) := by
  unfold sampleInflate at h
  split at h
  all_goals first
    | cases h
      exact ⟨by decide, by simp, rfl⟩
    | cases h

theorem sampleBspatch_append {old new patch : List UInt8} (rest : List UInt8)
    (h : sampleBsdiff old new = some patch) :
    (sampleBspatch old (patch ++ rest)).2 = true ∧
    (sampleBspatch old (patch ++ rest)).1.flatten = new ∧
    ∀ piece ∈ (sampleBspatch old (patch ++ rest)).1, piece ≠ [] := by
  rw [sampleBsdiff] at h
  split at h
  · rename_i hlt
    cases h
    have hnew : ((leBytes 8 new.length ++ new ++ rest).drop 8).take
        (leNat ((leBytes 8 new.length ++ new ++ rest).take 8)) = new := by
      rw [List.append_assoc, List.take_left' (length_leBytes ..),
        List.drop_left' (length_leBytes ..), leNat_leBytes_of_lt hlt, List.take_left' rfl]
    unfold sampleBspatch
    rw [hnew]
    cases new with
    | nil => simp
    | cons b new => simp
  · cases h

/-- The laws hold of it. -/
def sampleLaws : sampleLib.Lawful where
  oneShot _ := sampleDeflate
  Rep stream _ fed out := stream = fed ∧ out = []
  Full _ := False
  init _ _ := ⟨[], rfl, rfl, rfl⟩
  deflate {s level fed out} input finish room hrep _ hroom := by
    obtain ⟨rfl, rfl⟩ := hrep
    cases finish with
    | true => exact .inr ⟨rfl, rfl, rfl, rfl⟩
    | false =>
      refine .inl ⟨rfl, ⟨input, (List.append_nil _).symm, rfl, rfl⟩, .inr ⟨hroom, rfl, rfl⟩⟩
  calls _ _ := Nat.one_pos
  inflate := sampleInflate_eq_some
  bspatch := @sampleBspatch_append
  memory := Nat.le_refl _

end BootableRecovery.ApplyPatch
