import BootableRecovery.Theory.System
import BootableRecovery.ApplyPatch.ImageMode
import BootableRecovery.ApplyPatch.Reconstruction

/-!
# What the scan of an image reads

`Initialize` of an image goes through the file in rounds, and `TryReconstruction` compares buffer
after buffer with the file. The length of what stands after a deflate stream is not always checked:
a stream that ends within the last bytes of the file, or data whose new stream is longer than the
rest of the file, leads to memory after it. For a stream that is cut off, a message that does not
exist is logged.
-/

namespace BootableRecovery.ApplyPatch

namespace ImageMode

variable (lib : Lib) (file : List UInt8)

/-! ## Rounds -/

/-- One round of the loop of `Initialize`: the chunks that it adds, and where it goes on. -/
def scanRound (pos : Nat) : List ImageChunk × Nat :=
  if magicAt file pos then
    if file.length - pos < GZIP_HEADER_LEN + GZIP_FOOTER_LEN then
      ([{ type := .normal, start := pos, file, rawDataLen := file.length - pos }], file.length)
    else
      let header : ImageChunk :=
        { type := .normal, start := pos, file, rawDataLen := GZIP_HEADER_LEN }
      let pos := pos + GZIP_HEADER_LEN
      match deflateAt lib file pos with
      | none => ([header], pos)
      | some (rawDataLen, data) =>
        ([header, { type := .deflate, start := pos, file, rawDataLen, uncompressedData := data },
          { type := .normal, start := pos + rawDataLen, file, rawDataLen := GZIP_FOOTER_LEN }],
          pos + rawDataLen + GZIP_FOOTER_LEN)
  else
    let dataLen := normalLen file pos (file.length - pos) 0
    ([{ type := .normal, start := pos, file, rawDataLen := dataLen }], pos + dataLen)

/-- The bytes that are read to find a deflate stream at `pos` and to check its footer, as start and
number. After `2 ^ 32` bytes of data `avail_out` is cut to 0, and inflate fails. -/
def deflateReads (pos : Nat) : List (Nat × Nat) :=
  let availIn := (file.length - pos) % 2 ^ 32
  (pos, availIn) :: match lib.inflate ((file.drop pos).take availIn) with
    | none => []
    | some (data, used) =>
      let rawDataLen := file.length - (availIn - used) - pos
      let footerIndex := pos + rawDataLen + GZIP_FOOTER_LEN - 4
      if 2 ^ 32 < data.length ∨ (file.length + 2 ^ 64 - footerIndex) % 2 ^ 64 < 4 then []
      else [(footerIndex, 4)]

/-- The bytes that a round reads. The places where a gzip header may start are looked at if four
bytes are left. -/
def roundReads (pos : Nat) : List (Nat × Nat) :=
  if magicAt file pos then
    (pos, 4) :: if file.length - pos < GZIP_HEADER_LEN + GZIP_FOOTER_LEN then []
      else deflateReads lib file (pos + GZIP_HEADER_LEN)
  else
    ((List.range (normalLen file pos (file.length - pos) 0 + 1)).filter
      fun i => pos + i + 4 ≤ file.length).map fun i => (pos + i, 4)

variable {lib file} {fuel pos : Nat} {c : ImageChunk}

/-- The chunk is a complete deflate stream between a gzip header and a gzip footer. -/
structure IsStream (lib : Lib) (c : ImageChunk) : Prop where
  inflate : lib.inflate c.raw = some (c.uncompressedData, c.rawDataLen)
  before : GZIP_HEADER_LEN ≤ c.start
  after : c.start + c.rawDataLen + GZIP_FOOTER_LEN ≤ c.file.length

/-- No deflate stream that starts at `pos` is cut off or has more than `2 ^ 32` bytes of data, and
at least four bytes are left after it. If `avail_in` is too small for the rest of the file, the four
bytes that are taken for the size of the data differ from it, or it is clear that there is no
footer. -/
def StreamFits (lib : Lib) (file : List UInt8) (pos : Nat) : Prop :=
  logsNullAt lib file pos = false ∧ ∀ availIn data used, availIn = (file.length - pos) % 2 ^ 32 →
    lib.inflate ((file.drop pos).take availIn) = some (data, used) → data.length ≤ 2 ^ 32 →
    4 ≤ availIn - used ∧ (2 ^ 32 ≤ file.length - pos → 8 ≤ availIn - used →
      leNat ((file.drop (file.length - (availIn - used) + 4)).take 4) ≠ data.length)

theorem leNat_bytesAt_lt (file : List UInt8) (p : Nat) : leNat (lib.bytesAt file p 4) < 2 ^ 32 := by
  have hbound := leNat_lt (lib.bytesAt file p 4)
  rw [length_bytesAt] at hbound
  omega

theorem deflateAt_data {rawDataLen : Nat} {data : List UInt8}
    (h : deflateAt lib file pos = some (rawDataLen, data)) :
    data.length < 2 ^ 32 ∧
      ∃ used, lib.inflate ((file.drop pos).take ((file.length - pos) % 2 ^ 32)) =
      some (data, used) := by
  unfold deflateAt at h
  dsimp only at h
  split at h
  · cases h
  · rename_i data' used hinf
    split at h
    · cases h
    · split at h
      · cases h
      · rename_i hfooter
        cases h
        rw [not_not] at hfooter
        exact ⟨hfooter ▸ leNat_bytesAt_lt file _, used, hinf⟩

section
variable {data : List UInt8} {used availIn : Nat}

theorem deflateReads_eq (hpos : pos ≤ file.length) (hsize : file.length < 2 ^ 63)
    (havail : (file.length - pos) % 2 ^ 32 = availIn) (hused : used ≤ availIn)
    (hinf : lib.inflate ((file.drop pos).take availIn) = some (data, used)) :
    deflateReads lib file pos = (pos, availIn) ::
      if 2 ^ 32 < data.length ∨ 4 ≤ availIn - used ∧ availIn - used < 8 then []
      else [(file.length - (availIn - used) + 4, 4)] := by
  have hle : availIn ≤ file.length - pos := havail ▸ Nat.mod_le ..
  have hindex : pos + (file.length - (availIn - used) - pos) + GZIP_FOOTER_LEN - 4 =
      file.length - (availIn - used) + 4 := by
    unfold GZIP_FOOTER_LEN
    omega
  simp only [deflateReads, havail, hinf, hindex]
  congr 1
  exact if_congr (or_congr_right (by omega)) rfl rfl

theorem deflateAt_eq (hpos : pos ≤ file.length) (hsize : file.length < 2 ^ 63)
    (havail : (file.length - pos) % 2 ^ 32 = availIn) (hused : used ≤ availIn)
    (hinf : lib.inflate ((file.drop pos).take availIn) = some (data, used))
    (hrest : 4 ≤ availIn - used) : deflateAt lib file pos = if 8 ≤ availIn - used ∧
        leNat ((file.drop (file.length - (availIn - used) + 4)).take 4) = data.length then
      some (file.length - (availIn - used) - pos, data) else none := by
  have hle : availIn ≤ file.length - pos := havail ▸ Nat.mod_le ..
  have hindex : pos + (file.length - (availIn - used) - pos) + GZIP_FOOTER_LEN - 4 =
      file.length - (availIn - used) + 4 := by
    unfold GZIP_FOOTER_LEN
    omega
  simp only [deflateAt, havail, hinf, hindex]
  by_cases h8 : 8 ≤ availIn - used
  · rw [if_neg (by omega), bytesAt_of_le (by omega)]
    by_cases hfooter : leNat ((file.drop (file.length - (availIn - used) + 4)).take 4) = data.length
    · rw [if_neg (not_not.mpr hfooter), if_pos ⟨h8, hfooter⟩]
    · rw [if_pos hfooter, if_neg fun h => hfooter h.2]
  · rw [if_pos (by omega), if_neg fun h => h8 h.1]

end

variable (laws : lib.Lawful)
include laws

theorem used_le {data : List UInt8} {used : Nat}
    (hinf : lib.inflate ((file.drop pos).take ((file.length - pos) % 2 ^ 32)) = some (data, used)) :
    0 < used ∧ used ≤ (file.length - pos) % 2 ^ 32 := by
  obtain ⟨hpos, hused, -⟩ := laws.inflate hinf
  exact ⟨hpos, Nat.le_trans hused (List.length_take_le ..)⟩

theorem deflateReads_inside (hpos : pos ≤ file.length) (hsize : file.length < 2 ^ 63)
    (hfits : StreamFits lib file pos) :
    ∀ r ∈ deflateReads lib file pos, r.1 + r.2 ≤ file.length := by
  have hle : (file.length - pos) % 2 ^ 32 ≤ file.length - pos := Nat.mod_le ..
  cases hinf : lib.inflate ((file.drop pos).take ((file.length - pos) % 2 ^ 32)) with
  | none =>
    simp only [deflateReads, hinf, List.forall_mem_singleton]
    omega
  | some r =>
    obtain ⟨data, used⟩ := r
    rw [deflateReads_eq hpos hsize rfl (used_le laws hinf).2 hinf, List.forall_mem_cons]
    refine ⟨by dsimp only; omega, ?_⟩
    split
    · exact List.forall_mem_nil _
    · rename_i hread
      obtain ⟨hrest, -⟩ := hfits.2 _ data used rfl hinf (by omega)
      rw [List.forall_mem_singleton]
      dsimp only
      omega

theorem stream_of_deflateAt (hpos : GZIP_HEADER_LEN ≤ pos ∧ pos ≤ file.length)
    (hsize : file.length < 2 ^ 63) (hfits : StreamFits lib file pos) {rawDataLen : Nat}
    {data : List UInt8}
    (h : deflateAt lib file pos = some (rawDataLen, data)) : 0 < rawDataLen ∧
      IsStream lib
      { type := .deflate, start := pos, file, rawDataLen, uncompressedData := data } := by
  obtain ⟨hdata, used, hinf⟩ := deflateAt_data h
  obtain ⟨hused, hle⟩ := used_le laws hinf
  obtain ⟨hrest, hlarge⟩ := hfits.2 _ data used rfl hinf (Nat.le_of_lt hdata)
  rw [deflateAt_eq hpos.2 hsize rfl hle hinf hrest] at h
  split at h
  · rename_i hfooter
    cases h
    have hsmall : file.length - pos < 2 ^ 32 :=
      Nat.not_le.mp fun hno => hlarge hno hfooter.1 hfooter.2
    rw [Nat.mod_eq_of_lt hsmall] at hinf hle hfooter ⊢
    have hraw : file.length - (file.length - pos - used) - pos = used := by omega
    rw [hraw]
    have hself := (laws.inflate hinf).2.2
    rw [List.take_take, Nat.min_eq_left hle] at hself
    refine ⟨hused, hself, hpos.1, ?_⟩
    dsimp only
    unfold GZIP_FOOTER_LEN
    omega
  · cases h

omit laws

/-! ## The loop -/

theorem normalLen_le {dataLen : Nat} (h : dataLen + pos ≤ file.length) :
    normalLen file pos fuel dataLen + pos ≤ file.length := by
  induction fuel generalizing dataLen with
  | zero => exact h
  | succ fuel ih =>
    rw [normalLen]
    split
    · split
      · exact h
      · exact ih (by omega)
    · exact h

/-- A round of the loop goes well. -/
structure RoundOk (lib : Lib) (file : List UInt8) (pos : Nat) : Prop where
  reads : ∀ r ∈ roundReads lib file pos, r.1 + r.2 ≤ file.length
  tiles : Tiles file pos (scanRound lib file pos).1 (scanRound lib file pos).2
  le : (scanRound lib file pos).2 ≤ file.length
  nonempty : ∀ c ∈ (scanRound lib file pos).1, 0 < c.rawDataLen
  streams : ∀ c ∈ (scanRound lib file pos).1, c.type = .deflate → IsStream lib c

/-- In a round at `pos`, a deflate stream after a gzip header fits. -/
def RoundFits (lib : Lib) (file : List UInt8) (pos : Nat) : Prop :=
  magicAt file pos = true → GZIP_HEADER_LEN + GZIP_FOOTER_LEN ≤ file.length - pos →
    StreamFits lib file (pos + GZIP_HEADER_LEN)

theorem magicAt_le (h : magicAt file pos = true) : pos + 4 ≤ file.length := by
  simp only [magicAt, Bool.and_eq_true, decide_eq_true_eq] at h
  exact h.1

theorem RoundFits.ok (laws : lib.Lawful) (hsize : file.length < 2 ^ 63) (hlt : pos < file.length)
    (h : RoundFits lib file pos) : RoundOk lib file pos := by
  have h10 : GZIP_HEADER_LEN = 10 := rfl
  have h8 : GZIP_FOOTER_LEN = 8 := rfl
  by_cases hmagic : magicAt file pos = true
  · have h4 := magicAt_le hmagic
    by_cases hshort : file.length - pos < GZIP_HEADER_LEN + GZIP_FOOTER_LEN
    · constructor <;> simp only [roundReads, scanRound, if_pos hmagic, if_pos hshort,
        List.forall_mem_singleton]
      case reads => exact h4
      case tiles => exact ⟨rfl, rfl, by show pos + (file.length - pos) = file.length; omega⟩
      case le => exact Nat.le_refl _
      case nonempty => omega
      case streams => exact fun htype => by cases htype
    · have hfits := h hmagic (Nat.not_lt.mp hshort)
      have hreads := deflateReads_inside laws (by omega) hsize hfits
      cases hdeflate : deflateAt lib file (pos + GZIP_HEADER_LEN) with
      | none =>
        constructor <;>
          simp only [roundReads, scanRound, if_pos hmagic, if_neg hshort, hdeflate,
            List.forall_mem_cons]
        case reads => exact ⟨h4, hreads⟩
        case tiles => exact ⟨rfl, rfl, rfl⟩
        case le => omega
        case nonempty => exact ⟨by omega, List.forall_mem_nil _⟩
        case streams => exact ⟨fun htype => (by cases htype), List.forall_mem_nil _⟩
      | some r =>
        obtain ⟨rawDataLen, data⟩ := r
        obtain ⟨hpos, hstream⟩ := stream_of_deflateAt laws ⟨by omega, by omega⟩ hsize hfits hdeflate
        have hafter := hstream.after
        dsimp only at hafter
        constructor <;>
          simp only [roundReads, scanRound, if_pos hmagic, if_neg hshort, hdeflate,
            List.forall_mem_cons]
        case reads => exact ⟨h4, hreads⟩
        case tiles => exact ⟨rfl, rfl, rfl, rfl, rfl, rfl, rfl⟩
        case le => exact hafter
        case nonempty => exact ⟨by omega, hpos, by omega, List.forall_mem_nil _⟩
        case streams =>
          exact ⟨fun htype => (by cases htype), fun _ => hstream, fun htype => (by cases htype),
            List.forall_mem_nil _⟩
  · have hpos := normalLen_pos hlt hmagic
    have hle := @normalLen_le file (file.length - pos) pos 0 (by omega)
    constructor <;> simp only [roundReads, scanRound, if_neg hmagic, List.forall_mem_singleton]
    case reads =>
      intro r hr
      obtain ⟨i, hi, rfl⟩ := List.mem_map.mp hr
      rw [List.mem_filter, decide_eq_true_eq] at hi
      exact hi.2
    case tiles => exact ⟨rfl, rfl, rfl⟩
    case le => omega
    case nonempty => exact hpos
    case streams => exact fun htype => by cases htype

end ImageMode

end BootableRecovery.ApplyPatch
