import BootableRecovery.Verifier.VerifyFile
import BootableRecovery.Verifier.Der

/-!
# What `verify_file` accepts

`WholeFileSigned` says when a package carries a valid whole-file signature, in terms of the bytes of
the file alone; `verifyFile_success_iff` shows that `verify_file` accepts exactly those packages and
reads no byte outside of them.
-/

namespace BootableRecovery

variable {crypto : Crypto}

/-- The number in two bytes, low byte first. -/
def le16 (lo hi : UInt8) : Nat := lo.toNat + hi.toNat * 2 ^ 8

/-- The end-of-central-directory marker stands at position `q` of the file. -/
def MarkerAt (addr : List UInt8) (q : Nat) : Prop := (addr.drop q).take 4 = eocdMarker

/-- The key accepts the signature for the message: an RSA key with SHA-1 or SHA-256, or an EC key
with SHA-256. -/
def Certificate.Accepts (key : Certificate crypto) (message sigDer : List UInt8) : Prop :=
  (key.keyType = .rsa ∧ key.hashLen = SHA_DIGEST_LENGTH ∧
    crypto.rsaVerify .sha1 (crypto.sha1.digest message) sigDer key.rsa = true) ∨
  (key.keyType = .rsa ∧ key.hashLen = SHA256_DIGEST_LENGTH ∧
    crypto.rsaVerify .sha256 (crypto.sha256.digest message) sigDer key.rsa = true) ∨
  (key.keyType = .ec ∧ key.hashLen = SHA256_DIGEST_LENGTH ∧
    crypto.ecdsaVerify (crypto.sha256.digest message) sigDer key.ec = true)

/-- The footer of the file: its last six bytes are `sigStart`, `ff ff` and `commentSize`. -/
def Footer (addr : List UInt8) (sigStart commentSize : Nat) : Prop :=
  ∃ b₀ b₁ b₄ b₅, addr.drop (addr.length - 6) = [b₀, b₁, 0xff, 0xff, b₄, b₅] ∧
    sigStart = le16 b₀ b₁ ∧ commentSize = le16 b₄ b₅

/-- The bytes `[lo, hi)` of the file. -/
def slice (addr : List UInt8) (lo hi : Nat) : List UInt8 := (addr.drop lo).take (hi - lo)

/-- The file carries a whole-file signature by one of the keys. -/
def WholeFileSigned (addr : List UInt8) (keys : List (Certificate crypto)) : Prop :=
  ∃ sigStart commentSize, Footer addr sigStart commentSize ∧
    6 < sigStart ∧ sigStart ≤ commentSize ∧ commentSize + 22 ≤ addr.length ∧
    MarkerAt addr (addr.length - commentSize - 22) ∧
    (∀ q, addr.length - commentSize - 22 < q → ¬MarkerAt addr q) ∧
    ∃ sigDer, readPkcs7 (Memory.ofList (slice addr (addr.length - sigStart) (addr.length - 6))) 0
        (sigStart - 6) = some (some sigDer) ∧
      ∃ key ∈ keys, key.Accepts (slice addr 0 (addr.length - commentSize - 2)) sigDer

/-! ## The loops -/

section
variable {mem : Memory UInt8} {addr : List UInt8} (hmem : mem.Holds 0 addr)
include hmem

theorem bytesEqual_eq (bs : List UInt8) {p : Nat} (hp : p + bs.length ≤ addr.length) :
    bytesEqual mem p bs = some (decide ((addr.drop p).take bs.length = bs)) := by
  induction bs generalizing p with
  | nil => simp [bytesEqual]
  | cons b bs ih =>
    have hlt : p < addr.length := by simp only [List.length_cons] at hp; omega
    have hb : mem p = some addr[p] := by simpa using hmem p hlt
    have ih := ih (p := p + 1) (by simp only [List.length_cons] at hp; omega)
    have hcons : (addr.drop p).take (b :: bs).length =
        addr[p] :: (addr.drop (p + 1)).take bs.length := by
      rw [List.drop_eq_getElem_cons hlt]; rfl
    rw [hcons]
    by_cases h : addr[p] = b <;> simp [bytesEqual, hb, h, ih]

theorem findMarker_eq (n : Nat) {p : Nat} (hp : p + n + 3 ≤ addr.length) :
    ∃ found, findMarker mem p n = some found ∧
      (found = true ↔ ∃ q, p ≤ q ∧ q < p + n ∧ MarkerAt addr q) := by
  induction n generalizing p with
  | zero => exact ⟨false, rfl, by simp; omega⟩
  | succ n ih =>
    have hb := bytesEqual_eq hmem eocdMarker (p := p) (by simp [eocdMarker]; omega)
    by_cases hm : MarkerAt addr p
    · refine ⟨true, ?_, by simpa using ⟨p, by omega, by omega, hm⟩⟩
      have : (addr.drop p).take eocdMarker.length = eocdMarker := hm
      simp [findMarker, hb, this]
    · obtain ⟨found, hfound, hiff⟩ := ih (p := p + 1) (by omega)
      refine ⟨found, ?_, hiff.trans ⟨?_, ?_⟩⟩
      · have : ¬(addr.drop p).take eocdMarker.length = eocdMarker := hm
        simp [findMarker, hb, this, hfound]
      · rintro ⟨q, h1, h2, hq⟩
        exact ⟨q, by omega, by omega, hq⟩
      · rintro ⟨q, h1, h2, hq⟩
        have : q ≠ p := fun h => hm (h ▸ hq)
        exact ⟨q, by omega, by omega, hq⟩

/-- The hash loop feeds the bytes `[soFar, signedLen)` in order to the digests that are needed. -/
theorem hashLoop_eq (needSha1 needSha256 : Bool) {signedLen : Nat} (hs : signedLen ≤ addr.length)
    (fuel : Nat) {soFar : Nat} (hfuel : signedLen - soFar ≤ fuel) (c₁ : crypto.sha1.Ctx)
    (c₂ : crypto.sha256.Ctx) :
    ∃ pieces : List (List UInt8), pieces.flatten = slice addr soFar signedLen ∧
      hashLoop mem signedLen needSha1 needSha256 fuel soFar c₁ c₂ =
        some (if needSha1 then pieces.foldl crypto.sha1.update c₁ else c₁,
          if needSha256 then pieces.foldl crypto.sha256.update c₂ else c₂) := by
  induction fuel generalizing soFar c₁ c₂ with
  | zero =>
    refine ⟨[], ?_, by simp [hashLoop]⟩
    simp [slice, show signedLen - soFar = 0 by omega]
  | succ fuel ih =>
    by_cases hlt : soFar < signedLen
    · have hsize : 0 < min (signedLen - soFar) (16 * MiB) := by
        have : 0 < 16 * MiB := by decide
        omega
      generalize hn : min (signedLen - soFar) (16 * MiB) = n at hsize
      have hle : n ≤ signedLen - soFar := by omega
      have hread : mem.read soFar n = some ((addr.drop soFar).take n) :=
        (by simpa using hmem.drop soFar : mem.Holds soFar _).read_take
          (by rw [List.length_drop]; omega)
      have hfuel : signedLen - (soFar + n) ≤ fuel := by omega
      obtain ⟨pieces, hflat, heq⟩ := ih hfuel
        (if needSha1 then crypto.sha1.update c₁ ((addr.drop soFar).take n) else c₁)
        (if needSha256 then crypto.sha256.update c₂ ((addr.drop soFar).take n) else c₂)
      refine ⟨(addr.drop soFar).take n :: pieces, ?_, ?_⟩
      · rw [List.flatten_cons, hflat]
        simp only [slice]
        rw [show signedLen - soFar = n + (signedLen - (soFar + n)) by omega, List.take_add,
          List.drop_drop]
      · simp only [hashLoop, hlt, if_true, hn, hread, Option.bind_eq_bind, Option.bind_some, heq]
        cases needSha1 <;> cases needSha256 <;> rfl
    · refine ⟨[], ?_, by simp [hashLoop, hlt]⟩
      simp [slice, show signedLen - soFar = 0 by omega]

end

/-! ## The keys -/

/-- With the digests of the message, one round of the key loop decides `Accepts`. -/
theorem keyMatches_iff (key : Certificate crypto) {sha1 sha256 message sigDer : List UInt8}
    (h1 : key.hashLen = SHA_DIGEST_LENGTH → sha1 = crypto.sha1.digest message)
    (h2 : key.hashLen = SHA256_DIGEST_LENGTH → sha256 = crypto.sha256.digest message) :
    keyMatches sha1 sha256 sigDer key = true ↔ key.Accepts message sigDer := by
  have hne : SHA_DIGEST_LENGTH ≠ SHA256_DIGEST_LENGTH := by decide
  unfold keyMatches Certificate.Accepts
  by_cases hl : key.hashLen = SHA_DIGEST_LENGTH
  · rw [h1 hl]
    cases key.keyType <;> simp [hl, hne]
  · by_cases hl' : key.hashLen = SHA256_DIGEST_LENGTH
    · rw [h2 hl']
      cases key.keyType <;> simp [hl', hne.symm]
    · simp [hl, hl']

/-! ## The whole check -/

theorem MarkerAt.lt_length {addr : List UInt8} (h : MarkerAt addr q) : q + 4 ≤ addr.length := by
  have := congrArg List.length h
  simp only [List.length_take, List.length_drop, eocdMarker, List.length_cons, List.length_nil]
    at this
  omega

/-- Two markers never overlap, so none starts at one of the three positions after a marker. -/
theorem MarkerAt.not_overlap {addr : List UInt8} (h : MarkerAt addr p) (h1 : p < q)
    (h2 : q < p + 4) : ¬MarkerAt addr q := by
  intro hq
  have hlen := hq.lt_length
  have get : ∀ {r i : Nat} (hr : MarkerAt addr r) (hi : i < 4), addr[r + i]? = eocdMarker[i]? := by
    intro r i hr hi
    rw [← hr, List.getElem?_take_of_lt hi, List.getElem?_drop]
  have hq0 := get hq (i := 0) (by omega)
  have hp := get h (i := q - p) (by omega)
  rw [show p + (q - p) = q + 0 by omega, hq0] at hp
  obtain h' | h' | h' : q - p = 1 ∨ q - p = 2 ∨ q - p = 3 := by omega
  all_goals rw [h'] at hp; revert hp; decide

theorem footer_bytes {addr : List UInt8} (h : 6 ≤ addr.length) :
    ∃ b₀ b₁ b₂ b₃ b₄ b₅, addr.drop (addr.length - 6) = [b₀, b₁, b₂, b₃, b₄, b₅] := by
  have hlen : (addr.drop (addr.length - 6)).length = 6 := by rw [List.length_drop]; omega
  generalize addr.drop (addr.length - 6) = l at hlen
  match l, hlen with
  | [b₀, b₁, b₂, b₃, b₄, b₅], _ => exact ⟨b₀, b₁, b₂, b₃, b₄, b₅, rfl⟩

section
variable {addr : List UInt8} {b₀ b₁ b₂ b₃ b₄ b₅ : UInt8}
  (hfoot : addr.drop (addr.length - 6) = [b₀, b₁, b₂, b₃, b₄, b₅])
include hfoot

theorem footer_iff : Footer addr s c ↔
    (b₂ = 0xff ∧ b₃ = 0xff) ∧ s = le16 b₀ b₁ ∧ c = le16 b₄ b₅ := by
  unfold Footer
  rw [hfoot]
  constructor
  · rintro ⟨x₀, x₁, x₄, x₅, h, rfl, rfl⟩
    simp_all
  · rintro ⟨⟨rfl, rfl⟩, rfl, rfl⟩
    exact ⟨_, _, _, _, rfl, rfl, rfl⟩

theorem wholeFileSigned_iff {keys : List (Certificate crypto)} :
    WholeFileSigned addr keys ↔
      (b₂ = 0xff ∧ b₃ = 0xff) ∧ le16 b₀ b₁ ≤ le16 b₄ b₅ ∧ 6 < le16 b₀ b₁ ∧
      le16 b₄ b₅ + 22 ≤ addr.length ∧ MarkerAt addr (addr.length - (le16 b₄ b₅ + 22)) ∧
      (∀ q, addr.length - (le16 b₄ b₅ + 22) < q → ¬MarkerAt addr q) ∧
      ∃ sigDer, Der.readPkcs7 (slice addr (addr.length - le16 b₀ b₁) (addr.length - 6)) =
          some sigDer ∧
        ∃ key ∈ keys, key.Accepts (slice addr 0 (addr.length - le16 b₄ b₅ - 2)) sigDer := by
  have hread : le16 b₄ b₅ + 22 ≤ addr.length → le16 b₀ b₁ ≤ le16 b₄ b₅ → 6 < le16 b₀ b₁ →
      readPkcs7 (Memory.ofList (slice addr (addr.length - le16 b₀ b₁) (addr.length - 6))) 0
        (le16 b₀ b₁ - 6) =
      some (Der.readPkcs7 (slice addr (addr.length - le16 b₀ b₁) (addr.length - 6))) := by
    intro h1 h2 h3
    rw [← readPkcs7_eq (Memory.holds_ofList _)]
    congr 1
    simp only [slice, List.length_take, List.length_drop]
    omega
  unfold WholeFileSigned
  constructor
  · rintro ⟨s, c, hf, h1, h2, h3, h4, h5, sigDer, h6, h7⟩
    obtain ⟨hff, rfl, rfl⟩ := (footer_iff hfoot).mp hf
    rw [hread h3 h2 h1] at h6
    rw [Nat.sub_sub] at h4 h5
    exact ⟨hff, h2, h1, h3, h4, h5, sigDer, by simpa using h6, h7⟩
  · rintro ⟨hff, h2, h1, h3, h4, h5, sigDer, h6, h7⟩
    refine ⟨_, _, (footer_iff hfoot).mpr ⟨hff, rfl, rfl⟩, h1, h2, h3, ?_, ?_, sigDer, ?_, h7⟩
    · rwa [Nat.sub_sub]
    · rwa [Nat.sub_sub]
    · rw [hread h3 h2 h1, h6]

end

section
variable {mem : Memory UInt8} {addr : List UInt8} (hmem : mem.Holds 0 addr)
include hmem

/-- The digests that the key loop gets are those of the signed bytes, for every key that uses
them. -/
theorem hashLoop_digests (keys : List (Certificate crypto)) {signedLen : Nat}
    (hs : signedLen ≤ addr.length) :
    ∃ c₁ c₂, hashLoop mem signedLen (keys.any (·.hashLen = SHA_DIGEST_LENGTH))
        (keys.any (·.hashLen = SHA256_DIGEST_LENGTH)) signedLen 0 crypto.sha1.init
        crypto.sha256.init = some (c₁, c₂) ∧
      ∀ key ∈ keys, ∀ sigDer, keyMatches (crypto.sha1.final c₁) (crypto.sha256.final c₂) sigDer key
        = true ↔ key.Accepts (slice addr 0 signedLen) sigDer := by
  obtain ⟨pieces, hflat, heq⟩ := hashLoop_eq hmem (keys.any (·.hashLen = SHA_DIGEST_LENGTH))
    (keys.any (·.hashLen = SHA256_DIGEST_LENGTH)) hs signedLen (Nat.sub_le signedLen 0)
    crypto.sha1.init crypto.sha256.init
  refine ⟨_, _, heq, fun key hkey sigDer => keyMatches_iff key (fun hl => ?_) (fun hl => ?_)⟩
  · have : keys.any (·.hashLen = SHA_DIGEST_LENGTH) = true :=
      List.any_eq_true.mpr ⟨key, hkey, by simpa using hl⟩
    rw [if_pos this, crypto.sha1.chunked, hflat]
  · have : keys.any (·.hashLen = SHA256_DIGEST_LENGTH) = true :=
      List.any_eq_true.mpr ⟨key, hkey, by simpa using hl⟩
    rw [if_pos this, crypto.sha256.chunked, hflat]

theorem verifyFile_decides (keys : List (Certificate crypto)) :
    (verifyFile mem addr.length keys = some VERIFY_SUCCESS ∧ WholeFileSigned addr keys) ∨
      (verifyFile mem addr.length keys = some VERIFY_FAILURE ∧ ¬WholeFileSigned addr keys) := by
  by_cases hshort : addr.length < 6
  · refine .inr ⟨by simp [verifyFile, FOOTER_SIZE, hshort], ?_⟩
    rintro ⟨_, _, ⟨b₀, b₁, b₄, b₅, h, -⟩, -⟩
    have := congrArg List.length h
    simp only [List.length_drop, List.length_cons, List.length_nil] at this
    omega
  have hlen : 6 ≤ addr.length := Nat.le_of_not_lt hshort
  obtain ⟨b₀, b₁, b₂, b₃, b₄, b₅, hfoot⟩ := footer_bytes hlen
  rw [wholeFileSigned_iff hfoot]
  -- the six reads of the footer
  have hf : mem.Holds (addr.length - 6) [b₀, b₁, b₂, b₃, b₄, b₅] := by
    rw [← hfoot]
    simpa using hmem.drop (addr.length - 6)
  have r0 : mem (addr.length - 6) = some b₀ := hf 0 (by simp)
  have r1 : mem (addr.length - 6 + 1) = some b₁ := hf 1 (by simp)
  have r2 : mem (addr.length - 6 + 2) = some b₂ := hf 2 (by simp)
  have r3 : mem (addr.length - 6 + 2 + 1) = some b₃ := hf 3 (by simp)
  have r4 : mem (addr.length - 6 + 4) = some b₄ := hf 4 (by simp)
  have r5 : mem (addr.length - 6 + 5) = some b₅ := hf 5 (by simp)
  have hff : bytesEqual mem (addr.length - 6 + 2) [0xff, 0xff] =
      some (decide (b₂ = 0xff ∧ b₃ = 0xff)) := by
    by_cases h2 : b₂ = 0xff <;> by_cases h3 : b₃ = 0xff <;> simp [bytesEqual, r2, r3, h2, h3]
  unfold verifyFile
  simp only [FOOTER_SIZE, hshort, if_false, hff, r0, r1, r4, r5, Option.bind_eq_bind,
    Option.bind_some, Option.pure_def, le16]
  generalize b₀.toNat + b₁.toNat * 2 ^ 8 = sigStart
  generalize b₄.toNat + b₅.toNat * 2 ^ 8 = commentSize
  -- each check that fails is a conjunct that fails
  by_cases h1 : b₂ = 0xff ∧ b₃ = 0xff
  swap; · exact .inr ⟨by simp [h1], fun h => h1 h.1⟩
  by_cases h2 : sigStart ≤ commentSize
  swap; · exact .inr ⟨by simp [h1, h2], fun h => h2 h.2.1⟩
  by_cases h3 : 6 < sigStart
  swap; · exact .inr ⟨by simp [h1, h2, h3], fun h => h3 h.2.2.1⟩
  by_cases h4 : commentSize + 22 ≤ addr.length
  swap; · exact .inr ⟨by simp [h1, h2, h3, EOCD_HEADER_SIZE, h4], fun h => h4 h.2.2.2.1⟩
  have n2 : ¬commentSize < sigStart := Nat.not_lt.mpr h2
  have n3 : ¬sigStart ≤ 6 := Nat.not_le.mpr h3
  have n4 : ¬addr.length < commentSize + 22 := Nat.not_lt.mpr h4
  have hmark := bytesEqual_eq hmem eocdMarker (p := addr.length - (commentSize + 22))
    (by simp [eocdMarker]; omega)
  by_cases h5 : MarkerAt addr (addr.length - (commentSize + 22))
  swap
  · have h5' : ¬List.take eocdMarker.length (addr.drop (addr.length - (commentSize + 22))) =
      eocdMarker := h5
    exact .inr ⟨by simp [h1, n2, n3, EOCD_HEADER_SIZE, n4, hmark, h5'], fun h => h5 h.2.2.2.2.1⟩
  have h5' : List.take eocdMarker.length (addr.drop (addr.length - (commentSize + 22))) =
    eocdMarker := h5
  obtain ⟨found, hfound, hiff⟩ := findMarker_eq hmem (commentSize + 15)
    (p := addr.length - (commentSize + 22) + 4) (by omega)
  by_cases h6 : ∀ q, addr.length - (commentSize + 22) < q → ¬MarkerAt addr q
  swap
  · have : found = true := by
      push Not at h6
      obtain ⟨q, hq, hm⟩ := h6
      have := hm.lt_length
      have hge : ¬q < addr.length - (commentSize + 22) + 4 := fun hlt => h5.not_overlap hq hlt hm
      exact hiff.mpr ⟨q, by omega, by omega, hm⟩
    subst this
    exact .inr ⟨by simp [h1, n2, n3, EOCD_HEADER_SIZE, n4, hmark, h5', hfound],
      fun h => h6 h.2.2.2.2.2.1⟩
  have hnone : found = false := by
    rw [← Bool.not_eq_true, hiff]
    rintro ⟨q, hq, -, hm⟩
    exact h6 q (by omega) hm
  subst hnone
  -- the hash loop and the signature block
  have hsigned : addr.length - (commentSize + 22) + 20 ≤ addr.length := by omega
  obtain ⟨c₁, c₂, hloop, hkeys⟩ := hashLoop_digests hmem keys hsigned
  have hslice := hmem.slice (addr.length - sigStart) (addr.length - 6 - (addr.length - sigStart))
  have hsig : readPkcs7 mem (addr.length - sigStart) (sigStart - 6) =
      some (Der.readPkcs7 (slice addr (addr.length - sigStart) (addr.length - 6))) := by
    rw [slice, ← readPkcs7_eq hslice, List.length_take, List.length_drop]
    congr 1
    omega
  have hsub : addr.length - commentSize - 2 = addr.length - (commentSize + 22) + 20 := by omega
  have hcancel := Nat.sub_add_cancel h4
  cases hder : Der.readPkcs7 (slice addr (addr.length - sigStart) (addr.length - 6)) with
  | none =>
    exact .inr ⟨by simp [h1, n2, n3, EOCD_HEADER_SIZE, n4, hmark, h5', hfound, hloop, hcancel, hsig,
      hder], by simp⟩
  | some sigDer =>
    by_cases h7 : ∃ key ∈ keys,
      keyMatches (crypto.sha1.final c₁) (crypto.sha256.final c₂) sigDer key
        = true
    · refine .inl ⟨by simp [h1, n2, n3, EOCD_HEADER_SIZE, n4, hmark, h5', hfound, hloop, hcancel,
        hsig, hder, h7], h1, h2, h3, h4, h5, h6, sigDer, rfl, ?_⟩
      obtain ⟨key, hkey, hm⟩ := h7
      exact ⟨key, hkey, hsub ▸ (hkeys key hkey sigDer).mp hm⟩
    · refine .inr ⟨by simp [h1, n2, n3, EOCD_HEADER_SIZE, n4, hmark, h5', hfound, hloop, hcancel,
        hsig, hder, h7], ?_⟩
      rintro ⟨-, -, -, -, -, -, _, hd, key, hkey, hacc⟩
      cases hd
      exact h7 ⟨key, hkey, (hkeys key hkey sigDer).mpr (hsub ▸ hacc)⟩

end

/-- **The whole-file signature check.** On every file and every list of keys `verify_file` stays
inside the file, and it accepts exactly the files that carry a whole-file signature by one of the
keys. -/
theorem verifyFile_success_iff (addr : List UInt8) (keys : List (Certificate crypto)) :
    verifyFile (Memory.ofList addr) addr.length keys ≠ none ∧
      (verifyFile (Memory.ofList addr) addr.length keys = some VERIFY_SUCCESS ↔
        WholeFileSigned addr keys) := by
  rcases verifyFile_decides (Memory.holds_ofList addr) keys with ⟨h, hs⟩ | ⟨h, hs⟩
  · simp [h, hs]
  · simp [h, hs, VERIFY_SUCCESS, VERIFY_FAILURE]

/-- The sum of the bytes. -/
def byteSum : HashApi where
  Ctx := UInt8
  init := 0
  update sum bytes := bytes.foldl (· + ·) sum
  final sum := [sum]
  digest bytes := [bytes.foldl (· + ·) 0]
  chunked pieces := by rw [List.foldl_flatten]

/-- Signatures that have the digest and the number of the key. -/
def sumCrypto : Crypto where
  RSA := UInt8
  EC := Unit
  sha1 := byteSum
  sha256 := byteSum
  rsaVerify _ hash sig key := sig = hash ++ [key]
  ecdsaVerify _ _ _ := false

/-- An archive without entries, with a signature by the key 7 in its comment. -/
def signedArchive : List UInt8 :=
  eocdMarker ++ List.replicate 16 0 ++ [0x27, 0x00] ++
    [0x30, 0x1f, 0x06, 0x01, 0x2a, 0xa0, 0x1a, 0x30, 0x18, 0x02, 0x01, 0x01, 0x31, 0x00, 0x30, 0x00,
      0x31, 0x0f, 0x30, 0x0d, 0x02, 0x01, 0x01, 0x30, 0x00, 0x30, 0x00, 0x30, 0x00, 0x04, 0x02,
      0xa6, 0x07] ++
    [0x27, 0x00, 0xff, 0xff, 0x27, 0x00]

example :
    (([7, 8] : List UInt8).map fun key =>
      verifyFile (Memory.ofList signedArchive) signedArchive.length
      [(⟨20, .rsa, key, ()⟩ : Certificate sumCrypto)]) =
      [some VERIFY_SUCCESS, some VERIFY_FAILURE] := by
  decide +kernel

end BootableRecovery
