import BootableRecovery.Verifier.Der
import Mathlib.Data.Nat.Digits.Lemmas

/-!
# PKCS#7 values

The encodings that `read_pkcs7` is made for: the structure in the comment above it, written with the
distinguished encoding rules. The signature of the first `SignerInfo` is found in every one of them.
On any other bytes the decoder stays inside its input, ends, and returns at most a part of the
input.
-/

namespace BootableRecovery

namespace Der
open Asn1Context

/-! ## Encodings -/

/-- The bytes of a number, the highest first. -/
def bigEndian (n : Nat) : List UInt8 := (Nat.digits 256 n).reverse.map UInt8.ofNat

/-- A length field: the number itself below 128, else the count of its bytes and the bytes. -/
def encodeLength (n : Nat) : List UInt8 :=
  if n < 128 then [UInt8.ofNat n] else UInt8.ofNat (128 + (bigEndian n).length) :: bigEndian n

/-- An element with the given tag and contents. -/
def encode (tag : UInt8) (contents : List UInt8) : List UInt8 :=
  tag :: (encodeLength contents.length ++ contents)

def tagInteger : UInt8 := 0x02
def tagOid : UInt8 := 0x06
def tagContext0 : UInt8 := 0xA0
def tagContext1 : UInt8 := 0xA1

/-- A `SignerInfo`: the contents of its first five fields, and the encodings that follow them. -/
structure SignerInfo where
  version : List UInt8
  signerIdentifier : List UInt8
  digestAlgorithm : List UInt8
  signatureAlgorithm : List UInt8
  signatureValue : List UInt8
  further : List UInt8
  signatureValue_ne_nil : signatureValue ≠ []

def SignerInfo.encode (s : SignerInfo) : List UInt8 :=
  Der.encode kTagSequence (Der.encode tagInteger s.version ++
    (Der.encode kTagSequence s.signerIdentifier ++
      (Der.encode kTagSequence s.digestAlgorithm ++
        (Der.encode kTagSequence s.signatureAlgorithm ++
          (Der.encode kTagOctetString s.signatureValue ++ s.further)))))

/-- A `SignedData`: the contents of its fields, and its signers, of which there is at least one. -/
structure SignedData where
  version : List UInt8
  digestAlgorithms : List UInt8
  encapContentInfo : List UInt8
  certificates : Option (List UInt8)
  revocations : Option (List UInt8)
  signer : SignerInfo
  signers : List SignerInfo

/-- The encoding of an optional field. -/
def encodeOption (tag : UInt8) (contents : Option (List UInt8)) : List UInt8 :=
  contents.elim [] (encode tag)

def SignedData.encode (d : SignedData) : List UInt8 :=
  Der.encode kTagSequence (Der.encode tagInteger d.version ++
    (Der.encode kTagSet d.digestAlgorithms ++
      (Der.encode kTagSequence d.encapContentInfo ++
        (encodeOption tagContext0 d.certificates ++
          (encodeOption tagContext1 d.revocations ++
            Der.encode kTagSet ((d.signer :: d.signers).flatMap SignerInfo.encode))))))

/-- A `ContentInfo` with a `SignedData`. -/
structure ContentInfo where
  contentType : List UInt8
  content : SignedData

def ContentInfo.encode (c : ContentInfo) : List UInt8 :=
  Der.encode kTagSequence (Der.encode tagOid c.contentType ++
    Der.encode tagContext0 c.content.encode)

/-! ## Reading encodings -/

theorem octets_append (bs rest : List UInt8) (acc : Nat) :
    octets bs.length acc (bs ++ rest) =
      some (bs.foldl (fun n b => (n * 256 + b.toNat) % 2 ^ 64) acc, rest) := by
  induction bs generalizing acc with
  | nil => rfl
  | cons b bs ih => exact ih _

theorem foldl_mod (bs : List UInt8) (acc : Nat) :
    bs.foldl (fun n b => (n * 256 + b.toNat) % 2 ^ 64) (acc % 2 ^ 64) =
      bs.foldl (fun n b => n * 256 + b.toNat) acc % 2 ^ 64 := by
  induction bs generalizing acc with
  | nil => rfl
  | cons b bs ih =>
    have hstep :
        (acc % 2 ^ 64 * 256 + b.toNat) % 2 ^ 64 = (acc * 256 + b.toNat) % 2 ^ 64 := by omega
    rw [List.foldl_cons, List.foldl_cons, ← ih, hstep]

theorem foldl_bigEndian (n : Nat) : (bigEndian n).foldl (fun n b => n * 256 + b.toNat) 0 = n := by
  have hdigits : ∀ d ∈ Nat.digits 256 n, (UInt8.ofNat d).toNat = d := fun d hd => by
    rw [UInt8.toNat_ofNat']
    exact Nat.mod_eq_of_lt (Nat.digits_lt_base (by decide) hd)
  have hfold (l : List Nat) (hl : ∀ d ∈ l, (UInt8.ofNat d).toNat = d) :
      l.foldr (fun d n => n * 256 + (UInt8.ofNat d).toNat) 0 = Nat.ofDigits 256 l := by
    induction l with
    | nil => rfl
    | cons d l ih =>
      rw [List.foldr_cons, ih fun d hd => hl d (List.mem_cons_of_mem _ hd), Nat.ofDigits_cons,
        hl d List.mem_cons_self]
      omega
  rw [bigEndian, List.foldl_map, List.foldl_reverse, hfold _ hdigits, Nat.ofDigits_digits]

theorem length_bigEndian_lt (h : n < 2 ^ 56) : (bigEndian n).length < 8 := by
  have := (Nat.digits_length_le_iff (by decide : 1 < 256) n).mpr (show n < 256 ^ 7 from h)
  rw [bigEndian, List.length_map, List.length_reverse]
  omega

theorem length_encodeLength (h : n < 2 ^ 56) (rest : List UInt8) :
    length (encodeLength n ++ rest) = some (n, rest) := by
  rcases Nat.lt_or_ge n 128 with hn | hn
  · have hshort : ∀ n < 128, (UInt8.ofNat n) &&& 0x80 = 0x00 ∧ (UInt8.ofNat n).toNat =
        n := by decide
    rw [encodeLength, if_pos hn, List.singleton_append, length, if_pos (hshort n hn).1,
      (hshort n hn).2]
  · have hlong : ∀ k < 8, (UInt8.ofNat (128 + k)) &&& 0x80 ≠ 0x00 ∧
        ((UInt8.ofNat (128 + k)) &&& kMaskTag).toNat = k := by decide
    have hk := length_bigEndian_lt h
    obtain ⟨hform, hcount⟩ := hlong _ hk
    have hfold : (bigEndian n).foldl (fun n b => (n * 256 + b.toNat) % 2 ^ 64) 0 = n := by
      have := foldl_mod (bigEndian n) 0
      rw [foldl_bigEndian, Nat.zero_mod, Nat.mod_eq_of_lt (by omega)] at this
      exact this
    rw [encodeLength, if_neg (by omega), List.cons_append, length, if_neg hform, hcount,
      if_neg (by simpa [sizeofSizeT] using hk), octets_append, hfold]

theorem contents_encode {c : List UInt8} (h : c.length < 2 ^ 56) (rest : List UInt8) :
    contents (encodeLength c.length ++ c ++ rest) = some c := by
  rw [List.append_assoc, contents, length_encodeLength h]
  simp

theorem element_encode {tag : UInt8 → Bool} (ht : tag b = true) {c : List UInt8}
    (h : c.length < 2 ^ 56) (rest : List UInt8) : element tag (encode b c ++ rest) = some c := by
  rw [encode, List.cons_append, element, if_pos ht, contents_encode h]

theorem next_encode {c : List UInt8} (h : c.length < 2 ^ 56) (b : UInt8) (rest : List UInt8) :
    next (encode b c ++ rest) = some rest := by
  rw [encode, List.cons_append, next, List.append_assoc, length_encodeLength h]
  simp

theorem skip_succ_encode {c : List UInt8} (h : c.length < 2 ^ 56) (n : Nat) (b : UInt8)
    (rest : List UInt8) : skip (n + 1) (encode b c ++ rest) = skip n rest := by
  rw [skip, next_encode h]
  rfl

theorem octetString_encode {c : List UInt8} (h : c.length < 2 ^ 56) (hne : c ≠ [])
    (rest : List UInt8) : octetString (encode kTagOctetString c ++ rest) = some c := by
  rw [encode, List.cons_append, octetString, if_pos rfl, contents_encode h]
  simp [hne]

theorem skipAll_encode {c : Option (List UInt8)} (h : ∀ x ∈ c, x.length < 2 ^ 56)
    (hb : isConstructed b = true) (rest : List UInt8) {fuel : Nat}
    (hfuel : (encodeOption b c ++ rest).length < fuel) {l : List UInt8}
    (hrest : ∀ fuel, rest.length < fuel → skipAll fuel rest = some l) :
    skipAll fuel (encodeOption b c ++ rest) = some l := by
  cases c with
  | none => exact hrest fuel hfuel
  | some c =>
    obtain ⟨fuel, rfl⟩ := Nat.exists_eq_succ_of_ne_zero (Nat.ne_of_gt (Nat.zero_lt_of_lt hfuel))
    have hnext := next_encode (h c rfl) b rest
    have hlen : rest.length < fuel := by
      simp only [encodeOption, Option.elim_some, encode, List.length_append, List.length_cons]
        at hfuel
      omega
    change skipAll (fuel + 1) (encode b c ++ rest) = some l
    rw [encode, List.cons_append] at hnext ⊢
    rw [skipAll, if_pos hb, hnext]
    exact hrest fuel hlen

theorem length_lt_of_encode {c : List UInt8} (h : (encode b c).length < n) : c.length < n := by
  rw [encode, List.length_cons, List.length_append] at h
  omega

theorem length_lt_of_append {a b : List UInt8} (h : (a ++ b).length < n) :
    a.length < n ∧ b.length < n := by
  rw [List.length_append] at h
  omega

theorem SignerInfo.read_encode {s : SignerInfo} (h : s.encode.length < 2 ^ 56) (rest : List UInt8) :
    (element isSequence (s.encode ++ rest)).bind (fun l => (skip 4 l).bind octetString) =
      some s.signatureValue := by
  have hcontents := length_lt_of_encode h
  obtain ⟨hversion, hrest⟩ := length_lt_of_append hcontents
  obtain ⟨hidentifier, hrest⟩ := length_lt_of_append hrest
  obtain ⟨hdigest, hrest⟩ := length_lt_of_append hrest
  obtain ⟨halgorithm, hrest⟩ := length_lt_of_append hrest
  have hsignature := length_lt_of_encode (length_lt_of_append hrest).1
  rw [SignerInfo.encode, element_encode (by decide) hcontents, Option.bind_some,
    skip_succ_encode (length_lt_of_encode hversion),
    skip_succ_encode (length_lt_of_encode hidentifier),
    skip_succ_encode (length_lt_of_encode hdigest),
    skip_succ_encode (length_lt_of_encode halgorithm), skip, Option.bind_some,
    octetString_encode hsignature s.signatureValue_ne_nil]

theorem SignedData.read_encode {d : SignedData} (h : d.encode.length < 2 ^ 56) :
    (element isSequence d.encode).bind (fun l => (skip 3 l).bind fun l =>
      (skipAll (l.length + 1) l).bind (element isSet)) =
      some ((d.signer :: d.signers).flatMap SignerInfo.encode) := by
  have hcontents := length_lt_of_encode h
  obtain ⟨hversion, hrest⟩ := length_lt_of_append hcontents
  obtain ⟨hdigests, hrest⟩ := length_lt_of_append hrest
  obtain ⟨hencap, hrest⟩ := length_lt_of_append hrest
  obtain ⟨hcertificates, hrest⟩ := length_lt_of_append hrest
  obtain ⟨hrevocations, hset⟩ := length_lt_of_append hrest
  have hoption {b : UInt8} {c : Option (List UInt8)} (hc : (encodeOption b c).length < 2 ^ 56) :
      ∀ x ∈ c, x.length < 2 ^ 56 := by
    rintro x ⟨⟩
    exact length_lt_of_encode hc
  -- the tag of the set ends the optional fields
  have hstop (fuel : Nat) (l : List UInt8) (hfuel : (Der.encode kTagSet l).length < fuel) :
      skipAll fuel (Der.encode kTagSet l) = some (Der.encode kTagSet l) := by
    obtain ⟨fuel, rfl⟩ := Nat.exists_eq_succ_of_ne_zero (Nat.ne_of_gt (Nat.zero_lt_of_lt hfuel))
    rfl
  have hskip :=
    skipAll_encode (hoption hcertificates) (by decide : isConstructed tagContext0 = true) _
    (Nat.lt_succ_self _) fun fuel hfuel =>
      skipAll_encode (hoption hrevocations) (by decide : isConstructed tagContext1 = true) _ hfuel
        fun fuel hfuel => hstop fuel ((d.signer :: d.signers).flatMap SignerInfo.encode) hfuel
  have hsequence := element_encode (by decide : isSequence kTagSequence = true) hcontents []
  have hsigners := element_encode (by decide : isSet kTagSet = true) (length_lt_of_encode hset) []
  rw [List.append_nil] at hsequence hsigners
  rw [SignedData.encode, hsequence, Option.bind_some,
    skip_succ_encode (length_lt_of_encode hversion),
    skip_succ_encode (length_lt_of_encode hdigests), skip_succ_encode (length_lt_of_encode hencap),
    skip, Option.bind_some, hskip, Option.bind_some, hsigners]

theorem readPkcs7_encode {v : ContentInfo} (h : v.encode.length < 2 ^ 56) :
    readPkcs7 v.encode = some v.content.signer.signatureValue := by
  have hcontents := length_lt_of_encode h
  obtain ⟨htype, hcontent⟩ := length_lt_of_append hcontents
  have hdata := length_lt_of_encode hcontent
  obtain ⟨hsigner, hset⟩ : v.content.signer.encode.length < 2 ^ 56 ∧
      (element isSequence v.content.encode).bind (fun l => (skip 3 l).bind fun l =>
        (skipAll (l.length + 1) l).bind (element isSet)) =
        some (v.content.signer.encode ++ v.content.signers.flatMap SignerInfo.encode) := by
    refine ⟨?_, SignedData.read_encode hdata⟩
    have hskipped := (length_lt_of_append (length_lt_of_encode hdata)).2
    have hset := (length_lt_of_append (length_lt_of_append (length_lt_of_append
      (length_lt_of_append hskipped).2).2).2).2
    exact (length_lt_of_append (length_lt_of_encode hset)).1
  obtain ⟨l₁, h₁, hset⟩ := Option.bind_eq_some_iff.mp hset
  obtain ⟨l₂, h₂, hset⟩ := Option.bind_eq_some_iff.mp hset
  obtain ⟨l₃, h₃, h₄⟩ := Option.bind_eq_some_iff.mp hset
  have hsequence := element_encode (by decide : isSequence kTagSequence = true) hcontents []
  have happ := element_encode (by decide : isConstructed tagContext0 = true) hdata []
  rw [List.append_nil] at hsequence happ
  have hread := SignerInfo.read_encode hsigner (v.content.signers.flatMap SignerInfo.encode)
  rw [readPkcs7, ContentInfo.encode, hsequence]
  simp only [Option.bind_eq_bind, Option.bind_some, next_encode (length_lt_of_encode htype),
    happ, h₁, h₂, h₃, h₄]
  exact hread

/-! ## Parts of the input -/

theorem octets_suffix (h : octets n acc l = some (k, r)) : r <:+ l := by
  induction n generalizing acc l with
  | zero =>
    cases h
    exact List.suffix_refl _
  | succ n ih =>
    cases l with
    | nil => cases h
    | cons b l => exact (ih h).trans (List.suffix_cons b l)

theorem length_suffix (h : length l = some (n, r)) : r <:+ l := by
  cases l with
  | nil => cases h
  | cons b l =>
    rw [length] at h
    split at h
    · cases h
      exact List.suffix_cons b _
    · split at h
      · cases h
      · exact (octets_suffix h).trans (List.suffix_cons b l)

theorem isInfix_contents (h : contents l = some c) : c <:+: l := by
  obtain ⟨⟨n, r⟩, hlength, h⟩ := Option.bind_eq_some_iff.mp h
  dsimp only at h
  split at h
  · cases h
  · cases h
    exact (List.take_prefix n r).isInfix.trans (length_suffix hlength).isInfix

theorem isInfix_element {tag : UInt8 → Bool} (h : element tag l = some c) : c <:+: l := by
  cases l with
  | nil => cases h
  | cons b l =>
    rw [element] at h
    split at h
    · exact (isInfix_contents h).trans (List.suffix_cons b l).isInfix
    · cases h

theorem next_suffix (h : next l = some r) : r <:+ l ∧ r.length < l.length := by
  cases l with
  | nil => cases h
  | cons b l =>
    obtain ⟨⟨n, r⟩, hlength, h⟩ := Option.bind_eq_some_iff.mp h
    dsimp only at h
    split at h
    · cases h
    · cases h
      have hsuffix := (List.drop_suffix n r).trans (length_suffix hlength)
      exact ⟨hsuffix.trans (List.suffix_cons b l), Nat.lt_succ_of_le hsuffix.length_le⟩

theorem skip_suffix (h : skip n l = some r) : r <:+ l := by
  induction n generalizing l with
  | zero =>
    cases h
    exact List.suffix_refl _
  | succ n ih =>
    obtain ⟨l', hnext, h⟩ := Option.bind_eq_some_iff.mp h
    exact (ih h).trans (next_suffix hnext).1

theorem skipAll_suffix (h : skipAll n l = some r) : r <:+ l := by
  induction n generalizing l with
  | zero => cases h
  | succ n ih =>
    cases l with
    | nil => cases h
    | cons b l =>
      rw [skipAll] at h
      split at h
      · obtain ⟨l', hnext, h⟩ := Option.bind_eq_some_iff.mp h
        exact (ih h).trans (next_suffix hnext).1
      · cases h
        exact List.suffix_refl _

theorem isInfix_octetString (h : octetString l = some s) : s <:+: l ∧ s ≠ [] := by
  cases l with
  | nil => cases h
  | cons b l =>
    rw [octetString] at h
    split at h
    · obtain ⟨hcontents, hne⟩ := Option.filter_eq_some_iff.mp h
      exact ⟨(isInfix_contents hcontents).trans (List.suffix_cons b l).isInfix, by simpa using hne⟩
    · cases h

theorem isInfix_readPkcs7 (h : readPkcs7 l = some s) : s <:+: l ∧ s ≠ [] := by
  obtain ⟨l₁, h₁, h⟩ := Option.bind_eq_some_iff.mp h
  obtain ⟨l₂, h₂, h⟩ := Option.bind_eq_some_iff.mp h
  obtain ⟨l₃, h₃, h⟩ := Option.bind_eq_some_iff.mp h
  obtain ⟨l₄, h₄, h⟩ := Option.bind_eq_some_iff.mp h
  obtain ⟨l₅, h₅, h⟩ := Option.bind_eq_some_iff.mp h
  obtain ⟨l₆, h₆, h⟩ := Option.bind_eq_some_iff.mp h
  obtain ⟨l₇, h₇, h⟩ := Option.bind_eq_some_iff.mp h
  obtain ⟨l₈, h₈, h⟩ := Option.bind_eq_some_iff.mp h
  obtain ⟨l₉, h₉, h⟩ := Option.bind_eq_some_iff.mp h
  have hinside : l₉ <:+: l :=
    (skip_suffix h₉).isInfix.trans <| (isInfix_element h₈).trans <| (isInfix_element h₇).trans <|
      (skipAll_suffix h₆).isInfix.trans <| (skip_suffix h₅).isInfix.trans <|
      (isInfix_element h₄).trans <|
        (isInfix_element h₃).trans <| (next_suffix h₂).1.isInfix.trans (isInfix_element h₁)
  exact ⟨(isInfix_octetString h).1.trans hinside, (isInfix_octetString h).2⟩

end Der

/-! ## The loop of `asn1_constructed_skip_all` -/

namespace Asn1Context

section
variable (mem : Memory UInt8)

/-- The body of the loop, with the inner `none` for `return false`. -/
def skipRound (c : Asn1Context) : Option (Option Asn1Context) :=
  match skipBytes 1 c with
  | none => some none
  | some c => do
    match ← decodeLength mem c with
    | none => return none
    | some (length, c) => return skipBytes length c

/-- The executions of the loop that end, and what the function then returns. -/
inductive SkipLoop : Asn1Context → Option Asn1Context → Prop
  | atEnd (h : peekByte mem c = some none) : SkipLoop c none
  | other (h : peekByte mem c = some (some b)) (hb : b &&& kMaskConstructed ≠ kTagConstructed) :
    SkipLoop c (some c)
  | fail (h : peekByte mem c = some (some b)) (hb : b &&& kMaskConstructed = kTagConstructed)
    (hround : skipRound mem c = some none) : SkipLoop c none
  | again (h : peekByte mem c = some (some b)) (hb : b &&& kMaskConstructed = kTagConstructed)
    (hround : skipRound mem c = some (some c')) (hloop : SkipLoop c' r) : SkipLoop c r

end

variable {mem : Memory UInt8} {c : Asn1Context} {l : List UInt8}

theorem skipRound_decodes (h : Shows mem c (b :: l)) :
    Decodes mem (skipRound mem c) (Der.next (b :: l)) := by
  obtain ⟨c₁, hc₁, h₁⟩ := skipBytes_some h (Nat.succ_le_succ (Nat.zero_le _) : 1 ≤ (b :: l).length)
  rcases decodeLength_decodes h₁ with ⟨e, e'⟩ | ⟨n, c₂, l', e, e', h₂⟩
  · have hlength : Der.length l = none := e'
    exact ⟨none, by simp [skipRound, hc₁, e], by simp [Der.next, hlength]⟩
  · have hlength : Der.length l = some (n, l') := e'
    refine ⟨skipBytes n c₂, by simp [skipRound, hc₁, e], ?_⟩
    simpa [Der.next, hlength] using skipBytes_decodeLength h₂

theorem skipConstructed_succ (fuel : Nat) (hpeek : peekByte mem c = some (some b))
    (hb : b &&& kMaskConstructed = kTagConstructed) (hround : skipRound mem c = some o) :
    skipConstructed mem (fuel + 1) c = o.elim (some none) (skipConstructed mem fuel) := by
  rw [skipConstructed, hpeek]
  simp only [Option.bind_eq_bind, Option.bind_some, hb, ne_eq, not_true, if_false]
  unfold skipRound at hround
  cases hskip : skipBytes 1 c with
  | none =>
    rw [hskip] at hround
    cases hround
    rfl
  | some c₁ =>
    rw [hskip] at hround
    obtain ⟨d, hd, hround⟩ := Option.bind_eq_some_iff.mp hround
    simp only [hd, Option.bind_some]
    cases d with
    | none =>
      cases hround
      rfl
    | some d =>
      cases hround
      dsimp only
      cases skipBytes d.1 d.2 <;> rfl

theorem skipConstructed_terminates {fuel : Nat} (h : Shows mem c l) (hfuel : l.length < fuel) :
    ∃ r, skipConstructed mem fuel c = some r ∧ SkipLoop mem c r := by
  induction fuel generalizing c l with
  | zero => omega
  | succ fuel ih =>
    cases l with
    | nil =>
      have hpeek : peekByte mem c = some none := by simp [peekByte, h.length]
      exact ⟨none, by simp [skipConstructed, hpeek], .atEnd hpeek⟩
    | cons b l =>
      have hpeek : peekByte mem c = some (some b) := by simp [peekByte, h.length, h.holds.head]
      rcases Decidable.em (b &&& kMaskConstructed = kTagConstructed) with hb | hb
      · rcases (skipRound_decodes h).elim with ⟨hround, -⟩ | ⟨c', l', hround, hnext, h'⟩
        · exact ⟨none, skipConstructed_succ fuel hpeek hb hround, .fail hpeek hb hround⟩
        · have hlt := (Der.next_suffix hnext).2
          obtain ⟨r, hr, hloop⟩ := ih h' (by omega)
          refine ⟨r, ?_, .again hpeek hb hround hloop⟩
          rw [skipConstructed_succ fuel hpeek hb hround]
          exact hr
      · exact ⟨some c, by simp [skipConstructed, hpeek, hb], .other hpeek hb⟩

end Asn1Context

/-! ## `read_pkcs7` -/

open Asn1Context in
/-- From the encoding of a `SignedData` value `read_pkcs7` takes the signature of the first signer.
Whatever the bytes are, it reads no others, its one unbounded loop ends, and a signature is a
non-empty part of them. `verify_file` passes less than 2^16 bytes. -/
theorem readPkcs7_extracts :
    (∀ (v : Der.ContentInfo) (mem : Memory UInt8) (p : Nat), v.encode.length < 2 ^ 56 →
      mem.Holds p v.encode →
        readPkcs7 mem p v.encode.length = some (some v.content.signer.signatureValue)) ∧
    (∀ l : List UInt8, ∃ r, (∀ (mem : Memory UInt8) (p : Nat), mem.Holds p l →
        readPkcs7 mem p l.length = some r) ∧ ∀ s ∈ r, s <:+: l ∧ s ≠ []) ∧
    ∀ (mem : Memory UInt8) (c : Asn1Context) (l : List UInt8), Shows mem c l →
      ∃ r, asn1ConstructedSkipAll mem c = some r ∧ SkipLoop mem c r := by
  refine ⟨fun v mem p hlen h => ?_, fun l => ?_, fun mem c l h => ?_⟩
  · rw [readPkcs7_eq h, Der.readPkcs7_encode hlen]
  · exact ⟨Der.readPkcs7 l, fun mem p h => readPkcs7_eq h, fun s hs => Der.isInfix_readPkcs7 hs⟩
  · exact skipConstructed_terminates h (by rw [h.length]; omega)

/-- A value with a certificate and one signer. -/
def sampleContentInfo : Der.ContentInfo where
  contentType := [0x2a, 0x86, 0x48]
  content := {
    version := [1]
    digestAlgorithms := []
    encapContentInfo := []
    certificates := some [0x30, 0x00]
    revocations := none
    signer := {
      version := [1]
      signerIdentifier := []
      digestAlgorithm := []
      signatureAlgorithm := []
      signatureValue := [7, 8]
      further := []
      signatureValue_ne_nil := by decide }
    signers := [] }

theorem readPkcs7_extracts_sample :
    readPkcs7 (Memory.ofList sampleContentInfo.encode) 0 sampleContentInfo.encode.length =
      some (some [7, 8]) :=
  readPkcs7_extracts.1 sampleContentInfo _ 0 (by decide +kernel) (Memory.holds_ofList _)

end BootableRecovery
