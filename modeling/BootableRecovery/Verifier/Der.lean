import BootableRecovery.Verifier.Asn1Decoder

/-!
# The decoder on byte strings

What `asn1_decoder.cpp` computes, as functions on byte strings: a context is the string of the bytes
it still has before it. `readPkcs7_eq` shows that `read_pkcs7`, run on addresses, never leaves the
`len` bytes it was given and returns what `Der.readPkcs7` returns on them.
-/

namespace BootableRecovery

namespace Der
open Asn1Context

/-- The big-endian number in the next `n` octets, and the rest. -/
def octets : Nat → Nat → List UInt8 → Option (Nat × List UInt8)
  | 0, length, l => some (length, l)
  | _ + 1, _, [] => none
  | n + 1, length, b :: l => octets n ((length * 256 + b.toNat) % 2 ^ 64) l

/-- A length field, and the rest. -/
def length : List UInt8 → Option (Nat × List UInt8)
  | [] => none
  | b :: l =>
    if b &&& 0x80 = 0x00 then some (b.toNat, l)
    else if sizeofSizeT ≤ (b &&& kMaskTag).toNat then none
    else octets (b &&& kMaskTag).toNat 0 l

/-- The contents that follow a tag: a length field and that many bytes. -/
def contents (l : List UInt8) : Option (List UInt8) := do
  let (n, l) ← length l
  if l.length < n then none else some (l.take n)

/-- The contents of an element whose tag is accepted by `tag`. -/
def element (tag : UInt8 → Bool) : List UInt8 → Option (List UInt8)
  | [] => none
  | b :: l => if tag b then contents l else none

def isSequence (b : UInt8) : Bool := b &&& kMaskTag = kTagSequence
def isSet (b : UInt8) : Bool := b &&& kMaskTag = kTagSet
def isConstructed (b : UInt8) : Bool := b &&& kMaskConstructed = kTagConstructed

/-- What follows the first element. -/
def next : List UInt8 → Option (List UInt8)
  | [] => none
  | _ :: l => do
    let (n, l) ← length l
    if l.length < n then none else some (l.drop n)

/-- What follows the first `n` elements. -/
def skip : Nat → List UInt8 → Option (List UInt8)
  | 0, l => some l
  | n + 1, l => next l >>= skip n

/-- What follows the constructed elements at the front; there must be something left. -/
def skipAll : Nat → List UInt8 → Option (List UInt8)
  | 0, _ => none
  | _ + 1, [] => none
  | fuel + 1, b :: l => if isConstructed b then next (b :: l) >>= skipAll fuel else some (b :: l)

/-- The contents of a non-empty octet string. -/
def octetString : List UInt8 → Option (List UInt8)
  | [] => none
  | b :: l => if b = kTagOctetString then (contents l).filter (· ≠ []) else none

/-- The signature octets of a PKCS#7 `SignedData` value. -/
def readPkcs7 (l : List UInt8) : Option (List UInt8) := do
  let pkcs7Seq ← element isSequence l
  let pkcs7Seq ← next pkcs7Seq
  let signedDataApp ← element isConstructed pkcs7Seq
  let signedDataSeq ← element isSequence signedDataApp
  let signedDataSeq ← skip 3 signedDataSeq
  let signedDataSeq ← skipAll (signedDataSeq.length + 1) signedDataSeq
  let sigSet ← element isSet signedDataSeq
  let sigSeq ← element isSequence sigSet
  let sigSeq ← skip 4 sigSeq
  octetString sigSeq

end Der

/-! ## Contexts and the bytes before them -/

/-- The context `c` has exactly the bytes `l` before it. -/
structure Shows (mem : Memory UInt8) (c : Asn1Context) (l : List UInt8) : Prop where
  holds : mem.Holds c.p l
  length : c.length = l.length

/-- A decoder step stays inside the memory, and fails or gives a context as the function on byte
strings does. -/
def Decodes (mem : Memory UInt8) (r : Option (Option Asn1Context)) (l : Option (List UInt8)) :
    Prop :=
  ∃ o, r = some o ∧ Option.Rel (Shows mem) o l

namespace Asn1Context

variable {mem : Memory UInt8} {c : Asn1Context} {l : List UInt8}

theorem getByte_nil (h : Shows mem c []) : getByte mem c = some (none, c) := by
  simp [getByte, h.length]

theorem getByte_cons {b : UInt8} (h : Shows mem c (b :: l)) :
    ∃ c', getByte mem c = some (some b, c') ∧ Shows mem c' l := by
  refine ⟨{ c with p := c.p + 1, length := c.length - 1 }, ?_, h.holds.tail, ?_⟩
  · simp [getByte, h.length, h.holds.head]
  · simp [h.length]

theorem skipBytes_some (h : Shows mem c l) (hn : n ≤ l.length) :
    ∃ c', skipBytes n c = some c' ∧ Shows mem c' (l.drop n) := by
  have : ¬c.length < n := by rw [h.length]; omega
  refine ⟨{ c with p := c.p + n, length := c.length - n }, ?_, h.holds.drop n, ?_⟩
  · simp [skipBytes, this]
  · simp [h.length]

theorem skipBytes_none (h : Shows mem c l) (hn : l.length < n) : skipBytes n c = none := by
  simp [skipBytes, h.length, hn]

/-- The result of a length decoder against the one on byte strings. -/
def DecodesLength (mem : Memory UInt8) (r : Option (Option (Nat × Asn1Context)))
    (l : Option (Nat × List UInt8)) : Prop :=
  (r = some none ∧ l = none) ∨
    ∃ n c' l', r = some (some (n, c')) ∧ l = some (n, l') ∧ Shows mem c' l'

theorem decodeOctets_decodes (n length : Nat) (h : Shows mem c l) :
    DecodesLength mem (decodeOctets mem n length c) (Der.octets n length l) := by
  induction n generalizing length c l with
  | zero => exact .inr ⟨length, c, l, rfl, rfl, h⟩
  | succ n ih =>
    cases l with
    | nil => exact .inl ⟨by simp [decodeOctets, getByte_nil h], rfl⟩
    | cons b l =>
      obtain ⟨c', hc, h'⟩ := getByte_cons h
      simpa [decodeOctets, hc, Der.octets] using ih _ h'

theorem decodeLength_decodes (h : Shows mem c l) :
    DecodesLength mem (decodeLength mem c) (Der.length l) := by
  cases l with
  | nil => exact .inl ⟨by simp [decodeLength, getByte_nil h], rfl⟩
  | cons b l =>
    obtain ⟨c', hc, h'⟩ := getByte_cons h
    simp only [decodeLength, hc, Der.length, Option.bind_eq_bind, Option.bind_some]
    split
    · exact .inr ⟨b.toNat, c', l, rfl, rfl, h'⟩
    · split
      · exact .inl ⟨rfl, rfl⟩
      · exact decodeOctets_decodes _ _ h'

theorem openContents_decodes (appType : UInt8) (h : Shows mem c l) :
    Decodes mem (openContents mem appType c) (Der.contents l) := by
  rcases decodeLength_decodes h with ⟨h1, h2⟩ | ⟨n, c', l', h1, h2, h'⟩
  · exact ⟨none, by simp [openContents, h1], by simp [Der.contents, h2]⟩
  · by_cases hn : l'.length < n
    · exact ⟨none, by simp [openContents, h1, h'.length, hn], by simp [Der.contents, h2, hn]⟩
    · refine ⟨some { p := c'.p, length := n, appType }, ?_, ?_⟩
      · simp [openContents, h1, h'.length, hn]
      · simp only [Der.contents, h2, Option.bind_eq_bind, Option.bind_some, hn, if_false]
        exact .some ⟨h'.holds.take n, by simp; omega⟩

theorem asn1ConstructedGet_decodes (h : Shows mem c l) :
    Decodes mem (asn1ConstructedGet mem c) (Der.element Der.isConstructed l) := by
  cases l with
  | nil => exact ⟨none, by simp [asn1ConstructedGet, getByte_nil h], .none⟩
  | cons b l =>
    obtain ⟨c', hc, h'⟩ := getByte_cons h
    by_cases hb : b &&& kMaskConstructed = kTagConstructed
    · simpa [asn1ConstructedGet, hc, Der.element, Der.isConstructed, hb] using
        openContents_decodes _ h'
    · exact ⟨none, by simp [asn1ConstructedGet, hc, hb], by
        simp [Der.element, Der.isConstructed, hb]⟩

theorem asn1SequenceGet_decodes (h : Shows mem c l) :
    Decodes mem (asn1SequenceGet mem c) (Der.element Der.isSequence l) := by
  cases l with
  | nil =>
    have : maskTag none ≠ kTagSequence := by decide
    exact ⟨none, by simp [asn1SequenceGet, getByte_nil h, this], .none⟩
  | cons b l =>
    obtain ⟨c', hc, h'⟩ := getByte_cons h
    by_cases hb : b &&& kMaskTag = kTagSequence
    · simpa [asn1SequenceGet, hc, maskTag, Der.element, Der.isSequence, hb] using
        openContents_decodes 0 h'
    · exact ⟨none, by simp [asn1SequenceGet, hc, maskTag, hb], by
        simp [Der.element, Der.isSequence, hb]⟩

theorem asn1SetGet_decodes (h : Shows mem c l) :
    Decodes mem (asn1SetGet mem c) (Der.element Der.isSet l) := by
  cases l with
  | nil =>
    have : maskTag none ≠ kTagSet := by decide
    exact ⟨none, by simp [asn1SetGet, getByte_nil h, this], .none⟩
  | cons b l =>
    obtain ⟨c', hc, h'⟩ := getByte_cons h
    by_cases hb : b &&& kMaskTag = kTagSet
    · simpa [asn1SetGet, hc, maskTag, Der.element, Der.isSet, hb] using openContents_decodes 0 h'
    · exact ⟨none, by simp [asn1SetGet, hc, maskTag, hb], by simp [Der.element, Der.isSet, hb]⟩

theorem skipBytes_decodeLength {l' : List UInt8} (h : Shows mem c l') :
    Option.Rel (Shows mem) (skipBytes n c)
      (if l'.length < n then none else some (l'.drop n)) := by
  split
  · rw [skipBytes_none h ‹_›]
    exact .none
  · obtain ⟨c', hc, h'⟩ := skipBytes_some h (Nat.le_of_not_lt ‹_›)
    rw [hc]
    exact .some h'

theorem asn1SequenceNext_decodes (h : Shows mem c l) :
    Decodes mem (asn1SequenceNext mem c) (Der.next l) := by
  cases l with
  | nil => exact ⟨none, by simp [asn1SequenceNext, getByte_nil h], .none⟩
  | cons b l =>
    obtain ⟨c', hc, h'⟩ := getByte_cons h
    rcases decodeLength_decodes h' with ⟨h1, h2⟩ | ⟨n, c'', l', h1, h2, h''⟩
    · exact ⟨none, by simp [asn1SequenceNext, hc, h1], by simp [Der.next, h2]⟩
    · refine ⟨skipBytes n c'', by simp [asn1SequenceNext, hc, h1], ?_⟩
      simpa [Der.next, h2] using skipBytes_decodeLength h''

theorem asn1SequenceSkip_decodes (n : Nat) (h : Shows mem c l) :
    Decodes mem (asn1SequenceSkip mem n c) (Der.skip n l) := by
  induction n generalizing c l with
  | zero => exact ⟨some c, rfl, .some h⟩
  | succ n ih =>
    obtain ⟨o, ho, hrel⟩ := asn1SequenceNext_decodes h
    cases hn : Der.next l with
    | none =>
      rw [hn] at hrel
      cases hrel
      exact ⟨none, by simp [asn1SequenceSkip, ho], by simp [Der.skip, hn]⟩
    | some l' =>
      rw [hn] at hrel
      cases hrel with
      | some h' => simpa [asn1SequenceSkip, ho, Der.skip, hn] using ih h'

theorem skipConstructed_decodes (fuel : Nat) (h : Shows mem c l) :
    Decodes mem (skipConstructed mem fuel c) (Der.skipAll fuel l) := by
  induction fuel generalizing c l with
  | zero => exact ⟨none, rfl, .none⟩
  | succ fuel ih =>
    cases l with
    | nil => exact ⟨none, by simp [skipConstructed, peekByte, h.length], .none⟩
    | cons b l =>
      have hpeek : peekByte mem c = some (some b) := by simp [peekByte, h.length, h.holds.head]
      by_cases hb : b &&& kMaskConstructed = kTagConstructed
      · obtain ⟨c₁, hc₁, h₁⟩ := skipBytes_some h (n := 1) (by simp)
        rcases decodeLength_decodes h₁ with ⟨e1, e2⟩ | ⟨n, c₂, l', e1, e2, h₂⟩
        · exact ⟨none, by simp [skipConstructed, hpeek, hb, hc₁, e1], by
            simp_all [Der.skipAll, Der.isConstructed, Der.next]⟩
        · by_cases hn : l'.length < n
          · exact ⟨none, by simp [skipConstructed, hpeek, hb, hc₁, e1, skipBytes_none h₂ hn], by
              simp_all [Der.skipAll, Der.isConstructed, Der.next]⟩
          · obtain ⟨c₃, hc₃, h₃⟩ := skipBytes_some h₂ (Nat.le_of_not_lt hn)
            have hd : Der.length l = some (n, l') := by simpa using e2
            simpa [skipConstructed, hpeek, hb, hc₁, e1, hc₃, Der.skipAll, Der.isConstructed,
              Der.next, hd, hn] using ih h₃
      · exact ⟨some c, by simp [skipConstructed, hpeek, hb], by
          simpa [Der.skipAll, Der.isConstructed, hb] using Option.Rel.some h⟩

theorem asn1ConstructedSkipAll_decodes (h : Shows mem c l) :
    Decodes mem (asn1ConstructedSkipAll mem c) (Der.skipAll (l.length + 1) l) := by
  simpa [asn1ConstructedSkipAll, h.length] using skipConstructed_decodes (l.length + 1) h

/-- The octet string that `asn1_octet_string_get` points to can be read and is the one that
`Der.octetString` finds. -/
theorem asn1OctetStringGet_decodes (h : Shows mem c l) :
    (asn1OctetStringGet mem c = some none ∧ Der.octetString l = none) ∨
      ∃ p n s, asn1OctetStringGet mem c = some (some (p, n)) ∧ mem.read p n = some s ∧
        Der.octetString l = some s := by
  cases l with
  | nil => exact .inl ⟨by simp [asn1OctetStringGet, getByte_nil h], rfl⟩
  | cons b l =>
    obtain ⟨c', hc, h'⟩ := getByte_cons h
    by_cases hb : b = kTagOctetString
    · rcases decodeLength_decodes h' with ⟨e1, e2⟩ | ⟨n, c₂, l', e1, e2, h₂⟩
      · exact .inl ⟨by simp [asn1OctetStringGet, hc, hb, e1], by
          simp [Der.octetString, hb, Der.contents, e2]⟩
      · by_cases hn : n = 0 ∨ l'.length < n
        · refine .inl ⟨by simp [asn1OctetStringGet, hc, hb, e1, h₂.length, hn], ?_⟩
          rcases hn with rfl | hn
          · simp [Der.octetString, hb, Der.contents, e2]
          · simp [Der.octetString, hb, Der.contents, e2, hn]
        · refine .inr ⟨c₂.p, n, l'.take n, by simp [asn1OctetStringGet, hc, hb, e1, h₂.length, hn],
            h₂.holds.read_take (by omega), ?_⟩
          have hlt : ¬l'.length < n := by omega
          have hne : l'.take n ≠ [] := by
            intro h0
            have := congrArg List.length h0
            simp only [List.length_take, List.length_nil] at this
            omega
          simp [Der.octetString, hb, Der.contents, e2, hlt, hne]
    · exact .inl ⟨by simp [asn1OctetStringGet, hc, hb], by simp [Der.octetString, hb]⟩

end Asn1Context

/-! ## `read_pkcs7` -/

/-- A decoder step either fails on both sides or gives a context that shows the rest. -/
theorem Decodes.elim {mem : Memory UInt8} {r : Option (Option Asn1Context)}
    {l : Option (List UInt8)} (h : Decodes mem r l) :
    (r = some none ∧ l = none) ∨ ∃ c l', r = some (some c) ∧ l = some l' ∧ Shows mem c l' := by
  obtain ⟨o, rfl, hrel⟩ := h
  cases hrel with
  | some hs => exact .inr ⟨_, _, rfl, rfl, hs⟩
  | none => exact .inl ⟨rfl, rfl⟩

open Asn1Context in
/-- `read_pkcs7` reads only the `l.length` bytes it was given, and its result is the one on the byte
string. -/
theorem readPkcs7_eq {mem : Memory UInt8} {p : Nat} (h : mem.Holds p l) :
    readPkcs7 mem p l.length = some (Der.readPkcs7 l) := by
  have hs : Shows mem { p, length := l.length } l := ⟨h, rfl⟩
  unfold readPkcs7 Der.readPkcs7
  -- each step either ends both sides or leaves both at the next one
  rcases (asn1SequenceGet_decodes hs).elim with ⟨e, e'⟩ | ⟨c₁, l₁, e, e', h₁⟩ <;>
    simp only [e, e', Option.bind_eq_bind, Option.bind_some, Option.bind_none] <;> try rfl
  rcases (asn1SequenceNext_decodes h₁).elim with ⟨e, e'⟩ | ⟨c₂, l₂, e, e', h₂⟩ <;>
    simp only [e, e', Option.bind_some, Option.bind_none] <;> try rfl
  rcases (asn1ConstructedGet_decodes h₂).elim with ⟨e, e'⟩ | ⟨c₃, l₃, e, e', h₃⟩ <;>
    simp only [e, e', Option.bind_some, Option.bind_none] <;> try rfl
  rcases (asn1SequenceGet_decodes h₃).elim with ⟨e, e'⟩ | ⟨c₄, l₄, e, e', h₄⟩ <;>
    simp only [e, e', Option.bind_some, Option.bind_none] <;> try rfl
  rcases (asn1SequenceSkip_decodes 3 h₄).elim with ⟨e, e'⟩ | ⟨c₅, l₅, e, e', h₅⟩ <;>
    simp only [e, e', Option.bind_some, Option.bind_none] <;> try rfl
  rcases (asn1ConstructedSkipAll_decodes h₅).elim with ⟨e, e'⟩ | ⟨c₆, l₆, e, e', h₆⟩ <;>
    simp only [e, e', Option.bind_some, Option.bind_none] <;> try rfl
  rcases (asn1SetGet_decodes h₆).elim with ⟨e, e'⟩ | ⟨c₇, l₇, e, e', h₇⟩ <;>
    simp only [e, e', Option.bind_some, Option.bind_none] <;> try rfl
  rcases (asn1SequenceGet_decodes h₇).elim with ⟨e, e'⟩ | ⟨c₈, l₈, e, e', h₈⟩ <;>
    simp only [e, e', Option.bind_some, Option.bind_none] <;> try rfl
  rcases (asn1SequenceSkip_decodes 4 h₈).elim with ⟨e, e'⟩ | ⟨c₉, l₉, e, e', h₉⟩ <;>
    simp only [e, e', Option.bind_some, Option.bind_none] <;> try rfl
  rcases asn1OctetStringGet_decodes h₉ with ⟨e, e'⟩ | ⟨q, n, s, e, hread, e'⟩
  · simp only [e, e', Option.bind_some]; rfl
  · simp only [e, e', hread, Option.bind_some]; rfl

end BootableRecovery
