import Mathlib.Algebra.Order.Ring.Nat
import BootableRecovery.Theory.Memory

/-!
# `asn1_decoder.cpp` and `read_pkcs7`

The decoder walks a buffer with a pointer and a remaining length. Every function here returns in
`Option`, where `none` means that a byte outside the memory was read; the results of the source
(`false`, `nullptr`, `-1`) are inside.
-/

namespace BootableRecovery

/-- `class asn1_context`: the pointer, the bytes left from it on, and the constructed type. -/
structure Asn1Context where
  p : Nat
  length : Nat
  appType : UInt8 := 0

namespace Asn1Context

def kMaskConstructed : UInt8 := 0xE0
def kMaskTag : UInt8 := 0x7F
def kMaskAppType : UInt8 := 0x1F
def kTagOctetString : UInt8 := 0x04
def kTagSequence : UInt8 := 0x30
def kTagSet : UInt8 := 0x31
def kTagConstructed : UInt8 := 0xA0

/-- `sizeof(size_t)` of the target. -/
def sizeofSizeT : Nat := 8

/-- `byte & kMaskTag`. The value `-1` that `get_byte` returns at the end of the buffer has all bits
set, so it is masked to `kMaskTag` itself. -/
def maskTag : Option UInt8 → UInt8
  | none => kMaskTag
  | some b => b &&& kMaskTag

variable (mem : Memory UInt8)

/-- `peek_byte`; the inner `none` is the source's `-1`. -/
def peekByte (c : Asn1Context) : Option (Option UInt8) :=
  if c.length = 0 then some none else (mem c.p).map some

/-- `get_byte`; the inner `none` is the source's `-1`. -/
def getByte (c : Asn1Context) : Option (Option UInt8 × Asn1Context) :=
  if c.length = 0 then some (none, c)
  else (mem c.p).map fun b => (some b, { c with p := c.p + 1, length := c.length - 1 })

/-- `skip_bytes`, with `none` for `false`. -/
def skipBytes (numSkip : Nat) (c : Asn1Context) : Option Asn1Context :=
  if c.length < numSkip then none
  else some { c with p := c.p + numSkip, length := c.length - numSkip }

/-- The loop of `decode_length` that collects the remaining `n` octets. -/
def decodeOctets : Nat → Nat → Asn1Context → Option (Option (Nat × Asn1Context))
  | 0, length, c => some (some (length, c))
  | n + 1, length, c => do
    let (byte, c) ← getByte mem c
    match byte with
    | none => return none
    | some b => decodeOctets n ((length * 256 + b.toNat) % 2 ^ 64) c

/-- `decode_length`, with the inner `none` for `false`. -/
def decodeLength (c : Asn1Context) : Option (Option (Nat × Asn1Context)) := do
  let (numOctets, c) ← getByte mem c
  match numOctets with
  | none => return none
  | some b =>
    if b &&& 0x80 = 0x00 then
      return some (b.toNat, c)
    let n := (b &&& kMaskTag).toNat
    if sizeofSizeT ≤ n then
      return none
    decodeOctets mem n 0 c

/-- The part that `asn1_constructed_get`, `asn1_sequence_get` and `asn1_set_get` share once the tag
has been accepted: decode the length and open a context on the contents. -/
def openContents (appType : UInt8) (c : Asn1Context) : Option (Option Asn1Context) := do
  match ← decodeLength mem c with
  | none => return none
  | some (length, c) =>
    if c.length < length then
      return none
    return some { p := c.p, length, appType }

def asn1ConstructedGet (c : Asn1Context) : Option (Option Asn1Context) := do
  let (type, c) ← getByte mem c
  match type with
  | none => return none
  | some b =>
    if b &&& kMaskConstructed ≠ kTagConstructed then
      return none
    openContents mem (b &&& kMaskAppType) c

def asn1SequenceGet (c : Asn1Context) : Option (Option Asn1Context) := do
  let (type, c) ← getByte mem c
  if maskTag type ≠ kTagSequence then
    return none
  openContents mem 0 c

def asn1SetGet (c : Asn1Context) : Option (Option Asn1Context) := do
  let (type, c) ← getByte mem c
  if maskTag type ≠ kTagSet then
    return none
  openContents mem 0 c

/-- `asn1_sequence_next`, with the inner `none` for `false`. -/
def asn1SequenceNext (c : Asn1Context) : Option (Option Asn1Context) := do
  let (type, c) ← getByte mem c
  if type = none then
    return none
  match ← decodeLength mem c with
  | none => return none
  | some (length, c) => return skipBytes length c

/-- The loop of `asn1_constructed_skip_all`. Each round consumes at least the tag, so the length at
the start bounds the number of rounds. -/
def skipConstructed : Nat → Asn1Context → Option (Option Asn1Context)
  | 0, _ => some none
  | fuel + 1, c => do
    match ← peekByte mem c with
    | none => return none
    | some b =>
      if b &&& kMaskConstructed ≠ kTagConstructed then
        return some c
      match skipBytes 1 c with
      | none => return none
      | some c =>
        match ← decodeLength mem c with
        | none => return none
        | some (length, c) =>
          match skipBytes length c with
          | none => return none
          | some c => skipConstructed fuel c

/-- `asn1_constructed_skip_all`, with the inner `none` for `false`. -/
def asn1ConstructedSkipAll (c : Asn1Context) : Option (Option Asn1Context) :=
  skipConstructed mem (c.length + 1) c

/-- `asn1_octet_string_get`: the pointer and the length of the string. -/
def asn1OctetStringGet (c : Asn1Context) : Option (Option (Nat × Nat)) := do
  let (type, c) ← getByte mem c
  if type ≠ some kTagOctetString then
    return none
  match ← decodeLength mem c with
  | none => return none
  | some (length, c) =>
    if length = 0 ∨ c.length < length then
      return none
    return some (c.p, length)

/-- `n` calls of `asn1_sequence_next` in a row. -/
def asn1SequenceSkip : Nat → Asn1Context → Option (Option Asn1Context)
  | 0, c => some (some c)
  | n + 1, c => do
    match ← asn1SequenceNext mem c with
    | none => return none
    | some c => asn1SequenceSkip n c

end Asn1Context

open Asn1Context in
/-- `read_pkcs7`: the signature octets found in the `len` bytes at `p`, or the inner `none` where
the source returns `false`. -/
def readPkcs7 (mem : Memory UInt8) (p len : Nat) : Option (Option (List UInt8)) := do
  let some pkcs7Seq ← asn1SequenceGet mem { p, length := len } | return none
  let some pkcs7Seq ← asn1SequenceNext mem pkcs7Seq | return none
  let some signedDataApp ← asn1ConstructedGet mem pkcs7Seq | return none
  let some signedDataSeq ← asn1SequenceGet mem signedDataApp | return none
  let some signedDataSeq ← asn1SequenceSkip mem 3 signedDataSeq | return none
  let some signedDataSeq ← asn1ConstructedSkipAll mem signedDataSeq | return none
  let some sigSet ← asn1SetGet mem signedDataSeq | return none
  let some sigSeq ← asn1SequenceGet mem sigSet | return none
  let some sigSeq ← asn1SequenceSkip mem 4 sigSeq | return none
  let some (sigDerPtr, sigDerLength) ← asn1OctetStringGet mem sigSeq | return none
  let sigDer ← mem.read sigDerPtr sigDerLength
  return some sigDer

end BootableRecovery
