import BootableRecovery.Verifier.Asn1Decoder

/-!
# `verify_file`

The whole-file signature check of `verifier.cpp`. The hash functions and the two signature checks
come from the crypto library and are parameters; `HashApi.chunked` is the one law that is used of
them: feeding a message piece by piece gives the digest of the whole message. The progress callback
has no influence on the result and is left out.
-/

namespace BootableRecovery

/-- A hash function with its incremental interface (`SHA1_Init`, `SHA1_Update`, `SHA1_Final`). -/
structure HashApi where
  Ctx : Type
  init : Ctx
  update : Ctx → List UInt8 → Ctx
  final : Ctx → List UInt8
  /-- The digest of a message. -/
  digest : List UInt8 → List UInt8
  chunked : ∀ pieces : List (List UInt8), final (pieces.foldl update init) = digest pieces.flatten

/-- `Certificate::KeyType`. -/
inductive KeyType where
  | rsa
  | ec
  deriving DecidableEq

/-- `NID_sha1` and `NID_sha256`, as `RSA_verify` takes them. -/
inductive HashNid where
  | sha1
  | sha256
  deriving DecidableEq

/-- What `verify_file` takes from the crypto library. -/
structure Crypto where
  RSA : Type
  EC : Type
  sha1 : HashApi
  sha256 : HashApi
  rsaVerify : HashNid → List UInt8 → List UInt8 → RSA → Bool
  ecdsaVerify : List UInt8 → List UInt8 → EC → Bool

/-- `struct Certificate`. -/
structure Certificate (crypto : Crypto) where
  hashLen : Nat
  keyType : KeyType
  rsa : crypto.RSA
  ec : crypto.EC

def SHA_DIGEST_LENGTH : Nat := 20
def SHA256_DIGEST_LENGTH : Nat := 32

def FOOTER_SIZE : Nat := 6
def EOCD_HEADER_SIZE : Nat := 22

def VERIFY_SUCCESS : Nat := 0
def VERIFY_FAILURE : Nat := 1

def MiB : Nat := 1024 * 1024

variable {crypto : Crypto}

/-- A comparison `mem[p] == b && …` of the bytes from `p` on, which stops at the first
difference. -/
def bytesEqual (mem : Memory UInt8) (p : Nat) : List UInt8 → Option Bool
  | [] => some true
  | b :: bs => do
    let x ← mem p
    if x = b then bytesEqual mem (p + 1) bs else return false

/-- The magic number of the end-of-central-directory record. -/
def eocdMarker : List UInt8 := [0x50, 0x4b, 0x05, 0x06]

/-- The loop that looks for a second marker: does one stand at one of the `n` addresses from `p`
on? -/
def findMarker (mem : Memory UInt8) (p : Nat) : Nat → Option Bool
  | 0 => some false
  | n + 1 => do
    if ← bytesEqual mem p eocdMarker then
      return true
    findMarker mem (p + 1) n

/-- The loop that hashes `[soFar, signedLen)` in pieces of at most 16 MiB. A round hashes at least
one byte, so `signedLen` rounds are enough. -/
def hashLoop (mem : Memory UInt8) (signedLen : Nat) (needSha1 needSha256 : Bool) :
    Nat → Nat → crypto.sha1.Ctx → crypto.sha256.Ctx → Option (crypto.sha1.Ctx × crypto.sha256.Ctx)
  | 0, _, sha1Ctx, sha256Ctx => some (sha1Ctx, sha256Ctx)
  | fuel + 1, soFar, sha1Ctx, sha256Ctx =>
    if soFar < signedLen then do
      let size := min (signedLen - soFar) (16 * MiB)
      let piece ← mem.read soFar size
      hashLoop mem signedLen needSha1 needSha256 fuel (soFar + size)
        (if needSha1 then crypto.sha1.update sha1Ctx piece else sha1Ctx)
        (if needSha256 then crypto.sha256.update sha256Ctx piece else sha256Ctx)
    else some (sha1Ctx, sha256Ctx)

/-- One round of the loop over the keys: does `key` accept the signature? -/
def keyMatches (sha1 sha256 sigDer : List UInt8) (key : Certificate crypto) : Bool :=
  if key.hashLen = SHA_DIGEST_LENGTH ∨ key.hashLen = SHA256_DIGEST_LENGTH then
    let hash := if key.hashLen = SHA_DIGEST_LENGTH then sha1 else sha256
    let hashNid := if key.hashLen = SHA_DIGEST_LENGTH then HashNid.sha1 else HashNid.sha256
    match key.keyType with
    | .rsa => crypto.rsaVerify hashNid hash sigDer key.rsa
    | .ec => key.hashLen = SHA256_DIGEST_LENGTH && crypto.ecdsaVerify hash sigDer key.ec
  else false

/-- `verify_file` on the `length` bytes at address 0, with `none` if a byte outside the memory is
read. -/
def verifyFile (mem : Memory UInt8) (length : Nat) (keys : List (Certificate crypto)) :
    Option Nat := do
  if length < FOOTER_SIZE then
    return VERIFY_FAILURE
  let footer := length - FOOTER_SIZE
  if !(← bytesEqual mem (footer + 2) [0xff, 0xff]) then
    return VERIFY_FAILURE
  let commentSize := (← mem (footer + 4)).toNat + (← mem (footer + 5)).toNat * 2 ^ 8
  let signatureStart := (← mem footer).toNat + (← mem (footer + 1)).toNat * 2 ^ 8
  if signatureStart > commentSize then
    return VERIFY_FAILURE
  if signatureStart ≤ FOOTER_SIZE then
    return VERIFY_FAILURE
  let eocdSize := commentSize + EOCD_HEADER_SIZE
  if length < eocdSize then
    return VERIFY_FAILURE
  let signedLen := length - eocdSize + EOCD_HEADER_SIZE - 2
  let eocd := length - eocdSize
  if !(← bytesEqual mem eocd eocdMarker) then
    return VERIFY_FAILURE
  if ← findMarker mem (eocd + 4) (eocdSize - 3 - 4) then
    return VERIFY_FAILURE
  let needSha1 := keys.any (·.hashLen = SHA_DIGEST_LENGTH)
  let needSha256 := keys.any (·.hashLen = SHA256_DIGEST_LENGTH)
  let (sha1Ctx, sha256Ctx) ← hashLoop mem signedLen needSha1 needSha256 signedLen 0
    crypto.sha1.init crypto.sha256.init
  let sha1 := crypto.sha1.final sha1Ctx
  let sha256 := crypto.sha256.final sha256Ctx
  let signature := eocd + eocdSize - signatureStart
  let signatureSize := signatureStart - FOOTER_SIZE
  match ← readPkcs7 mem signature signatureSize with
  | none => return VERIFY_FAILURE
  | some sigDer =>
    return if keys.any (keyMatches sha1 sha256 sigDer) then VERIFY_SUCCESS else VERIFY_FAILURE

end BootableRecovery
