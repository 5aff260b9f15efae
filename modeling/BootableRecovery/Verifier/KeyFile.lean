import BootableRecovery.LibBase.Scanf
import BootableRecovery.Theory.LittleEndian
import Mathlib.Data.Int.GCD
import Mathlib.Data.Nat.Size

/-!
# Key files

`DumpPublicKey` prints public keys as C initializers, `load_keys` reads them: what is printed for a
list of keys is loaded as these keys. Numbers of the host (the modulus, the coordinates) are natural
numbers, and `BN_bin2bn` is the value of big-endian bytes.
-/

namespace BootableRecovery.KeyFile

/-! ## `load_keys` -/

/-- The key of a `Certificate`. -/
inductive Key
  | rsa (n e : Nat)
  | ec (x y : Nat)
  deriving DecidableEq

/-- A `Certificate` that was loaded. -/
structure LoadedKey where
  hashLen : Nat
  key : Key
  deriving DecidableEq

def SHA_DIGEST_LENGTH : Nat := 20
def SHA256_DIGEST_LENGTH : Nat := 32

def bnBin2bn (bytes : List UInt8) : Nat := leNat bytes.reverse

/-- A value that is stored in a `uint32_t`. -/
def toUint32 (v : Int) : Nat := (v % 2 ^ 32).toNat

/-- A value that is stored in an `int`. -/
def toInt32 (v : Int) : Int := (v + 2 ^ 31) % 2 ^ 32 - 2 ^ 31

/-- `fscanf`, with a failure if it does not return the number that is asked for. -/
def expect (format : String) (result : Int) (s : Text) : Option Scan :=
  if (fscanf format s).result = result then some (fscanf format s) else none

/-- The value of a conversion of `fscanf`. -/
def word (r : Scan) (i : Nat) : Nat := toUint32 (r.values.getD i 0)

/-- The loops with `fscanf(file, " , %u", …)`. -/
def readMore : Nat → Text → Option (List Nat × Text)
  | 0, s => some ([], s)
  | k + 1, s => do
    let r ← expect " , %u" 1 s
    let (ws, s) ← readMore k r.rest
    return (word r 0 :: ws, s)

def parseRsaKey (s : Text) (exponent : Nat) : Option (Key × Text) := do
  let r ← expect " %i , 0x%x" 2 s
  let keyLenWords := word r 0
  if keyLenWords > 8192 / 32 then none
  else
    let r ← expect " , \x7b %u" 1 r.rest
    let (ws, s) ← readMore (keyLenWords - 1) r.rest
    let modulus := (word r 0 :: ws).take keyLenWords
    -- the words are little-endian in memory
    let bytes := (modulus.flatMap (leBytes 4)).reverse
    let r ← expect " \x7d , \x7b %u" 1 s
    let (_, s) ← readMore (keyLenWords - 1) r.rest
    let r ← expect " \x7d \x7d " 0 s
    return (.rsa (bnBin2bn bytes) exponent, r.rest)

/-- The field and the coefficient of the curve P-256. -/
def p256 : Nat := 2 ^ 256 - 2 ^ 224 + 2 ^ 192 + 2 ^ 96 - 1
def p256b : Nat := 0x5ac635d8aa3a93e7b3ebbd55769886bc651d06b0cc53b0f63bce3c3e27d2604b

/-- The points of P-256, which are what `EC_KEY_set_public_key_affine_coordinates` accepts. -/
def OnP256 (x y : Nat) : Prop :=
  x < p256 ∧ y < p256 ∧ y * y % p256 = (x * x * x + (p256 - 3) * x + p256b) % p256

instance : Decidable (OnP256 x y) := by
  unfold OnP256
  infer_instance

/-- The bytes of the order of P-256. -/
def groupOrderBytes : Nat := 32

/-- One round of the loop over the coordinates. The first byte is the lowest one. -/
def readCoordinate (keyLenBytes : Nat) (s : Text) : Option (Nat × Text) := do
  let r ← expect " , \x7b %u" 1 s
  let (ws, s) ← readMore (keyLenBytes - 1) r.rest
  let bytes := ((word r 0 :: ws).map UInt8.ofNat).reverse
  let r ← expect " \x7d" 0 s
  return (bnBin2bn bytes, r.rest)

def parseEcKey (s : Text) : Option (Key × Text) := do
  let r ← expect " %i" 1 s
  let keyLenBytes := word r 0
  if keyLenBytes ≠ groupOrderBytes then none
  else
    let (x, s) ← readCoordinate keyLenBytes r.rest
    let (y, s) ← readCoordinate keyLenBytes s
    let r ← expect " \x7d " 0 s
    if OnP256 x y then return (.ec x y, r.rest) else none

/-- What a version says: a type of key with the exponent, and the length of the hash. -/
inductive KeyType
  | rsa (exponent : Nat)
  | ec

/-- The versions with a number. -/
def versionOf : Int → Option (KeyType × Nat)
  | 2 => some (.rsa 65537, SHA_DIGEST_LENGTH)
  | 3 => some (.rsa 3, SHA256_DIGEST_LENGTH)
  | 4 => some (.rsa 65537, SHA256_DIGEST_LENGTH)
  | 5 => some (.ec, SHA256_DIGEST_LENGTH)
  | _ => none

/-- The start of a key: its version, and the rest. -/
def readVersion (s : Text) : Option ((KeyType × Nat) × Text) := do
  let r ← expect " %c" 1 s
  if r.values.getD 0 0 = '{'.toNat then return ((.rsa 3, SHA_DIGEST_LENGTH), r.rest)
  else if r.values.getD 0 0 = 'v'.toNat then
    let r ← expect "%d \x7b" 1 r.rest
    return (← versionOf (toInt32 (r.values.getD 0 0)), r.rest)
  else return ((.rsa 0, 0), r.rest)

def parseKey (type : KeyType) (s : Text) : Option (Key × Text) :=
  match type with
  | .rsa exponent => parseRsaKey s exponent
  | .ec => parseEcKey s

/-- The loop of `load_keys`. Each round reads at least one character. -/
def loadLoop : (fuel : Nat) → Text → (certs : List LoadedKey) → Option (List LoadedKey)
  | 0, _, _ => none
  | fuel + 1, s, certs => do
    let ((type, hashLen), s) ← readVersion s
    let (key, s) ← parseKey type s
    match s with
    | ',' :: s => loadLoop fuel s (certs ++ [{ hashLen, key }])
    | [] => some (certs ++ [{ hashLen, key }])
    | _ => none

/-- `load_keys` on the text of a file: the keys, or `none` for the result `false`. -/
def loadKeys (file : Text) : Option (List LoadedKey) := loadLoop (file.length + 1) file []

/-! ## `DumpPublicKey` -/

/-- A public key. A field of 256 bits is that of P-256 or of another curve. -/
inductive PublicKey
  | rsa (modulus exponent : Nat)
  | ec (fieldSize x y : Nat)

/-- `checkRSA`: the version. -/
def checkRSA (modulus exponent : Nat) (useSHA256 : Bool) : Option Nat :=
  let version :=
    if exponent = 3 then some (if useSHA256 then 3 else 1)
    else if exponent = 65537 then some (if useSHA256 then 4 else 2)
    else none
  version.bind fun version => if modulus.size ≠ 2048 then none else some version

def checkEC (fieldSize : Nat) : Option Nat := if fieldSize ≠ 256 then none else some 5

def check (key : PublicKey) (useSHA256 : Bool) : Option Nat :=
  match key with
  | .rsa modulus exponent => checkRSA modulus exponent useSHA256
  | .ec fieldSize _ _ => if !useSHA256 then none else checkEC fieldSize

/-- `BigInteger.modInverse`, which throws if there is no inverse. -/
def modInverse (n m : Nat) : Option Nat := if n.gcd m = 1 then some (n.gcdA m % m).toNat else none

/-- The loops that take the lowest digit of a number to some base, `k` times. -/
def littleEndian (base : Nat) : (k n : Nat) → List Nat
  | 0, _ => []
  | k + 1, n => n % base :: littleEndian base k (n / base)

/-- Numbers with commas between them, in braces. -/
def printArray (ws : List Nat) : Text :=
  '{' :: ((ws.map (Nat.toDigits 10)).intersperse [',']).flatten ++ ['}']

def printRSA (modulus exponent : Nat) (useSHA256 : Bool) : Option Text := do
  let version ← check (.rsa modulus exponent) useSHA256
  let nwords := modulus.size / 32
  let b := 0x100000000
  let n0inv := b - (← modInverse modulus b)
  let r := 2 ^ modulus.size
  let rr := r * r % modulus
  return (if version > 1 then 'v' :: (Nat.toDigits 10 version ++ [' ']) else []) ++
    '{' :: (Nat.toDigits 10 nwords ++ (",0x".toList ++ (Nat.toDigits 16 n0inv ++
      ',' :: (printArray (littleEndian b nwords modulus) ++
        ',' :: (printArray (littleEndian b nwords rr) ++ ['}'])))))

def printEC (fieldSize x y : Nat) : Option Text := do
  let version ← checkEC fieldSize
  let nbytes := fieldSize / 8
  return 'v' :: (Nat.toDigits 10 version ++ ' ' :: '{' :: (Nat.toDigits 10 nbytes ++
    ',' :: (printArray (littleEndian 0x100 nbytes x) ++
      ',' :: (printArray (littleEndian 0x100 nbytes y) ++ ['}']))))

def print (key : PublicKey) (useSHA256 : Bool) : Option Text :=
  match key with
  | .rsa modulus exponent => printRSA modulus exponent useSHA256
  | .ec fieldSize x y => printEC fieldSize x y

/-- The signature algorithms of certificates that `main` tells apart. -/
inductive SigAlg
  | SHA1withRSA
  | MD5withRSA
  | SHA256withRSA
  | SHA256withECDSA
  | other
  deriving DecidableEq

def SigAlg.useSHA256 : SigAlg → Option Bool
  | .SHA1withRSA | .MD5withRSA => some false
  | .SHA256withRSA | .SHA256withECDSA => some true
  | .other => none

/-- A certificate file. -/
structure CertFile where
  sigAlg : SigAlg
  key : PublicKey

/-- What the loop of `main` prints for a certificate, up to the end of the line. -/
def printCert (cert : CertFile) : Option Text := do
  let useSHA256 ← cert.sigAlg.useSHA256
  let _ ← check cert.key useSHA256
  print cert.key useSHA256

/-- The loop of `main`. -/
def printCerts : List CertFile → Option Text
  | [] => some []
  | [cert] => do return (← printCert cert) ++ ['\n']
  | cert :: certs => do return (← printCert cert) ++ ',' :: '\n' :: (← printCerts certs)

/-- `main`: what is printed, if it ends with the exit code 0. -/
def dumpPublicKey (certs : List CertFile) : Option Text :=
  if certs = [] then none else printCerts certs

/-! ## Arrays -/

/-- What may follow a number. -/
def StopsNumber (s : Text) : Prop := ∀ c ∈ s.head?, digitValue 16 c = none

theorem StopsNumber.digitValue {s : Text} (h : StopsNumber s) (hb : b ≤ 16) :
    ∀ c ∈ s.head?, digitValue b c = none := by
  intro c hc
  have h16 := h c hc
  unfold BootableRecovery.digitValue at h16 ⊢
  dsimp only at h16 ⊢
  revert h16
  generalize (if c.isDigit = true then _ else _ : Option Nat) = v
  cases v with
  | none => simp
  | some v =>
    simp only [Option.filter_some, decide_eq_true_eq]
    split
    · simp
    · intro _
      rw [if_neg (by omega)]

theorem stopsNumber_cons {c : Char} (h : digitValue 16 c = none) (s : Text) :
    StopsNumber (c :: s) := by
  rintro _ ⟨⟩
  exact h

theorem runFormat_u {w : Nat} (hw : w < 2 ^ 32) {t : Text} (ht : StopsNumber t)
    (values : List Int) : runFormat [.space, .number .u] values (Nat.toDigits 10 w ++ t) =
    ⟨values ++ [(w : Int)], t, false⟩ := by
  rw [runFormat_space_toDigits (by decide) (by decide),
    runFormat_toDigits (by decide) (by decide) rfl (by omega) (ht.digitValue (by decide)),
    runFormat_nil]

theorem expect_of_eq {format : String} {s : Text} {r : Scan} (h : fscanf format s = r) :
    expect format r.result s = some r := by
  rw [expect, h, if_pos rfl]

theorem expect_comma {w : Nat} (hw : w < 2 ^ 32) {t : Text} (ht : StopsNumber t) :
    expect " , %u" 1 (',' :: (Nat.toDigits 10 w ++ t)) = some ⟨[(w : Int)], t, false⟩ := by
  have hformat : parseFormat " , %u".toList = [.space, .literal ',', .space, .number .u] := rfl
  refine expect_of_eq (r := ⟨[(w : Int)], t, false⟩) ?_
  rw [fscanf, hformat, runFormat_space (by decide), runFormat_literal, runFormat_u hw ht]
  rfl

theorem expect_open {w : Nat} (hw : w < 2 ^ 32) {t : Text} (ht : StopsNumber t) :
    expect " , \x7b %u" 1 (',' :: '{' :: (Nat.toDigits 10 w ++ t)) =
    some ⟨[(w : Int)], t, false⟩ := by
  have hformat : parseFormat " , \x7b %u".toList =
      [.space, .literal ',', .space, .literal '{', .space, .number .u] := rfl
  refine expect_of_eq (r := ⟨[(w : Int)], t, false⟩) ?_
  rw [fscanf, hformat, runFormat_space (by decide), runFormat_literal, runFormat_space (by decide),
    runFormat_literal, runFormat_u hw ht]
  rfl

theorem expect_next {w : Nat} (hw : w < 2 ^ 32) {t : Text} (ht : StopsNumber t) :
    expect " \x7d , \x7b %u" 1 ('}' :: ',' :: '{' :: (Nat.toDigits 10 w ++ t)) =
    some ⟨[(w : Int)], t, false⟩ := by
  have hformat : parseFormat " \x7d , \x7b %u".toList =
      [.space, .literal '}', .space, .literal ',', .space, .literal '{', .space, .number .u] := rfl
  refine expect_of_eq (r := ⟨[(w : Int)], t, false⟩) ?_
  rw [fscanf, hformat, runFormat_space (by decide), runFormat_literal, runFormat_space (by decide),
    runFormat_literal, runFormat_space (by decide), runFormat_literal, runFormat_u hw ht]
  rfl

theorem word_eq {w : Nat} (hw : w < 2 ^ 32) (t : Text) : word ⟨[(w : Int)], t, false⟩ 0 = w := by
  simp only [word, toUint32, List.getD_cons_zero]
  omega

/-- Numbers, each with a comma before it. -/
def commaWords (ws : List Nat) : Text := ws.flatMap fun w => ',' :: Nat.toDigits 10 w

theorem stopsNumber_commaWords {ws : List Nat} {t : Text} (ht : StopsNumber t) :
    StopsNumber (commaWords ws ++ t) := by
  cases ws with
  | nil => exact ht
  | cons w ws => exact stopsNumber_cons (by decide) _

theorem readMore_commaWords {ws : List Nat} (hws : ∀ w ∈ ws, w < 2 ^ 32) {t : Text}
    (ht : StopsNumber t) : readMore ws.length (commaWords ws ++ t) = some (ws, t) := by
  induction ws with
  | nil => rfl
  | cons w ws ih =>
    rw [List.forall_mem_cons] at hws
    have hscan := expect_comma hws.1 (@stopsNumber_commaWords ws t ht)
    have htext :
        commaWords (w :: ws) ++ t = ',' :: (Nat.toDigits 10 w ++ (commaWords ws ++ t)) := by
      simp [commaWords]
    rw [List.length_cons, readMore, htext, hscan]
    simp only [Option.bind_eq_bind, Option.bind_some, ih hws.2, word_eq hws.1]
    rfl

theorem printArray_cons (w : Nat) (ws : List Nat) :
    printArray (w :: ws) = '{' :: (Nat.toDigits 10 w ++ (commaWords ws ++ ['}'])) := by
  have hflat : (((w :: ws).map (Nat.toDigits 10)).intersperse [',']).flatten =
      Nat.toDigits 10 w ++ commaWords ws := by
    induction ws generalizing w with
    | nil => simp [commaWords]
    | cons v ws ih =>
      have hv := ih v
      simp only [List.map_cons] at hv ⊢
      rw [List.intersperse_cons_cons, List.flatten_cons, List.flatten_cons, hv]
      simp [commaWords]
  rw [printArray, hflat]
  simp

/-! ## Digits of a number -/

theorem length_littleEndian (base k n : Nat) : (littleEndian base k n).length = k := by
  induction k generalizing n with
  | zero => rfl
  | succ k ih => rw [littleEndian, List.length_cons, ih]

theorem lt_of_mem_littleEndian {base : Nat} (hbase : 0 < base) {k n : Nat}
    (h : w ∈ littleEndian base k n) : w < base := by
  induction k generalizing n with
  | zero => cases h
  | succ k ih =>
    rcases List.mem_cons.mp h with rfl | h
    · exact Nat.mod_lt _ hbase
    · exact ih h

theorem leNat_append (a b : List UInt8) : leNat (a ++ b) = leNat a + 256 ^ a.length * leNat b := by
  rw [leNat, List.map_append, Nat.ofDigits_append, List.length_map]
  rfl

theorem leNat_words (k n : Nat) :
    leNat ((littleEndian (2 ^ 32) k n).flatMap (leBytes 4)) = n % (2 ^ 32) ^ k := by
  induction k generalizing n with
  | zero => simp [littleEndian, leNat, Nat.mod_one]
  | succ k ih =>
    have hword : n % 2 ^ 32 % 256 ^ 4 = n % 2 ^ 32 := Nat.mod_mod _ _
    have hpow : (2 ^ 32) ^ (k + 1) = 2 ^ 32 * (2 ^ 32) ^ k := Nat.pow_succ'
    rw [littleEndian, List.flatMap_cons, leNat_append, leNat_leBytes, hword, ih,
      length_leBytes, hpow, Nat.mod_mul]
    rfl

theorem leNat_bytes (k n : Nat) :
    leNat ((littleEndian 0x100 k n).map UInt8.ofNat) = n % 0x100 ^ k := by
  induction k generalizing n with
  | zero => simp [littleEndian, leNat, Nat.mod_one]
  | succ k ih =>
    have hone : leNat [UInt8.ofNat (n % 0x100)] = n % 0x100 := by simp [leNat]
    rw [littleEndian, List.map_cons, ← List.singleton_append, leNat_append, hone, ih, Nat.pow_succ',
      Nat.mod_mul]
    rfl

/-! ## Keys -/

theorem expect_length {n : Nat} (hn : 0 < n) (hlt : n < 2 ^ 32) {m : Nat} (hm : 0 < m)
    (hmlt : m < 2 ^ 33) {t : Text} (ht : StopsNumber t) :
    expect " %i , 0x%x" 2 (Nat.toDigits 10 n ++ ',' :: '0' :: 'x' :: (Nat.toDigits 16 m ++ t)) =
      some ⟨[(n : Int), (m : Int)], t, false⟩ := by
  have hformat : parseFormat " %i , 0x%x".toList =
      [.space, .number .i, .space, .literal ',', .space, .literal '0', .literal 'x', .number .x] :=
      rfl
  refine expect_of_eq (r := ⟨[(n : Int), (m : Int)], t, false⟩) ?_
  rw [fscanf, hformat, runFormat_space_toDigits (by decide) (by decide),
    runFormat_toDigits (by decide) (by decide)
    (Conversion.base_toDigits (by decide) (by decide) hn _ rfl)
      (by omega) (by rintro _ ⟨⟩; decide),
    runFormat_space (by decide), runFormat_literal, runFormat_space (by decide), runFormat_literal,
    runFormat_literal,
    runFormat_toDigits (by decide) (by decide)
    (Conversion.base_toDigits (by decide) (by decide) hm _ rfl)
      (by omega) (ht.digitValue (by decide)), runFormat_nil]
  rfl

theorem expect_close (t : Text) :
    expect " \x7d \x7d " 0 ('}' :: '}' :: t) = some ⟨[], t.dropWhile isSpace, false⟩ := by
  have hformat : parseFormat " \x7d \x7d ".toList =
      [.space, .literal '}', .space, .literal '}', .space] := rfl
  refine expect_of_eq (r := ⟨[], t.dropWhile isSpace, false⟩) ?_
  rw [fscanf, hformat, runFormat_space (by decide), runFormat_literal, runFormat_space (by decide),
    runFormat_literal]
  rfl

/-- The printed form of an RSA key, behind the first brace. -/
def rsaText (n0inv : Nat) (modulus rr : List Nat) : Text :=
  Nat.toDigits 10 64 ++ (",0x".toList ++ (Nat.toDigits 16 n0inv ++
    ',' :: (printArray modulus ++ ',' :: (printArray rr ++ ['}']))))

theorem exists_printArray {base : Nat} (hbase : 0 < base) (hle : base ≤ 2 ^ 32) (k n : Nat) :
    ∃ w ws, littleEndian base (k + 1) n = w :: ws ∧ w < 2 ^ 32 ∧
      printArray (littleEndian base (k + 1) n) =
      '{' :: (Nat.toDigits 10 w ++ (commaWords ws ++ ['}'])) ∧
      ∀ t, readMore k (commaWords ws ++ '}' :: t) = some (ws, '}' :: t) := by
  have hbound : ∀ v ∈ littleEndian base k (n / base), v < 2 ^ 32 := fun v hv =>
    (lt_of_mem_littleEndian hbase hv).trans_le hle
  refine ⟨_, _, rfl, (Nat.mod_lt _ hbase).trans_le hle, printArray_cons _ _, fun t => ?_⟩
  have hread :=
    readMore_commaWords hbound (stopsNumber_cons (by decide : digitValue 16 '}' = none) t)
  rwa [length_littleEndian] at hread

theorem parseRsaKey_rsaText {n0inv : Nat} (hpos : 0 < n0inv) (hlt : n0inv < 2 ^ 33)
    (n rr exponent : Nat) (hn : n < (2 ^ 32) ^ 64) (t : Text) :
    parseRsaKey (rsaText n0inv (littleEndian (2 ^ 32) 64 n) (littleEndian (2 ^ 32) 64 rr) ++ t)
    exponent =
      some (.rsa n exponent, t.dropWhile isSpace) := by
  obtain ⟨w, ws, hws, hw, hprint, hread⟩ :=
    exists_printArray (by decide) (Nat.le_refl (2 ^ 32)) 63 n
  obtain ⟨r, rs, -, hr, hprint', hread'⟩ :=
    exists_printArray (by decide) (Nat.le_refl (2 ^ 32)) 63 rr
  obtain ⟨t₁, ht₁⟩ : ∃ t₁, t₁ = commaWords rs ++ '}' :: '}' :: t := ⟨_, rfl⟩
  obtain ⟨t₂, ht₂⟩ : ∃ t₂, t₂ = commaWords ws ++ '}' :: ',' :: '{' :: (Nat.toDigits 10 r ++ t₁) :=
    ⟨_, rfl⟩
  have htext : rsaText n0inv (littleEndian (2 ^ 32) 64 n) (littleEndian (2 ^ 32) 64 rr) ++ t =
      Nat.toDigits 10 64 ++ ',' :: '0' :: 'x' :: (Nat.toDigits 16 n0inv ++
        ',' :: '{' :: (Nat.toDigits 10 w ++ t₂)) := by
    rw [rsaText, hprint, hprint', ht₂, ht₁]
    simp
  have hstop₁ : StopsNumber t₁ := ht₁ ▸ stopsNumber_commaWords (stopsNumber_cons (by decide) _)
  have hstop₂ : StopsNumber t₂ := ht₂ ▸ stopsNumber_commaWords (stopsNumber_cons (by decide) _)
  have hvalue : bnBin2bn (((w :: ws).take 64).flatMap (leBytes 4)).reverse = n := by
    rw [bnBin2bn, List.reverse_reverse, ← hws,
      List.take_of_length_le (length_littleEndian _ _ _).le, leNat_words, Nat.mod_eq_of_lt hn]
  have hcount (t : Text) : word ⟨[((64 : Nat) : Int), (n0inv : Int)], t, false⟩ 0 = 64 := rfl
  rw [htext, parseRsaKey,
    expect_length (by decide) (by decide) hpos hlt (stopsNumber_cons (by decide) _)]
  simp only [Option.bind_eq_bind, Option.bind_some, hcount, expect_open hw hstop₂]
  rw [if_neg (by decide), ht₂, hread]
  simp only [Option.bind_some, expect_next hr hstop₁]
  rw [ht₁, hread']
  simp only [Option.bind_some, expect_close, word_eq hw, hvalue]
  rfl

theorem readCoordinate_printArray {x : Nat} (hx : x < 0x100 ^ 32) (t : Text) :
    readCoordinate 32 (',' :: (printArray (littleEndian 0x100 32 x) ++ t)) = some (x, t) := by
  obtain ⟨w, ws, hws, hw, hprint, hread⟩ :=
    exists_printArray (by decide) (by decide : 0x100 ≤ 2 ^ 32) 31 x
  obtain ⟨t₁, ht₁⟩ : ∃ t₁, t₁ = commaWords ws ++ '}' :: t := ⟨_, rfl⟩
  have htext :
      ',' :: (printArray (littleEndian 0x100 32 x) ++ t) =
      ',' :: '{' :: (Nat.toDigits 10 w ++ t₁) := by
    rw [hprint, ht₁]
    simp
  have hstop : StopsNumber t₁ := ht₁ ▸ stopsNumber_commaWords (stopsNumber_cons (by decide) _)
  have hvalue : bnBin2bn ((w :: ws).map UInt8.ofNat).reverse = x := by
    rw [bnBin2bn, List.reverse_reverse, ← hws, leNat_bytes, Nat.mod_eq_of_lt hx]
  have hclose : expect " \x7d" 0 ('}' :: t) = some ⟨[], t, false⟩ := by
    have hformat : parseFormat " \x7d".toList = [.space, .literal '}'] := rfl
    refine expect_of_eq (r := ⟨[], t, false⟩) ?_
    rw [fscanf, hformat, runFormat_space (by decide), runFormat_literal, runFormat_nil]
  rw [htext, readCoordinate, expect_open hw hstop]
  simp only [Option.bind_eq_bind, Option.bind_some]
  rw [ht₁, hread]
  simp only [Option.bind_some, hclose, word_eq hw, hvalue]
  rfl

/-- The printed form of an EC key, behind the first brace. -/
def ecText (x y : Nat) : Text :=
  Nat.toDigits 10 32 ++ ',' :: (printArray (littleEndian 0x100 32 x) ++
    ',' :: (printArray (littleEndian 0x100 32 y) ++ ['}']))

theorem OnP256.lt (h : OnP256 x y) : x < 0x100 ^ 32 ∧ y < 0x100 ^ 32 := by
  have hp : p256 < 0x100 ^ 32 := by decide
  exact ⟨h.1.trans hp, h.2.1.trans hp⟩

theorem parseEcKey_ecText (h : OnP256 x y) (t : Text) :
    parseEcKey (ecText x y ++ t) = some (.ec x y, t.dropWhile isSpace) := by
  have htext :
      ecText x y ++ t = Nat.toDigits 10 32 ++ ',' ::
      (printArray (littleEndian 0x100 32 x) ++ ',' ::
        (printArray (littleEndian 0x100 32 y) ++ '}' :: t)) := by simp [ecText]
  have hlength (t : Text) (ht : StopsNumber t) :
      expect " %i" 1 (Nat.toDigits 10 32 ++ t) = some ⟨[((32 : Nat) : Int)], t, false⟩ := by
    have hformat : parseFormat " %i".toList = [.space, .number .i] := rfl
    refine expect_of_eq (r := ⟨[((32 : Nat) : Int)], t, false⟩) ?_
    rw [fscanf, hformat, runFormat_space_toDigits (by decide) (by decide),
      runFormat_toDigits (by decide) (by decide)
        (Conversion.base_toDigits (by decide) (by decide) (by decide) _ rfl) (by decide)
        (ht.digitValue (by decide)), runFormat_nil]
    rfl
  have hclose : expect " \x7d " 0 ('}' :: t) = some ⟨[], t.dropWhile isSpace, false⟩ := by
    have hformat : parseFormat " \x7d ".toList = [.space, .literal '}', .space] := rfl
    refine expect_of_eq (r := ⟨[], t.dropWhile isSpace, false⟩) ?_
    rw [fscanf, hformat, runFormat_space (by decide), runFormat_literal]
    rfl
  rw [htext, parseEcKey, hlength _ (stopsNumber_cons (by decide) _)]
  have hcount (t : Text) : word ⟨[((32 : Nat) : Int)], t, false⟩ 0 = 32 := rfl
  simp only [Option.bind_eq_bind, Option.bind_some, hcount]
  rw [if_neg (by decide), readCoordinate_printArray h.lt.1]
  simp only [Option.bind_some, readCoordinate_printArray h.lt.2, hclose, h, if_true]
  rfl

/-! ## Versions -/

theorem expect_char {pre : Text} (hpre : ∀ c ∈ pre, isSpace c = true) {c : Char}
    (hc : isSpace c = false) (s : Text) :
    expect " %c" 1 (pre ++ c :: s) = some ⟨[(c.toNat : Int)], s, false⟩ := by
  have hformat : parseFormat " %c".toList = [.space, .char] := rfl
  refine expect_of_eq (r := ⟨[(c.toNat : Int)], s, false⟩) ?_
  rw [fscanf, hformat, runFormat, dropWhile_append_stop hpre (by rintro _ ⟨⟩; exact hc),
    runFormat_char]
  rfl

theorem toInt32_of_lt {v : Int} (hle : -2 ^ 31 ≤ v) (hlt : v < 2 ^ 31) : toInt32 v = v := by
  unfold toInt32
  rw [Int.emod_eq_of_lt (by omega) (by omega)]
  omega

theorem readVersion_one {pre : Text} (hpre : ∀ c ∈ pre, isSpace c = true) (s : Text) :
    readVersion (pre ++ '{' :: s) = some ((.rsa 3, SHA_DIGEST_LENGTH), s) := by
  rw [readVersion, expect_char hpre (by decide)]
  rfl

theorem readVersion_number {pre : Text} (hpre : ∀ c ∈ pre, isSpace c = true) {version : Nat}
    (hversion : version < 2 ^ 31) {type : KeyType × Nat} (htype : versionOf version = some type)
    (s : Text) : readVersion (pre ++ 'v' :: (Nat.toDigits 10 version ++ ' ' :: '{' :: s)) =
    some (type, s) := by
  have hexpect : expect "%d \x7b" 1 (Nat.toDigits 10 version ++ ' ' :: '{' :: s) =
      some ⟨[(version : Int)], s, false⟩ := by
    have hformat : parseFormat "%d \x7b".toList = [.number .d, .space, .literal '{'] := rfl
    refine expect_of_eq (r := ⟨[(version : Int)], s, false⟩) ?_
    rw [fscanf, hformat,
      runFormat_toDigits (by decide) (by decide) rfl (by omega) (by rintro _ ⟨⟩; decide)]
    rfl
  have hint := toInt32_of_lt (v := (version : Int)) (by omega) (by omega)
  have hbrace : ¬('v'.toNat : Int) = '{'.toNat := by decide
  rw [readVersion, expect_char hpre (by decide), Option.bind_eq_bind, Option.bind_some,
    List.getD_cons_zero, if_neg hbrace, if_pos rfl, Option.bind_eq_bind, hexpect, Option.bind_some,
    List.getD_cons_zero, hint, htype]
  rfl

/-- The keys that a certificate stands for. -/
def CertFile.loaded (cert : CertFile) : LoadedKey :=
  match cert.key with
  | .rsa modulus exponent =>
    ⟨if cert.sigAlg.useSHA256 = some true then SHA256_DIGEST_LENGTH else SHA_DIGEST_LENGTH,
      .rsa modulus exponent⟩
  | .ec _ x y => ⟨SHA256_DIGEST_LENGTH, .ec x y⟩

/-- An EC key is a point of P-256. -/
def CertFile.IsP256 (cert : CertFile) : Prop :=
  match cert.key with
  | .rsa _ _ => True
  | .ec _ x y => OnP256 x y

theorem modInverse_lt {n m inv : Nat} (hm : 0 < m) (h : modInverse n m = some inv) : inv < m := by
  unfold modInverse at h
  split at h
  · cases h
    have := Int.emod_lt_of_pos (n.gcdA m) (by exact_mod_cast hm : (0 : Int) < m)
    omega
  · cases h

theorem checkRSA_eq_some {useSHA256 : Bool} (h : checkRSA n e useSHA256 = some version) :
    n.size = 2048 ∧ ((e = 3 ∧ version = if useSHA256 then 3 else 1) ∨
      (e = 65537 ∧ version = if useSHA256 then 4 else 2)) := by
  unfold checkRSA at h
  obtain ⟨v, hv, h⟩ := Option.bind_eq_some_iff.mp h
  split at h
  · cases h
  · rename_i hsize
    cases h
    refine ⟨not_not.mp hsize, ?_⟩
    split at hv
    · rename_i he
      exact .inl ⟨he, (Option.some.inj hv).symm⟩
    · split at hv
      · rename_i he
        exact .inr ⟨he, (Option.some.inj hv).symm⟩
      · cases hv

theorem printRSA_eq_some {useSHA256 : Bool} (h : printRSA n e useSHA256 = some text) :
    ∃ version n0inv rr, checkRSA n e useSHA256 = some version ∧ 0 < n0inv ∧ n0inv < 2 ^ 33 ∧
      text = (if version > 1 then 'v' :: (Nat.toDigits 10 version ++ [' ']) else []) ++
        '{' :: rsaText n0inv (littleEndian (2 ^ 32) 64 n) (littleEndian (2 ^ 32) 64 rr) := by
  unfold printRSA at h
  obtain ⟨version, hversion, h⟩ := Option.bind_eq_some_iff.mp h
  obtain ⟨inv, hinv, h⟩ := Option.bind_eq_some_iff.mp h
  have hlt := modInverse_lt (by decide) hinv
  have hsize := (checkRSA_eq_some hversion).1
  refine ⟨version, 0x100000000 - inv, 2 ^ n.size * 2 ^ n.size % n, hversion, by omega, by omega, ?_⟩
  rw [← Option.some.inj h, hsize]
  rfl

/-- What is printed for a key is read as this key, up to the white space behind it. -/
theorem exists_parseKey {cert : CertFile} (h : printCert cert = some text) (hp : cert.IsP256)
    {pre : Text}
    (hpre : ∀ c ∈ pre, isSpace c = true) (rest : Text) :
    ∃ type s, readVersion (pre ++ (text ++ rest)) = some ((type, cert.loaded.hashLen), s) ∧
      parseKey type s = some (cert.loaded.key, rest.dropWhile isSpace) := by
  obtain ⟨sigAlg, key⟩ := cert
  obtain ⟨useSHA256, halg, h⟩ := Option.bind_eq_some_iff.mp h
  obtain ⟨-, -, h⟩ := Option.bind_eq_some_iff.mp h
  cases key with
  | rsa n e =>
    obtain ⟨version, n0inv, rr, hversion, hpos, hlt, rfl⟩ := printRSA_eq_some h
    obtain ⟨hsize, hversion⟩ := checkRSA_eq_some hversion
    have hn : n < (2 ^ 32) ^ 64 := by
      have hlt := Nat.lt_size_self n
      have hpow : 2 ^ n.size = (2 ^ 32) ^ 64 := by rw [hsize, ← Nat.pow_mul]
      rwa [hpow] at hlt
    have hparse := fun e => parseRsaKey_rsaText hpos hlt n rr e hn rest
    have hhash : (CertFile.loaded ⟨sigAlg, .rsa n e⟩).hashLen =
        if useSHA256 then SHA256_DIGEST_LENGTH else SHA_DIGEST_LENGTH := by
      simp only [CertFile.loaded, halg, Option.some.injEq]
    have hnumber {v : Nat} (hv : 1 < v) (hlt : v < 2 ^ 31) {type : KeyType × Nat}
        (htype : versionOf v = some type) (s : Text) :
        readVersion
        (pre ++ ((if v > 1 then 'v' :: (Nat.toDigits 10 v ++ [' ']) else []) ++ '{' :: s ++ rest)) =
          some (type, s ++ rest) := by
      have hread := readVersion_number hpre hlt htype (s ++ rest)
      rw [if_pos hv]
      simpa using hread
    rw [hhash]
    rcases hversion with ⟨rfl, rfl⟩ | ⟨rfl, rfl⟩ <;> cases useSHA256
    · exact ⟨_, _, readVersion_one hpre _, hparse 3⟩
    · exact ⟨_, _, hnumber (v := 3) (by decide) (by decide) rfl _, hparse 3⟩
    · exact ⟨_, _, hnumber (v := 2) (by decide) (by decide) rfl _, hparse 65537⟩
    · exact ⟨_, _, hnumber (v := 4) (by decide) (by decide) rfl _, hparse 65537⟩
  | ec fieldSize x y =>
    change printEC fieldSize x y = some text at h
    unfold printEC checkEC at h
    obtain ⟨version, hversion, h⟩ := Option.bind_eq_some_iff.mp h
    split at hversion
    · cases hversion
    · rename_i hfield
      cases hversion
      cases not_not.mp hfield
      cases h
      have hread := @readVersion_number pre hpre 5 (by decide) _ rfl (ecText x y ++ rest)
      refine ⟨.ec, ecText x y ++ rest, ?_, parseEcKey_ecText hp rest⟩
      refine Eq.trans ?_ hread
      simp [ecText]

theorem length_le_printCerts {certs : List CertFile} (h : printCerts certs = some text) :
    certs.length ≤ text.length := by
  induction certs using printCerts.induct generalizing text with
  | case1 => exact Nat.zero_le _
  | case2 cert =>
    obtain ⟨t, -, h⟩ := Option.bind_eq_some_iff.mp h
    cases h
    simp
  | case3 cert certs hne ih =>
    rw [printCerts.eq_3 _ _ hne] at h
    obtain ⟨t, -, h⟩ := Option.bind_eq_some_iff.mp h
    obtain ⟨t', ht', h⟩ := Option.bind_eq_some_iff.mp h
    cases h
    have := ih ht'
    simp only [List.length_cons, List.length_append]
    omega

theorem loadLoop_printCerts {certs : List CertFile} (hne : certs ≠ [])
    (h : printCerts certs = some text) (hp : ∀ cert ∈ certs, cert.IsP256) {pre : Text}
    (hpre : ∀ c ∈ pre, isSpace c = true) {fuel : Nat}
    (hfuel : certs.length ≤ fuel) (loaded : List LoadedKey) :
    loadLoop fuel (pre ++ text) loaded = some (loaded ++ certs.map CertFile.loaded) := by
  induction certs using printCerts.induct generalizing text pre fuel loaded with
  | case1 => exact absurd rfl hne
  | case2 cert =>
    obtain ⟨fuel, rfl⟩ :=
      Nat.exists_eq_succ_of_ne_zero (Nat.ne_of_gt (Nat.lt_of_lt_of_le Nat.one_pos hfuel))
    obtain ⟨t, ht, h⟩ := Option.bind_eq_some_iff.mp h
    cases h
    obtain ⟨type, s, hversion, hkey⟩ := exists_parseKey ht (hp cert List.mem_cons_self) hpre ['\n']
    simp only [loadLoop, hversion, Option.bind_eq_bind, Option.bind_some, hkey]
    rfl
  | case3 cert certs hmore ih =>
    rw [printCerts.eq_3 _ _ hmore] at h
    obtain ⟨fuel, rfl⟩ := Nat.exists_eq_succ_of_ne_zero (Nat.ne_of_gt (Nat.zero_lt_of_lt hfuel))
    obtain ⟨t, ht, h⟩ := Option.bind_eq_some_iff.mp h
    obtain ⟨t', ht', h⟩ := Option.bind_eq_some_iff.mp h
    cases h
    rw [List.forall_mem_cons] at hp
    obtain ⟨type, s, hversion, hkey⟩ := exists_parseKey ht hp.1 hpre (',' :: '\n' :: t')
    have hloop := @ih t' hmore ht' hp.2 ['\n'] (by decide) fuel (Nat.le_of_succ_le_succ hfuel)
      (loaded ++ [cert.loaded])
    simp only [loadLoop, hversion, Option.bind_eq_bind, Option.bind_some, hkey]
    refine Eq.trans hloop ?_
    simp

/-- What `DumpPublicKey` prints for a list of keys is loaded as these keys. -/
theorem loadKeys_dumpPublicKey {certs : List CertFile} (h : dumpPublicKey certs = some text)
    (hp : ∀ cert ∈ certs, cert.IsP256) : loadKeys text = some (certs.map CertFile.loaded) := by
  unfold dumpPublicKey at h
  split at h
  · cases h
  · rename_i hne
    have hlen := length_le_printCerts h
    exact @loadLoop_printCerts text certs hne h hp [] nofun _ (by omega) []

/-- The base point of P-256. -/
def basePoint : PublicKey :=
  .ec 256 0x6b17d1f2e12c4247f8bce6e563a440f277037d812deb33a0f4a13945d898c296
    0x4fe342e2fe1a7f9b8ee7eb4a7c0f9e162bce33576b315ececbb6406837bf51f5

theorem loadKeys_dumpPublicKey_basePoint :
    let cert : CertFile := ⟨.SHA256withECDSA, basePoint⟩
    ∃ text, dumpPublicKey [cert, cert] = some text ∧
      loadKeys text = some [cert.loaded, cert.loaded] := by
  intro cert
  have hp : cert.IsP256 := by
    change OnP256 _ _
    decide +kernel
  obtain ⟨text, h⟩ : ∃ text, dumpPublicKey [cert, cert] = some text := ⟨_, rfl⟩
  exact ⟨text, h, loadKeys_dumpPublicKey h (by simp [hp])⟩

end BootableRecovery.KeyFile
