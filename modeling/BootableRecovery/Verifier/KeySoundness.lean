import BootableRecovery.LibBase.ScanMatch
import BootableRecovery.Verifier.KeyFile

/-!
# What `load_keys` accepts

The comment before `load_keys` documents the form of a key file, and `KeyList` is this form. The
literals behind the last conversion of a format, and the first character of a key, are not checked
by the code, so that it accepts more: `KeyFlaw` lists the ways in which a key that is read can
differ from the documented form. And `parse_rsa_key` writes the first word of the modulus before it
looks at the length, which may be zero (`ZeroLength`). A file without a flaw is read as documented,
and only such a file (`loadKeys_sound_iff`).
-/

namespace BootableRecovery.KeyFile

/-! ## The arrays -/

/-- A function that failed, or wrote outside of an array, or returned a value. -/
inductive Run (α : Type)
  | outOfBounds
  | failed
  | done (a : α)
  deriving DecidableEq

instance : Monad Run where
  pure := .done
  bind x f := match x with
    | .outOfBounds => .outOfBounds
    | .failed => .failed
    | .done a => f a

def Run.ofOption : Option α → Run α
  | none => .failed
  | some a => .done a

/-- A write to an array. -/
def store (array : List α) (i : Nat) (v : α) : Run (List α) :=
  if i < array.length then .done (array.set i v) else .outOfBounds

namespace Mem

/-- The loop over `modulus[i]`, `k` times from `i` on. -/
def readWords : (k i : Nat) → (modulus : List Nat) → Text → Run (List Nat × Text)
  | 0, _, modulus, s => return (modulus, s)
  | k + 1, i, modulus, s => do
    let r ← Run.ofOption (expect " , %u" 1 s)
    let modulus ← store modulus i (word r 0)
    readWords k (i + 1) modulus r.rest

/-- `parse_rsa_key` with its array. -/
def parseRsaKey (s : Text) (exponent : Nat) : Run (Key × Text) := do
  let r ← Run.ofOption (expect " %i , 0x%x" 2 s)
  let keyLenWords := word r 0
  if keyLenWords > 8192 / 32 then Run.failed
  else
    let r ← Run.ofOption (expect " , \x7b %u" 1 r.rest)
    let modulus ← store (List.replicate keyLenWords 0) 0 (word r 0)
    let (modulus, s) ← readWords (keyLenWords - 1) 1 modulus r.rest
    let bytes := (modulus.flatMap (leBytes 4)).reverse
    let r ← Run.ofOption (expect " \x7d , \x7b %u" 1 s)
    let (_, s) ← Run.ofOption (readMore (keyLenWords - 1) r.rest)
    let r ← Run.ofOption (expect " \x7d \x7d " 0 s)
    return (.rsa (bnBin2bn bytes) exponent, r.rest)

/-- The loop over `bytes[key_len_bytes - i - 1]`, `k` times from `i` on. -/
def readBytes (keyLenBytes : Nat) : (k i : Nat) → (bytes : List UInt8) → Text →
    Run (List UInt8 × Text)
  | 0, _, bytes, s => return (bytes, s)
  | k + 1, i, bytes, s => do
    let r ← Run.ofOption (expect " , %u" 1 s)
    let bytes ← store bytes (keyLenBytes - i - 1) (UInt8.ofNat (word r 0))
    readBytes keyLenBytes k (i + 1) bytes r.rest

/-- One round of the loop over the coordinates. -/
def readCoordinate (keyLenBytes : Nat) (bytes : List UInt8) (s : Text) :
    Run (Nat × List UInt8 × Text) := do
  let r ← Run.ofOption (expect " , \x7b %u" 1 s)
  let bytes ← store bytes (keyLenBytes - 1) (UInt8.ofNat (word r 0))
  let (bytes, s) ← readBytes keyLenBytes (keyLenBytes - 1) 1 bytes r.rest
  let r ← Run.ofOption (expect " \x7d" 0 s)
  return (bnBin2bn bytes, bytes, r.rest)

/-- `parse_ec_key` with its array. -/
def parseEcKey (s : Text) : Run (Key × Text) := do
  let r ← Run.ofOption (expect " %i" 1 s)
  let keyLenBytes := word r 0
  if keyLenBytes ≠ groupOrderBytes then Run.failed
  else
    let (x, bytes, s) ← readCoordinate keyLenBytes (List.replicate keyLenBytes 0) r.rest
    let (y, _, s) ← readCoordinate keyLenBytes bytes s
    let r ← Run.ofOption (expect " \x7d " 0 s)
    if OnP256 x y then return (.ec x y, r.rest) else Run.failed

def parseKey (type : KeyType) (s : Text) : Run (Key × Text) :=
  match type with
  | .rsa exponent => parseRsaKey s exponent
  | .ec => parseEcKey s

def loadLoop : (fuel : Nat) → Text → (certs : List LoadedKey) → Run (List LoadedKey)
  | 0, _, _ => .failed
  | fuel + 1, s, certs => do
    let ((type, hashLen), s) ← Run.ofOption (readVersion s)
    let (key, s) ← parseKey type s
    match s with
    | ',' :: s => loadLoop fuel s (certs ++ [{ hashLen, key }])
    | [] => return certs ++ [{ hashLen, key }]
    | _ => Run.failed

/-- `load_keys` with its arrays; `failed` stands for the result `false`. -/
def loadKeys (file : Text) : Run (List LoadedKey) := loadLoop (file.length + 1) file []

end Mem

/-! ## The documented form -/

/-- Some more numbers of a list. -/
def numbersForm (k : Nat) : List Directive :=
  (List.replicate k (parseFormat " , %u".toList)).flatten

/-- A comma, and a list of `k` numbers without its closing brace. -/
def listForm (k : Nat) : List Directive := parseFormat " , \x7b %u".toList ++ numbersForm (k - 1)

/-- An RSA key of `k` words behind its opening brace, without the braces at its end. -/
def rsaNumbers (k : Nat) : List Directive :=
  parseFormat " %i , 0x%x".toList ++ (listForm k ++ (parseFormat " \x7d".toList ++ listForm k))

/-- The braces at the end of a key. -/
def closeForm : List Directive := parseFormat " \x7d \x7d ".toList

def rsaForm (k : Nat) : List Directive := rsaNumbers k ++ closeForm

/-- An EC key behind its opening brace up to the first coordinate. -/
def ecNumbers : List Directive := parseFormat " %i".toList ++ listForm groupOrderBytes

def ecForm : List Directive :=
  ecNumbers ++ (parseFormat " \x7d".toList ++ (listForm groupOrderBytes ++ closeForm))

def versionForm : List Directive := parseFormat " v%d".toList

def openForm : List Directive := parseFormat " \x7b".toList

/-- A word, also when it is written as a signed number. -/
def IsWord (w : Int) : Prop := -2 ^ 31 ≤ w ∧ w < 2 ^ 32

def IsByte (b : Int) : Prop := 0 ≤ b ∧ b < 2 ^ 8

/-- The value of `k` words. -/
def modulus (k : Nat) (ws : List Int) : Nat :=
  leNat (((ws.take k).map toUint32).flatMap (leBytes 4))

/-- The value of the bytes of a coordinate. -/
def coordinate (bs : List Int) : Nat := leNat (bs.map fun b => UInt8.ofNat (toUint32 b))

/-- A key of the documented form at the front of a text, with what its version implies, and the
rest. -/
inductive KeyText (s : Text) : LoadedKey → Text → Prop
  | first : 0 < k → k ≤ 8192 / 32 →
    matchFormat (openForm ++ rsaForm k) s = some ((k : Int) :: n0inv :: ws, t) →
    (∀ w ∈ ws, IsWord w) → KeyText s ⟨SHA_DIGEST_LENGTH, .rsa (modulus k ws) 3⟩ t
  | rsa : versionOf version = some (.rsa exponent, hashLen) → 0 < k → k ≤ 8192 / 32 →
    matchFormat (versionForm ++ (openForm ++ rsaForm k)) s =
    some (version :: (k : Int) :: n0inv :: ws, t) → (∀ w ∈ ws, IsWord w) →
    KeyText s ⟨hashLen, .rsa (modulus k ws) exponent⟩ t
  | ec : versionOf version = some (.ec, hashLen) →
    matchFormat (versionForm ++ (openForm ++ ecForm)) s =
      some (version :: (groupOrderBytes : Int) :: (xs ++ ys), t) →
    xs.length = groupOrderBytes → (∀ b ∈ xs ++ ys, IsByte b) →
    OnP256 (coordinate xs) (coordinate ys) →
    KeyText s ⟨hashLen, .ec (coordinate xs) (coordinate ys)⟩ t

/-- A file of the documented form: keys with commas between them. -/
inductive KeyList : Text → List LoadedKey → Prop
  | last : KeyText s cert [] → KeyList s [cert]
  | more : KeyText s cert (',' :: t) → KeyList t certs → KeyList s (cert :: certs)

/-! ## What is read -/

/-- The start of a key as it is read: a version, or any character. A brace behind the number may be
missing. -/
inductive Start (s : Text) : KeyType × Nat → Text → Prop
  | first : s.dropWhile isSpace = '{' :: t → Start s (.rsa 3, SHA_DIGEST_LENGTH) t
  | number : matchFormat versionForm s = some ([version], t') →
    versionOf (toInt32 version) = some type → (runFormat openForm [] t').rest = t → Start s type t
  | other : s.dropWhile isSpace = c :: t → c ≠ '{' → c ≠ 'v' → Start s (.rsa 0, 0) t

/-- An RSA key behind its start: the length, the other numbers, and what follows them. -/
structure RsaRead (s : Text) (n : Int) (ws : List Int) (t : Text) : Prop where
  numbers : ∃ n0inv, matchFormat (rsaNumbers (toUint32 n)) s = some (n :: n0inv :: ws, t)
  length_le : toUint32 n ≤ 8192 / 32

/-- An EC key behind its start: the length, the first coordinate and what follows it, and the second
one. -/
structure EcRead (s : Text) (n : Int) (xs : List Int) (t : Text) (ys : List Int) (t' : Text) :
    Prop where
  first : matchFormat ecNumbers s = some (n :: xs, t)
  length : toUint32 n = groupOrderBytes
  second : ∃ u, skipFormat (parseFormat " \x7d".toList) t = some u ∧
    matchFormat (listForm groupOrderBytes) u = some (ys, t')
  point : OnP256 (coordinate xs) (coordinate ys)

/-- A key at the front of a text as it is read, and the rest. Braces at the end may be missing. -/
inductive KeyRead (s : Text) : LoadedKey → Text → Prop
  | rsa : Start s (.rsa exponent, hashLen) s' → RsaRead s' n ws t' →
    skipFormat closeForm t' = some t →
    KeyRead s ⟨hashLen, .rsa (modulus (toUint32 n) ws) exponent⟩ t
  | ec : Start s (.ec, hashLen) s' → EcRead s' n xs u ys t' →
    (skipFormat (parseFormat " \x7d".toList) t').bind (skipFormat (parseFormat " \x7d ".toList)) =
    some t → KeyRead s ⟨hashLen, .ec (coordinate xs) (coordinate ys)⟩ t

/-- The ways in which a key that is read is not of the documented form: it starts with another
character; the number of its version is out of range, or no brace follows it; the length is out of
range, or a number of a list is; a brace is missing behind a list or at the end. -/
inductive KeyFlaw (s : Text) : Prop
  | start : s.dropWhile isSpace = c :: t → c ≠ '{' → c ≠ 'v' → KeyFlaw s
  | version : matchFormat versionForm s = some ([version], t) → version < 2 ∨ 5 < version →
    KeyFlaw s
  | brace : matchFormat versionForm s = some (vs, t) → matchFormat openForm t = none → KeyFlaw s
  | length : Start s (.rsa exponent, hashLen) s' → RsaRead s' n ws t → n < 1 ∨ 8192 / 32 < n →
    KeyFlaw s
  | word : Start s (.rsa exponent, hashLen) s' → RsaRead s' n ws t → (∃ w ∈ ws, ¬IsWord w) →
    KeyFlaw s
  | close : Start s (.rsa exponent, hashLen) s' → RsaRead s' n ws t →
    matchFormat closeForm t = none → KeyFlaw s
  | ecLength : Start s (.ec, hashLen) s' → EcRead s' n xs u ys t → n ≠ groupOrderBytes → KeyFlaw s
  | byte : Start s (.ec, hashLen) s' → EcRead s' n xs u ys t → (∃ b ∈ xs ++ ys, ¬IsByte b) →
    KeyFlaw s
  | ecMiddle : Start s (.ec, hashLen) s' → EcRead s' n xs u ys t →
    matchFormat (parseFormat " \x7d".toList) u = none → KeyFlaw s
  | ecClose : Start s (.ec, hashLen) s' → EcRead s' n xs u ys t → matchFormat closeForm t = none →
    KeyFlaw s

/-- A file as it is read. -/
inductive FileRead : Text → List LoadedKey → Prop
  | last : KeyRead s cert [] → FileRead s [cert]
  | more : KeyRead s cert (',' :: t) → FileRead t certs → FileRead s (cert :: certs)

/-- A file that is read although one of its keys has a flaw. -/
inductive Flawed : Text → Prop
  | last : KeyRead s cert [] → KeyFlaw s → Flawed s
  | here : KeyRead s cert (',' :: t) → FileRead t certs → KeyFlaw s → Flawed s
  | later : KeyRead s cert (',' :: t) → Flawed t → Flawed s

/-- The first word of a key is there, and the length of the key is zero. -/
def ZeroFirst (s : Text) : Prop :=
  ∃ n n0inv w t,
  matchFormat (parseFormat " %i , 0x%x".toList ++ parseFormat " , \x7b %u".toList) s =
    some ([n, n0inv, w], t) ∧ toUint32 n = 0

/-- Behind some keys that are read comes an RSA key of length zero with its first word. -/
inductive ZeroLength : Text → Prop
  | here : Start s (.rsa exponent, hashLen) t → ZeroFirst t → ZeroLength s
  | later : KeyRead s cert (',' :: t) → ZeroLength t → ZeroLength s

/-! ## The formats and the code -/

section
variable {s t : Text}

theorem expect_eq_match {format : String} (hend : EndsInConversion (parseFormat format.toList))
    (s : Text) : expect format (conversions (parseFormat format.toList)) s =
      (matchFormat (parseFormat format.toList) s).map fun p => ⟨p.1, p.2, false⟩ := by
  have hpos := conversions_pos hend
  unfold expect fscanf
  cases h : matchFormat (parseFormat format.toList) s with
  | none =>
    have hlt := length_runFormat_lt hend h []
    rw [if_neg]
    · rfl
    · simp only [List.length_nil, Nat.zero_add] at hlt
      unfold Scan.result
      split <;> omega
  | some p =>
    have hlen := length_of_matchFormat h
    rw [runFormat_of_match h, if_pos]
    · rfl
    · unfold Scan.result
      simpa using hlen

theorem expect_eq_skip {format : String} (hnone : conversions (parseFormat format.toList) = 0)
    (s : Text) : (expect format 0 s).map Scan.rest = skipFormat (parseFormat format.toList) s := by
  have hvalues := values_runFormat hnone [] s
  unfold expect fscanf skipFormat Scan.result
  rw [hvalues]
  cases (runFormat (parseFormat format.toList) [] s).ended <;> rfl

theorem readMore_eq_match (k : Nat) (s : Text) :
    readMore k s = (matchFormat (numbersForm k) s).map fun p => (p.1.map toUint32, p.2) := by
  induction k generalizing s with
  | zero => rfl
  | succ k ih =>
    have hexpect : expect " , %u" 1 s = (matchFormat (parseFormat " , %u".toList) s).map fun p =>
        ⟨p.1, p.2, false⟩ :=
      expect_eq_match (by decide) s
    have hform : numbersForm (k + 1) = parseFormat " , %u".toList ++ numbersForm k := rfl
    rw [readMore, hexpect, hform, matchFormat_append]
    cases h : matchFormat (parseFormat " , %u".toList) s with
    | none => rfl
    | some p =>
      obtain ⟨v, hv⟩ := List.length_eq_one_iff.mp (length_of_matchFormat h)
      simp only [Option.map_some, Option.bind_eq_bind, Option.bind_some, ih, hv]
      cases matchFormat (numbersForm k) p.2 <;> simp [word]

theorem length_of_readMore {k : Nat} (h : readMore k s = some (ws, t)) : ws.length = k := by
  induction k generalizing s ws with
  | zero =>
    cases h
    rfl
  | succ k ih =>
    obtain ⟨r, -, h⟩ := Option.bind_eq_some_iff.mp h
    obtain ⟨⟨us, t'⟩, hus, h⟩ := Option.bind_eq_some_iff.mp h
    cases h
    rw [List.length_cons, ih hus]

/-! ## Writes -/

theorem Run.some_bind (a : α) (f : α → Run β) : (Run.ofOption (some a) >>= f) = f a := rfl

theorem Run.ofOption_bind (o : Option α) (f : α → Option β) :
    Run.ofOption (o.bind f) = Run.ofOption o >>= fun a => .ofOption (f a) := by
  cases o <;> rfl

theorem Run.done_bind (a : α) (f : α → Run β) : (Run.done a >>= f) = f a := rfl

theorem store_append (pre : List α) (old v : α) (post : List α) :
    store (pre ++ old :: post) pre.length v = .done (pre ++ v :: post) := by
  unfold store
  rw [if_pos (by simp), List.set_append_right _ _ (Nat.le_refl _), Nat.sub_self]
  rfl

theorem Mem.readWords_eq {pre post : List Nat} (s : Text) :
    Mem.readWords post.length pre.length (pre ++ post) s =
      .ofOption ((readMore post.length s).map fun p => (pre ++ p.1, p.2)) := by
  induction post generalizing pre s with
  | nil => rfl
  | cons old post ih =>
    rw [List.length_cons, Mem.readWords, readMore]
    cases expect " , %u" 1 s with
    | none => rfl
    | some r =>
      have hrest := @ih (pre ++ [word r 0]) r.rest
      rw [List.length_append, List.length_singleton, List.append_assoc, List.singleton_append]
        at hrest
      rw [Run.some_bind, store_append, Run.done_bind, hrest]
      cases hmore : readMore post.length r.rest <;> simp [hmore]

theorem Mem.readBytes_eq {pre post : List UInt8} {n : Nat} (hn : n = pre.length + post.length)
    (s : Text) : Mem.readBytes n pre.length post.length (pre ++ post) s =
      .ofOption ((readMore pre.length s).map fun p =>
        ((p.1.map UInt8.ofNat).reverse ++ post, p.2)) := by
  induction pre using List.reverseRecOn generalizing post s with
  | nil => rfl
  | append_singleton pre old ih =>
    rw [List.length_append, List.length_singleton] at hn ⊢
    rw [Mem.readBytes, readMore]
    cases expect " , %u" 1 s with
    | none => rfl
    | some r =>
      have hindex : n - post.length - 1 = pre.length := by omega
      have hrest := @ih (UInt8.ofNat (word r 0) :: post) (by rw [List.length_cons]; omega) r.rest
      rw [List.length_cons] at hrest
      rw [Run.some_bind, hindex, List.append_assoc, List.singleton_append, store_append,
        Run.done_bind, hrest]
      cases hmore : readMore pre.length r.rest <;> simp [hmore]

theorem expect_rsaHead (s : Text) : expect " %i , 0x%x" 2 s =
    (matchFormat (parseFormat " %i , 0x%x".toList) s).map fun p => ⟨p.1, p.2, false⟩ :=
  expect_eq_match (by decide) s

theorem expect_listHead (s : Text) : expect " , \x7b %u" 1 s =
    (matchFormat (parseFormat " , \x7b %u".toList) s).map fun p => ⟨p.1, p.2, false⟩ :=
  expect_eq_match (by decide) s

theorem zeroFirst_iff {n n0inv : Int}
    (h : matchFormat (parseFormat " %i , 0x%x".toList) s = some ([n, n0inv], t)) :
    ZeroFirst s ↔ (matchFormat (parseFormat " , \x7b %u".toList) t).isSome = true ∧
    toUint32 n = 0 := by
  unfold ZeroFirst
  simp only [matchFormat_append_eq_some, h, Option.some.injEq, Prod.mk.injEq]
  constructor
  · rintro ⟨_, _, w, t', ⟨us, ws, s', ⟨rfl, rfl⟩, hword, heq⟩, hzero⟩
    cases heq
    rw [hword]
    exact ⟨rfl, hzero⟩
  · rintro ⟨hword, hzero⟩
    obtain ⟨⟨ws, t'⟩, hword⟩ := Option.isSome_iff_exists.mp hword
    obtain ⟨w, rfl⟩ := List.length_eq_one_iff.mp (length_of_matchFormat hword)
    exact ⟨n, n0inv, w, t', ⟨_, _, t, ⟨rfl, rfl⟩, hword, rfl⟩, hzero⟩

/-- `parse_rsa_key` leaves its array exactly if the length is zero and the first word is there. -/
theorem Mem.parseRsaKey_eq (s : Text) (exponent : Nat) :
    (ZeroFirst s ∧ Mem.parseRsaKey s exponent = .outOfBounds) ∨
      (¬ZeroFirst s ∧ Mem.parseRsaKey s exponent = .ofOption (KeyFile.parseRsaKey s exponent)) := by
  unfold Mem.parseRsaKey KeyFile.parseRsaKey
  rw [expect_rsaHead]
  cases hhead : matchFormat (parseFormat " %i , 0x%x".toList) s with
  | none =>
    refine .inr ⟨?_, rfl⟩
    rintro ⟨n, n0inv, w, t, hmatch, -⟩
    rw [matchFormat_append, hhead] at hmatch
    cases hmatch
  | some p =>
    obtain ⟨vs, t⟩ := p
    obtain ⟨n, n0inv, rfl⟩ := List.length_eq_two.mp (length_of_matchFormat hhead)
    have hword : word ⟨[n, n0inv], t, false⟩ 0 = toUint32 n := rfl
    rw [zeroFirst_iff hhead, Option.map_some, Run.some_bind, hword]
    simp only [Option.bind_eq_bind, Option.bind_some, hword]
    split
    · rename_i hlong
      exact .inr ⟨fun h => by omega, rfl⟩
    · rw [expect_listHead]
      cases hlist : matchFormat (parseFormat " , \x7b %u".toList) t with
      | none => exact .inr ⟨by simp, rfl⟩
      | some q =>
        rw [Option.map_some, Run.some_bind, Option.bind_some]
        cases toUint32 n with
        | zero => exact .inl ⟨⟨rfl, rfl⟩, rfl⟩
        | succ k =>
          refine .inr ⟨by simp, ?_⟩
          obtain ⟨w, hw⟩ : ∃ w, w = word ⟨q.1, q.2, false⟩ 0 := ⟨_, rfl⟩
          have hstore : store (List.replicate (k + 1) 0) 0 w = .done (w :: List.replicate k 0) :=
            store_append [] 0 w (List.replicate k 0)
          have hmore : Mem.readWords k 1 (w :: List.replicate k 0) q.2 =
              .ofOption ((readMore k q.2).map fun p => (w :: p.1, p.2)) := by
            simpa using @Mem.readWords_eq [w] (List.replicate k 0) q.2
          rw [← hw, hstore, Run.done_bind, Nat.add_sub_cancel, hmore]
          cases hwords : readMore k q.2 with
          | none => rfl
          | some p =>
            have htake : (w :: p.1).take (k + 1) = w :: p.1 := by
              rw [List.take_of_length_le]
              rw [List.length_cons, length_of_readMore hwords]
            rw [Option.map_some, Run.some_bind, Option.bind_some, htake]
            simp only [Run.ofOption_bind]
            rfl

theorem Mem.readCoordinate_eq {old : List UInt8} {n : Nat} (hn : 0 < n) (hold : old.length = n)
    (s : Text) : (KeyFile.readCoordinate n s = none ∧ Mem.readCoordinate n old s = .failed) ∨
      ∃ x bytes t, bytes.length = n ∧ KeyFile.readCoordinate n s = some (x, t) ∧
        Mem.readCoordinate n old s = .done (x, bytes, t) := by
  obtain ⟨n, rfl⟩ : ∃ k, n = k + 1 := Nat.exists_eq_succ_of_ne_zero (Nat.ne_of_gt hn)
  unfold Mem.readCoordinate KeyFile.readCoordinate
  cases expect " , \x7b %u" 1 s with
  | none => exact .inl ⟨rfl, rfl⟩
  | some r =>
    obtain ⟨pre, last, rfl⟩ : ∃ pre last, old = pre ++ [last] := by
      rcases List.eq_nil_or_concat old with rfl | ⟨pre, last, rfl⟩
      · cases hold
      · exact ⟨pre, last, List.concat_eq_append⟩
    rw [List.length_append, List.length_singleton, Nat.add_right_cancel_iff] at hold
    obtain ⟨b, hb⟩ : ∃ b, b = UInt8.ofNat (word r 0) := ⟨_, rfl⟩
    have hstore : store (pre ++ [last]) n b = .done (pre ++ [b]) :=
      hold ▸ store_append pre last b []
    have hmore : Mem.readBytes (n + 1) n 1 (pre ++ [b]) r.rest =
        .ofOption ((readMore n r.rest).map fun p =>
          ((p.1.map UInt8.ofNat).reverse ++ [b], p.2)) := by
      have hbytes := @Mem.readBytes_eq pre [b] (n + 1) (by rw [hold]; rfl) r.rest
      rwa [hold] at hbytes
    simp only [Option.bind_eq_bind, Option.bind_some, Run.some_bind, Nat.add_sub_cancel, ← hb]
    rw [hstore, Run.done_bind, hmore]
    cases hwords : readMore n r.rest with
    | none => exact .inl ⟨rfl, rfl⟩
    | some p =>
      simp only [Option.map_some, Run.some_bind, Option.bind_some]
      cases expect " \x7d" 0 p.2 with
      | none => exact .inl ⟨rfl, rfl⟩
      | some r' =>
        refine .inr ⟨_, (p.1.map UInt8.ofNat).reverse ++ [b], r'.rest, ?_, rfl, ?_⟩
        · simp [length_of_readMore hwords]
        · rw [List.map_cons, List.reverse_cons, ← hb]
          rfl

theorem Mem.parseEcKey_eq (s : Text) : Mem.parseEcKey s = .ofOption (KeyFile.parseEcKey s) := by
  unfold Mem.parseEcKey KeyFile.parseEcKey
  cases expect " %i" 1 s with
  | none => rfl
  | some r =>
    simp only [Option.bind_eq_bind, Option.bind_some, Run.some_bind]
    split
    · rfl
    · rename_i hlength
      rw [not_not] at hlength
      rw [hlength]
      have hpos : 0 < groupOrderBytes := by decide
      rcases Mem.readCoordinate_eq hpos List.length_replicate r.rest with
        ⟨hnone, hfailed⟩ | ⟨x, bytes, t, hbytes, hsome, hdone⟩
      · rw [hnone, hfailed]
        rfl
      · rw [hsome, hdone, Run.done_bind, Option.bind_some]
        rcases Mem.readCoordinate_eq hpos hbytes t with ⟨hnone, hfailed⟩ | ⟨y, bytes', t', -,
          hsome, hdone⟩
        · rw [hnone, hfailed]
          rfl
        · rw [hsome, hdone, Run.done_bind, Option.bind_some, Run.ofOption_bind]
          cases expect " \x7d " 0 t' with
          | none => rfl
          | some r' =>
            simp only [Run.some_bind]
            split <;> rfl

/-! ## The keys that are read -/

theorem expect_version (s : Text) : expect "%d \x7b" 1 s =
    (matchFormat [.number .d] s).map fun p => runFormat openForm p.1 p.2 := by
  have hformat : parseFormat "%d \x7b".toList = .number .d :: openForm := rfl
  unfold expect fscanf
  rw [hformat, runFormat]
  simp only [matchFormat, Option.map_some]
  split
  · rename_i hempty
    rw [hempty, scanNumber_nil]
    rfl
  · cases scanNumber .d (s.dropWhile isSpace) with
    | none => rfl
    | some q =>
      have hvalues := @values_runFormat openForm (by decide) ([] ++ [q.1]) q.2
      have hresult : (runFormat openForm ([] ++ [q.1]) q.2).result = 1 := by
        unfold Scan.result
        rw [hvalues]
        simp
      dsimp only
      rw [if_pos hresult]
      rfl

theorem readVersion_eq (s : Text) : readVersion s =
    match s.dropWhile isSpace with
    | [] => none
    | c :: t =>
      if c = '{' then some ((.rsa 3, SHA_DIGEST_LENGTH), t)
      else if c = 'v' then (matchFormat [.number .d] t).bind fun p =>
        (versionOf (toInt32 (p.1.getD 0 0))).map fun type =>
          (type, (runFormat openForm [] p.2).rest)
      else some ((.rsa 0, 0), t) := by
  have hchar : expect " %c" 1 s = (matchFormat (parseFormat " %c".toList) s).map fun p =>
      ⟨p.1, p.2, false⟩ :=
    expect_eq_match (by decide) s
  have hmatch :
      matchFormat (parseFormat " %c".toList) s = matchFormat [.char] (s.dropWhile isSpace) := rfl
  rw [readVersion, hchar, hmatch]
  cases s.dropWhile isSpace with
  | nil => rfl
  | cons c t =>
    have hc (d : Char) : ((c.toNat : Int) = d.toNat) ↔ c = d := by
      rw [Int.natCast_inj, Char.toNat_inj]
    have hfirst : matchFormat [.char] (c :: t) = some ([(c.toNat : Int)], t) := rfl
    simp only [hfirst, Option.map_some, Option.bind_eq_bind, Option.bind_some,
      List.getD_cons_zero, hc]
    split
    · rfl
    · split
      · rw [expect_version]
        cases h : matchFormat [.number .d] t with
        | none => rfl
        | some p =>
          obtain ⟨v, hv⟩ := List.length_eq_one_iff.mp (length_of_matchFormat h)
          have hopen := runFormat_values openForm [v] p.2
          have hnone := @values_runFormat openForm (by decide) [] p.2
          rw [hnone, List.append_nil] at hopen
          rw [Option.map_some, Option.bind_some, Option.bind_some, hv, hopen]
          simp only [List.getD_cons_zero]
          cases versionOf (toInt32 v) <;> rfl
      · rfl

theorem versionForm_iff {vs : List Int} :
    matchFormat versionForm s = some (vs, t) ↔
      ∃ u, s.dropWhile isSpace = 'v' :: u ∧ matchFormat [.number .d] u = some (vs, t) := by
  have hform :
      matchFormat versionForm s = matchFormat [.literal 'v', .number .d] (s.dropWhile isSpace) :=
      rfl
  rw [hform]
  cases s.dropWhile isSpace with
  | nil => simp [matchFormat]
  | cons c u =>
    rw [matchFormat]
    split
    · rename_i hc
      subst hc
      simp
    · rename_i hc
      simp [hc]

theorem start_iff {type : KeyType × Nat} : Start s type t ↔ readVersion s = some (type, t) := by
  rw [readVersion_eq]
  constructor
  · intro h
    cases h with
    | first hbrace => rw [hbrace]; rfl
    | number hmatch hversion hopen =>
      obtain ⟨u, hdrop, hnumber⟩ := versionForm_iff.mp hmatch
      rw [hdrop, ← hopen]
      simp [hnumber, hversion]
    | @other c _ hother hbrace hv =>
      rw [hother]
      simp [hbrace, hv]
  · intro h
    split at h
    · cases h
    · rename_i c t' hdrop
      split at h
      · rename_i hc
        subst hc
        cases h
        exact .first hdrop
      · split at h
        · rename_i hc
          subst hc
          obtain ⟨⟨vs, u⟩, hnumber, h⟩ := Option.bind_eq_some_iff.mp h
          obtain ⟨v, rfl⟩ := List.length_eq_one_iff.mp (length_of_matchFormat hnumber)
          obtain ⟨type', hversion, h⟩ := Option.map_eq_some_iff.mp h
          cases h
          exact .number (versionForm_iff.mpr ⟨t', hdrop, hnumber⟩) hversion rfl
        · rename_i hbrace hv
          cases h
          exact .other hdrop hbrace hv

theorem listForm_eq (k : Nat) (s : Text) : matchFormat (listForm k) s =
    (matchFormat (parseFormat " , \x7b %u".toList) s).bind fun p =>
      (matchFormat (numbersForm (k - 1)) p.2).map fun q => (p.1 ++ q.1, q.2) :=
  matchFormat_append _ _ _

theorem readList_eq {β : Type} (k : Nat) (s : Text) (f : List Nat → Text → Option β) :
    ((expect " , \x7b %u" 1 s).bind fun r => (readMore (k - 1) r.rest).bind fun p =>
      f (word r 0 :: p.1) p.2) = (matchFormat (listForm k) s).bind fun p =>
      f (p.1.map toUint32) p.2 := by
  rw [listForm_eq, expect_listHead]
  cases h : matchFormat (parseFormat " , \x7b %u".toList) s with
  | none => rfl
  | some p =>
    obtain ⟨v, hv⟩ := List.length_eq_one_iff.mp (length_of_matchFormat h)
    rw [Option.map_some, Option.bind_some, Option.bind_some, readMore_eq_match, hv]
    cases matchFormat (numbersForm (k - 1)) p.2 <;> rfl

theorem values_matchFormat {fmt : List Directive} {vs : List Int} (hnone : conversions fmt = 0)
    (h : matchFormat fmt s = some (vs, t)) : vs = [] := by
  rw [← List.length_eq_zero_iff, length_of_matchFormat h, hnone]

theorem expect_next_eq (s : Text) : expect " \x7d , \x7b %u" 1 s =
    (matchFormat (parseFormat " \x7d".toList) s).bind fun p => expect " , \x7b %u" 1 p.2 := by
  have hexpect : expect " \x7d , \x7b %u" 1 s =
      (matchFormat (parseFormat " \x7d".toList ++ parseFormat " , \x7b %u".toList) s).map fun p =>
        ⟨p.1, p.2, false⟩ := @expect_eq_match " \x7d , \x7b %u" (by decide) s
  rw [hexpect, matchFormat_append]
  cases h : matchFormat (parseFormat " \x7d".toList) s with
  | none => rfl
  | some p =>
    have hnil := values_matchFormat (by decide) h
    rw [Option.bind_some, Option.bind_some, expect_listHead, hnil]
    cases matchFormat (parseFormat " , \x7b %u".toList) p.2 <;> rfl

theorem expect_close_eq (s : Text) :
    (expect " \x7d \x7d " 0 s).map Scan.rest = skipFormat closeForm s :=
  expect_eq_skip (by decide) s

theorem parseRsaKey_eq_match (s : Text) (exponent : Nat) : parseRsaKey s exponent =
    (matchFormat (parseFormat " %i , 0x%x".toList) s).bind fun p =>
      let k := toUint32 (p.1.getD 0 0)
      if k > 8192 / 32 then none
      else (matchFormat (listForm k) p.2).bind fun q =>
        (matchFormat (parseFormat " \x7d".toList) q.2).bind fun u =>
          (matchFormat (listForm k) u.2).bind fun r =>
            (skipFormat closeForm r.2).map fun t => (.rsa (modulus k q.1) exponent, t) := by
  unfold parseRsaKey
  rw [expect_rsaHead]
  cases matchFormat (parseFormat " %i , 0x%x".toList) s with
  | none => rfl
  | some p =>
    obtain ⟨k, hk⟩ : ∃ k, k = toUint32 (p.1.getD 0 0) := ⟨_, rfl⟩
    have hword : word ⟨p.1, p.2, false⟩ 0 = k := hk.symm
    simp only [Option.map_some, Option.bind_eq_bind, Option.bind_some, hword, ← hk]
    split
    · rfl
    · have hlist := readList_eq k p.2 fun ws s =>
        (expect " \x7d , \x7b %u" 1 s).bind fun r => (readMore (k - 1) r.rest).bind fun p =>
          (expect " \x7d \x7d " 0 p.2).bind fun r' =>
            some (Key.rsa (bnBin2bn ((ws.take k).flatMap (leBytes 4)).reverse) exponent, r'.rest)
      refine hlist.trans ?_
      refine Option.bind_congr fun q _ => ?_
      rw [expect_next_eq, Option.bind_assoc]
      refine Option.bind_congr fun u _ => ?_
      refine (readList_eq k u.2 fun _ s => (expect " \x7d \x7d " 0 s).bind fun r' => some (Key.rsa
        (bnBin2bn (((q.1.map toUint32).take k).flatMap (leBytes 4)).reverse) exponent,
        r'.rest)).trans ?_
      refine Option.bind_congr fun r _ => ?_
      rw [← expect_close_eq, bnBin2bn, List.reverse_reverse, ← List.map_take]
      cases expect " \x7d \x7d " 0 r.2 <;> rfl

theorem conversions_listForm (k : Nat) : conversions (listForm k) = k - 1 + 1 := by
  have hnumbers (k : Nat) : conversions (numbersForm k) = k := by
    induction k with
    | zero => rfl
    | succ k ih =>
      have hform : numbersForm (k + 1) = parseFormat " , %u".toList ++ numbersForm k := rfl
      rw [hform, conversions, List.countP_append]
      exact (congrArg (1 + ·) ih).trans (Nat.add_comm 1 k)
  rw [listForm, conversions, List.countP_append]
  exact (congrArg (1 + ·) (hnumbers (k - 1))).trans (Nat.add_comm 1 _)

theorem matchFormat_rsaNumbers {k : Nat} {n n0inv : Int} {ws : List Int} :
    matchFormat (rsaNumbers k) s = some (n :: n0inv :: ws, t) ↔
      ∃ s₁ us s₂ s₃ rs, matchFormat (parseFormat " %i , 0x%x".toList) s = some ([n, n0inv], s₁) ∧
        matchFormat (listForm k) s₁ = some (us, s₂) ∧
        matchFormat (parseFormat " \x7d".toList) s₂ = some ([], s₃) ∧
        matchFormat (listForm k) s₃ = some (rs, t) ∧ ws = us ++ rs := by
  simp only [rsaNumbers, matchFormat_append_eq_some]
  constructor
  · rintro ⟨head, _, s₁, hhead, ⟨us, _, s₂, hus, ⟨_, rs, s₃, hclose, hrs, rfl⟩, rfl⟩, heq⟩
    obtain ⟨n', n0inv', rfl⟩ := List.length_eq_two.mp (length_of_matchFormat hhead)
    cases values_matchFormat (by decide) hclose
    cases heq
    exact ⟨s₁, us, s₂, s₃, rs, hhead, hus, hclose, hrs, rfl⟩
  · rintro ⟨s₁, us, s₂, s₃, rs, hhead, hus, hclose, hrs, rfl⟩
    exact ⟨_, _, s₁, hhead, ⟨us, _, s₂, hus, ⟨[], rs, s₃, hclose, hrs, rfl⟩, rfl⟩, rfl⟩

theorem parseRsaKey_eq_some {exponent : Nat} {key : Key} :
    parseRsaKey s exponent = some (key, t) ↔
      ∃ n ws t', RsaRead s n ws t' ∧ skipFormat closeForm t' = some t ∧
        key = .rsa (modulus (toUint32 n) ws) exponent := by
  have hmodulus {k : Nat} {s s' : Text} {us : List Int} (h : matchFormat (listForm k) s =
      some (us, s'))
      (rs : List Int) : modulus k (us ++ rs) = modulus k us := by
    have hlen := length_of_matchFormat h
    rw [conversions_listForm] at hlen
    rw [modulus, List.take_append_of_le_length (by omega), modulus]
  rw [parseRsaKey_eq_match]
  constructor
  · intro h
    obtain ⟨⟨head, s₁⟩, hhead, h⟩ := Option.bind_eq_some_iff.mp h
    obtain ⟨n, n0inv, rfl⟩ := List.length_eq_two.mp (length_of_matchFormat hhead)
    simp only [List.getD_cons_zero] at h
    split at h
    · cases h
    · rename_i hlength
      obtain ⟨⟨us, s₂⟩, hus, h⟩ := Option.bind_eq_some_iff.mp h
      obtain ⟨⟨closed, s₃⟩, hclose, h⟩ := Option.bind_eq_some_iff.mp h
      obtain ⟨⟨rs, t'⟩, hrs, h⟩ := Option.bind_eq_some_iff.mp h
      obtain ⟨t'', hskip, h⟩ := Option.map_eq_some_iff.mp h
      cases h
      cases values_matchFormat (by decide) hclose
      refine ⟨n, us ++ rs, t', ⟨⟨n0inv, ?_⟩, Nat.le_of_not_lt hlength⟩, hskip, ?_⟩
      · exact matchFormat_rsaNumbers.mpr ⟨s₁, us, s₂, s₃, rs, hhead, hus, hclose, hrs, rfl⟩
      · rw [hmodulus hus]
  · rintro ⟨n, ws, t', ⟨⟨n0inv, hnumbers⟩, hlength⟩, hskip, rfl⟩
    obtain ⟨s₁, us, s₂, s₃, rs, hhead, hus, hclose, hrs, rfl⟩ := matchFormat_rsaNumbers.mp hnumbers
    rw [hhead, Option.bind_some]
    simp only [List.getD_cons_zero]
    rw [if_neg (Nat.not_lt.mpr hlength), hus, Option.bind_some, hclose, Option.bind_some, hrs,
      Option.bind_some, hskip, hmodulus hus]
    rfl

theorem readCoordinate_eq_match (s : Text) : readCoordinate groupOrderBytes s =
    (matchFormat (listForm groupOrderBytes) s).bind fun p =>
      (skipFormat (parseFormat " \x7d".toList) p.2).map fun t => (coordinate p.1, t) := by
  have hskip (s : Text) :
      (expect " \x7d" 0 s).map Scan.rest = skipFormat (parseFormat " \x7d".toList) s :=
    expect_eq_skip (by decide) s
  unfold readCoordinate
  refine (readList_eq groupOrderBytes s fun ws s => (expect " \x7d" 0 s).bind fun r =>
    some (bnBin2bn (ws.map UInt8.ofNat).reverse, r.rest)).trans ?_
  refine Option.bind_congr fun p _ => ?_
  rw [← hskip, bnBin2bn, List.reverse_reverse, List.map_map]
  cases expect " \x7d" 0 p.2 <;> rfl

theorem parseEcKey_eq_match (s : Text) : parseEcKey s =
    (matchFormat (parseFormat " %i".toList) s).bind fun p =>
      if toUint32 (p.1.getD 0 0) ≠ groupOrderBytes then none
      else (readCoordinate groupOrderBytes p.2).bind fun q =>
        (readCoordinate groupOrderBytes q.2).bind fun r =>
        (skipFormat (parseFormat " \x7d ".toList) r.2).bind fun t =>
          if OnP256 q.1 r.1 then some (.ec q.1 r.1, t) else none := by
  have hlength : expect " %i" 1 s = (matchFormat (parseFormat " %i".toList) s).map fun p =>
      ⟨p.1, p.2, false⟩ :=
    expect_eq_match (by decide) s
  have hskip (s : Text) :
      (expect " \x7d " 0 s).map Scan.rest = skipFormat (parseFormat " \x7d ".toList) s :=
    expect_eq_skip (by decide) s
  unfold parseEcKey
  rw [hlength]
  cases matchFormat (parseFormat " %i".toList) s with
  | none => rfl
  | some p =>
    obtain ⟨k, hk⟩ : ∃ k, k = toUint32 (p.1.getD 0 0) := ⟨_, rfl⟩
    have hword : word ⟨p.1, p.2, false⟩ 0 = k := hk.symm
    simp only [Option.map_some, Option.bind_eq_bind, Option.bind_some, hword, ← hk]
    split
    · rfl
    · rename_i hlen
      rw [not_not] at hlen
      subst hlen
      refine Option.bind_congr fun q _ => Option.bind_congr fun r _ => ?_
      rw [← hskip]
      cases expect " \x7d " 0 r.2 <;> rfl

theorem parseEcKey_eq_some {key : Key} :
    parseEcKey s = some (key, t) ↔ ∃ n xs u ys t', EcRead s n xs u ys t' ∧
      (skipFormat (parseFormat " \x7d".toList) t').bind (skipFormat (parseFormat " \x7d ".toList)) =
      some t ∧ key = .ec (coordinate xs) (coordinate ys) := by
  rw [parseEcKey_eq_match]
  constructor
  · intro h
    obtain ⟨⟨head, s₁⟩, hhead, h⟩ := Option.bind_eq_some_iff.mp h
    obtain ⟨n, rfl⟩ := List.length_eq_one_iff.mp (length_of_matchFormat hhead)
    simp only [List.getD_cons_zero, readCoordinate_eq_match] at h
    split at h
    · cases h
    · rename_i hlength
      obtain ⟨⟨x, s₃⟩, hx, h⟩ := Option.bind_eq_some_iff.mp h
      obtain ⟨⟨xs, s₂⟩, hxs, hx⟩ := Option.bind_eq_some_iff.mp hx
      obtain ⟨_, hskip, hx⟩ := Option.map_eq_some_iff.mp hx
      cases hx
      obtain ⟨⟨y, s₅⟩, hy, h⟩ := Option.bind_eq_some_iff.mp h
      obtain ⟨⟨ys, s₄⟩, hys, hy⟩ := Option.bind_eq_some_iff.mp hy
      obtain ⟨_, hskip', hy⟩ := Option.map_eq_some_iff.mp hy
      cases hy
      obtain ⟨_, hskip'', h⟩ := Option.bind_eq_some_iff.mp h
      split at h
      · rename_i hpoint
        cases h
        refine ⟨n, xs, s₂, ys, s₄, ⟨?_, not_not.mp hlength, ⟨s₃, hskip, hys⟩, hpoint⟩, ?_, rfl⟩
        · exact matchFormat_append_eq_some.mpr ⟨_, _, s₁, hhead, hxs, rfl⟩
        · exact Option.bind_eq_some_iff.mpr ⟨s₅, hskip', hskip''⟩
      · cases h
  · rintro ⟨n, xs, u, ys, t', ⟨hfirst, hlength, ⟨s₃, hskip, hys⟩, hpoint⟩, hclose, rfl⟩
    obtain ⟨_, xs, s₁, hhead, hxs, heq⟩ := matchFormat_append_eq_some.mp hfirst
    obtain ⟨n', rfl⟩ := List.length_eq_one_iff.mp (length_of_matchFormat hhead)
    rw [List.singleton_append, List.cons.injEq] at heq
    obtain ⟨rfl, rfl⟩ := heq
    obtain ⟨s₅, hskip', hskip''⟩ := Option.bind_eq_some_iff.mp hclose
    rw [hhead, Option.bind_some]
    simp only [List.getD_cons_zero, readCoordinate_eq_match]
    rw [if_neg (not_not.mpr hlength), hxs, Option.bind_some, hskip, Option.map_some,
      Option.bind_some, hys, Option.bind_some, hskip', Option.map_some, Option.bind_some, hskip'',
      Option.bind_some]
    exact if_pos hpoint

theorem keyRead_iff {cert : LoadedKey} : KeyRead s cert t ↔
    ∃ type s', readVersion s = some ((type, cert.hashLen), s') ∧
    parseKey type s' = some (cert.key, t) := by
  constructor
  · intro h
    cases h with
    | rsa hstart hread hskip =>
      exact ⟨_, _, start_iff.mp hstart, parseRsaKey_eq_some.mpr ⟨_, _, _, hread, hskip, rfl⟩⟩
    | ec hstart hread hskip =>
      exact ⟨_, _, start_iff.mp hstart, parseEcKey_eq_some.mpr ⟨_, _, _, _, _, hread, hskip, rfl⟩⟩
  · rintro ⟨type, s', hstart, hkey⟩
    obtain ⟨hashLen, key⟩ := cert
    cases type with
    | rsa exponent =>
      obtain ⟨n, ws, t', hread, hskip, rfl⟩ := parseRsaKey_eq_some.mp hkey
      exact .rsa (start_iff.mpr hstart) hread hskip
    | ec =>
      obtain ⟨n, xs, u, ys, t', hread, hskip, rfl⟩ := parseEcKey_eq_some.mp hkey
      exact .ec (start_iff.mpr hstart) hread hskip

/-! ## Flaws -/

theorem openForm_iff {vs : List Int} :
    matchFormat openForm s = some (vs, t) ↔ vs = [] ∧ s.dropWhile isSpace = '{' :: t := by
  have hform : matchFormat openForm s = matchFormat [.literal '{'] (s.dropWhile isSpace) := rfl
  rw [hform]
  cases s.dropWhile isSpace with
  | nil => simp [matchFormat]
  | cons c u =>
    rw [matchFormat]
    split
    · rename_i hc
      subst hc
      simp [matchFormat, eq_comm]
    · rename_i hc
      simp [hc]

/-- What a documented start gives: the first version, or a number and a brace. -/
def StartText (s : Text) (type : KeyType × Nat) (t : Text) : Prop :=
  (type = (.rsa 3, SHA_DIGEST_LENGTH) ∧ matchFormat openForm s = some ([], t)) ∨
    ∃ version u, versionOf version = some type ∧ matchFormat versionForm s = some ([version], u) ∧
      matchFormat openForm u = some ([], t)

theorem versionOf_bounds {version : Int} {type : KeyType × Nat}
    (h : versionOf version = some type) : 2 ≤ version ∧ version ≤ 5 := by
  unfold versionOf at h
  split at h
  all_goals first
    | exact ⟨by decide, by decide⟩
    | cases h

theorem StartText.start {type : KeyType × Nat} (h : StartText s type t) : Start s type t := by
  rcases h with ⟨rfl, hopen⟩ | ⟨version, u, hversion, hnumber, hopen⟩
  · exact .first (openForm_iff.mp hopen).2
  · have hbounds := versionOf_bounds hversion
    have hint : toInt32 version = version := toInt32_of_lt (by omega) (by omega)
    refine .number hnumber (hint.symm ▸ hversion) ?_
    rw [runFormat_of_match hopen]

theorem startText_of_not_keyFlaw {type : KeyType × Nat} (h : Start s type t) (hflaw : ¬KeyFlaw s) :
    StartText s type t := by
  cases h with
  | first hbrace => exact .inl ⟨rfl, openForm_iff.mpr ⟨rfl, hbrace⟩⟩
  | @number version u _ _ hnumber hversion hrest =>
    have hbounds : 2 ≤ version ∧ version ≤ 5 := by
      by_contra hout
      exact hflaw (.version hnumber (by omega))
    have hint : toInt32 version = version := toInt32_of_lt (by omega) (by omega)
    rw [hint] at hversion
    cases hopen : matchFormat openForm u with
    | none => exact absurd (.brace hnumber hopen) hflaw
    | some p =>
      obtain ⟨vs, t'⟩ := p
      rw [runFormat_of_match hopen] at hrest
      cases (openForm_iff.mp hopen).1
      exact .inr ⟨version, u, hversion, hnumber, hrest ▸ hopen⟩
  | other hother hbrace hv => exact absurd (.start hother hbrace hv) hflaw

theorem Start.unique {type type' : KeyType × Nat} {t' : Text} (h : Start s type t)
    (h' : Start s type' t') : type' = type ∧ t' = t := by
  have heq := (start_iff.mp h').symm.trans (start_iff.mp h)
  cases heq
  exact ⟨rfl, rfl⟩

theorem RsaRead.unique {n n' : Int} {ws ws' : List Int} {t' : Text} (h : RsaRead s n ws t)
    (h' : RsaRead s n' ws' t') : n' = n ∧ ws' = ws ∧ t' = t := by
  obtain ⟨n0inv, hnumbers⟩ := h.numbers
  obtain ⟨n0inv', hnumbers'⟩ := h'.numbers
  obtain ⟨_, _, _, _, _, hhead, -⟩ := matchFormat_rsaNumbers.mp hnumbers
  obtain ⟨_, _, _, _, _, hhead', -⟩ := matchFormat_rsaNumbers.mp hnumbers'
  cases hhead.symm.trans hhead'
  cases hnumbers.symm.trans hnumbers'
  exact ⟨rfl, rfl, rfl⟩

theorem EcRead.unique {n n' : Int} {xs xs' ys ys' : List Int} {u u' t' : Text}
    (h : EcRead s n xs u ys t) (h' : EcRead s n' xs' u' ys' t') :
    n' = n ∧ xs' = xs ∧ u' = u ∧ ys' = ys ∧ t' = t := by
  cases h.first.symm.trans h'.first
  obtain ⟨v, hskip, hsecond⟩ := h.second
  obtain ⟨v', hskip', hsecond'⟩ := h'.second
  cases hskip.symm.trans hskip'
  cases hsecond.symm.trans hsecond'
  exact ⟨rfl, rfl, rfl, rfl, rfl⟩

theorem StartText.not_flaw {type : KeyType × Nat} (h : StartText s type t) :
    (∀ c u, s.dropWhile isSpace = c :: u → c = '{' ∨ c = 'v') ∧
      ∀ vs u, matchFormat versionForm s = some (vs, u) →
        (∀ version, vs = [version] → 2 ≤ version ∧ version ≤ 5) ∧
        matchFormat openForm u ≠ none := by
  rcases h with ⟨-, hopen⟩ | ⟨version, u, hversion, hnumber, hopen⟩
  · have hbrace := (openForm_iff.mp hopen).2
    refine ⟨fun c u hc => ?_, fun vs u hnumber => ?_⟩
    · rw [hbrace] at hc
      exact .inl (List.cons.inj hc).1.symm
    · obtain ⟨_, hv, -⟩ := versionForm_iff.mp hnumber
      rw [hbrace] at hv
      cases hv
  · obtain ⟨_, hv, -⟩ := versionForm_iff.mp hnumber
    refine ⟨fun c u hc => ?_, fun vs u' hnumber' => ?_⟩
    · rw [hv] at hc
      exact .inr (List.cons.inj hc).1.symm
    · cases hnumber.symm.trans hnumber'
      refine ⟨fun version' heq => ?_, by rw [hopen]; nofun⟩
      cases heq
      exact versionOf_bounds hversion

theorem not_keyFlaw_rsa {exponent hashLen : Nat} {s' : Text} {n : Int} {ws : List Int}
    (hstart : StartText s (.rsa exponent, hashLen) s') (hread : RsaRead s' n ws t) (hpos : 0 < n)
    (hle : n ≤ 8192 / 32) (hws : ∀ w ∈ ws, IsWord w) (hclose : matchFormat closeForm t ≠ none) :
    ¬KeyFlaw s := by
  intro hflaw
  cases hflaw with
  | start hother hbrace hv => exact (hstart.not_flaw.1 _ _ hother).elim hbrace hv
  | version hnumber hout =>
    have := (hstart.not_flaw.2 _ _ hnumber).1 _ rfl
    omega
  | brace hnumber hnone => exact (hstart.not_flaw.2 _ _ hnumber).2 hnone
  | length hstart' hread' hout =>
    obtain ⟨-, rfl⟩ := hstart.start.unique hstart'
    obtain ⟨rfl, -⟩ := hread.unique hread'
    omega
  | word hstart' hread' hout =>
    obtain ⟨-, rfl⟩ := hstart.start.unique hstart'
    obtain ⟨-, rfl, -⟩ := hread.unique hread'
    obtain ⟨w, hw, hout⟩ := hout
    exact hout (hws w hw)
  | close hstart' hread' hnone =>
    obtain ⟨-, rfl⟩ := hstart.start.unique hstart'
    obtain ⟨-, -, rfl⟩ := hread.unique hread'
    exact hclose hnone
  | ecLength hstart' => cases (hstart.start.unique hstart').1
  | byte hstart' => cases (hstart.start.unique hstart').1
  | ecMiddle hstart' => cases (hstart.start.unique hstart').1
  | ecClose hstart' => cases (hstart.start.unique hstart').1

theorem not_keyFlaw_ec {hashLen : Nat} {s' u : Text} {xs ys : List Int}
    (hstart : StartText s (.ec, hashLen) s') (hread : EcRead s' groupOrderBytes xs u ys t)
    (hbytes : ∀ b ∈ xs ++ ys, IsByte b)
    (hmiddle : matchFormat (parseFormat " \x7d".toList) u ≠ none)
    (hclose : matchFormat closeForm t ≠ none) : ¬KeyFlaw s := by
  intro hflaw
  cases hflaw with
  | start hother hbrace hv => exact (hstart.not_flaw.1 _ _ hother).elim hbrace hv
  | version hnumber hout =>
    have := (hstart.not_flaw.2 _ _ hnumber).1 _ rfl
    omega
  | brace hnumber hnone => exact (hstart.not_flaw.2 _ _ hnumber).2 hnone
  | length hstart' => cases (hstart.start.unique hstart').1
  | word hstart' => cases (hstart.start.unique hstart').1
  | close hstart' => cases (hstart.start.unique hstart').1
  | ecLength hstart' hread' hne =>
    obtain ⟨-, rfl⟩ := hstart.start.unique hstart'
    exact hne (hread.unique hread').1
  | byte hstart' hread' hout =>
    obtain ⟨-, rfl⟩ := hstart.start.unique hstart'
    obtain ⟨-, rfl, -, rfl, -⟩ := hread.unique hread'
    obtain ⟨b, hb, hout⟩ := hout
    exact hout (hbytes b hb)
  | ecMiddle hstart' hread' hnone =>
    obtain ⟨-, rfl⟩ := hstart.start.unique hstart'
    obtain ⟨-, -, rfl, -⟩ := hread.unique hread'
    exact hmiddle hnone
  | ecClose hstart' hread' hnone =>
    obtain ⟨-, rfl⟩ := hstart.start.unique hstart'
    obtain ⟨-, -, -, -, rfl⟩ := hread.unique hread'
    exact hclose hnone

theorem matchFormat_rsaForm {k : Nat} {vs : List Int} : matchFormat (rsaForm k) s = some (vs, t) ↔
    ∃ t', matchFormat (rsaNumbers k) s = some (vs, t') ∧ matchFormat closeForm t' =
    some ([], t) := by
  rw [rsaForm, matchFormat_append_eq_some]
  constructor
  · rintro ⟨us, ws, t', hnumbers, hclose, rfl⟩
    cases values_matchFormat (by decide) hclose
    exact ⟨t', by rw [List.append_nil]; exact hnumbers, hclose⟩
  · rintro ⟨t', hnumbers, hclose⟩
    exact ⟨vs, [], t', hnumbers, hclose, (List.append_nil vs).symm⟩

theorem matchFormat_ecForm {vs : List Int} : matchFormat ecForm s = some (vs, t) ↔
    ∃ us u v ys t', matchFormat ecNumbers s = some (us, u) ∧
      matchFormat (parseFormat " \x7d".toList) u = some ([], v) ∧
      matchFormat (listForm groupOrderBytes) v = some (ys, t') ∧ matchFormat closeForm t' =
      some ([], t) ∧ vs = us ++ ys := by
  simp only [ecForm, matchFormat_append_eq_some]
  constructor
  · rintro ⟨us, _, u, hfirst, ⟨_, _, v, hmiddle, ⟨ys, _, t', hys, hclose, rfl⟩, rfl⟩, rfl⟩
    cases values_matchFormat (by decide) hmiddle
    cases values_matchFormat (by decide) hclose
    exact ⟨us, u, v, ys, t', hfirst, hmiddle, hys, hclose, by simp⟩
  · rintro ⟨us, u, v, ys, t', hfirst, hmiddle, hys, hclose, rfl⟩
    exact ⟨us, ys, u, hfirst, ⟨[], ys, v, hmiddle, ⟨ys, [], t', hys, hclose, by simp⟩, rfl⟩, rfl⟩

theorem toUint32_natCast {k : Nat} (h : k < 2 ^ 32) : toUint32 k = k := by
  unfold toUint32
  omega

theorem skipFormat_close (h : matchFormat closeForm s = some ([], t)) :
    (skipFormat (parseFormat " \x7d".toList) s).bind (skipFormat (parseFormat " \x7d ".toList)) =
    some t := by
  have hform : closeForm = parseFormat " \x7d".toList ++ parseFormat " \x7d ".toList := rfl
  rw [hform] at h
  obtain ⟨us, ws, u, hfirst, hsecond, -⟩ := matchFormat_append_eq_some.mp h
  rw [skipFormat_of_match hfirst, Option.bind_some, skipFormat_of_match hsecond]

theorem rsa_of_text {exponent hashLen k : Nat} {s' : Text} {n0inv : Int} {ws : List Int}
    (hstart : StartText s (.rsa exponent, hashLen) s') (hpos : 0 < k) (hle : k ≤ 8192 / 32)
    (htext : matchFormat (rsaForm k) s' = some ((k : Int) :: n0inv :: ws, t))
    (hws : ∀ w ∈ ws, IsWord w) : KeyRead s ⟨hashLen, .rsa (modulus k ws) exponent⟩ t ∧
    ¬KeyFlaw s := by
  obtain ⟨t', hnumbers, hclose⟩ := matchFormat_rsaForm.mp htext
  have hk : toUint32 (k : Int) = k := toUint32_natCast (by omega)
  have hread : RsaRead s' k ws t' := ⟨⟨n0inv, by rw [hk]; exact hnumbers⟩, by rw [hk]; exact hle⟩
  constructor
  · have hkey := KeyRead.rsa hstart.start hread (skipFormat_of_match hclose)
    rwa [hk] at hkey
  · exact not_keyFlaw_rsa hstart hread (by omega) (by omega) hws (by rw [hclose]; nofun)

theorem startText_of_match {fmt : List Directive} {type : KeyType × Nat} {version : Int}
    {vs : List Int}
    (hversion : versionOf version = some type)
    (h : matchFormat (versionForm ++ (openForm ++ fmt)) s = some (version :: vs, t)) :
    ∃ s', StartText s type s' ∧ matchFormat fmt s' = some (vs, t) := by
  obtain ⟨us, _, u, hnumber, hrest, heq⟩ := matchFormat_append_eq_some.mp h
  obtain ⟨_, ws, s', hopen, hbody, rfl⟩ := matchFormat_append_eq_some.mp hrest
  obtain ⟨v, rfl⟩ := List.length_eq_one_iff.mp (length_of_matchFormat hnumber)
  cases values_matchFormat (by decide) hopen
  cases heq
  exact ⟨s', .inr ⟨version, u, hversion, hnumber, hopen⟩, hbody⟩

/-- The keys of the documented form are those that are read and have no flaw. -/
theorem keyText_iff {cert : LoadedKey} : KeyText s cert t ↔ KeyRead s cert t ∧ ¬KeyFlaw s := by
  constructor
  · intro h
    cases h with
    | first hpos hle htext hws =>
      obtain ⟨us, _, s', hopen, hform, heq⟩ := matchFormat_append_eq_some.mp htext
      cases values_matchFormat (by decide) hopen
      rw [List.nil_append] at heq
      subst heq
      exact rsa_of_text (.inl ⟨rfl, hopen⟩) hpos hle hform hws
    | @rsa version exponent hashLen k n0inv ws _ hversion hpos hle htext hws =>
      obtain ⟨s', hstart, hbody⟩ := startText_of_match hversion htext
      exact rsa_of_text hstart hpos hle hbody hws
    | @ec version hashLen xs ys _ hversion htext hxs hbytes hpoint =>
      obtain ⟨s', hstart, hbody⟩ := startText_of_match hversion htext
      obtain ⟨us, u, v, ys', t', hfirst, hmiddle, hys, hclose, heq⟩ := matchFormat_ecForm.mp hbody
      obtain ⟨head, xs', _, hhead, hxs', rfl⟩ := matchFormat_append_eq_some.mp hfirst
      obtain ⟨n, rfl⟩ := List.length_eq_one_iff.mp (length_of_matchFormat hhead)
      rw [List.singleton_append, List.cons_append, List.cons.injEq] at heq
      obtain ⟨rfl, heq⟩ := heq
      have hlen := length_of_matchFormat hxs'
      rw [conversions_listForm] at hlen
      obtain ⟨rfl, rfl⟩ := List.append_inj heq (hxs.trans hlen.symm)
      have hread : EcRead s' groupOrderBytes xs u ys t' :=
        ⟨hfirst, rfl, ⟨v, skipFormat_of_match hmiddle, hys⟩, hpoint⟩
      exact ⟨.ec hstart.start hread (skipFormat_close hclose),
        not_keyFlaw_ec hstart hread hbytes (by rw [hmiddle]; nofun) (by rw [hclose]; nofun)⟩
  · rintro ⟨hread, hflaw⟩
    cases hread with
    | @rsa exponent hashLen s' n ws t' _ hstart hread hskip =>
      have hpos : 1 ≤ n ∧ n ≤ 8192 / 32 := by
        by_contra hout
        exact hflaw (.length hstart hread (by omega))
      obtain ⟨k, rfl⟩ := Int.eq_ofNat_of_zero_le (by omega : 0 ≤ n)
      have hk : toUint32 (k : Int) = k := toUint32_natCast (by omega)
      have hws : ∀ w ∈ ws, IsWord w := by
        by_contra hout
        exact hflaw (.word hstart hread (by simpa using hout))
      cases hclose : matchFormat closeForm t' with
      | none => exact absurd (.close hstart hread hclose) hflaw
      | some p =>
        obtain ⟨vs, t''⟩ := p
        cases values_matchFormat (by decide) hclose
        cases (skipFormat_of_match hclose).symm.trans hskip
        obtain ⟨n0inv, hnumbers⟩ := hread.numbers
        rw [hk] at hnumbers ⊢
        have hbody := matchFormat_rsaForm.mpr ⟨t', hnumbers, hclose⟩
        rcases startText_of_not_keyFlaw hstart hflaw with ⟨htype, hopen⟩ | ⟨version, u, hversion,
          hnumber, hopen⟩
        · cases htype
          exact .first (by omega) (by omega)
            (matchFormat_append_eq_some.mpr ⟨[], _, s', hopen, hbody, rfl⟩) hws
        · refine .rsa hversion (by omega) (by omega)
            (matchFormat_append_eq_some.mpr ⟨[version], _, u, hnumber,
              matchFormat_append_eq_some.mpr ⟨[], _, s', hopen, hbody, rfl⟩, rfl⟩) hws
    | @ec hashLen s' n xs u ys t' _ hstart hread hskip =>
      have hn : n = groupOrderBytes := by
        by_contra hne
        exact hflaw (.ecLength hstart hread hne)
      subst hn
      have hbytes : ∀ b ∈ xs ++ ys, IsByte b := by
        by_contra hout
        exact hflaw (.byte hstart hread (by simpa using hout))
      obtain ⟨v, hv, hys⟩ := hread.second
      have hxs : xs.length = groupOrderBytes := by
        have hlen := length_of_matchFormat hread.first
        have hcount : conversions ecNumbers = 33 := by decide
        rw [List.length_cons, hcount] at hlen
        exact Nat.succ.inj hlen
      cases hmiddle : matchFormat (parseFormat " \x7d".toList) u with
      | none => exact absurd (.ecMiddle hstart hread hmiddle) hflaw
      | some p =>
        obtain ⟨vs, v'⟩ := p
        cases values_matchFormat (by decide) hmiddle
        cases (skipFormat_of_match hmiddle).symm.trans hv
        cases hclose : matchFormat closeForm t' with
        | none => exact absurd (.ecClose hstart hread hclose) hflaw
        | some q =>
          obtain ⟨vs, t''⟩ := q
          cases values_matchFormat (by decide) hclose
          cases (skipFormat_close hclose).symm.trans hskip
          have hbody :=
            matchFormat_ecForm.mpr ⟨_, u, _, ys, t', hread.first, hmiddle, hys, hclose, rfl⟩
          rcases startText_of_not_keyFlaw hstart hflaw with ⟨htype, -⟩ | ⟨version, w, hversion,
            hnumber, hopen⟩
          · cases htype
          · exact .ec hversion (matchFormat_append_eq_some.mpr ⟨[version], _, w, hnumber,
              matchFormat_append_eq_some.mpr ⟨[], _, s', hopen, hbody, rfl⟩, rfl⟩) hxs hbytes
              hread.point

/-! ## Files -/

theorem KeyRead.unique {cert cert' : LoadedKey} {t' : Text} (h : KeyRead s cert t)
    (h' : KeyRead s cert' t') : cert' = cert ∧ t' = t := by
  obtain ⟨type, u, hversion, hkey⟩ := keyRead_iff.mp h
  obtain ⟨type', u', hversion', hkey'⟩ := keyRead_iff.mp h'
  obtain ⟨hashLen, key⟩ := cert
  obtain ⟨hashLen', key'⟩ := cert'
  cases hversion.symm.trans hversion'
  cases hkey.symm.trans hkey'
  exact ⟨rfl, rfl⟩

theorem KeyRead.length_le {cert : LoadedKey} (h : KeyRead s cert t) : t.length ≤ s.length := by
  have hstart {type : KeyType × Nat} {u : Text} (h : Start s type u) : u.length ≤ s.length := by
    have hdrop := List.length_dropWhile_le isSpace s
    cases h with
    | first hbrace =>
      rw [hbrace] at hdrop
      exact Nat.le_of_succ_le hdrop
    | number hnumber _ hrest =>
      rw [← hrest]
      exact (length_rest_runFormat _ _ _).trans (length_matchFormat hnumber)
    | other hother =>
      rw [hother] at hdrop
      exact Nat.le_of_succ_le hdrop
  cases h with
  | rsa hs hread hskip =>
    obtain ⟨_, hnumbers⟩ := hread.numbers
    exact (length_skipFormat hskip).trans ((length_matchFormat hnumbers).trans (hstart hs))
  | ec hs hread hskip =>
    obtain ⟨v, hv, hsecond⟩ := hread.second
    obtain ⟨w, hw, hskip⟩ := Option.bind_eq_some_iff.mp hskip
    have hlast :=
      (length_skipFormat hskip).trans ((length_skipFormat hw).trans (length_matchFormat hsecond))
    exact hlast.trans
      ((length_skipFormat hv).trans ((length_matchFormat hread.first).trans (hstart hs)))

theorem KeyList.fileRead {file : Text} {certs : List LoadedKey} (h : KeyList file certs) :
    FileRead file certs := by
  induction h with
  | last hkey => exact .last (keyText_iff.mp hkey).1
  | more hkey _ ih => exact .more (keyText_iff.mp hkey).1 ih

theorem Flawed.fileRead {file : Text} (h : Flawed file) : ∃ certs, FileRead file certs := by
  induction h with
  | last hkey => exact ⟨_, .last hkey⟩
  | here hkey hfile => exact ⟨_, .more hkey hfile⟩
  | later hkey _ ih =>
    obtain ⟨certs, hfile⟩ := ih
    exact ⟨_, .more hkey hfile⟩

theorem FileRead.unique {file : Text} {certs certs' : List LoadedKey} (h : FileRead file certs)
    (h' : FileRead file certs') : certs' = certs := by
  induction h generalizing certs' with
  | last hkey =>
    cases h' with
    | last hkey' => rw [(hkey.unique hkey').1]
    | more hkey' => cases (hkey.unique hkey').2
  | more hkey _ ih =>
    cases h' with
    | last hkey' => cases (hkey.unique hkey').2
    | more hkey' hfile' =>
      obtain ⟨rfl, heq⟩ := hkey.unique hkey'
      cases heq
      rw [ih hfile']

/-- A file that is read has the documented form unless one of its keys has a flaw. -/
theorem FileRead.keyList_iff {file : Text} {certs : List LoadedKey} (h : FileRead file certs) :
    KeyList file certs ↔ ¬Flawed file := by
  induction h with
  | @last s cert hkey =>
    constructor
    · rintro hlist hflawed
      have hclean : ¬KeyFlaw s := by
        cases hlist with
        | last htext => exact (keyText_iff.mp htext).2
        | more htext => exact (keyText_iff.mp htext).2
      cases hflawed with
      | last _ hflaw => exact hclean hflaw
      | here _ _ hflaw => exact hclean hflaw
      | later hkey' => cases (hkey.unique hkey').2
    · intro hclean
      exact .last (keyText_iff.mpr ⟨hkey, fun hflaw => hclean (.last hkey hflaw)⟩)
  | @more s cert t certs hkey hfile ih =>
    constructor
    · rintro hlist hflawed
      cases hlist with
      | last htext => cases hfile
      | more htext hrest =>
        have hnext := keyText_iff.mp htext
        obtain ⟨-, heq⟩ := hkey.unique hnext.1
        cases heq
        cases hflawed with
        | last hkey' => cases (hkey.unique hkey').2
        | here _ _ hflaw => exact hnext.2 hflaw
        | later hkey' hflawed =>
          obtain ⟨-, heq⟩ := hkey.unique hkey'
          cases heq
          exact ih.mp hrest hflawed
    · intro hclean
      exact .more (keyText_iff.mpr ⟨hkey, fun hflaw => hclean (.here hkey hfile hflaw)⟩)
        (ih.mpr fun hflawed => hclean (.later hkey hflawed))

theorem Mem.parseKey_eq (type : KeyType) (s : Text) :
    (∃ exponent, type = .rsa exponent ∧ ZeroFirst s ∧ Mem.parseKey type s = .outOfBounds) ∨
      ((∀ exponent, type = .rsa exponent → ¬ZeroFirst s) ∧
        Mem.parseKey type s = .ofOption (KeyFile.parseKey type s)) := by
  cases type with
  | rsa exponent =>
    rcases Mem.parseRsaKey_eq s exponent with ⟨hzero, hrun⟩ | ⟨hzero, hrun⟩
    · exact .inl ⟨exponent, rfl, hzero, hrun⟩
    · exact .inr ⟨fun _ _ => hzero, hrun⟩
  | ec => exact .inr ⟨by simp, Mem.parseEcKey_eq s⟩

/-- A run that stays within its arrays is that of the function without them. -/
theorem Mem.loadLoop_eq {fuel : Nat} {certs : List LoadedKey}
    (h : Mem.loadLoop fuel s certs ≠ .outOfBounds) :
    Mem.loadLoop fuel s certs = .ofOption (KeyFile.loadLoop fuel s certs) := by
  induction fuel generalizing s certs with
  | zero => rfl
  | succ fuel ih =>
    rw [Mem.loadLoop] at h ⊢
    rw [KeyFile.loadLoop]
    cases hversion : readVersion s with
    | none => rfl
    | some p =>
      obtain ⟨⟨type, hashLen⟩, s'⟩ := p
      simp only [hversion, Run.some_bind] at h
      simp only [Run.some_bind, Option.bind_eq_bind, Option.bind_some]
      rcases Mem.parseKey_eq type s' with ⟨-, -, -, hrun⟩ | ⟨-, hrun⟩
      · rw [hrun] at h
        exact absurd rfl h
      · rw [hrun] at h ⊢
        cases hkey : KeyFile.parseKey type s' with
        | none => rfl
        | some q =>
          obtain ⟨key, t⟩ := q
          simp only [hkey, Run.some_bind] at h
          simp only [Run.some_bind, Option.bind_some]
          cases t with
          | nil => rfl
          | cons c u =>
            by_cases hc : c = ','
            · subst hc
              exact ih h
            · simp [hc, Run.ofOption]

theorem Mem.loadKeys_eq {file : Text} (h : Mem.loadKeys file ≠ .outOfBounds) :
    Mem.loadKeys file = .ofOption (KeyFile.loadKeys file) :=
  Mem.loadLoop_eq h

/-- What the loop does with a text: it leaves an array, or reads all keys, or fails. -/
theorem Mem.loadLoop_cases {fuel : Nat} (hfuel : s.length < fuel) (certs : List LoadedKey) :
    (ZeroLength s ∧ Mem.loadLoop fuel s certs = .outOfBounds) ∨
      (¬ZeroLength s ∧
        ((∃ keys, FileRead s keys ∧ Mem.loadLoop fuel s certs = .done (certs ++ keys)) ∨
        ((¬∃ keys, FileRead s keys) ∧ Mem.loadLoop fuel s certs = .failed))) := by
  induction fuel generalizing s certs with
  | zero => cases hfuel
  | succ fuel ih =>
    rw [Mem.loadLoop]
    -- the loop fails in this round
    have hfailed (hno : ∀ cert t, KeyRead s cert t → t ≠ [] ∧ t.head? ≠ some ',')
        (hzero : ∀ exponent hashLen t, Start s (.rsa exponent, hashLen) t → ¬ZeroFirst t) :
        ¬ZeroLength s ∧ ¬∃ keys, FileRead s keys := by
      constructor
      · intro h
        cases h with
        | here hstart hfirst => exact hzero _ _ _ hstart hfirst
        | later hkey => exact (hno _ _ hkey).2 rfl
      · rintro ⟨keys, h⟩
        cases h with
        | last hkey => exact (hno _ _ hkey).1 rfl
        | more hkey => exact (hno _ _ hkey).2 rfl
    cases hversion : readVersion s with
    | none =>
      obtain ⟨hzero, hfile⟩ := hfailed
        (fun cert t hkey => by
          obtain ⟨type, u, h, -⟩ := keyRead_iff.mp hkey
          rw [hversion] at h
          cases h)
        (fun exponent hashLen t hstart => by
          have h := start_iff.mp hstart
          rw [hversion] at h
          cases h)
      exact .inr ⟨hzero, .inr ⟨hfile, rfl⟩⟩
    | some p =>
      obtain ⟨⟨type, hashLen⟩, s'⟩ := p
      have hstart : Start s (type, hashLen) s' := start_iff.mpr hversion
      simp only [Run.some_bind]
      rcases Mem.parseKey_eq type s' with ⟨exponent, rfl, hfirst, hrun⟩ | ⟨hfirst, hrun⟩
      · rw [hrun]
        exact .inl ⟨.here hstart hfirst, rfl⟩
      · have hzero : ∀ exponent hashLen t, Start s (.rsa exponent, hashLen) t → ¬ZeroFirst t := by
          intro exponent hashLen t hstart'
          obtain ⟨heq, rfl⟩ := hstart.unique hstart'
          exact hfirst exponent (Prod.mk.inj heq).1.symm
        rw [hrun]
        cases hkey : KeyFile.parseKey type s' with
        | none =>
          obtain ⟨hzero, hfile⟩ := hfailed (fun cert t hread => by
            obtain ⟨type', u, h, hsome⟩ := keyRead_iff.mp hread
            cases hversion.symm.trans h
            rw [hkey] at hsome
            cases hsome) hzero
          exact .inr ⟨hzero, .inr ⟨hfile, rfl⟩⟩
        | some q =>
          obtain ⟨key, t⟩ := q
          have hread : KeyRead s ⟨hashLen, key⟩ t := keyRead_iff.mpr ⟨type, s', hversion, hkey⟩
          have hlength := hread.length_le
          simp only [Run.some_bind]
          split
          · rename_i u
            rw [List.length_cons] at hlength
            have hlater : ZeroLength s → ZeroLength u := by
              intro h
              cases h with
              | here hstart hfirst => exact absurd hfirst (hzero _ _ _ hstart)
              | later hkey' hzero' =>
                cases (hread.unique hkey').2
                exact hzero'
            have hmore : ∀ {keys}, FileRead s keys → ∃ rest, keys = ⟨hashLen, key⟩ :: rest ∧
                FileRead u rest := by
              intro keys h
              cases h with
              | last hkey' => cases (hread.unique hkey').2
              | more hkey' hrest =>
                obtain ⟨rfl, heq⟩ := hread.unique hkey'
                cases heq
                exact ⟨_, rfl, hrest⟩
            rcases ih (s := u) (by omega) (certs ++ [⟨hashLen, key⟩]) with
              ⟨hz, hrun⟩ | ⟨hz, ⟨keys, hfile, hrun⟩ | ⟨hnone, hrun⟩⟩
            · exact .inl ⟨.later hread hz, hrun⟩
            · refine .inr ⟨fun h => hz (hlater h), .inl ⟨_, .more hread hfile, ?_⟩⟩
              rw [hrun, List.append_assoc]
              rfl
            · refine .inr ⟨fun h => hz (hlater h), .inr ⟨?_, hrun⟩⟩
              rintro ⟨keys, h⟩
              obtain ⟨rest, -, hrest⟩ := hmore h
              exact hnone ⟨rest, hrest⟩
          · refine .inr ⟨?_, .inl ⟨_, .last hread, rfl⟩⟩
            intro h
            cases h with
            | here hstart hfirst => exact hzero _ _ _ hstart hfirst
            | later hkey' => cases (hread.unique hkey').2
          · rename_i hcomma hempty
            obtain ⟨hzero, hfile⟩ := hfailed (fun cert t' hkey' => by
              obtain ⟨-, rfl⟩ := hread.unique hkey'
              refine ⟨hempty, fun hhead => ?_⟩
              obtain ⟨u, rfl⟩ := List.head?_eq_some_iff.mp hhead
              exact hcomma u rfl) hzero
            exact .inr ⟨hzero, .inr ⟨hfile, rfl⟩⟩

/-- `load_keys` writes only inside its arrays and returns true only for files of the documented
form, exactly if no key that is reached has the length zero and its first word, and the file is not
one that is read although a key has a flaw. -/
theorem loadKeys_sound_iff (file : Text) :
    (Mem.loadKeys file ≠ .outOfBounds ∧ ∀ certs, Mem.loadKeys file = .done certs →
      KeyList file certs) ↔ ¬ZeroLength file ∧ ¬Flawed file := by
  unfold Mem.loadKeys
  rcases @Mem.loadLoop_cases file (file.length + 1) (Nat.lt_succ_self _) [] with
    ⟨hzero, hrun⟩ | ⟨hzero, ⟨keys, hfile, hrun⟩ | ⟨hnone, hrun⟩⟩
  · rw [hrun]
    exact iff_of_false (fun h => h.1 rfl) fun h => h.1 hzero
  · rw [hrun, List.nil_append]
    constructor
    · intro h
      exact ⟨hzero, hfile.keyList_iff.mp (h.2 keys rfl)⟩
    · rintro ⟨-, hclean⟩
      refine ⟨nofun, fun certs heq => ?_⟩
      cases heq
      exact hfile.keyList_iff.mpr hclean
  · rw [hrun]
    refine iff_of_true ⟨nofun, nofun⟩ ⟨hzero, fun hflawed => hnone ?_⟩
    exact hflawed.fileRead

/-- A length of zero: a word is written behind the array. A key without a brace and without a
version is read. -/
theorem not_loadKeys_sound :
    Mem.loadKeys "\x7b0,0x1,\x7b5\x7d,\x7b5\x7d\x7d".toList = .outOfBounds ∧
      Mem.loadKeys "x1,0x1,\x7b5\x7d,\x7b5\x7d\x7d".toList = .done [⟨0, .rsa 5 0⟩] ∧
      ¬KeyList "x1,0x1,\x7b5\x7d,\x7b5\x7d\x7d".toList [⟨0, .rsa 5 0⟩] := by
  refine ⟨by decide +kernel, by decide +kernel, fun h => ?_⟩
  have hclean : ¬KeyFlaw "x1,0x1,\x7b5\x7d,\x7b5\x7d\x7d".toList := by
    cases h with
    | last htext => exact (keyText_iff.mp htext).2
    | more htext => exact (keyText_iff.mp htext).2
  exact hclean (.start rfl (by decide) (by decide))

end

end BootableRecovery.KeyFile
