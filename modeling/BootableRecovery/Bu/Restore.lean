import BootableRecovery.BootloaderMessage.Message
import BootableRecovery.Verifier.VerifyFile

/-!
# Backup and restore

`bu` writes partitions as a tar stream and reads them back: `do_backup` and `do_restore`, with the
callbacks of `bu.cpp` through which libtar does its input and output, and which hash what passes
through them as long as `hash_name` is set. The stream is the sequence of its 512-byte blocks, as
the callbacks see it (after `gzread`, if it is compressed). libtar and the hash functions are
parameters. The display of the progress is left out.
-/

namespace BootableRecovery.Bu

/-- A block of a tar stream. -/
abbrev Block := List.Vector UInt8 512

def bytesOf (blocks : List Block) : List UInt8 := blocks.flatMap List.Vector.toList

/-! ## libtar and the hash functions -/

/-- The results 0, 1 and those below 0 of `th_read`. -/
inductive ThRead (Header : Type)
  | entry (h : Header)
  | eof
  | error

/-- What `bu` uses of libtar. A function that reads gets the blocks that the stream still has and
says how many of them it reads. -/
structure Libtar where
  Header : Type
  thRead : List Block → Nat × ThRead Header
  /-- `th_get_pathname` -/
  pathname : Header → Text
  /-- `tar_extract_file_contents`: the string that is then in the buffer. -/
  extractFileContents : Header → List Block → Nat × Option Text
  /-- `tar_extract_file` to a device -/
  extractFile : Header → Text → List Block → Nat × Int
  /-- `tar_append_file_contents` -/
  appendFileContents : (savename contents : Text) → List Block
  /-- `th_write` and `tar_append_regfile` for the contents of a device -/
  appendDeviceContents : (savename : Text) → (contents : List UInt8) → List Block
  /-- `tar_append_eof` -/
  appendEof : List Block

/-- SHA-1 and MD5. -/
structure Hashes where
  sha1 : HashApi
  md5 : HashApi
  length_sha1 : ∀ m, (sha1.digest m).length = 20
  length_md5 : ∀ m, (md5.digest m).length = 16

/-- The two ways in which a hash name is understood. -/
inductive HashKind
  | sha1
  | md5
  deriving DecidableEq

/-- `!strcasecmp(hash_name, "sha1")`; everything else is MD5. -/
def kindOf (hashName : Text) : HashKind :=
  if hashName.map Char.toLower = "sha1".toList then .sha1 else .md5

def Hashes.digest (hashes : Hashes) : HashKind → List UInt8 → List UInt8
  | .sha1 => hashes.sha1.digest
  | .md5 => hashes.md5.digest

/-- `%02x` for each byte. -/
def hexdigest (digest : List UInt8) : Text :=
  digest.flatMap fun b => [(b.toNat / 16).digitChar, (b.toNat % 16).digitChar]

def MAX_PART : Nat := 8

def PROPERTY_KEY_MAX : Nat := 32

def PROPERTY_VALUE_MAX : Nat := 92

def PROP_LINE_LEN : Nat := PROPERTY_KEY_MAX + 1 + PROPERTY_VALUE_MAX + 1 + 1

/-- The device: its volumes with their block devices, what these hold, and `ro.product.device`,
which as a property is a line of less than `PROPERTY_VALUE_MAX` characters. -/
structure Device where
  volumeForMountPoint : Text → Option Text
  contents : Text → List UInt8
  product : Text
  product_lt : product.length < PROPERTY_VALUE_MAX
  newline_notMem_product : '\n' ∉ product

/-! ## Hashing in the callbacks -/

variable {hashes : Hashes}

/-- The globals `hash_name`, `hash_datalen`, `sha_ctx` and `md5_ctx`. -/
structure HashState (hashes : Hashes) where
  hashName : Option Text
  hashDatalen : Nat
  shaCtx : hashes.sha1.Ctx
  md5Ctx : hashes.md5.Ctx

/-- What `create_tar` leaves. -/
def HashState.created : HashState hashes where
  hashName := none
  hashDatalen := 0
  shaCtx := hashes.sha1.init
  md5Ctx := hashes.md5.init

/-- The part of the callbacks that `tar_cb_read` and `tar_cb_write` have in common. -/
def HashState.hash (s : HashState hashes) (buf : List UInt8) : HashState hashes :=
  if s.hashName.isSome then { s with
    shaCtx := hashes.sha1.update s.shaCtx buf
    md5Ctx := hashes.md5.update s.md5Ctx buf
    hashDatalen := (s.hashDatalen + buf.length) % 2 ^ 64 }
  else s

/-- `tar_cb_read` (and `tar_gz_cb_read`) for a block. -/
def tarCbRead (s : HashState hashes) (block : Block) : HashState hashes := s.hash block.toList

/-- `tar_cb_write` (and `tar_gz_cb_write`) for a block. -/
def tarCbWrite (s : HashState hashes) (block : Block) : HashState hashes := s.hash block.toList

/-- The digest that `SHA1_Final` or `MD5_Final` makes. -/
def HashState.final (s : HashState hashes) : HashKind → List UInt8
  | .sha1 => hashes.sha1.final s.shaCtx
  | .md5 => hashes.md5.final s.md5Ctx

/-! ## Partitions -/

def HASH_MAX_STRING_LENGTH : Nat := 41

/-- `part_add`: whether it succeeds, and the list of partitions then. -/
def partAdd (dev : Device) (parts : List Text) (name : Text) : Bool × List Text :=
  if (dev.volumeForMountPoint name).isNone then (false, parts)
  else if name ∈ parts then (false, parts)
  else if MAX_PART ≤ parts.length then (false, parts)
  else (true, parts ++ [name])

/-! ## Lines of the SOD and EOD entries -/

/-- The lines with `=` of a text, each as its key and value. -/
def fields (text : Text) : List (Text × Text) :=
  ((text.splitOn '\n').dropLast.filter ('=' ∈ ·)).map fun line =>
    (line.takeWhile (· ≠ '='), (line.dropWhile (· ≠ '=')).tail)

/-- The variables of `verify_sod`. -/
structure Sod where
  hashname : Text
  product : Text
  parts : List Text

/-- One line of the SOD. A size for a partition that is not in the list ends the process: `part` is
then the null pointer. -/
def verifySodLine (dev : Device) (s : Sod) (field : Text × Text) : Option Sod :=
  let (key, val) := field
  let s := if key = "hash.name".toList then { s with hashname := val.take PROPERTY_VALUE_MAX }
    else s
  let s := if key = "ro.product.device".toList
    then { s with product := val.take PROPERTY_VALUE_MAX } else s
  if "fs.".toList <+: key ∧ '.' ∈ key.drop 3 then
    let name := (key.drop 3).takeWhile (· ≠ '.')
    let attr := ((key.drop 3).dropWhile (· ≠ '.')).tail
    let parts := (partAdd dev s.parts name).2
    if (attr = "size".toList ∨ attr = "used".toList) ∧ name ∉ parts then none
    else some { s with parts }
  else some s

/-- `verify_sod`: the new `hash_name` and the partitions, the inner `none` for the result -1. -/
def verifySod (dev : Device) (parts : List Text) (sodbuf : Text) :
    Option (Option (Text × List Text)) := do
  let s ← (fields sodbuf).foldlM (verifySodLine dev) { hashname := [], product := [], parts }
  if s.hashname = [] ∨ s.product = [] ∨ s.product ≠ dev.product then return none
  return some (s.hashname, s.parts)

/-- `strtoul(val, NULL, 0)`. -/
def strtoul (val : Text) : Nat :=
  let (negative, s) := signOf (val.dropWhile isSpace)
  let (base, s) := strtoulBase s
  let n := ((s.takeWhile fun c => (digitValue base c).isSome).filterMap (digitValue base)).foldl
    (fun n d => n * base + d) 0
  if 2 ^ 64 ≤ n then 2 ^ 64 - 1 else if negative then (2 ^ 64 - n) % 2 ^ 64 else n

/-- The value of the last line with a key. -/
def lastValue (key text : Text) : Option Text :=
  ((fields text).filter (·.1 = key)).getLast?.map Prod.snd

/-- `hash.datalen` of an EOD. -/
def reportedDatalen (eodbuf : Text) : Nat :=
  ((lastValue "hash.datalen".toList eodbuf).map strtoul).getD 0

/-- `hash.value` of an EOD. -/
def hashValue (eodbuf : Text) : Text := (lastValue "hash.value".toList eodbuf).getD []

/-- `verify_eod`: whether the result is 0. -/
def verifyEod (save : HashState hashes) (eodbuf : Text) : Bool :=
  let reportedHash := (hashValue eodbuf).take HASH_MAX_STRING_LENGTH
  let kind := (save.hashName.map kindOf).getD .md5
  reportedDatalen eodbuf = save.hashDatalen ∧ hexdigest (save.final kind) <+: reportedHash

/-! ## `do_restore` -/

variable (lib : Libtar) (dev : Device)

/-- The loop over the entries: the result of `do_restore`, or `none` if the process dies. -/
def restoreLoop : (fuel : Nat) → HashState hashes → (parts : List Text) → List Block → Option Int
  | 0, _, _, _ => none
  | fuel + 1, save, parts, blocks =>
    let (n, header) := lib.thRead blocks
    let s := (blocks.take n).foldl tarCbRead save
    let blocks := blocks.drop n
    match header with
    | .eof => some 0
    | .error => some (-1)
    | .entry h =>
      if lib.pathname h = "SOD".toList then
        let (n, sodbuf) := lib.extractFileContents h blocks
        let s := (blocks.take n).foldl tarCbRead s
        match sodbuf with
        | none => some (-1)
        | some sodbuf =>
          match verifySod dev parts sodbuf with
          | none => none
          | some none => some (-1)
          | some (some (hashName, parts)) =>
            restoreLoop fuel { s with hashName := some hashName } parts (blocks.drop n)
      else if lib.pathname h = "EOD".toList then
        let (n, eodbuf) := lib.extractFileContents h blocks
        let s := (blocks.take n).foldl tarCbRead s
        match eodbuf with
        | none => some (-1)
        | some eodbuf =>
          if verifyEod save eodbuf then restoreLoop fuel s parts (blocks.drop n) else some (-1)
      else
        match dev.volumeForMountPoint (lib.pathname h) with
        | none => restoreLoop fuel s parts blocks
        | some blkDevice =>
          -- `part_set` of a partition that `part_find` does not find
          if lib.pathname h ∉ parts then none
          else
            let (n, rc) := lib.extractFile h blkDevice blocks
            let s := (blocks.take n).foldl tarCbRead s
            if rc = 0 then restoreLoop fuel s parts (blocks.drop n) else some rc

/-- The input of `do_restore`: the number of bytes that `recv` with `MSG_PEEK` returns, and the
blocks that the callback chosen after it delivers. -/
structure Stream where
  peeked : Option Nat
  blocks : List Block

/-- A line of the SOD or EOD. -/
def line (key value : Text) : Text := key ++ '=' :: (value ++ ['\n'])

/-- The text of the SOD: the partitions with the sizes of their devices. -/
def sodText (optHash : Text) (parts : List Text) : Text :=
  line "hash.name".toList optHash ++ (line "ro.product.device".toList dev.product ++
    parts.flatMap fun part =>
      let size :=
        toText (((dev.volumeForMountPoint part).map fun d => (dev.contents d).length).getD 0)
      line ("fs.".toList ++ part ++ ".size".toList) size ++
        line ("fs.".toList ++ part ++ ".used".toList) size)

/-- The text of the EOD. -/
def eodText (optHash : Text) (s : HashState hashes) : Text :=
  line "hash.datalen".toList (toText s.hashDatalen) ++
    line "hash.value".toList (hexdigest (s.final (kindOf optHash)))

/-- The names on the command line, all of which have to be accepted by `part_add`. -/
def partsOf : (names parts : List Text) → Option (List Text)
  | [], parts => some parts
  | name :: names, parts =>
    let name := if name.head? = some '-' then name.tail else name
    if (partAdd dev parts name).1 then partsOf names (partAdd dev parts name).2 else none

/-- The blocks of a partition. -/
def partBlocks (part : Text) : List Block :=
  lib.appendDeviceContents part (((dev.volumeForMountPoint part).map dev.contents).getD [])

/-- The buffers `value` and `sodbuf` of `append_sod` have room for the hash option and for the SOD,
each with its NUL. -/
def SodFits (optHash text : Text) : Prop :=
  optHash.length < PROPERTY_VALUE_MAX ∧ text.length < PROP_LINE_LEN * 10

instance (optHash text : Text) : Decidable (SodFits optHash text) :=
  inferInstanceAs (Decidable (_ ∧ _))

end BootableRecovery.Bu
