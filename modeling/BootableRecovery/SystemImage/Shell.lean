import BootableRecovery.LibBase.Strings
import BootableRecovery.Theory.FileTree

/-!
# The shell

What the shell does with a line that it reads and with a word that it expands, and the programs that
the script `system-image-upgrader` runs: gpg, xzcat and tar, and those that change the file system
in ways of their own. Files have no links and no owners.
-/

namespace BootableRecovery.SystemImage

abbrev Bytes := List UInt8

abbrev Path := List Text

abbrev Fs := FileTree Text Bytes

/-! ## Files -/

/-- The path of a text, from a working directory. -/
def resolve (cwd : Path) (p : Text) : Path :=
  (p.splitOn '/').foldl
    (fun acc c =>
      if c = [] ∨ c = ".".toList then acc
      else if c = "..".toList then acc.dropLast
      else acc ++ [c])
    (if p.head? = some '/' then [] else cwd)

/-- `[ -e p ]`. -/
def isPresent (fs : Fs) (cwd : Path) (p : Text) : Bool := (fs (resolve cwd p)).isSome

/-- `[ -e p/ ]`. -/
def isDir (fs : Fs) (p : Text) : Bool := fs (resolve [] p) = some .dir

/-- The content of a regular file. -/
def contentOf (fs : Fs) (cwd : Path) (p : Text) : Option Bytes := fs.content (resolve cwd p)

def textOf (bytes : Bytes) : Text := bytes.map fun b => Char.ofNat b.toNat

def bytesOf (text : Text) : Bytes := text.map fun c => UInt8.ofNat c.toNat

/-- `rm -f`, which fails for a directory. -/
def rmFile (p : Path) (fs : Fs) : Option Fs := if fs p = some .dir then none else some (fs.rm p)

/-- `mkdir -p`. -/
def mkdirs (p : Path) (fs : Fs) : Option Fs :=
  if (fs.content p).isSome || fs.blocked p .dir then none else some (fs.add p .dir)

/-- A redirection to a file. -/
def writeFile (p : Path) (text : Text) (fs : Fs) : Option Fs :=
  if fs p = some .dir ∨ fs p.dropLast ≠ some .dir then none
  else some (fs.put p (.file (bytesOf text)))

def touch (p : Path) (fs : Fs) : Option Fs :=
  if (fs p).isSome then some fs else writeFile p [] fs

/-! ## Lines and words -/

/-- The lines that `while read line` sees, without a last line that does not end. A backslash is
taken away, and a newline behind it. -/
def readLinesFrom (line : Text) : Text → List Text
  | [] => []
  | '\\' :: '\n' :: rest => readLinesFrom line rest
  | '\\' :: c :: rest => readLinesFrom (line ++ [c]) rest
  | '\n' :: rest => line :: readLinesFrom [] rest
  | c :: rest => readLinesFrom (line ++ [c]) rest

def readLines (text : Text) : List Text := readLinesFrom [] text

/-- The lines that `grep` sees. -/
def grepLines (text : Text) : List Text :=
  let lines := text.splitOn '\n'
  if lines.getLast? = some [] then lines.dropLast else lines

/-- The value of `$(...)` for lines. -/
def substitution (lines : List Text) : Text := (['\n'].intercalate lines).rdropWhile (· = '\n')

def isBlank (c : Char) : Bool := c = ' ' || c = '\t' || c = '\n'

/-- The characters that make a word a pattern. -/
def isPattern (c : Char) : Bool := c = '*' || c = '?' || c = '['

/-- The characters that mean more to the shell than themselves, in a word. -/
def isSpecial (c : Char) : Bool := isBlank c || isPattern c || c ∈ "|&;<>()$`\\\"'".toList

/-- A word that the shell leaves as it is when it expands it again. -/
def IsWord (w : Text) : Prop := ∀ c ∈ w, isBlank c = false ∧ isPattern c = false

instance : Decidable (IsWord w) := inferInstanceAs (Decidable (∀ c ∈ w, _))

/-! ## Programs outside the script -/

/-- What gpg knows of a signature file: the document in a signed message, which a detached signature
does not have, and whether it accepts the signature of a document with the keys of a keyring. -/
structure Gpg where
  embedded : Bytes → Option Bytes
  accepts : (pubring signature document : Bytes) → Bool

/-- The programs that the script runs. -/
structure Tools where
  gpg : Gpg
  /-- `xzcat | tar -t`: the entries, and whether the archive ends without an error -/
  entries : Bytes → List (Path × Node Bytes) × Bool
  /-- `date +%s` -/
  now : Int
  /-- The names that a pattern matches, from a working directory. -/
  names : Fs → (cwd : Path) → (pattern : Text) → List Text
  /-- `mkfs.ext4`, `e2fsck`, `mount`, `umount`, `rmdir` and `chroot`: the exit status, and the files
  after it -/
  program : (argv : List Text) → Fs → Nat × Fs

/-- The file that belongs to a detached signature. -/
def dataFile (path : Text) : Option Text :=
  [".asc", ".sig", ".sign"].findSome? fun suffix =>
    if suffix.toList <:+ path then some (path.take (path.length - suffix.length)) else none

/-- The document that gpg checks a signature file against: of the names behind it, if there are
any. -/
def Gpg.document (gpg : Gpg) (fs : Fs) (cwd : Path) : List Text → Option Bytes
  | [] => none
  | [path] => (contentOf fs cwd path).bind fun signature =>
    match gpg.embedded signature with
    | some document => some document
    | none => (dataFile path).bind (contentOf fs cwd)
  | _ :: names => (names.mapM (contentOf fs cwd)).map List.flatten

/-- `gpg --verify`: the document, if the signature is accepted. -/
def Gpg.verify (gpg : Gpg) (fs : Fs) (cwd : Path) (gnupghome : Text) (names : List Text) :
    Option Bytes :=
  (contentOf fs [] (gnupghome ++ "pubring.gpg".toList)).bind fun pubring =>
    (names.head?.bind (contentOf fs cwd)).bind fun signature =>
      (gpg.document fs cwd names).filter (gpg.accepts pubring signature)

/-- What `xzcat` reads, if there is a file. -/
def xzcat (fs : Fs) (cwd : Path) (names : List Text) : Option Bytes :=
  match names.filterMap (contentOf fs cwd) with
  | [] => none
  | contents => some contents.flatten

variable (tools : Tools)

/-- A field is replaced by the names that it matches, if there are any. -/
def expandField (fs : Fs) (cwd : Path) (field : Text) : List Text :=
  if field.any isPattern && !(tools.names fs cwd field).isEmpty then tools.names fs cwd field
  else [field]

/-- The words of an unquoted expansion. -/
def expand (fs : Fs) (cwd : Path) (text : Text) : List Text :=
  ((text.splitOnP isBlank).filter (· ≠ [])).flatMap (expandField tools fs cwd)

/-- `busybox xzcat | busybox tar -xf -` in a directory, for the entries below `name`: whether tar
succeeds, and the files. -/
def untar (dir : Path) (name : Path) (tarball : Bytes) (fs : Fs) : Bool × Fs :=
  let r := fs.unpack dir ((tools.entries tarball).1.filter fun entry => name <+: entry.1)
  (r.1 && (tools.entries tarball).2, r.2)

/-- `rm -Rf $text`. -/
def rmTrees (cwd : Path) (fs : Fs) (text : Text) : Fs :=
  (expand tools fs cwd text).foldl (fun fs name => fs.rmTree (resolve cwd name)) fs

/-- `rm -f $text`. -/
def rmFiles (cwd : Path) (text : Text) (fs : Fs) : Option Fs :=
  (expand tools fs cwd text).foldlM (fun fs name => rmFile (resolve cwd name) fs) fs

/-- A program that ends the script if it fails. -/
def runs (argv : List Text) (fs : Fs) : Option Fs :=
  if (tools.program argv fs).1 = 0 then some (tools.program argv fs).2 else none

/-- A program with `|| true`. -/
def tries (argv : List Text) (fs : Fs) : Fs := (tools.program argv fs).2

/-! ## Words that stay as they are -/

variable {tools}

theorem expand_of_isWord (hne : w ≠ []) (h : IsWord w) (fs : Fs) (cwd : Path) :
    expand tools fs cwd w = [w] := by
  have hfields : w.splitOnP isBlank = [w] :=
    List.splitOnP_eq_singleton fun c hc => by simp [(h c hc).1]
  have hpattern : w.any isPattern = false := List.any_eq_false.mpr fun c hc => by simp [(h c hc).2]
  rw [expand, hfields, List.filter_singleton, decide_eq_true hne, cond_true, List.flatMap_singleton,
    expandField, hpattern, Bool.false_and, if_neg Bool.false_ne_true]

theorem IsWord.append (h : IsWord w) (h' : IsWord w') : IsWord (w ++ w') := fun c hc =>
  (List.mem_append.mp hc).elim (h c) (h' c)

theorem xzcat_singleton (fs : Fs) (cwd : Path) (name : Text) :
    xzcat fs cwd [name] = contentOf fs cwd name := by
  unfold xzcat
  cases hcontent : contentOf fs cwd name <;> simp [hcontent]

theorem contentOf_eq_none (h : isPresent fs cwd p = false) : contentOf fs cwd p = none := by
  rw [isPresent, Option.isSome_eq_false_iff, Option.isNone_iff_eq_none] at h
  rw [contentOf, FileTree.content, h]

theorem contentOf_congr (h : fs' (resolve cwd p) = fs (resolve cwd p)) :
    contentOf fs' cwd p = contentOf fs cwd p :=
  FileTree.content_congr h

theorem Gpg.document_of_verify {gpg : Gpg} {doc : Bytes}
    (h : gpg.verify fs cwd home names = some doc) : gpg.document fs cwd names = some doc := by
  obtain ⟨pubring, -, h⟩ := Option.bind_eq_some_iff.mp h
  obtain ⟨signature, -, h⟩ := Option.bind_eq_some_iff.mp h
  exact (Option.filter_eq_some_iff.mp h).1

/-! ## What is not created -/

theorem rmFile_eq_some (h : rmFile p fs = some fs') : fs p ≠ some .dir ∧ fs' = fs.rm p := by
  unfold rmFile at h
  split at h
  · cases h
  · exact ⟨‹_›, (Option.some.inj h).symm⟩

theorem rmFile_eq_none (h : rmFile p fs = some fs') (hq : fs q = none) : fs' q = none := by
  obtain ⟨-, rfl⟩ := rmFile_eq_some h
  exact FileTree.rm_eq_none hq

theorem foldlM_keeps {P : Fs → Prop} {f : Fs → α → Option Fs}
    (hstep : ∀ fs a fs', f fs a = some fs' → P fs → P fs') {as : List α} {fs fs' : Fs}
    (h : as.foldlM f fs = some fs') (hp : P fs) : P fs' := by
  induction as generalizing fs with
  | nil =>
    cases h
    exact hp
  | cons a as ih =>
    rw [List.foldlM_cons] at h
    obtain ⟨fs₁, hfirst, hrest⟩ := Option.bind_eq_some_iff.mp h
    exact ih hrest (hstep fs a fs₁ hfirst hp)

theorem rmFiles_eq_none (h : rmFiles tools cwd text fs = some fs') (hq : fs q = none) :
    fs' q = none := by
  unfold rmFiles at h
  exact foldlM_keeps (P := fun fs => fs q = none)
    (fun _ _ _ hstep hp => rmFile_eq_none hstep hp) h hq

theorem rmTrees_eq_none (h : fs q = none) : rmTrees tools cwd fs text q = none := by
  rw [rmTrees]
  generalize expand tools fs cwd text = names
  induction names generalizing fs with
  | nil => exact h
  | cons name names ih => exact ih (FileTree.rmTree_eq_none h)

theorem shrinks_rmTrees (fs : Fs) : fs.Shrinks (rmTrees tools cwd fs text) := by
  rw [rmTrees]
  generalize expand tools fs cwd text = names
  induction names generalizing fs with
  | nil => exact .refl
  | cons name names ih => exact (fs.shrinks_rmTree _).trans (ih _)

theorem mkdirs_eq_none (h : mkdirs p fs = some fs') (hp : ¬ q <+: p) (hq : fs q = none) :
    fs' q = none := by
  unfold mkdirs at h
  split at h
  · cases h
  · cases h
    exact (FileTree.add_of_not_isPrefix hp).trans hq

theorem writeFile_eq_none (h : writeFile p text fs = some fs') (hp : q ≠ p) (hq : fs q = none) :
    fs' q = none := by
  unfold writeFile at h
  split at h
  · cases h
  · cases h
    exact (FileTree.put_of_ne hp).trans hq

theorem touch_eq_none (h : touch p fs = some fs') (hp : q ≠ p) (hq : fs q = none) :
    fs' q = none := by
  unfold touch at h
  split at h
  · cases h
    exact hq
  · exact writeFile_eq_none h hp hq

end BootableRecovery.SystemImage
