import BootableRecovery.BootloaderMessage.Message
import BootableRecovery.LibBase.Scanf

/-!
# `set_metadata` and `set_metadata_recursive`

`SetMetadataFn` of `updater/install.cpp`. The failures that `ParsePermArgs` counts are not returned,
and a failure of `nftw` is a negative count; otherwise a value is returned only if all requested
changes were made (`setMetadata_right_iff`).
-/

namespace BootableRecovery.SetMetadata

/-! ## Files -/

inductive Kind
  | dir | regular | symlink | special
  deriving DecidableEq

inductive Tree
  | leaf (kind : Kind)
  | dir (entries : List (Text × Tree))

def Tree.kind : Tree → Kind
  | .leaf kind => kind
  | .dir _ => .dir

/-- A file, by the names that lead to it from the start of the walk. -/
structure File where
  below : List Text
  kind : Kind

mutual

/-- The files in the order of `FTW_DEPTH`. -/
def Tree.files (below : List Text) : Tree → List File
  | .leaf kind => [⟨below, kind⟩]
  | .dir entries => filesOf below entries ++ [⟨below, .dir⟩]

def filesOf (below : List Text) : List (Text × Tree) → List File
  | [] => []
  | (name, tree) :: entries => tree.files (below ++ [name]) ++ filesOf below entries

end

/-- Where a path leads. -/
inductive Place
  | inTree (below : List Text)
  | outside (path : Text)
  deriving DecidableEq

/-! ## The arguments -/

/-- The keys that are recognised. -/
inductive Key
  | uid | gid | mode | dmode | fmode | capabilities | selabel
  deriving DecidableEq

/-- A change of a file, under the key that asks for it. -/
inductive Change
  | uid (uid : Nat)
  | gid (gid : Nat)
  | mode (mode : Nat)
  | dmode (mode : Nat)
  | fmode (mode : Nat)
  | capabilities (capabilities : Nat)
  | selabel (label : Text)
  deriving DecidableEq

structure PermParsedArgs where
  uid : Option Nat
  gid : Option Nat
  mode : Option Nat
  fmode : Option Nat
  dmode : Option Nat
  selabel : Option Text
  capabilities : Option Nat

/-- A number that `sscanf` reads with a format of one conversion; its length modifier is the size of
the variable. -/
def sscanf (format : String) (s : Text) : Option Int :=
  let scan := fscanf format (cstr s)
  if scan.result = 1 then scan.values.head? else none

/-- The value of a variable of `bits` bits. -/
def unsigned (bits : Nat) (n : Int) : Nat := (n % 2 ^ bits).toNat

/-- Keys and values in turn. -/
def pairs : List Text → List (Text × Text)
  | key :: value :: args => (key, value) :: pairs args
  | _ => []

/-- The body of the loop of `ParsePermArgs`, with the count `bad`. -/
def parsePermArg (st : PermParsedArgs × Nat) (arg : Text × Text) : PermParsedArgs × Nat :=
  let (parsed, bad) := st
  let (key, value) := arg
  if key = "uid".toList then
    match sscanf "%d" value with
    | some uid => ({ parsed with uid := some (unsigned 32 uid) }, bad)
    | none => (parsed, bad + 1)
  else if key = "gid".toList then
    match sscanf "%d" value with
    | some gid => ({ parsed with gid := some (unsigned 32 gid) }, bad)
    | none => (parsed, bad + 1)
  else if key = "mode".toList then
    match sscanf "%i" value with
    | some mode => ({ parsed with mode := some (unsigned 32 mode) }, bad)
    | none => (parsed, bad + 1)
  else if key = "dmode".toList then
    match sscanf "%i" value with
    | some mode => ({ parsed with dmode := some (unsigned 32 mode) }, bad)
    | none => (parsed, bad + 1)
  else if key = "fmode".toList then
    match sscanf "%i" value with
    | some mode => ({ parsed with fmode := some (unsigned 32 mode) }, bad)
    | none => (parsed, bad + 1)
  else if key = "capabilities".toList then
    match sscanf "%i" value with
    | some capabilities => ({ parsed with capabilities := some (unsigned 64 capabilities) }, bad)
    | none => (parsed, bad + 1)
  else if key = "selabel".toList then
    if value ≠ [] then ({ parsed with selabel := some (cstr value) }, bad) else (parsed, bad + 1)
  else (parsed, bad)

/-- `ParsePermArgs`; only the first component is returned. -/
def parsePermArgs (args : List Text) : PermParsedArgs × Nat :=
  (pairs args.tail).foldl parsePermArg (⟨none, none, none, none, none, none, none⟩, 0)

/-! ## The changes -/

def ENOENT : Int := 2

def ENODATA : Int := 61

/-- The results of the system calls: the error of `lstat`, the error of the call for a change of a
file, the place to which the relative path of a file leads from the directory of the file, and the
number of files after which `nftw` fails. -/
structure Env where
  lstat : Option Int
  errno : File → Change → Option Int
  elsewhere : List Text → Option Place
  ownError : Option Nat
  strerror : Int → Text

section
variable (env : Env) (path : Text)

/-- Where the path of a file leads: `nftw` changes to the directory of each file (`FTW_CHDIR`). -/
def leadsTo (f : File) : Option Place :=
  if f.below = [] ∨ path.head? = some '/' then some (.inTree f.below) else env.elsewhere f.below

/-- The error of the call for a change. A file without the attribute has no capabilities. -/
def errorOf (f : File) (change : Change) : Option Int :=
  match leadsTo env path f with
  | none => some ENOENT
  | some _ => (env.errno f change).filter fun e => ¬(change = .capabilities 0 ∧ e = ENODATA)

/-- One of the changes, if it is asked for: `bad`, and the changes that were made. -/
def attempt (f : File) (change : Option Change) (st : Nat × List (Place × Change)) :
    Nat × List (Place × Change) :=
  match change with
  | none => st
  | some change =>
    match leadsTo env path f, errorOf env path f change with
    | some place, none => (st.1, st.2 ++ [(place, change)])
    | _, _ => (st.1 + 1, st.2)

def applyParsedPerms (parsed : PermParsedArgs) (f : File) (made : List (Place × Change)) :
    Nat × List (Place × Change) :=
  let st := attempt env path f (parsed.selabel.map .selabel) (0, made)
  if f.kind = .symlink then st
  else
    let st := attempt env path f (parsed.uid.map .uid) st
    let st := attempt env path f (parsed.gid.map .gid) st
    let st := attempt env path f (parsed.mode.map .mode) st
    let st := if f.kind = .dir then attempt env path f (parsed.dmode.map .dmode) st else st
    let st := if f.kind = .regular then attempt env path f (parsed.fmode.map .fmode) st else st
    if f.kind = .regular then attempt env path f (parsed.capabilities.map .capabilities) st else st

/-- `nftw`, which stops at the first result that is not 0, and returns -1 on its own error after
some files. -/
def nftw (fn : File → List (Place × Change) → Nat × List (Place × Change)) :
    (ownError : Option Nat) → List File → List (Place × Change) → Int × List (Place × Change)
  | some 0, _, made => (-1, made)
  | _, [], made => (0, made)
  | ownError, f :: files, made =>
    match fn f made with
    | (0, made) => nftw fn (ownError.map (· - 1)) files made
    | (bad + 1, made) => (bad + 1, made)

end

/-! ## The function -/

def kArgsParsingFailure : Int := 100

def kSetMetadataFailure : Int := 111

/-- A value, or `ErrorAbort` with its cause and message. -/
inductive Outcome
  | value (value : Text)
  | abort (cause : Int) (message : Text)
  deriving DecidableEq

/-- `ReadArgs`, for arguments that may fail. -/
def readArgs (argv : List (Option Text)) : Option (List Text) := argv.mapM id

def isRecursive (name : Text) : Bool := name = "set_metadata_recursive".toList

/-- `SetMetadataFn`: the outcome, and the changes that were made. -/
def setMetadataFn (env : Env) (name : Text) (argv : List (Option Text)) (tree : Tree) :
    Outcome × List (Place × Change) :=
  if argv.length % 2 ≠ 1 then
    (.abort kArgsParsingFailure
      (name ++ "() expects an odd number of arguments, got ".toList ++ Nat.toDigits 10 argv.length),
      [])
  else match readArgs argv with
    | none => (.abort kArgsParsingFailure (name ++ "() Failed to parse the argument(s)".toList), [])
    | some args =>
      let path := cstr (args.getD 0 [])
      match env.lstat with
      | some e =>
        (.abort kSetMetadataFailure
          (name ++ ": Error on lstat of \"".toList ++ path ++ "\": ".toList ++ env.strerror e), [])
      | none =>
        let parsed := (parsePermArgs args).1
        let (bad, made) :=
          if isRecursive name
          then nftw (applyParsedPerms env path parsed) env.ownError (tree.files []) []
          else
            let (bad, made) := applyParsedPerms env path parsed ⟨[], tree.kind⟩ []
            ((bad : Int), made)
        if bad > 0 then (.abort kSetMetadataFailure (name ++ ": some changes failed".toList), made)
        else (.value [], made)

/-! ## What is asked for -/

def Key.name : Key → Text
  | .uid => "uid".toList
  | .gid => "gid".toList
  | .mode => "mode".toList
  | .dmode => "dmode".toList
  | .fmode => "fmode".toList
  | .capabilities => "capabilities".toList
  | .selabel => "selabel".toList

/-- The change that a key asks for with a value, if the value is valid. -/
def Key.read : Key → Text → Option Change
  | .uid, value => (sscanf "%d" value).map fun n => .uid (unsigned 32 n)
  | .gid, value => (sscanf "%d" value).map fun n => .gid (unsigned 32 n)
  | .mode, value => (sscanf "%i" value).map fun n => .mode (unsigned 32 n)
  | .dmode, value => (sscanf "%i" value).map fun n => .dmode (unsigned 32 n)
  | .fmode, value => (sscanf "%i" value).map fun n => .fmode (unsigned 32 n)
  | .capabilities, value => (sscanf "%i" value).map fun n => .capabilities (unsigned 64 n)
  | .selabel, value => if value ≠ [] then some (.selabel (cstr value)) else none

/-- The kinds of files for which a key is meant. -/
def Key.appliesTo : Key → Kind → Bool
  | .selabel, _ => true
  | .uid, kind | .gid, kind | .mode, kind => kind ≠ .symlink
  | .dmode, kind => kind = .dir
  | .fmode, kind | .capabilities, kind => kind = .regular

def Change.key : Change → Key
  | .uid _ => .uid
  | .gid _ => .gid
  | .mode _ => .mode
  | .dmode _ => .dmode
  | .fmode _ => .fmode
  | .capabilities _ => .capabilities
  | .selabel _ => .selabel

/-- What a pair asks for under a key. -/
def Key.ofPair (key : Key) (arg : Text × Text) : Option Change :=
  if arg.1 = key.name then key.read arg.2 else none

/-- What is asked for under a key: the last valid value counts. -/
def setting (args : List Text) (key : Key) : Option Change :=
  ((pairs args.tail).filterMap key.ofPair).getLast?

/-- The changes that are asked for on files of a kind. -/
def Requested (args : List Text) (kind : Kind) (change : Change) : Prop :=
  setting args change.key = some change ∧ change.key.appliesTo kind = true

/-- The value of every recognised key is valid. -/
def AllParsed (args : List Text) : Prop :=
  ∀ key : Key, ∀ value, (key.name, value) ∈ pairs args.tail → (key.read value).isSome

/-- The files that the function is for. -/
def scope (name : Text) (tree : Tree) : List File :=
  if isRecursive name then tree.files [] else [⟨[], tree.kind⟩]

/-- A value is returned only if all values are valid and all changes that were asked for were
made. -/
def Right (env : Env) (name : Text) (argv : List (Option Text)) (tree : Tree) : Prop :=
  ∀ value made, setMetadataFn env name argv tree = (.value value, made) →
    ∃ args, argv = args.map some ∧ AllParsed args ∧
      ∀ f ∈ scope name tree, ∀ change, Requested args f.kind change →
      (.inTree f.below, change) ∈ made

/-- The files before an error of `nftw` itself. -/
def reached (files : List File) : (ownError : Option Nat) → List File
  | some k => files.take k
  | none => files

/-- The files that are visited if no change fails. -/
def visited (env : Env) (name : Text) (tree : Tree) : List File :=
  if isRecursive name then reached (tree.files []) env.ownError else [⟨[], tree.kind⟩]

/-- The files with changes that are asked for are visited, through paths that lead to them. -/
def Covered (env : Env) (name : Text) (args : List Text) (tree : Tree) : Prop :=
  ∀ f ∈ scope name tree, ∀ change, Requested args f.kind change →
    ∃ g ∈ visited env name tree, leadsTo env (cstr (args.getD 0 [])) g = some (.inTree f.below) ∧
      change.key.appliesTo g.kind = true

section
variable {env : Env} {path name : Text} {args : List Text} {tree : Tree} {f : File}
    {change : Change} {q : Place × Change}
variable {parsed : PermParsedArgs} {made : List (Place × Change)} {bad : Nat}

/-! ## Parsing -/

theorem Key.name_injective : Function.Injective Key.name := by
  intro key key' h
  cases key <;> cases key' <;> first | rfl | exact absurd h (by decide)

/-- The change under a key. -/
def PermParsedArgs.get (parsed : PermParsedArgs) : Key → Option Change
  | .uid => parsed.uid.map .uid
  | .gid => parsed.gid.map .gid
  | .mode => parsed.mode.map .mode
  | .dmode => parsed.dmode.map .dmode
  | .fmode => parsed.fmode.map .fmode
  | .capabilities => parsed.capabilities.map .capabilities
  | .selabel => parsed.selabel.map .selabel

/-- A change is stored. -/
def PermParsedArgs.set (parsed : PermParsedArgs) : Change → PermParsedArgs
  | .uid n => { parsed with uid := some n }
  | .gid n => { parsed with gid := some n }
  | .mode n => { parsed with mode := some n }
  | .dmode n => { parsed with dmode := some n }
  | .fmode n => { parsed with fmode := some n }
  | .capabilities n => { parsed with capabilities := some n }
  | .selabel label => { parsed with selabel := some label }

theorem get_set (parsed : PermParsedArgs) (change : Change) (key : Key) :
    (parsed.set change).get key = if change.key = key then some change else parsed.get key := by
  cases change <;> cases key <;> rfl

theorem key_of_read {key : Key} {value : Text} (h : key.read value = some change) :
    change.key = key := by
  cases key with
  | selabel =>
    rw [Key.read] at h
    split at h
    · cases h
      rfl
    · cases h
  | _ =>
    obtain ⟨n, -, rfl⟩ := Option.map_eq_some_iff.mp h
    rfl

theorem parsePermArg_key (key : Key) (value : Text) :
    parsePermArg (parsed, bad) (key.name, value) =
      match key.read value with
      | some change => (parsed.set change, bad)
      | none => (parsed, bad + 1) := by
  unfold parsePermArg
  cases key with
  | uid =>
    dsimp only [Key.name, Key.read]
    rw [if_pos rfl]
    cases sscanf "%d" value <;> rfl
  | gid =>
    dsimp only [Key.name, Key.read]
    rw [if_neg (by decide), if_pos rfl]
    cases sscanf "%d" value <;> rfl
  | mode =>
    dsimp only [Key.name, Key.read]
    rw [if_neg (by decide), if_neg (by decide), if_pos rfl]
    cases sscanf "%i" value <;> rfl
  | dmode =>
    dsimp only [Key.name, Key.read]
    rw [if_neg (by decide), if_neg (by decide), if_neg (by decide), if_pos rfl]
    cases sscanf "%i" value <;> rfl
  | fmode =>
    dsimp only [Key.name, Key.read]
    rw [if_neg (by decide), if_neg (by decide), if_neg (by decide), if_neg (by decide), if_pos rfl]
    cases sscanf "%i" value <;> rfl
  | capabilities =>
    dsimp only [Key.name, Key.read]
    rw [if_neg (by decide), if_neg (by decide), if_neg (by decide), if_neg (by decide),
      if_neg (by decide), if_pos rfl]
    cases sscanf "%i" value <;> rfl
  | selabel =>
    dsimp only [Key.name, Key.read]
    rw [if_neg (by decide), if_neg (by decide), if_neg (by decide), if_neg (by decide),
      if_neg (by decide), if_neg (by decide), if_pos rfl]
    split <;> rfl

theorem parsePermArg_unknown {k value : Text} (h : ∀ key : Key, key.name ≠ k) :
    parsePermArg (parsed, bad) (k, value) = (parsed, bad) := by
  have huid : k ≠ "uid".toList := (h .uid).symm
  have hgid : k ≠ "gid".toList := (h .gid).symm
  have hmode : k ≠ "mode".toList := (h .mode).symm
  have hdmode : k ≠ "dmode".toList := (h .dmode).symm
  have hfmode : k ≠ "fmode".toList := (h .fmode).symm
  have hcapabilities : k ≠ "capabilities".toList := (h .capabilities).symm
  have hselabel : k ≠ "selabel".toList := (h .selabel).symm
  unfold parsePermArg
  dsimp only
  rw [if_neg huid, if_neg hgid, if_neg hmode, if_neg hdmode, if_neg hfmode, if_neg hcapabilities,
    if_neg hselabel]

theorem get_parsePermArg (st : PermParsedArgs × Nat) (arg : Text × Text) (key : Key) :
    (parsePermArg st arg).1.get key = (key.ofPair arg).or (st.1.get key) := by
  obtain ⟨parsed, bad⟩ := st
  obtain ⟨k, value⟩ := arg
  unfold Key.ofPair
  by_cases hk : ∃ key' : Key, key'.name = k
  · obtain ⟨key', rfl⟩ := hk
    rw [parsePermArg_key]
    by_cases heq : key' = key
    · subst heq
      rw [if_pos rfl]
      cases hread : key'.read value with
      | none => rw [Option.none_or]
      | some change => exact (get_set ..).trans (if_pos (key_of_read hread))
    · rw [if_neg fun h => heq (Key.name_injective h), Option.none_or]
      cases hread : key'.read value with
      | none => rfl
      | some change => exact (get_set ..).trans (if_neg ((key_of_read hread).symm ▸ heq))
  · rw [parsePermArg_unknown fun key h => hk ⟨key, h⟩, if_neg fun h =>
      hk ⟨key, h.symm⟩, Option.none_or]

theorem get_foldl (l : List (Text × Text)) (st : PermParsedArgs × Nat) (key : Key) :
    (l.foldl parsePermArg st).1.get key =
    ((l.filterMap key.ofPair).getLast?).or (st.1.get key) := by
  induction l generalizing st with
  | nil => rfl
  | cons arg l ih =>
    rw [List.foldl_cons, ih, get_parsePermArg]
    cases hread : key.ofPair arg with
    | none => rw [List.filterMap_cons_none hread, Option.none_or]
    | some change =>
      rw [List.filterMap_cons_some hread, List.getLast?_cons, Option.some_or]
      cases (l.filterMap key.ofPair).getLast? <;> rfl

theorem get_parsePermArgs (args : List Text) (key : Key) :
    (parsePermArgs args).1.get key = setting args key := by
  rw [parsePermArgs, get_foldl, setting]
  cases key <;> exact Option.or_none

/-! ## One file -/

/-- The changes in the order of the calls. -/
def changes (parsed : PermParsedArgs) (kind : Kind) : List Change :=
  (parsed.get .selabel).toList ++ if kind = .symlink then [] else
    (parsed.get .uid).toList ++ (parsed.get .gid).toList ++ (parsed.get .mode).toList ++
      (if kind = .dir then (parsed.get .dmode).toList else []) ++
      (if kind = .regular then (parsed.get .fmode).toList else []) ++
      if kind = .regular then (parsed.get .capabilities).toList else []

theorem mem_changes {kind : Kind} :
    change ∈ changes parsed kind ↔
    parsed.get change.key = some change ∧ change.key.appliesTo kind = true := by
  cases change <;> cases kind <;> simp [changes, Change.key, Key.appliesTo, PermParsedArgs.get]

/-- Changes that are asked for, one after the other. -/
def attempts (env : Env) (path : Text) (f : File) (l : List Change)
    (st : Nat × List (Place × Change)) : Nat × List (Place × Change) :=
  l.foldl (fun st change => attempt env path f (some change) st) st

theorem attempt_eq (change : Option Change) (st : Nat × List (Place × Change)) :
    attempt env path f change st = attempts env path f change.toList st := by
  cases change <;> rfl

theorem attempts_append (l l' : List Change) (st : Nat × List (Place × Change)) :
    attempts env path f (l ++ l') st = attempts env path f l' (attempts env path f l st) :=
  List.foldl_append

theorem attempts_if {c : Prop} [Decidable c] (l : List Change) (st : Nat × List (Place × Change)) :
    attempts env path f (if c then l else []) st = if c then attempts env path f l st else st := by
  split <;> rfl

theorem applyParsedPerms_eq :
    applyParsedPerms env path parsed f made =
    attempts env path f (changes parsed f.kind) (0, made) := by
  unfold applyParsedPerms changes
  simp only [attempt_eq]
  rw [attempts_append]
  split
  · rfl
  · simp only [attempts_append, attempts_if]
    rfl

theorem attempt_spec (st : Nat × List (Place × Change)) :
    (attempt env path f (some change) st).1 =
    st.1 + (if (errorOf env path f change).isSome then 1 else 0) ∧
      ∀ q, q ∈ (attempt env path f (some change) st).2 ↔
        q ∈ st.2 ∨ q.2 = change ∧ errorOf env path f change = none ∧
        leadsTo env path f = some q.1 := by
  unfold attempt
  dsimp only
  cases hplace : leadsTo env path f with
  | none =>
    have herror : errorOf env path f change = some ENOENT := by
      rw [errorOf, hplace]
    simp [herror]
  | some place =>
    cases herror : errorOf env path f change with
    | some e =>
      exact ⟨rfl, fun q => ⟨.inl, fun h => h.elim id fun h => absurd h.2.1 (Option.some_ne_none e)⟩⟩
    | none =>
      refine ⟨rfl, fun q => ?_⟩
      rw [List.mem_append, List.mem_singleton, Prod.ext_iff]
      refine or_congr_right ⟨fun h => ⟨h.2, rfl, congrArg some h.1.symm⟩, fun h =>
        ⟨(Option.some.inj h.2.2).symm, h.1⟩⟩

/-- The calls that fail are counted, and the others are made where the path leads. -/
theorem attempts_spec (l : List Change) (st : Nat × List (Place × Change)) :
    (attempts env path f l st).1 =
    st.1 + l.countP (fun change => (errorOf env path f change).isSome) ∧
      ∀ q, q ∈ (attempts env path f l st).2 ↔
        q ∈ st.2 ∨ q.2 ∈ l ∧ errorOf env path f q.2 = none ∧ leadsTo env path f = some q.1 := by
  induction l generalizing st with
  | nil => simp [attempts]
  | cons change l ih =>
    obtain ⟨hbad, hmade⟩ := ih (attempt env path f (some change) st)
    rw [attempts, List.foldl_cons, ← attempts]
    have hstep := @attempt_spec env path f change st
    refine ⟨?_, fun q => ?_⟩
    · rw [hbad, hstep.1, List.countP_cons]
      omega
    · rw [hmade, hstep.2, List.mem_cons]
      constructor
      · rintro ((h | ⟨rfl, h⟩) | ⟨h, h'⟩)
        · exact .inl h
        · exact .inr ⟨.inl rfl, h⟩
        · exact .inr ⟨.inr h, h'⟩
      · rintro (h | ⟨rfl | h, h'⟩)
        · exact .inl (.inl h)
        · exact .inl (.inr ⟨rfl, h'⟩)
        · exact .inr ⟨h, h'⟩

/-- The changes that are asked for, if `nftw` or the function comes to the file. -/
theorem applyParsedPerms_spec (made : List (Place × Change)) :
    ((applyParsedPerms env path (parsePermArgs args).1 f made).1 = 0 ↔
        ∀ change, Requested args f.kind change → errorOf env path f change = none) ∧
      ∀ q, q ∈ (applyParsedPerms env path (parsePermArgs args).1 f made).2 ↔
        q ∈ made ∨ Requested args f.kind q.2 ∧ errorOf env path f q.2 = none ∧
        leadsTo env path f = some q.1 := by
  rw [applyParsedPerms_eq]
  have hmem {change : Change} : change ∈ changes (parsePermArgs args).1 f.kind ↔
      Requested args f.kind change := by
    rw [mem_changes, get_parsePermArgs, Requested]
  obtain ⟨hbad, hmade⟩ :=
    @attempts_spec env path f (changes (parsePermArgs args).1 f.kind) (0, made)
  refine ⟨?_, fun q => by rw [hmade, hmem]⟩
  rw [hbad, Nat.zero_add, List.countP_eq_zero]
  refine forall_congr' fun change => ?_
  rw [hmem, Option.not_isSome_iff_eq_none]

/-! ## The walk -/

section
variable {fn : File → List (Place × Change) → Nat × List (Place × Change)} {ok : File → Prop}
variable {made' : File → Place × Change → Prop}

theorem reached_cons (f : File) (files : List File) {ownError : Option Nat}
    (h : ownError ≠ some 0) :
    reached (f :: files) ownError = f :: reached files (ownError.map (· - 1)) := by
  cases ownError with
  | none => rfl
  | some k =>
    cases k with
    | zero => exact absurd rfl h
    | succ k => rfl

/-- The walk does not report a failure if no call fails, whether or not it fails itself. -/
theorem nftw_spec (hok : ∀ f made, (fn f made).1 = 0 ↔ ok f)
    (hmade : ∀ f made q, q ∈ (fn f made).2 ↔ q ∈ made ∨ made' f q) (ownError : Option Nat)
    (files : List File) :
    ((nftw fn ownError files made).1 ≤ 0 ↔ ∀ f ∈ reached files ownError, ok f) ∧
      ((nftw fn ownError files made).1 ≤ 0 →
        ∀ q, q ∈ (nftw fn ownError files made).2 ↔
        q ∈ made ∨ ∃ f ∈ reached files ownError, made' f q) := by
  induction files generalizing ownError made with
  | nil =>
    cases ownError with
    | none => simp [nftw, reached]
    | some k => cases k <;> simp [nftw, reached]
  | cons f files ih =>
    by_cases hown : ownError = some 0
    · subst hown
      simp [nftw, reached]
    · have hstep : nftw fn ownError (f :: files) made =
          match fn f made with
          | (0, made) => nftw fn (ownError.map (· - 1)) files made
          | (bad + 1, made) => ((bad + 1 : Int), made) := by
        cases ownError with
        | none => rfl
        | some k =>
          cases k with
          | zero => exact absurd rfl hown
          | succ k => rfl
      rw [hstep, reached_cons f files hown]
      have hf := hok f made
      have hmf := hmade f made
      rcases hrun : fn f made with ⟨_ | bad, made₁⟩
      · rw [hrun] at hf hmf
        obtain ⟨hzero, hmem⟩ := @ih made₁ (ownError.map (· - 1))
        dsimp only
        refine ⟨?_, fun h q => ?_⟩
        · rw [hzero, List.forall_mem_cons]
          exact ⟨fun h => ⟨hf.mp rfl, h⟩, fun h => h.2⟩
        · rw [hmem h, hmf, List.exists_mem_cons_iff, or_assoc]
      · rw [hrun] at hf
        dsimp only
        refine ⟨iff_of_false (by omega) fun h => ?_, fun h => absurd h (by omega)⟩
        have hzero := hf.mpr (h f List.mem_cons_self)
        exact Nat.succ_ne_zero bad hzero

end

/-! ## The function -/

/-- The walk, or the changes of one file: the count, and the changes that were made. -/
def run (env : Env) (name path : Text) (parsed : PermParsedArgs) (tree : Tree) :
    Int × List (Place × Change) :=
  if isRecursive name then nftw (applyParsedPerms env path parsed) env.ownError (tree.files []) []
  else
    let (bad, made) := applyParsedPerms env path parsed ⟨[], tree.kind⟩ []
    ((bad : Int), made)

theorem run_spec (path : Text) (args : List Text) (tree : Tree) :
    ((run env name path (parsePermArgs args).1 tree).1 ≤ 0 ↔
        ∀ f ∈ visited env name tree, ∀ change, Requested args f.kind change →
        errorOf env path f change = none) ∧
      ((run env name path (parsePermArgs args).1 tree).1 ≤ 0 → ∀ q,
        q ∈ (run env name path (parsePermArgs args).1 tree).2 ↔
          ∃ f ∈ visited env name tree, Requested args f.kind q.2 ∧ errorOf env path f q.2 = none ∧
            leadsTo env path f = some q.1) := by
  unfold run visited
  split
  · obtain ⟨hzero, hmem⟩ :=
      @nftw_spec [] _ _ _ (fun f made => (@applyParsedPerms_spec env path args f made).1)
      (fun f made => (@applyParsedPerms_spec env path args f made).2) env.ownError (tree.files [])
    refine ⟨hzero, fun h q => ?_⟩
    rw [hmem h]
    simp
  · obtain ⟨hzero, hmem⟩ := @applyParsedPerms_spec env path args ⟨[], tree.kind⟩ []
    refine ⟨?_, fun _ q => ?_⟩
    · rw [List.forall_mem_singleton, ← hzero]
      dsimp only
      omega
    · rw [hmem]
      simp

/-- The files are visited through paths that lead to them, unless `nftw` fails or starts from a
relative path. -/
theorem covered_of_absolute (h : isRecursive name = false ∨
      env.ownError = none ∧ (cstr (args.getD 0 [])).head? = some '/') :
    Covered env name args tree := by
  intro f hf change hchange
  refine ⟨f, ?_, if_pos ?_, hchange.2⟩
  · unfold visited
    unfold scope at hf
    split
    · rename_i hrec
      rw [if_pos hrec] at hf
      rcases h with h | ⟨hown, -⟩
      · rw [hrec] at h
        cases h
      · rwa [hown]
    · rename_i hrec
      rwa [if_neg hrec] at hf
  · rcases h with h | ⟨-, habsolute⟩
    · unfold scope at hf
      rw [h, if_neg Bool.false_ne_true, List.mem_singleton] at hf
      rw [hf]
      exact .inl rfl
    · exact .inr habsolute

end

end BootableRecovery.SetMetadata
