import BootableRecovery.BootloaderMessage.Message
import BootableRecovery.Theory.FileTree
import BootableRecovery.Theory.PathChanges
import Mathlib.Data.List.DropRight

/-!
# Extracting a part of a package

`ExtractPackageRecursive` of `otautil/ZipUtil.cpp` with `mkdir_recursively` of
`otautil/DirUtil.cpp`, what is asked of it (`Right`), and the names of entries that stay in the
destination (`Stays`). The names are not checked: one with `..` leads out of the destination.
-/

namespace BootableRecovery.ExtractPackage

/-! ## System calls -/

/-- An entry of an archive. `libziparchive` refuses names with a NUL. -/
structure ZipEntry where
  name : Text
  content : List UInt8
  noNul : '\x00' ∉ name

/-- Which calls fail, by the number of calls before them, and what a failing extraction leaves in
the file. -/
structure Env where
  fails : Nat → Bool
  left : Nat → List UInt8

/-- The file system, and the number of calls so far. -/
structure State where
  fs : Fs (List UInt8)
  time : Nat

def State.tick (st : State) : State := { st with time := st.time + 1 }

inductive DirStatus
  | DMISSING | DDIR | DILLEGAL
  deriving DecidableEq

section
variable (env : Env) (timestamp : Bool)

/-- A call that changes no file or directory, such as `fsync` and `utime`. -/
def call (st : State) : Bool × State := (!env.fails st.time, st.tick)

/-- `dir_status`. All paths are absolute. -/
def dirStatus (path : Text) (st : State) : DirStatus × State :=
  if env.fails st.time then (.DILLEGAL, st.tick)
  else match st.fs.locate [] true path with
    | .ok loc => match st.fs.node loc with
      | some .dir => (.DDIR, st.tick)
      | some _ => (.DILLEGAL, st.tick)
      | none => (.DMISSING, st.tick)
    | .error .noEntry => (.DMISSING, st.tick)
    | .error _ => (.DILLEGAL, st.tick)

def mkdir (path : Text) (st : State) : Bool × State :=
  if env.fails st.time then (false, st.tick)
  else match st.fs.locate [] false path with
    | .error _ => (false, st.tick)
    | .ok loc =>
      if st.fs.node loc = none then
        match st.fs.putAt loc .dir with
        | some fs => (true, ⟨fs, st.time + 1⟩)
        | none => (false, st.tick)
      else (false, st.tick)

/-- `open` with `O_CREAT|O_WRONLY|O_TRUNC`: the file that is open behind it. -/
def openFile (path : Text) (st : State) : Option Loc × State :=
  if env.fails st.time then (none, st.tick)
  else match st.fs.locate [] true path with
    | .error _ => (none, st.tick)
    | .ok loc =>
      match st.fs.putAt loc (.file []) with
      | some fs => (some loc, ⟨fs, st.time + 1⟩)
      | none => (none, st.tick)

/-- The content of an open file is written. -/
def write (loc : Loc) (content : List UInt8) (st : State) : State :=
  match st.fs.putAt loc (.file content) with
  | some fs => ⟨fs, st.time + 1⟩
  | none => st.tick

def extractEntryToFile (entry : ZipEntry) (loc : Loc) (st : State) : Bool × State :=
  if env.fails st.time then (false, write loc (env.left st.time) st)
  else (true, write loc entry.content st)

/-- What follows a step that did not fail. -/
def andThen : Bool × State → (State → Bool × State) → Bool × State
  | (true, st), next => next st
  | (false, st), _ => (false, st)

/-! ## `mkdir_recursively` -/

/-- `std::string::find`. -/
def find (s : Text) (c : Char) (pos : Nat) : Option Nat :=
  ((s.drop pos).findIdx? (· = c)).map (pos + ·)

/-- `std::string::rfind`. -/
def rfind (s : Text) (c : Char) : Option Nat :=
  if c ∈ s then some ((s.rdropWhile (· ≠ c)).length - 1) else none

theorem find_bounds {s : Text} {c : Char} {pos k : Nat} (h : find s c pos = some k) :
    pos ≤ k ∧ k < s.length := by
  obtain ⟨i, hi, rfl⟩ := Option.map_eq_some_iff.mp h
  have hlt := (List.findIdx?_eq_some_iff_getElem.mp hi).1
  rw [List.length_drop] at hlt
  omega

/-- One level: a missing directory is made. -/
def makeLevel (dirPath : Text) (st : State) : Bool × State :=
  match dirStatus env dirPath st with
  | (.DILLEGAL, st) => (false, st)
  | (.DMISSING, st) =>
    andThen (mkdir env dirPath st) fun st => if timestamp then call env st else (true, st)
  | (.DDIR, st) => (true, st)

/-- The loop over the levels of a path. -/
def makeLevels (path : Text) (prevEnd : Nat) (st : State) : Bool × State :=
  match _h : find path '/' (prevEnd + 1) with
  | none => (true, st)
  | some nextEnd =>
    andThen (makeLevel env timestamp (path.take nextEnd) st) (makeLevels path nextEnd)
  termination_by path.length - prevEnd
  decreasing_by
    have hbounds := find_bounds _h
    omega

/-- `mkdir_recursively`: whether it returns 0. -/
def mkdirRecursively (inputPath : Text) (stripFilename : Bool) (st : State) : Bool × State :=
  if inputPath = [] then (false, st)
  else
    let path? := if stripFilename then (rfind inputPath '/').map fun pos => inputPath.take (pos + 1)
      else some (inputPath ++ ['/'])
    match path? with
    | none => (false, st)
    | some path =>
      match dirStatus env path st with
      | (.DDIR, st) => (true, st)
      | (.DILLEGAL, st) => (false, st)
      | (.DMISSING, st) => makeLevels env timestamp path 0 st

/-! ## `ExtractPackageRecursive` -/

/-- The body of the loop, for an entry that is a file. -/
def extractEntry (path : Text) (entry : ZipEntry) (st : State) : Bool × State :=
  andThen (mkdirRecursively env timestamp path true st) fun st =>
    match openFile env path st with
    | (none, st) => (false, st)
    | (some loc, st) =>
      andThen (extractEntryToFile env entry loc st) fun st =>
        andThen (call env st) fun st => if timestamp then call env st else (true, st)

/-- The loop over the entries; `none` is a failed `CHECK_LE`. -/
def extractEntries (targetDir prefixPath : Text) : List ZipEntry → State → Option Bool × State
  | [], st => (some true, st)
  | entry :: entries, st =>
    if entry.name.length < prefixPath.length then (none, st)
    else
      let path := targetDir ++ entry.name.drop prefixPath.length
      if path.getLast? = some '/' then extractEntries targetDir prefixPath entries st
      else
        match extractEntry env timestamp path entry st with
        | (false, st) => (some false, st)
        | (true, st) => extractEntries targetDir prefixPath entries st

end

def targetDir (destPath : Text) : Text :=
  if destPath.getLast? = some '/' then destPath else destPath ++ ['/']

def prefixPath (zipPath : Text) : Text :=
  if zipPath ≠ [] ∧ zipPath.getLast? ≠ some '/' then zipPath ++ ['/'] else zipPath

/-- The entries that `StartIteration` and `Next` give. -/
def iteration (zip : List ZipEntry) (zipPath : Text) : List ZipEntry :=
  zip.filter fun entry => (cstr (prefixPath zipPath)).isPrefixOf entry.name

/-- `ExtractPackageRecursive`, with a timestamp or without one. -/
def extractPackageRecursive (env : Env) (timestamp : Bool) (zip : List ZipEntry)
    (zipPath destPath : Text) (st : State) : Option Bool × State :=
  if zipPath.head? = some '/' then (some false, st)
  else if destPath.head? ≠ some '/' then (some false, st)
  -- `StartIteration`
  else if env.fails st.time then (some false, st.tick)
  else extractEntries env timestamp (targetDir destPath) (prefixPath zipPath)
    (iteration zip zipPath) st.tick

/-! ## What is asked for -/

/-- The files that are asked for, with their contents. -/
def wanted (zip : List ZipEntry) (zipPath destPath : Text) : List (Text × List UInt8) :=
  (zip.filter fun entry => (prefixPath zipPath).isPrefixOf entry.name ∧
      (entry.name.drop (prefixPath zipPath).length).getLast?.any (· ≠ '/')).map fun entry =>
    (targetDir destPath ++ entry.name.drop (prefixPath zipPath).length, entry.content)

/-- Each of the files is there with the content of the last one that leads to the same place. -/
def Complete (fs : Fs (List UInt8)) (files : List (Text × List UInt8)) : Prop :=
  ∀ file ∈ files, ∃ loc before last after, files = before ++ last :: after ∧
    fs.locate [] true file.1 = .ok loc ∧ fs.locate [] true last.1 = .ok loc ∧
    (∀ later ∈ after, fs.locate [] true later.1 ≠ .ok loc) ∧ fs.node loc = some (.file last.2)

/-- Everything that was created or changed is at the destination, or is a missing directory on the
way to it. -/
def Contained (fs₀ fs : Fs (List UInt8)) (destPath : Text) : Prop :=
  ∀ loc, fs.node loc ≠ fs₀.node loc →
    (∃ d, fs.locate [] true (targetDir destPath) = .ok d ∧ d <+: loc) ∨
      fs₀.node loc = none ∧ fs.node loc = some .dir ∧ ∃ q, q <+: destPath ∧
      fs.locate [] true q = .ok loc

/-- There are no links under the destination, once the directories on the way to it are there. -/
def LinkFree (fs : Fs (List UInt8)) (destPath : Text) : Prop :=
  ∀ fs' d, fs.Grows fs' → fs'.locate [] true (targetDir destPath) = .ok d →
    ∀ loc target, d <+: loc → fs.node loc ≠ some (.link target)

/-- For every destination, file system and pattern of failures: the files are complete if true is
returned, and nothing else is touched in any case. -/
def Right (zip : List ZipEntry) (zipPath : Text) : Prop :=
  ∀ (env : Env) (timestamp : Bool) (destPath : Text) (fs : Fs (List UInt8)), '\x00' ∉ destPath →
  LinkFree fs destPath →
    let run := extractPackageRecursive env timestamp zip zipPath destPath ⟨fs, 0⟩
    (run.1 = some true → Complete run.2.fs (wanted zip zipPath destPath)) ∧
      Contained fs run.2.fs destPath

/-! ## Where the names lead -/

/-- The result of a way from the destination: it is blocked, it leaves the destination and takes a
name there, or it makes a tree and comes to a place, which is `none` outside of the destination. -/
inductive Way
  | blocked
  | escaped (name : Text)
  | made (tree : FileTree Text Unit) (pos : Option Loc)

/-- The directory above. -/
def up (pos : Option Loc) : Option Loc :=
  pos.bind fun rel => if rel = [] then none else some rel.dropLast

/-- The directories on a way. -/
def enter (tree : FileTree Text Unit) (pos : Option Loc) : List Text → Way
  | [] => .made tree pos
  | c :: cs =>
    if c = [] ∨ c = ['.'] then enter tree pos cs
    else if c = ['.', '.'] then enter tree (up pos) cs
    else if 255 < c.length then .blocked
    else match pos with
      | none => .escaped c
      | some rel => match tree (rel ++ [c]) with
        | some .dir => enter tree (some (rel ++ [c])) cs
        | some (.file _) => .blocked
        | none => enter (tree.put (rel ++ [c]) .dir) (some (rel ++ [c])) cs

/-- The directory part of a name, with its slash, and what follows. -/
def dirPart (rest : Text) : Text := rest.rdropWhile (· ≠ '/')

def filePart (rest : Text) : Text := rest.rtakeWhile (· ≠ '/')

/-- A way that goes on. -/
def Way.bind : Way → (FileTree Text Unit → Option Loc → Way) → Way
  | .made tree pos, next => next tree pos
  | way, _ => way

/-- A file at the end of its way. -/
def placeFile (rest : Text) (tree : FileTree Text Unit) (pos : Option Loc) : Way :=
  if ¬IsName (filePart rest) ∨ 4096 ≤ 3 + rest.length then .blocked
  else match pos with
    | none => .escaped (filePart rest)
    | some rel =>
      if tree (rel ++ [filePart rest]) = some .dir then .blocked
      else .made (tree.put (rel ++ [filePart rest]) (.file ())) (some rel)

/-- A file with its way, for a destination whose path has three bytes. -/
def place (tree : FileTree Text Unit) (rest : Text) : Way :=
  if 4096 ≤ 3 + (dirPart rest).length then .blocked
  else (enter tree (some []) ((dirPart rest).splitOn '/')).bind (placeFile rest)

/-- The first name outside of the destination that some entry comes to, when all entries before it
are extracted. -/
def firstEscape (prefixPath : Text) : FileTree Text Unit → List ZipEntry → Option Text
  | _, [] => none
  | tree, entry :: entries =>
    if entry.name.length < prefixPath.length then none
    else
      let rest := entry.name.drop prefixPath.length
      if rest.getLast?.all (· = '/') then firstEscape prefixPath tree entries
      else match place tree rest with
        | .blocked => none
        | .escaped name => some name
        | .made tree _ => firstEscape prefixPath tree entries

/-- The tree of an empty destination. -/
def emptyTree : FileTree Text Unit := FileTree.empty.put [] .dir

/-- No entry that can be reached leads out of the destination. -/
def Stays (zip : List ZipEntry) (zipPath : Text) : Prop :=
  zipPath.head? = some '/' ∨ firstEscape (prefixPath zipPath) emptyTree (iteration zip zipPath) =
  none

/-! ## Texts -/

section
variable {s a b rest : Text} {pos k : Nat}

theorem find_eq_some {c : Char} (h : find s c pos = some k) :
    ∃ x y, s.drop pos = x ++ c :: y ∧ c ∉ x ∧ k = pos + x.length := by
  obtain ⟨i, hi, rfl⟩ := Option.map_eq_some_iff.mp h
  obtain ⟨hlt, hc, hbefore⟩ := List.findIdx?_eq_some_iff_getElem.mp hi
  refine ⟨(s.drop pos).take i, (s.drop pos).drop (i + 1), ?_, fun hmem => ?_, ?_⟩
  · have hget : (s.drop pos)[i] = c := of_decide_eq_true hc
    rw [← hget, List.getElem_cons_drop, List.take_append_drop]
  · obtain ⟨j, hj, hget⟩ := List.mem_iff_getElem.mp hmem
    rw [List.length_take] at hj
    rw [List.getElem_take] at hget
    exact hbefore j (by omega) (decide_eq_true hget)
  · rw [List.length_take, Nat.min_eq_left (Nat.le_of_lt hlt)]

theorem find_eq_none {c : Char} (h : find s c pos = none) : c ∉ s.drop pos := by
  have hnone := List.findIdx?_eq_none_iff.mp (Option.map_eq_none_iff.mp h)
  intro hmem
  have hc := hnone c hmem
  simp at hc

theorem rdropWhile_append_file (hb : '/' ∉ b) :
    (a ++ b).rdropWhile (· ≠ '/') = a.rdropWhile (· ≠ '/') := by
  induction b using List.reverseRecOn with
  | nil => rw [List.append_nil]
  | append_singleton b c ih =>
    rw [List.mem_append, List.mem_singleton, not_or] at hb
    rw [← List.append_assoc, List.rdropWhile_concat_pos _ _ _ (by simpa using fun h => hb.2 h.symm),
      ih hb.1]

theorem dirPart_append (a : Text) (hb : '/' ∉ b) : dirPart (a ++ '/' :: b) = a ++ ['/'] := by
  have hsplit :
      a ++ '/' :: b = (a ++ ['/']) ++ b := by rw [List.append_assoc, List.singleton_append]
  rw [dirPart, hsplit, rdropWhile_append_file hb, List.rdropWhile_concat_neg _ _ _ (by decide)]

theorem slash_notMem_filePart (rest : Text) : '/' ∉ filePart rest := by
  intro hmem
  have hne := List.mem_rtakeWhile_imp hmem
  simp at hne

theorem dirPart_append_filePart (rest : Text) : dirPart rest ++ filePart rest = rest :=
  List.rdropWhile_append_rtakeWhile

theorem dirPart_or (rest : Text) : dirPart rest = [] ∨ ∃ a, dirPart rest = a ++ ['/'] := by
  by_cases hnil : dirPart rest = []
  · exact .inl hnil
  · have hlast := List.rdropWhile_last_not _ rest hnil
    refine .inr ⟨(dirPart rest).dropLast, ?_⟩
    rw [decide_eq_true_eq, not_not] at hlast
    have hconcat := (List.dropLast_append_getLast hnil).symm
    rwa [show (dirPart rest).getLast hnil = '/' from hlast] at hconcat

theorem rfind_append (a : Text) (hb : '/' ∉ b) : rfind (a ++ '/' :: b) '/' = some a.length := by
  have hdir := dirPart_append a hb
  rw [dirPart] at hdir
  rw [rfind, if_pos (by simp), hdir]
  simp

theorem targetDir_eq (destPath : Text) : ∃ t, targetDir destPath = t ++ ['/'] := by
  unfold targetDir
  split
  · rename_i hlast
    exact ⟨destPath.dropLast, (List.dropLast_append_getLast? _ hlast).symm⟩
  · exact ⟨destPath, rfl⟩

/-- What is a shorter prefix of the target directory is a prefix of the destination. -/
theorem prefix_of_targetDir {q rest destPath : Text} (h : targetDir destPath = q ++ '/' :: rest) :
    q <+: destPath := by
  unfold targetDir at h
  split at h
  · exact ⟨'/' :: rest, h.symm⟩
  · cases List.eq_nil_or_concat rest with
    | inl hnil =>
      rw [hnil] at h
      exact (List.append_inj' h rfl).1 ▸ List.prefix_refl _
    | inr hconcat =>
      obtain ⟨rest', c, rfl⟩ := hconcat
      rw [List.concat_eq_append, ← List.cons_append, ← List.append_assoc] at h
      exact ⟨'/' :: rest', (List.append_inj' h rfl).1.symm⟩

theorem append_singleton_of_append {x y : Text} {c : Char} (h : a ++ [c] = x ++ y) :
    y = [] ∨ ∃ y', y = y' ++ [c] ∧ a = x ++ y' := by
  refine (List.eq_nil_or_concat y).imp_right ?_
  rintro ⟨y', c', rfl⟩
  rw [List.concat_eq_append, ← List.append_assoc] at h
  obtain ⟨rfl, hc⟩ := List.append_inj' h rfl
  exact ⟨y', by rw [List.concat_eq_append, List.singleton_inj.mp hc], rfl⟩

theorem level_cases {t r A c B : Text} (h : t ++ ['/'] ++ r = A ++ '/' :: c ++ '/' :: B)
    (hc : '/' ∉ c) : (∃ rest, t ++ ['/'] = A ++ '/' :: c ++ '/' :: rest) ∨
      ∃ r', A ++ ['/'] = t ++ ['/'] ++ r' ∧ r = r' ++ (c ++ '/' :: B) := by
  have hlevel : A ++ '/' :: c ++ ['/'] <+: t ++ ['/'] ++ r :=
    ⟨B, by rw [h, List.append_assoc, List.singleton_append]⟩
  rcases List.prefix_or_prefix_of_prefix hlevel (List.prefix_append (t ++ ['/']) r) with ⟨rest,
    hrest⟩ | ⟨y, hy⟩
  · exact .inl ⟨rest, by rw [← hrest, List.append_assoc _ ['/'], List.singleton_append]⟩
  · rcases append_singleton_of_append hy.symm with rfl | ⟨y', -, hy'⟩
    · exact .inl ⟨[], by rw [← hy, List.append_nil]⟩
    · have hdir : A ++ ['/'] <+: A ++ '/' :: c :=
        ⟨c, by rw [List.append_assoc, List.singleton_append]⟩
      have hle : t ++ ['/'] <+: A ++ ['/'] := by
        rcases List.prefix_or_prefix_of_prefix hdir ⟨y', hy'.symm⟩ with ⟨z, hz⟩ | hle
        · rcases append_singleton_of_append hz.symm with rfl | ⟨z', rfl, -⟩
          · rw [← hz, List.append_nil]
          · refine absurd ?_ hc
            rw [← hz, List.append_assoc, List.append_assoc, List.singleton_append,
              List.append_cancel_left_eq, List.cons.injEq] at hy'
            rw [hy'.2]
            simp
        · exact hle
      obtain ⟨r', hr'⟩ := hle
      refine .inr ⟨r', hr'.symm, ?_⟩
      have hall : t ++ ['/'] ++ r = t ++ ['/'] ++ (r' ++ (c ++ '/' :: B)) := by
        rw [h, ← List.append_assoc _ r', hr']
        simp
      exact List.append_cancel_left hall

/-- The path of some directories, each with a slash behind it. -/
def dirText (cs : List Text) : Text := cs.flatMap (· ++ ['/'])

theorem dirText_cons (c : Text) (cs : List Text) : dirText (c :: cs) = c ++ '/' :: dirText cs := by
  rw [dirText, List.flatMap_cons, List.append_assoc, List.singleton_append]
  rfl

theorem splitOn_dirText {cs : List Text} (hcs : ∀ c ∈ cs, '/' ∉ c) (rest : Text) :
    (dirText cs ++ rest).splitOn '/' = cs ++ rest.splitOn '/' := splitOn_pieces_append hcs rest

theorem splitOn_dirText_nil {cs : List Text} (hcs : ∀ c ∈ cs, '/' ∉ c) :
    (dirText cs).splitOn '/' = cs ++ [[]] :=
  splitOn_pieces hcs

theorem exists_dirText (h : a = [] ∨ ∃ a', a = a' ++ ['/']) :
    ∃ cs, a = dirText cs ∧ ∀ c ∈ cs, '/' ∉ c := by
  rcases h with rfl | ⟨a', rfl⟩
  · exact ⟨[], rfl, fun _ hmem => absurd hmem List.not_mem_nil⟩
  · exact ⟨a'.splitOn '/', (flatMap_splitOn '/' a').symm, fun c hc => (of_mem_splitOn hc).1⟩

end

/-! ## Levels -/

/-- A directory was made. -/
structure Made (fs fs' : Fs (List UInt8)) (loc : Loc) : Prop where
  none : fs.node loc = none
  node : ∀ p, fs'.node p = if p = loc then some .dir else fs.node p

theorem Made.grows {fs fs' : Fs (List UInt8)} {loc : Loc} (h : Made fs fs' loc) : fs.Grows fs' :=
  .of_put h.node (fun _ heq => by cases heq) (.inl h.none)

theorem Made.of_ne {fs fs' : Fs (List UInt8)} {loc p : Loc} (h : Made fs fs' loc) (hp : p ≠ loc) :
    fs'.node p = fs.node p := by rw [h.node, if_neg hp]

section
variable {env : Env} {timestamp ok : Bool} {st st' : State} {path A c : Text} {loc d : Loc}
    {fs fs' : Fs (List UInt8)}

theorem andThen_eq {r : Bool × State} {next : State → Bool × State}
    (h : andThen r next = (ok, st')) : r = (false, st') ∧ ok = false ∨ ∃ st₁, r = (true, st₁) ∧
    next st₁ = (ok, st') := by
  rcases r with ⟨_ | _, st₁⟩
  · cases h
    exact .inl ⟨rfl, rfl⟩
  · exact .inr ⟨st₁, rfl, h⟩

theorem dirStatus_spec {status : DirStatus} (h : dirStatus env path st = (status, st')) :
    st'.fs = st.fs ∧
    (status = .DDIR → ∃ loc, st.fs.locate [] true path = .ok loc ∧ st.fs.node loc = some .dir) ∧
      (status = .DMISSING → path.length < 4096) := by
  unfold dirStatus at h
  split at h
  · cases h
    exact ⟨rfl, fun h => (by cases h), fun h => by cases h⟩
  · split at h
    · rename_i loc hloc
      have hlen := (Fs.length_lt_of_locate hloc).2
      split at h
      · rename_i hdir
        cases h
        exact ⟨rfl, fun _ => ⟨loc, hloc, hdir⟩, fun h => by cases h⟩
      · cases h
        exact ⟨rfl, fun h => (by cases h), fun h => by cases h⟩
      · cases h
        exact ⟨rfl, fun h => (by cases h), fun _ => hlen⟩
    · rename_i herror
      cases h
      refine ⟨rfl, fun h => (by cases h), fun _ => ?_⟩
      by_contra hlong
      have hlong := Nat.not_lt.mp hlong
      rw [Fs.locate, if_neg (by rintro rfl; simp at hlong), if_pos hlong] at herror
      cases herror
    · cases h
      exact ⟨rfl, fun h => (by cases h), fun h => by cases h⟩

theorem mkdir_spec (h : mkdir env path st = (ok, st')) :
    st'.fs = st.fs ∧ ok = false ∨ ∃ loc, st.fs.locate [] false path = .ok loc ∧
    Made st.fs st'.fs loc := by
  unfold mkdir at h
  split at h
  · cases h
    exact .inl ⟨rfl, rfl⟩
  · split at h
    · cases h
      exact .inl ⟨rfl, rfl⟩
    · rename_i loc hloc
      split at h
      · rename_i hnone
        split at h
        · rename_i fs hput
          cases h
          obtain ⟨-, -, -, -, -, -, hnode⟩ := Fs.putAt_eq_some hput
          exact .inr ⟨loc, hloc, hnone, hnode⟩
        · cases h
          exact .inl ⟨rfl, rfl⟩
      · cases h
        exact .inl ⟨rfl, rfl⟩

theorem makeLevel_spec (h : makeLevel env timestamp path st = (ok, st')) :
    st'.fs = st.fs ∧
    (ok = true → ∃ loc, st.fs.locate [] true path = .ok loc ∧ st.fs.node loc = some .dir) ∨
      ∃ loc, st.fs.locate [] false path = .ok loc ∧ Made st.fs st'.fs loc := by
  unfold makeLevel at h
  split at h
  · rename_i st₁ hstatus
    cases h
    exact .inl ⟨(dirStatus_spec hstatus).1, fun hok => by cases hok⟩
  · rename_i st₁ hstatus
    have hfs := (dirStatus_spec hstatus).1
    rcases andThen_eq h with ⟨hmkdir, rfl⟩ | ⟨st₂, hmkdir, hnext⟩
    · rcases mkdir_spec hmkdir with ⟨hfs', -⟩ | hmade
      · exact .inl ⟨hfs'.trans hfs, fun hok => by cases hok⟩
      · exact .inr (hfs ▸ hmade)
    · have hfs₂ : st'.fs = st₂.fs := by
        split at hnext
        · cases hnext
          rfl
        · cases hnext
          rfl
      rcases mkdir_spec hmkdir with ⟨-, hfalse⟩ | hmade
      · cases hfalse
      · exact .inr (by rw [hfs₂, ← hfs]; exact hmade)
  · rename_i st₁ hstatus
    cases h
    exact .inl ⟨(dirStatus_spec hstatus).1, fun _ => (dirStatus_spec hstatus).2.1 rfl⟩

theorem walk_eq_name {follow : Bool} {links : Nat} (hd : fs.node d = some .dir) (hc : '/' ∉ c)
    (h : fs.walk follow links d [c] = .ok loc) (hloc : fs.node loc ≠ some .dir) :
    IsName c ∧
    ((follow = true → ∀ target, fs.node (d ++ [c]) ≠ some (.link target)) → loc = d ++ [c]) := by
  by_cases hself : c = [] ∨ c = ['.']
  · rw [Fs.walk_skip hself, Fs.walk_nil] at h
    cases h
    exact absurd hd hloc
  by_cases hup : c = ['.', '.']
  · rw [hup, Fs.walk_up, Fs.walk_nil] at h
    cases h
    exact absurd (Fs.node_dropLast hd) hloc
  by_cases hlong : 255 < c.length
  · rw [Fs.walk, if_neg hself, if_neg hup, if_pos hlong] at h
    cases h
  refine ⟨⟨fun h => hself (.inl h), hc, fun h => hself (.inr h), hup, Nat.not_lt.mp hlong⟩,
    fun hlink => ?_⟩
  rw [Fs.walk, if_neg hself, if_neg hup, if_neg hlong] at h
  split at h
  · rw [Fs.walk_nil] at h
    exact (Except.ok.inj h).symm
  · rw [if_pos rfl] at h
    exact (Except.ok.inj h).symm
  · rename_i target hnode
    cases follow with
    | false =>
      rw [if_pos ⟨rfl, rfl⟩] at h
      exact (Except.ok.inj h).symm
    | true => exact absurd hnode (hlink rfl target)
  · rw [if_pos rfl] at h
    exact (Except.ok.inj h).symm

theorem makeLevel_located (h : makeLevel env timestamp (A ++ '/' :: c) st = (ok, st'))
    (hA : st.fs.locate [] true (A ++ ['/']) = .ok d) (hc : '/' ∉ c)
    (hlen : (A ++ '/' :: c ++ ['/']).length < 4096) :
    (st'.fs = st.fs ∨ IsName c ∧ Made st.fs st'.fs (d ++ [c]) ∧
      st'.fs.locate [] true (A ++ '/' :: c) = .ok (d ++ [c])) ∧
      (ok = true → ∃ loc, st'.fs.locate [] true (A ++ '/' :: c ++ ['/']) = .ok loc) := by
  have hdir {fs : Fs (List UInt8)} {loc : Loc} (hloc : fs.locate [] true (A ++ '/' :: c) = .ok loc)
      (hnode : fs.node loc = some .dir) : fs.locate [] true (A ++ '/' :: c ++ ['/']) = .ok loc := by
    obtain ⟨links, hrest⟩ := Fs.locate_append hloc hnode
    rw [hrest [] hlen true, List.splitOn_nil, Fs.walk_skip (.inl rfl), Fs.walk_nil]
  have hshort : (A ++ '/' :: c).length < 4096 := by
    rw [List.length_append] at hlen
    omega
  rcases makeLevel_spec h with ⟨hfs, hok⟩ | ⟨loc, hloc, hmade⟩
  · refine ⟨.inl hfs, fun h => ?_⟩
    obtain ⟨loc, hloc, hnode⟩ := hok h
    exact ⟨loc, by rw [hfs]; exact hdir hloc hnode⟩
  · obtain ⟨hd, links, hrest⟩ := Fs.locate_dir st.fs.root hA
    rw [hrest c hshort, List.splitOn_eq_singleton hc] at hloc
    have hnotDir : st.fs.node loc ≠ some .dir := by
      rw [hmade.none]
      simp
    obtain ⟨hname, hloc⟩ := walk_eq_name hd hc hloc hnotDir
    obtain rfl := hloc fun h => by cases h
    have hnode : st'.fs.node (d ++ [c]) = some .dir := by rw [hmade.node, if_pos rfl]
    obtain ⟨hd', links', hrest'⟩ :=
      Fs.locate_dir st'.fs.root (Fs.locate_grows hmade.grows hA (by rw [hd]; rfl))
    have hlocate : st'.fs.locate [] true (A ++ '/' :: c) = .ok (d ++ [c]) := by
      rw [hrest' c hshort, List.splitOn_eq_singleton hc, Fs.walk_dir hnode, Fs.walk_nil]
    exact ⟨.inr ⟨hname, hmade, hlocate⟩, fun _ => ⟨_, hdir hlocate hnode⟩⟩

theorem drop_level (A s : Text) : (A ++ '/' :: s).drop (A.length + 1) = s := by
  rw [List.drop_append, List.drop_eq_nil_of_le (by omega), List.nil_append, Nat.add_sub_cancel_left]
  rfl

theorem makeLevels_nil : makeLevels env timestamp (A ++ ['/']) A.length st = (true, st) := by
  rw [makeLevels]
  split
  · rfl
  · rename_i hfind
    obtain ⟨x, y, hxy, -⟩ := find_eq_some hfind
    rw [drop_level] at hxy
    exact absurd hxy.symm (List.append_ne_nil_of_right_ne_nil x (List.cons_ne_nil _ y))

theorem makeLevels_cons {s : Text} (hc : '/' ∉ c) :
    makeLevels env timestamp (A ++ '/' :: (c ++ '/' :: s)) A.length st =
      andThen (makeLevel env timestamp (A ++ '/' :: c) st)
        (makeLevels env timestamp (A ++ '/' :: (c ++ '/' :: s)) (A ++ '/' :: c).length) := by
  rw [makeLevels]
  split
  · rename_i hfind
    have hnone := find_eq_none hfind
    rw [drop_level] at hnone
    exact absurd (List.mem_append_right c List.mem_cons_self) hnone
  · rename_i nextEnd hfind
    obtain ⟨x, y, hxy, hx, hnext⟩ := find_eq_some hfind
    rw [drop_level] at hxy
    have hcx : c = x := by
      have hhead := congrArg (List.takeWhile (· ≠ '/')) hxy
      have hpos {t : Text} (ht : '/' ∉ t) : ∀ b ∈ t, decide (b ≠ '/') = true := fun b hb =>
        decide_eq_true fun heq => ht (heq ▸ hb)
      rwa [takeWhile_append_stop (hpos hc) (by simp), takeWhile_append_stop (hpos hx) (by simp)]
        at hhead
    have hlength : (A ++ '/' :: c).length = nextEnd := by
      rw [hnext, hcx, List.length_append, List.length_cons]
      omega
    have hsplit :
        A ++ '/' :: (c ++ '/' :: s) = A ++ '/' :: c ++ '/' :: s := by
        rw [List.append_assoc, List.cons_append]
    rw [← hlength, hsplit, List.take_left]

/-- What holds of the file system through the levels of a path, if each directory that is made keeps
it. -/
theorem makeLevels_spec {I : Fs (List UInt8) → Prop} {cs : List Text} (hcs : ∀ c ∈ cs, '/' ∉ c)
    (hpath : path = A ++ '/' :: dirText cs) (hlen : path.length < 4096)
    (hI : ∀ A c B fs fs' d, path = A ++ '/' :: c ++ '/' :: B → '/' ∉ c → I fs →
      fs.locate [] true (A ++ ['/']) = .ok d → IsName c → Made fs fs' (d ++ [c]) →
      fs'.locate [] true (A ++ '/' :: c) = .ok (d ++ [c]) → I fs')
      (hA : st.fs.locate [] true (A ++ ['/']) = .ok d) (hst : I st.fs)
      (h : makeLevels env timestamp path A.length st = (ok, st')) :
      I st'.fs ∧ (ok = true → ∃ loc, st'.fs.locate [] true path = .ok loc) := by
  induction cs generalizing A st d with
  | nil =>
    rw [hpath, dirText, List.flatMap_nil, makeLevels_nil] at h
    cases h
    exact ⟨hst, fun _ => ⟨d, by rw [hpath]; exact hA⟩⟩
  | cons c cs ih =>
    have hc := hcs c List.mem_cons_self
    rw [dirText_cons] at hpath
    have hpath' :
        path = A ++ '/' :: c ++ '/' :: dirText cs := by
        rw [hpath, List.append_assoc, List.cons_append]
    have hlevelLen : (A ++ '/' :: c ++ ['/']).length < 4096 := by
      rw [hpath', List.length_append, List.length_cons] at hlen
      rw [List.length_append, List.length_singleton]
      omega
    rw [hpath, makeLevels_cons hc, ← hpath] at h
    have hkeep {ok₁ : Bool} {st₁ : State} (hlevel : makeLevel env timestamp (A ++ '/' :: c) st =
        (ok₁, st₁)) : I st₁.fs ∧
        (ok₁ = true → ∃ loc, st₁.fs.locate [] true (A ++ '/' :: c ++ ['/']) = .ok loc) := by
      obtain ⟨hfs | ⟨hname, hmade, hlocate⟩, hok⟩ := makeLevel_located hlevel hA hc hlevelLen
      · exact ⟨hfs ▸ hst, hok⟩
      · exact ⟨hI A c (dirText cs) _ _ d hpath' hc hst hA hname hmade hlocate, hok⟩
    rcases andThen_eq h with ⟨hlevel, rfl⟩ | ⟨st₁, hlevel, hnextLevels⟩
    · exact ⟨(hkeep hlevel).1, fun hok => by cases hok⟩
    · obtain ⟨hst₁, hok⟩ := hkeep hlevel
      obtain ⟨loc, hloc⟩ := hok rfl
      exact ih (fun c' hc' => hcs c' (List.mem_cons_of_mem _ hc')) hpath' hloc hst₁ hnextLevels

/-- The path whose directories are made ends in front of the name of the file. -/
theorem mkdirRecursively_eq {cs : List Text} {n : Text} (hn : '/' ∉ n) :
    mkdirRecursively env timestamp ('/' :: dirText cs ++ n) true st =
      match dirStatus env ('/' :: dirText cs) st with
      | (.DDIR, st) => (true, st)
      | (.DILLEGAL, st) => (false, st)
      | (.DMISSING, st) => makeLevels env timestamp ('/' :: dirText cs) 0 st := by
  obtain ⟨a, ha⟩ : ∃ a, '/' :: dirText cs = a ++ ['/'] := by
    cases List.eq_nil_or_concat cs with
    | inl hnil => exact ⟨[], by rw [hnil]; rfl⟩
    | inr hconcat =>
      obtain ⟨cs', c, rfl⟩ := hconcat
      refine ⟨'/' :: (dirText cs' ++ c), ?_⟩
      rw [List.concat_eq_append, dirText, List.flatMap_append, List.flatMap_singleton,
        ← List.append_assoc]
      rfl
  have hpath :
      ((rfind ('/' :: dirText cs ++ n) '/').map fun pos =>
        ('/' :: dirText cs ++ n).take (pos + 1)) = some ('/' :: dirText cs) := by
    have hsplit :
        '/' :: dirText cs ++ n = a ++ '/' :: n := by
        rw [ha, List.append_assoc, List.singleton_append]
    have hlen :
        a.length + 1 = ('/' :: dirText cs).length := by
        rw [ha, List.length_append, List.length_singleton]
    rw [hsplit, rfind_append a hn, ← hsplit, Option.map_some, hlen, List.take_left]
  rw [mkdirRecursively, if_neg (by simp)]
  dsimp only
  rw [if_pos rfl, hpath]

theorem locate_root : fs.locate [] true ['/'] = .ok [] := by
  have hsplit : ['/'].splitOn '/' = [[], []] := by decide
  rw [Fs.locate, if_neg (by decide), if_neg (by decide), hsplit, Fs.walk_skip (.inl rfl),
    Fs.walk_skip (.inl rfl), Fs.walk_nil]
  rfl

theorem mkdirRecursively_spec {I : Fs (List UInt8) → Prop} {B n : Text}
    (hend : B = [] ∨ ∃ b, B = b ++ ['/']) (hn : '/' ∉ n)
    (hI : ('/' :: B).length < 4096 → ∀ A c B' fs fs' d, '/' :: B = A ++ '/' :: c ++ '/' :: B' →
      '/' ∉ c → I fs → fs.locate [] true (A ++ ['/']) = .ok d → IsName c → Made fs fs' (d ++ [c]) →
      fs'.locate [] true (A ++ '/' :: c) = .ok (d ++ [c]) → I fs')
    (hst : I st.fs) (h : mkdirRecursively env timestamp ('/' :: B ++ n) true st = (ok, st')) :
    I st'.fs ∧ (ok = true → ∃ loc, st'.fs.locate [] true ('/' :: B) = .ok loc) := by
  obtain ⟨cs, rfl, hcs⟩ := exists_dirText hend
  rw [mkdirRecursively_eq hn] at h
  split at h
  · rename_i st₁ hstatus
    cases h
    obtain ⟨hfs, hdir, -⟩ := dirStatus_spec hstatus
    obtain ⟨loc, hloc, -⟩ := hdir rfl
    exact ⟨hfs ▸ hst, fun _ => ⟨loc, by rw [hfs]; exact hloc⟩⟩
  · rename_i st₁ hstatus
    cases h
    exact ⟨(dirStatus_spec hstatus).1 ▸ hst, fun hok => by cases hok⟩
  · rename_i st₁ hstatus
    obtain ⟨hfs, -, hlen⟩ := dirStatus_spec hstatus
    exact @makeLevels_spec env timestamp ok st₁ st' ('/' :: dirText cs) [] [] I cs hcs rfl
      (hlen rfl) (hI (hlen rfl)) locate_root
      (hfs ▸ hst) h

end

end BootableRecovery.ExtractPackage
