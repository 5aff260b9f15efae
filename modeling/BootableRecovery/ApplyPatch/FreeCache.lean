import BootableRecovery.LibBase.Strings
import Mathlib.Algebra.BigOperators.Group.Finset.Basic
import Mathlib.Data.Char
import Mathlib.Data.List.Sort
import Mathlib.Data.Set.Finite.Lemmas
import Mathlib.Order.Lex

/-!
# Room on the cache partition

`MakeFreeSpaceOnCache` of `applypatch/freecache.cpp` deletes files of `/cache` that no process has
open. The loop leaves at the wrong time: it is to go on while there is too little space, and it ends
then. So it does what it is for only where there is at most one file to delete, or where the outcome
is the same (`makeFreeSpaceOnCache_right_iff`).
-/

namespace BootableRecovery.ApplyPatch

/-- `NAME_MAX` and `FILENAME_MAX` of the C library. -/
def NAME_MAX : Nat := 255

def FILENAME_MAX : Nat := 4096

/-- The cache partition as the program sees it: the names in a directory, if it can be opened,
whether there is a regular file at a path and how much space that takes, what is free,
`cache_temp_source`, and the entries of `/proc` with the links in their `fd` directories. -/
structure Cache where
  readdir : Text → Option (List Text)
  isRegular : Text → Bool
  size : Text → Nat
  free : Nat
  cacheTempSource : Text
  proc : Option (List (Text × Option (List (Option Text))))
  nameMax : ∀ dir names, readdir dir = some names → ∀ name ∈ names, name.length ≤ NAME_MAX

namespace Cache

variable (cache : Cache)

/-- `dirs` of `FindExpendableFiles`. -/
def dirs : List Text := ["/cache".toList, "/cache/recovery/otatest".toList]

/-- `files->insert`, for a set in the order of the strings. -/
def insertFile (files : List Text) (path : Text) : List Text :=
  if path ∈ files then files else files.orderedInsert (· ≤ ·) path

/-- The inner loop of `FindExpendableFiles`, over the names of a directory. -/
def findIn (dir : Text) (files : List Text) (names : List Text) : List Text :=
  names.foldl (fun files name =>
    let path := dir ++ '/' :: name
    if path = cache.cacheTempSource then files
    else if cache.isRegular path then insertFile files path else files) files

/-- `android::base::ParseUint` for an `unsigned int`. -/
def parsePid (name : Text) : Option Nat := (parseUint name).filter (· < 2 ^ 32)

/-- One link of the inner loop of `EliminateOpenFiles`, as `readlink` puts it into the buffer. -/
def eraseLink (files : List Text) : Option Text → List Text
  | none => files
  | some target =>
    let link := target.take (FILENAME_MAX - 1)
    if "/cache/".toList.isPrefixOf link then files.erase link else files

/-- One entry of `/proc`: a process with its links, if its directory can be opened. -/
def eraseOpen (files : List Text) (entry : Text × Option (List (Option Text))) : List Text :=
  match parsePid entry.1 with
  | none => files
  | some _ =>
    match entry.2 with
    | none => files
    | some links => links.foldl eraseLink files

/-- `EliminateOpenFiles`; `none` if `/proc` cannot be opened. -/
def eliminateOpenFiles (files : List Text) : Option (List Text) :=
  cache.proc.map fun entries => entries.foldl eraseOpen files

def findExpendableFiles : List Text :=
  let files := dirs.foldl (fun files dir =>
    match cache.readdir dir with
    | none => files
    | some names => cache.findIn dir files names) []
  (cache.eliminateOpenFiles files).getD []

/-- The loop of `MakeFreeSpaceOnCache`: the space that is free in the end, and the files that were
deleted. -/
def deleteFiles (bytesNeeded : Nat) : List Text → (freeNow : Nat) → Nat × List Text
  | [], freeNow => (freeNow, [])
  | file :: files, freeNow =>
    let freeNow := freeNow + cache.size file
    if freeNow < bytesNeeded then (freeNow, [file])
    else
      let (freeNow, deleted) := deleteFiles bytesNeeded files freeNow
      (freeNow, file :: deleted)

/-- `MakeFreeSpaceOnCache` on a device: its result and the files that it has deleted. -/
def makeFreeSpaceOnCache (bytesNeeded : Nat) : Int × List Text :=
  if cache.free ≥ bytesNeeded then (0, [])
  else
    let files := cache.findExpendableFiles
    if files.isEmpty then (-1, [])
    else
      let (freeNow, deleted) := cache.deleteFiles bytesNeeded files cache.free
      (if freeNow ≥ bytesNeeded then 0 else -1, deleted)

/-! ## What may be deleted -/

/-- A process has the file open, as far as `/proc` shows. -/
def IsOpen (path : Text) : Prop :=
  ∃ entries, cache.proc = some entries ∧ ∃ name links, (name, some links) ∈ entries ∧
    (parsePid name).isSome ∧ some path ∈ links

/-- A regular file directly in one of the directories, which no process has open, and not
`cache_temp_source`. -/
structure Expendable (path : Text) : Prop where
  entry : ∃ dir ∈ dirs, ∃ names, cache.readdir dir = some names ∧ ∃ name ∈ names, path =
    dir ++ '/' :: name
  regular : cache.isRegular path = true
  notTemp : path ≠ cache.cacheTempSource
  notOpen : ¬cache.IsOpen path

variable {cache}

theorem mem_insertFile {files : List Text} {path f : Text} :
    f ∈ insertFile files path ↔ f = path ∨ f ∈ files := by
  unfold insertFile
  split
  · rename_i hmem
    exact ⟨.inr, fun h => h.elim (fun h => h ▸ hmem) id⟩
  · exact List.mem_orderedInsert _

theorem nodup_insertFile {files : List Text} (h : files.Nodup) (path : Text) :
    (insertFile files path).Nodup := by
  unfold insertFile
  split
  · exact h
  · rename_i hmem
    exact (List.perm_orderedInsert _ path files).nodup_iff.mpr (List.nodup_cons.mpr ⟨hmem, h⟩)

theorem mem_findIn {dir f : Text} {files names : List Text} :
    f ∈ cache.findIn dir files names ↔ f ∈ files ∨
      ∃ name ∈ names, f = dir ++ '/' :: name ∧ cache.isRegular f = true ∧
      f ≠ cache.cacheTempSource := by
  induction names generalizing files with
  | nil => simp [findIn]
  | cons name names ih =>
    rw [findIn, List.foldl_cons, ← findIn, ih, List.exists_mem_cons_iff]
    dsimp only
    by_cases htemp : dir ++ '/' :: name = cache.cacheTempSource
    · rw [if_pos htemp]
      have hnot :
          ¬(f = dir ++ '/' :: name ∧ cache.isRegular f = true ∧ f ≠ cache.cacheTempSource) := by
        rintro ⟨rfl, -, hne⟩
        exact hne htemp
      rw [or_iff_right hnot]
    · rw [if_neg htemp]
      by_cases hregular : cache.isRegular (dir ++ '/' :: name) = true
      · rw [if_pos hregular, mem_insertFile]
        have hiff : f = dir ++ '/' :: name ↔
            f = dir ++ '/' :: name ∧ cache.isRegular f = true ∧ f ≠ cache.cacheTempSource :=
          ⟨fun h => ⟨h, h ▸ hregular, h ▸ htemp⟩, And.left⟩
        rw [← hiff, or_comm (b := f ∈ files), or_assoc]
      · rw [if_neg hregular]
        have hnot :
            ¬(f = dir ++ '/' :: name ∧ cache.isRegular f = true ∧ f ≠ cache.cacheTempSource) := by
          rintro ⟨rfl, hreg, -⟩
          exact hregular hreg
        rw [or_iff_right hnot]

theorem nodup_findIn {dir : Text} {files names : List Text} (h : files.Nodup) :
    (cache.findIn dir files names).Nodup := by
  induction names generalizing files with
  | nil => exact h
  | cons name names ih =>
    rw [findIn, List.foldl_cons, ← findIn]
    refine ih ?_
    dsimp only
    split
    · exact h
    · split
      · exact nodup_insertFile h _
      · exact h

variable (cache) in
/-- The regular files in the directories, without `cache_temp_source`. -/
def regularFiles : List Text :=
  dirs.foldl (fun files dir =>
    match cache.readdir dir with
    | none => files
    | some names => cache.findIn dir files names) []

theorem nodup_regularFiles : cache.regularFiles.Nodup := by
  unfold regularFiles
  refine List.foldlRecOn dirs _ List.nodup_nil fun files h dir _ => ?_
  split
  · exact h
  · exact nodup_findIn h

theorem mem_regularFiles {f : Text} : f ∈ cache.regularFiles ↔
    (∃ dir ∈ dirs, ∃ names, cache.readdir dir = some names ∧
      ∃ name ∈ names, f = dir ++ '/' :: name) ∧ cache.isRegular f = true ∧
      f ≠ cache.cacheTempSource := by
  have hdir : ∀ (dir : Text) (files : List Text), (f ∈ match cache.readdir dir with
      | none => files
      | some names => cache.findIn dir files names) ↔ f ∈ files ∨
        (∃ names, cache.readdir dir = some names ∧ ∃ name ∈ names, f = dir ++ '/' :: name) ∧
          cache.isRegular f = true ∧ f ≠ cache.cacheTempSource := by
    intro dir files
    split
    · rename_i hnone
      simp [hnone]
    · rename_i names hsome
      rw [mem_findIn, hsome]
      simp only [Option.some.injEq, exists_eq_left', exists_and_right, ← and_assoc]
  unfold regularFiles dirs
  simp only [List.foldl_cons, List.foldl_nil, hdir, List.not_mem_nil, false_or, List.mem_cons,
    or_false, exists_eq_or_imp, exists_eq_left]
  rw [or_and_right]

/-! ## Open files -/

/-- A path below `/cache` that fits into the buffer for a link. -/
structure Fits (f : Text) : Prop where
  below : "/cache/".toList.isPrefixOf f = true
  length : f.length < FILENAME_MAX - 1

theorem fits_of_mem_regularFiles {f : Text} (h : f ∈ cache.regularFiles) : Fits f := by
  obtain ⟨⟨dir, hdir, names, hread, name, hname, rfl⟩, -, -⟩ := mem_regularFiles.mp h
  have hlen := cache.nameMax dir names hread name hname
  unfold NAME_MAX at hlen
  simp only [dirs, List.mem_cons, List.not_mem_nil, or_false] at hdir
  rcases hdir with rfl | rfl
  · refine ⟨?_, ?_⟩
    · rw [List.isPrefixOf_iff_prefix]
      exact ⟨name, rfl⟩
    · rw [List.length_append, List.length_cons, show "/cache".toList.length = 6 from rfl,
        FILENAME_MAX]
      omega
  · refine ⟨?_, ?_⟩
    · rw [List.isPrefixOf_iff_prefix]
      exact ⟨"recovery/otatest/".toList ++ name, rfl⟩
    · rw [List.length_append, List.length_cons, show "/cache/recovery/otatest".toList.length =
        23 from rfl, FILENAME_MAX]
      omega

theorem eraseLink_sublist (files : List Text) (target : Option Text) :
    (eraseLink files target).Sublist files := by
  cases target with
  | none => exact .refl _
  | some target =>
    rw [eraseLink]
    split
    · exact List.erase_sublist
    · exact .refl _

theorem mem_eraseLink {files : List Text} {f : Text} {target : Option Text} (hnodup : files.Nodup)
    (hf : Fits f) : f ∈ eraseLink files target ↔ f ∈ files ∧ target ≠ some f := by
  cases target with
  | none => simp [eraseLink]
  | some target =>
    have hlink : target.take (FILENAME_MAX - 1) = f ↔ target = f := by
      constructor
      · intro h
        have hlen : (target.take (FILENAME_MAX - 1)).length < FILENAME_MAX - 1 := h ▸ hf.length
        rw [List.length_take] at hlen
        rwa [List.take_of_length_le (by omega)] at h
      · rintro rfl
        exact List.take_of_length_le (Nat.le_of_lt hf.length)
    rw [eraseLink]
    split
    · rw [hnodup.mem_erase_iff, ne_eq, eq_comm, hlink, and_comm, ne_eq, Option.some.injEq]
    · rename_i hbelow
      have hne : target ≠ f := fun h => hbelow (by rw [hlink.mpr h]; exact hf.below)
      exact ⟨fun h => ⟨h, fun heq => hne (Option.some.inj heq)⟩, And.left⟩

theorem mem_eraseLinks {files : List Text} {f : Text} {links : List (Option Text)}
    (hnodup : files.Nodup) (hf : Fits f) : f ∈ links.foldl eraseLink files ↔
    f ∈ files ∧ some f ∉ links := by
  induction links generalizing files with
  | nil => simp
  | cons link links ih =>
    rw [List.foldl_cons, ih (hnodup.sublist (eraseLink_sublist ..)), mem_eraseLink hnodup hf,
      List.mem_cons, not_or, and_assoc, ne_comm (a := link)]

theorem eraseLinks_sublist (files : List Text) (links : List (Option Text)) :
    (links.foldl eraseLink files).Sublist files := by
  induction links generalizing files with
  | nil => exact .refl _
  | cons link links ih => exact (ih _).trans (eraseLink_sublist ..)

/-- What one process has open. -/
def Holds (entry : Text × Option (List (Option Text))) (f : Text) : Prop :=
  (parsePid entry.1).isSome ∧ ∃ links, entry.2 = some links ∧ some f ∈ links

theorem isOpen_iff {f : Text} {entries : List (Text × Option (List (Option Text)))}
    (h : cache.proc = some entries) : cache.IsOpen f ↔ ∃ entry ∈ entries, Holds entry f := by
  constructor
  · rintro ⟨entries', hproc, name, links, hmem, hpid, hlink⟩
    rw [h] at hproc
    cases hproc
    exact ⟨_, hmem, hpid, links, rfl, hlink⟩
  · rintro ⟨⟨name, fds⟩, hmem, hpid, links, hfds, hlink⟩
    obtain rfl : fds = some links := hfds
    exact ⟨entries, h, name, links, hmem, hpid, hlink⟩

theorem eraseOpen_sublist (files : List Text) (entry : Text × Option (List (Option Text))) :
    (eraseOpen files entry).Sublist files := by
  unfold eraseOpen
  split
  · exact .refl _
  · split
    · exact .refl _
    · exact eraseLinks_sublist ..

theorem mem_eraseOpen {files : List Text} {f : Text} {entry : Text × Option (List (Option Text))}
    (hnodup : files.Nodup) (hf : Fits f) : f ∈ eraseOpen files entry ↔
    f ∈ files ∧ ¬Holds entry f := by
  unfold eraseOpen Holds
  cases parsePid entry.1 with
  | none => simp
  | some pid =>
    cases entry.2 with
    | none => simp
    | some links =>
      dsimp only
      rw [mem_eraseLinks hnodup hf]
      simp

theorem eliminateOpenFiles_spec {files kept : List Text} (hnodup : files.Nodup)
    (hfits : ∀ f ∈ files, Fits f) (h : cache.eliminateOpenFiles files = some kept) :
    kept.Nodup ∧ ∀ f, f ∈ kept ↔ f ∈ files ∧ ¬cache.IsOpen f := by
  obtain ⟨entries, hproc, rfl⟩ := Option.map_eq_some_iff.mp h
  simp only [isOpen_iff hproc]
  clear h hproc
  induction entries generalizing files with
  | nil => exact ⟨hnodup, fun f => by simp⟩
  | cons entry entries ih =>
    have hsub := eraseOpen_sublist files entry
    obtain ⟨hkept, hmem⟩ := ih (hnodup.sublist hsub) fun f hf => hfits f (hsub.subset hf)
    refine ⟨hkept, fun f => ?_⟩
    rw [List.foldl_cons, hmem, List.exists_mem_cons_iff, not_or, ← and_assoc]
    refine and_congr_left fun _ =>
      ⟨fun hf => ?_, fun hf => (mem_eraseOpen hnodup (hfits f hf.1)).mpr hf⟩
    exact (mem_eraseOpen hnodup (hfits f (hsub.subset hf))).mp hf

theorem findExpendableFiles_spec (hproc : cache.proc.isSome) : cache.findExpendableFiles.Nodup ∧
    ∀ f, f ∈ cache.findExpendableFiles ↔ cache.Expendable f := by
  obtain ⟨entries, hentries⟩ := Option.isSome_iff_exists.mp hproc
  have hsome : ∃ kept, cache.eliminateOpenFiles cache.regularFiles = some kept := by
    unfold eliminateOpenFiles
    rw [hentries]
    exact ⟨_, rfl⟩
  obtain ⟨kept, hkept⟩ := hsome
  have hfind : cache.findExpendableFiles = kept := by
    change (cache.eliminateOpenFiles cache.regularFiles).getD [] = kept
    rw [hkept, Option.getD_some]
  obtain ⟨hnodup, hmem⟩ :=
    eliminateOpenFiles_spec nodup_regularFiles (fun f => fits_of_mem_regularFiles) hkept
  rw [hfind]
  refine ⟨hnodup, fun f => ?_⟩
  rw [hmem, mem_regularFiles]
  exact ⟨fun ⟨⟨hentry, hregular, htemp⟩, hopen⟩ => ⟨hentry, hregular, htemp, hopen⟩,
    fun h => ⟨⟨h.entry, h.regular, h.notTemp⟩, h.notOpen⟩⟩

theorem findExpendableFiles_of_none (hproc : cache.proc = none) :
    cache.findExpendableFiles = [] := by
  unfold findExpendableFiles eliminateOpenFiles
  rw [hproc]
  rfl

/-! ## The loop -/

theorem finite_expendable : {f | cache.Expendable f}.Finite :=
  cache.regularFiles.toFinset.finite_toSet.subset fun _ hf =>
    List.mem_toFinset.mpr (mem_regularFiles.mpr ⟨hf.entry, hf.regular, hf.notTemp⟩)

variable (cache) in
/-- The files that may be deleted. -/
noncomputable def expendable : Finset Text :=
  (finite_expendable : {f | cache.Expendable f}.Finite).toFinset

theorem mem_expendable {f : Text} : f ∈ cache.expendable ↔ cache.Expendable f :=
  Set.Finite.mem_toFinset _

theorem expendable_eq (hproc : cache.proc.isSome) :
    cache.expendable = cache.findExpendableFiles.toFinset := by
  ext f
  rw [mem_expendable, List.mem_toFinset, (findExpendableFiles_spec hproc).2]

theorem sum_expendable (hproc : cache.proc.isSome) :
    ∑ f ∈ cache.expendable, cache.size f = (cache.findExpendableFiles.map cache.size).sum := by
  rw [expendable_eq hproc, List.sum_toFinset _ (findExpendableFiles_spec hproc).1]

theorem deleteFiles_of_le {bytesNeeded freeNow : Nat} (files : List Text)
    (h : bytesNeeded ≤ freeNow) :
    cache.deleteFiles bytesNeeded files freeNow =
    (freeNow + (files.map cache.size).sum, files) := by
  induction files generalizing freeNow with
  | nil => rfl
  | cons file files ih =>
    have hle : bytesNeeded ≤ freeNow + cache.size file := by omega
    rw [deleteFiles]
    simp only [if_neg (Nat.not_lt.mpr hle), ih hle, List.map_cons, List.sum_cons, Nat.add_assoc]

/-- The loop in all: if the first file is not enough, it is the only one that is deleted; otherwise
all are. -/
theorem deleteFiles_cons {bytesNeeded freeNow : Nat} (file : Text) (files : List Text) :
    cache.deleteFiles bytesNeeded (file :: files) freeNow =
      if freeNow + cache.size file < bytesNeeded then (freeNow + cache.size file, [file])
      else (freeNow + ((file :: files).map cache.size).sum, file :: files) := by
  rw [deleteFiles]
  dsimp only
  split
  · rfl
  · rename_i hle
    rw [deleteFiles_of_le files (Nat.le_of_not_lt hle), List.map_cons, List.sum_cons, Nat.add_assoc]

theorem makeFreeSpaceOnCache_expendable (bytesNeeded : Nat) :
    (cache.makeFreeSpaceOnCache bytesNeeded).2.Nodup ∧
      ∀ f ∈ (cache.makeFreeSpaceOnCache bytesNeeded).2, cache.Expendable f := by
  have hspec :
      cache.findExpendableFiles.Nodup ∧ ∀ f ∈ cache.findExpendableFiles, cache.Expendable f := by
    cases hproc : cache.proc with
    | none =>
      rw [findExpendableFiles_of_none hproc]
      exact ⟨List.nodup_nil, fun f hf => absurd hf List.not_mem_nil⟩
    | some entries =>
      obtain ⟨hnodup, hmem⟩ := @findExpendableFiles_spec cache (by rw [hproc]; rfl)
      exact ⟨hnodup, fun f hf => (hmem f).mp hf⟩
  unfold makeFreeSpaceOnCache
  split
  · exact ⟨List.nodup_nil, fun f hf => absurd hf List.not_mem_nil⟩
  · dsimp only
    split
    · exact ⟨List.nodup_nil, fun f hf => absurd hf List.not_mem_nil⟩
    · cases hfiles : cache.findExpendableFiles with
      | nil => exact ⟨List.nodup_nil, fun f hf => absurd hf List.not_mem_nil⟩
      | cons file files =>
        rw [hfiles] at hspec
        rw [deleteFiles_cons]
        split
        · exact ⟨List.nodup_singleton _, fun f hf =>
            hspec.2 f (List.mem_singleton.mp hf ▸ List.mem_cons_self)⟩
        · exact hspec

variable (cache) in
/-- What `MakeFreeSpaceOnCache` is for: it returns 0 exactly if there can be enough space, deletes
no file when there is enough, and only files that may be deleted. -/
structure Right (bytesNeeded : Nat) (result : Int × List Text) : Prop where
  returns : result.1 = 0 ↔ bytesNeeded ≤ cache.free + ∑ f ∈ cache.expendable, cache.size f
  stops : ∀ i < result.2.length, cache.free + ((result.2.take i).map cache.size).sum < bytesNeeded
  expendable : ∀ f ∈ result.2, cache.Expendable f

theorem right_none_iff {bytesNeeded : Nat} : cache.Right bytesNeeded (-1, []) ↔
    cache.free + ∑ f ∈ cache.expendable, cache.size f < bytesNeeded := by
  have hne : (-1 : Int) ≠ 0 := by decide
  constructor
  · exact fun h => Nat.lt_of_not_le fun hle => hne (h.returns.mpr hle)
  · exact fun h => ⟨iff_of_false hne (Nat.not_le.mpr h), fun i hi => absurd hi (Nat.not_lt_zero i),
      fun f hf => absurd hf List.not_mem_nil⟩

theorem right_single_iff {bytesNeeded : Nat} {file : Text} (hlt : cache.free < bytesNeeded)
    (hfile : cache.Expendable file) : cache.Right bytesNeeded (-1, [file]) ↔
      cache.free + ∑ f ∈ cache.expendable, cache.size f < bytesNeeded := by
  have hne : (-1 : Int) ≠ 0 := by decide
  constructor
  · exact fun h => Nat.lt_of_not_le fun hle => hne (h.returns.mpr hle)
  · refine fun h => ⟨iff_of_false hne (Nat.not_le.mpr h), fun i hi => ?_, fun f hf => ?_⟩
    · obtain rfl : i = 0 := Nat.lt_one_iff.mp hi
      exact hlt
    · rw [List.mem_singleton.mp hf]
      exact hfile

theorem right_all_iff {bytesNeeded : Nat} {file : Text} {files : List Text}
    (hlt : cache.free < bytesNeeded) (hfirst : bytesNeeded ≤ cache.free + cache.size file)
    (hsum : bytesNeeded ≤ cache.free + ∑ f ∈ cache.expendable, cache.size f)
    (honly : ∀ f ∈ file :: files, cache.Expendable f) :
    cache.Right bytesNeeded (0, file :: files) ↔ files = [] := by
  constructor
  · intro h
    by_contra hne
    have hstop := h.stops 1 (by rw [List.length_cons]; have := List.length_pos_iff.mpr hne; omega)
    rw [List.take_succ_cons, List.take_zero, List.map_singleton, List.sum_singleton] at hstop
    exact absurd hstop (Nat.not_lt.mpr hfirst)
  · rintro rfl
    refine ⟨iff_of_true rfl hsum, fun i hi => ?_, honly⟩
    obtain rfl : i = 0 := Nat.lt_one_iff.mp hi
    exact hlt

theorem makeFreeSpaceOnCache_cons {bytesNeeded : Nat} {file : Text} {files : List Text}
    (hlt : cache.free < bytesNeeded) (hfiles : cache.findExpendableFiles = file :: files) :
    cache.makeFreeSpaceOnCache bytesNeeded =
      if cache.free + cache.size file < bytesNeeded then (-1, [file]) else (0, file :: files) := by
  unfold makeFreeSpaceOnCache
  rw [if_neg (Nat.not_le.mpr hlt), hfiles]
  dsimp only
  rw [List.isEmpty_cons, if_neg Bool.false_ne_true, deleteFiles_cons]
  split
  · dsimp only
    rw [if_neg (by omega)]
  · dsimp only
    rw [List.map_cons, List.sum_cons, if_pos (by omega)]

/-- **Freeing space.** It is done right if and only if there is enough space at the start, or all
files together are not enough, or there is at most one file (and the open files are known). -/
theorem makeFreeSpaceOnCache_right_iff (bytesNeeded : Nat) :
    cache.Right bytesNeeded (cache.makeFreeSpaceOnCache bytesNeeded) ↔
      bytesNeeded ≤ cache.free ∨ cache.free + ∑ f ∈ cache.expendable, cache.size f < bytesNeeded ∨
        cache.proc.isSome ∧ cache.expendable.card ≤ 1 := by
  rcases Nat.lt_or_ge cache.free bytesNeeded with hlt | henough
  swap
  · have hrun : cache.makeFreeSpaceOnCache bytesNeeded = (0, []) := if_pos henough
    rw [hrun]
    exact iff_of_true ⟨iff_of_true rfl (by omega), fun i hi => absurd hi (Nat.not_lt_zero i),
      fun f hf => absurd hf List.not_mem_nil⟩ (.inl henough)
  rw [or_iff_right (Nat.not_le.mpr hlt)]
  have honly := (@makeFreeSpaceOnCache_expendable cache bytesNeeded).2
  cases hfiles : cache.findExpendableFiles with
  | nil =>
    have hrun : cache.makeFreeSpaceOnCache bytesNeeded = (-1, []) := by
      unfold makeFreeSpaceOnCache
      rw [if_neg (Nat.not_le.mpr hlt), hfiles]
      rfl
    rw [hrun, right_none_iff]
    refine ⟨.inl, fun h => h.elim id fun h => ?_⟩
    rw [sum_expendable h.1, hfiles]
    exact hlt
  | cons file files =>
    have hproc : cache.proc.isSome := by
      by_contra hnone
      rw [Bool.not_eq_true, Option.isSome_eq_false_iff, Option.isNone_iff_eq_none] at hnone
      rw [findExpendableFiles_of_none hnone] at hfiles
      cases hfiles
    have hcard : cache.expendable.card = files.length + 1 := by
      rw [expendable_eq hproc, List.toFinset_card_of_nodup (findExpendableFiles_spec hproc).1,
        hfiles, List.length_cons]
    have hsum :
        ∑ f ∈ cache.expendable, cache.size f = cache.size file + (files.map cache.size).sum := by
      rw [sum_expendable hproc, hfiles, List.map_cons, List.sum_cons]
    have hone : cache.expendable.card ≤ 1 ↔ files = [] := by
      rw [hcard, Nat.succ_le_succ_iff, Nat.le_zero, List.length_eq_zero_iff]
    have hrun := makeFreeSpaceOnCache_cons hlt hfiles
    rw [hrun] at honly ⊢
    split at honly
    · -- the first file is not enough, and it is the only one that is deleted
      rename_i hfirst
      rw [if_pos hfirst, right_single_iff hlt (honly file List.mem_cons_self)]
      refine ⟨.inl, fun h => h.elim id fun h => ?_⟩
      rw [hsum, hone.mp h.2, List.map_nil, List.sum_nil]
      exact hfirst
    · -- it is enough, and all the others are deleted as well
      rename_i hfirst
      have hall : bytesNeeded ≤ cache.free + ∑ f ∈ cache.expendable, cache.size f := by omega
      rw [if_neg hfirst, right_all_iff hlt (Nat.le_of_not_lt hfirst) hall honly, hone,
        or_iff_right (Nat.not_lt.mpr hall), and_iff_right hproc]

/-- Two unopened files of one byte each on a full partition. -/
def twoFiles : Cache where
  readdir dir := if dir = "/cache".toList then some [['a'], ['b']] else none
  isRegular _ := true
  size _ := 1
  free := 0
  cacheTempSource := "/cache/saved.file".toList
  proc := some []
  nameMax dir names h name hname := by
    split at h
    · cases h
      simp only [List.mem_cons, List.not_mem_nil, or_false] at hname
      rcases hname with rfl | rfl <;> decide
    · cases h

/-- Both files are enough for two bytes, but only the first one is deleted. -/
theorem not_makeFreeSpaceOnCache_right : ¬twoFiles.Right 2 (twoFiles.makeFreeSpaceOnCache 2) := by
  intro h
  have hrun : twoFiles.makeFreeSpaceOnCache 2 = (-1, ["/cache/a".toList]) := by decide +kernel
  have hsum : (twoFiles.findExpendableFiles.map twoFiles.size).sum = 2 := by decide +kernel
  have hreturns := h.returns
  rw [sum_expendable rfl, hsum, hrun] at hreturns
  exact absurd (hreturns.mpr (Nat.le_refl 2)) (by decide)

end Cache

end BootableRecovery.ApplyPatch
