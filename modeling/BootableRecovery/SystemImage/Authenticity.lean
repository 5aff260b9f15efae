import BootableRecovery.SystemImage.Upgrader

/-!
# Authenticity of images

`verify_signature` checks the document that belongs to a signature file, and the script unpacks the
file that the command names beside it. These are the same if the commands say so (`Meets`); then
everything that is unpacked or installed was signed as its use requires.
-/

namespace BootableRecovery.SystemImage

/-! ## What is required -/

/-- gpg accepts the names of a signature with a keyring, for a document, and does not accept them
with the blacklist. -/
def Gpg.Signed (gpg : Gpg) (fs : Fs) (cwd : Path) (keyring : Text) (signature : List Text)
    (document : Bytes) : Prop :=
  gpg.verify fs cwd (homeOf keyring) signature = some document ∧
  gpg.verify fs cwd (homeOf blacklist) signature = none

/-- The keyrings that sign keyrings. -/
def requirements : List (Text × Text) :=
  [(imageMaster, archiveMaster), (imageSigning, imageMaster), (blacklist, imageMaster),
    (deviceSigning, imageSigning)]

/-- What is used was signed as it has to be. -/
def Event.Authentic (gpg : Gpg) : Event → Prop
  | .unpacked fs cwd signature tarball =>
    gpg.Signed fs cwd deviceSigning signature tarball ∨
      gpg.Signed fs cwd imageSigning signature tarball
  | .installed fs cwd path signature type tarball =>
    if type = archiveMaster then ¬ "/cache/".toList <+: path
    else ∃ r ∈ requirements, r.1 = type ∧ gpg.Signed fs cwd r.2 signature tarball

/-! ## The condition -/

variable (tools : Tools)

/-- The keyring that `install_keyring` reads. -/
def keyringOf (fs : Fs) (args : List Text) : Option Bytes :=
  xzcat fs tmpDir (expand tools fs tmpDir (args.getD 0 []))

/-- The name that `install_keyring` gives to `verify_signature`. -/
def keyringSignature (fs : Fs) (args : List Text) : Text :=
  (expand tools fs tmpDir (args.getD 1 [])).getD 0 []

/-- A signature that is accepted for a keyring is a signature of this file. -/
def SignsKeyring (fs : Fs) (args : List Text) (type : Text) : Prop :=
  verifySignature tools fs tmpDir (signer type) (keyringSignature tools fs args) = true →
    tools.gpg.document fs tmpDir (expand tools fs tmpDir (keyringSignature tools fs args)) =
    keyringOf tools fs args

/-- A keyring is read as an archive master only if one is loaded, and otherwise a signature of it
that is accepted is a signature of this file. -/
def KeyringMeets (fs : Fs) (args : List Text) : Prop :=
  ∀ keyring ∈ (keyringOf tools fs args).bind (readKeyring tools),
    if keyring.1 = archiveMaster then isPresent fs [] (systemImage archiveMaster) = true
    else SignsKeyring tools fs args keyring.1

/-- A password that a shell reads as one word and nothing else. -/
def IsPlain (password : Text) : Prop := ∀ c ∈ password, isSpecial c = false

/-- The name of a device. -/
def IsDevice (device : Text) : Prop :=
  IsWord device ∧ (device = "emmc@android".toList ∨ ["dev".toList] <+: resolve [] device)

instance : Decidable (IsPlain password) := inferInstanceAs (Decidable (∀ c ∈ password, _))

instance : Decidable (IsDevice device) := inferInstanceAs (Decidable (_ ∧ _))

/-- The condition on a line of the command file, in the state before it. -/
def Meets (s : State) (line : Text) : Prop :=
  let words := expand tools s.fs s.cwd line
  let command := words.getD 0 []
  if command = "load_keyring".toList then
    KeyringMeets tools s.fs (keyringArgs tools s (words.getD 1 []) (words.getD 2 [])) ∧
      tools.gpg.document s.fs tmpDir [blacklistSignature] = contentOf s.fs [] blacklistTarball
  else if command = "update".toList then
    let name := signatureName tools s (words.getD 2 [])
    (verifySignature tools s.fs s.cwd deviceSigning name ∨
      verifySignature tools s.fs s.cwd imageSigning name) → IsWord (words.getD 1 []) ∧
        tools.gpg.document s.fs s.cwd (expand tools s.fs s.cwd name) =
        contentOf s.fs [] (recovery (words.getD 1 []))
  else if command = "enable".toList then
    words.getD 1 [] = "default_password".toList → s.dataFormat = true →
      IsPlain ((expand tools s.fs s.cwd (words.getD 2 [])).getD 0 [])
  else if command = "format".toList ∨ command = "mount".toList then
    words.getD 1 [] = "system".toList → IsDevice s.systemPartition
  else True

/-- A run in which every line meets the condition. -/
def GuardedRun (s : State) : List Text → Prop
  | [] => True
  | line :: lines =>
    Meets tools s line ∧
      match processLine tools s line with
      | .next s => GuardedRun s lines
      | .exit _ => True

/-- In the run of the script on a command file every line meets the condition. -/
structure Guarded (fs : Fs) (commandFile : Text) : Prop where
  run : ∀ commands ∈ contentOf fs [] commandFile, ∀ s,
    start tools (applying fs commandFile commands) = .next s →
    GuardedRun tools s (readLines (textOf commands))

/-- How the script calls the programs for devices. -/
def deviceCalls (device : Text) : List (List Text) :=
  [texts ["umount", "/system_root"], "mkfs.ext4".toList :: [device], texts ["mount", "/data"],
    texts ["umount", "/data"], "umount".toList :: [device], texts ["umount", "/cache/system"],
    texts ["e2fsck", "-yf"] ++ [device], "mount".toList :: [device] ++ texts ["/cache/system"],
    texts ["rmdir", "/cache/system"]]

/-- The programs for devices and `chpasswd`, as the script calls them, make nothing in the directory
of the keyrings. -/
structure Tools.Lawful (tools : Tools) : Prop where
  devices : IsDevice device → argv ∈ deviceCalls device → keyringDir <+: p → fs p = none →
    (tools.program argv fs).2 p = none
  chpasswd : IsPlain password → keyringDir <+: p → fs p = none →
    (tools.program (passwordCommand password) fs).2 p = none

/-! ## Signatures -/

variable {tools}

theorem verifySignature_eq_true (h : verifySignature tools fs cwd keyring path = true) :
    isDir fs (homeOf keyring) = true ∧
      ∃ document, tools.gpg.Signed fs cwd keyring (expand tools fs cwd path) document ∧
        tools.gpg.document fs cwd (expand tools fs cwd path) = some document := by
  unfold verifySignature at h
  split at h
  · cases h
  split at h
  · cases h
  rename_i hblacklist
  split at h
  · cases h
  rename_i hdir
  obtain ⟨document, hdocument⟩ := Option.isSome_iff_exists.mp h
  refine ⟨by simpa using hdir, document, ⟨hdocument, ?_⟩, Gpg.document_of_verify hdocument⟩
  cases hpresent : isPresent fs [] (homeOf blacklist ++ "pubring.gpg".toList) with
  | true =>
    rw [hpresent, Bool.true_and, Bool.not_eq_true, Option.isSome_eq_false_iff] at hblacklist
    exact Option.isNone_iff_eq_none.mp hblacklist
  | false =>
    rw [Gpg.verify, contentOf_eq_none hpresent]
    rfl

/-! ## Keyrings -/

/-- The directory that no keyring has. -/
def unknownDir : Path := keyringDir ++ [unknown]

/-- The state of a run so far. -/
structure Safe (gpg : Gpg) (s : State) : Prop where
  events : ∀ e ∈ s.events, e.Authentic gpg
  noUnknown : s.fs unknownDir = none

theorem signer_cases (type : Text) :
    type = archiveMaster ∨ signer type ≠ [] ∧
    ((type, signer type) ∈ requirements ∨ signer type = unknown) := by
  unfold signer
  split
  · exact .inl ‹_›
  refine .inr ?_
  split
  · rename_i h
    subst h
    decide
  split
  · rename_i h
    rcases h with rfl | rfl <;> decide
  split
  · rename_i h
    subst h
    decide
  · exact ⟨by decide, .inr rfl⟩

theorem resolve_keyring (h : type = archiveMaster ∨ ∃ keyring, (type, keyring) ∈ requirements) :
    resolve [] (systemImage type) = keyringDir ++ [type] ∧
      resolve [] (homeOf type ++ "pubring.gpg".toList) =
      keyringDir ++ [type, "pubring.gpg".toList] ∧ type ≠ unknown := by
  have htype : type ∈ archiveMaster :: requirements.map Prod.fst := by
    rcases h with rfl | ⟨keyring, h⟩
    · exact List.mem_cons_self
    · exact List.mem_cons_of_mem _ (List.mem_map_of_mem h)
  have hall : ∀ type ∈ archiveMaster :: requirements.map Prod.fst,
      resolve [] (systemImage type) = keyringDir ++ [type] ∧
        resolve [] (homeOf type ++ "pubring.gpg".toList) =
        keyringDir ++ [type, "pubring.gpg".toList] ∧ type ≠ unknown := by
    decide
  exact hall type htype

theorem installKeyring_eq_some (h : installKeyring tools s args = some s') :
    ∃ tarball type keyring, keyringOf tools s.fs args = some tarball ∧
      readKeyring tools tarball = some (type, keyring) ∧
      isPresent s.fs [] (systemImage type) = false ∧
      (signer type ≠ [] →
        verifySignature tools s.fs tmpDir (signer type) (keyringSignature tools s.fs args) = true) ∧
        s' = { s with
        fs := installed s.fs type keyring
        cwd := tmpDir
        events := s.events ++ [.installed s.fs tmpDir (args.getD 0 [])
          (expand tools s.fs tmpDir (keyringSignature tools s.fs args)) type tarball] } := by
  unfold installKeyring at h
  dsimp only at h
  split at h
  · cases h
  obtain ⟨tarball, htarball, h⟩ := Option.bind_eq_some_iff.mp h
  obtain ⟨⟨type, keyring⟩, hread, h⟩ := Option.bind_eq_some_iff.mp h
  dsimp only at h
  split at h
  · cases h
  rename_i hpresent
  split at h
  · cases h
  rename_i hsigner
  cases h
  refine ⟨tarball, type, keyring, htarball, hread, by simpa using hpresent, fun hne => ?_, rfl⟩
  rw [decide_eq_true hne, Bool.true_and, Bool.not_eq_true, Bool.not_eq_false'] at hsigner
  exact hsigner

/-- The condition for a file that is not read as an archive master from the cache. -/
def InstallMeets (tools : Tools) (fs : Fs) (args : List Text) : Prop :=
  ∀ keyring ∈ (keyringOf tools fs args).bind (readKeyring tools),
    isPresent fs [] (systemImage keyring.1) = false →
    if keyring.1 = archiveMaster then ¬ "/cache/".toList <+: args.getD 0 []
    else SignsKeyring tools fs args keyring.1

theorem KeyringMeets.install (h : KeyringMeets tools fs args) : InstallMeets tools fs args := by
  intro keyring hkeyring hpresent
  have hmeets := h keyring hkeyring
  split at hmeets
  · rename_i htype
    rw [htype, hmeets] at hpresent
    cases hpresent
  · rename_i htype
    rwa [if_neg htype]

theorem installed_of_not_isPrefix
    (h : type = archiveMaster ∨ ∃ keyring, (type, keyring) ∈ requirements)
    (hp : ¬ keyringDir ++ [type] <+: p) : installed fs type n p = fs p := by
  obtain ⟨hdir, hpubring, -⟩ := resolve_keyring h
  rw [installed, hdir, hpubring, FileTree.put_of_ne, FileTree.put_of_ne]
  · rintro rfl
    exact hp (List.prefix_refl _)
  · rintro rfl
    exact hp ⟨["pubring.gpg".toList], rfl⟩

/-- A keyring is installed: it was signed as its type requires, and nothing but its directory
changes. -/
theorem Safe.installKeyring (h : Safe tools.gpg s) (hmeets : InstallMeets tools s.fs args)
    (hinstall : installKeyring tools s args = some s') :
    Safe tools.gpg s' ∧ ∀ p, ¬ keyringDir <+: p → s'.fs p = s.fs p := by
  obtain ⟨tarball, type, keyring, htarball, hread, hpresent, hverified, rfl⟩ :=
    installKeyring_eq_some hinstall
  have hcondition := hmeets (type, keyring) (by rw [htarball]; exact hread) hpresent
  have hauthentic : (Event.installed s.fs tmpDir (args.getD 0 [])
        (expand tools s.fs tmpDir (keyringSignature tools s.fs args)) type tarball).Authentic
        tools.gpg ∧
      (type = archiveMaster ∨ ∃ keyring, (type, keyring) ∈ requirements) := by
    rw [Event.Authentic]
    rcases signer_cases type with harchive | ⟨hne, hcases⟩
    · rw [if_pos harchive] at hcondition ⊢
      exact ⟨hcondition, .inl harchive⟩
    · have harchive : type ≠ archiveMaster := by
        rintro rfl
        exact absurd rfl hne
      rw [if_neg harchive] at hcondition ⊢
      obtain ⟨hdir, document, hsigned, hdocument⟩ := verifySignature_eq_true (hverified hne)
      rcases hcases with hrequired | hunknown
      · have hsame := hcondition (hverified hne)
        rw [hdocument, htarball] at hsame
        cases hsame
        exact ⟨⟨_, hrequired, rfl, hsigned⟩, .inr ⟨_, hrequired⟩⟩
      · have hnone : isDir s.fs (homeOf unknown) = false := by
          change decide (s.fs unknownDir = some .dir) = false
          rw [h.noUnknown]
          rfl
        rw [hunknown, hnone] at hdir
        cases hdir
  obtain ⟨hauthentic, htype⟩ := hauthentic
  have hunknown := (resolve_keyring htype).2.2
  refine ⟨⟨?_, ?_⟩, fun p hp => installed_of_not_isPrefix htype fun hprefix => hp ?_⟩
  · intro e he
    rcases List.mem_append.mp he with he | he
    · exact h.events e he
    · rw [List.mem_singleton.mp he]
      exact hauthentic
  · refine (installed_of_not_isPrefix htype fun hprefix => hunknown ?_).trans h.noUnknown
    have := (List.prefix_append_right_inj keyringDir).mp hprefix
    exact (List.cons_prefix_cons.mp this).1
  · exact (List.prefix_append _ _).trans hprefix

/-! ## `load_keyring` -/

/-- The stored blacklist belongs to its signature in every state with the same files. -/
theorem Gpg.document_blacklist {gpg : Gpg} (h : ∀ p, ¬ keyringDir <+: p → fs' p = fs p) :
    gpg.document fs' tmpDir [blacklistSignature] = gpg.document fs tmpDir [blacklistSignature] ∧
      contentOf fs' [] blacklistTarball = contentOf fs [] blacklistTarball := by
  have hsignature :
      contentOf fs' tmpDir blacklistSignature = contentOf fs tmpDir blacklistSignature :=
    contentOf_congr (h _ (by decide))
  have hdocument : contentOf fs' tmpDir blacklistTarball = contentOf fs tmpDir blacklistTarball :=
    contentOf_congr (h _ (by decide))
  have hdata : dataFile blacklistSignature = some blacklistTarball := by decide
  refine ⟨?_, contentOf_congr (h _ (by decide))⟩
  rw [document, document, hsignature, hdata, Option.bind_some, Option.bind_some, hdocument]

theorem keyringOf_blacklist (fs : Fs) :
    keyringOf tools fs [blacklistTarball, blacklistSignature] =
    contentOf fs [] blacklistTarball := by
  have hexpand : expand tools fs tmpDir blacklistTarball = [blacklistTarball] :=
    expand_of_isWord (by decide) (by decide) fs tmpDir
  have hresolve : resolve tmpDir blacklistTarball = resolve [] blacklistTarball := by decide
  rw [keyringOf, List.getD_cons_zero, hexpand, xzcat_singleton, contentOf, contentOf, hresolve]

theorem expand_keyringSignature_blacklist (fs : Fs) :
    expand tools fs tmpDir (keyringSignature tools fs [blacklistTarball, blacklistSignature]) =
    [blacklistSignature] := by
  have hexpand : expand tools fs tmpDir blacklistSignature = [blacklistSignature] :=
    expand_of_isWord (by decide) (by decide) fs tmpDir
  rw [keyringSignature, List.getD_cons_succ, List.getD_cons_zero, hexpand, List.getD_cons_zero,
    hexpand]

theorem Safe.loadKeyring (h : Safe tools.gpg s)
    (hmeets : KeyringMeets tools s.fs (keyringArgs tools s tarball signature))
    (hblacklist : tools.gpg.document s.fs tmpDir [blacklistSignature] =
      contentOf s.fs [] blacklistTarball) :
      Safe tools.gpg (loadKeyring tools s tarball signature).state := by
  unfold SystemImage.loadKeyring
  split
  · exact h
  cases hinstall : SystemImage.installKeyring tools s (keyringArgs tools s tarball signature) with
  | none => exact h
  | some s₁ =>
    obtain ⟨h₁, hsame⟩ := h.installKeyring hmeets.install hinstall
    rw [orExit]
    split
    · cases hagain : SystemImage.installKeyring tools s₁ [blacklistTarball, blacklistSignature] with
      | none => exact h₁
      | some s₂ =>
        refine (h₁.installKeyring ?_ hagain).1
        intro keyring hkeyring hpresent
        split
        · decide
        · intro _
          obtain ⟨hdocument, htarball⟩ := Gpg.document_blacklist hsame
          rw [expand_keyringSignature_blacklist, keyringOf_blacklist, hdocument, htarball,
            hblacklist]
    · exact h₁

/-! ## `update` -/

theorem untar_unknownDir (name : Path) (tarball : Bytes) (h : fs unknownDir = none) :
    (untar tools cache name tarball fs).2 unknownDir = none :=
  (FileTree.unpack_of_not_isPrefix (by decide) (by decide) _).trans h

theorem resolve_inRecovery (tarball : Text) :
    resolve cache (inRecovery tarball) = resolve [] (recovery tarball) := by
  have hrelative : inRecovery tarball = 'r' :: ("ecovery/".toList ++ tarball) := by
    have hname : "recovery/".toList = 'r' :: "ecovery/".toList := by decide
    exact congrArg (· ++ tarball) hname
  have habsolute :
      recovery tarball = [] ++ '/' :: ("cache".toList ++ '/' :: inRecovery tarball) := by
    have hname :
        "/cache/recovery/".toList = '/' :: ("cache".toList ++ '/' :: "recovery/".toList) := by
        decide
    exact (congrArg (· ++ tarball) hname).trans (congrArg ('/' :: ·) (List.append_assoc ..))
  have hhead : (inRecovery tarball).head? ≠ some '/' := by
    rw [hrelative, List.head?_cons]
    decide
  have hsplit :
      (recovery tarball).splitOn '/' =
      [] :: "cache".toList :: (inRecovery tarball).splitOn '/' := by
    rw [habsolute, List.splitOn_append_cons_self_of_not_mem List.not_mem_nil,
      List.splitOn_append_cons_self_of_not_mem (by decide)]
  have hroot :
      (recovery tarball).head? = some '/' := by rw [habsolute, List.nil_append, List.head?_cons]
  rw [resolve, resolve, if_neg hhead, if_pos hroot, hsplit, List.foldl_cons, List.foldl_cons]
  congr 1

theorem tarballOf_eq (h : IsWord tarball) (fs : Fs) :
    tarballOf tools fs tarball = contentOf fs [] (recovery tarball) := by
  have hword : IsWord (inRecovery tarball) := IsWord.append (by decide) h
  have hne : inRecovery tarball ≠ [] := List.append_ne_nil_of_left_ne_nil (by decide) _
  rw [tarballOf, expand_of_isWord hne hword, xzcat_singleton, contentOf, contentOf,
    resolve_inRecovery]

theorem foldl_rmTrees (lines : List Text) (fs : Fs) :
    fs.Shrinks (lines.foldl (rmTrees tools cache) fs) ∧
      ∀ p, fs p = none → lines.foldl (rmTrees tools cache) fs p = none := by
  induction lines generalizing fs with
  | nil => exact ⟨.refl, fun _ h => h⟩
  | cons line lines ih =>
    obtain ⟨hshrinks, hnone⟩ := ih (rmTrees tools cache fs line)
    exact ⟨(shrinks_rmTrees _).trans hshrinks, fun p h => hnone p (rmTrees_eq_none h)⟩

/-- The file `removed` is the only one that is unpacked, unless it is a directory. -/
theorem unpackRemoved_files (tarball : Option Bytes) (fs : Fs) :
    unpackRemoved tools tarball fs (inCache "removed") = some .dir ∨
      ∀ p, p ≠ inCache "removed" →
        ∀ c, (unpackRemoved tools tarball fs).content p = some c → fs.content p = some c := by
  cases tarball with
  | none => exact .inr fun _ _ _ hc => hc
  | some tarball =>
    refine FileTree.unpack_below fun entry he => ?_
    exact of_decide_eq_true (List.mem_filter.mp he).2

theorem removeListed_of_dir (h : fs (inCache "removed") = some .dir) :
    removeListed tools fs = fs := by
  have hcontent : fs.content (inCache "removed") = none := by
    rw [FileTree.content, h]
  rw [removeListed, hcontent]
  rfl

/-- What was unpacked of the tarball is removed again, or the script ends. -/
theorem removeFirst_eq_some (h : removeFirst tools tarball fs = some fs') :
    fs.Shrinks fs' ∧ (fs unknownDir = none → fs' unknownDir = none) := by
  obtain ⟨hdir, rfl⟩ := rmFile_eq_some h
  obtain ⟨hshrinks, hnone⟩ : (unpackRemoved tools tarball fs).Shrinks (removeListed tools _) ∧
      ∀ p, unpackRemoved tools tarball fs p = none → removeListed tools _ p = none :=
      foldl_rmTrees _ _
  refine ⟨fun p c hc => ?_, fun hunknown => FileTree.rm_eq_none (hnone _ ?_)⟩
  · rcases @unpackRemoved_files tools tarball fs with hremoved | hfiles
    · rw [removeListed_of_dir hremoved] at hdir
      exact absurd hremoved hdir
    · rw [FileTree.content_eq_some, FileTree.rm] at hc
      split at hc
      · cases hc
      · exact hfiles p ‹_› c (hshrinks p c (FileTree.content_eq_some.mpr hc))
  · cases tarball with
    | none => exact hunknown
    | some tarball => exact untar_unknownDir _ _ hunknown

theorem moveData_of_ne (h : dir ≠ "data".toList) :
    moveData fs (dir :: x :: rest) = fs (dir :: x :: rest) := by
  rw [moveData]
  exact if_neg fun hmoved => h hmoved.1

theorem flashImage_eq_none (h : fs p = none) : flashImage fs image path p = none := by
  unfold flashImage
  cases fs.content image with
  | none => exact h
  | some content =>
    dsimp only
    split
    · rename_i hpresent
      refine FileTree.rm_eq_none ?_
      rw [FileTree.put_of_ne, h]
      rintro rfl
      rw [isPresent, h] at hpresent
      cases hpresent
    · exact h

theorem flash_eq_none (h : fs p = none) : flash tools fs p = none := by
  rw [flash]
  generalize deviceLines fs = lines
  induction lines generalizing fs with
  | nil => exact h
  | cons line lines ih => exact ih (flashImage_eq_none h)

theorem finishUpdate_unknownDir (h : finishUpdate tools tarball fs = some fs')
    (hnone : fs unknownDir = none) : fs' unknownDir = none := by
  obtain ⟨fs₁, hfs₁, h⟩ := Option.bind_eq_some_iff.mp h
  have hmoved : moveData fs₁ unknownDir = none :=
    (moveData_of_ne (by decide)).trans (rmFile_eq_none hfs₁ hnone)
  exact rmFiles_eq_none h (flash_eq_none (FileTree.rmTree_eq_none hmoved))

theorem Safe.unpacks {gpg : Gpg} (h : Safe gpg s) (hauthentic : ∀ bytes ∈ tarball,
    (Event.unpacked checked.fs checked.cwd checked.names bytes).Authentic gpg) :
    Safe gpg (s.unpacks checked tarball) := by
  refine ⟨fun e he => ?_, h.noUnknown⟩
  rcases List.mem_append.mp he with he | he
  · exact h.events e he
  · obtain ⟨bytes, hbytes, rfl⟩ := Option.map_eq_some_iff.mp (Option.mem_toList.mp he)
    exact hauthentic bytes hbytes

theorem Safe.withFs {gpg : Gpg} (h : Safe gpg s) (hnone : fs unknownDir = none) :
    Safe gpg { s with fs } :=
  ⟨h.events, hnone⟩

theorem Safe.orExit {gpg : Gpg} (h : Safe gpg s)
    (hnext : ∀ s', r = some s' → Safe gpg (k s').state) : Safe gpg (orExit s r k).state := by
  cases r with
  | none => exact h
  | some s' => exact hnext s' rfl

section
variable {checked : Checked} (hword : IsWord tarball)
    (hauthentic : ∀ bytes ∈ contentOf checked.fs [] (recovery tarball),
  (Event.unpacked checked.fs checked.cwd checked.names bytes).Authentic tools.gpg)
include hword hauthentic

theorem Safe.unpacksFile (h : Safe tools.gpg s) (hshrinks : checked.fs.Shrinks s.fs) :
    Safe tools.gpg (s.unpacks checked (tarballOf tools s.fs tarball)) :=
  h.unpacks fun bytes hbytes =>
  hauthentic bytes (hshrinks _ bytes ((tarballOf_eq hword s.fs).symm.trans hbytes))

theorem Safe.unpackAll (h : Safe tools.gpg s) (hshrinks : checked.fs.Shrinks s.fs) :
    Safe tools.gpg (unpackAll tools s checked tarball).state := by
  have hunpacks := h.unpacksFile hword hauthentic hshrinks
  unfold SystemImage.unpackAll
  dsimp only
  split
  · exact hunpacks
  · rename_i bytes _
    have hnone := @untar_unknownDir tools _ [] bytes h.noUnknown
    split
    · exact hunpacks.withFs hnone
    · refine hunpacks.orExit fun s' hs' => ?_
      obtain ⟨fs', hfinish, rfl⟩ := Option.map_eq_some_iff.mp hs'
      exact hunpacks.withFs (finishUpdate_unknownDir hfinish hnone)

theorem Safe.applyUpdate (h : Safe tools.gpg s) (hshrinks : checked.fs.Shrinks s.fs) :
    Safe tools.gpg (applyUpdate tools s checked tarball).state := by
  obtain ⟨fs₁, hfs₁⟩ : ∃ fs₁, fs₁ = (s.fs.rmTree (inCache "partitions")).rmTree (inCache "data") :=
    ⟨_, rfl⟩
  have hnone : fs₁ unknownDir = none := by
    rw [hfs₁]
    exact FileTree.rmTree_eq_none (FileTree.rmTree_eq_none h.noUnknown)
  have hshrinks₁ : checked.fs.Shrinks fs₁ := by
    rw [hfs₁]
    exact hshrinks.trans ((s.fs.shrinks_rmTree _).trans (FileTree.shrinks_rmTree _ _))
  have h₁ : Safe tools.gpg { s with fs := fs₁, cwd := cache } := ⟨h.events, hnone⟩
  unfold SystemImage.applyUpdate
  dsimp only
  rw [← hfs₁]
  split
  · exact h₁.unpackAll hword hauthentic hshrinks₁
  · have hunpacks := h₁.unpacksFile hword hauthentic hshrinks₁
    refine hunpacks.orExit fun s' hs' => ?_
    obtain ⟨fs₂, hremove, rfl⟩ := Option.map_eq_some_iff.mp hs'
    obtain ⟨hshrinks₂, hnone₂⟩ := removeFirst_eq_some hremove
    exact (hunpacks.withFs (hnone₂ hnone)).unpackAll hword hauthentic (hshrinks₁.trans hshrinks₂)

end

theorem Safe.update (h : Safe tools.gpg s)
    (hmeets : verifySignature tools s.fs s.cwd deviceSigning (signatureName tools s signature) ∨
      verifySignature tools s.fs s.cwd imageSigning (signatureName tools s signature) →
        IsWord tarball ∧
        tools.gpg.document s.fs s.cwd (expand tools s.fs s.cwd (signatureName tools s signature)) =
          contentOf s.fs [] (recovery tarball)) :
    Safe tools.gpg (update tools s tarball signature).state := by
  unfold SystemImage.update
  dsimp only
  split
  · exact h
  split
  · exact h
  rename_i hverified
  rw [Bool.and_eq_true, Bool.not_eq_true', Bool.not_eq_true', not_and_or, Bool.not_eq_false,
    Bool.not_eq_false]
    at hverified
  obtain ⟨hword, hdocument⟩ := hmeets hverified
  refine h.applyUpdate hword (fun bytes hbytes => ?_) .refl
  rw [Option.mem_def.mp hbytes] at hdocument
  refine hverified.imp (fun hv => ?_) fun hv => ?_
  all_goals
    obtain ⟨-, document, hsigned, hsame⟩ := verifySignature_eq_true hv
    rw [hsame] at hdocument
    cases hdocument
    exact hsigned

/-! ## The other commands -/

theorem propertyWrite_unknownDir (h : propertyWrite prop value fs = some fs')
    (hnone : fs unknownDir = none) : fs' unknownDir = none := by
  obtain ⟨fs₁, hdir, h⟩ := Option.bind_eq_some_iff.mp h
  have hne : unknownDir ≠ propDir ++ [prop] := fun heq => absurd (List.cons.inj heq).1 (by decide)
  exact writeFile_eq_none h hne (mkdirs_eq_none hdir (by decide) hnone)

theorem setFlag_unknownDir (h : setFlag s flag on = some fs') (hnone : s.fs unknownDir = none) :
    fs' unknownDir = none := by
  unfold setFlag at h
  split at h
  · cases h
  split at h
  · exact touch_eq_none h (fun heq => absurd (List.cons.inj heq).1 (by decide)) hnone
  · exact rmFile_eq_none h hnone

theorem runs_unknownDir (h : runs tools argv fs = some fs')
    (hnone : (tools.program argv fs).2 unknownDir = none) : fs' unknownDir = none := by
  unfold runs at h
  split at h
  · cases h
    exact hnone
  · cases h

theorem enable_unknownDir (ht : tools.Lawful)
    (hmeets : target = "default_password".toList → s.dataFormat = true →
      IsPlain ((expand tools s.fs s.cwd value).getD 0 []))
    (h : enable tools s target value = some fs') (hnone : s.fs unknownDir = none) :
    fs' unknownDir = none := by
  unfold enable at h
  split at h
  · exact propertyWrite_unknownDir h hnone
  split at h
  · exact propertyWrite_unknownDir h hnone
  split at h
  · rename_i htarget
    unfold setPassword at h
    dsimp only at h
    split at h
    · cases h
    rename_i hformat
    split at h
    · cases h
    · rw [Bool.not_eq_true', Bool.not_eq_false] at hformat
      exact runs_unknownDir h (ht.chpasswd (hmeets htarget hformat) (List.prefix_append _ _) hnone)
  split at h
  · exact setFlag_unknownDir h hnone
  split at h
  · exact setFlag_unknownDir h hnone
  · cases h
    exact hnone

theorem disable_unknownDir (h : disable s target = some fs') (hnone : s.fs unknownDir = none) :
    fs' unknownDir = none := by
  unfold disable at h
  split at h
  · exact propertyWrite_unknownDir h hnone
  split at h
  · exact propertyWrite_unknownDir h hnone
  split at h
  · unfold unsetPassword at h
    split at h
    · cases h
    · cases h
      exact hnone
  split at h
  · exact setFlag_unknownDir h hnone
  split at h
  · exact setFlag_unknownDir h hnone
  · cases h
    exact hnone

theorem IsDevice.partition {s : State} (h : IsDevice s.systemPartition) :
    s.partition tools = [s.systemPartition] := by
  refine expand_of_isWord (fun hnil => ?_) h.1 s.fs s.cwd
  rw [IsDevice, hnil] at h
  exact absurd h.2 (by decide)

theorem wipeEntry_unknownDir (hnone : fs unknownDir = none) :
    wipeEntry tools cwd fs entry unknownDir = none := by
  unfold wipeEntry
  split
  · exact hnone
  split
  · generalize List.filter _ _ = entries
    induction entries generalizing fs with
    | nil => exact hnone
    | cons entry entries ih => exact ih (rmTrees_eq_none hnone)
  · exact rmTrees_eq_none hnone

section
variable (ht : tools.Lawful)
include ht

theorem Tools.Lawful.unknownDir (hdevice : IsDevice device) (ha : a ∈ deviceCalls device)
    (hnone : fs unknownDir = none) : (tools.program a fs).2 unknownDir = none :=
  ht.devices hdevice ha (List.prefix_append _ _) hnone

theorem formatSystem_unknownDir (hdevice : IsDevice s.systemPartition)
    (h : formatSystem tools s = some fs') (hnone : s.fs unknownDir = none) :
    fs' unknownDir = none := by
  obtain ⟨fs₁, hremoved, h⟩ := Option.bind_eq_some_iff.mp h
  have hnone₁ : fs₁ unknownDir = none :=
    foldlM_keeps (P := fun fs => fs unknownDir = none)
    (fun _ _ _ hstep hp => rmFile_eq_none hstep hp) hremoved hnone
  rw [hdevice.partition] at h
  have hnone₂ :=
    ht.unknownDir hdevice (a := texts ["umount", "/system_root"]) (by simp [deviceCalls]) hnone₁
  exact runs_unknownDir h (ht.unknownDir hdevice (by simp [deviceCalls]) hnone₂)

theorem formatData_unknownDir (h : formatData tools s = some fs') (hnone : s.fs unknownDir = none) :
    fs' unknownDir = none := by
  have hdevice : IsDevice "emmc@android".toList := by decide
  have hnone₁ := ht.unknownDir hdevice (a := texts ["mount", "/data"]) (by simp [deviceCalls]) hnone
  obtain ⟨fs₂, hproperty, h⟩ := Option.bind_eq_some_iff.mp h
  refine runs_unknownDir h
    (ht.unknownDir hdevice (by simp [deviceCalls]) (propertyWrite_unknownDir hproperty ?_))
  rw [tries]
  generalize (tools.program _ s.fs).2 = fs₁ at hnone₁ ⊢
  generalize expand tools fs₁ s.cwd _ ++ texts _ = entries
  induction entries generalizing fs₁ with
  | nil => exact hnone₁
  | cons entry entries ih => exact ih _ (wipeEntry_unknownDir hnone₁)

theorem mount_unknownDir (hmeets : target = "system".toList → IsDevice s.systemPartition)
    (h : mount tools s target = some fs') (hnone : s.fs unknownDir = none) :
    fs' unknownDir = none := by
  unfold mount at h
  split at h
  swap
  · cases h
    exact hnone
  rename_i htarget
  have hdevice := hmeets htarget
  rw [hdevice.partition] at h
  obtain ⟨fs₁, hdirs, h⟩ := Option.bind_eq_some_iff.mp h
  have hnone₁ := mkdirs_eq_none (q := unknownDir) hdirs (by decide) hnone
  obtain ⟨fs₂, hcheck, h⟩ := Option.bind_eq_some_iff.mp h
  refine runs_unknownDir h (ht.unknownDir hdevice (by simp [deviceCalls]) ?_)
  have hnone₂ :=
    ht.unknownDir hdevice (a := texts ["umount", "/system_root"]) (by simp [deviceCalls])
    (ht.unknownDir hdevice (a := texts ["umount", "/cache/system"]) (by simp [deviceCalls])
      (ht.unknownDir hdevice (a := "umount".toList :: [s.systemPartition])
        (by simp [deviceCalls]) hnone₁))
  unfold checkFilesystem at hcheck
  dsimp only at hcheck
  split at hcheck
  · cases hcheck
  split at hcheck
  · cases hcheck
  · cases hcheck
    have hexpand (fs : Fs) : expand tools fs s.cwd s.systemPartition = [s.systemPartition] :=
      expand_of_isWord
      (fun hnil => by rw [IsDevice, hnil] at hdevice; exact absurd hdevice.2 (by decide))
      hdevice.1 fs _
    rw [List.getD_cons_zero, hexpand]
    exact ht.unknownDir hdevice (by simp [deviceCalls]) hnone₂

theorem unmount_unknownDir (h : unmount tools s target = some fs')
    (hnone : s.fs unknownDir = none) : fs' unknownDir = none := by
  have hdevice : IsDevice "emmc@android".toList := by decide
  unfold unmount at h
  split at h
  · obtain ⟨fs₁, humount, h⟩ := Option.bind_eq_some_iff.mp h
    have hnone₁ := runs_unknownDir humount (ht.unknownDir hdevice (by simp [deviceCalls]) hnone)
    exact runs_unknownDir h (ht.unknownDir hdevice (by simp [deviceCalls]) hnone₁)
  · cases h
    exact hnone

theorem Safe.format (h : Safe tools.gpg s)
    (hmeets : target = "system".toList → IsDevice s.systemPartition)
    (hformat : SystemImage.format tools s target = some s') : Safe tools.gpg s' := by
  unfold SystemImage.format at hformat
  split at hformat
  · rename_i htarget
    obtain ⟨fs, hsystem, rfl⟩ := Option.map_eq_some_iff.mp hformat
    exact ⟨h.events, formatSystem_unknownDir ht (hmeets htarget) hsystem h.noUnknown⟩
  split at hformat
  · obtain ⟨fs, hdata, rfl⟩ := Option.map_eq_some_iff.mp hformat
    exact ⟨h.events, formatData_unknownDir ht hdata h.noUnknown⟩
  · cases hformat
    exact h

end

/-! ## Runs -/

theorem Safe.goOn {gpg : Gpg} (h : Safe gpg s)
    (hnone : ∀ fs', r = some fs' → fs' unknownDir = none) :
    Safe gpg (SystemImage.orExit s (r.map fun fs => { s with fs }) .next).state := by
  refine h.orExit fun s' hs' => ?_
  obtain ⟨fs', hfs', rfl⟩ := Option.map_eq_some_iff.mp hs'
  exact h.withFs (hnone fs' hfs')

theorem Safe.processLine (ht : tools.Lawful) (h : Safe tools.gpg s) (hmeets : Meets tools s line) :
    Safe tools.gpg (processLine tools s line).state := by
  unfold SystemImage.processLine
  unfold Meets at hmeets
  dsimp only at hmeets ⊢
  generalize (expand tools s.fs s.cwd line).getD 0 [] = command at hmeets ⊢
  split
  · rename_i hcommand
    subst hcommand
    exact h.orExit fun s' hs' => h.format ht (hmeets · ) hs'
  split
  · rename_i hcommand
    subst hcommand
    exact h.goOn fun fs' hfs' => enable_unknownDir ht hmeets hfs' h.noUnknown
  split
  · exact h.goOn fun fs' hfs' => disable_unknownDir hfs' h.noUnknown
  split
  · rename_i hcommand
    subst hcommand
    exact h.loadKeyring hmeets.1 hmeets.2
  split
  · rename_i hcommand
    subst hcommand
    exact h.goOn fun fs' hfs' => mount_unknownDir ht hmeets hfs' h.noUnknown
  split
  · exact h.goOn fun fs' hfs' => unmount_unknownDir ht hfs' h.noUnknown
  split
  · rename_i hcommand
    subst hcommand
    exact h.update hmeets
  · exact h

theorem Safe.run (ht : tools.Lawful) (h : Safe tools.gpg s) (hguarded : GuardedRun tools s lines) :
    Safe tools.gpg (run tools s lines) := by
  induction lines generalizing s with
  | nil => exact h
  | cons line lines ih =>
    obtain ⟨hmeets, hrest⟩ := hguarded
    have hline := h.processLine ht hmeets
    rw [SystemImage.run]
    cases hnext : SystemImage.processLine tools s line with
    | next s' =>
      rw [hnext] at hline hrest
      exact ih hline hrest
    | exit s' =>
      rw [hnext] at hline
      exact hline

instance : Decidable (Gpg.Signed gpg fs cwd keyring signature document) :=
  inferInstanceAs (Decidable (_ ∧ _))

instance : (e : Event) → Decidable (e.Authentic gpg)
  | .unpacked fs cwd signature tarball => inferInstanceAs (Decidable
    (gpg.Signed fs cwd deviceSigning signature tarball ∨
      gpg.Signed fs cwd imageSigning signature tarball))
  | .installed fs cwd path signature type tarball => inferInstanceAs (Decidable
    (if type = archiveMaster then ¬ "/cache/".toList <+: path
      else ∃ r ∈ requirements, r.1 = type ∧ gpg.Signed fs cwd r.2 signature tarball))

instance : Decidable (SignsKeyring tools fs args type) := inferInstanceAs (Decidable (_ → _))

instance : Decidable (KeyringMeets tools fs args) := by
  unfold KeyringMeets
  infer_instance

instance : Decidable (Meets tools s line) := by
  unfold Meets
  dsimp only
  infer_instance

instance decidableGuardedRun (s : State) :
    (lines : List Text) → Decidable (GuardedRun tools s lines)
  | [] => .isTrue trivial
  | line :: lines => by
    unfold GuardedRun
    have : Decidable (match processLine tools s line with
        | .next s => GuardedRun tools s lines
        | .exit _ => True) := by
      cases processLine tools s line with
      | next s => exact decidableGuardedRun s lines
      | exit s => exact .isTrue trivial
    infer_instance

theorem guarded_iff : Guarded tools fs commandFile ↔
    match contentOf fs [] commandFile with
    | none => True
    | some commands =>
      match start tools (applying fs commandFile commands) with
      | .next s => GuardedRun tools s (readLines (textOf commands))
      | .exit _ => True := by
  constructor
  · intro h
    cases hcommands : contentOf fs [] commandFile with
    | none => trivial
    | some commands =>
      dsimp only
      cases hs : start tools (applying fs commandFile commands) with
      | next s => exact h.run commands hcommands s hs
      | exit s => trivial
  · refine fun h => ⟨fun commands hcommands s hs => ?_⟩
    rw [Option.mem_def.mp hcommands] at h
    dsimp only at h
    rwa [hs] at h

instance : Decidable (Guarded tools fs commandFile) := by
  refine @decidable_of_iff' _ _ guarded_iff ?_
  cases contentOf fs [] commandFile with
  | none => exact .isTrue trivial
  | some commands =>
    dsimp only
    cases start tools (applying fs commandFile commands) with
    | next s => exact decidableGuardedRun s _
    | exit s => exact .isTrue trivial

namespace Sample

def commandFile : Text := "/cache/recovery/c".toList

/-- A chain of keyrings, an image with its signature, and another image. -/
def files (commands : String) : Fs :=
  [("/etc/system-image/archive-master.tar.xz", [1, 10]),
    ("/etc/system-image/archive-master.tar.xz.asc", []), ("/cache/recovery/m", [2, 20]),
    ("/cache/recovery/m.asc", [10, 2, 20]), ("/cache/recovery/s", [3, 30]),
    ("/cache/recovery/s.asc", [20, 3, 30]), ("/cache/recovery/i", [40]),
    ("/cache/recovery/i.asc", [30, 40]), ("/cache/recovery/o", [50]),
    ("/cache/recovery/c", bytesOf commands.toList)].foldl
    (fun fs file => fs.put (resolve [] file.1.toList) (.file file.2)) .empty

end Sample

end BootableRecovery.SystemImage
