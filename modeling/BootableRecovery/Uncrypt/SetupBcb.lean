import BootableRecovery.BootloaderMessage.MiscLayout
import BootableRecovery.Recovery.Args

/-!
# A bootloader message over the socket

`setup_bcb` of `uncrypt/uncrypt.cpp` splits a message into lines, puts the size of the package for
`--wipe_package` in place of its path, and writes the lines as options. The splitter gives an empty
string wherever a newline ends the message or follows another one, and
`update_bootloader_message_in_struct` takes the last character of every option.
-/

namespace BootableRecovery

open BootloaderMessage

namespace Uncrypt

def WIPE_PACKAGE : Text := "--wipe_package=".toList

/-- `StringPrintf("--wipe_package_size=%zu", …)`. -/
def wipePackageSize (size : Nat) : Text := "--wipe_package_size=".toList ++ toText size

/-- The loop of `setup_bcb` over the options, with the last wipe package that was read. `none` is
the early return when a package cannot be read. -/
def rewriteOptions (readFile : Text → Option (List Char)) :
    List Text → (wipePackage : List Char) → Option (List Text × List Char)
  | [], wipePackage => some ([], wipePackage)
  | option :: options, wipePackage =>
    if WIPE_PACKAGE.isPrefixOf option then do
      let wipePackage ← readFile (option.drop WIPE_PACKAGE.length)
      let (options, last) ← rewriteOptions readFile options wipePackage
      return (wipePackageSize wipePackage.length :: options, last)
    else do
      let (options, last) ← rewriteOptions readFile options wipePackage
      return (option :: options, last)

/-- The loop of `update_bootloader_message_in_struct` from option number `i` on, and whether it took
the last character of an empty option. That is undefined; `junk` is what it is taken to be. -/
def appendOptions (junk : Nat → Char) : (i : Nat) → List Text → CharArray 768 → CharArray 768 × Bool
  | _, [], recovery => (recovery, false)
  | i, s :: options, recovery =>
    let recovery := recovery.strlcat s
    let recovery := if s.getLast?.getD (junk i) ≠ '\n' then recovery.strlcat ['\n'] else recovery
    let (recovery, undefined) := appendOptions junk (i + 1) options recovery
    (recovery, s.isEmpty || undefined)

/-- `write_bootloader_message` for options: the message, and whether the last character of an empty
option was taken. -/
def optionsMessage (junk : Nat → Char) (options : List Text) : BootloaderMessage × Bool :=
  let (recovery, undefined) :=
  appendOptions junk 0 options ((CharArray.zero 768).strlcpy "recovery\n".toList)
  ({ zero with command := (CharArray.zero 32).strlcpy "boot-recovery".toList, recovery }, undefined)

/-- The outcome of `setup_bcb`. -/
structure Setup where
  ok : Bool
  /-- The last character of an empty option was taken. -/
  undefined : Bool
  misc : Misc

/-- `setup_bcb` for a message. `written` and `writtenPackage` are the outcomes of the writes (as in
`Misc`). -/
def setupBcb (readFile : Text → Option (List Char)) (junk : Nat → Char) (misc : Misc)
    (written writtenPackage : Option Nat) (content : Text) : Setup :=
  match rewriteOptions readFile (content.splitOn '\n') [] with
  | none => ⟨false, false, misc⟩
  | some (options, wipePackage) =>
    let (boot, undefined) := optionsMessage junk options
    let (ok, misc) := misc.writeBootloaderMessage boot written
    if ok then
      if wipePackage ≠ [] then
        let (ok, misc) := misc.writeWipePackage wipePackage writtenPackage
        ⟨ok, undefined, misc⟩
      else ⟨true, undefined, misc⟩
    else ⟨false, undefined, misc⟩

/-! ## The options -/

/-- A line with the size of its wipe package in place of the path. -/
def replaceWipePackage (readFile : Text → Option (List Char)) (line : Text) : Text :=
  if WIPE_PACKAGE.isPrefixOf line then
    wipePackageSize ((readFile (line.drop WIPE_PACKAGE.length)).getD []).length
  else line

/-- A line names a wipe package that cannot be read. -/
def Unreadable (readFile : Text → Option (List Char)) (line : Text) : Prop :=
  WIPE_PACKAGE.isPrefixOf line ∧ readFile (line.drop WIPE_PACKAGE.length) = none

theorem rewriteOptions_eq_none_iff {readFile : Text → Option (List Char)} {lines : List Text}
    {wipePackage : List Char} :
    rewriteOptions readFile lines wipePackage = none ↔
    ∃ line ∈ lines, Unreadable readFile line := by
  induction lines generalizing wipePackage with
  | nil => simp [rewriteOptions]
  | cons line lines ih =>
    rw [rewriteOptions, List.exists_mem_cons_iff, Unreadable]
    by_cases hwipe : WIPE_PACKAGE.isPrefixOf line
    · rw [if_pos hwipe]
      cases readFile (line.drop WIPE_PACKAGE.length) with
      | none => exact iff_of_true rfl (.inl ⟨hwipe, rfl⟩)
      | some data =>
        rw [← @ih data]
        cases hrest : rewriteOptions readFile lines data <;> simp [hrest]
    · rw [if_neg hwipe, ← @ih wipePackage]
      cases hrest : rewriteOptions readFile lines wipePackage <;> simp [hwipe]

theorem rewriteOptions_eq_some {readFile : Text → Option (List Char)} {lines options : List Text}
    {wipePackage last : List Char}
    (h : rewriteOptions readFile lines wipePackage = some (options, last)) :
    options = lines.map (replaceWipePackage readFile) := by
  induction lines generalizing wipePackage options with
  | nil =>
    cases h
    rfl
  | cons line lines ih =>
    rw [rewriteOptions] at h
    rw [List.map_cons, replaceWipePackage]
    split at h
    · rename_i hwipe
      obtain ⟨data, hread, h⟩ := Option.bind_eq_some_iff.mp h
      obtain ⟨⟨options', last'⟩, hrest, h⟩ := Option.bind_eq_some_iff.mp h
      cases h
      rw [if_pos hwipe, hread, ih hrest]
      rfl
    · rename_i hwipe
      obtain ⟨⟨options', last'⟩, hrest, h⟩ := Option.bind_eq_some_iff.mp h
      cases h
      rw [if_neg hwipe, ih hrest]

theorem wipePackageSize_ne_nil (size : Nat) : wipePackageSize size ≠ [] := by
  unfold wipePackageSize
  exact List.append_ne_nil_of_left_ne_nil (by decide) _

theorem replaceWipePackage_eq_nil_iff {readFile : Text → Option (List Char)} {line : Text} :
    replaceWipePackage readFile line = [] ↔ line = [] := by
  unfold replaceWipePackage
  split
  · rename_i hwipe
    refine ⟨fun h => absurd h (wipePackageSize_ne_nil _), ?_⟩
    rintro rfl
    exact absurd hwipe (by decide)
  · rfl

/-! ## The message -/

/-- What has an effect of the options: without the empty ones whose last character is taken to be a
newline. -/
def effective (junk : Nat → Char) : (i : Nat) → List Text → List Text
  | _, [] => []
  | i, s :: options =>
    if s = [] ∧ junk i = '\n' then effective junk (i + 1) options
      else s :: effective junk (i + 1) options

theorem effective_sublist (junk : Nat → Char) (i : Nat) (options : List Text) :
    (effective junk i options).Sublist options := by
  induction options generalizing i with
  | nil => exact .slnil
  | cons s options ih =>
    rw [effective]
    split
    · exact (ih _).cons _
    · exact (ih _).cons_cons _

theorem filter_effective (junk : Nat → Char) (i : Nat) (options : List Text) :
    (effective junk i options).filter (· ≠ []) = options.filter (· ≠ []) := by
  induction options generalizing i with
  | nil => rfl
  | cons s options ih =>
    rw [effective]
    split
    · rename_i hs
      rw [ih, hs.1]
      rfl
    · rw [List.filter_cons, List.filter_cons, ih]

/-- The last character of an empty option is taken if and only if there is one. -/
theorem appendOptions_undefined (junk : Nat → Char) (i : Nat) (options : List Text)
    (recovery : CharArray 768) : (appendOptions junk i options recovery).2 = true ↔
    [] ∈ options := by
  induction options generalizing i recovery with
  | nil => simp [appendOptions]
  | cons s options ih =>
    rw [appendOptions]
    dsimp only
    rw [Bool.or_eq_true, List.isEmpty_iff, ih, List.mem_cons]
    exact or_congr_left eq_comm

/-- The recovery field holds the lines of the options, whatever is taken for the last character of
an empty one. -/
theorem appendOptions_holding (junk : Nat → Char) {options : List Text}
    (hnul : ∀ s ∈ options, '\x00' ∉ s) (hline : ∀ s ∈ options, '\n' ∉ s) (i : Nat)
    {recovery : CharArray 768} {t : Text} (ht : '\x00' ∉ t)
    (h : recovery.toList = CharArray.holding 768 t) :
    (appendOptions junk i options recovery).1.toList =
      CharArray.holding 768 (t ++ (effective junk i options).flatMap (· ++ ['\n'])) := by
  induction options generalizing i recovery t with
  | nil => simpa [appendOptions, effective] using h
  | cons s options ih =>
    obtain ⟨hs, hnul'⟩ := List.forall_mem_cons.mp hnul
    obtain ⟨hsline, hline'⟩ := List.forall_mem_cons.mp hline
    have hcat : (recovery.strlcat s).toList = CharArray.holding 768 (t ++ s) :=
      CharArray.strlcat_holding (by decide) ht hs h
    have hts : '\x00' ∉ t ++ s := by simp [ht, hs]
    rw [appendOptions, effective]
    dsimp only
    by_cases hjunk : s = [] ∧ junk i = '\n'
    · -- nothing is appended
      obtain ⟨rfl, hjunk⟩ := hjunk
      rw [List.append_nil] at hcat
      have hlast : ([] : Text).getLast?.getD (junk i) = '\n' := hjunk
      rw [if_neg (not_not_intro hlast), if_pos ⟨rfl, hjunk⟩]
      exact ih hnul' hline' (i + 1) ht hcat
    · have hlast : s.getLast?.getD (junk i) ≠ '\n' := by
        cases hl : s.getLast? with
        | none => exact fun hj => hjunk ⟨List.getLast?_eq_none_iff.mp hl, hj⟩
        | some c =>
          rintro rfl
          exact hsline (List.mem_of_getLast? hl)
      have hnext :
          ((recovery.strlcat s).strlcat ['\n']).toList = CharArray.holding 768 (t ++ s ++ ['\n']) :=
        CharArray.strlcat_holding (by decide) hts (by decide) hcat
      rw [if_pos hlast, if_neg hjunk, ih hnul' hline' (i + 1) (by simp [ht, hs]) hnext]
      simp only [List.flatMap_cons, List.append_assoc]

theorem recovery_optionsMessage (junk : Nat → Char) {options : List Text}
    (hnul : ∀ s ∈ options, '\x00' ∉ s) (hline : ∀ s ∈ options, '\n' ∉ s) :
    (optionsMessage junk options).1.recovery.toList =
    CharArray.holding 768 (encode (effective junk 0 options)) :=
  appendOptions_holding junk hnul hline 0 (by decide)
  (CharArray.strlcpy_zero (by decide) (by decide))

theorem arguments_eq_filter {tokens : List Text} (hnul : ∀ s ∈ tokens, '\x00' ∉ s) :
    Recovery.arguments tokens = tokens.filter (· ≠ []) := by
  refine List.filter_congr fun s hs => ?_
  have hhead : s.head? ≠ some '\x00' := fun h => hnul s hs (List.mem_of_head? h)
  simp [hhead]

theorem bootArguments_optionsMessage (junk : Nat → Char) {options : List Text}
    (hnul : ∀ s ∈ options, '\x00' ∉ s) (hline : ∀ s ∈ options, '\n' ∉ s)
    (hfits : (encode options).length ≤ 768) :
    Recovery.bootArguments (optionsMessage junk options).1 = options.filter (· ≠ []) := by
  have hsub := effective_sublist junk 0 options
  have hle : (encode (effective junk 0 options)).length ≤ 768 := by
    have hsum := (hsub.map (·.length + 1)).sum_le_sum (by simp)
    rw [Recovery.length_encode] at hfits ⊢
    omega
  have hnul' : ∀ s ∈ effective junk 0 options, '\x00' ∉ s := fun s hs => hnul s (hsub.subset hs)
  rw [Recovery.bootArguments_eq_arguments hnul' (fun s hs => hline s (hsub.subset hs))
    (recovery_optionsMessage junk hnul hline) hle, arguments_eq_filter hnul', filter_effective]

theorem notMem_wipePackageSize {c : Char} (size : Nat) (hc : c = '\x00' ∨ c = '\n') :
    c ∉ wipePackageSize size := by
  intro h
  rcases List.mem_append.mp h with h | h
  · rcases hc with rfl | rfl <;> exact absurd h (by decide)
  · have hdigit : c.isDigit := isDigit_toDigits h
    rcases hc with rfl | rfl <;> exact absurd hdigit (by decide)

theorem notMem_replaceWipePackage {readFile : Text → Option (List Char)} {line : Text} {c : Char}
    (hc : c = '\x00' ∨ c = '\n') (h : c ∉ line) : c ∉ replaceWipePackage readFile line := by
  unfold replaceWipePackage
  split
  · exact notMem_wipePackageSize _ hc
  · exact h

/-! ## The misc partition -/

theorem read_congr {misc misc' : Misc}
    (h : misc'.region misc'.offset 2048 = misc.region misc.offset 2048) (ok : Bool) :
    misc'.readBootloaderMessage ok = misc.readBootloaderMessage ok := by
  unfold Misc.region at h
  unfold Misc.readBootloaderMessage
  simp only [h]

theorem read_writeWipePackage (misc : Misc) (packageData : List Char) (written : Option Nat)
    (ok : Bool) : (misc.writeWipePackage packageData written).2.readBootloaderMessage ok =
    misc.readBootloaderMessage ok := by
  have hoffset : (misc.writeWipePackage packageData written).2.offset = misc.offset := by
    unfold Misc.writeWipePackage Misc.writeMiscPartition
    split <;> rfl
  refine read_congr ?_ ok
  rw [hoffset]
  exact Misc.region_writeMiscPartition (.inl (by omega)) written

theorem setupBcb_cases {readFile : Text → Option (List Char)} {junk : Nat → Char} {misc : Misc}
    {written writtenPackage : Option Nat} {content : Text} :
    ((∃ line ∈ content.splitOn '\n', Unreadable readFile line) ∧
      setupBcb readFile junk misc written writtenPackage content = ⟨false, false, misc⟩) ∨
    (¬∃ line ∈ content.splitOn '\n', Unreadable readFile line) ∧
      ∃ setup, setupBcb readFile junk misc written writtenPackage content = setup ∧
      setup.undefined =
      (optionsMessage junk ((content.splitOn '\n').map (replaceWipePackage readFile))).2 ∧
      (setup.ok = true → setup.misc.readBootloaderMessage true =
        some (optionsMessage junk
        ((content.splitOn '\n').map (replaceWipePackage readFile))).1) := by
  unfold setupBcb
  cases hoptions : rewriteOptions readFile (content.splitOn '\n') [] with
  | none => exact .inl ⟨rewriteOptions_eq_none_iff.mp hoptions, rfl⟩
  | some result =>
    obtain ⟨options, wipePackage⟩ := result
    obtain rfl := rewriteOptions_eq_some hoptions
    have hreadable : ¬∃ line ∈ content.splitOn '\n', Unreadable readFile line := by
      rw [← @rewriteOptions_eq_none_iff _ _ [], hoptions]
      exact Option.some_ne_none _
    refine .inr ⟨hreadable, _, rfl, ?_⟩
    dsimp only
    generalize hmessage :
      optionsMessage junk ((content.splitOn '\n').map (replaceWipePackage readFile)) = message
    obtain ⟨boot, undefined⟩ := message
    dsimp only
    cases hwrite : misc.writeBootloaderMessage boot written with
    | mk ok misc' =>
      cases ok with
      | false => exact ⟨rfl, fun h => absurd h Bool.false_ne_true⟩
      | true =>
        dsimp only
        rw [if_pos rfl]
        split
        · refine ⟨rfl, fun _ => ?_⟩
          rw [read_writeWipePackage]
          exact Misc.read_write hwrite
        · exact ⟨rfl, fun _ => Misc.read_write hwrite⟩

/-- No last character of an empty option is taken, and if the setup succeeded, the next boot has
these lines as its arguments. -/
structure Setup.Right (setup : Setup) (lines : List Text) : Prop where
  defined : setup.undefined = false
  arguments : setup.ok = true → ∀ (b : Recovery.Boot) (name : Text), b.misc = setup.misc →
    b.readOk = true → (Recovery.getArgs b [name]).map (·.1) = some (name :: lines)

/-- **The setup over the socket.** For a message that fits, it is right if and only if no line of
the message is empty (unless a package cannot be read, and no message is written). -/
theorem setupBcb_right_iff {readFile : Text → Option (List Char)} {junk : Nat → Char} {misc : Misc}
    {written writtenPackage : Option Nat} {content : Text} (hnul : '\x00' ∉ content)
    (hfits : (encode ((content.splitOn '\n').map (replaceWipePackage readFile))).length ≤ 768) :
    (setupBcb readFile junk misc written writtenPackage content).Right
        (((content.splitOn '\n').filter (· ≠ [])).map (replaceWipePackage readFile)) ↔
      (∃ line ∈ content.splitOn '\n', Unreadable readFile line) ∨ [] ∉ content.splitOn '\n' := by
  rcases @setupBcb_cases readFile junk misc written writtenPackage content with
    ⟨hunreadable, heq⟩ | ⟨hreadable, setup, heq, hundefined, hread⟩
  · rw [heq]
    exact iff_of_true ⟨rfl, fun h => absurd h Bool.false_ne_true⟩ (.inl hunreadable)
  rw [heq, or_iff_right hreadable]
  have hempty : [] ∈ (content.splitOn '\n').map (replaceWipePackage readFile) ↔
      [] ∈ content.splitOn '\n' := by
    simp only [List.mem_map, replaceWipePackage_eq_nil_iff, exists_eq_right]
  have hback : setup.undefined = true ↔ [] ∈ content.splitOn '\n' := by
    rw [hundefined, ← hempty]
    exact appendOptions_undefined junk 0 _ _
  constructor
  · intro h hmem
    rw [← hback, h.defined] at hmem
    exact Bool.false_ne_true hmem
  · intro hlines
    refine ⟨Bool.eq_false_iff.mpr fun h => hlines (hback.mp h), fun hok b name hmisc hb => ?_⟩
    have hnotMem : ∀ c, c = '\x00' ∨ c = '\n' →
        ∀ s ∈ (content.splitOn '\n').map (replaceWipePackage readFile), c ∉ s := by
      intro c hc s hs
      obtain ⟨line, hline, rfl⟩ := List.mem_map.mp hs
      refine notMem_replaceWipePackage hc ?_
      rcases hc with rfl | rfl
      · exact fun h => hnul ((of_mem_splitOn hline).2 _ h)
      · exact (of_mem_splitOn hline).1
    have hboot :=
      bootArguments_optionsMessage junk (hnotMem _ (.inl rfl)) (hnotMem _ (.inr rfl)) hfits
    have hall : (content.splitOn '\n').filter (· ≠ []) = content.splitOn '\n' :=
      List.filter_eq_self.mpr fun line hline => by
      simpa using fun h : line = [] => hlines (h ▸ hline)
    have hkept : ((content.splitOn '\n').map (replaceWipePackage readFile)).filter (· ≠ []) =
        (content.splitOn '\n').map (replaceWipePackage readFile) :=
      List.filter_eq_self.mpr fun s hs => by
      simpa using fun h : s = [] => hlines (hempty.mp (h ▸ hs))
    have hmessage : b.message =
        (optionsMessage junk ((content.splitOn '\n').map (replaceWipePackage readFile))).1 := by
      rw [Recovery.Boot.message, hmisc, hb, hread hok, Option.getD_some]
    rw [hkept, ← hmessage] at hboot
    have hne : Recovery.bootArguments b.message ≠ [] := by
      rw [hboot, ne_eq, List.map_eq_nil_iff]
      exact List.splitOn_ne_nil '\n' content
    rw [Recovery.getArgs_singleton, Recovery.Boot.options, if_pos hne, hboot, hall]
    rfl

/-- A message with a wipe package of three bytes. -/
def sampleMessage : Text := "--wipe_ab\n--wipe_package=/p".toList

/-- A misc partition of zeros. -/
def sampleMisc : Misc := ⟨List.replicate 20000 '\x00', 0⟩

theorem setupBcb_right_sample :
    (setupBcb (fun _ => some ['a', 'b', 'c'])
      (fun _ => 'x') sampleMisc none none sampleMessage).Right
      ["--wipe_ab".toList, "--wipe_package_size=3".toList] :=
  (setupBcb_right_iff (by decide) (by decide +kernel)).mpr (.inr (by decide))

/-- A message with a newline at its end makes an empty option. -/
theorem not_setupBcb_right :
    ¬(setupBcb (fun _ => none) (fun _ => 'x') sampleMisc none none "--wipe_ab\n".toList).Right
      ["--wipe_ab".toList] := by
  intro h
  have hundefined :
      (setupBcb (fun _ => none)
        (fun _ => 'x') sampleMisc none none "--wipe_ab\n".toList).undefined =
        true := by decide +kernel
  rw [h.defined] at hundefined
  exact Bool.false_ne_true hundefined

end Uncrypt

end BootableRecovery
