import BootableRecovery.Recovery.Args

/-!
# Retrying an update

When an installation fails because of an I/O error, `main` of `recovery.cpp` reboots into recovery
and tries again. How often that has happened is the last line of the bootloader message, which each
boot reads with the other arguments and writes again with `set_retry_bootloader_message`.
-/

namespace BootableRecovery

namespace Recovery

open BootloaderMessage

/-! ## Options -/

/-- An entry of `OPTIONS`. -/
structure LongOption where
  name : Text
  requiredArgument : Bool
  val : Char
  deriving DecidableEq

def OPTIONS : List LongOption :=
  [⟨"update_package".toList, true, 'u'⟩, ⟨"retry_count".toList, true, 'n'⟩,
    ⟨"wipe_data".toList, false, 'w'⟩, ⟨"wipe_cache".toList, false, 'c'⟩,
    ⟨"show_text".toList, false, 't'⟩, ⟨"sideload".toList, false, 's'⟩,
    ⟨"sideload_auto_reboot".toList, false, 'a'⟩, ⟨"update-ubuntu".toList, false, 'v'⟩,
    ⟨"just_exit".toList, false, 'x'⟩, ⟨"locale".toList, true, 'l'⟩,
    ⟨"shutdown_after".toList, false, 'p'⟩, ⟨"reason".toList, true, 'r'⟩,
    ⟨"security".toList, false, 'e'⟩, ⟨"wipe_ab".toList, false, '\x00'⟩,
    ⟨"wipe_package_size".toList, true, '\x00'⟩, ⟨"prompt_and_wipe_data".toList, false, '\x00'⟩]

/-- The option of this name, or the only one whose name starts so. -/
def findOption (name : Text) : Option LongOption :=
  match OPTIONS.find? (·.name = name) with
  | some o => some o
  | none =>
    match OPTIONS.filter (name.isPrefixOf ·.name) with
    | [o] => some o
    | _ => none

/-- Where `getopt_long` stands: it looks for options, or takes the next argument for this option, or
has met `--`. -/
inductive Scan
  | scanning
  | wants (option : LongOption)
  | ended
  deriving DecidableEq

/-- `getopt_long` at one argument. Other arguments than long options are passed over, and so are
those that it reports as invalid. -/
def scanArgument (state : Scan) (arg : Text) : Scan × Option (LongOption × Option Text) :=
  match state with
  | .ended => (.ended, none)
  | .wants option => (.scanning, some (option, some arg))
  | .scanning =>
    match arg with
    | ['-', '-'] => (.ended, none)
    | '-' :: '-' :: text =>
      let value := if '=' ∈ text then some ((text.dropWhile (· ≠ '=')).drop 1) else none
      match findOption (text.takeWhile (· ≠ '=')), value with
      | none, _ => (.scanning, none)
      | some option, some value =>
        (.scanning, if option.requiredArgument then some (option, some value) else none)
      | some option, none =>
        if option.requiredArgument then (.wants option, none) else (.scanning, some (option, none))
    | _ => (.scanning, none)

/-- The variables of `main` that matter for an update. -/
structure Parsed where
  scan : Scan := .scanning
  updatePackage : Option Text := none
  retryCount : Int := 0

/-- One round of the loop over the options. -/
def parseArgument (p : Parsed) (arg : Text) : Parsed :=
  let (scan, found) := scanArgument p.scan arg
  match found with
  | some (option, some optarg) =>
    if option.val = 'u' then { p with scan, updatePackage := some optarg }
    else if option.val = 'n' then
      { p with scan, retryCount := ((parseInt optarg).filter (0 ≤ ·)).getD p.retryCount }
    else { p with scan }
  | _ => { p with scan }

/-- The loop over the options; the name of the program is no argument. -/
def parseArguments (args : List Text) : Parsed := (args.drop 1).foldl parseArgument {}

/-! ## Installing and retrying -/

/-- The results of an installation. -/
inductive InstallResult
  | INSTALL_SUCCESS
  | INSTALL_ERROR
  | INSTALL_CORRUPT
  | INSTALL_NONE
  | INSTALL_SKIPPED
  | INSTALL_RETRY
  | INSTALL_UNVERIFIED
  deriving DecidableEq

def RETRY_LIMIT : Int := 4

/-- The options that `set_retry_bootloader_message` writes. -/
def retryOptions (retryCount : Int) (args : List Text) : List Text :=
  args.filter (fun arg => !"--retry_count".toList.isPrefixOf arg) ++
    ["--retry_count=".toList ++ toText retryCount]

/-- A boot, with what decides about the installation: the battery, the boot reason, and its
result. -/
structure UpdateBoot extends Boot where
  batteryOk : Bool
  bootreasonInBlacklist : Bool
  installPackage : InstallResult

/-- `set_retry_bootloader_message`, when the message can be read and written. -/
def setRetryBootloaderMessage (misc : Misc) (retryCount : Int) (args : List Text) : Misc :=
  (misc.updateBootloaderMessage (retryOptions retryCount args) true none).2

/-- The part of `main` that installs `update_package`: whether there was an attempt, and the misc
partition if the device reboots to retry. -/
def updateMain (b : UpdateBoot) (args : List Text) (misc : Misc) : Bool × Option Misc :=
  let parsed := parseArguments args
  if parsed.updatePackage = none ∨ b.batteryOk = false ∨
    b.bootreasonInBlacklist = true then (false, none)
  else
    let misc :=
      if parsed.retryCount = 0 then setRetryBootloaderMessage misc (parsed.retryCount + 1) args
      else misc
    if b.installPackage = .INSTALL_RETRY ∧ parsed.retryCount < RETRY_LIMIT then
      (true, some (setRetryBootloaderMessage misc (parsed.retryCount + 1) args))
    else (true, none)

/-- The attempts of a chain of boots that starts with these arguments. Each later boot is started
with the name of the program only, and finds what the last one left on the misc partition. -/
def attempts (argv : List Text) (misc : Misc) : List UpdateBoot → Nat
  | [] => 0
  | b :: boots =>
    match getArgs { b.toBoot with misc } argv with
    | none => 0
    | some (args, _, misc) =>
      match updateMain b args misc with
      | (attempt, none) => attempt.toNat
      | (attempt, some misc) => attempt.toNat + attempts (argv.take 1) misc boots

/-! ## Reading the count -/

theorem parseArguments_cons (name : Text) (options : List Text) :
    parseArguments (name :: options) = options.foldl parseArgument {} := rfl

theorem retryCount_nonneg {p : Parsed} (h : 0 ≤ p.retryCount) (options : List Text) :
    0 ≤ (options.foldl parseArgument p).retryCount := by
  induction options generalizing p with
  | nil => exact h
  | cons arg options ih =>
    apply ih
    have hval : ∀ v : Option Int, 0 ≤ (v.filter (0 ≤ ·)).getD p.retryCount := by
      intro v
      cases v with
      | none => exact h
      | some n =>
        rw [Option.filter_some]
        split
        · rename_i hn
          simpa using hn
        · exact h
    unfold parseArgument
    dsimp only
    split
    · split
      · exact h
      · split
        · exact hval _
        · exact h
    · exact h

theorem parseArgument_of_head (h : arg.head? ≠ some '-') (p : Parsed) (hp : p.scan = .scanning) :
    parseArgument p arg = p := by
  have hscan : scanArgument .scanning arg = (.scanning, none) := by
    simp only [scanArgument]
    split
    · simp at h
    · simp at h
    · rfl
  obtain ⟨_, updatePackage, retryCount⟩ := p
  cases hp
  rw [parseArgument, hscan]

theorem foldl_parseArgument_replicate (h : arg.head? ≠ some '-') (n : Nat) (p : Parsed)
    (hp : p.scan = .scanning) : (List.replicate n arg).foldl parseArgument p = p := by
  induction n with
  | zero => rfl
  | succ n ih => rw [List.replicate_succ, List.foldl_cons, parseArgument_of_head h p hp, ih]

theorem scanArgument_retryCount (value : Text) :
    scanArgument .scanning ("--retry_count=".toList ++ value) =
      (.scanning, some (⟨"retry_count".toList, true, 'n'⟩, some value)) := by
  obtain ⟨text, hcons⟩ : ∃ text, "retry_count".toList ++ '=' :: value = 'r' :: text := ⟨_, rfl⟩
  have htext : "--retry_count=".toList ++ value = '-' :: '-' :: 'r' :: text := by
    rw [← hcons]
    rfl
  have hname : ∀ c ∈ "retry_count".toList, decide (c ≠ '=') = true := by decide
  have hfind : findOption "retry_count".toList = some ⟨"retry_count".toList, true, 'n'⟩ := by decide
  have htake : ('r' :: text).takeWhile (· ≠ '=') = "retry_count".toList := by
    rw [← hcons, List.takeWhile_append_of_pos hname]
    simp
  have hdrop : (('r' :: text).dropWhile (· ≠ '=')).drop 1 = value := by
    rw [← hcons, List.dropWhile_append_of_pos hname]
    simp
  have hmem : '=' ∈ 'r' :: text := by
    rw [← hcons]
    simp
  rw [htext]
  simp only [scanArgument]
  rw [htake, hfind, if_pos hmem, hdrop]
  rfl

theorem parseArgument_retryCount {p : Parsed} (hp : p.scan = .scanning) {k : Nat}
    (hk : k ≤ INT_MAX) :
    parseArgument p ("--retry_count=".toList ++ toText k) = { p with retryCount := k } := by
  have hint : (parseInt (toText k)).filter (0 ≤ ·) = some (k : Int) := by
    rw [parseInt_toText (by omega) (by omega), Option.filter_some, if_pos (by simp)]
  obtain ⟨_, updatePackage, retryCount⟩ := p
  cases hp
  unfold parseArgument
  rw [scanArgument_retryCount]
  dsimp only
  rw [if_neg (by decide), if_pos rfl, hint, Option.getD_some]

/-! ## The bound -/

/-- Arguments with which the count comes back: they are lines, `getopt_long` reads all of them as
options and arguments of options, and with four more names of the program and the count they fit
into the message. -/
structure Retryable (name : Text) (options : List Text) : Prop where
  lines : ∀ s ∈ name :: options, s ≠ [] ∧ '\x00' ∉ s ∧ '\n' ∉ s
  name_head : name.head? ≠ some '-'
  scan : (options.foldl parseArgument {}).scan = .scanning
  fits : (encode (List.replicate 4 name ++ options ++ ["--retry_count=4".toList])).length ≤ 768

/-- The options after some reboots. -/
def laterOptions (name : Text) (options : List Text) (names count : Nat) : List Text :=
  List.replicate names name ++ options ++ ["--retry_count=".toList ++ toText count]

theorem length_encode_laterOptions (name : Text) (options : List Text) (names : Nat) {count : Nat}
    (hcount : count < 10) : (encode (laterOptions name options names count)).length =
      25 + names * (name.length + 1) + (options.map (·.length + 1)).sum := by
  have hone : (toText count).length = 1 := by
    change (Nat.toDigits 10 count).length = 1
    rw [Nat.toDigits_of_lt_base hcount]
    rfl
  have h14 : "--retry_count=".toList.length = 14 := by decide
  rw [length_encode, laterOptions]
  simp only [List.map_append, List.map_replicate, List.sum_append, List.map_cons, List.map_nil,
    List.sum_cons, List.sum_nil, List.length_append, hone, h14]
  rw [List.sum_replicate_nat]
  omega

section
variable {name : Text} {options : List Text} (h : Retryable name options)
variable (hcount : ∀ s ∈ options, "--retry_count".toList.isPrefixOf s = false)
include h

theorem Retryable.fits_later {names count : Nat} (hnames : names ≤ 4) (hc : count < 10) :
    (encode (laterOptions name options names count)).length ≤ 768 := by
  have hfits : (encode (laterOptions name options 4 4)).length ≤ 768 := h.fits
  rw [length_encode_laterOptions _ _ _ (by decide)] at hfits
  rw [length_encode_laterOptions _ _ _ hc]
  have := Nat.mul_le_mul_right (name.length + 1) hnames
  omega

theorem Retryable.lines_later {names count : Nat} (s : Text)
    (hs : s ∈ laterOptions name options names count) : s ≠ [] ∧ '\x00' ∉ s ∧ '\n' ∉ s := by
  rcases List.mem_append.mp hs with hs | hs
  · rcases List.mem_append.mp hs with hs | hs
    · rw [List.eq_of_mem_replicate hs]
      exact h.lines name List.mem_cons_self
    · exact h.lines s (List.mem_cons_of_mem _ hs)
  · rw [List.mem_singleton.mp hs]
    have hnot : ∀ c, c = '\x00' ∨ c = '\n' →
        c ∉ "--retry_count=".toList ++ toText (count : Int) := by
      intro c hc hm
      rcases List.mem_append.mp hm with hm | hm
      · revert hm
        rcases hc with rfl | rfl <;> decide
      · have hdigit : c.isDigit := isDigit_toDigits hm
        revert hdigit
        rcases hc with rfl | rfl <;> decide
    exact ⟨by simp, hnot _ (.inl rfl), hnot _ (.inr rfl)⟩

theorem Retryable.count_later (names : Nat) {count : Nat} (hc : count ≤ INT_MAX) :
    (parseArguments (name :: laterOptions name options names count)).retryCount = count := by
  rw [parseArguments_cons, laterOptions, List.foldl_append, List.foldl_append,
    foldl_parseArgument_replicate h.name_head _ _ rfl, List.foldl_cons, List.foldl_nil,
    parseArgument_retryCount h.scan hc]

theorem Retryable.not_retryCount_name : "--retry_count".toList.isPrefixOf name = false := by
  cases hn : name with
  | nil => rfl
  | cons c s =>
    have hc := h.name_head
    rw [hn] at hc
    have hne : c ≠ '-' := by simpa using hc
    rw [show "--retry_count".toList = '-' :: "-retry_count".toList from rfl,
      List.isPrefixOf_cons_cons]
    simp [hne.symm]

include hcount

theorem Retryable.retryOptions_later (names count next : Nat) :
    retryOptions next (name :: laterOptions name options names count) =
      laterOptions name options (names + 1) next := by
  have hkeep : ∀ s ∈ List.replicate (names + 1) name ++ options,
      (!"--retry_count".toList.isPrefixOf s) = true := by
    intro s hs
    rw [Bool.not_eq_true']
    rcases List.mem_append.mp hs with hs | hs
    · rw [List.eq_of_mem_replicate hs]
      exact h.not_retryCount_name
    · exact hcount s hs
  have hdrop : "--retry_count".toList.isPrefixOf ("--retry_count=".toList ++ toText count) = true :=
    List.isPrefixOf_iff_prefix.mpr ⟨'=' :: toText count, rfl⟩
  rw [retryOptions, laterOptions, ← List.cons_append, ← List.cons_append, ← List.replicate_succ,
    List.filter_append, List.filter_eq_self.mpr hkeep, List.filter_singleton, hdrop]
  simp [laterOptions]

theorem Retryable.retryOptions_first (next : Nat) :
    retryOptions next (name :: options) = laterOptions name options 1 next := by
  have hkeep : ∀ s ∈ name :: options, (!"--retry_count".toList.isPrefixOf s) = true := by
    intro s hs
    rw [Bool.not_eq_true']
    rcases List.mem_cons.mp hs with rfl | hs
    · exact h.not_retryCount_name
    · exact hcount s hs
  rw [retryOptions, List.filter_eq_self.mpr hkeep]
  rfl

end

/-- A partition with room for the message. -/
def HasRoom (misc : Misc) : Prop := misc.offset + 2048 ≤ misc.content.length

theorem HasRoom.update {misc : Misc} (h : HasRoom misc) (options : List Text) :
    ∃ misc', misc.updateBootloaderMessage options true none = (true, misc') ∧ HasRoom misc' := by
  have hlen : ((misc.content.drop misc.offset).take 2048).length = 2048 := by
    unfold HasRoom at h
    rw [List.length_take, List.length_drop]
    omega
  obtain ⟨boot, hboot⟩ : ∃ boot, misc.readBootloaderMessage true = some boot := by
    simp [Misc.readBootloaderMessage, hlen]
  refine ⟨misc.put misc.offset (boot.updateInStruct options).bytes, ?_, ?_⟩
  · rw [Misc.updateBootloaderMessage, hboot]
    simp only [Misc.writeBootloaderMessage, Misc.writeMiscPartition, BootloaderMessage.length_bytes]
    rw [decide_eq_true (show misc.offset + 2048 ≤ misc.content.length from h)]
  · unfold HasRoom at h ⊢
    rwa [Misc.length_put, Misc.put_offset]

/-- A boot whose reads and writes of the message succeed. -/
def Boot.Succeeds (b : Boot) : Prop := b.readOk = true ∧ b.updateReadOk = true ∧ b.written = none

theorem Retryable.options_next (h : Retryable name options) {misc : Misc} (hroom : HasRoom misc)
    (hnames : names ≤ 4) (hc : count < 10) {b : Boot} (hread : b.readOk = true) :
    Boot.options
    { b with misc := (misc.updateBootloaderMessage (laterOptions name options names count)
      true none).2 } = laterOptions name options names count := by
  obtain ⟨misc', hup, -⟩ := hroom.update (laterOptions name options names count)
  rw [hup]
  refine (options_of_update hup (fun s hs => (h.lines_later s hs).1)
    (fun s hs => (h.lines_later s hs).2.1) (fun s hs => (h.lines_later s hs).2.2)
    (rfl : Boot.misc { b with misc := misc' } = misc') hread ?_).1.mpr (h.fits_later hnames hc)
  simp [laterOptions]

/-- The device reboots only after an attempt with a count below the limit, and leaves the next
count. -/
theorem updateMain_cases (b : UpdateBoot) (args : List Text) {misc : Misc} (hroom : HasRoom misc) :
    (∃ attempt, updateMain b args misc = (attempt, none)) ∨
    ∃ start, HasRoom start ∧ (parseArguments args).retryCount < RETRY_LIMIT ∧
      updateMain b args misc = (true, some (start.updateBootloaderMessage
        (retryOptions ((parseArguments args).retryCount + 1) args) true none).2) := by
  unfold updateMain
  dsimp only
  split
  · exact .inl ⟨_, rfl⟩
  · split
    · rename_i hretry
      refine .inr ⟨_, ?_, hretry.2, rfl⟩
      split
      · obtain ⟨misc', hup, hroom'⟩ :=
          hroom.update (retryOptions ((parseArguments args).retryCount + 1) args)
        rwa [setRetryBootloaderMessage, hup]
      · exact hroom
    · exact .inl ⟨_, rfl⟩

theorem getArgs_eq_some {b : Boot} (h : getArgs b argv = some (args, ok, misc)) :
    args.take 1 = argv.take 1 ∧
      b.misc.updateBootloaderMessage (args.drop 1) b.updateReadOk b.written = (ok, misc) := by
  unfold getArgs at h
  split at h
  · rename_i hpos
    obtain ⟨name, rest, rfl⟩ := List.exists_cons_of_ne_nil (List.length_pos_iff.mp hpos)
    simp only [Option.some.injEq, Prod.mk.injEq] at h
    obtain ⟨rfl, hup⟩ := h
    refine ⟨?_, by rw [hup]⟩
    have hstep : ∀ (p : Prop) [Decidable p] (l extra : List Text), l.take 1 = [name] →
        (if p then l ++ extra else l).take 1 = [name] := by
      intro p _ l extra hl
      split
      · cases l with
        | nil => simp at hl
        | cons c l => simpa using hl
      · exact hl
    exact hstep _ _ _ (hstep _ _ _ (hstep _ _ _ rfl))
  · cases h

theorem HasRoom.of_update {misc misc' : Misc} (h : HasRoom misc)
    (hup : misc.updateBootloaderMessage options readOk written = (ok, misc')) : HasRoom misc' := by
  unfold Misc.updateBootloaderMessage at hup
  split at hup
  · cases hup
    exact h
  · unfold Misc.writeBootloaderMessage Misc.writeMiscPartition at hup
    split at hup <;> cases hup <;> unfold HasRoom at h ⊢ <;> rwa [Misc.length_put, Misc.put_offset]

section
variable {name : Text} {options : List Text} (h : Retryable name options)
variable (hcount : ∀ s ∈ options, "--retry_count".toList.isPrefixOf s = false)
include h hcount

theorem Retryable.attempts_later {names count : Nat} (hnames : names ≤ count) (hpos : 0 < count)
    (hle : count ≤ 4) {misc : Misc} (hroom : HasRoom misc) (boots : List UpdateBoot)
    (hboots : ∀ b ∈ boots, b.toBoot.Succeeds) :
    attempts [name]
    (misc.updateBootloaderMessage (laterOptions name options names count) true none).2 boots ≤
      5 - count := by
  induction boots generalizing names count misc with
  | nil => exact Nat.zero_le _
  | cons b boots ih =>
    obtain ⟨hread, hupRead, hwritten⟩ := hboots b List.mem_cons_self
    have hopt := h.options_next hroom (by omega : names ≤ 4) (by omega : count < 10) hread
    obtain ⟨misc', hup, hroom'⟩ := hroom.update (laterOptions name options names count)
    obtain ⟨misc'', hup', hroom''⟩ := hroom'.update (laterOptions name options names count)
    have hparsed := h.count_later names (by rw [INT_MAX]; omega : count ≤ INT_MAX)
    rw [attempts, getArgs_singleton, hopt, hup]
    dsimp only
    rw [hupRead, hwritten, hup']
    dsimp only
    rcases updateMain_cases b (name :: laterOptions name options names count) hroom'' with
      ⟨attempt, hmain⟩ | ⟨start, hstart, hlt, hmain⟩
    · rw [hmain]
      have := Bool.toNat_le attempt
      dsimp only
      omega
    · rw [hparsed, RETRY_LIMIT] at hlt
      rw [hmain, hparsed]
      dsimp only
      have hnext := ih (by omega : names + 1 ≤ count + 1) (by omega) (by omega) hstart
        fun b hb => hboots b (List.mem_cons_of_mem _ hb)
      rw [← h.retryOptions_later hcount names count (count + 1)] at hnext
      simp only [List.take_one, List.head?_cons, Option.toList_some]
      have hone : true.toNat = 1 := rfl
      push_cast at hnext
      omega

/-- With such arguments there are at most `RETRY_LIMIT + 1` attempts, however often the device
reboots. -/
theorem attempts_le {first : UpdateBoot} {argv : List Text} {written : Bool} {misc : Misc}
    (hargs : getArgs first.toBoot argv = some (name :: options, written, misc))
    (hroom : HasRoom first.misc) (boots : List UpdateBoot)
    (hboots : ∀ b ∈ boots, b.toBoot.Succeeds) :
    attempts argv first.misc (first :: boots) ≤ RETRY_LIMIT + 1 := by
  obtain ⟨htake, hup⟩ := getArgs_eq_some hargs
  have hroom' := hroom.of_update hup
  have hnonneg : 0 ≤ (parseArguments (name :: options)).retryCount :=
    retryCount_nonneg (Int.le_refl 0) options
  rw [attempts, hargs]
  dsimp only
  rcases updateMain_cases first (name :: options) hroom' with ⟨attempt, hmain⟩ | ⟨start, hstart,
    hlt, hmain⟩
  · rw [hmain]
    have := Bool.toNat_le attempt
    simp only [RETRY_LIMIT]
    omega
  · obtain ⟨count, hcnt⟩ := Int.eq_ofNat_of_zero_le hnonneg
    rw [hcnt, RETRY_LIMIT] at hlt
    rw [hmain, hcnt, ← htake]
    dsimp only
    have hnext :=
      h.attempts_later hcount (by omega : 1 ≤ count + 1) (by omega) (by omega) hstart boots hboots
    rw [← h.retryOptions_first hcount (count + 1)] at hnext
    have hone : true.toNat = 1 := rfl
    simp only [List.take_one, List.head?_cons, Option.toList_some, RETRY_LIMIT]
    push_cast at hnext
    omega

end

/-- A boot that finds this in `COMMAND_FILE`, and has to try again. -/
def UpdateBoot.ofCommandFile (content : Text) : UpdateBoot where
  toBoot := .ofCommandFile content
  batteryOk := true
  bootreasonInBlacklist := false
  installPackage := .INSTALL_RETRY

theorem hasRoom_ofCommandFile (content : Text) :
    HasRoom (UpdateBoot.ofCommandFile content).misc := by
  change 0 + 2048 ≤ BootloaderMessage.zero.bytes.length
  rw [BootloaderMessage.length_bytes]

/-- Ten boots with a package that always fails. -/
theorem attempts_le_package :
    attempts ["recovery".toList] (UpdateBoot.ofCommandFile "--update_package=a".toList).misc
      (.ofCommandFile "--update_package=a".toList :: List.replicate 9 (.ofCommandFile [])) ≤
      RETRY_LIMIT + 1 := by
  have hretry : Retryable "recovery".toList ["--update_package=a".toList] := by
    constructor <;> decide
  have hargs := getArgs_ofCommandFile (s := "--update_package=a".toList) (by decide) (by decide)
    (by decide) "recovery".toList
  have hcount : ∀ s ∈ ["--update_package=a".toList], "--retry_count".toList.isPrefixOf s =
      false := by
    decide
  have hfirst : (UpdateBoot.ofCommandFile "--update_package=a".toList).toBoot =
      .ofCommandFile "--update_package=a".toList := rfl
  rw [← hfirst] at hargs
  refine attempts_le hretry hcount hargs (hasRoom_ofCommandFile _) _ fun b hb => ?_
  rw [List.eq_of_mem_replicate hb]
  exact ⟨rfl, rfl, rfl⟩

/-! ## Losing the count -/

/-- The options that a message with too many characters gives. -/
def cutOptions (options : List Text) : List Text :=
  match ((encode options).take 767).splitOn '\n' with
  | [] => []
  | token :: tokens => if token = "recovery".toList then arguments tokens else []

theorem bootArguments_of_update {misc misc' : Misc} {options : List Text} {again : Boot}
    (h : misc.updateBootloaderMessage options readOk written = (true, misc'))
    (hnul : ∀ s ∈ options, '\x00' ∉ s) (hline : ∀ s ∈ options, '\n' ∉ s)
    (hmisc : again.misc = misc') (hread : again.readOk = true) :
    bootArguments again.message = cutOptions options := by
  unfold Misc.updateBootloaderMessage at h
  split at h
  · simp at h
  · rename_i boot _
    have hback :
        again.misc.readBootloaderMessage again.readOk = some (boot.updateInStruct options) := by
      rw [hmisc, hread]
      exact Misc.read_write h
    rw [Boot.message, hback, Option.getD_some, bootArguments,
      cstr_recovery hnul (recovery_updateInStruct boot hnul hline)]
    rfl

/-- The arguments ask for an update and have no count. -/
def Fresh (args : List Text) : Prop :=
  (parseArguments args).updatePackage.isSome ∧ (parseArguments args).retryCount = 0

instance (args : List Text) : Decidable (Fresh args) := inferInstanceAs (Decidable (_ ∧ _))

/-- The options that the next boot finds after a first attempt. -/
def nextOptions (name : Text) (options : List Text) : List Text :=
  cutOptions (retryOptions 1 (name :: options))

theorem of_mem_cutOptions {options : List Text} (hnul : ∀ s ∈ options, '\x00' ∉ s)
    (hs : s ∈ cutOptions options) : '\x00' ∉ s ∧ '\n' ∉ s := by
  unfold cutOptions at hs
  split at hs
  · simp at hs
  · rename_i token tokens heq
    split at hs
    · have hm : s ∈ ((encode options).take 767).splitOn '\n' := by
        rw [heq]
        exact List.mem_cons_of_mem _ (List.mem_of_mem_filter hs)
      have hmem := of_mem_splitOn hm
      exact ⟨fun h => not_mem_encode hnul (List.mem_of_mem_take (hmem.2 _ h)), hmem.1⟩
    · simp at hs

theorem of_mem_retryOptions {args : List Text} (h : ∀ s ∈ args, '\x00' ∉ s ∧ '\n' ∉ s)
    (hs : s ∈ retryOptions 1 args) : '\x00' ∉ s ∧ '\n' ∉ s := by
  rcases List.mem_append.mp hs with hs | hs
  · exact h s (List.mem_of_mem_filter hs)
  · rw [List.mem_singleton.mp hs]
    decide

/-- A boot that can install, and whose installation has to be tried again. -/
structure UpdateBoot.Retries (b : UpdateBoot) : Prop where
  succeeds : b.toBoot.Succeeds
  batteryOk : b.batteryOk = true
  bootreason : b.bootreasonInBlacklist = false
  install : b.installPackage = .INSTALL_RETRY

theorem UpdateBoot.Retries.updateMain_fresh {b : UpdateBoot} (h : b.Retries) {misc : Misc}
    (hroom : HasRoom misc) (hfresh : Fresh args) :
    ∃ start, HasRoom start ∧ updateMain b args misc =
      (true, some (start.updateBootloaderMessage (retryOptions 1 args) true none).2) := by
  obtain ⟨misc', hup, hroom'⟩ := hroom.update (retryOptions 1 args)
  have hsome : (parseArguments args).updatePackage ≠ none := Option.isSome_iff_ne_none.mp hfresh.1
  refine ⟨misc', hroom', ?_⟩
  unfold updateMain
  dsimp only
  rw [if_neg (by simp [hsome, h.batteryOk, h.bootreason]), hfresh.2, if_pos rfl,
    if_pos ⟨h.install, by decide⟩]
  simp [setRetryBootloaderMessage, hup]

theorem attempts_fresh {name : Text} {options : List Text}
    (hlines : ∀ s ∈ name :: options, '\x00' ∉ s ∧ '\n' ∉ s) {misc : Misc} (hroom : HasRoom misc)
    (boots : List UpdateBoot) (hboots : ∀ b ∈ boots, b.Retries)
    (hfresh : ∀ j < boots.length, Fresh (name :: (nextOptions name)^[j + 1] options)) :
    attempts [name] (misc.updateBootloaderMessage (retryOptions 1 (name :: options)) true none).2
    boots =
      boots.length := by
  induction boots generalizing options misc with
  | nil => rfl
  | cons b boots ih =>
    have hb := hboots b List.mem_cons_self
    obtain ⟨hread, hupRead, hwritten⟩ := hb.succeeds
    have hnow := hfresh 0 (by simp)
    rw [Function.iterate_one] at hnow
    have hretry : ∀ s ∈ retryOptions 1 (name :: options), '\x00' ∉ s ∧ '\n' ∉ s :=
      fun s hs => of_mem_retryOptions hlines hs
    have hlines' : ∀ s ∈ name :: nextOptions name options, '\x00' ∉ s ∧ '\n' ∉ s := by
      intro s hs
      rcases List.mem_cons.mp hs with rfl | hs
      · exact hlines _ List.mem_cons_self
      · exact of_mem_cutOptions (fun s hs => (hretry s hs).1) hs
    have hne : nextOptions name options ≠ [] := by
      intro heq
      rw [heq] at hnow
      exact Bool.false_ne_true hnow.1
    obtain ⟨misc', hup, hroom'⟩ := hroom.update (retryOptions 1 (name :: options))
    have hboot :=
      bootArguments_of_update hup (fun s hs => (hretry s hs).1) (fun s hs => (hretry s hs).2)
      (rfl : Boot.misc { b.toBoot with misc := misc' } = misc') hread
    have hopt : Boot.options { b.toBoot with misc := misc' } = nextOptions name options := by
      rw [Boot.options, hboot]
      exact if_pos hne
    obtain ⟨misc'', hup', hroom''⟩ := hroom'.update (nextOptions name options)
    obtain ⟨start, hstart, hmain⟩ := hb.updateMain_fresh hroom'' hnow
    rw [hup, attempts, getArgs_singleton, hopt]
    dsimp only
    rw [hupRead, hwritten, hup']
    dsimp only
    rw [hmain]
    dsimp only
    rw [List.take_one, List.head?_cons, Option.toList_some, ih hlines' hstart
      (fun b hb => hboots b (List.mem_cons_of_mem _ hb)) fun j hj =>
      ?_, List.length_cons, Nat.add_comm]
    · rfl
    · have := hfresh (j + 1) (by simpa using hj)
      rwa [Function.iterate_succ_apply] at this

theorem attempts_fresh_first {first : UpdateBoot} {name : Text} {options : List Text}
    (hopt : first.toBoot.options = options) (hlines : ∀ s ∈ name :: options, '\x00' ∉ s ∧ '\n' ∉ s)
    (hroom : HasRoom first.misc) (boots : List UpdateBoot)
    (hboots : ∀ b ∈ first :: boots, b.Retries)
    (hfresh : ∀ j < boots.length + 1, Fresh (name :: (nextOptions name)^[j] options)) :
    attempts [name] first.misc (first :: boots) = boots.length + 1 := by
  have hfirst := hboots first List.mem_cons_self
  obtain ⟨hread, hupRead, hwritten⟩ := hfirst.succeeds
  obtain ⟨misc, hup, hroom'⟩ := hroom.update options
  have hnow : Fresh (name :: options) := hfresh 0 (by omega)
  obtain ⟨start, hstart, hmain⟩ := hfirst.updateMain_fresh hroom' hnow
  rw [attempts, getArgs_singleton, hopt, hupRead, hwritten, hup]
  dsimp only
  rw [hmain]
  dsimp only
  rw [List.take_one, List.head?_cons, Option.toList_some, attempts_fresh hlines hstart boots
    (fun b hb => hboots b (List.mem_cons_of_mem _ hb)) fun j hj => hfresh (j + 1) (by omega),
    Nat.add_comm]
  rfl

/-- With an argument of 737 characters the count does not fit, and there are six attempts in six
boots. -/
theorem not_attempts_le :
    ¬ ∀ (first : UpdateBoot) (argv : List Text) (name : Text) (options : List Text)
    (written : Bool) (misc : Misc) (boots : List UpdateBoot),
    getArgs first.toBoot argv = some (name :: options, written, misc) →
    (parseArguments (name :: options)).updatePackage ≠ none →
    (∀ s ∈ options, "--retry_count".toList.isPrefixOf s = false) → HasRoom first.misc →
    (∀ b ∈ first :: boots, b.Retries) →
    attempts argv first.misc (first :: boots) ≤ RETRY_LIMIT + 1 := by
  intro hall
  obtain ⟨name, hname⟩ : ∃ name, name = "recovery".toList := ⟨_, rfl⟩
  obtain ⟨options, hoptions⟩ :
      ∃ options, options = ["--update_package=a".toList, List.replicate 737 'x'] :=
    ⟨_, rfl⟩
  obtain ⟨first, hfirst⟩ : ∃ first, first = UpdateBoot.ofCommandFile
      ("--update_package=a".toList ++ '\n' :: List.replicate 737 'x') := ⟨_, rfl⟩
  have hlines : ∀ s ∈ name :: options, '\x00' ∉ s ∧ '\n' ∉ s := by
    rw [hname, hoptions]
    decide +kernel
  have hopts : ∀ s ∈ options, s ≠ [] ∧ "--retry_count".toList.isPrefixOf s = false := by
    rw [hoptions]
    decide +kernel
  have hfresh : ∀ j < 6, Fresh (name :: (nextOptions name)^[j] options) := by
    rw [hname, hoptions]
    decide +kernel
  have hopt : first.toBoot.options = options := by
    have hx : '\n' ∉ List.replicate 737 'x' :=
      fun hm => absurd (List.eq_of_mem_replicate hm) (by decide)
    rw [hfirst, UpdateBoot.ofCommandFile, options_ofCommandFile, List.splitOn_append_cons_self,
      List.splitOn_eq_singleton (by decide), List.splitOn_eq_singleton hx,
      ← List.singleton_append.symm, ← hoptions]
    exact arguments_eq_self (fun s hs => (hopts s hs).1)
      fun s hs => (hlines s (List.mem_cons_of_mem _ hs)).1
  have hretries : ∀ content, (UpdateBoot.ofCommandFile content).Retries :=
    fun _ => ⟨⟨rfl, rfl, rfl⟩, rfl, rfl, rfl⟩
  have hboots : ∀ b ∈ first :: List.replicate 5 (.ofCommandFile []), b.Retries := by
    intro b hb
    rcases List.mem_cons.mp hb with rfl | hb
    · rw [hfirst]
      exact hretries _
    · rw [List.eq_of_mem_replicate hb]
      exact hretries _
  have hroom : HasRoom first.misc := hfirst ▸ hasRoom_ofCommandFile _
  have hargs := getArgs_singleton first.toBoot name
  rw [hopt] at hargs
  have hle := hall first [name] name options _ _ _ hargs
    (Option.isSome_iff_ne_none.mp (hfresh 0 (by decide)).1)
      (fun s hs => (hopts s hs).2) hroom hboots
  rw [attempts_fresh_first hopt hlines hroom _ hboots hfresh] at hle
  exact absurd hle (by decide)

end Recovery

end BootableRecovery
