import BootableRecovery.Recovery.Retry
import Mathlib.Data.List.Induction
import Mathlib.Logic.Function.Basic

/-!
# Acceptance of A/B packages

`check_newer_ab_build` of `install.cpp`: the metadata of a package are folded into a map, and the
device, the serial number, the type, the source build and the age of the package are checked. A
package is accepted exactly if the last lines of the keys allow it (`checkNewerAbBuild_spec`).
-/

namespace BootableRecovery.AbPackage

open Recovery (InstallResult)

/-! ## The code -/

/-- `GetProperty` with the default `""`. -/
abbrev Properties := Text → Text

/-- `GetIntProperty` for an `int64_t`: the default counts if the property is unset or no such
number. -/
def getIntProperty (props : Properties) (key : Text) (defaultValue : Int) : Int :=
  (parseInt64 (props key)).getD defaultValue

/-- A line, split at its first `=`. -/
def keyValue (line : Text) : Option (Text × Text) :=
  if '=' ∈ line then some (line.takeWhile (· ≠ '='), (line.dropWhile (· ≠ '=')).drop 1) else none

/-- `metadata[key] = value` for a line with a `=`. What is not in the map reads as the empty
string. -/
def addLine (metadata : Text → Text) (line : Text) : Text → Text :=
  match keyValue line with
  | some (key, value) => Function.update metadata key value
  | none => metadata

def parseLines (lines : List Text) : Text → Text := lines.foldl addLine fun _ => []

/-- The loop over the lines of the metadata. -/
def parseMetadata (metadataStr : Text) : Text → Text := parseLines (metadataStr.splitOn '\n')

/-- Whether a trimmed item of a list is the value. -/
def listed (value list : Text) (separator : Char) : Bool :=
  (list.splitOn separator).any fun item => value = trim item

/-- Whether the package counts as older than the build. -/
def older (props : Properties) (metadata : Text → Text) : Bool :=
  let buildTimestamp := getIntProperty props "ro.build.date.utc".toList (2 ^ 63 - 1)
  let postTimestamp := metadata "post-timestamp".toList
  postTimestamp.isEmpty ||
    match parseInt64 (cstr postTimestamp) with
    | none => true
    | some pkgPostTimestamp => pkgPostTimestamp < buildTimestamp

/-- `check_newer_ab_build`, for what `read_metadata_from_package` gives. -/
def checkNewerAbBuild (props : Properties) (metadataStr : Option Text) : InstallResult :=
  match metadataStr with
  | none => .INSTALL_CORRUPT
  | some metadataStr =>
    let metadata := parseMetadata metadataStr
    let pkgSerialNo := metadata "serialno".toList
    let pkgPreBuild := metadata "pre-build-incremental".toList
    let pkgPreBuildFingerprint := metadata "pre-build".toList
    if !listed (props "ro.product.device".toList) (metadata "pre-device".toList) ','
      then .INSTALL_ERROR
    else if pkgSerialNo ≠ [] ∧ !listed (props "ro.serialno".toList) pkgSerialNo '|'
      then .INSTALL_ERROR
    else if metadata "ota-type".toList ≠ "AB".toList then .INSTALL_ERROR
    else if pkgPreBuild ≠ [] ∧ pkgPreBuild ≠ props "ro.build.version.incremental".toList
      then .INSTALL_ERROR
    else if pkgPreBuildFingerprint ≠ [] ∧
      pkgPreBuildFingerprint ≠ props "ro.build.fingerprint".toList then .INSTALL_ERROR
    else if older props metadata then
      if metadata "ota-downgrade".toList ≠ "yes".toList then .INSTALL_ERROR
      else if pkgPreBuildFingerprint = [] then .INSTALL_ERROR
      else .INSTALL_SUCCESS
    else .INSTALL_SUCCESS

/-! ## What a text says -/

/-- The last line of a key. -/
def LastLine (lines : List Text) (key value : Text) : Prop :=
  ∃ before after, lines = before ++ (key ++ '=' :: value) :: after ∧
  ∀ line ∈ after, ∀ other, line ≠ key ++ '=' :: other

/-- The value of a key: what the last of its lines gives it. -/
def Declares (text key value : Text) : Prop := LastLine (text.splitOn '\n') key value

/-- The lines of a key, in their order. -/
def linesOf (key text : Text) : List Text :=
  (text.splitOn '\n').filter fun line => (keyValue line).map Prod.fst = some key

/-- The timestamp is a number that is not below the build date. -/
def Recent (props : Properties) (text : Text) : Prop :=
  ∃ timestamp n, Declares text "post-timestamp".toList timestamp ∧
  parseInt64 (cstr timestamp) = some n ∧
    getIntProperty props "ro.build.date.utc".toList (2 ^ 63 - 1) ≤ n

/-- The packages that are for the device. -/
structure Acceptable (props : Properties) (text : Text) : Prop where
  device : ∃ names, Declares text "pre-device".toList names ∧
    ∃ name ∈ names.splitOn ',', trim name = props "ro.product.device".toList
  serial : ∀ numbers, Declares text "serialno".toList numbers → numbers = [] ∨
    ∃ number ∈ numbers.splitOn '|', trim number = props "ro.serialno".toList
  otaType : Declares text "ota-type".toList "AB".toList
  incremental : ∀ build, Declares text "pre-build-incremental".toList build → build = [] ∨
    build = props "ro.build.version.incremental".toList
  fingerprint : ∀ build, Declares text "pre-build".toList build → build = [] ∨
    build = props "ro.build.fingerprint".toList
  age : Recent props text ∨
    Declares text "ota-downgrade".toList "yes".toList ∧
    ∃ build, Declares text "pre-build".toList build ∧ build ≠ []

section
variable {props : Properties} {text line key value : Text} {lines : List Text}

/-! ## The map -/

theorem keyValue_eq_some : keyValue line = some (key, value) ↔
    line = key ++ '=' :: value ∧ '=' ∉ key := by
  unfold keyValue
  constructor
  · intro h
    split at h
    · rename_i hmem
      obtain ⟨hkey, hvalue⟩ := Prod.mk.inj (Option.some.inj h)
      have hstop : '=' ∉ key := fun hin => by
        rw [← hkey] at hin
        simpa using List.mem_takeWhile_imp hin
      have hline := List.takeWhile_append_dropWhile (p := (· ≠ '=')) (l := line)
      cases hrest : line.dropWhile (· ≠ '=') with
      | nil =>
        rw [hrest, hkey, List.append_nil] at hline
        exact absurd (hline ▸ hmem) hstop
      | cons c rest =>
        have hc : c = '=' := by
          have hhead := List.head?_dropWhile_not (· ≠ '=') line
          rw [hrest] at hhead
          simpa using hhead
        rw [hrest, List.drop_succ_cons, List.drop_zero] at hvalue
        rw [hrest, hkey, hc, hvalue] at hline
        exact ⟨hline.symm, hstop⟩
    · cases h
  · rintro ⟨rfl, hkey⟩
    have hpass : ∀ c ∈ key, decide (c ≠ '=') = true :=
      fun c hc => decide_eq_true fun heq => hkey (heq ▸ hc)
    rw [if_pos (by simp), List.takeWhile_append_of_pos hpass, List.dropWhile_append_of_pos hpass]
    simp

theorem addLine_of_key_ne (h : (keyValue line).map Prod.fst ≠ some key) (metadata : Text → Text) :
    addLine metadata line key = metadata key := by
  unfold addLine
  cases hline : keyValue line with
  | none => rfl
  | some p =>
    refine Function.update_of_ne ?_ _ _
    rintro rfl
    exact h (by rw [hline]; rfl)

theorem addLine_of_ne (h : ∀ value, line ≠ key ++ '=' :: value) (metadata : Text → Text) :
    addLine metadata line key = metadata key := by
  refine addLine_of_key_ne (fun hkey => ?_) metadata
  obtain ⟨p, hp, rfl⟩ := Option.map_eq_some_iff.mp hkey
  exact h p.2 (keyValue_eq_some.mp hp).1

theorem addLine_self (hkey : '=' ∉ key) (metadata : Text → Text) :
    addLine metadata (key ++ '=' :: value) key = value := by
  rw [addLine, keyValue_eq_some.mpr ⟨rfl, hkey⟩]
  exact Function.update_self ..

theorem foldl_addLine_of_ne (h : ∀ line ∈ lines, ∀ value, line ≠ key ++ '=' :: value)
    (metadata : Text → Text) : lines.foldl addLine metadata key = metadata key := by
  induction lines generalizing metadata with
  | nil => rfl
  | cons line lines ih =>
    rw [List.foldl_cons, ih (fun l hl => h l (List.mem_cons_of_mem _ hl)),
      addLine_of_ne (h line List.mem_cons_self)]

theorem parseLines_of_lastLine (hkey : '=' ∉ key) (h : LastLine lines key value) :
    parseLines lines key = value := by
  obtain ⟨before, after, rfl, hafter⟩ := h
  rw [parseLines, List.foldl_append, List.foldl_cons, foldl_addLine_of_ne hafter, addLine_self hkey]

theorem exists_lastLine_or (lines : List Text) (key : Text) :
    (∃ value, LastLine lines key value) ∨ ∀ line ∈ lines, ∀ value, line ≠ key ++ '=' :: value := by
  induction lines with
  | nil => exact .inr (by simp)
  | cons line lines ih =>
    rcases ih with ⟨value, before, after, rfl, hafter⟩ | hnone
    · exact .inl ⟨value, line :: before, after, rfl, hafter⟩
    · by_cases hline : ∃ value, line = key ++ '=' :: value
      · obtain ⟨value, rfl⟩ := hline
        exact .inl ⟨value, [], lines, rfl, hnone⟩
      · refine .inr fun l hl => ?_
        rcases List.mem_cons.mp hl with rfl | hl
        · exact fun value heq => hline ⟨value, heq⟩
        · exact hnone l hl

theorem parseLines_filter (lines : List Text) (key : Text) :
    parseLines lines key =
    parseLines (lines.filter fun line => (keyValue line).map Prod.fst = some key) key := by
  induction lines using List.reverseRecOn with
  | nil => rfl
  | append_singleton lines line ih =>
    rw [List.filter_append, List.filter_singleton]
    unfold parseLines at ih ⊢
    by_cases hline : (keyValue line).map Prod.fst = some key
    · obtain ⟨p, hp, rfl⟩ := Option.map_eq_some_iff.mp hline
      have hvalue (metadata : Text → Text) : addLine metadata line p.1 = p.2 := by
        rw [addLine, hp]
        exact Function.update_self ..
      rw [decide_eq_true hline, cond_true, List.foldl_append, List.foldl_append]
      exact (hvalue _).trans (hvalue _).symm
    · rw [decide_eq_false hline, cond_false, List.append_nil, ← ih, List.foldl_append]
      exact addLine_of_key_ne hline _

/-- What is declared is what the map has, unless nothing is declared and the map has the empty
string. -/
theorem declares_or (hkey : '=' ∉ key) (text : Text) :
    (∀ value, Declares text key value ↔ value = parseMetadata text key) ∨
      (∀ value, ¬Declares text key value) ∧ parseMetadata text key = [] := by
  rcases exists_lastLine_or (text.splitOn '\n') key with ⟨value, h⟩ | hnone
  · refine .inl fun other =>
      ⟨fun hother => (parseLines_of_lastLine hkey hother).symm, fun heq => ?_⟩
    rw [heq, parseMetadata, parseLines_of_lastLine hkey h]
    exact h
  · refine .inr ⟨?_, foldl_addLine_of_ne hnone _⟩
    rintro value ⟨before, after, hlines, -⟩
    exact hnone (key ++ '=' :: value) (by simp [hlines]) value rfl

theorem exists_declares_iff (hkey : '=' ∉ key) {P : Text → Prop} (hP : ¬P []) :
    (∃ value, Declares text key value ∧ P value) ↔ P (parseMetadata text key) := by
  rcases declares_or hkey text with h | ⟨hnone, hempty⟩
  · simp only [h, exists_eq_left]
  · rw [hempty]
    exact iff_of_false (fun ⟨value, hvalue, _⟩ => hnone value hvalue) hP

theorem forall_declares_iff (hkey : '=' ∉ key) {P : Text → Prop} (hP : P []) :
    (∀ value, Declares text key value → P value) ↔ P (parseMetadata text key) := by
  rcases declares_or hkey text with h | ⟨hnone, hempty⟩
  · simp only [h, forall_eq]
  · rw [hempty]
    exact iff_of_true (fun value hvalue => absurd hvalue (hnone value)) hP

theorem declares_iff (hkey : '=' ∉ key) (hvalue : value ≠ []) :
    Declares text key value ↔ parseMetadata text key = value := by
  rw [← exists_declares_iff hkey (P := fun v => v = value) hvalue.symm]
  simp

/-! ## The rules -/

theorem refused_or {c : Prop} [Decidable c] {r : InstallResult} :
    (if c then .INSTALL_ERROR else r) = InstallResult.INSTALL_SUCCESS ↔
    ¬c ∧ r = .INSTALL_SUCCESS := by
  split
  · rename_i hc
    exact iff_of_false InstallResult.noConfusion fun h => h.1 hc
  · rename_i hc
    rw [and_iff_right hc]

theorem listed_iff {list : Text} {separator : Char} :
    listed value list separator = true ↔ ∃ item ∈ list.splitOn separator, trim item = value := by
  rw [listed, List.any_eq_true]
  constructor
  · rintro ⟨item, hitem, heq⟩
    exact ⟨item, hitem, (of_decide_eq_true heq).symm⟩
  · rintro ⟨item, hitem, heq⟩
    exact ⟨item, hitem, decide_eq_true heq.symm⟩

theorem older_eq_false : older props (parseMetadata text) = false ↔ Recent props text := by
  unfold older Recent
  generalize getIntProperty props "ro.build.date.utc".toList (2 ^ 63 - 1) = buildTimestamp
  have hempty : ¬∃ n, parseInt64 (cstr []) = some n ∧ buildTimestamp ≤ n := by
    rintro ⟨n, hn, -⟩
    cases hn
  have hlast := @exists_declares_iff text "post-timestamp".toList (by decide)
    (fun timestamp => ∃ n, parseInt64 (cstr timestamp) = some n ∧ buildTimestamp ≤ n) hempty
  simp only [exists_and_left] at hlast ⊢
  rw [hlast]
  generalize parseMetadata text "post-timestamp".toList = timestamp
  cases timestamp with
  | nil => exact iff_of_false (by simp) hempty
  | cons c rest =>
    cases parseInt64 (cstr (c :: rest)) with
    | none => simp
    | some n => simp

end

theorem acceptable_iff {props : Properties} (hdevice : props "ro.product.device".toList ≠ [])
    (text : Text) : Acceptable props text ↔
      listed (props "ro.product.device".toList) (parseMetadata text "pre-device".toList) ',' =
      true ∧ (parseMetadata text "serialno".toList = [] ∨
        listed (props "ro.serialno".toList) (parseMetadata text "serialno".toList) '|' = true) ∧
      parseMetadata text "ota-type".toList = "AB".toList ∧
      (parseMetadata text "pre-build-incremental".toList = [] ∨
        parseMetadata text "pre-build-incremental".toList =
        props "ro.build.version.incremental".toList) ∧
      (parseMetadata text "pre-build".toList = [] ∨
        parseMetadata text "pre-build".toList = props "ro.build.fingerprint".toList) ∧
      (older props (parseMetadata text) = false ∨
        parseMetadata text "ota-downgrade".toList = "yes".toList ∧
        parseMetadata text "pre-build".toList ≠ []) := by
  have hempty :
      ¬∃ name ∈ ([] : Text).splitOn ',', trim name = props "ro.product.device".toList := by
    rintro ⟨name, hname, heq⟩
    rw [List.splitOn_nil, List.mem_singleton] at hname
    rw [hname] at heq
    exact hdevice heq.symm
  have hdev := @exists_declares_iff text "pre-device".toList (by decide)
    (fun names => ∃ name ∈ names.splitOn ',', trim name = props "ro.product.device".toList) hempty
  have hserial := @forall_declares_iff text "serialno".toList (by decide)
    (fun numbers => numbers = [] ∨ ∃ number ∈ numbers.splitOn '|', trim number =
      props "ro.serialno".toList) (.inl rfl)
  have htype := @declares_iff text "ota-type".toList "AB".toList (by decide) (by decide)
  have hincremental := @forall_declares_iff text "pre-build-incremental".toList (by decide)
    (fun build => build = [] ∨ build = props "ro.build.version.incremental".toList) (.inl rfl)
  have hfingerprint := @forall_declares_iff text "pre-build".toList (by decide)
    (fun build => build = [] ∨ build = props "ro.build.fingerprint".toList) (.inl rfl)
  have hdowngrade := @declares_iff text "ota-downgrade".toList "yes".toList (by decide) (by decide)
  have hbuild := @exists_declares_iff text "pre-build".toList (by decide)
    (fun build => build ≠ [])
    (fun h => h rfl)
  rw [listed_iff, listed_iff, ← hdev, ← hserial, ← htype, ← hincremental, ← hfingerprint,
    older_eq_false, ← hdowngrade, ← hbuild]
  exact ⟨fun h => ⟨h.device, h.serial, h.otaType, h.incremental, h.fingerprint, h.age⟩,
    fun ⟨h₁, h₂, h₃, h₄, h₅, h₆⟩ => ⟨h₁, h₂, h₃, h₄, h₅, h₆⟩⟩

/-- Only the last lines of the keys count: a text is accepted exactly if they allow it, its lines
may be put into any order that keeps the one of the lines of each key, and an older package has to
be for the build of the device. -/
theorem checkNewerAbBuild_spec {props : Properties}
    (hdevice : props "ro.product.device".toList ≠ []) (text : Text) :
    (checkNewerAbBuild props (some text) = .INSTALL_SUCCESS ↔ Acceptable props text) ∧
      (∀ text', (∀ key, linesOf key text' = linesOf key text) →
        checkNewerAbBuild props (some text') = checkNewerAbBuild props (some text)) ∧
      (checkNewerAbBuild props (some text) = .INSTALL_SUCCESS → ¬Recent props text →
        ∃ build, Declares text "pre-build".toList build ∧ build ≠ [] ∧
        build = props "ro.build.fingerprint".toList) := by
  have haccepted : checkNewerAbBuild props (some text) = .INSTALL_SUCCESS ↔
      Acceptable props text := by
    have hage (old : Bool) (c d : Prop) [Decidable c] [Decidable d] :
        ((if old = true then if c then .INSTALL_ERROR else if d then .INSTALL_ERROR
          else .INSTALL_SUCCESS else .INSTALL_SUCCESS) = InstallResult.INSTALL_SUCCESS) ↔
          old = false ∨ ¬c ∧ ¬d := by
      cases old with
      | false => simp
      | true => simp [refused_or]
    rw [acceptable_iff hdevice, checkNewerAbBuild]
    simp only [refused_or, hage, Bool.not_eq_true', Bool.not_eq_false, ne_eq, not_and, not_not,
      or_iff_not_imp_left]
  refine ⟨haccepted, fun text' hsame => ?_, fun hsuccess hold => ?_⟩
  · have hmap : parseMetadata text' = parseMetadata text := by
      funext key
      rw [parseMetadata, parseMetadata, parseLines_filter, parseLines_filter (text.splitOn '\n')]
      exact congrArg (parseLines · key) (hsame key)
    rw [checkNewerAbBuild, checkNewerAbBuild, hmap]
  · have hacceptable := haccepted.mp hsuccess
    obtain ⟨-, build, hbuild, hne⟩ := hacceptable.age.resolve_left hold
    exact ⟨build, hbuild, hne, (hacceptable.fingerprint build hbuild).resolve_left hne⟩

theorem checkNewerAbBuild_spec_full :
    let props : Properties :=
  fun key => if key = "ro.product.device".toList then "angler".toList else
      if key = "ro.build.date.utc".toList then "100".toList else []
    let text :=
      "pre-device=bullhead, angler\nota-type=AB\npost-timestamp=99\npost-timestamp=100".toList
    (checkNewerAbBuild props (some text) = .INSTALL_SUCCESS ↔ Acceptable props text) ∧
      (∀ text', (∀ key, linesOf key text' = linesOf key text) →
        checkNewerAbBuild props (some text') = checkNewerAbBuild props (some text)) ∧
      (checkNewerAbBuild props (some text) = .INSTALL_SUCCESS → ¬Recent props text →
        ∃ build, Declares text "pre-build".toList build ∧ build ≠ [] ∧
        build = props "ro.build.fingerprint".toList) :=
  checkNewerAbBuild_spec (by decide) _

end BootableRecovery.AbPackage
