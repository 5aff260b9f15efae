import BootableRecovery.LibBase.Strings

/-!
# The log of a session

`copy_logs` and `erase_volume` of `recovery.cpp`, with `rotate_logs`: what they leave in
`CACHE_LOG_DIR`. The recovery log is appended to `LOG_FILE` from `tmplog_offset` on; a wipe of the
cache writes `LOG_FILE` back with all that has been appended before, and starts again
(`copiesRight_iff`).
-/

namespace BootableRecovery.SessionLog

abbrev Bytes := List UInt8

def CACHE_ROOT : Text := "/cache".toList
def LOG_FILE : Text := "log".toList
def LAST_LOG_FILE : Text := "last_log".toList
def LAST_INSTALL_FILE : Text := "last_install".toList
def LAST_KMSG_FILE : Text := "last_kmsg".toList
def KEEP_LOG_COUNT : Nat := 10

/-- The files of a directory, by name. -/
abbrev Files := Text → Option Bytes

def Files.put (files : Files) (name : Text) (data : Option Bytes) : Files :=
  fun n => if n = name then data else files n

/-- `rename` in the directory. -/
def Files.rename (files : Files) (oldName newName : Text) : Files :=
  match files oldName with
  | none => files
  | some data => (files.put oldName none).put newName (some data)

/-- The temporary files, the files of `CACHE_LOG_DIR`, and the variables of the two functions. -/
structure Session where
  tempLog : Bytes
  tempInstall : Option Bytes
  tempKmsg : Option Bytes
  cacheLogs : Files
  tmplogOffset : Nat
  rotated : Bool
  modifiedFlash : Bool
  hasCache : Bool

def Session.start (cacheLogs : Files) (tempInstall tempKmsg : Option Bytes) : Session :=
  ⟨[], tempInstall, tempKmsg, cacheLogs, 0, false, true, true⟩

/-- What `LOG_FILE` holds. -/
def Session.log (s : Session) : Bytes := (s.cacheLogs LOG_FILE).getD []

/-- `last_log`, `last_log.1`, ... -/
def numbered (name : Text) (i : Nat) : Text :=
  if 0 < i then name ++ '.' :: Nat.toDigits 10 i else name

/-- One round of the loop of `rotate_logs`. -/
def rotate (files : Files) (i : Nat) : Files :=
  (files.rename (numbered LAST_LOG_FILE i) (numbered LAST_LOG_FILE (i + 1))).rename
    (numbered LAST_KMSG_FILE i) (numbered LAST_KMSG_FILE (i + 1))

def rotateLogs (s : Session) : Session :=
  if s.rotated then s
  else { s with
    rotated := true, cacheLogs := (List.range KEEP_LOG_COUNT).reverse.foldl rotate s.cacheLogs }

def copyLogFile (source : Option Bytes) (destination : Text) (append : Bool) (s : Session) :
    Session :=
  let dest := if append then (s.cacheLogs destination).getD [] else []
  match source with
  | none => { s with cacheLogs := s.cacheLogs.put destination dest }
  | some content =>
    if append then
      { s with
        cacheLogs := s.cacheLogs.put destination (dest ++ content.drop s.tmplogOffset)
        tmplogOffset := max s.tmplogOffset content.length }
    else { s with cacheLogs := s.cacheLogs.put destination content }

/-- `copy_logs`; `klog` is what is read of the kernel log, if it can be read. -/
def copyLogs (klog : Option Bytes) (s : Session) : Session :=
  let s := { s with tempKmsg := klog.or s.tempKmsg }
  if s.modifiedFlash && s.hasCache then
    let s := rotateLogs s
    let s := copyLogFile (some s.tempLog) LOG_FILE true s
    let s := copyLogFile (some s.tempLog) LAST_LOG_FILE false s
    let s := copyLogFile s.tempInstall LAST_INSTALL_FILE false s
    copyLogFile s.tempKmsg LAST_KMSG_FILE false s
  else s

/-- The files that are kept when the cache is formatted. -/
def Kept (name : Text) : Prop := "last_".toList <+: name ∨ name = LOG_FILE

instance (name : Text) : Decidable (Kept name) := inferInstanceAs (Decidable (_ ∨ _))

/-- The logs that `erase_volume` loads, cut off at 512 KiB. -/
def logFiles (s : Session) : Files :=
  fun name => if Kept name then (s.cacheLogs name).map (·.take (2 ^ 19)) else none

/-- `erase_volume`; `formatted` if `format_volume` succeeds, and `printed` is what it prints to the
temporary log. -/
def eraseVolume (volume : Text) (formatted : Bool) (printed : Bytes) (klog : Option Bytes)
    (s : Session) : Session :=
  let logs := logFiles s
  let s := { s with tempLog := s.tempLog ++ printed }
  if volume = CACHE_ROOT then
    let files : Files := if formatted then fun _ => none else s.cacheLogs
    copyLogs klog { s with cacheLogs := fun name => (logs name).or (files name), tmplogOffset := 0 }
  else s

/-! ## Runs -/

inductive Event
  | grow (printed : Bytes)
  | install (data : Option Bytes)
  | copyLogs (klog : Option Bytes)
  | eraseVolume (volume : Text) (formatted : Bool) (printed : Bytes) (klog : Option Bytes)

def step (s : Session) : Event → Session
  | .grow printed => { s with tempLog := s.tempLog ++ printed }
  | .install data => { s with tempInstall := data }
  | .copyLogs klog => copyLogs klog s
  | .eraseVolume volume formatted printed klog => eraseVolume volume formatted printed klog s

def Event.erases : Event → Prop
  | .eraseVolume volume _ _ _ => volume = CACHE_ROOT
  | _ => False

/-- `copy_logs` runs, also at the end of a wipe of the cache. -/
def Event.copies : Event → Prop
  | .copyLogs _ => True
  | e => e.erases

/-- What holds of every step of a run. -/
def Along (P : Session → Event → Prop) : List Event → Session → Prop
  | [], _ => True
  | e :: events, s => P s e ∧ Along P events (step s e)

/-- The logs that a wipe loads are not longer than 512 KiB. -/
def KeptSmall (s : Session) (e : Event) : Prop :=
  e.erases → ∀ name data, Kept name → s.cacheLogs name = some data → data.length ≤ 2 ^ 19

/-- After a copy `LOG_FILE` is what it was at the start, followed by the temporary log. -/
def CopyRight (start : Bytes) (s : Session) (e : Event) : Prop :=
  e.copies → (step s e).log = start ++ (step s e).tempLog

/-- The cache is not wiped after a part of the temporary log has been copied. -/
def EraseFresh (s : Session) (e : Event) : Prop := e.erases → s.tmplogOffset = 0

section
variable {s : Session} {e : Event} {start : Bytes} {klog : Option Bytes} {name : Text}
    {events : List Event}

/-! ## One copy -/

theorem Files.put_of_ne {files : Files} {n : Text} {data : Option Bytes} (h : name ≠ n) :
    files.put n data name = files name := if_neg h

theorem Files.rename_of_ne {files : Files} {oldName newName : Text} (h : name ≠ oldName)
    (h' : name ≠ newName) : files.rename oldName newName name = files name := by
  cases hold : files oldName with
  | none => rw [rename, hold]
  | some data =>
    rw [rename, hold]
    exact (put_of_ne h').trans (put_of_ne h)

theorem prefix_numbered (name : Text) (i : Nat) : name <+: numbered name i := by
  rw [numbered]
  split
  · exact List.prefix_append ..
  · exact List.prefix_refl _

theorem log_ne_numbered (i : Nat) :
    LOG_FILE ≠ numbered LAST_LOG_FILE i ∧ LOG_FILE ≠ numbered LAST_KMSG_FILE i := by
  constructor
  · intro h
    have hprefix : LAST_LOG_FILE <+: LOG_FILE := h ▸ prefix_numbered LAST_LOG_FILE i
    exact absurd hprefix (by decide)
  · intro h
    have hprefix : LAST_KMSG_FILE <+: LOG_FILE := h ▸ prefix_numbered LAST_KMSG_FILE i
    exact absurd hprefix (by decide)

theorem log_foldl_rotate (files : Files) (is : List Nat) :
    is.foldl rotate files LOG_FILE = files LOG_FILE := by
  induction is generalizing files with
  | nil => rfl
  | cons i is ih =>
    rw [List.foldl_cons, ih, rotate,
      Files.rename_of_ne (log_ne_numbered i).2 (log_ne_numbered (i + 1)).2,
      Files.rename_of_ne (log_ne_numbered i).1 (log_ne_numbered (i + 1)).1]

theorem log_rotateLogs (s : Session) : (rotateLogs s).log = s.log := by
  rw [rotateLogs]
  split
  · rfl
  · exact congrArg (·.getD []) (log_foldl_rotate _ _)

/-- A copy does not change what the log depends on, apart from the log. -/
structure SameFlags (s s' : Session) : Prop where
  tempLog : s'.tempLog = s.tempLog
  modifiedFlash : s'.modifiedFlash = s.modifiedFlash
  hasCache : s'.hasCache = s.hasCache

theorem copyLogFile_other (source : Option Bytes) (h : LOG_FILE ≠ name) :
    (copyLogFile source name false s).log = s.log ∧ (copyLogFile source name false s).tmplogOffset =
    s.tmplogOffset ∧
      SameFlags s (copyLogFile source name false s) := by
  have hput : ∀ data, s.cacheLogs.put name data LOG_FILE = s.cacheLogs LOG_FILE :=
    fun _ => Files.put_of_ne h
  cases source with
  | none => exact ⟨congrArg (·.getD []) (hput _), rfl, rfl, rfl, rfl⟩
  | some content => exact ⟨congrArg (·.getD []) (hput _), rfl, rfl, rfl, rfl⟩

theorem SameFlags.trans {s₁ s₂ : Session} (h : SameFlags s s₁) (h' : SameFlags s₁ s₂) :
    SameFlags s s₂ :=
  ⟨h'.tempLog.trans h.tempLog, h'.modifiedFlash.trans h.modifiedFlash, h'.hasCache.trans h.hasCache⟩

theorem sameFlags_rotateLogs (s : Session) :
    SameFlags s (rotateLogs s) ∧ (rotateLogs s).tmplogOffset = s.tmplogOffset := by
  rw [rotateLogs]
  split
  · exact ⟨⟨rfl, rfl, rfl⟩, rfl⟩
  · exact ⟨⟨rfl, rfl, rfl⟩, rfl⟩

theorem copyLogFile_log (content : Bytes) (s : Session) :
    (copyLogFile (some content) LOG_FILE true s).log = s.log ++ content.drop s.tmplogOffset ∧
      (copyLogFile (some content) LOG_FILE true s).tmplogOffset =
      max s.tmplogOffset content.length ∧
      SameFlags s (copyLogFile (some content) LOG_FILE true s) := by
  have hput : ∀ data, s.cacheLogs.put LOG_FILE data LOG_FILE = data := fun _ => if_pos rfl
  exact ⟨congrArg (·.getD []) (hput _), rfl, rfl, rfl, rfl⟩

theorem copyLogs_spec (hflash : s.modifiedFlash = true) (hcache : s.hasCache = true)
    (klog : Option Bytes) : (copyLogs klog s).log = s.log ++ s.tempLog.drop s.tmplogOffset ∧
      (copyLogs klog s).tmplogOffset = max s.tmplogOffset s.tempLog.length ∧
      SameFlags s (copyLogs klog s) := by
  have hflags : ((s.modifiedFlash && s.hasCache) = true) := by rw [hflash, hcache]; rfl
  rw [copyLogs]
  dsimp only
  rw [if_pos hflags]
  generalize hs₁ : rotateLogs _ = s₁
  have hrotated : s₁.log = s.log ∧ SameFlags s s₁ ∧ s₁.tmplogOffset = s.tmplogOffset := by
    obtain ⟨hflags, hoffset⟩ := sameFlags_rotateLogs { s with tempKmsg := klog.or s.tempKmsg }
    rw [← hs₁]
    exact ⟨log_rotateLogs _, ⟨hflags.tempLog, hflags.modifiedFlash, hflags.hasCache⟩, hoffset⟩
  obtain ⟨hlog₁, hflags₁, hoffset₁⟩ := hrotated
  generalize hs₂ : copyLogFile (some s₁.tempLog) LOG_FILE true s₁ = s₂
  obtain ⟨hlog₂, hoffset₂, hflags₂⟩ := copyLogFile_log s₁.tempLog s₁
  rw [hs₂, hflags₁.tempLog, hoffset₁] at hlog₂ hoffset₂
  rw [hs₂] at hflags₂
  generalize hs₃ : copyLogFile (some s₂.tempLog) LAST_LOG_FILE false s₂ = s₃
  obtain ⟨hlog₃, hoffset₃, hflags₃⟩ :=
    copyLogFile_other (s := s₂) (some s₂.tempLog) (by decide : LOG_FILE ≠ LAST_LOG_FILE)
  rw [hs₃] at hlog₃ hoffset₃ hflags₃
  generalize hs₄ : copyLogFile s₃.tempInstall LAST_INSTALL_FILE false s₃ = s₄
  obtain ⟨hlog₄, hoffset₄, hflags₄⟩ :=
    copyLogFile_other (s := s₃) s₃.tempInstall (by decide : LOG_FILE ≠ LAST_INSTALL_FILE)
  rw [hs₄] at hlog₄ hoffset₄ hflags₄
  obtain ⟨hlog₅, hoffset₅, hflags₅⟩ :=
    copyLogFile_other (s := s₄) s₄.tempKmsg (by decide : LOG_FILE ≠ LAST_KMSG_FILE)
  refine ⟨?_, ?_, (((hflags₁.trans hflags₂).trans hflags₃).trans hflags₄).trans hflags₅⟩
  · rw [hlog₅, hlog₄, hlog₃, hlog₂, hlog₁]
  · rw [hoffset₅, hoffset₄, hoffset₃, hoffset₂]

theorem eraseVolume_spec (hflash : s.modifiedFlash = true) (hcache : s.hasCache = true)
    (formatted : Bool) (printed : Bytes) (klog : Option Bytes)
    (hsmall : ∀ data, s.cacheLogs LOG_FILE = some data → data.length ≤ 2 ^ 19) :
    (eraseVolume CACHE_ROOT formatted printed klog s).log = s.log ++ (s.tempLog ++ printed) ∧
      (eraseVolume CACHE_ROOT formatted printed klog s).tmplogOffset =
      (s.tempLog ++ printed).length ∧ (eraseVolume CACHE_ROOT formatted printed klog s).tempLog =
      s.tempLog ++ printed ∧ (eraseVolume CACHE_ROOT formatted printed klog s).modifiedFlash =
      true ∧ (eraseVolume CACHE_ROOT formatted printed klog s).hasCache = true := by
  have hrestored : ∀ files : Files, (files = fun _ => none) ∨ files = s.cacheLogs →
      ((logFiles s LOG_FILE).or (files LOG_FILE)).getD [] = s.log := by
    intro files hfiles
    rw [logFiles, if_pos (.inr rfl), Session.log]
    cases hlog : s.cacheLogs LOG_FILE with
    | none =>
      rcases hfiles with rfl | rfl
      · rfl
      · rw [hlog]
        rfl
    | some data => exact List.take_of_length_le (hsmall data hlog)
  rw [eraseVolume, if_pos rfl]
  obtain ⟨hlog, hoffset, hflags⟩ := copyLogs_spec (s := { s with
    tempLog := s.tempLog ++ printed
    cacheLogs :=
      fun name =>
        (logFiles s name).or ((if formatted then fun _ => none else s.cacheLogs : Files) name)
    tmplogOffset := 0 }) hflash hcache klog
  refine ⟨hlog.trans (congrArg (· ++ _) (hrestored _ ?_)), hoffset.trans (Nat.zero_max _),
    hflags.tempLog, hflags.modifiedFlash.trans hflash, hflags.hasCache.trans hcache⟩
  cases formatted
  · exact .inr rfl
  · exact .inl rfl

/-! ## The runs -/

/-- Of a part of the temporary log, `LOG_FILE` has what comes after what it was at the start. -/
structure Copied (start : Bytes) (s : Session) : Prop where
  modifiedFlash : s.modifiedFlash = true
  hasCache : s.hasCache = true
  log : s.log = start ++ s.tempLog.take s.tmplogOffset
  offset : s.tmplogOffset ≤ s.tempLog.length

theorem Copied.grow (h : Copied start s) (printed : Bytes) :
    Copied start { s with tempLog := s.tempLog ++ printed } where
  modifiedFlash := h.modifiedFlash
  hasCache := h.hasCache
  log := by
    rw [List.take_append_of_le_length h.offset]
    exact h.log
  offset := by
    rw [List.length_append]
    exact Nat.le_add_right_of_le h.offset

theorem Copied.of_log (hflash : s.modifiedFlash = true) (hcache : s.hasCache = true)
    (hlog : s.log = start ++ s.tempLog) (hoffset : s.tmplogOffset = s.tempLog.length) :
    Copied start s where
  modifiedFlash := hflash
  hasCache := hcache
  log := by rw [hoffset, List.take_length, hlog]
  offset := hoffset.le

theorem Copied.along_iff (h : Copied start s) (hsmall : Along KeptSmall events s) :
    Along (CopyRight start) events s ↔ Along EraseFresh events s := by
  induction events generalizing s with
  | nil => exact Iff.rfl
  | cons e events ih =>
    obtain ⟨hkept, hsmall⟩ := hsmall
    cases e with
    | grow printed => exact and_congr (iff_of_true nofun nofun) (ih (h.grow printed) hsmall)
    | install data => exact and_congr (iff_of_true nofun nofun) (ih { h with } hsmall)
    | copyLogs klog =>
      obtain ⟨hlog, hoffset, hflags⟩ := copyLogs_spec h.modifiedFlash h.hasCache klog
      rw [h.log, List.append_assoc, List.take_append_drop, ← hflags.tempLog] at hlog
      rw [max_eq_right h.offset, ← hflags.tempLog] at hoffset
      exact and_congr (iff_of_true (fun _ => hlog) nofun)
        (ih (.of_log (hflags.modifiedFlash.trans h.modifiedFlash) (hflags.hasCache.trans h.hasCache)
          hlog hoffset) hsmall)
    | eraseVolume volume formatted printed klog =>
      by_cases hvolume : volume = CACHE_ROOT
      · subst hvolume
        obtain ⟨hlog, hoffset, htemp, hflash, hcache⟩ :=
          eraseVolume_spec h.modifiedFlash h.hasCache formatted printed klog
          fun data hdata => hkept rfl LOG_FILE data (.inr rfl) hdata
        by_cases hfresh : s.tmplogOffset = 0
        · rw [h.log, hfresh, List.take_zero, List.append_nil, ← htemp] at hlog
          rw [← htemp] at hoffset
          exact and_congr (iff_of_true (fun _ => hlog) fun _ =>
            hfresh) (ih (.of_log hflash hcache hlog hoffset) hsmall)
        · -- what has been copied before is in the log twice
          refine iff_of_false (fun hright => hfresh ?_) fun hright => hfresh (hright.1 rfl)
          have htwice : s.log ++ (s.tempLog ++ printed) = start ++ (s.tempLog ++ printed) := by
            rw [← hlog, ← htemp]
            exact hright.1 rfl
          have hlen := congrArg List.length (List.append_cancel_right htwice)
          rw [h.log, List.length_append, List.length_take_of_le h.offset] at hlen
          exact Nat.add_eq_left.mp hlen
      · have hstep :
            step s (.eraseVolume volume formatted printed klog) =
            { s with tempLog := s.tempLog ++ printed } :=
          if_neg hvolume
        refine and_congr (iff_of_true (fun hcopies => absurd hcopies hvolume) fun herases =>
          absurd herases hvolume) ?_
        rw [hstep] at hsmall ⊢
        exact ih (h.grow printed) hsmall

/-- The log is copied exactly once if and only if no wipe of the cache comes after a part of it has
been copied. -/
theorem copiesRight_iff (cacheLogs : Files) (tempInstall tempKmsg : Option Bytes)
    (events : List Event)
    (hsmall : Along KeptSmall events (.start cacheLogs tempInstall tempKmsg)) :
    Along (CopyRight ((cacheLogs LOG_FILE).getD [])) events
    (.start cacheLogs tempInstall tempKmsg) ↔
      Along EraseFresh events (.start cacheLogs tempInstall tempKmsg) :=
  Copied.along_iff ⟨rfl, rfl, (List.append_nil _).symm, Nat.le_refl 0⟩ hsmall

end

/-- A wipe of the cache is the first thing that copies the log. -/
theorem copiesRight_iff_wipe :
    Along (CopyRight []) [.grow [1], .eraseVolume CACHE_ROOT true [2] none]
    (.start (fun _ => none) none none) ↔
      Along EraseFresh [.grow [1], .eraseVolume CACHE_ROOT true [2] none]
      (.start (fun _ => none) none none) :=
  copiesRight_iff (fun _ => none) none none [.grow [1], .eraseVolume CACHE_ROOT true [2] none]
    ⟨nofun, (fun _ _ _ _ h => nomatch h), trivial⟩

/-- The log is copied, and the cache wiped. -/
def copiedAndWiped : List Event := [.grow [1], .copyLogs none, .eraseVolume CACHE_ROOT true [] none]

theorem not_copiesRight : Along KeptSmall copiedAndWiped (.start (fun _ => none) none none) ∧
    ¬Along (CopyRight []) copiedAndWiped (.start (fun _ => none) none none) := by
  constructor
  · refine ⟨nofun, nofun, fun _ name data _ h => ?_, trivial⟩
    change Files.put
      (Files.put (Files.put (Files.put (fun _ => none) LOG_FILE (some [1])) LAST_LOG_FILE
        (some [1])) LAST_INSTALL_FILE (some [])) LAST_KMSG_FILE (some []) name = some data at h
    unfold Files.put at h
    split_ifs at h <;> cases h <;> decide
  · intro h
    have hcopy := h.2.2.1 rfl
    revert hcopy
    decide

end BootableRecovery.SessionLog
