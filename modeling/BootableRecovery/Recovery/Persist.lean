import BootableRecovery.Recovery.SessionLog

/-!
# Persisting the logs

`recovery-persist`: each record of the pmsg buffer is compared with its file in
`/data/misc/recovery`, and the first one that differs rotates the logs before it is written. Records
that have been found in place before are moved away by the rotation (`persistRight_iff`). Files are
named relative to the directory.
-/

namespace BootableRecovery.Persist

open SessionLog (Bytes Files KEEP_LOG_COUNT LAST_LOG_FILE LAST_KMSG_FILE numbered rotate)

/-! ## The code -/

/-- A record `recovery/<name>` of the pmsg buffer. -/
structure Record where
  name : Text
  content : Bytes
  deriving DecidableEq

/-- The files, and the variable `rotated` of `recovery-persist.cpp`, which is set with the one of
`rotate_logs`. -/
structure State where
  files : Files
  rotated : Bool

/-- What `rotate_logs` does when it is called first. -/
def rotateFiles (files : Files) : Files := (List.range KEEP_LOG_COUNT).reverse.foldl rotate files

def rotateLogs (s : State) : State :=
  if s.rotated then s else { s with files := rotateFiles s.files }

def logsave (s : State) (r : Record) : State :=
  let content := (s.files r.name).getD []
  if r.content = content then s
  else
    let s := rotateLogs s
    { files := s.files.put r.name (some r.content), rotated := true }

/-- A run behind the checks for `/cache` and for the buffer; `console` is the last console log, if
there is one. -/
def persist (console : Option Bytes) (records : List Record) (files : Files) : Files :=
  let s := records.foldl logsave ⟨files, false⟩
  if s.rotated then
    match console with
    | some content => s.files.put LAST_KMSG_FILE (some content)
    | none => s.files
  else s.files

/-! ## What a run should do -/

/-- The place of a log behind a rotation. -/
def placeAfter (i : Nat) : Nat := if i < KEEP_LOG_COUNT then i + 1 else i

/-- Every record is in its file; a log is lost only if it was rotated beyond `KEEP_LOG_COUNT` or a
record has the name under which it was then; and another run on the records changes no log. -/
structure PersistRight (console : Option Bytes) (records : List Record) (files : Files) : Prop where
  stored : ∀ r ∈ records, persist console records files r.name = some r.content
  kept : ∀ i content, files (numbered LAST_LOG_FILE i) = some content →
    (∃ j, persist console records files (numbered LAST_LOG_FILE j) = some content) ∨
    (i = KEEP_LOG_COUNT ∧ (files (numbered LAST_LOG_FILE (i - 1))).isSome) ∨
    ∃ r ∈ records, r.name = numbered LAST_LOG_FILE (placeAfter i)
  idempotent :
    ∀ console' i, persist console' records (persist console records files)
    (numbered LAST_LOG_FILE i) = persist console records files (numbered LAST_LOG_FILE i)

/-- The comparison of `logsave`; a file that is not there reads as an empty one. -/
def Same (files : Files) (r : Record) : Prop := r.content = (files r.name).getD []

instance (files : Files) (r : Record) : Decidable (Same files r) :=
  inferInstanceAs (Decidable (_ = _))

/-- All records are in place; or from the first one that differs on all are written, those before it
are in place also after the rotation, and the console log does not replace a record. -/
def Persistable (console : Option Bytes) (records : List Record) (files : Files) : Prop :=
  (∀ r ∈ records, files r.name = some r.content) ∨
  ∃ before r after, records = before ++ r :: after ∧ (∀ q ∈ before, Same files q) ∧ ¬Same files r ∧
    ∀ q ∈ records,
      if q.name = LAST_KMSG_FILE ∧ console.isSome then console = some q.content
      else (q ∈ before → rotateFiles files q.name = some q.content) ∧
        (q ∈ after → q.content = [] → (rotateFiles files q.name).isSome)

section
variable {console : Option Bytes} {records before after : List Record} {files : Files}
    {r q : Record} {name base : Text}
variable {s : State} {content : Bytes} {i j k : Nat}

/-! ## The rotation -/

theorem numbered_injective {base : Text} (h : numbered base i = numbered base j) : i = j := by
  unfold numbered at h
  split at h
  · split at h
    · have htail := List.append_cancel_left h
      exact toDigits_injective (List.cons.inj htail).2
    · exact absurd (congrArg List.length h) (by simp)
  · split at h
    · exact absurd (congrArg List.length h) (by simp)
    · omega

theorem numbered_ne : numbered LAST_LOG_FILE i ≠ numbered LAST_KMSG_FILE j := by
  intro h
  have hlog := SessionLog.prefix_numbered LAST_LOG_FILE i
  have hkmsg : LAST_KMSG_FILE <+: numbered LAST_LOG_FILE i :=
    h ▸ SessionLog.prefix_numbered LAST_KMSG_FILE j
  exact absurd (List.prefix_of_prefix_length_le hlog hkmsg (by decide)) (by decide)

theorem rotate_numbered (files : Files) (i j : Nat) :
    rotate files i (numbered LAST_LOG_FILE j) =
      if j = i then none
      else if j =
      i + 1 then (files (numbered LAST_LOG_FILE i)).or (files (numbered LAST_LOG_FILE j))
      else files (numbered LAST_LOG_FILE j) := by
  rw [rotate, SessionLog.Files.rename_of_ne numbered_ne numbered_ne, Files.rename]
  cases hold : files (numbered LAST_LOG_FILE i) with
  | none =>
    dsimp only
    split
    · rename_i hj
      rw [hj, hold]
    · split
      · rfl
      · rfl
  | some data =>
    dsimp only
    split
    · rename_i hj
      rw [hj, SessionLog.Files.put_of_ne fun h => Nat.succ_ne_self i (numbered_injective h).symm]
      exact if_pos rfl
    · rename_i hj
      split
      · rename_i hj'
        rw [hj']
        exact if_pos rfl
      · rename_i hj'
        rw [SessionLog.Files.put_of_ne fun h => hj' (numbered_injective h),
          SessionLog.Files.put_of_ne fun h => hj (numbered_injective h)]

/-- The loop from the last log on moves each to the next place, and nothing is put at the first
one. -/
theorem foldl_rotate_numbered (files : Files) (k j : Nat) :
    (List.range k).reverse.foldl rotate files (numbered LAST_LOG_FILE j) =
      if j < k then if j = 0 then none else files (numbered LAST_LOG_FILE (j - 1))
      else if j = k ∧
      0 < k then (files (numbered LAST_LOG_FILE (k - 1))).or (files (numbered LAST_LOG_FILE k))
      else files (numbered LAST_LOG_FILE j) := by
  induction k generalizing files with
  | zero => simp
  | succ k ih =>
    rw [List.range_succ, List.reverse_append, List.reverse_singleton, List.singleton_append,
      List.foldl_cons, ih]
    simp only [rotate_numbered]
    rcases Nat.lt_trichotomy j k with hlt | rfl | hgt
    · rw [if_pos hlt, if_pos (Nat.lt_succ_of_lt hlt)]
      split
      · rfl
      · rw [if_neg (by omega), if_neg (by omega)]
    · rw [if_neg (Nat.lt_irrefl j), if_pos (Nat.lt_succ_self j)]
      cases j with
      | zero => rfl
      | succ j =>
        have hprev : j + 1 - 1 ≠ j + 1 ∧ j + 1 - 1 ≠ j + 1 + 1 := by omega
        rw [if_pos ⟨rfl, Nat.succ_pos j⟩, if_neg hprev.1, if_neg hprev.2, if_true,
          if_neg (Nat.succ_ne_zero j), Option.or_none]
    · have hk : ¬j < k ∧ ¬(j = k ∧ 0 < k) ∧ j ≠ k ∧ ¬j < k + 1 := by omega
      rw [if_neg hk.1, if_neg hk.2.1, if_neg hk.2.2.1, if_neg hk.2.2.2]
      by_cases hnext : j = k + 1
      · rw [if_pos hnext, if_pos ⟨hnext, Nat.succ_pos k⟩, hnext, Nat.add_sub_cancel]
      · rw [if_neg hnext, if_neg fun h => hnext h.1]

/-- A log that is not the oldest one is at the next place behind the rotation; the oldest one is
replaced if there is one in front of it. -/
theorem rotateFiles_placeAfter (hfile : files (numbered LAST_LOG_FILE i) = some content)
    (hlast : ¬(i = KEEP_LOG_COUNT ∧ (files (numbered LAST_LOG_FILE (i - 1))).isSome)) :
    rotateFiles files (numbered LAST_LOG_FILE (placeAfter i)) = some content := by
  rw [rotateFiles, foldl_rotate_numbered, placeAfter]
  rcases Nat.lt_trichotomy i KEEP_LOG_COUNT with hlt | rfl | hgt
  · rw [if_pos hlt, if_neg (Nat.succ_ne_zero i), Nat.add_sub_cancel, hfile]
    split
    · rfl
    · rw [if_pos ⟨by omega, by decide⟩]
      have hi : KEEP_LOG_COUNT - 1 = i := by omega
      rw [hi, hfile]
      rfl
  · have hnone : files (numbered LAST_LOG_FILE (KEEP_LOG_COUNT - 1)) = none := by
      cases hprev : files (numbered LAST_LOG_FILE (KEEP_LOG_COUNT - 1)) with
      | none => rfl
      | some data => exact absurd ⟨rfl, by rw [hprev]; rfl⟩ hlast
    rw [if_neg (Nat.lt_irrefl _), if_neg (Nat.lt_irrefl _), if_pos ⟨rfl, by decide⟩, hnone, hfile]
    rfl
  · have hplace : (if i < KEEP_LOG_COUNT then i + 1 else i) = i := if_neg (by omega)
    have hi : ¬i < KEEP_LOG_COUNT ∧ ¬(i = KEEP_LOG_COUNT ∧ 0 < KEEP_LOG_COUNT) := by omega
    rw [hplace, if_neg hi.1, if_neg hi.2, hfile]

/-! ## The records -/

theorem logsave_of_same (h : Same s.files r) : logsave s r = s := if_pos h

theorem foldl_logsave_of_same (h : ∀ r ∈ records, Same s.files r) :
    records.foldl logsave s = s := by
  induction records with
  | nil => rfl
  | cons r records ih =>
    rw [List.foldl_cons, logsave_of_same (h r List.mem_cons_self)]
    exact ih fun q hq => h q (List.mem_cons_of_mem _ hq)

/-- A record behind the rotation. -/
def save (files : Files) (r : Record) : Files :=
  if r.content = (files r.name).getD [] then files else files.put r.name (some r.content)

theorem logsave_rotated (files : Files) (r : Record) :
    logsave ⟨files, true⟩ r = ⟨save files r, true⟩ := by
  rw [logsave, save]
  dsimp only
  split
  · rfl
  · rfl

theorem foldl_logsave_rotated (records : List Record) (files : Files) :
    records.foldl logsave ⟨files, true⟩ = ⟨records.foldl save files, true⟩ := by
  induction records generalizing files with
  | nil => rfl
  | cons r records ih => rw [List.foldl_cons, logsave_rotated, ih, List.foldl_cons]

theorem save_of_ne (h : name ≠ r.name) : save files r name = files name := by
  rw [save]
  split
  · rfl
  · exact SessionLog.Files.put_of_ne h

theorem save_self : save files r r.name = if r.content = [] then (files r.name).map fun _ => []
    else some r.content := by
  rw [save]
  cases hfile : files r.name with
  | none =>
    rw [Option.getD_none, Option.map_none]
    split
    · exact hfile
    · exact if_pos rfl
  | some data =>
    rw [Option.getD_some, Option.map_some]
    split
    · rename_i hsame
      rw [hfile, ← hsame]
      split
      · rename_i hempty
        rw [hempty]
      · rfl
    · refine (if_pos rfl).trans ?_
      split
      · rename_i hempty
        rw [hempty]
      · rfl

theorem foldl_save_of_ne (h : ∀ r ∈ records, name ≠ r.name) :
    records.foldl save files name = files name := by
  induction records generalizing files with
  | nil => rfl
  | cons r records ih =>
    rw [List.foldl_cons, ih fun q hq => h q (List.mem_cons_of_mem _ hq),
      save_of_ne (h r List.mem_cons_self)]

theorem foldl_save_of_mem (hnames : (records.map Record.name).Nodup) (hr : r ∈ records) :
    records.foldl save files r.name = if r.content = [] then (files r.name).map fun _ => []
    else some r.content := by
  induction records generalizing files with
  | nil => exact absurd hr List.not_mem_nil
  | cons q records ih =>
    rw [List.map_cons, List.nodup_cons] at hnames
    rw [List.foldl_cons]
    rcases List.mem_cons.mp hr with rfl | hr
    · rw [foldl_save_of_ne fun q hq heq => hnames.1 (List.mem_map.mpr ⟨q, hq, heq.symm⟩), save_self]
    · rw [ih hnames.2 hr, save_of_ne fun heq => hnames.1 (List.mem_map.mpr ⟨r, hr, heq⟩)]

/-! ## Runs -/

/-- Either all records are in place, or there is a first one that differs. -/
theorem same_or_split (files : Files) (records : List Record) :
    (∀ r ∈ records, Same files r) ∨
      ∃ before r after, records = before ++ r :: after ∧ (∀ q ∈ before, Same files q) ∧
      ¬Same files r := by
  induction records with
  | nil => exact .inl (by simp)
  | cons r records ih =>
    by_cases hr : Same files r
    · rcases ih with hall | ⟨before, q, after, rfl, hbefore, hq⟩
      · exact .inl (List.forall_mem_cons.mpr ⟨hr, hall⟩)
      · exact .inr ⟨r :: before, q, after, rfl, List.forall_mem_cons.mpr ⟨hr, hbefore⟩, hq⟩
    · exact .inr ⟨[], r, records, rfl, by simp, hr⟩

theorem persist_of_same (h : ∀ r ∈ records, Same files r) :
    persist console records files = files := by
  have hrun : records.foldl logsave ⟨files, false⟩ = ⟨files, false⟩ := foldl_logsave_of_same h
  unfold persist
  rw [hrun]
  rfl

/-- The files behind the records, from the first one that differs on. -/
def saved (r : Record) (after : List Record) (files : Files) : Files :=
  after.foldl save ((rotateFiles files).put r.name (some r.content))

theorem persist_of_split (hbefore : ∀ q ∈ before, Same files q) (hr : ¬Same files r) (name : Text) :
    persist console (before ++ r :: after) files name =
      if name = LAST_KMSG_FILE ∧ console.isSome then console else saved r after files name := by
  have hrun :
      (before ++ r :: after).foldl logsave ⟨files, false⟩ = ⟨saved r after files, true⟩ := by
    have hfirst :
        logsave ⟨files, false⟩ r = ⟨(rotateFiles files).put r.name (some r.content), true⟩ :=
        if_neg hr
    have hsame : before.foldl logsave ⟨files, false⟩ = ⟨files, false⟩ :=
      foldl_logsave_of_same hbefore
    rw [List.foldl_append, hsame, List.foldl_cons, hfirst, foldl_logsave_rotated, saved]
  unfold persist
  rw [hrun]
  cases console with
  | none => simp
  | some content =>
    show (saved r after files).put LAST_KMSG_FILE (some content) name = _
    by_cases hname : name = LAST_KMSG_FILE
    · rw [if_pos ⟨hname, rfl⟩, hname]
      exact if_pos rfl
    · rw [if_neg fun h => hname h.1]
      exact SessionLog.Files.put_of_ne hname

theorem saved_name (hnames : ((before ++ r :: after).map Record.name).Nodup) :
    (∀ q ∈ before, saved r after files q.name = rotateFiles files q.name) ∧
    saved r after files r.name = some r.content ∧
    ∀ q ∈ after, saved r after files q.name =
      if q.content = [] then (rotateFiles files q.name).map fun _ => [] else some q.content := by
  rw [List.map_append, List.map_cons, List.nodup_append, List.nodup_cons] at hnames
  obtain ⟨-, ⟨hr, hafter⟩, hbefore⟩ := hnames
  have hother : ∀ q ∈ after, q.name ≠ r.name := fun q hq heq => hr (List.mem_map.mpr ⟨q, hq, heq⟩)
  refine ⟨fun q hq => ?_, ?_, fun q hq => ?_⟩
  · have hne := hbefore q.name (List.mem_map_of_mem hq)
    rw [saved, foldl_save_of_ne fun q' hq' =>
      hne _ (List.mem_cons_of_mem _ (List.mem_map_of_mem hq')),
      SessionLog.Files.put_of_ne (hne _ List.mem_cons_self)]
  · rw [saved, foldl_save_of_ne fun q hq => (hother q hq).symm]
    exact if_pos rfl
  · rw [saved, foldl_save_of_mem hafter hq, SessionLog.Files.put_of_ne (hother q hq)]

/-- What has to hold of a record that is in place before the rotation, the first that differs, or
behind it. -/
theorem saved_eq_iff (hnames : ((before ++ r :: after).map Record.name).Nodup)
    (hq : q ∈ before ++ r :: after) : saved r after files q.name = some q.content ↔
      (q ∈ before → rotateFiles files q.name = some q.content) ∧
        (q ∈ after → q.content = [] → (rotateFiles files q.name).isSome) := by
  obtain ⟨hfirst, hself, hlast⟩ := @saved_name before after files r hnames
  have hdisjoint : (before ++ r :: after).Nodup :=
    List.Pairwise.of_map Record.name (fun _ _ h heq => h (congrArg _ heq)) hnames
  rw [List.nodup_append, List.nodup_cons] at hdisjoint
  obtain ⟨-, ⟨hr, -⟩, hbefore⟩ := hdisjoint
  rcases List.mem_append.mp hq with hq | hq
  · rw [hfirst q hq]
    refine ⟨fun h =>
      ⟨fun _ => h, fun hafter => absurd rfl (hbefore q hq q (List.mem_cons_of_mem _ hafter))⟩,
        fun h => h.1 hq⟩
  · have hnot : q ∉ before := fun h => hbefore q h q hq rfl
    rcases List.mem_cons.mp hq with rfl | hq
    · exact iff_of_true hself ⟨fun h => absurd h hnot, fun h => absurd h hr⟩
    · rw [hlast q hq]
      by_cases hempty : q.content = []
      · rw [if_pos hempty, hempty]
        cases rotateFiles files q.name with
        | none => simp [hq]
        | some data => simp [hnot]
      · rw [if_neg hempty]
        exact iff_of_true rfl ⟨fun h => absurd h hnot, fun _ h => absurd h hempty⟩

/-- All records are in their files behind a run exactly if they can be persisted. -/
theorem stored_iff (hnames : (records.map Record.name).Nodup) :
    (∀ r ∈ records, persist console records files r.name = some r.content) ↔
    Persistable console records files := by
  have hsplit {before after : List Record} {r : Record} (hrecords : records = before ++ r :: after)
      (hbefore : ∀ q ∈ before, Same files q) (hr : ¬Same files r) (q : Record) (hq : q ∈ records) :
      persist console records files q.name = some q.content ↔
        if q.name = LAST_KMSG_FILE ∧ console.isSome then console = some q.content
        else (q ∈ before → rotateFiles files q.name = some q.content) ∧
          (q ∈ after → q.content = [] → (rotateFiles files q.name).isSome) := by
    subst hrecords
    rw [persist_of_split hbefore hr]
    split
    · rfl
    · exact saved_eq_iff hnames hq
  constructor
  · intro h
    rcases same_or_split files records with hsame | ⟨before, r, after, hrecords, hbefore, hr⟩
    · rw [persist_of_same hsame] at h
      exact .inl h
    · exact .inr ⟨before, r, after, hrecords, hbefore, hr, fun q hq =>
        (hsplit hrecords hbefore hr q hq).mp (h q hq)⟩
  · rintro (hstored | ⟨before, r, after, hrecords, hbefore, hr, h⟩) q hq
    · rw [persist_of_same fun r hr => by rw [Same, hstored r hr]; rfl]
      exact hstored q hq
    · exact (hsplit hrecords hbefore hr q hq).mpr (h q hq)

/-- No log is lost that was not rotated beyond the last place or replaced in its new place. -/
theorem kept (hfile : files (numbered LAST_LOG_FILE i) = some content) :
    (∃ j, persist console records files (numbered LAST_LOG_FILE j) = some content) ∨
    (i = KEEP_LOG_COUNT ∧ (files (numbered LAST_LOG_FILE (i - 1))).isSome) ∨
    ∃ r ∈ records, r.name = numbered LAST_LOG_FILE (placeAfter i) := by
  rcases same_or_split files records with hsame | ⟨before, r, after, rfl, hbefore, hr⟩
  · exact .inl ⟨i, by rw [persist_of_same hsame]; exact hfile⟩
  · by_cases hlast : i = KEEP_LOG_COUNT ∧ (files (numbered LAST_LOG_FILE (i - 1))).isSome
    · exact .inr (.inl hlast)
    · by_cases hreplaced : ∃ q ∈ before ++ r :: after, q.name =
        numbered LAST_LOG_FILE (placeAfter i)
      · exact .inr (.inr hreplaced)
      · refine .inl ⟨placeAfter i, ?_⟩
        have hne : ∀ q ∈ before ++ r :: after, numbered LAST_LOG_FILE (placeAfter i) ≠ q.name :=
          fun q hq heq => hreplaced ⟨q, hq, heq.symm⟩
        have hkmsg : numbered LAST_LOG_FILE (placeAfter i) ≠ LAST_KMSG_FILE := numbered_ne (j := 0)
        rw [persist_of_split hbefore hr, if_neg fun h => hkmsg h.1, saved,
          foldl_save_of_ne fun q hq => hne q (List.mem_append_right _ (List.mem_cons_of_mem _ hq)),
          SessionLog.Files.put_of_ne (hne r (by simp)), rotateFiles_placeAfter hfile hlast]

end

/-- A run does what it should exactly if the records can be persisted. -/
theorem persistRight_iff (console : Option Bytes) {records : List Record}
    (hnames : (records.map Record.name).Nodup) (files : Files) :
    PersistRight console records files ↔ Persistable console records files := by
  rw [← stored_iff hnames]
  refine ⟨PersistRight.stored, fun hstored =>
    ⟨hstored, fun i content => kept, fun console' i => ?_⟩⟩
  rw [persist_of_same fun r hr => by rw [Same, hstored r hr]; rfl]

/-- `last_install` is in place and stays there, and a new `last_log` rotates the old ones. -/
theorem persistRight_iff_last_log :
    let files : Files := fun name => if name = "last_install".toList then some [2] else
      if name = LAST_LOG_FILE then some [1] else if name = numbered LAST_LOG_FILE 1 then some [0]
        else none
    PersistRight (some [5]) [⟨"last_install".toList, [2]⟩, ⟨LAST_LOG_FILE, [3]⟩,
      ⟨"other".toList, [4]⟩] files := by
  refine (persistRight_iff (some [5]) (by decide) _).mpr
    (.inr ⟨[⟨"last_install".toList, [2]⟩], ⟨LAST_LOG_FILE, [3]⟩, [⟨"other".toList, [4]⟩], rfl,
      fun q hq => ?_, by decide, fun q hq => ?_⟩)
  · cases List.mem_singleton.mp hq
    decide
  · simp only [List.mem_cons, List.not_mem_nil, or_false] at hq
    rcases hq with rfl | rfl | rfl <;> decide

/-- `last_log` is in place, and `last_install` is not. -/
theorem not_persistRight :
    ¬∀ (console : Option Bytes) (records : List Record) (files : Files),
    (records.map Record.name).Nodup →
      PersistRight console records files := by
  intro h
  have hstored := (h none [⟨LAST_LOG_FILE, [1]⟩, ⟨"last_install".toList, [2]⟩]
    (fun name => if name = LAST_LOG_FILE then some [1] else none) (by decide)).stored
    ⟨LAST_LOG_FILE, [1]⟩ (by simp)
  exact absurd hstored (by decide)

end BootableRecovery.Persist
