import BootableRecovery.LibBase.Strings

/-!
# The table of input devices

`ev_init`, `ev_add_fd` and the functions of `minui/events.cpp` that go over the devices. Devices and
other descriptors share `ev_fdinfo`, where each has the next free place; the functions take the
first places for the devices (`tableRight_iff`).
-/

namespace BootableRecovery.Minui.Events

def MAX_DEVICES : Nat := 16
def MAX_MISC_FDS : Nat := 16
def KEY_MAX : Nat := 0x2ff

/-- `ev_callback` -/
inductive Callback
  | inotifyCb
  | other (id : Nat)
  deriving DecidableEq

structure FdInfo where
  fd : Int
  cb : Option Callback
  deriving DecidableEq

/-- The variables of the module. -/
structure Table where
  evFdinfo : List FdInfo
  evCount : Nat
  evDevCount : Nat
  evMiscCount : Nat
  savedInputCb : Option Callback

def Table.empty : Table := ⟨List.replicate (MAX_DEVICES + MAX_MISC_FDS) ⟨0, none⟩, 0, 0, 0, none⟩

/-- The bits of `EVIOCGBIT` that are looked at. -/
structure EvBits where
  key : Bool
  rel : Bool
  abs : Bool
  sw : Bool

/-- An entry of `/dev/input`: its name, its descriptor if it can be opened, its bits if they can be
read, and whether `epoll_ctl` takes it. -/
structure Entry where
  name : Text
  fd : Option Int
  bits : Option EvBits
  added : Bool

/-- What `ev_init` finds. `BOARD_RECOVERY_NEEDS_REL_INPUT` is set when the program is built. A
descriptor that is open is not given a second time. -/
structure System where
  needsRelInput : Bool
  epollCreated : Bool
  inotify : Option Int
  inotifyAdded : Bool
  dir : Option (List Entry)
  inotify_open : ∀ fd ∈ inotify, ∀ entries ∈ dir, ∀ e ∈ entries, e.fd ≠ some fd

namespace Table

variable (t : Table)

/-- The next place of `ev_fdinfo` is written. -/
def register (fd : Int) (cb : Option Callback) : Option Table :=
  if t.evCount < t.evFdinfo.length then
    some { t with evFdinfo := t.evFdinfo.set t.evCount ⟨fd, cb⟩, evCount := t.evCount + 1 }
  else none

/-- `ev_add_fd`: the result of `epoll_ctl`, or -1. -/
def evAddFd (fd : Int) (cb : Option Callback) (added : Bool) : Option (Int × Table) :=
  if t.evMiscCount = MAX_MISC_FDS ∨ cb = none then some (-1, t)
  else if added then (t.register fd cb).map fun t =>
    (0, { t with evMiscCount := t.evMiscCount + 1 })
  else some (-1, t)

/-- The descriptors at the first `ev_dev_count` places, with what `f` makes of each. -/
def iterate (f : Int → β) : Option (List (Int × β)) :=
  (List.range t.evDevCount).mapM fun i => t.evFdinfo[i]?.map fun info => (info.fd, f info.fd)

/-- `ev_exit`: the descriptors that it closes. -/
def evExit : List Int × Table :=
  (((t.evFdinfo.take t.evCount).reverse.map FdInfo.fd),
    { t with evCount := 0, evDevCount := 0, evMiscCount := 0, savedInputCb := none })

end Table

/-- The loop of `ev_init`, with `epollctlfail`. -/
def initLoop (sys : System) (allowTouchInputs : Bool) (inputCb : Option Callback) :
    List Entry → Table × Bool → Option (Table × Bool)
  | [], s => some s
  | e :: entries, (t, failed) =>
    if ¬"event".toList <+: e.name then initLoop sys allowTouchInputs inputCb entries (t, failed)
    else
      match e.fd, e.bits with
      | none, _ => initLoop sys allowTouchInputs inputCb entries (t, failed)
      | some _, none => initLoop sys allowTouchInputs inputCb entries (t, failed)
      | some fd, some bits =>
        if !bits.key && !(sys.needsRelInput && bits.rel) && !bits.sw &&
          (!allowTouchInputs || !bits.abs) then
          initLoop sys allowTouchInputs inputCb entries (t, failed)
        else if !e.added then initLoop sys allowTouchInputs inputCb entries (t, true)
        else
          match t.register fd inputCb with
          | none => none
          | some t =>
            let t := { t with evDevCount := t.evDevCount + 1 }
            if t.evDevCount = MAX_DEVICES then some (t, failed)
            else initLoop sys allowTouchInputs inputCb entries (t, failed)

def evInit (sys : System) (inputCb : Option Callback) (allowTouchInputs : Bool) (t : Table) :
    Option (Int × Table) :=
  if sys.epollCreated = false then some (-1, t)
  else
    (match sys.inotify with
      | none => some t
      | some fd => (t.evAddFd fd (some .inotifyCb) sys.inotifyAdded).map Prod.snd).bind fun t =>
    (initLoop sys allowTouchInputs inputCb (sys.dir.getD []) (t, false)).map
      fun (r : Table × Bool) =>
      if r.2 && r.1.evCount = 0 then (-1, r.1) else (0, { r.1 with savedInputCb := inputCb })

/-! ## What a device is asked -/

/-- The answers of a device: its bits, the keys that are pressed, its keys and its absolute axes. -/
structure Answers where
  bits : Option EvBits
  pressed : Option (Nat → Bool)
  keys : Option (Nat → Bool)
  axes : Option (Nat → Bool)

/-- The codes that are set in the bits, up to `KEY_MAX`. -/
def codes (bits : Nat → Bool) : List Nat := (List.range (KEY_MAX + 1)).filter bits

section
variable (answers : Int → Answers)

/-- `ev_sync_key_state`: for each descriptor the keys that are reported as pressed. -/
def evSyncKeyState (t : Table) : Option (List (Int × List Nat)) :=
  t.iterate fun fd =>
    match (answers fd).bits, (answers fd).pressed with
    | some bits, some pressed => if bits.key then codes pressed else []
    | _, _ => []

def evIterateAvailableKeys (t : Table) : Option (List (Int × List Nat)) :=
  t.iterate fun fd =>
    match (answers fd).bits, (answers fd).keys with
    | some bits, some keys => if bits.key then codes keys else []
    | _, _ => []

/-- `ev_iterate_touch_inputs`: the codes of each device that is detected as one for touches. -/
def evIterateTouchInputs (t : Table) : Option (List (Int × Option (List Nat))) :=
  t.iterate fun fd =>
    match (answers fd).bits, (answers fd).axes with
    | some bits, some axes => if bits.abs then some (codes axes) else none
    | _, _ => none

end

/-! ## Runs -/

/-- What comes after `ev_init`: a call of `ev_add_fd`, or a device that `inotify_cb` hands to it. -/
inductive Later
  | addFd (fd : Int) (cb : Option Callback) (added : Bool)
  | hotPlug (fd : Int) (added : Bool)

def Table.step (t : Table) : Later → Option Table
  | .addFd fd cb added => (t.evAddFd fd cb added).map Prod.snd
  | .hotPlug fd added =>
    if t.savedInputCb = none then some t else (t.evAddFd fd t.savedInputCb added).map Prod.snd

/-- `ev_init`, and what comes after it. -/
def run (sys : System) (inputCb : Option Callback) (allowTouchInputs : Bool) (later : List Later) :
    Option Table :=
  (evInit sys inputCb allowTouchInputs .empty).bind fun r => later.foldlM Table.step r.2

/-- The descriptor of an entry that `ev_init` takes for an input device. -/
def Entry.device (sys : System) (allowTouchInputs : Bool) (e : Entry) : Option Int :=
  match e.fd, e.bits with
  | some fd, some bits =>
    if "event".toList <+: e.name ∧
      (bits.key || sys.needsRelInput && bits.rel || bits.sw || allowTouchInputs && bits.abs) ∧
      e.added then some fd else none
  | _, _ => none

/-- The input devices that `ev_init` registers. -/
def System.devices (sys : System) (allowTouchInputs : Bool) : List Int :=
  if sys.epollCreated
  then ((sys.dir.getD []).filterMap (Entry.device sys allowTouchInputs)).take MAX_DEVICES else []

/-- The descriptor that tells of new devices, if `ev_init` registers it. -/
def System.watch (sys : System) : Option Int :=
  if sys.epollCreated ∧ sys.inotifyAdded then sys.inotify else none

/-- The counters fit, and each of the three functions asks exactly the devices. -/
structure TableRight (devices : List Int) (answers : Int → Answers) (t : Table) : Prop where
  count : t.evCount = t.evDevCount + t.evMiscCount
  count_le : t.evCount ≤ MAX_DEVICES + MAX_MISC_FDS
  sync : ∃ r, evSyncKeyState answers t = some r ∧ (r.map Prod.fst).Perm devices
  keys : ∃ r, evIterateAvailableKeys answers t = some r ∧ (r.map Prod.fst).Perm devices
  touch : ∃ r, evIterateTouchInputs answers t = some r ∧ (r.map Prod.fst).Perm devices

section
variable {t t' : Table} {rows : List FdInfo} {fd : Int} {cb inputCb : Option Callback}
    {added allowTouchInputs : Bool}
  {sys : System} {entries : List Entry} {later : List Later} {devices : List Int}

/-! ## The places of the table -/

/-- The first places hold `rows`, one for each device and one for each other descriptor. -/
structure Filled (t : Table) (rows : List FdInfo) : Prop where
  length : t.evFdinfo.length = MAX_DEVICES + MAX_MISC_FDS
  rows : t.evFdinfo.take t.evCount = rows
  sum : t.evCount = t.evDevCount + t.evMiscCount
  devices : t.evDevCount ≤ MAX_DEVICES
  misc : t.evMiscCount ≤ MAX_MISC_FDS

theorem Filled.count (h : Filled t rows) : t.evCount = rows.length := by
  have hlen := congrArg List.length h.rows
  have hdevices := h.devices
  have hmisc := h.misc
  rw [List.length_take, h.length, h.sum] at hlen
  rw [h.sum]
  omega

theorem filled_empty : Filled .empty [] := ⟨rfl, rfl, rfl, Nat.zero_le _, Nat.zero_le _⟩

theorem Filled.register (h : Filled t rows) (hroom : t.evCount < MAX_DEVICES + MAX_MISC_FDS)
    (fd : Int) (cb : Option Callback) :
    ∃ t', t.register fd cb = some t' ∧ t'.evFdinfo.length = MAX_DEVICES + MAX_MISC_FDS ∧
      t'.evFdinfo.take t'.evCount = rows ++ [⟨fd, cb⟩] ∧ t'.evCount = t.evCount + 1 ∧
      t'.evDevCount = t.evDevCount ∧ t'.evMiscCount = t.evMiscCount ∧
      t'.savedInputCb = t.savedInputCb := by
  have hlt : t.evCount < t.evFdinfo.length := h.length ▸ hroom
  refine ⟨_, if_pos hlt, by simp [h.length], ?_, rfl, rfl, rfl, rfl⟩
  dsimp only
  rw [List.take_add_one, List.take_set_of_le (Nat.le_refl _), h.rows, List.getElem?_set_self hlt]
  rfl

/-- What `ev_add_fd` appends. -/
def Table.addedRows (t : Table) (fd : Int) (cb : Option Callback) (added : Bool) : List FdInfo :=
  if t.evMiscCount < MAX_MISC_FDS ∧ cb ≠ none ∧ added then [⟨fd, cb⟩] else []

/-- `ev_add_fd` writes behind the places that are taken, or leaves the table as it is. -/
theorem Filled.evAddFd (h : Filled t rows) (fd : Int) (cb : Option Callback) (added : Bool) :
    ∃ code t', t.evAddFd fd cb added = some (code, t') ∧
    Filled t' (rows ++ t.addedRows fd cb added) ∧
      t'.evDevCount = t.evDevCount ∧ t'.savedInputCb = t.savedInputCb := by
  have hsame (hnone : ¬(t.evMiscCount < MAX_MISC_FDS ∧ cb ≠ none ∧ added)) :
      Filled t (rows ++ t.addedRows fd cb added) := by
    rw [Table.addedRows, if_neg hnone, List.append_nil]
    exact h
  rw [Table.evAddFd]
  split
  · rename_i hfull
    exact ⟨-1, t, rfl, hsame fun hadd => hfull.elim (Nat.ne_of_lt hadd.1) hadd.2.1, rfl, rfl⟩
  · rename_i hroom
    cases added with
    | false => exact ⟨-1, t, rfl, hsame fun hadd => absurd hadd.2.2 (by decide), rfl, rfl⟩
    | true =>
      have hmisc : t.evMiscCount < MAX_MISC_FDS := Nat.lt_of_le_of_ne h.misc (not_or.mp hroom).1
      have hsum := h.sum
      have hdevices := h.devices
      obtain ⟨t', hregister, hlen, hrows, hcount, hdev, hmisc', hsaved⟩ :=
        h.register (by omega) fd cb
      rw [if_pos rfl, hregister, Table.addedRows, if_pos ⟨hmisc, (not_or.mp hroom).2, rfl⟩]
      refine ⟨0, _, rfl, ⟨hlen, hrows, ?_, ?_, ?_⟩, hdev, hsaved⟩
      · dsimp only
        omega
      · exact hdev ▸ h.devices
      · exact hmisc' ▸ hmisc

/-- `ev_exit` closes what has been added, each once and the last one first, and leaves a table for
the next `ev_init`. -/
theorem Filled.evExit (h : Filled t rows) :
    t.evExit.1 = (rows.map FdInfo.fd).reverse ∧ Filled t.evExit.2 [] ∧
    t.evExit.2.savedInputCb = none := by
  refine ⟨?_, ⟨h.length, rfl, rfl, Nat.zero_le _, Nat.zero_le _⟩, rfl⟩
  rw [Table.evExit, h.rows, List.map_reverse]

/-! ## Runs -/

theorem Filled.step (h : Filled t rows) (l : Later) :
    ∃ t' more, t.step l = some t' ∧ Filled t' (rows ++ more) ∧ t'.evDevCount = t.evDevCount := by
  cases l with
  | addFd fd cb added =>
    obtain ⟨code, t', hadd, hfilled, hdev, -⟩ := h.evAddFd fd cb added
    exact ⟨t', _, by rw [Table.step, hadd]; rfl, hfilled, hdev⟩
  | hotPlug fd added =>
    rw [Table.step]
    split
    · exact ⟨t, [], rfl, (List.append_nil rows).symm ▸ h, rfl⟩
    · obtain ⟨code, t', hadd, hfilled, hdev, -⟩ := h.evAddFd fd t.savedInputCb added
      exact ⟨t', _, by rw [hadd]; rfl, hfilled, hdev⟩

theorem Filled.steps (h : Filled t rows) (later : List Later) :
    ∃ t' more, later.foldlM Table.step t = some t' ∧ Filled t' (rows ++ more) ∧
    t'.evDevCount = t.evDevCount := by
  induction later generalizing t rows with
  | nil => exact ⟨t, [], rfl, (List.append_nil rows).symm ▸ h, rfl⟩
  | cons l later ih =>
    obtain ⟨t₁, more₁, hstep, hfilled₁, hdev₁⟩ := h.step l
    obtain ⟨t₂, more₂, hsteps, hfilled₂, hdev₂⟩ := ih hfilled₁
    refine ⟨t₂, more₁ ++ more₂, ?_, List.append_assoc rows more₁ more₂ ▸ hfilled₂,
      hdev₂.trans hdev₁⟩
    rw [List.foldlM_cons, hstep]
    exact hsteps

/-- The check of `ev_init` rejects the devices that do not have the bits of one. -/
theorem reject_eq_not (sys : System) (allowTouchInputs : Bool) (bits : EvBits) :
    (!bits.key && !(sys.needsRelInput && bits.rel) && !bits.sw &&
      (!allowTouchInputs || !bits.abs)) =
      !(bits.key || sys.needsRelInput && bits.rel || bits.sw || allowTouchInputs && bits.abs) := by
  cases bits.key <;> cases sys.needsRelInput <;> cases bits.rel <;> cases bits.sw <;>
    cases allowTouchInputs <;>
    cases bits.abs <;> rfl

theorem initLoop_of_none {e : Entry} (h : e.device sys allowTouchInputs = none) (failed : Bool) :
    ∃ failed', initLoop sys allowTouchInputs inputCb (e :: entries) (t, failed) =
      initLoop sys allowTouchInputs inputCb entries (t, failed') := by
  obtain ⟨name, fd, bits, added⟩ := e
  rw [initLoop]
  split
  · exact ⟨failed, rfl⟩
  · rename_i hname
    split
    · exact ⟨failed, rfl⟩
    · exact ⟨failed, rfl⟩
    · rename_i fd' bits' hfd hbits
      cases hfd
      cases hbits
      split
      · exact ⟨failed, rfl⟩
      · rename_i haccept
        split
        · exact ⟨true, rfl⟩
        · rename_i hadded
          rw [reject_eq_not, Bool.not_eq_true, Bool.not_eq_false'] at haccept
          rw [Entry.device] at h
          dsimp only at h
          rw [if_pos ⟨not_not.mp hname, haccept, by simpa using hadded⟩] at h
          cases h

theorem initLoop_of_some {e : Entry} (h : e.device sys allowTouchInputs = some fd)
    (hregister : t.register fd inputCb = some t') (failed : Bool) :
    initLoop sys allowTouchInputs inputCb (e :: entries) (t, failed) =
      if t'.evDevCount + 1 =
      MAX_DEVICES then some ({ t' with evDevCount := t'.evDevCount + 1 }, failed)
      else initLoop sys allowTouchInputs inputCb entries
      ({ t' with evDevCount := t'.evDevCount + 1 }, failed) := by
  obtain ⟨name, fd', bits, added⟩ := e
  rw [Entry.device] at h
  split at h
  · rename_i fd'' bits' hfd hbits
    cases hfd
    cases hbits
    split at h
    · rename_i haccept
      obtain ⟨hname, hbits, hadded⟩ := haccept
      cases h
      rw [initLoop, if_neg (not_not_intro hname)]
      dsimp only
      rw [reject_eq_not, hbits, if_neg (by decide), if_neg (by simpa using hadded), hregister]
    · cases h
  · cases h

/-- The loop of `ev_init` fills the next places with the devices, until there are `MAX_DEVICES`. -/
theorem initLoop_spec (h : Filled t rows) (hdev : t.evDevCount < MAX_DEVICES) (failed : Bool) :
    ∃ t' failed', initLoop sys allowTouchInputs inputCb entries (t, failed) = some (t', failed') ∧
      Filled t'
      (rows ++ ((entries.filterMap (Entry.device sys allowTouchInputs)).take
        (MAX_DEVICES - t.evDevCount)).map (⟨·, inputCb⟩)) ∧
      t'.evDevCount = t.evDevCount +
        ((entries.filterMap (Entry.device sys allowTouchInputs)).take
          (MAX_DEVICES - t.evDevCount)).length := by
  induction entries generalizing t rows failed with
  | nil => exact ⟨t, failed, rfl, by simpa using h, by simp⟩
  | cons e entries ih =>
    cases hdevice : e.device sys allowTouchInputs with
    | none =>
      obtain ⟨failed', hloop⟩ :=
        @initLoop_of_none t inputCb allowTouchInputs sys entries e hdevice failed
      rw [hloop, List.filterMap_cons_none hdevice]
      exact ih h hdev failed'
    | some fd =>
      have hsum := h.sum
      have hmisc := h.misc
      obtain ⟨t₁, hregister, hlen, hrows, hcount, hdev₁, hmisc₁, -⟩ :=
        h.register (by omega) fd inputCb
      rw [initLoop_of_some hdevice hregister, List.filterMap_cons_some hdevice]
      have hfilled :
          Filled { t₁ with evDevCount := t₁.evDevCount + 1 } (rows ++ [⟨fd, inputCb⟩]) := by
        refine ⟨hlen, hrows, ?_, ?_, hmisc₁ ▸ h.misc⟩
        · dsimp only
          omega
        · dsimp only
          omega
      have hroom : MAX_DEVICES - t.evDevCount = MAX_DEVICES - (t₁.evDevCount + 1) + 1 := by omega
      rw [hroom, List.take_succ_cons, List.map_cons, List.length_cons]
      split
      · rename_i hlast
        have hnone : MAX_DEVICES - (t₁.evDevCount + 1) = 0 := by omega
        rw [hnone, List.take_zero, ← hdev₁]
        exact ⟨_, failed, rfl, hfilled, rfl⟩
      · rename_i hmore
        obtain ⟨t₂, failed', hloop, hfilled₂, hdev₂⟩ := ih hfilled (by dsimp only; omega) failed
        refine ⟨t₂, failed', hloop, ?_, ?_⟩
        · rw [List.append_assoc, List.singleton_append] at hfilled₂
          exact hfilled₂
        · rw [hdev₂, hdev₁]
          dsimp only
          omega

/-- The rows of `ev_fdinfo` after `ev_init`: the watch, if there is one, and the devices. -/
def System.initRows (sys : System) (inputCb : Option Callback) (allowTouchInputs : Bool) :
    List FdInfo :=
  sys.watch.toList.map (⟨·, some .inotifyCb⟩) ++ (sys.devices allowTouchInputs).map (⟨·, inputCb⟩)

theorem addWatch_spec (sys : System) (hepoll : sys.epollCreated = true) :
    ∃ t, (match sys.inotify with
        | none => some Table.empty
        | some fd => (Table.empty.evAddFd fd (some .inotifyCb) sys.inotifyAdded).map Prod.snd) =
        some t ∧
      Filled t (sys.watch.toList.map (⟨·, some .inotifyCb⟩)) ∧ t.evDevCount = 0 := by
  rw [System.watch, hepoll]
  cases sys.inotify with
  | none => exact ⟨.empty, rfl, by rw [ite_self]; exact filled_empty, rfl⟩
  | some fd =>
    obtain ⟨code, t, hadd, hfilled, hdev, -⟩ :=
      filled_empty.evAddFd fd (some .inotifyCb) sys.inotifyAdded
    refine ⟨t, by dsimp only; rw [hadd]; rfl, ?_, hdev⟩
    cases hinotify : sys.inotifyAdded with
    | true =>
      rw [hinotify] at hfilled
      exact hfilled
    | false =>
      rw [hinotify] at hfilled
      exact hfilled

theorem evInit_spec (sys : System) (inputCb : Option Callback) (allowTouchInputs : Bool) :
    ∃ code t, evInit sys inputCb allowTouchInputs .empty = some (code, t) ∧
      Filled t (sys.initRows inputCb allowTouchInputs) ∧
      t.evDevCount = (sys.devices allowTouchInputs).length := by
  rw [evInit, System.initRows, System.devices]
  cases hepoll : sys.epollCreated with
  | false =>
    refine ⟨-1, .empty, rfl, ?_, rfl⟩
    rw [System.watch, hepoll]
    exact filled_empty
  | true =>
    obtain ⟨t, hwatch, hfilled, hdev⟩ := addWatch_spec sys hepoll
    obtain ⟨t', failed, hloop, hfilled', hdev'⟩ :=
      @initLoop_spec t _ inputCb allowTouchInputs sys (sys.dir.getD []) hfilled
      (by rw [hdev]; decide) false
    rw [if_neg (by decide), hwatch, Option.bind_some, hloop, Option.map_some]
    rw [hdev, Nat.sub_zero] at hfilled'
    rw [hdev, Nat.sub_zero, Nat.zero_add] at hdev'
    dsimp only
    split
    · exact ⟨-1, t', rfl, hfilled', hdev'⟩
    · exact ⟨0, _, rfl, { hfilled' with }, hdev'⟩

theorem run_spec (sys : System) (inputCb : Option Callback) (allowTouchInputs : Bool)
    (later : List Later) : ∃ t more, run sys inputCb allowTouchInputs later = some t ∧
    Filled t (sys.initRows inputCb allowTouchInputs ++ more) ∧
      t.evDevCount = (sys.devices allowTouchInputs).length := by
  obtain ⟨code, t, hinit, hfilled, hdev⟩ := evInit_spec sys inputCb allowTouchInputs
  obtain ⟨t', more, hsteps, hfilled', hdev'⟩ := hfilled.steps later
  exact ⟨t', more, by rw [run, hinit]; exact hsteps, hfilled', hdev'.trans hdev⟩

theorem mapM_range {l : List FdInfo} {n : Nat} (hn : n ≤ l.length) (g : FdInfo → β) :
    (List.range n).mapM (fun i => l[i]?.map g) = some ((l.take n).map g) := by
  induction n with
  | zero => rfl
  | succ n ih =>
    have hlast : l[n]? = some l[n] := List.getElem?_eq_getElem (by omega)
    rw [List.range_succ, List.mapM_append, ih (by omega), List.take_add_one, List.map_append, hlast]
    simp [hlast]

theorem Filled.iterate (h : Filled t rows) (f : Int → β) :
    t.iterate f = some ((rows.take t.evDevCount).map fun info => (info.fd, f info.fd)) := by
  have hsum := h.sum
  have hdevices := h.devices
  rw [Table.iterate, mapM_range (by rw [h.length]; omega), ← h.rows, List.take_take,
    Nat.min_eq_left (by omega)]

theorem Filled.exists_iterate (h : Filled t rows) (f : Int → β) (p : List Int → Prop) :
    (∃ r, t.iterate f = some r ∧ p (r.map Prod.fst)) ↔
    p ((rows.take t.evDevCount).map FdInfo.fd) := by
  rw [h.iterate f]
  simp only [Option.some.injEq, exists_eq_left', List.map_map]
  rfl

theorem Entry.fd_of_device {e : Entry} (h : e.device sys allowTouchInputs = some fd) :
    e.fd = some fd := by
  rw [Entry.device] at h
  split at h
  · rename_i fd' bits hfd hbits
    split at h
    · rw [hfd, h]
    · cases h
  · cases h

theorem System.not_mem_devices (sys : System) (hwatch : sys.watch = some fd) :
    fd ∉ sys.devices allowTouchInputs := by
  intro hfd
  rw [System.watch] at hwatch
  rw [System.devices] at hfd
  split at hwatch
  · split at hfd
    · obtain ⟨e, he, hdevice⟩ := List.mem_filterMap.mp (List.mem_of_mem_take hfd)
      cases hdir : sys.dir with
      | none => simp [hdir] at he
      | some entries =>
        exact sys.inotify_open fd hwatch entries hdir e (by simpa [hdir] using he)
          (Entry.fd_of_device hdevice)
    · cases hfd
  · cases hwatch

/-- The descriptors at the first places are the devices if and only if the watch is not there, or
there are no devices. -/
theorem System.initRows_perm_iff (sys : System) (inputCb : Option Callback)
    (allowTouchInputs : Bool) (more : List FdInfo) :
    (((sys.initRows inputCb allowTouchInputs ++ more).take
      (sys.devices allowTouchInputs).length).map FdInfo.fd).Perm
        (sys.devices allowTouchInputs) ↔
      sys.watch = none ∨ sys.devices allowTouchInputs = [] := by
  have hfds :
      (sys.devices allowTouchInputs).map (FdInfo.fd ∘ (⟨·, inputCb⟩)) =
      sys.devices allowTouchInputs :=
    List.map_id _
  cases hwatch : sys.watch with
  | none =>
    rw [System.initRows, hwatch, ← List.length_map (⟨·, inputCb⟩ : Int → FdInfo)]
    simp [hfds]
  | some fd =>
    cases hdevices : sys.devices allowTouchInputs with
    | nil => simp
    | cons device devices =>
      refine iff_of_false (fun hperm => ?_) (by simp)
      have hfd : fd ∈ sys.devices allowTouchInputs := by
        rw [hdevices]
        refine hperm.mem_iff.mp ?_
        simp [System.initRows, hwatch]
      exact sys.not_mem_devices hwatch hfd

end

/-- The counters fit in every run; the devices are asked, and nothing else is, if and only if the
watch has not been registered in front of them, or there are none. -/
theorem tableRight_iff (sys : System) (inputCb : Option Callback) (allowTouchInputs : Bool)
    (later : List Later) (answers : Int → Answers) :
    (∃ t, run sys inputCb allowTouchInputs later = some t ∧
      TableRight (sys.devices allowTouchInputs) answers t) ↔
      sys.watch = none ∨ sys.devices allowTouchInputs = [] := by
  obtain ⟨t, more, hrun, hfilled, hdev⟩ := run_spec sys inputCb allowTouchInputs later
  have hsum := hfilled.sum
  have hdevices := hfilled.devices
  have hmisc := hfilled.misc
  rw [← System.initRows_perm_iff sys inputCb allowTouchInputs more, ← hdev]
  constructor
  · rintro ⟨t', hrun', hright⟩
    cases hrun.symm.trans hrun'
    exact (hfilled.exists_iterate _ (fun fds => fds.Perm _)).mp hright.sync
  · intro hperm
    exact ⟨t, hrun, hsum, by omega, (hfilled.exists_iterate _ (fun fds => fds.Perm _)).mpr hperm,
      (hfilled.exists_iterate _ (fun fds => fds.Perm _)).mpr hperm,
      (hfilled.exists_iterate _ (fun fds => fds.Perm _)).mpr hperm⟩

/-- One device, with `inotify`: what is asked is the watch, and not the device. -/
theorem not_tableRight :
    ∃ (sys : System) (inputCb : Option Callback) (allowTouchInputs : Bool) (later : List Later)
    (answers : Int → Answers),
      ¬∃ t, run sys inputCb allowTouchInputs later = some t ∧
        TableRight (sys.devices allowTouchInputs) answers t := by
  refine ⟨⟨false, true, some 3, true,
    some [⟨"event0".toList, some 4, some ⟨true, false, false, false⟩, true⟩], by simp⟩,
    some (.other 0), false, [], fun _ => ⟨none, none, none, none⟩, ?_⟩
  rintro ⟨t, hrun, hright⟩
  obtain ⟨r, hr, hperm⟩ := hright.sync
  cases Option.some.inj hrun
  cases Option.some.inj hr
  exact absurd (hperm.mem_iff.mp (List.mem_cons_self ..)) (by decide)

end BootableRecovery.Minui.Events
