import Mathlib.Algebra.Group.Int.Defs
import BootableRecovery.Theory.System
import BootableRecovery.RecoveryUI.Touch

/-!
# Keys

`ProcessKey`, `time_key` and `CheckKey` of `ui.cpp`. A key is registered when it is pressed and then
released with no other press or release in between, and for each press a thread looks after 750 ms
whether that press still lasts. The threads take the mutex in any order. What they keep of the keys
is enough to tell the registered keys and the long presses (`keys_registered`), and seven registered
power keys reboot the device (`keys_rebooted_iff`).
-/

namespace BootableRecovery.RecoveryUI

def KEY_ENTER : Int := 28
def KEY_VOLUMEUP : Int := 115

inductive KeyAction
  | enqueue
  | toggle
  | reboot
  | ignore
  deriving DecidableEq

/-- What is known of the device. -/
structure Device where
  hasPowerKey : Bool
  hasUpKey : Bool
  hasDownKey : Bool
  hasTouchScreen : Bool
  touchScreenAllowed : Bool

def Device.hasThreeButtons (d : Device) : Bool := d.hasPowerKey && d.hasUpKey && d.hasDownKey

/-- What the mutex protects of the keys, and what only the input thread uses. -/
structure Keys where
  keyPressed : Int → Int
  keyDownCount : Nat
  keyLastDown : Int
  keyLongPress : Bool
  consecutivePowerKeys : Nat
  lastKey : Int

/-- The keys as the constructor and `Init` leave them. -/
def Keys.init : Keys := ⟨fun _ => 0, 0, -1, false, 0, -1⟩

/-- `key_timer_t` -/
structure KeyTimer where
  keyCode : Int
  count : Nat
  deriving DecidableEq

/-- `ProcessKey` with the mutex: the keys, the timer of a press, and `long_press` if the key is
registered. -/
def Keys.processKey (k : Keys) (keyCode updown : Int) : Keys × Option KeyTimer × Option Bool :=
  let k := { k with
    keyPressed := fun key => if key = keyCode then updown % 2 ^ 8 else k.keyPressed key }
  if updown ≠ 0 then
    ({ k with keyDownCount := k.keyDownCount + 1, keyLastDown := keyCode, keyLongPress := false },
      some ⟨keyCode, k.keyDownCount + 1⟩, none)
  else ({ k with keyLastDown := -1 }, none, if k.keyLastDown = keyCode then some k.keyLongPress
    else none)

/-- `time_key` behind its sleep. -/
def Keys.timeKey (k : Keys) (timer : KeyTimer) : Keys :=
  if k.keyLastDown = timer.keyCode ∧
  k.keyDownCount = timer.count then { k with keyLongPress := true } else k

/-- What `CheckKey` reads of what other threads change: `IsTextVisible` three times, and the rest
once. -/
structure Reads where
  toggleTextVisible : Bool
  enterTextVisible : Bool
  textVisible : Bool
  screensaverOff : Bool
  enableReboot : Bool

/-- The first half of `CheckKey`, which toggles the text, or takes a long press for `KEY_ENTER`. -/
def Keys.checkChord (k : Keys) (d : Device) (r : Reads) (key : Int) (isLongPress : Bool) :
    Option (KeyAction × List Int) :=
  if d.hasThreeButtons || (d.hasPowerKey && d.hasTouchScreen && d.touchScreenAllowed) then
    if (key = KEY_VOLUMEUP ∨ key = KEY_UP) ∧ k.keyPressed KEY_POWER ≠ 0 then some (.toggle, [])
      else none
  else if isLongPress ∧ ¬r.toggleTextVisible then some (.toggle, [])
  else if isLongPress ∧ r.enterTextVisible then some (.ignore, [KEY_ENTER])
  else none

/-- `consecutive_power_keys` after another key. It stays while reboots are not enabled. -/
def Keys.countPower (k : Keys) (r : Reads) (key : Int) : Nat :=
  if key ≠ KEY_POWER then 0
  else if r.enableReboot then k.consecutivePowerKeys + 1
  else k.consecutivePowerKeys

/-- The second half. -/
def Keys.checkPower (k : Keys) (r : Reads) (key : Int) : KeyAction × Keys :=
  if key = KEY_POWER ∧ r.enableReboot ∧ 7 ≤ k.countPower r key then
    (.reboot, { k with consecutivePowerKeys := k.countPower r key })
  else
    (if r.textVisible ∨ r.screensaverOff then .enqueue else .ignore,
      { k with consecutivePowerKeys := k.countPower r key, lastKey := key })

/-- `CheckKey` behind its first use of the mutex: the action, the keys that it has put in the queue,
and the keys. -/
def Keys.checkKey (k : Keys) (d : Device) (r : Reads) (key : Int) (isLongPress : Bool) :
    KeyAction × List Int × Keys :=
  match k.checkChord d r key isLongPress with
  | some (action, queued) => (action, queued, k)
  | none => ((k.checkPower r key).1, [], (k.checkPower r key).2)

/-! ## The threads -/

/-- What happens to the keys. Timers are told by their counts. -/
inductive KeyEvent
  | down (keyCode : Int)
  | up (keyCode : Int)
  | timer (count : Nat)
  deriving DecidableEq

/-- Where the input thread is in `ProcessKey`, with `reboot_enabled`. -/
inductive KeyPhase
  | idle
  | registered (key : Int) (longPress rebootEnabled : Bool)
  | checking (key : Int) (longPress rebootEnabled : Bool)
  | rebooted

/-- A call of `CheckKey` that has returned. -/
structure Check where
  key : Int
  longPress : Bool
  rebootEnabled : Bool
  reads : Reads
  chord : Bool
  action : KeyAction
  queued : List Int

/-- The keys and the threads that use them, with what has happened so far, the latest first. -/
structure Input where
  keys : Keys
  timers : List KeyTimer
  phase : KeyPhase
  enableReboot : Bool
  history : List KeyEvent
  checks : List Check

/-- `ProcessKey` up to the call of `CheckKey`. -/
def Input.processKey (s : Input) (keyCode updown : Int) : Input :=
  let (keys, timer, registered) := s.keys.processKey keyCode updown
  { s with
    keys
    timers := s.timers ++ timer.toList
    phase := match registered with
      | some longPress => .registered keyCode longPress s.enableReboot
      | none => .idle
    history := (if updown ≠ 0 then .down keyCode else .up keyCode) :: s.history }

/-- The rest of it. -/
def Input.checkKey (s : Input) (d : Device) (r : Reads) (key : Int)
    (longPress rebootEnabled : Bool) : Input :=
  let (action, queued, keys) := s.keys.checkKey d r key longPress
  { s with
    keys
    phase := if action = .reboot ∧ rebootEnabled then .rebooted else .idle
    checks :=
      ⟨key, longPress, rebootEnabled, r, (s.keys.checkChord d r key longPress).isSome, action,
        queued⟩ :: s.checks }

/-- The steps of the threads. -/
inductive Input.Step (d : Device) (s : Input) : Input → Prop
  /-- The input thread sees a key. -/
  | key (keyCode updown : Int) : s.phase = .idle → 0 ≤ keyCode → keyCode ≤ KEY_MAX →
    Step d s (s.processKey keyCode updown)
  /-- A timer has slept. -/
  | time (timer : KeyTimer) : timer ∈ s.timers → Step d s { s with
      keys := s.keys.timeKey timer
      timers := s.timers.erase timer
      history := .timer timer.count :: s.history }
  /-- `CheckKey` begins. -/
  | clear : s.phase = .registered key longPress rebootEnabled →
    Step d s { s with
      keys := { s.keys with keyLongPress := false }
      phase := .checking key longPress rebootEnabled }
  /-- It goes on, and the action is done. -/
  | check (r : Reads) : s.phase = .checking key longPress rebootEnabled →
    r.enableReboot = s.enableReboot → Step d s (s.checkKey d r key longPress rebootEnabled)
  /-- `SetEnableReboot` -/
  | setEnableReboot (enabled : Bool) : Step d s { s with enableReboot := enabled }

/-- The keys of a device from the start of recovery on. -/
def inputs (d : Device) : System Input where
  init s := s = ⟨.init, [], .idle, true, [], []⟩
  step := Input.Step d

/-- The key that is registered but not yet checked. -/
def KeyPhase.pending : KeyPhase → List (Int × Bool)
  | .registered key longPress _ | .checking key longPress _ => [(key, longPress)]
  | _ => []

/-! ## Registered keys -/

def KeyEvent.isTimer : KeyEvent → Bool
  | .timer _ => true
  | _ => false

def KeyEvent.isDown : KeyEvent → Bool
  | .down _ => true
  | _ => false

/-- The number of presses. -/
def presses (history : List KeyEvent) : Nat := history.countP KeyEvent.isDown

/-- The press that no other press or release has followed, and whether its timer has. -/
def heldKey (history : List KeyEvent) : Option (Int × Bool) :=
  match history.dropWhile KeyEvent.isTimer with
  | .down key :: _ =>
    some (key, (history.takeWhile KeyEvent.isTimer).contains (.timer (presses history)))
  | _ => none

/-- The keys that are registered, the latest first: the releases of a press that nothing but timers
has followed, with whether its own was among them. -/
def registeredKeys : List KeyEvent → List (Int × Bool)
  | [] => []
  | .up key :: history =>
    ((heldKey history).filter fun held => held.1 = key).toList ++ registeredKeys history
  | _ :: history => registeredKeys history

section

variable {d : Device} {s s' : Input} {history : List KeyEvent}

theorem presses_timer (count : Nat) (history : List KeyEvent) :
    presses (.timer count :: history) = presses history := rfl

theorem heldKey_timer (count : Nat) (history : List KeyEvent) :
    heldKey (.timer count :: history) =
      (heldKey history).map fun held => (held.1, held.2 || decide (count = presses history)) := by
  have htake : (KeyEvent.timer count :: history).takeWhile KeyEvent.isTimer =
      .timer count :: history.takeWhile KeyEvent.isTimer := rfl
  have hdrop : (KeyEvent.timer count :: history).dropWhile KeyEvent.isTimer =
      history.dropWhile KeyEvent.isTimer := rfl
  unfold heldKey
  rw [htake, hdrop, presses_timer]
  cases history.dropWhile KeyEvent.isTimer with
  | nil => rfl
  | cons event rest =>
    cases event with
    | down key =>
      have hbeq :
          (KeyEvent.timer (presses history) == KeyEvent.timer count) =
          decide (count = presses history) := by
        rw [Bool.eq_iff_iff, beq_iff_eq, decide_eq_true_iff, KeyEvent.timer.injEq, eq_comm]
      simp only [Option.map_some, List.contains_cons, hbeq, Bool.or_comm]
    | up key => rfl
    | timer n => rfl

/-- What the keys say of the past. -/
structure Input.Inv (s : Input) : Prop where
  count : s.keys.keyDownCount = presses s.history
  held : ∀ key longPress, heldKey s.history = some (key, longPress) →
    0 ≤ key ∧ s.keys.keyLastDown = key ∧ s.keys.keyLongPress = longPress
  released : heldKey s.history = none → s.keys.keyLastDown = -1
  timers : ∀ timer ∈ s.timers, 0 ≤ timer.keyCode ∧ timer.count ≤ presses s.history ∧
    (timer.count = presses s.history → ∀ held, heldKey s.history = some held →
      held.1 = timer.keyCode)
  pending : s.phase.pending ≠ [] → heldKey s.history = none
  registered :
    s.phase.pending ++ s.checks.map (fun c => (c.key, c.longPress)) = registeredKeys s.history

theorem Input.Inv.press (h : s.Inv) (hphase : s.phase = .idle) (hkey : 0 ≤ keyCode)
    (hdown : updown ≠ 0) : (s.processKey keyCode updown).Inv := by
  have hs : s.processKey keyCode updown = { s with
      keys := (s.keys.processKey keyCode updown).1
      timers := s.timers ++ [⟨keyCode, s.keys.keyDownCount + 1⟩]
      phase := .idle
      history := .down keyCode :: s.history } := by
    simp [Input.processKey, Keys.processKey, hdown]
  have hkeys : (s.keys.processKey keyCode updown).1.keyDownCount = s.keys.keyDownCount + 1 ∧
      (s.keys.processKey keyCode updown).1.keyLastDown = keyCode ∧
      (s.keys.processKey keyCode updown).1.keyLongPress = false := by
    simp [Keys.processKey, hdown]
  have hpresses : presses (.down keyCode :: s.history) = presses s.history + 1 :=
    List.countP_cons_of_pos rfl
  rw [hs]
  refine ⟨?_, ?_, ?_, ?_, ?_, ?_⟩
  · exact hkeys.1.trans (by rw [hpresses, h.count])
  · intro key longPress hheld
    cases hheld
    exact ⟨hkey, hkeys.2.1, hkeys.2.2⟩
  · intro hheld
    cases hheld
  · intro timer hmem
    dsimp only
    rw [hpresses]
    rcases List.mem_append.mp hmem with hmem | hmem
    · obtain ⟨hcode, hle, _⟩ := h.timers timer hmem
      exact ⟨hcode, by omega, fun heq => by omega⟩
    · obtain rfl := List.mem_singleton.mp hmem
      refine ⟨hkey, by rw [h.count], fun _ held hheld => ?_⟩
      cases hheld
      rfl
  · intro hne
    exact absurd rfl hne
  · have hreg := h.registered
    rw [hphase] at hreg
    exact hreg

theorem Input.Inv.filter_held (h : s.Inv) (hkey : 0 ≤ keyCode) :
    (heldKey s.history).filter (fun held => held.1 = keyCode) =
      if s.keys.keyLastDown = keyCode then some (keyCode, s.keys.keyLongPress) else none := by
  cases hheld : heldKey s.history with
  | none =>
    have hlast := h.released hheld
    rw [if_neg (by omega)]
    rfl
  | some held =>
    obtain ⟨_, hlast, hlong⟩ := h.held held.1 held.2 hheld
    rw [hlast, hlong]
    by_cases heq : held.1 = keyCode
    · rw [if_pos heq, ← heq]
      simp
    · rw [if_neg heq]
      simp [heq]

theorem Input.Inv.release (h : s.Inv) (hphase : s.phase = .idle) (hkey : 0 ≤ keyCode) :
    (s.processKey keyCode 0).Inv := by
  have hpresses : presses (.up keyCode :: s.history) = presses s.history := rfl
  have hfilter := h.filter_held hkey
  have hreg := h.registered
  rw [hphase] at hreg
  have hkeys : (s.processKey keyCode 0).keys.keyDownCount = s.keys.keyDownCount ∧
      (s.processKey keyCode 0).keys.keyLastDown = -1 := ⟨rfl, rfl⟩
  refine ⟨?_, ?_, ?_, ?_, ?_, ?_⟩
  · exact hkeys.1.trans h.count
  · intro key longPress hheld
    cases hheld
  · exact fun _ => hkeys.2
  · intro timer hmem
    obtain ⟨hcode, hle, _⟩ :=
      h.timers timer (by simpa [Input.processKey, Keys.processKey] using hmem)
    refine ⟨hcode, hle, fun _ held hheld => ?_⟩
    cases hheld
  · exact fun _ => rfl
  · have hup : registeredKeys (s.processKey keyCode 0).history =
        ((heldKey s.history).filter fun held => held.1 = keyCode).toList ++
        registeredKeys s.history := rfl
    rw [hup, hfilter, ← hreg]
    by_cases hlast : s.keys.keyLastDown = keyCode
    · simp [Input.processKey, Keys.processKey, hlast, KeyPhase.pending]
    · simp [Input.processKey, Keys.processKey, hlast, KeyPhase.pending]

theorem Input.Inv.time (h : s.Inv) (hmem : timer ∈ s.timers) :
    Input.Inv { s with
      keys := s.keys.timeKey timer
      timers := s.timers.erase timer
      history := .timer timer.count :: s.history } := by
  obtain ⟨hcode, hle, hsame⟩ := h.timers timer hmem
  have hkeys : (s.keys.timeKey timer).keyDownCount = s.keys.keyDownCount ∧
      (s.keys.timeKey timer).keyLastDown = s.keys.keyLastDown := by
    unfold Keys.timeKey
    split <;> exact ⟨rfl, rfl⟩
  refine ⟨hkeys.1.trans h.count, ?_, ?_, ?_, ?_, h.registered⟩
  · intro key longPress hheld
    dsimp only at hheld
    rw [heldKey_timer] at hheld
    obtain ⟨⟨key, longPress⟩, hpress, heq⟩ := Option.map_eq_some_iff.mp hheld
    cases heq
    obtain ⟨hkey, hlast, hlong⟩ := h.held key longPress hpress
    refine ⟨hkey, hkeys.2.trans hlast, ?_⟩
    dsimp only
    by_cases hcount : timer.count = presses s.history
    · -- it is the timer of that press
      have hcode : key = timer.keyCode := hsame hcount _ hpress
      rw [Keys.timeKey, if_pos ⟨hlast.trans hcode, h.count.trans hcount.symm⟩,
        decide_eq_true hcount, Bool.or_true]
    · rw [Keys.timeKey, if_neg fun h' => hcount (h'.2.symm.trans h.count), decide_eq_false hcount,
        Bool.or_false, hlong]
  · intro hheld
    dsimp only at hheld
    rw [heldKey_timer, Option.map_eq_none_iff] at hheld
    exact hkeys.2.trans (h.released hheld)
  · intro timer' hmem'
    obtain ⟨hcode', hle', hsame'⟩ := h.timers timer' (List.mem_of_mem_erase hmem')
    refine ⟨hcode', hle', fun hcount held hheld => ?_⟩
    dsimp only at hheld
    rw [heldKey_timer] at hheld
    obtain ⟨held', hheld', heq⟩ := Option.map_eq_some_iff.mp hheld
    rw [← heq]
    exact hsame' hcount held' hheld'
  · intro hne
    dsimp only
    rw [heldKey_timer, h.pending hne]
    rfl

theorem Input.Inv.clear (h : s.Inv) (hphase : s.phase = .registered key longPress rebootEnabled) :
    Input.Inv { s with
      keys := { s.keys with keyLongPress := false }
      phase := .checking key longPress rebootEnabled } := by
  have hnone : heldKey s.history = none := h.pending (by rw [hphase]; exact List.cons_ne_nil _ _)
  refine ⟨h.count, ?_, h.released, h.timers, fun _ => hnone, ?_⟩
  · intro key longPress hheld
    rw [hnone] at hheld
    cases hheld
  · have hreg := h.registered
    rw [hphase] at hreg
    exact hreg

theorem Keys.checkKey_snd (k : Keys) (d : Device) (r : Reads) (key : Int) (longPress : Bool) :
    (k.checkKey d r key longPress).2.2.keyDownCount = k.keyDownCount ∧
      (k.checkKey d r key longPress).2.2.keyLastDown = k.keyLastDown ∧
      (k.checkKey d r key longPress).2.2.keyLongPress = k.keyLongPress := by
  unfold checkKey
  split
  · exact ⟨rfl, rfl, rfl⟩
  · unfold checkPower
    split <;> exact ⟨rfl, rfl, rfl⟩

theorem Input.Inv.check (h : s.Inv) (hphase : s.phase = .checking key longPress rebootEnabled)
    (r : Reads) : (s.checkKey d r key longPress rebootEnabled).Inv := by
  obtain ⟨hcount, hlast, hlong⟩ := s.keys.checkKey_snd d r key longPress
  have hpending : (s.checkKey d r key longPress rebootEnabled).phase.pending = [] := by
    unfold Input.checkKey
    dsimp only
    split <;> rfl
  refine ⟨hcount.trans h.count, ?_, fun hheld => hlast.trans (h.released hheld), h.timers, ?_, ?_⟩
  · intro key longPress hheld
    obtain ⟨hkey, hlast', hlong'⟩ := h.held key longPress hheld
    exact ⟨hkey, hlast.trans hlast', hlong.trans hlong'⟩
  · intro hne
    exact absurd hpending hne
  · rw [hpending]
    have hreg := h.registered
    rw [hphase] at hreg
    exact hreg

theorem inputs_inductive : (inputs d).Inductive Input.Inv where
  init s h := by
    rw [h]
    exact ⟨rfl, nofun, fun _ => rfl, nofun, fun hne => absurd rfl hne, rfl⟩
  step s s' h hs := by
    cases hs with
    | key keyCode updown hphase hkey _ =>
      by_cases hdown : updown = 0
      · rw [hdown]
        exact h.release hphase hkey
      · exact h.press hphase hkey hdown
    | time timer hmem => exact h.time hmem
    | clear hphase => exact h.clear hphase
    | check r hphase _ => exact h.check hphase r
    | setEnableReboot enabled => exact { h with }

/-- In every order of the threads, `CheckKey` is called for the registered keys, with the long
presses. -/
theorem keys_registered (h : (inputs d).Reach s) :
    s.phase.pending ++ s.checks.map (fun c => (c.key, c.longPress)) = registeredKeys s.history :=
  (inputs_inductive.reach h).registered

/-- A device with three buttons. -/
def threeButtons : Device := ⟨true, true, true, false, true⟩

/-- The power key is held until its timer has slept. -/
theorem keys_registered_longPress : ∃ s, (inputs threeButtons).Reach s ∧
    registeredKeys s.history = [(KEY_POWER, true)] ∧
    s.phase.pending ++ s.checks.map (fun c => (c.key, c.longPress)) = registeredKeys s.history := by
  have hreach : (inputs threeButtons).Reach ⟨.init, [], .idle, true, [], []⟩ := .init rfl
  have hreach := hreach.step (.key KEY_POWER 1 rfl (by decide) (by decide))
  have hreach := hreach.step (.time ⟨KEY_POWER, 1⟩ List.mem_cons_self)
  have hreach := hreach.step (.key KEY_POWER 0 rfl (by decide) (by decide))
  exact ⟨_, hreach, rfl, keys_registered hreach⟩

end

/-! ## Power keys in a row -/

/-- A power key that `CheckKey` has counted. -/
def Check.counts (c : Check) : Bool := !c.chord && c.key = KEY_POWER && c.reads.enableReboot

/-- Another key, which has ended the row. Chords and long presses of other keys do not. -/
def Check.ends (c : Check) : Bool := !c.chord && c.key ≠ KEY_POWER

/-- The power keys in a row. -/
def powerRun (checks : List Check) : Nat := (checks.takeWhile fun c => !c.ends).countP Check.counts

/-- The latest key is a power key, at least the seventh in a row, and reboots were enabled when it
was released and when it was checked. -/
def Reboots : List Check → Prop
  | [] => False
  | c :: checks => c.counts ∧ c.rebootEnabled ∧ 7 ≤ powerRun (c :: checks)

section

variable {d : Device} {s s' : Input}

theorem powerRun_cons (c : Check) (checks : List Check) :
    powerRun (c :: checks) = if c.ends then 0 else powerRun checks + if c.counts then 1 else 0 := by
  unfold powerRun
  rw [List.takeWhile_cons]
  by_cases h : c.ends = true
  · rw [if_pos h, if_neg (by simp [h])]
    rfl
  · rw [if_neg h, if_pos (by simpa using h), List.countP_cons]

/-- What `consecutive_power_keys` says of the past. -/
structure Input.PowerInv (s : Input) : Prop where
  count : s.keys.consecutivePowerKeys = powerRun s.checks
  rebooted : s.phase = .rebooted ↔ Reboots s.checks

theorem Keys.processKey_fst_consecutivePowerKeys (k : Keys) (keyCode updown : Int) :
    (k.processKey keyCode updown).1.consecutivePowerKeys = k.consecutivePowerKeys := by
  unfold processKey
  dsimp only
  split <;> rfl

theorem Keys.checkPower_fst_eq_reboot {k : Keys} {r : Reads} {key : Int} :
    (k.checkPower r key).1 = .reboot ↔
    key = KEY_POWER ∧ r.enableReboot ∧ 7 ≤ k.countPower r key := by
  unfold checkPower
  split
  · exact iff_of_true rfl ‹_›
  · refine iff_of_false ?_ ‹_›
    dsimp only
    split <;> decide

theorem Input.PowerInv.check (h : s.PowerInv) (r : Reads) (key : Int)
    (longPress rebootEnabled : Bool) : (s.checkKey d r key longPress rebootEnabled).PowerInv := by
  unfold Input.checkKey Keys.checkKey
  cases hchord : s.keys.checkChord d r key longPress with
  | some result =>
    -- a chord or a long press
    have hne : result.1 ≠ .reboot := by
      unfold Keys.checkChord at hchord
      split_ifs at hchord <;> cases hchord <;> decide
    have hrun : ∀ c : Check, c.chord = true → powerRun (c :: s.checks) = powerRun s.checks ∧
        ¬Reboots (c :: s.checks) := by
      intro c hc
      rw [powerRun_cons, Reboots, Check.ends, Check.counts, hc]
      simp
    obtain ⟨hpower, hnot⟩ := hrun ⟨key, longPress, rebootEnabled, r, true, result.1, result.2⟩ rfl
    refine ⟨h.count.trans hpower.symm, ?_⟩
    dsimp only
    rw [if_neg fun hr => hne hr.1]
    exact iff_of_false (fun hp => nomatch hp) hnot
  | none =>
    have hcount : s.keys.countPower r key =
        powerRun (⟨key, longPress, rebootEnabled, r, false, (s.keys.checkPower r key).1, []⟩ ::
          s.checks) := by
      rw [powerRun_cons, Keys.countPower, Check.ends, Check.counts, h.count]
      by_cases hkey : key = KEY_POWER
      · cases hr : r.enableReboot <;> simp [hkey]
      · simp [hkey]
    refine ⟨?_, ?_⟩
    · refine Eq.trans ?_ hcount
      dsimp only
      unfold Keys.checkPower
      split <;> rfl
    · dsimp only [Option.isSome_none]
      rw [Reboots, ← hcount, Check.counts]
      simp only [Keys.checkPower_fst_eq_reboot]
      by_cases hreboot : (key = KEY_POWER ∧ r.enableReboot ∧ 7 ≤ s.keys.countPower r key) ∧
        rebootEnabled
      · rw [if_pos hreboot]
        exact iff_of_true rfl ⟨by simp [hreboot.1.1, hreboot.1.2.1], hreboot.2, hreboot.1.2.2⟩
      · rw [if_neg hreboot]
        refine iff_of_false nofun fun hr => hreboot ?_
        simp only [Bool.not_false, Bool.true_and, Bool.and_eq_true, decide_eq_true_eq] at hr
        exact ⟨⟨hr.1.1, hr.1.2, hr.2.2⟩, hr.2.1⟩

theorem inputs_powerInv : (inputs d).Inductive Input.PowerInv where
  init s h := by
    rw [h]
    exact ⟨rfl, iff_of_false nofun id⟩
  step s s' h hs := by
    cases hs with
    | key keyCode updown hphase _ _ =>
      refine ⟨?_, iff_of_false ?_ fun hr => ?_⟩
      · exact (s.keys.processKey_fst_consecutivePowerKeys keyCode updown).trans h.count
      · unfold Input.processKey
        dsimp only
        split <;> exact nofun
      · have hp := h.rebooted.mpr hr
        rw [hphase] at hp
        cases hp
    | time timer hmem =>
      refine ⟨?_, h.rebooted⟩
      refine Eq.trans ?_ h.count
      dsimp only
      unfold Keys.timeKey
      split <;> rfl
    | clear hphase =>
      refine ⟨h.count, iff_of_false nofun fun hr => ?_⟩
      have hp := h.rebooted.mpr hr
      rw [hphase] at hp
      cases hp
    | check r hphase _ => exact h.check r ..
    | setEnableReboot enabled => exact { h with }

/-- The device reboots at the seventh power key in a row, and only then. -/
theorem keys_rebooted_iff (h : (inputs d).Reach s) : s.phase = .rebooted ↔ Reboots s.checks :=
  (inputs_powerInv.reach h).rebooted

/-- The power key is pressed and released, and reboots are enabled. -/
def Input.powerKey (d : Device) (s : Input) : Input :=
  let s := (s.processKey KEY_POWER 1).processKey KEY_POWER 0
  Input.checkKey
    { s with
      keys := { s.keys with keyLongPress := false }
      phase := .checking KEY_POWER false s.enableReboot }
    d ⟨false, false, false, false, s.enableReboot⟩ KEY_POWER false s.enableReboot

theorem reach_powerKey (h : (inputs d).Reach s) (hphase : s.phase = .idle) :
    (inputs d).Reach (s.powerKey d) := by
  have hdown := h.step (.key KEY_POWER 1 hphase (by decide) (by decide))
  have hup := hdown.step (.key KEY_POWER 0 rfl (by decide) (by decide))
  exact (hup.step (.clear rfl)).step (.check _ rfl rfl)

/-- The power key seven times. -/
theorem keys_rebooted_iff_seven : ∃ s, (inputs threeButtons).Reach s ∧ s.phase = .rebooted ∧
    (s.phase = .rebooted ↔ Reboots s.checks) := by
  have hreach : (inputs threeButtons).Reach ⟨.init, [], .idle, true, [], []⟩ := .init rfl
  have hreach := reach_powerKey (reach_powerKey (reach_powerKey hreach rfl) rfl) rfl
  have hreach :=
    reach_powerKey (reach_powerKey (reach_powerKey (reach_powerKey hreach rfl) rfl) rfl) rfl
  exact ⟨_, hreach, rfl, keys_rebooted_iff hreach⟩

end

end BootableRecovery.RecoveryUI
