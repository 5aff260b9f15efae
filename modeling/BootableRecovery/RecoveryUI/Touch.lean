import BootableRecovery.RecoveryUI.EventQueue

/-!
# Touch events

`OnInputEvent` of `ui.cpp` with `OnTouchPress`, `OnTouchTrack` and `OnTouchRelease`, one event of an
input device after the other. What they do to the rest of the program is the list of their calls.
-/

namespace BootableRecovery.RecoveryUI

/-! ## Input devices -/

/-- `input_event` -/
structure DeviceEvent where
  type : Nat
  code : Nat
  value : Int
  deriving DecidableEq

def EV_SYN : Nat := 0x00
def EV_KEY : Nat := 0x01
def EV_REL : Nat := 0x02
def EV_ABS : Nat := 0x03

def SYN_REPORT : Nat := 0
def REL_Y : Nat := 0x01
def ABS_MT_SLOT : Nat := 0x2f
def ABS_MT_POSITION_X : Nat := 0x35
def ABS_MT_POSITION_Y : Nat := 0x36
def ABS_MT_TRACKING_ID : Nat := 0x39
def BTN_TOOL_FINGER : Nat := 0x145
def BTN_TOUCH : Nat := 0x14a
def KEY_MAX : Nat := 0x2ff

def KEY_UP : Int := 103
def KEY_DOWN : Int := 108
def KEY_POWER : Int := 116
def KEY_BACK : Int := 158
def KEY_SCROLLUP : Int := 177
def KEY_SCROLLDOWN : Int := 178

/-! ## The screen -/

/-- `vkey_t` -/
structure VKey where
  keycode : Int
  min : Point
  max : Point

def VKey.Inside (vk : VKey) (p : Point) : Prop :=
  vk.min.x ≤ p.x ∧ p.x < vk.max.x ∧ vk.min.y ≤ p.y ∧ p.y < vk.max.y

instance (vk : VKey) (p : Point) : Decidable (vk.Inside p) := inferInstanceAs (Decidable (_ ∧ _))

/-- The touch screen, and what does not change once it is known. -/
structure Panel where
  touchScreenAllowed : Bool
  fbWidth : Int
  fbHeight : Int
  touchMin : Point
  touchMax : Point
  kTouchLowThreshold : Nat
  kTouchHighThreshold : Nat
  menuItemHeight : Nat
  menuItemHeight_pos : 0 < menuItemHeight
  virtualKeys : List VKey
  isBootreasonRecoveryUi : Bool

/-- What is on the screen. -/
structure Shown where
  menuShowing : Bool
  menuScrollable : Bool
  textVisible : Bool

/-! ## Touches -/

/-- The calls of an event. -/
inductive Output
  | touchPress
  | touchRelease
  | showText
  | processKey (keyCode updown : Int)
  | enqueueTouch (pos : Point)
  deriving DecidableEq

/-- A key is pressed and released. -/
def pressKey (keyCode : Int) : List Output := [.processKey keyCode 1, .processKey keyCode 0]

/-- `touch_pos_`, `touch_start_`, `touch_track_` and `has_swiped_`. -/
structure Touch where
  pos : Point
  start : Point
  track : Point
  hasSwiped : Bool
  deriving DecidableEq

def onTouchPress (t : Touch) : Touch := { t with start := t.pos, track := t.pos }

variable (panel : Panel) (shown : Shown)

def Panel.kSwipeThresh : Nat := panel.menuItemHeight / 30

def onTouchTrack (t : Touch) : Touch × List Output :=
  if t.pos.y ≤ panel.fbHeight ∧ shown.menuShowing ∧ shown.menuScrollable then
    let dy := t.pos.y - t.track.y
    if panel.menuItemHeight ≤ dy.natAbs then
      ({ t with track.y := t.track.y + dy.sign * panel.menuItemHeight, hasSwiped := true },
        pressKey (if dy < 0 then KEY_SCROLLDOWN else KEY_SCROLLUP))
    else ({ t with hasSwiped := t.hasSwiped || panel.kSwipeThresh < dy.natAbs }, [])
  else (t, [])

def onTouchRelease (t : Touch) : Touch × List Output :=
  if panel.isBootreasonRecoveryUi ∧ ¬shown.textVisible then (t, [.showText])
  else if panel.fbHeight < t.start.y ∧ panel.fbHeight < t.pos.y then
    (t, (panel.virtualKeys.filter fun vk => vk.Inside t.start ∧ vk.Inside t.pos).flatMap
      (pressKey ·.keycode))
  else if t.hasSwiped then ({ t with hasSwiped := false }, [])
  else
    let deltaX := t.pos.x - t.start.x
    let deltaY := t.pos.y - t.start.y
    if deltaY.natAbs < panel.kTouchLowThreshold ∧ panel.kTouchHighThreshold < deltaX.natAbs then
      (t, pressKey (if deltaX < 0 then KEY_BACK else KEY_POWER))
    else (t, [.enqueueTouch t.pos])

/-! ## Events -/

/-- The variables of `OnInputEvent`. -/
structure TouchState where
  slot : Int
  fingerDown : Bool
  sawX : Bool
  sawY : Bool
  reported : Bool
  touch : Touch
  relSum : Int
  deriving DecidableEq

def TouchState.init : TouchState :=
  ⟨0, false, false, false, false, ⟨⟨0, 0⟩, ⟨0, 0⟩, ⟨0, 0⟩, false⟩, 0⟩

/-- `SYN_REPORT` -/
def onSynReport (s : TouchState) : TouchState × List Output :=
  if ¬s.reported ∧ s.fingerDown then
    if s.sawX ∧ s.sawY then
      ({ s with touch := onTouchPress s.touch, reported := true, sawX := false, sawY := false },
        [.touchPress])
    else (s, [])
  else if s.reported ∧ ¬s.fingerDown then
    ({ s with
        touch := (onTouchRelease panel shown s.touch).1, reported := false
        sawX := false, sawY := false },
      .touchRelease :: (onTouchRelease panel shown s.touch).2)
  else (s, [])

/-- The motion of a trackball. -/
def onRel (ev : DeviceEvent) (s : TouchState) : TouchState × List Output :=
  if ev.type = EV_REL then
    if ev.code = REL_Y then
      let sum := s.relSum + ev.value
      if 3 < sum then ({ s with relSum := 0 }, pressKey KEY_DOWN)
      else if sum < -3 then ({ s with relSum := 0 }, pressKey KEY_UP)
      else ({ s with relSum := sum }, [])
    else (s, [])
  else ({ s with relSum := 0 }, [])

def Panel.scaleX (value : Int) : Int :=
  (value * panel.fbWidth).tdiv (panel.touchMax.x - panel.touchMin.x)

def Panel.scaleY (value : Int) : Int :=
  (value * panel.fbHeight).tdiv (panel.touchMax.y - panel.touchMin.y)

/-- The end of `ABS_MT_POSITION_X` and `ABS_MT_POSITION_Y`, where the other coordinate may have been
seen. -/
def trackIf (sawOther : Bool) (s : TouchState) : TouchState × List Output :=
  if s.reported ∧ sawOther then
    ({ s with touch := (onTouchTrack panel shown s.touch).1, sawX := false, sawY := false },
      (onTouchTrack panel shown s.touch).2)
  else (s, [])

def onAbs (ev : DeviceEvent) (s : TouchState) : TouchState × List Output :=
  let s := if ev.code = ABS_MT_SLOT then { s with slot := ev.value } else s
  if 0 < s.slot then (s, [])
  else if ev.code = ABS_MT_POSITION_X then
    trackIf panel shown s.sawY
      { s with fingerDown := true, sawX := true, touch.pos.x := panel.scaleX ev.value }
  else if ev.code = ABS_MT_POSITION_Y then
    trackIf panel shown s.sawX
      { s with fingerDown := true, sawY := true, touch.pos.y := panel.scaleY ev.value }
  else if ev.code = ABS_MT_TRACKING_ID
    then (if ev.value < 0 then { s with fingerDown := false } else s, [])
  else (s, [])

def onKey (ev : DeviceEvent) (s : TouchState) : TouchState × List Output :=
  if panel.touchScreenAllowed ∧ ev.code = BTN_TOUCH then ({ s with fingerDown := ev.value = 1 }, [])
  else if panel.touchScreenAllowed ∧ ev.code = BTN_TOOL_FINGER then (s, [])
  else (s, [.processKey ev.code ev.value])

def onInputEvent (ev : DeviceEvent) (s : TouchState) : TouchState × List Output :=
  if ev.type = EV_SYN then
    if panel.touchScreenAllowed ∧ ev.code = SYN_REPORT then onSynReport panel shown s else (s, [])
  else if panel.touchScreenAllowed ∧ ev.type = EV_ABS then onAbs panel shown ev (onRel ev s).1
  else if ev.type = EV_KEY ∧ ev.code ≤ KEY_MAX then onKey panel ev (onRel ev s).1
  else onRel ev s

/-- Some events, each with what the screen shows then. -/
def run : List (Shown × DeviceEvent) → TouchState → TouchState × List Output
  | [], s => (s, [])
  | (shown, ev) :: evs, s =>
    let r := onInputEvent panel shown ev s
    ((run evs r.1).1, r.2 ++ (run evs r.1).2)

section
variable {panel} {shown}

theorem run_append (evs evs' : List (Shown × DeviceEvent)) (s : TouchState) :
    run panel (evs ++ evs') s =
      ((run panel evs' (run panel evs s).1).1,
        (run panel evs s).2 ++ (run panel evs' (run panel evs s).1).2) := by
  induction evs generalizing s with
  | nil => rfl
  | cons ev evs ih =>
    rw [List.cons_append, run, run, ih, List.append_assoc]

/-! ## Press and release -/

/-- Press and release take turns in a list of calls; the argument and the result say whether the
last one was a press. -/
def reports : Bool → List Output → Option Bool
  | reported, [] => some reported
  | reported, .touchPress :: outs => if reported then none else reports true outs
  | reported, .touchRelease :: outs => if reported then reports false outs else none
  | reported, _ :: outs => reports reported outs

theorem reports_append (reported : Bool) (outs outs' : List Output) :
    reports reported (outs ++ outs') = (reports reported outs).bind (reports · outs') := by
  induction outs generalizing reported with
  | nil => rfl
  | cons out outs ih => cases out <;> cases reported <;> simp [reports, ih]

/-- A call that is neither of the two. -/
def Output.Quiet : Output → Prop
  | .touchPress | .touchRelease => False
  | .showText | .processKey _ _ | .enqueueTouch _ => True

theorem reports_of_quiet (reported : Bool) {outs : List Output} (h : ∀ out ∈ outs, out.Quiet) :
    reports reported outs = some reported := by
  induction outs with
  | nil => rfl
  | cons out outs ih =>
    have hout := h out List.mem_cons_self
    have hrest := ih fun o ho => h o (List.mem_cons_of_mem _ ho)
    cases out with
    | touchPress => exact hout.elim
    | touchRelease => exact hout.elim
    | showText => exact hrest
    | processKey keyCode updown => exact hrest
    | enqueueTouch pos => exact hrest

theorem quiet_pressKey (keyCode : Int) : ∀ out ∈ pressKey keyCode, out.Quiet := by
  simp [pressKey, Output.Quiet]

theorem quiet_onTouchTrack (t : Touch) : ∀ out ∈ (onTouchTrack panel shown t).2, out.Quiet := by
  rw [onTouchTrack]
  split
  · dsimp only
    split
    · exact quiet_pressKey _
    · exact nofun
  · exact nofun

theorem quiet_onTouchRelease (t : Touch) : ∀ out ∈ (onTouchRelease panel shown t).2, out.Quiet := by
  rw [onTouchRelease]
  split
  · simp [Output.Quiet]
  · split
    · intro out hout
      obtain ⟨vk, -, hout⟩ := List.mem_flatMap.mp hout
      exact quiet_pressKey vk.keycode out hout
    · split
      · exact nofun
      · dsimp only
        split
        · exact quiet_pressKey _
        · simp [Output.Quiet]

/-- What an event calls begins in the state before it and ends in the state after it. -/
def Reports (s : TouchState) (r : TouchState × List Output) : Prop :=
  reports s.reported r.2 = some r.1.reported

theorem Reports.of_quiet {s : TouchState} {r : TouchState × List Output}
    (hsame : r.1.reported = s.reported) (h : ∀ out ∈ r.2, out.Quiet) : Reports s r := by
  rw [Reports, reports_of_quiet _ h, hsame]

theorem Reports.congr {s t : TouchState} {r : TouchState × List Output} (h : Reports t r)
    (hsame : t.reported = s.reported) : Reports s r := by
  rwa [Reports, ← hsame]

theorem reports_onSynReport (s : TouchState) : Reports s (onSynReport panel shown s) := by
  rw [onSynReport]
  split
  · rename_i h
    split
    · simp [Reports, reports, h.1]
    · exact .of_quiet rfl nofun
  · split
    · rename_i h
      rw [Reports, h.1, reports, if_pos rfl, reports_of_quiet _ (quiet_onTouchRelease s.touch)]
    · exact .of_quiet rfl nofun

theorem reports_onRel (ev : DeviceEvent) (s : TouchState) : Reports s (onRel ev s) := by
  rw [onRel]
  split
  · split
    · dsimp only
      split
      · exact .of_quiet rfl (quiet_pressKey _)
      · split
        · exact .of_quiet rfl (quiet_pressKey _)
        · exact .of_quiet rfl nofun
    · exact .of_quiet rfl nofun
  · exact .of_quiet rfl nofun

theorem reports_trackIf (sawOther : Bool) (s : TouchState) :
    Reports s (trackIf panel shown sawOther s) := by
  rw [trackIf]
  split
  · exact .of_quiet rfl (quiet_onTouchTrack s.touch)
  · exact .of_quiet rfl nofun

theorem onRel_fst_reported (ev : DeviceEvent) (s : TouchState) :
    (onRel ev s).1.reported = s.reported := by
  rw [onRel]
  split
  · split
    · dsimp only
      split
      · rfl
      · split <;> rfl
    · rfl
  · rfl

theorem reports_onAbs (ev : DeviceEvent) (s : TouchState) : Reports s (onAbs panel shown ev s) := by
  have hslot : (if ev.code = ABS_MT_SLOT then { s with slot := ev.value } else s).reported =
      s.reported := by
    split <;> rfl
  rw [onAbs]
  dsimp only
  generalize (if ev.code = ABS_MT_SLOT then { s with slot := ev.value } else s) = t at hslot ⊢
  refine Reports.congr ?_ hslot
  split
  · exact .of_quiet rfl nofun
  · split
    · exact (reports_trackIf t.sawY _).congr rfl
    · split
      · exact (reports_trackIf t.sawX _).congr rfl
      · split
        · exact .of_quiet (by dsimp only; split <;> rfl) nofun
        · exact .of_quiet rfl nofun

theorem reports_onKey (ev : DeviceEvent) (s : TouchState) : Reports s (onKey panel ev s) := by
  rw [onKey]
  split
  · exact .of_quiet rfl nofun
  · split
    · exact .of_quiet rfl nofun
    · exact .of_quiet rfl (by simp [Output.Quiet])

theorem reports_onInputEvent (ev : DeviceEvent) (s : TouchState) :
    Reports s (onInputEvent panel shown ev s) := by
  rw [onInputEvent]
  split
  · split
    · exact reports_onSynReport s
    · exact .of_quiet rfl nofun
  · split
    · exact (reports_onAbs ev _).congr (onRel_fst_reported ev s)
    · split
      · exact (reports_onKey ev _).congr (onRel_fst_reported ev s)
      · exact reports_onRel ev s

/-- Press and release are reported alternately, whatever the devices send. -/
theorem reports_run (evs : List (Shown × DeviceEvent)) (s : TouchState) :
    Reports s (run panel evs s) := by
  induction evs generalizing s with
  | nil => rfl
  | cons ev evs ih =>
    have hfirst := @reports_onInputEvent panel ev.1 ev.2 s
    rw [Reports] at hfirst
    rw [Reports, run, reports_append, hfirst]
    exact ih _

end

end BootableRecovery.RecoveryUI
