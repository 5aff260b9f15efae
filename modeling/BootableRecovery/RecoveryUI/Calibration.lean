import BootableRecovery.RecoveryUI.Touch
import Mathlib.Tactic.Ring

/-!
# Touch calibration

`CalibrateTouch` of `ui.cpp` and the position of a touch: the ranges of the axes are asked for once,
and the values of the events are scaled from them to the screen. An operation on ints that has no
result is a fault.
-/

namespace BootableRecovery.RecoveryUI

/-! ## The ranges of the axes -/

/-- `input_absinfo` -/
structure AbsInfo where
  minimum : Int
  maximum : Int

/-- What `ioctl` answers for `ABS_MT_POSITION_X` and `ABS_MT_POSITION_Y`, if it does not fail. -/
structure TouchDevice where
  absX : Option AbsInfo
  absY : Option AbsInfo

/-- `calibrated`, `touch_min_` and `touch_max_`. -/
structure Calibration where
  calibrated : Bool
  touchMin : Point
  touchMax : Point

def Calibration.init : Calibration := ⟨false, ⟨0, 0⟩, ⟨0, 0⟩⟩

def calibrateTouch (device : TouchDevice) (c : Calibration) : Calibration :=
  if c.calibrated then c
  else
    let c := match device.absX with
      | some info => { c with touchMin.x := info.minimum, touchMax.x := info.maximum }
      | none => c
    let c := match device.absY with
      | some info => { c with touchMin.y := info.minimum, touchMax.y := info.maximum }
      | none => c
    { c with calibrated := true }

/-! ## Positions -/

inductive ArithFault
  | overflow
  | divideByZero
  deriving DecidableEq

/-- An `int` with this value. -/
def toInt (v : Int) : Except ArithFault Int :=
  if -2 ^ 31 ≤ v ∧ v < 2 ^ 31 then pure v else throw .overflow

/-- `value * size / (max - min)` -/
def scale (size min max value : Int) : Except ArithFault Int := do
  let product ← toInt (value * size)
  let extent ← toInt (max - min)
  if extent = 0 then throw .divideByZero
  toInt (product.tdiv extent)

def Panel.calibrated (panel : Panel) (c : Calibration) : Panel :=
  { panel with touchMin := c.touchMin, touchMax := c.touchMax }

variable (panel : Panel) (device : TouchDevice)

/-- The divisions of `OnInputEvent`. -/
def checkPosition (c : Calibration) (ev : DeviceEvent) (s : TouchState) : Except ArithFault Unit :=
  let slot := if ev.code = ABS_MT_SLOT then ev.value else s.slot
  if 0 < slot then pure ()
  else if ev.code = ABS_MT_POSITION_X
    then discard (scale panel.fbWidth c.touchMin.x c.touchMax.x ev.value)
  else if ev.code = ABS_MT_POSITION_Y
    then discard (scale panel.fbHeight c.touchMin.y c.touchMax.y ev.value)
  else pure ()

/-- `OnInputEvent`, with the calibration of the device. -/
def onDeviceEvent (shown : Shown) (ev : DeviceEvent) (c : Calibration) (s : TouchState) :
    Except ArithFault (Calibration × TouchState × List Output) :=
  if panel.touchScreenAllowed ∧ ev.type = EV_ABS then do
    let c := calibrateTouch device c
    checkPosition panel c ev s
    pure (c, onInputEvent (panel.calibrated c) shown ev s)
  else pure (c, onInputEvent (panel.calibrated c) shown ev s)

/-- Some events of the device. -/
def runDevice : List (Shown × DeviceEvent) → Calibration → TouchState →
    Except ArithFault (Calibration × TouchState × List Output)
  | [], c, s => pure (c, s, [])
  | (shown, ev) :: evs, c, s => do
    let (c, s, outs) ← onDeviceEvent panel device shown ev c s
    let (c, s, outs') ← runDevice evs c s
    pure (c, s, outs ++ outs')

/-! ## What calibration is for -/

/-- The position for a value, without a limit for ints. -/
def position (size min max value : Int) : Int := (value * size).tdiv (max - min)

/-- The positions on an axis of a screen with `size` pixels, where the device reports `info` and
`min` and `max` are used. -/
structure AxisRight (size : Int) (info : Option AbsInfo) (min max : Int) : Prop where
  inside : ∀ i ∈ info, i.minimum < i.maximum → ∀ value, i.minimum ≤ value → value ≤ i.maximum →
    0 ≤ position size min max value ∧ position size min max value ≤ size
  monotone : ∀ i ∈ info, i.minimum < i.maximum → ∀ value value', i.minimum ≤ value →
    value ≤ value' → value' ≤ i.maximum → position size min max value ≤ position size min max value'
  first : ∀ i ∈ info, i.minimum < i.maximum → position size min max i.minimum = 0
  last : ∀ i ∈ info, i.minimum < i.maximum → position size min max i.maximum = size
  fits : ∀ i ∈ info, i.minimum < i.maximum → i.maximum - i.minimum < 2 ^ 15 → size < 2 ^ 15 →
    ∀ value, i.minimum ≤ value → value ≤ i.maximum →
    scale size min max value = .ok (position size min max value)

/-- Touches are calibrated: no run of events of the device divides by zero, and after any of its
events that has an axis the positions are right. -/
structure CalibrationRight : Prop where
  nonzero : ∀ evs, runDevice panel device evs .init .init ≠ .error .divideByZero
  x : ∀ n, let c := (calibrateTouch device)^[n + 1] .init
    AxisRight panel.fbWidth device.absX c.touchMin.x c.touchMax.x
  y : ∀ n, let c := (calibrateTouch device)^[n + 1] .init
    AxisRight panel.fbHeight device.absY c.touchMin.y c.touchMax.y

/-- The axis is reported with two different ends, and if they are in order, the smallest value is 0
or too small for a pixel. -/
def AxisGuard (size : Int) (info : Option AbsInfo) : Prop :=
  ∃ i, info = some i ∧ i.minimum ≠ i.maximum ∧
    (i.minimum < i.maximum → 0 ≤ i.minimum * size ∧ i.minimum * size < i.maximum - i.minimum)

section
variable {panel device} {size min max value : Int}

/-! ## Arithmetic -/

theorem toInt_of_fits {v : Int} (hle : -2 ^ 31 ≤ v) (hlt : v < 2 ^ 31) : toInt v = .ok v :=
  if_pos ⟨hle, hlt⟩

theorem toInt_ne_divideByZero (v : Int) : toInt v ≠ .error .divideByZero := by
  rw [toInt]
  split <;> exact nofun

theorem bind_eq_error {α β : Type} {x : Except ArithFault α} {f : α → Except ArithFault β}
    {fault : ArithFault} :
    x >>= f = .error fault ↔ x = .error fault ∨ ∃ a, x = .ok a ∧ f a = .error fault := by
  cases x with
  | error e =>
    exact ⟨fun h => .inl (congrArg _ (Except.error.inj h)),
      fun h => by simpa [bind, Except.bind] using h⟩
  | ok a => simp [bind, Except.bind]

theorem toInt_eq_ok {v w : Int} (h : toInt v = .ok w) : w = v := by
  rw [toInt] at h
  split at h <;> cases h
  rfl

theorem scale_ne_divideByZero (hne : min ≠ max) :
    scale size min max value ≠ .error .divideByZero := by
  intro h
  rcases bind_eq_error.mp h with h | ⟨product, -, h⟩
  · exact toInt_ne_divideByZero _ h
  · rcases bind_eq_error.mp h with h | ⟨extent, hextent, h⟩
    · exact toInt_ne_divideByZero _ h
    · have heq := toInt_eq_ok hextent
      have hzero : extent ≠ 0 := by omega
      simp only [hzero, if_false] at h
      exact toInt_ne_divideByZero _ h

theorem scale_zero : scale size min min 0 = .error .divideByZero := by
  rw [scale, Int.zero_mul, Int.sub_self]
  rfl

theorem scale_of_fits (hproduct : -2 ^ 31 ≤ value * size ∧ value * size < 2 ^ 31)
    (hextent : -2 ^ 31 ≤ max - min ∧ max - min < 2 ^ 31) (hne : min ≠ max)
    (hposition : -2 ^ 31 ≤ position size min max value ∧ position size min max value < 2 ^ 31) :
    scale size min max value = .ok (position size min max value) := by
  rw [scale, toInt_of_fits hproduct.1 hproduct.2, toInt_of_fits hextent.1 hextent.2]
  change (if max - min = 0 then throw .divideByZero
    else toInt ((value * size).tdiv (max - min))) = _
  rw [if_neg (by omega)]
  exact toInt_of_fits hposition.1 hposition.2

/-- The position of the largest value is behind that of a range from 0 by what the smallest one is
away from 0. -/
theorem max_mul_eq (size min max : Int) : max * size = min * size + size * (max - min) := by ring

theorem position_mono {value' : Int} (hsize : 0 ≤ size) (hlt : min < max) (hle : value ≤ value') :
    position size min max value ≤ position size min max value' :=
  Int.tdiv_le_tdiv (by omega) (Int.mul_le_mul_of_nonneg_right hle hsize)

theorem position_first (hle : 0 ≤ min * size) (hsmall : min * size < max - min) :
    position size min max min = 0 :=
  Int.tdiv_eq_zero_of_lt hle hsmall

theorem position_last_iff (hsize : 0 ≤ size) (hlt : min < max) :
    position size min max max = size ↔ 0 ≤ min * size ∧ min * size < max - min := by
  have hextent : 0 < max - min := by omega
  rw [position, max_mul_eq size min max]
  constructor
  · intro h
    rcases Int.lt_or_le (min * size + size * (max - min)) 0 with hneg | hnonneg
    · have hnonpos :=
        Int.tdiv_nonneg (Int.neg_nonneg_of_nonpos (Int.le_of_lt hneg)) (Int.le_of_lt hextent)
      rw [Int.neg_tdiv, h] at hnonpos
      obtain rfl : size = 0 := by omega
      omega
    · rw [Int.tdiv_eq_ediv_of_nonneg hnonneg, Int.add_mul_ediv_right _ _ (Int.ne_of_gt hextent)]
        at h
      have hzero : min * size / (max - min) = 0 := by omega
      have hmod := Int.mul_ediv_add_emod (min * size) (max - min)
      rw [hzero, Int.mul_zero, Int.zero_add] at hmod
      rw [← hmod]
      exact ⟨Int.emod_nonneg _ (Int.ne_of_gt hextent), Int.emod_lt_of_pos _ hextent⟩
  · rintro ⟨hle, hsmall⟩
    have hnonneg : 0 ≤ size * (max - min) := Int.mul_nonneg hsize (Int.le_of_lt hextent)
    rw [Int.tdiv_eq_ediv_of_nonneg (by omega), Int.add_mul_ediv_right _ _ (Int.ne_of_gt hextent),
      Int.ediv_eq_zero_of_lt hle hsmall, Int.zero_add]

/-! ## The axes -/

theorem axisRight_some_iff (hsize : 0 ≤ size) {info : AbsInfo} :
    AxisRight size (some info) info.minimum info.maximum ↔
      (info.minimum < info.maximum →
        0 ≤ info.minimum * size ∧ info.minimum * size < info.maximum - info.minimum) := by
  constructor
  · intro h hlt
    exact (position_last_iff hsize hlt).mp (h.last info rfl hlt)
  · intro h
    have hinside : info.minimum < info.maximum → ∀ value, info.minimum ≤ value →
        value ≤ info.maximum → 0 ≤ position size info.minimum info.maximum value ∧
        position size info.minimum info.maximum value ≤ size := by
      intro hlt value hmin hmax
      constructor
      · rw [← position_first (h hlt).1 (h hlt).2]
        exact position_mono hsize hlt hmin
      · exact (position_mono hsize hlt hmax).trans_eq ((position_last_iff hsize hlt).mpr (h hlt))
    refine ⟨?_, ?_, ?_, ?_, ?_⟩
    · rintro _ ⟨⟩ hlt value hmin hmax
      exact hinside hlt value hmin hmax
    · rintro _ ⟨⟩ hlt value value' - hle -
      exact position_mono hsize hlt hle
    · rintro _ ⟨⟩ hlt
      exact position_first (h hlt).1 (h hlt).2
    · rintro _ ⟨⟩ hlt
      exact (position_last_iff hsize hlt).mpr (h hlt)
    · rintro _ ⟨⟩ hlt hextent hsmall value hmin hmax
      obtain ⟨hpos, hpos'⟩ := hinside hlt value hmin hmax
      have hlow : info.minimum * size ≤ value * size := Int.mul_le_mul_of_nonneg_right hmin hsize
      have hhigh : value * size ≤ info.maximum * size := Int.mul_le_mul_of_nonneg_right hmax hsize
      have hproduct : size * (info.maximum - info.minimum) ≤ 2 ^ 15 * 2 ^ 15 :=
        Int.mul_le_mul (by omega) (by omega) (by omega) (by omega)
      rw [max_mul_eq size info.minimum info.maximum] at hhigh
      have := h hlt
      exact scale_of_fits (by omega) (by omega) (by omega) (by omega)

theorem AxisGuard.ne {info : Option AbsInfo} (h : AxisGuard size info) :
    (info.elim 0 AbsInfo.minimum) ≠ info.elim 0 AbsInfo.maximum := by
  obtain ⟨i, rfl, hne, -⟩ := h
  exact hne

/-! ## Calibrations -/

@[simp] theorem calibrated_calibrateTouch (c : Calibration) :
    (calibrateTouch device c).calibrated = true := by
  rw [calibrateTouch]
  split
  · assumption
  · rfl

@[simp] theorem calibrateTouch_calibrateTouch (c : Calibration) :
    calibrateTouch device (calibrateTouch device c) = calibrateTouch device c :=
  if_pos (calibrated_calibrateTouch c)

theorem calibrateTouch_iterate (n : Nat) (c : Calibration) :
    (calibrateTouch device)^[n + 1] c = calibrateTouch device c := by
  induction n with
  | zero => rfl
  | succ n ih => rw [Function.iterate_succ_apply', ih, calibrateTouch_calibrateTouch]

/-- The first event with an axis asks for the ranges; 0 stands for what is not answered. -/
theorem calibrateTouch_init : calibrateTouch device .init =
    ⟨true, ⟨device.absX.elim 0 AbsInfo.minimum, device.absY.elim 0 AbsInfo.minimum⟩,
      ⟨device.absX.elim 0 AbsInfo.maximum, device.absY.elim 0 AbsInfo.maximum⟩⟩ := by
  obtain ⟨absX, absY⟩ := device
  cases absX <;> cases absY <;> rfl

/-! ## Runs -/

theorem discard_eq_error {α : Type} {x : Except ArithFault α} {fault : ArithFault} :
    (discard x : Except ArithFault Unit) = .error fault ↔ x = .error fault := by
  cases x with
  | error e =>
    exact ⟨fun h => congrArg _ (Except.error.inj h), fun h => congrArg _ (Except.error.inj h)⟩
  | ok a => exact ⟨nofun, nofun⟩

theorem checkPosition_ne_divideByZero {c : Calibration} (hx : c.touchMin.x ≠ c.touchMax.x)
    (hy : c.touchMin.y ≠ c.touchMax.y) (ev : DeviceEvent) (s : TouchState) :
    checkPosition panel c ev s ≠ .error .divideByZero := by
  rw [checkPosition]
  generalize (if ev.code = ABS_MT_SLOT then ev.value else s.slot) = slot
  split
  · exact nofun
  · split
    · exact fun h => scale_ne_divideByZero hx (discard_eq_error.mp h)
    · split
      · exact fun h => scale_ne_divideByZero hy (discard_eq_error.mp h)
      · exact nofun

/-- What holds between two events of the device: it has not been asked, or its answers are there. -/
def Asked (device : TouchDevice) (c : Calibration) : Prop :=
  c = .init ∨ c = calibrateTouch device .init

theorem Asked.calibrateTouch {c : Calibration} (h : Asked device c) :
    calibrateTouch device c = calibrateTouch device .init := by
  rcases h with rfl | rfl
  · rfl
  · exact calibrateTouch_calibrateTouch _

/-- An event leaves the calibration as it was, or makes the one of the device. -/
theorem onDeviceEvent_spec {c : Calibration} (h : Asked device c)
    (hx : AxisGuard panel.fbWidth device.absX) (hy : AxisGuard panel.fbHeight device.absY)
    (shown : Shown) (ev : DeviceEvent) (s : TouchState) :
    onDeviceEvent panel device shown ev c s ≠ .error .divideByZero ∧
      ∀ r, onDeviceEvent panel device shown ev c s = .ok r → Asked device r.1 := by
  rw [onDeviceEvent]
  split
  · have hcheck :
        checkPosition panel (calibrateTouch device .init) ev s ≠ .error .divideByZero := by
      rw [calibrateTouch_init]
      exact checkPosition_ne_divideByZero hx.ne hy.ne ev s
    rw [h.calibrateTouch]
    constructor
    · intro herr
      rcases bind_eq_error.mp herr with herr | ⟨u, -, herr⟩
      · exact hcheck herr
      · cases herr
    · intro r hr
      cases hres : checkPosition panel (calibrateTouch device .init) ev s with
      | error fault =>
        simp only [hres] at hr
        cases hr
      | ok u =>
        simp only [hres] at hr
        cases hr
        exact .inr rfl
  · exact ⟨nofun, fun r hr => by cases hr; exact h⟩

theorem runDevice_ne_divideByZero {c : Calibration} (h : Asked device c)
    (hx : AxisGuard panel.fbWidth device.absX) (hy : AxisGuard panel.fbHeight device.absY)
    (evs : List (Shown × DeviceEvent)) (s : TouchState) :
    runDevice panel device evs c s ≠ .error .divideByZero := by
  induction evs generalizing c s with
  | nil => exact nofun
  | cons ev evs ih =>
    intro herr
    obtain ⟨hne, hasked⟩ := onDeviceEvent_spec h hx hy ev.1 ev.2 s
    rcases bind_eq_error.mp herr with herr | ⟨r, hr, herr⟩
    · exact hne herr
    · rcases bind_eq_error.mp herr with herr | ⟨r', -, herr⟩
      · exact ih (hasked r hr) r.2.1 herr
      · cases herr

/-- The first event of the device, with the value 0 for an axis whose ends are the same. -/
theorem runDevice_zero (hallowed : panel.touchScreenAllowed = true) (shown : Shown) {code : Nat}
    (hzero : checkPosition panel (calibrateTouch device .init) ⟨EV_ABS, code, 0⟩ .init =
      .error .divideByZero) :
      runDevice panel device [(shown, ⟨EV_ABS, code, 0⟩)] .init .init = .error .divideByZero := by
  have hstep :
      onDeviceEvent panel device shown ⟨EV_ABS, code, 0⟩ .init .init = .error .divideByZero := by
    rw [onDeviceEvent, if_pos ⟨hallowed, rfl⟩]
    exact bind_eq_error.mpr (.inl hzero)
  exact bind_eq_error.mpr (.inl hstep)

theorem touchMin_x_ne (hallowed : panel.touchScreenAllowed = true)
    (h : ∀ evs, runDevice panel device evs .init .init ≠ .error .divideByZero) :
    device.absX.elim 0 AbsInfo.minimum ≠ device.absX.elim 0 AbsInfo.maximum := by
  intro hsame
  refine h _ (@runDevice_zero panel device hallowed ⟨false, false, false⟩ ABS_MT_POSITION_X ?_)
  rw [calibrateTouch_init, hsame]
  exact discard_eq_error.mpr scale_zero

theorem touchMin_y_ne (hallowed : panel.touchScreenAllowed = true)
    (h : ∀ evs, runDevice panel device evs .init .init ≠ .error .divideByZero) :
    device.absY.elim 0 AbsInfo.minimum ≠ device.absY.elim 0 AbsInfo.maximum := by
  intro hsame
  refine h _ (@runDevice_zero panel device hallowed ⟨false, false, false⟩ ABS_MT_POSITION_Y ?_)
  rw [calibrateTouch_init, hsame]
  exact discard_eq_error.mpr scale_zero

theorem axisRight_iff (hsize : 0 ≤ size) {info : Option AbsInfo}
    (hne : info.elim 0 AbsInfo.minimum ≠ info.elim 0 AbsInfo.maximum) :
    AxisRight size info (info.elim 0 AbsInfo.minimum) (info.elim 0 AbsInfo.maximum) ↔
    AxisGuard size info := by
  cases info with
  | none => exact absurd rfl hne
  | some i =>
    constructor
    · exact fun h => ⟨i, rfl, hne, (axisRight_some_iff hsize).mp h⟩
    · rintro ⟨_, ⟨⟩, -, h⟩
      exact (axisRight_some_iff hsize).mpr h

/-- The calibration is right iff both axes are reported with ends that fit the screen. -/
theorem calibrationRight_iff (hallowed : panel.touchScreenAllowed = true)
    (hwidth : 0 ≤ panel.fbWidth) (hheight : 0 ≤ panel.fbHeight) :
    CalibrationRight panel device ↔
    AxisGuard panel.fbWidth device.absX ∧ AxisGuard panel.fbHeight device.absY := by
  constructor
  · intro h
    have hx := h.x 0
    have hy := h.y 0
    rw [calibrateTouch_iterate, calibrateTouch_init] at hx hy
    exact ⟨(axisRight_iff hwidth (touchMin_x_ne hallowed h.nonzero)).mp hx,
      (axisRight_iff hheight (touchMin_y_ne hallowed h.nonzero)).mp hy⟩
  · rintro ⟨hx, hy⟩
    refine ⟨fun evs => runDevice_ne_divideByZero (.inl rfl) hx hy evs .init, fun n =>
      ?_, fun n => ?_⟩
    · rw [calibrateTouch_iterate, calibrateTouch_init]
      exact (axisRight_iff hwidth hx.ne).mpr hx
    · rw [calibrateTouch_iterate, calibrateTouch_init]
      exact (axisRight_iff hheight hy.ne).mpr hy

end

/-! ## Some devices -/

/-- A screen of 1080 by 2160 pixels. -/
def fullHd : Panel := ⟨true, 1080, 2160, ⟨0, 0⟩, ⟨0, 0⟩, 50, 90, 96, by decide, [], false⟩

theorem calibrationRight_fullHd : CalibrationRight fullHd ⟨some ⟨0, 4095⟩, some ⟨0, 4095⟩⟩ :=
  (calibrationRight_iff rfl (by decide) (by decide)).mpr
    ⟨⟨_, rfl, by decide, fun _ => by decide⟩, ⟨_, rfl, by decide, fun _ => by decide⟩⟩

/-- A range that begins at 100: its smallest value is not at the edge of the screen. -/
theorem not_calibrationRight :
    ¬∀ (panel : Panel) (device : TouchDevice), panel.touchScreenAllowed = true → 0 ≤ panel.fbWidth →
    0 ≤ panel.fbHeight → CalibrationRight panel device := by
  intro h
  have hfirst :=
    ((h fullHd ⟨some ⟨100, 1100⟩, some ⟨0, 4095⟩⟩ rfl (by decide) (by decide)).x 0).first ⟨100,
      1100⟩ rfl (by decide)
  exact absurd hfirst (by decide)

end BootableRecovery.RecoveryUI
