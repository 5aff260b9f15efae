import BootableRecovery.RecoveryUI.Touch

/-!
# Gestures

A gesture of one finger is a contact, its positions and a lift. What it causes should depend on the
positions and on what the screen shows, and not on the gestures before. An event may leave out a
coordinate that has not changed.
-/

namespace BootableRecovery.RecoveryUI

variable (panel : Panel)

/-! ## Complete gestures -/

inductive Protocol
  | a
  | b (id : Nat)

def Protocol.contact : Protocol → DeviceEvent
  | .a => ⟨EV_KEY, BTN_TOUCH, 1⟩
  | .b id => ⟨EV_ABS, ABS_MT_TRACKING_ID, id⟩

def Protocol.lift : Protocol → DeviceEvent
  | .a => ⟨EV_KEY, BTN_TOUCH, 0⟩
  | .b _ => ⟨EV_ABS, ABS_MT_TRACKING_ID, -1⟩

def synReport : DeviceEvent := ⟨EV_SYN, SYN_REPORT, 0⟩

/-- A position, up to its `SYN_REPORT`. -/
structure Frame where
  x : Option Int
  y : Option Int
  yFirst : Bool
  shown : Shown

def Frame.coordinates (f : Frame) : List DeviceEvent :=
  let xs := f.x.toList.map (⟨EV_ABS, ABS_MT_POSITION_X, ·⟩)
  let ys := f.y.toList.map (⟨EV_ABS, ABS_MT_POSITION_Y, ·⟩)
  if f.yFirst then ys ++ xs else xs ++ ys

def Frame.events (f : Frame) : List (Shown × DeviceEvent) :=
  (f.coordinates ++ [synReport]).map (f.shown, ·)

/-- The position, where the one before it was `last`. -/
def Frame.position (f : Frame) (last : Point) : Point :=
  ⟨f.x.elim last.x panel.scaleX, f.y.elim last.y panel.scaleY⟩

structure Gesture where
  protocol : Protocol
  /-- The contact has a `SYN_REPORT` of its own. -/
  contactReported : Bool
  first : Frame
  moves : List Frame
  lift : Shown

def Gesture.contact (g : Gesture) : List (Shown × DeviceEvent) :=
  (g.protocol.contact :: if g.contactReported then [synReport] else []).map (g.first.shown, ·)

def Gesture.events (g : Gesture) : List (Shown × DeviceEvent) :=
  g.contact ++ (g.first.events ++ (g.moves.flatMap Frame.events ++
    [(g.lift, g.protocol.lift), (g.lift, synReport)]))

/-- The positions after `last`, with what the screen shows there. -/
def positions : Point → List Frame → List (Point × Shown)
  | _, [] => []
  | last, f :: fs => (f.position panel last, f.shown) :: positions (f.position panel last) fs

/-- The first position of a gesture. -/
def Gesture.start (g : Gesture) (last : Point) : Point := g.first.position panel last

/-- The other positions. -/
def Gesture.path (g : Gesture) (last : Point) : List (Point × Shown) :=
  positions panel (g.start panel last) g.moves

/-! ## What a gesture causes -/

/-- The positions of a touch, one after the other. -/
def tracks : List (Point × Shown) → Touch → Touch × List Output
  | [], t => (t, [])
  | (p, shown) :: ps, t =>
    let r := onTouchTrack panel shown { t with pos := p }
    ((tracks ps r.1).1, r.2 ++ (tracks ps r.1).2)

def Touch.press (p : Point) : Touch := ⟨p, p, p, false⟩

/-- A press at the first position, each position after it, and a release at the last. -/
def causes (p : Point) (ps : List (Point × Shown)) (lift : Shown) : List Output :=
  let r := tracks panel ps (.press p)
  .touchPress :: (r.2 ++ .touchRelease :: (onTouchRelease panel lift r.1).2)

/-- A touch of the screen without a movement. -/
structure IsTap (s : TouchState) (g : Gesture) : Prop where
  inside : (g.start panel s.touch.pos).y ≤ panel.fbHeight
  still : ∀ p ∈ g.path panel s.touch.pos, p.1 = g.start panel s.touch.pos

/-- A gesture causes what its positions and the screen say, and a tap enqueues one touch. -/
structure GestureRight (s : TouchState) (g : Gesture) : Prop where
  isolated :
    (run panel g.events s).2 =
    causes panel (g.start panel s.touch.pos) (g.path panel s.touch.pos) g.lift
  tap : IsTap panel s g →
    (run panel g.events s).2 =
    [.touchPress, .touchRelease, .enqueueTouch (g.start panel s.touch.pos)]

/-- The position is no swipe from `start`: nothing is scrolled there. -/
def Untracked (shown : Shown) (start p : Point) : Prop :=
  panel.fbHeight < p.y ∨ ¬(shown.menuShowing ∧ shown.menuScrollable) ∨
  (p.y - start.y).natAbs ≤ panel.kSwipeThresh

/-- The condition of a gesture. -/
structure GestureGuard (s : TouchState) (g : Gesture) : Prop where
  allowed : panel.touchScreenAllowed
  /-- The first position has the coordinates that were not seen before. -/
  seenX : s.sawX ∨ g.first.x.isSome
  seenY : s.sawY ∨ g.first.y.isSome
  /-- The swipe of an earlier gesture is forgotten. -/
  notSwiped : s.touch.hasSwiped = false
  /-- The other positions have both coordinates, or none of them is a swipe. -/
  moves : (∀ f ∈ g.moves, f.x.isSome ∧ f.y.isSome) ∨
    ∀ f ∈ g.moves, ∀ p ∈ (g.start panel s.touch.pos, g.first.shown) :: g.path panel s.touch.pos,
      Untracked panel f.shown (g.start panel s.touch.pos) p.1
  /-- A tap is not used to turn on the text. -/
  text : IsTap panel s g → panel.isBootreasonRecoveryUi → g.lift.textVisible

/-! ## Single events -/

section
variable {panel} {shown : Shown} {s : TouchState} {t : Touch}

theorem onSynReport_unreported (hreported : s.reported = false) (hsaw : ¬(s.sawX ∧ s.sawY)) :
    onSynReport panel shown s = (s, []) := by
  have hup : ¬(s.reported ∧ ¬s.fingerDown) := fun h => Bool.false_ne_true (hreported.symm.trans h.1)
  rw [onSynReport, if_neg hsaw, if_neg hup, ite_self]

theorem onSynReport_down (hreported : s.reported) (hdown : s.fingerDown) :
    onSynReport panel shown s = (s, []) := by
  rw [onSynReport, if_neg (by simp [hreported]), if_neg (by simp [hdown])]

theorem onSynReport_lifted (hreported : s.reported) (hdown : s.fingerDown = false) :
    onSynReport panel shown s =
    ({ s with
        touch := (onTouchRelease panel shown s.touch).1, reported := false
        sawX := false, sawY := false },
      .touchRelease :: (onTouchRelease panel shown s.touch).2) := by
  rw [onSynReport, if_neg (by simp [hreported]), if_pos ⟨hreported, by simp [hdown]⟩]

variable (hallowed : panel.touchScreenAllowed)
include hallowed

theorem onInputEvent_x (hslot : s.slot = 0) (v : Int) :
    onInputEvent panel shown ⟨EV_ABS, ABS_MT_POSITION_X, v⟩ s = trackIf panel shown s.sawY
      { s with fingerDown := true, sawX := true, touch.pos.x := panel.scaleX v, relSum := 0 } := by
  simp [onInputEvent, onRel, onAbs, hallowed, hslot, EV_ABS, EV_SYN, EV_REL, ABS_MT_POSITION_X,
    ABS_MT_SLOT]

theorem onInputEvent_y (hslot : s.slot = 0) (v : Int) :
    onInputEvent panel shown ⟨EV_ABS, ABS_MT_POSITION_Y, v⟩ s = trackIf panel shown s.sawX
      { s with fingerDown := true, sawY := true, touch.pos.y := panel.scaleY v, relSum := 0 } := by
  simp [onInputEvent, onRel, onAbs, hallowed, hslot, EV_ABS, EV_SYN, EV_REL, ABS_MT_POSITION_X,
    ABS_MT_POSITION_Y, ABS_MT_SLOT]

theorem onInputEvent_contact (hslot : s.slot = 0) (protocol : Protocol) :
    ∃ down, onInputEvent panel shown protocol.contact s =
    ({ s with fingerDown := down, relSum := 0 }, []) := by
  cases protocol with
  | a =>
    exact ⟨true, by simp [Protocol.contact, onInputEvent, onRel, onKey, hallowed, EV_ABS, EV_SYN,
      EV_REL, EV_KEY, BTN_TOUCH, KEY_MAX]⟩
  | b id =>
    exact ⟨s.fingerDown, by simp [Protocol.contact, onInputEvent, onRel, onAbs, hallowed, hslot,
      EV_ABS, EV_SYN, EV_REL, ABS_MT_POSITION_X, ABS_MT_POSITION_Y, ABS_MT_SLOT,
      ABS_MT_TRACKING_ID]⟩

theorem onInputEvent_lift (hslot : s.slot = 0) (protocol : Protocol) :
    onInputEvent panel shown protocol.lift s =
    ({ s with fingerDown := false, relSum := 0 }, []) := by
  cases protocol with
  | a => simp [Protocol.lift, onInputEvent, onRel, onKey, hallowed, EV_ABS, EV_SYN, EV_REL, EV_KEY,
    BTN_TOUCH, KEY_MAX]
  | b id =>
    simp [Protocol.lift, onInputEvent, onRel, onAbs, hallowed, hslot, EV_ABS, EV_SYN, EV_REL,
      ABS_MT_POSITION_X, ABS_MT_POSITION_Y, ABS_MT_SLOT, ABS_MT_TRACKING_ID]

theorem onInputEvent_synReport :
    onInputEvent panel shown synReport s = onSynReport panel shown s := by
  have htype : synReport.type = EV_SYN := rfl
  rw [onInputEvent, if_pos htype, if_pos ⟨hallowed, rfl⟩]

/-! ## Before the press -/

/-- Between two gestures. -/
structure Idle (s : TouchState) : Prop where
  slot : s.slot = 0
  fingerDown : s.fingerDown = false
  reported : s.reported = false
  saw : ¬(s.sawX ∧ s.sawY)

theorem run_coordinates_unreported (hslot : s.slot = 0) (hreported : s.reported = false)
    (f : Frame) : ∃ rel, run panel (f.coordinates.map (f.shown, ·)) s = ({ s with
      fingerDown := s.fingerDown || (f.x.isSome || f.y.isSome)
      sawX := s.sawX || f.x.isSome
      sawY := s.sawY || f.y.isSome
      touch.pos := f.position panel s.touch.pos
      relSum := rel }, []) := by
  obtain ⟨x, y, yFirst, shown⟩ := f
  have hx :=
    fun {s : TouchState} (hslot : s.slot = 0) => @onInputEvent_x panel shown s hallowed hslot
  have hy :=
    fun {s : TouchState} (hslot : s.slot = 0) => @onInputEvent_y panel shown s hallowed hslot
  cases x with
  | none =>
    cases y with
    | none => exact ⟨s.relSum, by cases yFirst <;> simp [Frame.coordinates, Frame.position, run]⟩
    | some y => exact ⟨0, by
        cases yFirst <;> simp [Frame.coordinates, Frame.position, run, hy, trackIf, hslot,
          hreported]⟩
  | some x =>
    cases y with
    | none => exact ⟨0, by
        cases yFirst <;> simp [Frame.coordinates, Frame.position, run, hx, trackIf, hslot,
          hreported]⟩
    | some y => exact ⟨0, by
        cases yFirst <;> simp [Frame.coordinates, Frame.position, run, hx, hy, trackIf, hslot,
          hreported]⟩

theorem run_contact (h : Idle s) (g : Gesture) :
    ∃ down, run panel g.contact s = ({ s with fingerDown := down, relSum := 0 }, []) := by
  obtain ⟨down, hcontact⟩ := @onInputEvent_contact panel g.first.shown s hallowed h.slot g.protocol
  refine ⟨down, ?_⟩
  rw [Gesture.contact, List.map_cons, run, hcontact]
  cases g.contactReported with
  | false => rfl
  | true =>
    have hsyn :=
      @onSynReport_unreported panel g.first.shown { s with fingerDown := down, relSum := 0 }
        h.reported h.saw
    simp [run, onInputEvent_synReport hallowed, hsyn]

/-- After the press, until the lift. -/
structure Down (s : TouchState) (t : Touch) : Prop where
  slot : s.slot = 0
  fingerDown : s.fingerDown
  reported : s.reported
  touch : s.touch = t

theorem run_first (h : Idle s) (g : Gesture) (hx : s.sawX ∨ g.first.x.isSome)
    (hy : s.sawY ∨ g.first.y.isSome) :
    ∃ s', run panel (g.contact ++ g.first.events) s = (s', [.touchPress]) ∧
      Down s' (onTouchPress { s.touch with pos := g.first.position panel s.touch.pos }) ∧
      s'.sawX = false ∧ s'.sawY = false := by
  obtain ⟨down, hcontact⟩ := run_contact hallowed h g
  obtain ⟨rel, hrun⟩ :=
    @run_coordinates_unreported panel { s with fingerDown := down, relSum := 0 } hallowed h.slot
    h.reported g.first
  have hx : (s.sawX || g.first.x.isSome) = true := by simpa using hx
  have hy : (s.sawY || g.first.y.isSome) = true := by simpa using hy
  have hdown : (down || (g.first.x.isSome || g.first.y.isSome)) = true := by
    have := h.saw
    cases hsx : s.sawX <;> cases hsy : s.sawY <;> simp_all
  rw [run_append, hcontact, Frame.events, List.map_append, run_append, hrun]
  simp only [hx, hy, hdown, List.map_singleton, run, onInputEvent_synReport hallowed, onSynReport,
    h.reported]
  exact ⟨_, rfl, ⟨h.slot, rfl, rfl, rfl⟩, rfl, rfl⟩

/-! ## Positions after the press -/

omit hallowed in
theorem onTouchTrack_pos (t : Touch) : (onTouchTrack panel shown t).1.pos = t.pos := by
  rw [onTouchTrack]
  split
  · dsimp only
    split <;> rfl
  · rfl

omit hallowed in
theorem onTouchTrack_untracked (h : Untracked panel shown t.track t.pos) :
    onTouchTrack panel shown t = (t, []) := by
  rw [onTouchTrack]
  split
  · rename_i hmenu
    have hthresh : panel.kSwipeThresh < panel.menuItemHeight :=
      Nat.div_lt_self panel.menuItemHeight_pos (by decide)
    have hstill : (t.pos.y - t.track.y).natAbs ≤ panel.kSwipeThresh := by
      rcases h with hout | hnomenu | hstill
      · exact absurd hout (Int.not_lt.mpr hmenu.1)
      · exact absurd hmenu.2 hnomenu
      · exact hstill
    dsimp only
    rw [if_neg (by omega), decide_eq_false (by omega), Bool.or_false]
  · rfl

theorem run_full (h : Down s t) (hsaw : s.sawX = false ∧ s.sawY = false) (f : Frame)
    (hfull : f.x.isSome ∧ f.y.isSome) :
    ∃ s', run panel f.events s =
    (s', (onTouchTrack panel f.shown { t with pos := f.position panel t.pos }).2) ∧
      Down s' (onTouchTrack panel f.shown { t with pos := f.position panel t.pos }).1 ∧
      s'.sawX = false ∧ s'.sawY = false := by
  obtain ⟨x, y, yFirst, shown⟩ := f
  obtain ⟨v, rfl⟩ := Option.isSome_iff_exists.mp hfull.1
  obtain ⟨w, rfl⟩ := Option.isSome_iff_exists.mp hfull.2
  obtain ⟨hslot, hdown, hreported, rfl⟩ := h
  have hx :=
    fun {s : TouchState} (hslot : s.slot = 0) => @onInputEvent_x panel shown s hallowed hslot
  have hy :=
    fun {s : TouchState} (hslot : s.slot = 0) => @onInputEvent_y panel shown s hallowed hslot
  cases yFirst <;>
    simp [Frame.events, Frame.coordinates, Frame.position, run, hx, hy, trackIf,
      onInputEvent_synReport hallowed, onSynReport, hslot, hreported, hsaw]
  · exact ⟨rfl, rfl, rfl, rfl⟩
  · exact ⟨rfl, rfl, rfl, rfl⟩

theorem run_moves_full (h : Down s t) (hsaw : s.sawX = false ∧ s.sawY = false) (moves : List Frame)
    (hfull : ∀ f ∈ moves, f.x.isSome ∧ f.y.isSome) :
    ∃ s', run panel (moves.flatMap Frame.events) s =
    (s', (tracks panel (positions panel t.pos moves) t).2) ∧
      Down s' (tracks panel (positions panel t.pos moves) t).1 := by
  induction moves generalizing s t with
  | nil => exact ⟨s, rfl, h⟩
  | cons f moves ih =>
    obtain ⟨s₁, hrun, hdown, hsaw'⟩ := run_full hallowed h hsaw f (hfull f List.mem_cons_self)
    obtain ⟨s₂, hrest, hdown'⟩ := ih hdown hsaw' fun f' hf' => hfull f' (List.mem_cons_of_mem _ hf')
    rw [onTouchTrack_pos] at hrest hdown'
    refine ⟨s₂, ?_, hdown'⟩
    rw [List.flatMap_cons, run_append, hrun, hrest]
    rfl

/-! ## Positions that are not tracked -/

omit hallowed in
theorem trackIf_untracked (h : Untracked panel shown s.touch.track s.touch.pos) (sawOther : Bool) :
    ∃ sawX sawY, trackIf panel shown sawOther s = ({ s with sawX := sawX, sawY := sawY }, []) := by
  rw [trackIf, onTouchTrack_untracked h]
  split
  · exact ⟨false, false, rfl⟩
  · exact ⟨s.sawX, s.sawY, rfl⟩

theorem run_x_untracked (h : Down s t) (x : Option Int)
    (huntracked : Untracked panel shown t.track t.pos) :
    ∃ s', run panel ((x.toList.map (⟨EV_ABS, ABS_MT_POSITION_X, ·⟩)).map (shown, ·)) s = (s', []) ∧
      Down s' { t with pos.x := x.elim t.pos.x panel.scaleX } := by
  obtain ⟨hslot, hdown, hreported, rfl⟩ := h
  cases x with
  | none => exact ⟨s, rfl, hslot, hdown, hreported, rfl⟩
  | some x =>
    obtain ⟨sawX, sawY, htrack⟩ := @trackIf_untracked panel shown
      { s with fingerDown := true, sawX := true, touch.pos.x := panel.scaleX x, relSum := 0 }
        huntracked s.sawY
    have hrun : run panel [(shown, ⟨EV_ABS, ABS_MT_POSITION_X, x⟩)] s = ({ s with
        fingerDown := true, sawX, sawY, touch.pos.x := panel.scaleX x, relSum := 0 }, []) := by
      rw [run, onInputEvent_x hallowed hslot, htrack]
      rfl
    exact ⟨_, hrun, hslot, rfl, hreported, rfl⟩

theorem run_y_untracked (h : Down s t) (y : Option Int)
    (huntracked : Untracked panel shown t.track { t.pos with y := y.elim t.pos.y panel.scaleY }) :
    ∃ s', run panel ((y.toList.map (⟨EV_ABS, ABS_MT_POSITION_Y, ·⟩)).map (shown, ·)) s = (s', []) ∧
      Down s' { t with pos.y := y.elim t.pos.y panel.scaleY } := by
  obtain ⟨hslot, hdown, hreported, rfl⟩ := h
  cases y with
  | none => exact ⟨s, rfl, hslot, hdown, hreported, rfl⟩
  | some y =>
    obtain ⟨sawX, sawY, htrack⟩ := @trackIf_untracked panel shown
      { s with fingerDown := true, sawY := true, touch.pos.y := panel.scaleY y, relSum := 0 }
        huntracked s.sawX
    have hrun : run panel [(shown, ⟨EV_ABS, ABS_MT_POSITION_Y, y⟩)] s = ({ s with
        fingerDown := true, sawX, sawY, touch.pos.y := panel.scaleY y, relSum := 0 }, []) := by
      rw [run, onInputEvent_y hallowed hslot, htrack]
      rfl
    exact ⟨_, hrun, hslot, rfl, hreported, rfl⟩

theorem run_untracked (h : Down s t) (f : Frame)
    (huntracked : Untracked panel f.shown t.track t.pos)
    (huntracked' : Untracked panel f.shown t.track (f.position panel t.pos)) :
    ∃ s', run panel f.events s = (s', []) ∧ Down s' { t with pos := f.position panel t.pos } := by
  have hcoordinates : ∃ s', run panel (f.coordinates.map (f.shown, ·)) s = (s', []) ∧
      Down s' { t with pos := f.position panel t.pos } := by
    rw [Frame.coordinates]
    split
    · obtain ⟨s₁, hy, hdown⟩ := run_y_untracked hallowed h f.y huntracked'
      obtain ⟨s₂, hx, hdown'⟩ := run_x_untracked hallowed hdown f.x huntracked'
      exact ⟨s₂, by rw [List.map_append, run_append, hy, hx, List.append_nil], hdown'⟩
    · obtain ⟨s₁, hx, hdown⟩ := run_x_untracked hallowed h f.x huntracked
      obtain ⟨s₂, hy, hdown'⟩ := run_y_untracked hallowed hdown f.y huntracked'
      exact ⟨s₂, by rw [List.map_append, run_append, hx, hy, List.append_nil], hdown'⟩
  obtain ⟨s', hrun, hdown⟩ := hcoordinates
  refine ⟨s', ?_, hdown⟩
  rw [Frame.events, List.map_append, run_append, hrun]
  simp [run, onInputEvent_synReport hallowed, onSynReport_down hdown.reported hdown.fingerDown]

theorem run_moves_untracked (h : Down s t) (moves : List Frame) (huntracked : ∀ f ∈ moves,
      Untracked panel f.shown t.track t.pos ∧
      ∀ p ∈ positions panel t.pos moves, Untracked panel f.shown t.track p.1) :
      ∃ s', run panel (moves.flatMap Frame.events) s =
      (s', (tracks panel (positions panel t.pos moves) t).2) ∧
      Down s' (tracks panel (positions panel t.pos moves) t).1 := by
  induction moves generalizing s t with
  | nil => exact ⟨s, rfl, h⟩
  | cons f moves ih =>
    obtain ⟨hbefore, hafter⟩ := huntracked f List.mem_cons_self
    have hthere := hafter _ List.mem_cons_self
    obtain ⟨s₁, hrun, hdown⟩ := run_untracked hallowed h f hbefore hthere
    obtain ⟨s₂, hrest, hdown'⟩ := ih hdown fun f' hf' =>
      ⟨(huntracked f' (List.mem_cons_of_mem _ hf')).2 _ List.mem_cons_self,
        fun p hp => (huntracked f' (List.mem_cons_of_mem _ hf')).2 p (List.mem_cons_of_mem _ hp)⟩
    have htrack :=
      @onTouchTrack_untracked panel f.shown { t with pos := f.position panel t.pos } hthere
    refine ⟨s₂, ?_, ?_⟩
    · rw [List.flatMap_cons, run_append, hrun, hrest, positions, tracks, htrack]
    · rwa [positions, tracks, htrack]

/-! ## A gesture -/

theorem run_lift (h : Down s t) (g : Gesture) :
    ∃ s', run panel [(g.lift, g.protocol.lift), (g.lift, synReport)] s =
      (s', .touchRelease :: (onTouchRelease panel g.lift t).2) := by
  obtain ⟨hslot, hdown, hreported, rfl⟩ := h
  have hsyn :=
    @onSynReport_lifted panel g.lift { s with fingerDown := false, relSum := 0 } hreported rfl
  have hrun : run panel [(g.lift, g.protocol.lift), (g.lift, synReport)] s = ({ s with
      fingerDown := false, relSum := 0, touch :=
        (onTouchRelease panel g.lift s.touch).1, reported := false
      sawX := false, sawY := false },
        .touchRelease :: (onTouchRelease panel g.lift s.touch).2) := by
    simp [run, onInputEvent_lift hallowed hslot, onInputEvent_synReport hallowed, hsyn]
  exact ⟨_, hrun⟩

end

theorem GestureGuard.run_moves {s : TouchState} {g : Gesture} (h : GestureGuard panel s g)
    {s₁ : TouchState}
    (hdown : Down s₁ (.press (g.start panel s.touch.pos)))
    (hsaw : s₁.sawX = false ∧ s₁.sawY = false) : ∃ s₂, run panel (g.moves.flatMap Frame.events) s₁ =
        (s₂, (tracks panel (g.path panel s.touch.pos) (.press (g.start panel s.touch.pos))).2) ∧
      Down s₂ (tracks panel (g.path panel s.touch.pos) (.press (g.start panel s.touch.pos))).1 := by
  rcases h.moves with hfull | huntracked
  · exact run_moves_full h.allowed hdown hsaw g.moves hfull
  · exact run_moves_untracked h.allowed hdown g.moves fun f hf =>
      ⟨huntracked f hf _ List.mem_cons_self, fun p hp =>
        huntracked f hf p (List.mem_cons_of_mem _ hp)⟩

theorem GestureGuard.run {s : TouchState} {g : Gesture} (h : GestureGuard panel s g)
    (hidle : Idle s) :
    (run panel g.events s).2 =
    causes panel (g.start panel s.touch.pos) (g.path panel s.touch.pos) g.lift := by
  obtain ⟨s₁, hfirst, hdown, hsaw⟩ := run_first h.allowed hidle g h.seenX h.seenY
  rw [onTouchPress, h.notSwiped] at hdown
  obtain ⟨s₂, hmoves, hdown'⟩ := h.run_moves panel hdown hsaw
  obtain ⟨s₃, hlift⟩ := run_lift h.allowed hdown' g
  rw [Gesture.events, ← List.append_assoc, run_append, hfirst, run_append, hmoves, hlift]
  rfl

/-! ## Taps -/

theorem tracks_still (p : Point) (ps : List (Point × Shown)) (h : ∀ q ∈ ps, q.1 = p) :
    tracks panel ps (.press p) = (.press p, []) := by
  induction ps with
  | nil => rfl
  | cons q ps ih =>
    obtain ⟨q, shown⟩ := q
    have hq : q = p := h _ List.mem_cons_self
    have hstill : Untracked panel shown p p := .inr (.inr (by simp))
    have htrack : onTouchTrack panel shown { Touch.press p with pos := p } = (.press p, []) :=
      onTouchTrack_untracked hstill
    rw [tracks, hq, htrack, ih fun q hq => h q (List.mem_cons_of_mem _ hq)]
    rfl

theorem causes_tap {p : Point} {ps : List (Point × Shown)} {lift : Shown}
    (hinside : p.y ≤ panel.fbHeight) (hstill : ∀ q ∈ ps, q.1 = p)
    (htext : panel.isBootreasonRecoveryUi → lift.textVisible) :
    causes panel p ps lift = [.touchPress, .touchRelease, .enqueueTouch p] := by
  have htext' : ¬(panel.isBootreasonRecoveryUi ∧ ¬lift.textVisible) := fun h => h.2 (htext h.1)
  have hscreen :
      ¬(panel.fbHeight < (Touch.press p).start.y ∧ panel.fbHeight < (Touch.press p).pos.y) :=
    fun h => Int.not_lt.mpr hinside h.1
  have hrelease : onTouchRelease panel lift (.press p) = (.press p, [.enqueueTouch p]) := by
    rw [onTouchRelease, if_neg htext', if_neg hscreen]
    simp [Touch.press]
  rw [causes, tracks_still panel p ps hstill, hrelease]
  rfl

/-! ## Every run -/

/-- After a `SYN_REPORT`: the first position with both coordinates has been reported. -/
structure Settled (s : TouchState) : Prop where
  slot : s.slot = 0
  saw : s.reported = false → ¬(s.sawX ∧ s.sawY)

/-- Before it: it will be reported. -/
structure Seen (s : TouchState) : Prop where
  slot : s.slot = 0
  saw : s.reported = false → s.sawX ∧ s.sawY → s.fingerDown

section
variable {panel} {s : TouchState} {shown : Shown} (hallowed : panel.touchScreenAllowed)

theorem Seen.trackIf (h : Seen s) (sawOther : Bool) : Seen (trackIf panel shown sawOther s).1 := by
  rw [RecoveryUI.trackIf]
  split
  · exact ⟨h.slot, fun _ hsaw => absurd hsaw.1 Bool.false_ne_true⟩
  · exact h

theorem Seen.onSynReport (h : Seen s) : Settled (onSynReport panel shown s).1 := by
  rw [RecoveryUI.onSynReport]
  split
  · split
    · exact ⟨h.slot, fun hreported => absurd hreported.symm Bool.false_ne_true⟩
    · rename_i hsaw
      exact ⟨h.slot, fun _ => hsaw⟩
  · rename_i hnew
    split
    · exact ⟨h.slot, fun _ hsaw => Bool.false_ne_true hsaw.1⟩
    · exact ⟨h.slot, fun hreported hsaw =>
        hnew ⟨fun hr => Bool.false_ne_true (hreported.symm.trans hr), h.saw hreported hsaw⟩⟩

include hallowed

theorem Seen.run_coordinates (h : Seen s) (f : Frame) :
    Seen (run panel (f.coordinates.map (f.shown, ·)) s).1 := by
  have hevents : ∀ ev ∈ f.coordinates, ∃ v, ev = ⟨EV_ABS, ABS_MT_POSITION_X, v⟩ ∨
      ev = ⟨EV_ABS, ABS_MT_POSITION_Y, v⟩ := by
    intro ev hev
    rw [Frame.coordinates] at hev
    split at hev <;> simp at hev <;> grind
  generalize f.coordinates = evs at hevents
  induction evs generalizing s with
  | nil => exact h
  | cons ev evs ih =>
    refine ih ?_ fun ev' hev' => hevents ev' (List.mem_cons_of_mem _ hev')
    obtain ⟨v, rfl | rfl⟩ := hevents ev List.mem_cons_self
    · have hseen :
          Seen { s with
            fingerDown := true, sawX := true, touch.pos.x := panel.scaleX v, relSum := 0 } :=
        ⟨h.slot, fun _ _ => rfl⟩
      rw [onInputEvent_x hallowed h.slot]
      exact hseen.trackIf _
    · have hseen :
          Seen { s with
            fingerDown := true, sawY := true, touch.pos.y := panel.scaleY v, relSum := 0 } :=
        ⟨h.slot, fun _ _ => rfl⟩
      rw [onInputEvent_y hallowed h.slot]
      exact hseen.trackIf _

theorem Settled.run_frame (h : Settled s) (f : Frame) : Settled (run panel f.events s).1 := by
  have hseen : Seen s := ⟨h.slot, fun hreported hsaw => absurd hsaw (h.saw hreported)⟩
  rw [Frame.events, List.map_append, run_append]
  simp only [List.map_singleton, run, onInputEvent_synReport hallowed]
  exact (hseen.run_coordinates hallowed f).onSynReport

theorem Settled.run_moves (h : Settled s) (moves : List Frame) :
    Settled (run panel (moves.flatMap Frame.events) s).1 := by
  induction moves generalizing s with
  | nil => exact h
  | cons f moves ih =>
    rw [List.flatMap_cons, run_append]
    exact ih (h.run_frame hallowed f)

theorem Settled.run_lift (h : Settled s) (g : Gesture) :
    Idle (run panel [(g.lift, g.protocol.lift), (g.lift, synReport)] s).1 := by
  simp only [run, onInputEvent_lift hallowed h.slot, onInputEvent_synReport hallowed]
  cases hreported : s.reported with
  | false =>
    rw [@onSynReport_unreported panel g.lift
      { s with fingerDown := false, reported := false, relSum := 0 } rfl
      (h.saw hreported)]
    exact ⟨h.slot, rfl, rfl, h.saw hreported⟩
  | true =>
    rw [@onSynReport_lifted panel g.lift
      { s with fingerDown := false, reported := true, relSum := 0 } rfl rfl]
    exact ⟨h.slot, rfl, rfl, fun hsaw => Bool.false_ne_true hsaw.1⟩

theorem Idle.run (h : Idle s) (g : Gesture) : Idle (run panel g.events s).1 := by
  obtain ⟨down, hcontact⟩ := run_contact hallowed h g
  have hsettled : Settled { s with fingerDown := down, relSum := 0 } := ⟨h.slot, fun _ => h.saw⟩
  rw [Gesture.events, run_append, hcontact, run_append, run_append]
  exact ((hsettled.run_frame hallowed g.first).run_moves hallowed g.moves).run_lift hallowed g

end

/-- Complete gestures, one after the other. -/
def gestures : System TouchState where
  init s := s = .init
  step s s' := ∃ g : Gesture, s' = (run panel g.events s).1

theorem idle_of_reach {panel : Panel} (hallowed : panel.touchScreenAllowed) {s : TouchState}
    (h : (gestures panel).Reach s) : Idle s := by
  have hinductive : (gestures panel).Inductive Idle := by
    constructor
    · rintro _ rfl
      exact ⟨rfl, rfl, rfl, fun h => Bool.false_ne_true h.1⟩
    · rintro s _ hidle ⟨g, rfl⟩
      exact hidle.run hallowed g
  exact hinductive.reach h

theorem GestureGuard.right {s : TouchState} {g : Gesture} (h : GestureGuard panel s g)
    (hidle : Idle s) : GestureRight panel s g where
  isolated := h.run panel hidle
  tap htap := (h.run panel hidle).trans (causes_tap panel htap.inside htap.still (h.text htap))

/-- Press and release take turns for any events; and in every run of complete gestures, each that
meets its condition is right. -/
theorem gestures_right (panel : Panel) :
    (∀ evs s, Reports s (run panel evs s)) ∧
      ∀ s, (gestures panel).Reach s → ∀ g, GestureGuard panel s g → GestureRight panel s g :=
  ⟨reports_run, fun _ hreach _ hguard => hguard.right panel (idle_of_reach hguard.allowed hreach)⟩

/-! ## A second tap at the same place -/

/-- A screen of 100 by 100 points. -/
def smallPanel : Panel where
  touchScreenAllowed := true
  fbWidth := 100
  fbHeight := 100
  touchMin := ⟨0, 0⟩
  touchMax := ⟨100, 100⟩
  kTouchLowThreshold := 50
  kTouchHighThreshold := 90
  menuItemHeight := 30
  menuItemHeight_pos := by decide
  virtualKeys := []
  isBootreasonRecoveryUi := false

/-- A list of items in a visible menu. -/
def menu : Shown := ⟨true, true, true⟩

def tap (id : Nat) (x y : Option Int) : Gesture := ⟨.b id, false, ⟨x, y, false, menu⟩, [], menu⟩

/-- A tap at (10, 10), and another there, which leaves out both coordinates: nothing is reported for
it. -/
theorem not_gestureRight : ¬∀ panel s, (gestures panel).Reach s → ∀ g, GestureRight panel s g := by
  intro h
  have hreach :
      (gestures smallPanel).Reach (run smallPanel (tap 1 (some 10) (some 10)).events .init).1 :=
    (System.Reach.init (S := gestures smallPanel) rfl).step ⟨tap 1 (some 10) (some 10), rfl⟩
  have htap := (h smallPanel _ hreach (tap 2 none none)).tap ⟨by decide, nofun⟩
  exact absurd htap (by decide)

end BootableRecovery.RecoveryUI
