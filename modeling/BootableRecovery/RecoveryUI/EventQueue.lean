import BootableRecovery.Theory.System
import Mathlib.Data.List.Range

/-!
# The event queue

`EnqueueKey`, `EnqueueTouch`, `CancelWaitKey` and `WaitInputEvent` of `ui.cpp`. Each holds
`event_queue_mutex`, which `WaitInputEvent` gives back only while it is in `pthread_cond_timedwait`;
so what a thread does between two waits is one step. The queue is its words: an event has three, and
the loops that move events count them in bytes.
-/

namespace BootableRecovery.RecoveryUI

/-! ## Events -/

structure Point where
  x : Int
  y : Int
  deriving DecidableEq

inductive InputEvent
  | none
  | key (code : Int)
  | touch (pos : Point)
  deriving DecidableEq

def KEY_REFRESH : Int := 173

/-- The words of an event, `type_` and `evt_`. What a key leaves of the union is 0. -/
def InputEvent.word : InputEvent → Nat → Int
  | .none, _ => 0
  | .key _, 0 => 1
  | .key code, 1 => code
  | .key _, _ => 0
  | .touch _, 0 => 2
  | .touch pos, 1 => pos.x
  | .touch pos, _ => pos.y

/-- The memory from `event_queue` on. -/
abbrev Words := Nat → Int

/-- `event_queue[i]` -/
def eventAt (words : Words) (i : Nat) : InputEvent :=
  if words (3 * i) = 1 then .key (words (3 * i + 1))
  else if words (3 * i) = 2 then .touch ⟨words (3 * i + 1), words (3 * i + 2)⟩
  else .none

def setEvent (words : Words) (i : Nat) (event : InputEvent) : Words := fun w =>
  if w / 3 = i then event.word (w % 3) else words w

/-- `memcpy(&event_queue[0], &event_queue[1], 4 * n)` -/
def moveWords (words : Words) (n : Nat) : Words := fun w => if w < n then words (w + 3) else words w

/-! ## The state -/

inductive ScreensaverState
  | disabled
  | normal
  | dimmed
  | off
  deriving DecidableEq

/-- What the mutex protects, and `screensaver_state_`. -/
structure Shared where
  eventQueue : Words
  eventQueueLen : Nat
  screensaverState : ScreensaverState

def queueMax : Nat := 256

def UI_WAIT_KEY_TIMEOUT_SEC : Int := 120

/-- `event_queue[event_queue_len++] = event` -/
def Shared.push (s : Shared) (event : InputEvent) : Shared :=
  { s with
    eventQueue := setEvent s.eventQueue s.eventQueueLen event
    eventQueueLen := s.eventQueueLen + 1 }

/-- The events in the queue. -/
def Shared.contents (s : Shared) : List InputEvent :=
  (List.range s.eventQueueLen).map (eventAt s.eventQueue)

def enqueueKey (keyCode : Int) (s : Shared) : Shared :=
  if s.eventQueueLen < queueMax then s.push (.key keyCode) else s

def enqueueTouch (pos : Point) (s : Shared) : Shared :=
  if s.eventQueueLen < queueMax then s.push (.touch pos) else s

def cancelWaitKey (s : Shared) : Shared := s.push (.key KEY_REFRESH)

/-! ## Waiting -/

/-- The result of `pthread_cond_timedwait`. -/
inductive Rc
  | zero
  | timedOut
  deriving DecidableEq

/-- `timeout.tv_sec` and `key_timeout.tv_sec` of a thread that waits. -/
structure Waiting where
  timeout : Int
  keyTimeout : Int

/-- What the system says between two waits: the time for each of the two timeouts, and whether a
volume has changed, the brightness could be written and a USB cable is plugged in. -/
structure Answers where
  now : Int
  keyNow : Int
  volumesChanged : Bool
  written : Bool
  usbConnected : Bool

/-- How a thread gives the mutex back. -/
inductive Outcome
  | waits (w : Waiting)
  /-- `KEY_REFRESH` for a changed volume -/
  | refreshes
  /-- No event. -/
  | gone
  /-- The first event of the queue. -/
  | returns (event : InputEvent)

/-- What a thread does between two waits, and the event that it drops to wake the screen. -/
structure Turn where
  shared : Shared
  dropped : Option InputEvent
  outcome : Outcome

/-- The state that a written brightness means. -/
def Shared.writeBrightness (a : Answers) (state : ScreensaverState) (s : Shared) : Shared :=
  if a.written then { s with screensaverState := state } else s

/-- The first event is dropped; the others are moved by `sizeof(int)` for each that is left. -/
def Shared.dropFirst (s : Shared) : Shared × Option InputEvent :=
  if 0 < s.eventQueueLen then
    ({ s with
        eventQueue := moveWords s.eventQueue (s.eventQueueLen - 1)
        eventQueueLen := s.eventQueueLen - 1 }, some (eventAt s.eventQueue 0))
  else (s, none)

/-- The part of `WaitInputEvent` for the brightness. -/
def changeBrightness (rc : Rc) (a : Answers) (s : Shared) : Shared × Option InputEvent :=
  match s.screensaverState, rc with
  | .disabled, _ => (s, none)
  | .normal, .timedOut => (s.writeBrightness a .dimmed, none)
  | .dimmed, .timedOut => (s.writeBrightness a .off, none)
  | .off, .timedOut => (s, none)
  | .normal, .zero => (s, none)
  | .dimmed, .zero => (s.writeBrightness a .normal, none)
  | .off, .zero => (s.dropFirst.1.writeBrightness a .normal, s.dropFirst.2)

/-- The rest of `WaitInputEvent` after the inner loop. -/
def afterLoop (rc : Rc) (a : Answers) (s : Shared) : Turn :=
  let (s, dropped) := changeBrightness rc a s
  if a.usbConnected ∧ s.eventQueueLen = 0 then
    ⟨s, dropped, .waits ⟨a.now + UI_WAIT_KEY_TIMEOUT_SEC, a.keyNow + 1⟩⟩
  else if 0 < s.eventQueueLen then
    ⟨{ s with
        eventQueue := moveWords s.eventQueue (3 * (s.eventQueueLen - 1))
        eventQueueLen := s.eventQueueLen - 1 }, dropped, .returns (eventAt s.eventQueue 0)⟩
  else ⟨s, dropped, .gone⟩

/-- A call of `WaitInputEvent`. -/
def callWait (a : Answers) (s : Shared) : Turn :=
  if s.eventQueueLen = 0 then ⟨s, none, .waits ⟨a.now + UI_WAIT_KEY_TIMEOUT_SEC, a.keyNow + 1⟩⟩
  else afterLoop .zero a s

/-- `rc` after the inner loop has looked at a timeout. -/
def rcAfter (w : Waiting) (rc : Rc) : Rc := if w.keyTimeout ≤ w.timeout then .zero else rc

/-- What comes after `pthread_cond_timedwait`. -/
def resumeWait (w : Waiting) (rc : Rc) (a : Answers) (s : Shared) : Turn :=
  if rc = .timedOut ∧ a.volumesChanged then ⟨s, none, .refreshes⟩
  else if s.eventQueueLen = 0 ∧
    rcAfter w rc = .zero then ⟨s, none, .waits { w with keyTimeout := a.keyNow + 1 }⟩
  else afterLoop (rcAfter w rc) a s

/-! ## Interleavings -/

/-- What one thread does while it has the mutex. -/
inductive Action (Thread : Type)
  | enqueueKey (keyCode : Int)
  | enqueueTouch (pos : Point)
  | cancelWaitKey
  | callWait (t : Thread) (a : Answers)
  | resumeWait (t : Thread) (rc : Rc) (a : Answers)

/-- An event that has left the queue. -/
inductive Removal
  | returned (event : InputEvent)
  | dropped (event : InputEvent) (state : ScreensaverState)
  deriving DecidableEq

def Removal.event : Removal → InputEvent
  | .returned event => event
  | .dropped event _ => event

variable {Thread : Type}

/-- The threads, with the events that were to be put into the queue, each with the length of the
queue then, and those that have left it. -/
structure Threads (Thread : Type) where
  shared : Shared
  waiting : Thread → Option Waiting
  offered : List (InputEvent × Nat)
  removed : List Removal

def Threads.init (eventQueue : Words) (screensaverState : ScreensaverState) : Threads Thread where
  shared := ⟨eventQueue, 0, screensaverState⟩
  waiting _ := none
  offered := []
  removed := []

/-- An event is put into the queue by `enqueue`. -/
def Threads.offer (s : Threads Thread) (event : InputEvent) (enqueue : Shared → Shared) :
    Threads Thread :=
  { s with shared := enqueue s.shared, offered := s.offered ++ [(event, s.shared.eventQueueLen)] }

def Outcome.waiting : Outcome → Option Waiting
  | .waits w => some w
  | .refreshes | .gone | .returns _ => none

def Outcome.removed : Outcome → List Removal
  | .returns event => [.returned event]
  | .waits _ | .refreshes | .gone => []

/-- What the thread `t` does before it gives the mutex back. -/
def Threads.take [DecidableEq Thread] (s : Threads Thread) (t : Thread) (turn : Turn) :
    Threads Thread where
  shared := turn.shared
  waiting := Function.update s.waiting t turn.outcome.waiting
  offered := s.offered
  removed :=
    s.removed ++
      ((turn.dropped.map (.dropped · s.shared.screensaverState)).toList ++ turn.outcome.removed)

/-- One step; none if the thread does something else. -/
def Threads.step [DecidableEq Thread] (s : Threads Thread) : Action Thread → Option (Threads Thread)
  | .enqueueKey keyCode => some (s.offer (.key keyCode) (enqueueKey keyCode))
  | .enqueueTouch pos => some (s.offer (.touch pos) (enqueueTouch pos))
  | .cancelWaitKey => some (s.offer (.key KEY_REFRESH) cancelWaitKey)
  | .callWait t a =>
    match s.waiting t with
    | none => some (s.take t (callWait a s.shared))
    | some _ => none
  | .resumeWait t rc a =>
    match s.waiting t with
    | none => none
    | some w => some (s.take t (resumeWait w rc a s.shared))

/-! ## What should hold -/

/-- The queue has at most 256 events; those that were put into it while it was not full have left it
in their order and as they were, or are still in it; and one was dropped only when the screen was
off. -/
structure QueueRight (s : Threads Thread) : Prop where
  length_le : s.shared.eventQueueLen ≤ queueMax
  fifo : (s.offered.filter (·.2 < queueMax)).map Prod.fst = s.removed.map Removal.event ++
    s.shared.contents
  dropped : ∀ event state, .dropped event state ∈ s.removed → state = .off

/-- A wake-up from `OFF` moves all words of the events that are left: there are none, or the words
that are not moved are those of the next event. -/
def DropGuard (s : Shared) : Prop :=
  ∀ w, s.eventQueueLen - 1 ≤ w → w < 3 * (s.eventQueueLen - 1) →
  s.eventQueue w = s.eventQueue (w + 3)

/-- The condition of a step: `CancelWaitKey` finds a free place, and whoever drops an event to wake
the screen moves the others as they are. -/
def StepGuard (s : Threads Thread) : Action Thread → Prop
  | .enqueueKey _ | .enqueueTouch _ => True
  | .cancelWaitKey => s.shared.eventQueueLen < queueMax
  | .callWait _ _ => s.shared.screensaverState = .off → DropGuard s.shared
  | .resumeWait t rc a => ∀ w ∈ s.waiting t, s.shared.screensaverState = .off →
      ¬(rc = .timedOut ∧ a.volumesChanged) → rcAfter w rc = .zero → DropGuard s.shared

/-! ## Moving events -/

theorem eventAt_setEvent_self (words : Words) (i : Nat) (event : InputEvent) :
    eventAt (setEvent words i event) i = event := by
  have h₀ : 3 * i / 3 = i ∧ 3 * i % 3 = 0 := by omega
  have h₁ : (3 * i + 1) / 3 = i ∧ (3 * i + 1) % 3 = 1 := by omega
  have h₂ : (3 * i + 2) / 3 = i ∧ (3 * i + 2) % 3 = 2 := by omega
  cases event <;> simp [eventAt, setEvent, h₀, h₁, h₂, InputEvent.word]

theorem eventAt_congr {words words' : Words} {i j : Nat}
    (h : ∀ k < 3, words (3 * i + k) = words' (3 * j + k)) : eventAt words i = eventAt words' j := by
  have h₀ : words (3 * i) = words' (3 * j) := h 0 (by decide)
  rw [eventAt, eventAt, h₀, h 1 (by decide), h 2 (by decide)]

theorem eventAt_setEvent_of_ne {words : Words} {i j : Nat} (event : InputEvent) (h : j ≠ i) :
    eventAt (setEvent words i event) j = eventAt words j :=
  eventAt_congr fun k hk => if_neg (by omega)

theorem Shared.contents_push (s : Shared) (event : InputEvent) :
    (s.push event).contents = s.contents ++ [event] := by
  rw [contents, contents, push, List.range_succ, List.map_append, List.map_singleton,
    eventAt_setEvent_self]
  congr 1
  exact List.map_congr_left fun j hj =>
    eventAt_setEvent_of_ne event (Nat.ne_of_lt (List.mem_range.mp hj))

theorem Shared.length_contents (s : Shared) : s.contents.length = s.eventQueueLen := by
  rw [contents, List.length_map, List.length_range]

theorem Shared.contents_of_moved {s s' : Shared} (hlen : s.eventQueueLen = s'.eventQueueLen + 1)
    (hwords : ∀ w < 3 * s'.eventQueueLen, s'.eventQueue w = s.eventQueue (w + 3)) :
    s.contents = eventAt s.eventQueue 0 :: s'.contents := by
  rw [contents, contents, hlen, List.range_succ_eq_map, List.map_cons, List.map_map]
  congr 1
  refine List.map_congr_left fun i hi => eventAt_congr fun k hk => ?_
  have hi := List.mem_range.mp hi
  rw [hwords _ (by omega)]
  congr 1
  omega

/-! ## What a thread does -/

theorem Shared.contents_writeBrightness (a : Answers) (state : ScreensaverState) (s : Shared) :
    (s.writeBrightness a state).contents = s.contents := by
  rw [writeBrightness]
  split <;> rfl

theorem Shared.eventQueueLen_writeBrightness (a : Answers) (state : ScreensaverState) (s : Shared) :
    (s.writeBrightness a state).eventQueueLen = s.eventQueueLen := by
  rw [writeBrightness]
  split <;> rfl

theorem Shared.contents_dropFirst {s : Shared} (h : DropGuard s) :
    s.contents = s.dropFirst.2.toList ++ s.dropFirst.1.contents := by
  rw [dropFirst]
  split
  · refine contents_of_moved (by dsimp only; omega) fun w hw => ?_
    rcases Nat.lt_or_ge w (s.eventQueueLen - 1) with hlt | hge
    · exact if_pos hlt
    · exact (if_neg (Nat.not_lt.mpr hge)).trans (h w hge hw)
  · rfl

theorem Shared.eventQueueLen_dropFirst (s : Shared) :
    s.dropFirst.1.eventQueueLen ≤ s.eventQueueLen := by
  rw [dropFirst]
  split
  · exact Nat.sub_le _ _
  · exact Nat.le_refl _

theorem changeBrightness_spec {rc : Rc} {a : Answers} {s : Shared}
    (hguard : s.screensaverState = .off → rc = .zero → DropGuard s) :
    s.contents = (changeBrightness rc a s).2.toList ++ (changeBrightness rc a s).1.contents ∧
      (changeBrightness rc a s).1.eventQueueLen ≤ s.eventQueueLen ∧
      ((changeBrightness rc a s).2 ≠ none → s.screensaverState = .off) := by
  have hnone {s' : Shared} (hcontents : s'.contents = s.contents) (hlen : s'.eventQueueLen =
      s.eventQueueLen) : s.contents = (none : Option InputEvent).toList ++ s'.contents ∧
      s'.eventQueueLen ≤ s.eventQueueLen ∧
        ((none : Option InputEvent) ≠ none → s.screensaverState = .off) :=
    ⟨hcontents.symm, Nat.le_of_eq hlen, fun h => absurd rfl h⟩
  have hsame := hnone rfl rfl
  have hwrite (state : ScreensaverState) :=
    hnone (s.contents_writeBrightness a state) (s.eventQueueLen_writeBrightness a state)
  cases hstate : s.screensaverState with
  | disabled => simpa only [changeBrightness, hstate] using hsame
  | normal =>
    cases rc with
    | zero => simpa only [changeBrightness, hstate] using hsame
    | timedOut => simpa only [changeBrightness, hstate] using hwrite .dimmed
  | dimmed =>
    cases rc with
    | zero => simpa only [changeBrightness, hstate] using hwrite .normal
    | timedOut => simpa only [changeBrightness, hstate] using hwrite .off
  | off =>
    cases rc with
    | zero =>
      simp only [changeBrightness, hstate, Shared.contents_writeBrightness,
        Shared.eventQueueLen_writeBrightness]
      exact ⟨Shared.contents_dropFirst (hguard hstate rfl), s.eventQueueLen_dropFirst, fun _ =>
        trivial⟩
    | timedOut => simpa only [changeBrightness, hstate] using hsame

/-- What a thread does keeps the events that it does not take, in their order. -/
structure TurnRight (s : Shared) (turn : Turn) : Prop where
  contents :
    s.contents =
    turn.dropped.toList ++ (turn.outcome.removed.map Removal.event ++ turn.shared.contents)
  length_le : turn.shared.eventQueueLen ≤ s.eventQueueLen
  dropped : turn.dropped ≠ none → s.screensaverState = .off

theorem afterLoop_right {rc : Rc} {a : Answers} {s : Shared}
    (hguard : s.screensaverState = .off → rc = .zero → DropGuard s) :
    TurnRight s (afterLoop rc a s) := by
  obtain ⟨hcontents, hlen, hdropped⟩ := changeBrightness_spec (a := a) hguard
  rw [afterLoop]
  generalize changeBrightness rc a s = r at hcontents hlen hdropped ⊢
  dsimp only
  split
  · exact ⟨hcontents, hlen, hdropped⟩
  · split
    · refine ⟨hcontents.trans (congrArg _ ?_), (Nat.sub_le _ _).trans hlen, hdropped⟩
      exact Shared.contents_of_moved (by dsimp only; omega) fun w hw => if_pos hw
    · exact ⟨hcontents, hlen, hdropped⟩

theorem turnRight_same (s : Shared) {outcome : Outcome} (h : outcome.removed = []) :
    TurnRight s ⟨s, none, outcome⟩ where
  contents := by rw [h]; rfl
  length_le := Nat.le_refl _
  dropped h := absurd rfl h

theorem callWait_right {a : Answers} {s : Shared}
    (hguard : s.screensaverState = .off → DropGuard s) : TurnRight s (callWait a s) := by
  rw [callWait]
  split
  · exact turnRight_same s rfl
  · exact afterLoop_right fun hoff _ => hguard hoff

theorem resumeWait_right {w : Waiting} {rc : Rc} {a : Answers} {s : Shared}
    (hguard : s.screensaverState = .off → ¬(rc = .timedOut ∧ a.volumesChanged) →
      rcAfter w rc = .zero → DropGuard s) : TurnRight s (resumeWait w rc a s) := by
  rw [resumeWait]
  split
  · exact turnRight_same s rfl
  · rename_i hvolumes
    split
    · exact turnRight_same s rfl
    · exact afterLoop_right fun hoff hrc => hguard hoff hvolumes hrc

/-! ## Every run -/

section
variable {s : Threads Thread}

theorem QueueRight.take [DecidableEq Thread] (h : QueueRight s) {turn : Turn}
    (hturn : TurnRight s.shared turn) (t : Thread) : QueueRight (s.take t turn) where
  length_le := hturn.length_le.trans h.length_le
  fifo := by
    rw [Threads.take, h.fifo, hturn.contents]
    cases turn.dropped <;> simp [Removal.event]
  dropped event state hmem := by
    rw [Threads.take] at hmem
    rcases List.mem_append.mp hmem with hmem | hmem
    · exact h.dropped event state hmem
    · rcases List.mem_append.mp hmem with hmem | hmem
      · cases hdropped : turn.dropped with
        | none => simp [hdropped] at hmem
        | some e =>
          simp only [hdropped, Option.map_some, Option.toList_some, List.mem_singleton,
            Removal.dropped.injEq] at hmem
          rw [hmem.2]
          exact hturn.dropped (by simp [hdropped])
      · cases houtcome : turn.outcome <;> simp [houtcome, Outcome.removed] at hmem

theorem QueueRight.offer_push (h : QueueRight s) (event : InputEvent)
    (hlen : s.shared.eventQueueLen < queueMax) : QueueRight (s.offer event (·.push event)) where
  length_le := hlen
  fifo := by
    rw [Threads.offer, Shared.contents_push, List.filter_append, List.map_append, h.fifo,
      List.append_assoc, List.filter_singleton, decide_eq_true hlen]
    rfl
  dropped := h.dropped

theorem QueueRight.offer_bounded (h : QueueRight s) (event : InputEvent) :
    QueueRight (s.offer event fun s => if s.eventQueueLen < queueMax then s.push event else s) := by
  rcases Decidable.em (s.shared.eventQueueLen < queueMax) with hlen | hlen
  · have hpush := h.offer_push event hlen
    rw [Threads.offer] at hpush ⊢
    rwa [if_pos hlen]
  · rw [Threads.offer, if_neg hlen]
    refine ⟨h.length_le, ?_, h.dropped⟩
    rw [List.filter_append, List.filter_singleton, decide_eq_false hlen]
    simpa using h.fifo

theorem QueueRight.step [DecidableEq Thread] (h : QueueRight s) {action : Action Thread}
    (hguard : StepGuard s action) (hstep : s.step action = some s') : QueueRight s' := by
  cases action with
  | enqueueKey keyCode =>
    cases hstep
    exact h.offer_bounded (.key keyCode)
  | enqueueTouch pos =>
    cases hstep
    exact h.offer_bounded (.touch pos)
  | cancelWaitKey =>
    cases hstep
    exact h.offer_push _ hguard
  | callWait t a =>
    rw [Threads.step] at hstep
    split at hstep
    · cases hstep
      exact h.take (callWait_right hguard) t
    · cases hstep
  | resumeWait t rc a =>
    rw [Threads.step] at hstep
    split at hstep
    · cases hstep
    · rename_i w hw
      cases hstep
      exact h.take (resumeWait_right (hguard w hw)) t

theorem queueRight_init (eventQueue : Words) (screensaverState : ScreensaverState) :
    QueueRight (Threads.init eventQueue screensaverState : Threads Thread) :=
  ⟨Nat.zero_le _, rfl, nofun⟩

end

/-- All interleavings of any number of threads. -/
def threads (Thread : Type) [DecidableEq Thread] : System (Threads Thread) where
  init s := ∃ eventQueue screensaverState, s = .init eventQueue screensaverState
  step s s' := ∃ action, s.step action = some s'

/-- The interleavings in which each step meets its condition. -/
def guardedThreads (Thread : Type) [DecidableEq Thread] : System (Threads Thread) where
  init s := ∃ eventQueue screensaverState, s = .init eventQueue screensaverState
  step s s' := ∃ action, StepGuard s action ∧ s.step action = some s'

theorem queueRight_of_guarded [DecidableEq Thread] {s : Threads Thread}
    (h : (guardedThreads Thread).Reach s) : QueueRight s := by
  have hinductive : (guardedThreads Thread).Inductive QueueRight := by
    constructor
    · rintro s ⟨eventQueue, screensaverState, rfl⟩
      exact queueRight_init eventQueue screensaverState
    · rintro s s' hright ⟨action, hguard, hstep⟩
      exact hright.step hguard hstep
  exact hinductive.reach h

/-- Some actions, one after the other. -/
def Threads.run [DecidableEq Thread] (s : Threads Thread) (actions : List (Action Thread)) :
    Option (Threads Thread) :=
  actions.foldlM Threads.step s

theorem reach_run [DecidableEq Thread] {s s' : Threads Thread} {actions : List (Action Thread)}
    (h : (threads Thread).Reach s) (hrun : s.run actions = some s') :
    (threads Thread).Reach s' := by
  induction actions generalizing s with
  | nil =>
    cases hrun
    exact h
  | cons action actions ih =>
    obtain ⟨t, hstep, hrun⟩ := Option.bind_eq_some_iff.mp hrun
    exact ih (h.step ⟨action, hstep⟩) hrun

/-- No answer from the system but the time. -/
def later (now : Int) : Answers := ⟨now, now, false, true, false⟩

/-- The screen goes out while nobody touches it. -/
def darken : List (Action Unit) :=
  [.callWait () (later 0), .resumeWait () .timedOut (later 200),
    .resumeWait () .timedOut (later 200), .callWait () (later 200),
    .resumeWait () .timedOut (later 400), .resumeWait () .timedOut (later 400)]

instance (s : Shared) : Decidable (DropGuard s) :=
  decidable_of_iff (∀ w < 3 * (s.eventQueueLen - 1), s.eventQueueLen - 1 ≤ w →
    s.eventQueue w = s.eventQueue (w + 3))
    ⟨fun h w hle hlt => h w hlt hle, fun h w hlt hle => h w hle hlt⟩

instance (s : Threads Unit) : DecidablePred (StepGuard s)
  | .enqueueKey _ | .enqueueTouch _ => .isTrue trivial
  | .cancelWaitKey => inferInstanceAs (Decidable (_ < _))
  | .callWait _ _ => inferInstanceAs (Decidable (_ → _))
  | .resumeWait t _ _ => inferInstanceAs (Decidable (∀ w ∈ s.waiting t, _))

/-- Some actions, one after the other, each under its condition. -/
def Threads.guardedRun (s : Threads Unit) (actions : List (Action Unit)) : Option (Threads Unit) :=
  actions.foldlM (fun s action => if StepGuard s action then s.step action else none) s

theorem reach_guardedRun {s s' : Threads Unit} {actions : List (Action Unit)}
    (h : (guardedThreads Unit).Reach s) (hrun : s.guardedRun actions = some s') :
    (guardedThreads Unit).Reach s' := by
  induction actions generalizing s with
  | nil =>
    cases hrun
    exact h
  | cons action actions ih =>
    obtain ⟨t, hstep, hrun⟩ := Option.bind_eq_some_iff.mp hrun
    dsimp only at hstep
    split at hstep
    · rename_i hguard
      exact ih (h.step ⟨action, hguard, hstep⟩) hrun
    · cases hstep

/-- A key wakes the screen, and the touch and the cancellation that come later are returned. -/
theorem queueRight_of_guarded_key : ∃ s : Threads Unit, s.removed = [.dropped (.key 5) .off,
    .returned (.touch ⟨7, 8⟩), .returned (.key KEY_REFRESH)] ∧ QueueRight s := by
  have hrun : ((Threads.init (fun _ => 0) .normal).guardedRun (darken ++
      [.enqueueKey 5, .callWait () (later 400), .enqueueTouch ⟨7, 8⟩, .cancelWaitKey,
        .callWait () (later 401), .callWait () (later 402)])).map Threads.removed =
        some [.dropped (.key 5) .off, .returned (.touch ⟨7, 8⟩),
          .returned (.key KEY_REFRESH)] := by
    decide
  obtain ⟨s, hrun, hremoved⟩ := Option.map_eq_some_iff.mp hrun
  exact ⟨s, hremoved, queueRight_of_guarded (reach_guardedRun (.init ⟨_, _, rfl⟩) hrun)⟩

/-- A key wakes the screen, and the touch that comes with it is returned at the position of the
key. -/
theorem not_queueRight : ¬∀ s : Threads Unit, (threads Unit).Reach s → QueueRight s := by
  intro h
  have hrun : ∃ s : Threads Unit, (Threads.init (fun _ => 0) .normal).run (darken ++
      [.enqueueKey 5, .enqueueTouch ⟨7, 8⟩, .callWait () (later 400)]) = some s ∧
      s.removed = [.dropped (.key 5) .off, .returned (.touch ⟨5, 0⟩)] ∧
      s.offered = [(.key 5, 0), (.touch ⟨7, 8⟩, 1)] := ⟨_, rfl, by decide, by decide⟩
  obtain ⟨s, hrun, hremoved, hoffered⟩ := hrun
  have hfifo := (h s (reach_run (.init ⟨_, _, rfl⟩) hrun)).fifo
  rw [hremoved, hoffered] at hfifo
  have := (List.cons.inj (List.cons.inj hfifo).2).1
  exact absurd this (by decide)

end BootableRecovery.RecoveryUI
