import BootableRecovery.Theory.System
import BootableRecovery.Updater.Sink

/-!
# New data from hand to hand

The main thread and the thread of `unzip_new_data` share `NewThreadInfo`: a mutex, a condition
variable, the writer of the `new` command at hand, and `receiver_available`. Each thread is at a
place between two operations on the mutex or the condition variable, and one step takes it to its
next place. A thread that waits is woken by a broadcast, or for no reason (`Spurious`).

`HandOff.Invariant` says at every moment who has the mutex, why a thread waits, what the writer has
still to fill, and where in the stream the receiver is.
-/

namespace BootableRecovery.BlockImg

/-- The two threads. -/
inductive Thread
  | main
  | receiver
  deriving DecidableEq

/-- Where the main thread is: between two commands; in `PerformCommandNew` before it has the mutex,
before it sets the writer, at the test of its loop, waiting, or woken and without the mutex; after
the commands before it has the mutex and with it, in `pthread_join`, and after it. -/
inductive MainPlace
  | ready
  | newLock (tgt : RangeSet)
  | newSet (tgt : RangeSet)
  | newTest (tgt : RangeSet)
  | newWait (tgt : RangeSet)
  | newWake (tgt : RangeSet)
  | endLock (rc : Bool)
  | endSet (rc : Bool)
  | join (rc : Bool)
  | done (rc : Bool)

/-- Where the receiver is: in `ProcessZipEntryContents`; in `receive_new_data` with the data that is
left before it has the mutex, at the test of its inner loop, waiting, woken and without the mutex,
before it writes, and with a full writer before it has the mutex and with it; at the end of
`unzip_new_data` before it has the mutex and with it, and after it. -/
inductive ReceiverPlace
  | entry
  | lock (data : List UInt8)
  | test (data : List UInt8)
  | wait (data : List UInt8)
  | wake (data : List UInt8)
  | write (data : List UInt8)
  | fullLock (data : List UInt8)
  | fullSet (data : List UInt8)
  | endLock
  | endSet
  | ended

/-- A broadcast wakes the main thread. -/
def MainPlace.woken : MainPlace → MainPlace
  | newWait tgt => newWake tgt
  | place => place

/-- A broadcast wakes the receiver. -/
def ReceiverPlace.woken : ReceiverPlace → ReceiverPlace
  | wait data => wake data
  | place => place

/-- The test of the outer loop of `receive_new_data`. -/
def ReceiverPlace.next (data : List UInt8) : ReceiverPlace := if data = [] then entry else lock data

/-- The two threads: the targets of the `new` commands to come, the members of `NewThreadInfo`, the
coming calls of the receiver, the device, its steps since the command at hand has set its writer,
and the commands that have returned 0 with the steps that they took. -/
structure HandOff where
  todo : List RangeSet
  main : MainPlace
  receiver : ReceiverPlace
  mu : Option Thread
  writer : Option RangeSinkWriter
  receiverAvailable : Bool
  calls : List (List UInt8)
  params : CommandParameters
  disk : Disk
  steps : List Step
  returned : List (RangeSet × List Step)

namespace HandOff

/-- The main thread has started the receiver's. -/
def start (calls : List (List UInt8)) (tgts : List RangeSet) (p : CommandParameters) (d : Disk) :
    HandOff where
  todo := tgts
  main := .ready
  receiver := .entry
  mu := none
  writer := none
  receiverAvailable := true
  calls
  params := p
  disk := d
  steps := []
  returned := []

/-- The steps of the main thread. Between two `new` commands another command may fail, which ends
the loop. -/
inductive MainStep (s : HandOff) : HandOff → Prop
  | begin : s.main = .ready → s.todo = tgt :: rest →
    MainStep s { s with todo := rest, main := .newLock tgt }
  | finish (rc : Bool) : s.main = .ready → (rc = true → s.todo = []) →
    MainStep s { s with main := .endLock rc }
  | lock : s.main = .newLock tgt → s.mu = none →
    MainStep s { s with mu := some .main, main := .newSet tgt }
  | set : s.main = .newSet tgt → MainStep s { s with
      writer := some (.make tgt), receiver := s.receiver.woken, main := .newTest tgt }
  | taken : s.main = .newTest tgt → s.writer = none → MainStep s { s with
      mu := none, main := .ready, returned := s.returned ++ [(tgt, s.steps)], steps := [] }
  | missing : s.main = .newTest tgt → s.writer ≠ none → s.receiverAvailable = false →
      MainStep s { s with mu := none, main := .endLock false }
  | wait : s.main = .newTest tgt → s.writer ≠ none → s.receiverAvailable = true →
      MainStep s { s with mu := none, main := .newWait tgt }
  | relock : s.main = .newWake tgt → s.mu = none →
    MainStep s { s with mu := some .main, main := .newTest tgt }
  | lockEnd : s.main = .endLock rc → s.mu = none →
    MainStep s { s with mu := some .main, main := .endSet rc }
  | setEnd : s.main = .endSet rc → MainStep s { s with
      receiverAvailable := false, receiver := s.receiver.woken, mu := none, main := .join rc }
  | join : s.main = .join rc → s.receiver = .ended → MainStep s { s with main := .done rc }

/-- The receiver writes as much of its data as the writer has space for, without the mutex. -/
def write (env : Env) (s : HandOff) (w : RangeSinkWriter) (data : List UInt8) : HandOff :=
  let now := min data.length w.availableSpace
  let steps := (w.write env (data.take now)).steps s.params s.disk
  let t := { s with disk := steps.foldl (Disk.apply env) s.disk, steps := s.steps ++ steps }
  match (w.write env (data.take now)).result s.params s.disk with
  | none => { t with receiver := .endLock }
  | some ((w, n), params) =>
    if n = now then
      let rest := data.drop now
      { t with
        params, writer := some w, receiver := if w.finished then .fullLock rest else .next rest }
    else { t with params, writer := some w, receiver := .endLock }

/-- The steps of the receiver. `unzip_new_data` broadcasts at its end only if there is a writer. -/
inductive ReceiverStep (env : Env) (s : HandOff) : HandOff → Prop
  | call : s.receiver = .entry → s.calls = data :: rest →
      ReceiverStep env s { s with calls := rest, receiver := .next data }
  | endOfEntry : s.receiver = .entry → s.calls = [] →
    ReceiverStep env s { s with receiver := .endLock }
  | lock : s.receiver = .lock data → s.mu = none →
      ReceiverStep env s { s with mu := some .receiver, receiver := .test data }
  | unavailable : s.receiver = .test data → s.writer = none → s.receiverAvailable = false →
      ReceiverStep env s { s with mu := none, receiver := .endLock }
  | wait : s.receiver = .test data → s.writer = none → s.receiverAvailable = true →
      ReceiverStep env s { s with mu := none, receiver := .wait data }
  | relock : s.receiver = .wake data → s.mu = none →
      ReceiverStep env s { s with mu := some .receiver, receiver := .test data }
  | own : s.receiver = .test data → s.writer ≠ none →
    ReceiverStep env s { s with mu := none, receiver := .write data }
  | write : s.receiver = .write data → s.writer = some w → ReceiverStep env s (s.write env w data)
  | lockFull : s.receiver = .fullLock data → s.mu = none →
      ReceiverStep env s { s with mu := some .receiver, receiver := .fullSet data }
  | setFull : s.receiver = .fullSet data → ReceiverStep env s { s with
      writer := none, main := s.main.woken, mu := none, receiver := .next data }
  | lockEnd : s.receiver = .endLock → s.mu = none →
      ReceiverStep env s { s with mu := some .receiver, receiver := .endSet }
  | setEnd : s.receiver = .endSet → ReceiverStep env s { s with
      receiverAvailable := false, main := if s.writer = none then s.main else s.main.woken, mu :=
        none
      receiver := .ended }

/-- A step of either thread. -/
def Next (env : Env) (s s' : HandOff) : Prop := s.MainStep s' ∨ s.ReceiverStep env s'

/-- `pthread_cond_wait` returns for no reason. -/
inductive Spurious (s : HandOff) : HandOff → Prop
  | main : s.main = .newWait tgt → Spurious s { s with main := .newWake tgt }
  | receiver : s.receiver = .wait data → Spurious s { s with receiver := .wake data }

/-- The two threads, with the zip entry cut into the given calls of the receiver. -/
def system (env : Env) (calls : List (List UInt8)) (tgts : List RangeSet) (p : CommandParameters)
    (d : Disk) : System HandOff where
  init s := s = start calls tgts p d
  step s s' := Next env s s' ∨ Spurious s s'

end HandOff

/-! ## Places -/

namespace MainPlace

/-- The target of the `new` command that has set its writer. -/
def wants : MainPlace → Option RangeSet
  | newTest tgt | newWait tgt | newWake tgt => some tgt
  | _ => none

/-- The main thread has the mutex. -/
def holds : MainPlace → Bool
  | newSet _ | newTest _ | endSet _ => true
  | _ => false

/-- The commands are over. -/
def ending : MainPlace → Bool
  | endLock _ | endSet _ | join _ | done _ => true
  | _ => false

/-- The main thread has cleared `receiver_available`. -/
def cleared : MainPlace → Bool
  | join _ | done _ => true
  | _ => false

@[simp] theorem woken_wants (m : MainPlace) : m.woken.wants = m.wants := by cases m <;> rfl

@[simp] theorem woken_holds (m : MainPlace) : m.woken.holds = m.holds := by cases m <;> rfl

@[simp] theorem woken_ending (m : MainPlace) : m.woken.ending = m.ending := by cases m <;> rfl

@[simp] theorem woken_cleared (m : MainPlace) : m.woken.cleared = m.cleared := by cases m <;> rfl

theorem woken_ne_newWait (m : MainPlace) (tgt : RangeSet) :
    m.woken ≠ .newWait tgt := by cases m <;> exact nofun

theorem of_woken_new {m : MainPlace} {tgt : RangeSet}
    (h : m.woken = .newLock tgt ∨ m.woken = .newSet tgt) : m = .newLock tgt ∨ m = .newSet tgt := by
  cases m <;> first | exact h | exact absurd h (by simp [woken])

end MainPlace

namespace ReceiverPlace

/-- The data that is left of the call at hand. -/
def data : ReceiverPlace → List UInt8
  | lock data | test data | wait data | wake data | write data | fullLock data | fullSet data =>
    data
  | _ => []

/-- The receiver has the mutex. -/
def holds : ReceiverPlace → Bool
  | test _ | fullSet _ | endSet => true
  | _ => false

/-- In the body of the outer loop, before the write. -/
def works : ReceiverPlace → Bool
  | lock _ | test _ | wait _ | wake _ | write _ => true
  | _ => false

/-- The receiver has a full writer. -/
def full : ReceiverPlace → Bool
  | fullLock _ | fullSet _ => true
  | _ => false

/-- No more data is taken. -/
def isOver : ReceiverPlace → Bool
  | endLock | endSet | ended => true
  | _ => false

@[simp] theorem woken_data (r : ReceiverPlace) : r.woken.data = r.data := by cases r <;> rfl

@[simp] theorem woken_holds (r : ReceiverPlace) : r.woken.holds = r.holds := by cases r <;> rfl

@[simp] theorem woken_works (r : ReceiverPlace) : r.woken.works = r.works := by cases r <;> rfl

@[simp] theorem woken_full (r : ReceiverPlace) : r.woken.full = r.full := by cases r <;> rfl

@[simp] theorem woken_isOver (r : ReceiverPlace) : r.woken.isOver = r.isOver := by cases r <;> rfl

@[simp] theorem woken_eq_ended (r : ReceiverPlace) : r.woken = .ended ↔
    r = .ended := by cases r <;> simp [woken]

@[simp] theorem woken_eq_write (r : ReceiverPlace) (data : List UInt8) : r.woken = .write data ↔
    r = .write data := by
  cases r <;> simp [woken]

theorem woken_ne_wait (r : ReceiverPlace) (data : List UInt8) :
    r.woken ≠ .wait data := by cases r <;> exact nofun

end ReceiverPlace

namespace HandOff

/-- The bytes that some steps write. -/
def bytes (steps : List Step) : List UInt8 := (written steps).map Prod.snd

/-- The bytes that the commands have written that returned 0. -/
def returnedBytes (returned : List (RangeSet × List Step)) : List UInt8 :=
  returned.flatMap fun r => bytes r.2

/-- What holds at every moment: who has the mutex, why a thread waits, whose the writer is, what it
has still to fill, and where in the stream the receiver is. -/
structure Invariant (stream : List UInt8) (s : HandOff) : Prop where
  muMain : s.mu = some .main ↔ s.main.holds = true
  muReceiver : s.mu = some .receiver ↔ s.receiver.holds = true
  available : s.receiverAvailable = true ↔ s.receiver ≠ .ended ∧ s.main.cleared = false
  mainWait : ∀ tgt, s.main = .newWait tgt → s.writer ≠ none ∧ s.receiverAvailable = true
  receiverWait : ∀ data, s.receiver = .wait data → s.writer = none ∧ s.receiverAvailable = true
  works : s.receiver.works = true → s.receiver.data ≠ []
  owns : (∃ data, s.receiver = .write data) ∨ s.receiver.full = true → s.writer ≠ none
  idle : s.main.wants = none → s.writer = none ∧ s.steps = [] ∨ s.receiver = .ended ∧
    s.main.ending = true
  valid : ∀ tgt ∈ s.todo, tgt.isValid = true
  validNew : ∀ tgt, s.main = .newLock tgt ∨ s.main = .newSet tgt → tgt.isValid = true
  complete : ∀ r ∈ s.returned, (written r.2).map Prod.fst = addresses r.1
  inOrder : returnedBytes s.returned <+: stream
  remaining : s.receiver.isOver = false →
    returnedBytes s.returned ++ bytes s.steps ++ s.receiver.data ++ s.calls.flatten = stream
  taken : ∀ tgt, s.main.wants = some tgt → s.writer = none →
    (written s.steps).map Prod.fst = addresses tgt ∧
    returnedBytes s.returned ++ bytes s.steps <+: stream
  used : s.receiver.isOver = false → ∀ tgt w, s.main.wants = some tgt → s.writer = some w →
    w.Valid ∧ (written s.steps).map Prod.fst ++ w.addresses = addresses tgt ∧
    w.finished = s.receiver.full

variable {env : Env} {stream : List UInt8} {tgts : List RangeSet} {calls : List (List UInt8)}
variable {p : CommandParameters} {d : Disk} {s s' : HandOff}

theorem Invariant.start (hvalid : ∀ tgt ∈ tgts, tgt.isValid = true) (calls : List (List UInt8)) :
    Invariant calls.flatten (HandOff.start calls tgts p d) where
  muMain := ⟨(nomatch ·), (nomatch ·)⟩
  muReceiver := ⟨(nomatch ·), (nomatch ·)⟩
  available := ⟨fun _ => ⟨(nomatch ·), rfl⟩, fun _ => rfl⟩
  mainWait _ h := by cases h
  receiverWait _ h := by cases h
  works h := by cases h
  owns h := by rcases h with ⟨_, h⟩ | h <;> cases h
  idle _ := .inl ⟨rfl, rfl⟩
  valid := hvalid
  validNew _ h := by rcases h with h | h <;> cases h
  complete _ h := by cases h
  inOrder := List.nil_prefix
  remaining _ := rfl
  taken _ h := by cases h
  used _ _ _ h := by cases h

theorem mu_iff {a b : Option Thread} {t : Thread} {P : Prop} (h : a = some t ↔ P) (ha : a ≠ some t)
    (hb : b ≠ some t) : b = some t ↔ P :=
  ⟨fun h' => absurd h' hb, fun hP => absurd (h.mpr hP) ha⟩

theorem Invariant.mainStep (h : Invariant stream s) (hs : MainStep s s') : Invariant stream s' := by
  obtain ⟨todo, main, receiver, mu, writer, receiverAvailable, calls, params, disk, steps,
      returned⟩ := s
  cases hs with
  | @begin tgt rest hmain htodo =>
    cases hmain
    cases htodo
    have hvalid := List.forall_mem_cons.mp h.valid
    exact { h with
      mainWait := fun _ h => by cases h
      idle := fun _ => (h.idle rfl).imp_right fun h => by cases h.2
      valid := hvalid.2
      validNew := fun tgt h => by
        rcases h with h | h <;> cases h
        exact hvalid.1
      taken := fun _ h => by cases h
      used := fun _ _ _ h => by cases h }
  | @finish rc hmain htodo =>
    cases hmain
    exact { h with
      mainWait := fun _ h => by cases h
      idle := fun _ => (h.idle rfl).imp_right fun h => by cases h.2
      validNew := fun tgt h => by rcases h with h | h <;> cases h
      taken := fun _ h => by cases h
      used := fun _ _ _ h => by cases h }
  | @lock tgt hmain hmu =>
    cases hmain
    cases hmu
    exact { h with
      muMain := ⟨fun _ => rfl, fun _ => rfl⟩
      muReceiver := mu_iff h.muReceiver nofun nofun
      mainWait := fun _ h => by cases h
      idle := fun _ => (h.idle rfl).imp_right fun h => by cases h.2
      validNew := fun _ h' => by
        rcases h' with h' | h' <;> cases h'
        exact h.validNew tgt (.inl rfl)
      taken := fun _ h => by cases h
      used := fun _ _ _ h => by cases h }
  | @set tgt hmain =>
    cases hmain
    have hvalid := h.validNew tgt (.inr rfl)
    obtain ⟨hwriter, hsteps⟩ := (h.idle rfl).resolve_right fun h => by cases h.2
    cases hwriter
    cases hsteps
    have hfull : receiver.full = false := by
      by_contra hfull
      exact h.owns (.inr (by simpa using hfull)) rfl
    exact { h with
      muReceiver := by simpa using h.muReceiver
      available := by
        simp only [ne_eq, ReceiverPlace.woken_eq_ended]
        exact h.available
      mainWait := fun _ h => by cases h
      receiverWait := fun data h => absurd h (receiver.woken_ne_wait data)
      works := by simpa using h.works
      owns := fun _ => nofun
      idle := fun h => by cases h
      validNew := fun _ h => by rcases h with h | h <;> cases h
      remaining := by simpa using h.remaining
      taken := fun _ _ h => by cases h
      used := fun _ tgt' w htgt hw => by
        cases htgt
        cases hw
        have huse := RangeSinkWriter.valid_make tgt
        refine ⟨huse, RangeSinkWriter.addresses_make tgt, ?_⟩
        rw [ReceiverPlace.woken_full, hfull, ← Bool.not_eq_true,
          RangeSinkWriter.finished_iff tgt.nonempty, RangeSinkWriter.addresses_make,
          ← List.length_eq_zero_iff, length_addresses]
        exact Nat.ne_of_gt (Nat.mul_pos (RangeSet.blocks_pos hvalid) (by decide)) }
  | @taken tgt hmain hwriter =>
    cases hmain
    cases hwriter
    cases h.muMain.mpr rfl
    obtain ⟨hall, hprefix⟩ := h.taken tgt rfl rfl
    have hbytes :
        returnedBytes (returned ++ [(tgt, steps)]) = returnedBytes returned ++ bytes steps := by
      simp [returnedBytes]
    exact { h with
      muMain := ⟨nofun, nofun⟩
      muReceiver := mu_iff h.muReceiver nofun nofun
      mainWait := fun _ h => by cases h
      idle := fun _ => .inl ⟨rfl, rfl⟩
      validNew := fun _ h => by rcases h with h | h <;> cases h
      complete := fun r hr => by
        rcases List.mem_append.mp hr with hr | hr
        · exact h.complete r hr
        · cases List.mem_singleton.mp hr
          exact hall
      inOrder := by rwa [hbytes]
      remaining := fun hover => by
        have hrem := h.remaining hover
        rw [hbytes]
        rwa [show bytes [] = [] from rfl, List.append_nil]
      taken := fun _ h => by cases h
      used := fun _ _ _ h => by cases h }
  | @missing tgt hmain hwriter havailable =>
    cases hmain
    cases havailable
    cases h.muMain.mpr rfl
    have hended : receiver = .ended := by
      by_contra hended
      cases h.available.mpr ⟨hended, rfl⟩
    exact { h with
      muMain := ⟨nofun, nofun⟩
      muReceiver := mu_iff h.muReceiver nofun nofun
      mainWait := fun _ h => by cases h
      idle := fun _ => .inr ⟨hended, rfl⟩
      validNew := fun _ h => by rcases h with h | h <;> cases h
      taken := fun _ h => by cases h
      used := fun _ _ _ h => by cases h }
  | @wait tgt hmain hwriter havailable =>
    cases hmain
    cases havailable
    cases h.muMain.mpr rfl
    exact { h with
      muMain := ⟨nofun, nofun⟩
      muReceiver := mu_iff h.muReceiver nofun nofun
      mainWait := fun _ _ => ⟨hwriter, rfl⟩
      validNew := fun _ h => by rcases h with h | h <;> cases h }
  | @relock tgt hmain hmu =>
    cases hmain
    cases hmu
    exact { h with
      muMain := ⟨fun _ => rfl, fun _ => rfl⟩
      muReceiver := mu_iff h.muReceiver nofun nofun
      mainWait := fun _ h => by cases h
      validNew := fun _ h => by rcases h with h | h <;> cases h }
  | @lockEnd rc hmain hmu =>
    cases hmain
    cases hmu
    exact { h with
      muMain := ⟨fun _ => rfl, fun _ => rfl⟩
      muReceiver := mu_iff h.muReceiver nofun nofun
      mainWait := fun _ h => by cases h
      validNew := fun _ h => by rcases h with h | h <;> cases h }
  | @setEnd rc hmain =>
    cases hmain
    cases h.muMain.mpr rfl
    exact { h with
      muMain := ⟨nofun, nofun⟩
      muReceiver := by
        rw [ReceiverPlace.woken_holds]
        exact mu_iff h.muReceiver nofun nofun
      available := ⟨nofun, fun h => by cases h.2⟩
      mainWait := fun _ h => by cases h
      receiverWait := fun data h => absurd h (receiver.woken_ne_wait data)
      works := by simpa using h.works
      owns := by simpa using h.owns
      idle := fun _ => (h.idle rfl).imp_right fun h =>
        ⟨(ReceiverPlace.woken_eq_ended receiver).mpr h.1, rfl⟩
      validNew := fun _ h => by rcases h with h | h <;> cases h
      remaining := by simpa using h.remaining
      used := fun _ _ _ h => by cases h }
  | @join rc hmain hended =>
    cases hmain
    exact { h with
      mainWait := fun _ h => by cases h
      validNew := fun _ h => by rcases h with h | h <;> cases h }

/-- `Write` of the main thread's writer: it takes all data if there is room, and its steps write the
data to the addresses that it has still to fill. -/
theorem write_spec {w : RangeSinkWriter} {tgt : RangeSet} {before : List (Nat × UInt8)}
    (hw : w.Valid) (haddr : before.map Prod.fst ++ w.addresses = addresses tgt)
    (data : List UInt8) : ∃ w' n p', (w.write env data).result p d = some ((w', n), p') ∧
    (n = data.length →
      data.length ≤ w.addresses.length ∧ w'.Valid ∧ w'.addresses = w.addresses.drop data.length ∧
        written ((w.write env data).steps p d) = w.addresses.zip data) := by
  have hrun :
      wp (.history (Disk.apply env)) (fun _ => True) (w.write env data) (fun r t =>
        ∃ w' n p', r = some ((w', n), p') ∧
        (n = data.length → data.length ≤ w.addresses.length ∧ w'.Valid ∧
          w'.addresses = w.addresses.drop data.length ∧ before ++ written t.2 =
          before ++ w.addresses.zip data))
      p (d, []) := by
    refine wp_write (sinkInvariant_written tgt before)
      (fun _ _ _ => trivial) hw haddr (List.append_nil before)
      (fun p' w' t _ hle hw' ha' ht => ?_) fun _ p' w' t k _ _ hk _ => ?_
    · exact ⟨w', _, p', rfl, fun _ => ⟨hle, hw', ha', ht⟩⟩
    · exact ⟨w', k, p', rfl, fun heq => absurd heq (Nat.ne_of_lt hk)⟩
  obtain ⟨w', n, p', hresult, htaken⟩ := wp_result hrun
  refine ⟨w', n, p', hresult, fun hn => ?_⟩
  obtain ⟨hle, hw', ha', hsteps⟩ := htaken hn
  rw [Monitor.history_foldl, List.nil_append] at hsteps
  exact ⟨hle, hw', ha', List.append_cancel_left hsteps⟩

theorem next_cases (data : List UInt8) :
    ReceiverPlace.next data = .entry ∧ data = [] ∨ ReceiverPlace.next data = .lock data ∧
    data ≠ [] := by
  unfold ReceiverPlace.next
  split
  · exact .inl ⟨rfl, ‹_›⟩
  · exact .inr ⟨rfl, ‹_›⟩

theorem next_data (data : List UInt8) : (ReceiverPlace.next data).data = data := by
  rcases next_cases data with ⟨h, rfl⟩ | ⟨h, -⟩ <;> rw [h] <;> rfl

theorem next_works (data : List UInt8) (h : (ReceiverPlace.next data).works = true) :
    data ≠ [] := by
  rcases next_cases data with ⟨hnext, rfl⟩ | ⟨-, hne⟩
  · rw [hnext] at h
    cases h
  · exact hne

theorem next_plain (data : List UInt8) :
    (ReceiverPlace.next data).holds = false ∧ (ReceiverPlace.next data).full = false ∧
      (ReceiverPlace.next data).isOver = false ∧ (ReceiverPlace.next data) ≠ .ended ∧
      (∀ d, ReceiverPlace.next data ≠ .wait d) ∧ ∀ d, ReceiverPlace.next data ≠ .write d := by
  rcases next_cases data with ⟨h, -⟩ | ⟨h, -⟩ <;> rw [h] <;> simp [ReceiverPlace.holds,
    ReceiverPlace.full, ReceiverPlace.isOver]

/-- As long as the receiver has not ended, a writer is that of a `new` command. -/
theorem Invariant.exists_wants (h : Invariant stream s) (hended : s.receiver ≠ .ended)
    (hwriter : s.writer ≠ none) : ∃ tgt, s.main.wants = some tgt := by
  cases hwants : s.main.wants with
  | some tgt => exact ⟨tgt, rfl⟩
  | none =>
    rcases h.idle hwants with ⟨hnone, -⟩ | ⟨hover, -⟩
    · exact absurd hnone hwriter
    · exact absurd hover hended

theorem Invariant.write (h : Invariant stream s) {w : RangeSinkWriter} {data : List UInt8}
    (hreceiver : s.receiver = .write data) (hwriter : s.writer = some w) :
    Invariant stream (s.write env w data) := by
  obtain ⟨todo, main, receiver, mu, writer, receiverAvailable, calls, params, disk, steps,
      returned⟩ := s
  cases hreceiver
  cases hwriter
  obtain ⟨tgt, hwants⟩ := h.exists_wants nofun nofun
  obtain ⟨hw, haddr, -⟩ := h.used rfl tgt w hwants rfl
  have hrem := h.remaining rfl
  generalize hnow : min data.length w.availableSpace = now
  have hlen : (data.take now).length = now := by
    rw [List.length_take]
    omega
  obtain ⟨w', n, p', hresult, htaken⟩ :=
    @write_spec env params disk w tgt (written steps) hw haddr (data.take now)
  rw [hlen] at htaken
  have hgo {r : ReceiverPlace} (hr : r ≠ .ended) : receiverAvailable = true ↔
      r ≠ .ended ∧ main.cleared = false :=
    h.available.trans (and_congr_left fun _ => iff_of_true (by simp) hr)
  simp only [HandOff.write, hnow, hresult]
  split
  · rename_i hn
    obtain ⟨hle, hw', ha', hsteps⟩ := htaken hn
    have hbytes : bytes (steps ++ (w.write env (data.take now)).steps params disk) =
        bytes steps ++ data.take now := by
      rw [bytes, written, List.flatMap_append, ← written, ← written, hsteps, List.map_append,
        List.map_snd_zip (by rw [hlen]; exact hle)]
      rfl
    have haddr' :
        (written (steps ++ (w.write env (data.take now)).steps params disk)).map Prod.fst ++
        w'.addresses = addresses tgt := by
      rw [written, List.flatMap_append, ← written, ← written, hsteps, List.map_append,
        List.append_assoc, ha', ← haddr]
      congr 1
      have hzip : (data.take now).length ≤ w.addresses.length := by
        rw [hlen]
        exact hle
      have := map_fst_zip_append_drop hzip
      rwa [hlen] at this
    have hremaining :
        returnedBytes returned ++
        bytes (steps ++ (w.write env (data.take now)).steps params disk) ++ data.drop now ++
        calls.flatten = stream := by
      rw [hbytes, ← List.append_assoc (returnedBytes returned), List.append_assoc _ (data.take now),
        List.take_append_drop]
      exact hrem
    have hused : ∀ tgt' u, main.wants = some tgt' → some w' = some u → u.Valid ∧
        (written (steps ++ (w.write env (data.take now)).steps params disk)).map Prod.fst ++
        u.addresses =
          addresses tgt' ∧ u.finished = w'.finished := by
      intro tgt' u htgt hu
      cases hu
      cases hwants.symm.trans htgt
      exact ⟨hw', haddr', rfl⟩
    cases hfin : w'.finished with
    | true =>
      rw [hfin] at hused
      exact { h with
        available := by
          rw [if_pos rfl]
          exact hgo (by simp)
        mainWait := fun tgt h' => ⟨Option.some_ne_none _, (h.mainWait tgt h').2⟩
        receiverWait := fun _ h => by cases h
        works := fun h => by cases h
        owns := fun _ => Option.some_ne_none _
        idle := fun h => by
          rw [hwants] at h
          cases h
        remaining := fun _ => hremaining
        taken := fun _ _ h => by cases h
        used := fun _ => hused }
    | false =>
      obtain ⟨hholds, hfull, hover, hended, hwait, hwrite⟩ := next_plain (data.drop now)
      rw [hfin] at hused
      exact { h with
        muReceiver := by
          rw [if_neg Bool.false_ne_true, hholds]
          exact h.muReceiver
        available := by
          rw [if_neg Bool.false_ne_true]
          exact hgo hended
        mainWait := fun tgt h' => ⟨Option.some_ne_none _, (h.mainWait tgt h').2⟩
        receiverWait := fun d h => absurd h (hwait d)
        works := by
          rw [if_neg Bool.false_ne_true, next_data]
          exact next_works _
        owns := fun _ => Option.some_ne_none _
        idle := fun h => by
          rw [hwants] at h
          cases h
        remaining := fun _ => by
          rw [if_neg Bool.false_ne_true, next_data]
          exact hremaining
        taken := fun _ _ h => by cases h
        used := fun _ => by
          rw [if_neg Bool.false_ne_true, hfull]
          exact hused }
  · exact { h with
      available := hgo (by simp)
      mainWait := fun tgt h' => ⟨Option.some_ne_none _, (h.mainWait tgt h').2⟩
      receiverWait := fun _ h => by cases h
      works := fun h => by cases h
      owns := fun _ => Option.some_ne_none _
      idle := fun h => by
        rw [hwants] at h
        cases h
      remaining := fun h => by cases h
      taken := fun _ _ h => by cases h
      used := fun h => by cases h }

theorem Invariant.receiverStep (h : Invariant stream s) (hs : ReceiverStep env s s') :
    Invariant stream s' := by
  obtain ⟨todo, main, receiver, mu, writer, receiverAvailable, calls, params, disk, steps,
      returned⟩ := s
  cases hs with
  | @call data rest hreceiver hcalls =>
    cases hreceiver
    cases hcalls
    obtain ⟨hholds, hfull, hover, hended, hwait, hwrite⟩ := next_plain data
    have hrem := h.remaining rfl
    exact { h with
      muReceiver := by
        rw [hholds]
        exact h.muReceiver
      available := h.available.trans (and_congr_left fun _ => ⟨fun _ => hended, fun _ => nofun⟩)
      receiverWait := fun d h => absurd h (hwait d)
      works := fun h => by
        rw [next_data]
        exact next_works data h
      owns := fun h => by
        rcases h with ⟨d, h⟩ | h
        · exact absurd h (hwrite d)
        · rw [hfull] at h
          cases h
      idle := fun hmain => (h.idle hmain).imp_right fun h => by cases h.1
      remaining := fun _ => by
        rw [next_data, List.append_assoc]
        rwa [show ReceiverPlace.entry.data = [] from rfl, List.append_nil, List.flatten_cons]
          at hrem
      used := fun _ tgt w hmain hw => by
        rw [hfull]
        exact h.used rfl tgt w hmain hw }
  | @endOfEntry hreceiver hcalls =>
    cases hreceiver
    exact { h with
      available := h.available.trans (and_congr_left fun _ => ⟨fun _ => nofun, fun _ => nofun⟩)
      receiverWait := fun d h => by cases h
      owns := fun h => by rcases h with ⟨d, h⟩ | h <;> cases h
      idle := fun hmain => (h.idle hmain).imp_right fun h => by cases h.1
      remaining := fun h => by cases h
      used := fun h => by cases h }
  | @lock data hreceiver hmu =>
    cases hreceiver
    cases hmu
    exact { h with
      muMain := mu_iff h.muMain nofun nofun
      muReceiver := ⟨fun _ => rfl, fun _ => rfl⟩
      available := h.available.trans (and_congr_left fun _ => ⟨fun _ => nofun, fun _ => nofun⟩)
      receiverWait := fun d h => by cases h
      owns := fun h => by rcases h with ⟨d, h⟩ | h <;> cases h
      idle := fun hmain => (h.idle hmain).imp_right fun h => by cases h.1 }
  | @unavailable data hreceiver hwriter havailable =>
    cases hreceiver
    cases h.muReceiver.mpr rfl
    exact { h with
      muMain := mu_iff h.muMain nofun nofun
      muReceiver := ⟨nofun, nofun⟩
      available := h.available.trans (and_congr_left fun _ => ⟨fun _ => nofun, fun _ => nofun⟩)
      receiverWait := fun d h => by cases h
      works := fun h => by cases h
      owns := fun h => by rcases h with ⟨d, h⟩ | h <;> cases h
      idle := fun hmain => (h.idle hmain).imp_right fun h => by cases h.1
      remaining := fun h => by cases h
      used := fun h => by cases h }
  | @wait data hreceiver hwriter havailable =>
    cases hreceiver
    cases h.muReceiver.mpr rfl
    exact { h with
      muMain := mu_iff h.muMain nofun nofun
      muReceiver := ⟨nofun, nofun⟩
      available := h.available.trans (and_congr_left fun _ => ⟨fun _ => nofun, fun _ => nofun⟩)
      receiverWait := fun _ _ => ⟨hwriter, havailable⟩
      owns := fun h => by rcases h with ⟨d, h⟩ | h <;> cases h
      idle := fun hmain => (h.idle hmain).imp_right fun h => by cases h.1 }
  | @relock data hreceiver hmu =>
    cases hreceiver
    cases hmu
    exact { h with
      muMain := mu_iff h.muMain nofun nofun
      muReceiver := ⟨fun _ => rfl, fun _ => rfl⟩
      available := h.available.trans (and_congr_left fun _ => ⟨fun _ => nofun, fun _ => nofun⟩)
      receiverWait := fun d h => by cases h
      owns := fun h => by rcases h with ⟨d, h⟩ | h <;> cases h
      idle := fun hmain => (h.idle hmain).imp_right fun h => by cases h.1 }
  | @own data hreceiver hwriter =>
    cases hreceiver
    cases h.muReceiver.mpr rfl
    exact { h with
      muMain := mu_iff h.muMain nofun nofun
      muReceiver := ⟨nofun, nofun⟩
      available := h.available.trans (and_congr_left fun _ => ⟨fun _ => nofun, fun _ => nofun⟩)
      receiverWait := fun d h => by cases h
      owns := fun _ => hwriter
      idle := fun hmain => (h.idle hmain).imp_right fun h => by cases h.1 }
  | @write data w hreceiver hwriter => exact h.write hreceiver hwriter
  | @lockFull data hreceiver hmu =>
    cases hreceiver
    cases hmu
    exact { h with
      muMain := mu_iff h.muMain nofun nofun
      muReceiver := ⟨fun _ => rfl, fun _ => rfl⟩
      available := h.available.trans (and_congr_left fun _ => ⟨fun _ => nofun, fun _ => nofun⟩)
      receiverWait := fun d h => by cases h
      works := fun h => by cases h
      owns := fun _ => h.owns (.inr rfl)
      idle := fun hmain => (h.idle hmain).imp_right fun h => by cases h.1 }
  | @setFull data hreceiver =>
    cases hreceiver
    cases h.muReceiver.mpr rfl
    obtain ⟨w, hw⟩ := Option.ne_none_iff_exists'.mp (h.owns (.inr rfl))
    cases hw
    obtain ⟨tgt, hwants⟩ := h.exists_wants nofun nofun
    obtain ⟨hvalid, haddr, hfin⟩ := h.used rfl tgt w hwants rfl
    obtain ⟨hholds, hfull, hover, hended, hwait, hwrite⟩ := next_plain data
    have hrem := h.remaining rfl
    exact { h with
      muMain := by
        rw [MainPlace.woken_holds]
        exact mu_iff h.muMain nofun nofun
      muReceiver := by
        rw [hholds]
        exact ⟨nofun, nofun⟩
      available := by
        rw [MainPlace.woken_cleared]
        exact h.available.trans (and_congr_left fun _ => ⟨fun _ => hended, fun _ => nofun⟩)
      mainWait := fun tgt h => absurd h (main.woken_ne_newWait tgt)
      receiverWait := fun d h => absurd h (hwait d)
      works := by
        rw [next_data]
        exact next_works data
      owns := fun h => by
        rcases h with ⟨d, h⟩ | h
        · exact absurd h (hwrite d)
        · rw [hfull] at h
          cases h
      idle := fun h => by
        rw [MainPlace.woken_wants, hwants] at h
        cases h
      validNew := fun tgt h' => h.validNew tgt (MainPlace.of_woken_new h')
      remaining := fun _ => by
        rw [next_data]
        exact hrem
      taken := fun tgt' h' _ => by
        rw [MainPlace.woken_wants, hwants] at h'
        cases h'
        rw [(RangeSinkWriter.finished_iff hvalid.nonempty).mp hfin, List.append_nil] at haddr
        refine ⟨haddr, ?_⟩
        rw [← hrem, List.append_assoc _ _ calls.flatten]
        exact List.prefix_append _ _
      used := fun _ _ _ _ h => by cases h }
  | @lockEnd hreceiver hmu =>
    cases hreceiver
    cases hmu
    exact { h with
      muMain := mu_iff h.muMain nofun nofun
      muReceiver := ⟨fun _ => rfl, fun _ => rfl⟩
      available := h.available.trans (and_congr_left fun _ => ⟨fun _ => nofun, fun _ => nofun⟩)
      receiverWait := fun d h => by cases h
      owns := fun h => by rcases h with ⟨d, h⟩ | h <;> cases h
      idle := fun hmain => (h.idle hmain).imp_right fun h => by cases h.1 }
  | @setEnd hreceiver =>
    cases hreceiver
    cases h.muReceiver.mpr rfl
    -- the main thread waits only if there is a writer, and then it is woken
    have hmain : (if writer = none then main else main.woken).wants = main.wants ∧
        (if writer = none then main else main.woken).holds = main.holds ∧
        (if writer = none then main else main.woken).ending = main.ending ∧
        (∀ tgt, (if writer = none then main else main.woken) ≠ .newWait tgt) ∧
        ∀ tgt, (if writer = none then main else main.woken) = .newLock tgt ∨
          (if writer = none then main else main.woken) = .newSet tgt → main = .newLock tgt ∨
          main = .newSet tgt := by
      split
      · exact ⟨rfl, rfl, rfl, fun tgt hwait => (h.mainWait tgt hwait).1 ‹_›, fun _ h => h⟩
      · exact ⟨main.woken_wants, main.woken_holds, main.woken_ending, main.woken_ne_newWait,
          fun _ =>
          MainPlace.of_woken_new⟩
    generalize (if writer = none then main else main.woken) = main' at hmain
    obtain ⟨hwants, hholds, hending, hwait, hnew⟩ := hmain
    exact { h with
      muMain := by
        rw [hholds]
        exact mu_iff h.muMain nofun nofun
      muReceiver := ⟨nofun, nofun⟩
      available := ⟨nofun, fun h => absurd rfl h.1⟩
      mainWait := fun tgt h => absurd h (hwait tgt)
      receiverWait := fun _ h => by cases h
      owns := fun h => by rcases h with ⟨d, h⟩ | h <;> cases h
      idle := fun h' => by
        rw [hwants] at h'
        exact (h.idle h').imp_right fun h => by cases h.1
      validNew := fun tgt h' => h.validNew tgt (hnew tgt h')
      remaining := fun h => by cases h
      taken := by
        rw [hwants]
        exact h.taken
      used := fun h => by cases h }

theorem Invariant.spurious (h : Invariant stream s) (hs : Spurious s s') : Invariant stream s' := by
  obtain ⟨todo, main, receiver, mu, writer, receiverAvailable, calls, params, disk, steps,
      returned⟩ := s
  cases hs with
  | @main tgt hmain =>
    cases hmain
    exact { h with
      mainWait := fun _ h => by cases h
      validNew := fun _ h => by rcases h with h | h <;> cases h }
  | @receiver data hreceiver =>
    cases hreceiver
    exact { h with
      available := h.available.trans (and_congr_left fun _ => ⟨fun _ => nofun, fun _ => nofun⟩)
      receiverWait := fun _ h => by cases h
      owns := fun h => by rcases h with ⟨d, h⟩ | h <;> cases h
      idle := fun hmain => (h.idle hmain).imp_right fun h => by cases h.1 }

end HandOff

end BootableRecovery.BlockImg
