import BootableRecovery.LibBase.Strings
import Mathlib.Data.List.TakeDrop

/-!
# Verified writes

`WriteToPartition` of `applypatch/applypatch.cpp`, call by call. The device is an adversary: it
answers each call as it likes, with a failure, with fewer bytes than asked for, and a read with any
bytes whatever was written before. What the function did is kept in a log, with one entry for each
attempt: the writes at their positions and the bytes that were read back.

In every run (`run_safe`), the second attempt starts at the first block of 4096 bytes that was read
back different, and the function returns 0 only if the last attempt read the whole of the data back.
-/

namespace BootableRecovery.ApplyPatch.VerifiedWrite

/-! ## The function -/

/-- The size of `buffer`. -/
def BUFFER_SIZE : Nat := 4096

/-- `1 << 20`, the most that one call of `ota_write` gets. -/
def MAX_WRITE : Nat := 2 ^ 20

/-- The answer to a call: -1 with `EINTR`, -1 with another error, or success. A successful write
takes `n` of its bytes and a successful read gives `bytes`, as far as was asked for. -/
inductive Answer
  | interrupted
  | failed
  | ok (n : Nat) (bytes : List UInt8)

/-- A call of `ota_write` for the partition: where, with which bytes, and how many of them were
taken. -/
structure Write where
  position : Nat
  bytes : List UInt8
  written : Nat
  deriving DecidableEq

/-- What one round of the outer loop did: its writes, whether `ota_fsync` was passed, and what the
reads of the verification gave at which position. -/
structure Attempt where
  writes : List Write
  synced : Bool
  reads : List (Nat × List UInt8)
  deriving DecidableEq

/-- The call that is made next, or the value that was returned. -/
inductive Control
  | openRdwr
  | seek
  | write
  | fsync
  | close
  | openRdonly
  | openDropCaches
  | writeDropCaches
  | closeDropCaches
  | seekBack
  | read
  | closeRetry
  | reopen
  | closeEnd
  | returned (result : Int)
  deriving DecidableEq

/-- The variables of `WriteToPartition`, the position of `fd`, and the log with the last attempt
first. `buffer` holds the first `so_far` bytes. -/
structure Writer where
  partition : Text
  control : Control
  attempt : Nat
  start : Nat
  p : Nat
  buffer : List UInt8
  position : Nat
  log : List Attempt
  deriving DecidableEq

def Writer.goto (w : Writer) (control : Control) : Writer := { w with control }

def Writer.fail (w : Writer) : Writer := w.goto (.returned (-1))

/-- The entry of the current attempt is changed. -/
def Writer.record (w : Writer) (f : Attempt → Attempt) : Writer :=
  { w with log := w.log.modifyHead f }

/-- A call whose failure ends the function. -/
def Writer.expect (w : Writer) (answer : Answer) (next : Nat → List UInt8 → Writer) : Writer :=
  match answer with
  | .ok n bytes => next n bytes
  | _ => w.fail

/-- The same for a call in `TEMP_FAILURE_RETRY`. -/
def Writer.retry (w : Writer) (answer : Answer) (next : Nat → List UInt8 → Writer) : Writer :=
  match answer with
  | .interrupted => w
  | _ => w.expect answer next

section
variable (data : List UInt8)

/-- The test of the loop that writes. -/
def Writer.whileStart (w : Writer) : Writer :=
  w.goto (if w.start < data.length then .write else .fsync)

/-- After the loop that verifies. -/
def Writer.verified (w : Writer) : Writer :=
  w.goto (if w.start = data.length then .closeEnd else .closeRetry)

/-- The test of the loop that verifies. -/
def Writer.forBlock (w : Writer) : Writer :=
  if w.p < data.length then w.goto .read else w.verified data

def Writer.toRead (w : Writer) : Nat := min (data.length - w.p) BUFFER_SIZE

/-- `ota_write(fd, data + start, to_write)` took some bytes. -/
def Writer.wrote (w : Writer) (n : Nat) : Writer :=
  let toWrite := min (data.length - w.start) MAX_WRITE
  let bytes := (data.drop w.start).take toWrite
  let written := min n toWrite
  ({ w with start := w.start + written, position := w.position + written }.record fun a =>
    { a with writes := a.writes ++ [Write.mk w.position bytes written] }).whileStart data

/-- The inner loop of the verification, and `memcmp` behind it. -/
def Writer.compare (w : Writer) : Writer :=
  if w.buffer.length < w.toRead data then w.goto .read
  else if w.buffer ≠ (data.drop w.p).take (w.toRead data) then { w with start := w.p }.verified data
  else { w with p := w.p + BUFFER_SIZE, buffer := [] }.forBlock data

/-- `ota_read(fd, buffer + so_far, to_read - so_far)` gave some bytes; none are the end of the
file. -/
def Writer.gave (w : Writer) (bytes : List UInt8) : Writer :=
  let bytes := bytes.take (w.toRead data - w.buffer.length)
  if bytes = [] then w.fail
  else
    ({ w with buffer := w.buffer ++ bytes, position := w.position + bytes.length }.record fun a =>
      { a with reads := a.reads ++ [(w.position, bytes)] }).compare data

/-- The next call is answered. -/
def Writer.step (w : Writer) (answer : Answer) : Writer :=
  match w.control with
  | .openRdwr => w.expect answer fun _ _ => { w with control := .seek, position := 0 }
  | .seek => w.retry answer fun _ _ =>
    { w with position := w.start, log := Attempt.mk [] false [] :: w.log }.whileStart data
  | .write => w.retry answer fun n _ => w.wrote data n
  | .fsync => w.expect answer fun _ _ => (w.record fun a => { a with synced := true }).goto .close
  | .close => w.expect answer fun _ _ => w.goto .openRdonly
  | .openRdonly => w.expect answer fun _ _ => { w with control := .openDropCaches, position := 0 }
  -- the caches are dropped if possible
  | .openDropCaches => w.goto .writeDropCaches
  | .writeDropCaches =>
    match answer with
    | .interrupted => w
    | _ => w.goto .closeDropCaches
  | .closeDropCaches => w.goto .seekBack
  | .seekBack => w.retry answer fun _ _ =>
    { w with position := 0, start := data.length, p := 0, buffer := [] }.forBlock data
  | .read => w.retry answer fun _ bytes => w.gave data bytes
  | .closeRetry => w.expect answer fun _ _ => w.goto .reopen
  | .reopen => w.expect answer fun _ _ =>
    { w with
      control := if w.attempt + 1 < 2 then .seek else .returned (-1)
      attempt := w.attempt + 1
      position := 0 }
  | .closeEnd => w.expect answer fun _ _ => w.goto (.returned 0)
  | .returned _ => w

end

/-- `WriteToPartition` before its first call. -/
def enter (target : Text) : Writer :=
  match target.splitOn ':' with
  | kind :: partition :: _ =>
    ⟨partition, if kind ≠ "EMMC".toList then .returned (-1) else .openRdwr, 0, 0, 0, [], 0, []⟩
  | _ => ⟨[], .returned (-1), 0, 0, 0, [], 0, []⟩

/-- `WriteToPartition` after some calls were answered. -/
def writeToPartition (data : List UInt8) (target : Text) (answers : List Answer) : Writer :=
  answers.foldl (Writer.step data) (enter target)

/-! ## What an attempt wrote and read -/

/-- The pieces lie one behind the other from a position on, and make up some bytes. -/
inductive PiecesAt : Nat → List (Nat × List UInt8) → List UInt8 → Prop
  | nil : PiecesAt pos [] []
  | cons : PiecesAt (pos + piece.length) pieces bytes →
    PiecesAt pos ((pos, piece) :: pieces) (piece ++ bytes)

/-- The bytes that the writes of an attempt took. -/
def Attempt.taken (a : Attempt) : List (Nat × List UInt8) :=
  a.writes.map fun w => (w.position, w.bytes.take w.written)

/-- The attempt took the data from one place to another, and never had a byte beyond its end. -/
structure Written (data : List UInt8) (a : Attempt) (origin upTo : Nat) : Prop where
  le : origin ≤ upTo
  upTo_le : upTo ≤ data.length
  taken : PiecesAt origin a.taken ((data.take upTo).drop origin)
  inside : ∀ w ∈ a.writes, w.position + w.bytes.length ≤ data.length

/-- The attempt read the data back up to `p`, and then a block that differs. -/
structure FirstMismatch (data : List UInt8) (a : Attempt) (p : Nat) : Prop where
  lt : p < data.length
  aligned : p % BUFFER_SIZE = 0
  block : ∃ block, PiecesAt 0 a.reads (data.take p ++ block) ∧
    block.length = min (data.length - p) BUFFER_SIZE ∧ block ≠ (data.drop p).take block.length

/-- The attempts before one that starts at some place: none, or one that wrote everything and failed
there. -/
inductive History (data : List UInt8) : List Attempt → Nat → Prop
  | first : History data [] 0
  | second : Written data a 0 data.length → FirstMismatch data a p → History data [a] p

/-- What holds of the log at all times. -/
inductive Safe (data : List UInt8) : List Attempt → Prop
  | empty : Safe data []
  | attempt : History data earlier origin → Written data a origin upTo →
    (a.synced = true → upTo = data.length) → Safe data (a :: earlier)

section
variable {data : List UInt8} {w : Writer} {a : Attempt} {earlier : List Attempt} {origin upTo : Nat}

/-! ### Pieces -/

theorem PiecesAt.append {pos : Nat} (h : PiecesAt pos pieces bytes) (piece : List UInt8) :
    PiecesAt pos (pieces ++ [(pos + bytes.length, piece)]) (bytes ++ piece) := by
  induction h with
  | @nil pos =>
    have hlast : PiecesAt pos [(pos, piece)] (piece ++ []) := .cons .nil
    rwa [List.append_nil] at hlast
  | @cons pos head pieces bytes _ ih =>
    rw [List.append_assoc, List.length_append, ← Nat.add_assoc]
    exact .cons ih

/-! ### The parts of a log -/

theorem History.length_le (h : History data earlier origin) : earlier.length ≤ 1 := by
  cases h with
  | first => exact Nat.zero_le _
  | second => exact Nat.le_refl _

theorem History.origin_le (h : History data earlier origin) : origin ≤ data.length := by
  cases h with
  | first => exact Nat.zero_le _
  | second _ hmismatch => exact Nat.le_of_lt hmismatch.lt

theorem Written.start (h : origin ≤ data.length) : Written data ⟨[], false, []⟩ origin origin where
  le := Nat.le_refl _
  upTo_le := h
  taken := by
    rw [List.drop_eq_nil_of_le (by rw [List.length_take]; omega)]
    exact .nil
  inside := by simp

theorem Written.wrote {n : Nat} (h : Written data a origin upTo) (hlt : upTo < data.length) :
    Written data
      { a with writes := a.writes ++
          [⟨upTo, (data.drop upTo).take (min (data.length - upTo) MAX_WRITE),
            min n (min (data.length - upTo) MAX_WRITE)⟩] }
      origin (upTo + min n (min (data.length - upTo) MAX_WRITE)) := by
  obtain ⟨written, hwritten⟩ : ∃ k, k = min n (min (data.length - upTo) MAX_WRITE) := ⟨_, rfl⟩
  have hpiece : ((data.drop upTo).take (min (data.length - upTo) MAX_WRITE)).take written =
      (data.drop upTo).take written := by
    rw [List.take_take, Nat.min_eq_left (by omega)]
  rw [← hwritten]
  refine ⟨by have := h.le; omega, by omega, ?_, ?_⟩
  · have hnext : (data.take (upTo + written)).drop origin =
        (data.take upTo).drop origin ++ (data.drop upTo).take written := by
      rw [List.take_add,
        List.drop_append_of_le_length (by rw [List.length_take]; have := h.le; omega)]
    have hlen : origin + ((data.take upTo).drop origin).length = upTo := by
      rw [List.length_drop, List.length_take]
      have := h.le
      omega
    have happend := h.taken.append ((data.drop upTo).take written)
    rw [hlen, ← hnext] at happend
    simpa [Attempt.taken, hpiece] using happend
  · intro w hw
    rcases List.mem_append.mp hw with hw | hw
    · exact h.inside w hw
    · rw [List.mem_singleton.mp hw]
      simp only [List.length_take, List.length_drop]
      omega

/-! ### The invariant -/

/-- The last entry of the log is that of the current attempt, which took the data up to some
place. -/
def Current (data : List UInt8) (w : Writer) (upTo : Nat) (P : Attempt → Prop) : Prop :=
  ∃ a earlier origin, w.log = a :: earlier ∧ earlier.length = w.attempt ∧
  History data earlier origin ∧
    Written data a origin upTo ∧ P a

/-- What holds before each call. -/
def Inv (data : List UInt8) (w : Writer) : Prop :=
  match w.control with
  | .openRdwr => w.log = [] ∧ w.attempt = 0 ∧ w.start = 0
  | .seek => w.log.length = w.attempt ∧ History data w.log w.start
  | .write => w.position = w.start ∧ w.start < data.length ∧
    Current data w w.start fun a => a.synced = false ∧ a.reads = []
  | .fsync | .close | .openRdonly | .openDropCaches | .writeDropCaches | .closeDropCaches
  | .seekBack =>
    Current data w data.length fun a => a.reads = []
  | .read => w.start = data.length ∧ w.p < data.length ∧ w.p % BUFFER_SIZE = 0 ∧
    w.position = w.p + w.buffer.length ∧ w.buffer.length < w.toRead data ∧
    Current data w data.length fun a => PiecesAt 0 a.reads (data.take w.p ++ w.buffer)
  | .closeRetry | .reopen => Current data w data.length fun a => FirstMismatch data a w.start
  | .closeEnd => Current data w data.length fun a => PiecesAt 0 a.reads data
  | .returned r => Safe data w.log ∧
    (r = 0 → ∃ a earlier, w.log = a :: earlier ∧ PiecesAt 0 a.reads data)

theorem Current.imp {P Q : Attempt → Prop} (h : Current data w upTo P) (hPQ : ∀ a, P a → Q a) :
    Current data w upTo Q := by
  obtain ⟨a, earlier, origin, hlog, hattempt, hist, hwritten, hP⟩ := h
  exact ⟨a, earlier, origin, hlog, hattempt, hist, hwritten, hPQ a hP⟩

theorem Current.record {P Q : Attempt → Prop} {f : Attempt → Attempt} {upTo' : Nat}
    (h : Current data w upTo P)
    (hf : ∀ a origin, Written data a origin upTo → P a → Written data (f a) origin upTo' ∧
      Q (f a)) : Current data (w.record f) upTo' Q := by
  obtain ⟨a, earlier, origin, hlog, hattempt, hist, hwritten, hP⟩ := h
  obtain ⟨hwritten', hQ⟩ := hf a origin hwritten hP
  exact ⟨f a, earlier, origin, by simp [Writer.record, hlog], hattempt, hist, hwritten', hQ⟩

theorem Current.safe {P : Attempt → Prop} (h : Current data w upTo P)
    (hP : ∀ a, P a → a.synced = true → upTo = data.length) : Safe data w.log := by
  obtain ⟨a, earlier, origin, hlog, -, hist, hwritten, ha⟩ := h
  rw [hlog]
  exact .attempt hist hwritten (hP a ha)

theorem Inv.safe (h : Inv data w) : Safe data w.log := by
  unfold Inv at h
  split at h
  case h_1 =>
    rw [h.1]
    exact .empty
  case h_2 =>
    obtain ⟨-, hist⟩ := h
    generalize w.log = log, w.start = start at hist ⊢
    cases hist with
    | first => exact .empty
    | second hwritten => exact .attempt .first hwritten fun _ => rfl
  case h_3 => exact h.2.2.safe fun a ha hsynced => by rw [ha.1] at hsynced; cases hsynced
  case h_11 => exact h.2.2.2.2.2.safe fun _ _ _ => rfl
  case h_15 => exact h.1
  all_goals exact h.safe fun _ _ _ => rfl

theorem Inv.fail (h : Safe data w.log) : Inv data w.fail := ⟨h, by intro hr; cases hr⟩

theorem Inv.expect {answer : Answer} {next : Nat → List UInt8 → Writer} (h : Inv data w)
    (hnext : ∀ n bytes, Inv data (next n bytes)) : Inv data (w.expect answer next) := by
  cases answer with
  | interrupted => exact .fail h.safe
  | failed => exact .fail h.safe
  | ok n bytes => exact hnext n bytes

theorem Inv.retry {answer : Answer} {next : Nat → List UInt8 → Writer} (h : Inv data w)
    (hnext : ∀ n bytes, Inv data (next n bytes)) : Inv data (w.retry answer next) := by
  cases answer with
  | interrupted => exact h
  | failed => exact .fail h.safe
  | ok n bytes => exact hnext n bytes

/-! ### The steps -/

theorem Inv.whileStart (hposition : w.position = w.start) (hle : w.start ≤ data.length)
    (h : Current data w w.start fun a => a.synced = false ∧ a.reads = []) :
    Inv data (w.whileStart data) := by
  unfold Writer.whileStart
  split
  · rename_i hlt
    exact ⟨hposition, hlt, h⟩
  · have hend : w.start = data.length := by omega
    rw [hend] at h
    exact h.imp fun a ha => ha.2

theorem Inv.wrote {n : Nat} (h : Inv data w) (hw : w.control = .write) :
    Inv data (w.wrote data n) := by
  unfold Inv at h
  rw [hw] at h
  obtain ⟨hposition, hlt, hcurrent⟩ := h
  refine Inv.whileStart ?_ ?_ ?_
  · exact congrArg (· + _) hposition
  · show w.start + min n (min (data.length - w.start) MAX_WRITE) ≤ data.length
    omega
  · refine Current.record (w := { w with start := _, position := _ }) hcurrent ?_
    intro a origin hwritten ha
    rw [hposition]
    exact ⟨hwritten.wrote hlt, ha⟩

theorem Inv.forBlock (hstart : w.start = data.length) (haligned : w.p % BUFFER_SIZE = 0)
    (hbuffer : w.buffer = []) (hposition : w.p < data.length → w.position = w.p)
    (h : Current data w data.length fun a => PiecesAt 0 a.reads (data.take w.p)) :
    Inv data (w.forBlock data) := by
  unfold Writer.forBlock
  split
  · rename_i hlt
    refine ⟨hstart, hlt, haligned, ?_, ?_, ?_⟩
    · simp [Writer.goto, hbuffer, hposition hlt]
    · simp only [Writer.goto, Writer.toRead, hbuffer, List.length_nil, BUFFER_SIZE]
      omega
    · rw [Writer.goto, hbuffer, List.append_nil]
      exact h
  · rename_i hge
    rw [Writer.verified, if_pos hstart]
    rw [List.take_of_length_le (by omega)] at h
    exact h

theorem Inv.compare (hstart : w.start = data.length) (hlt : w.p < data.length)
    (haligned : w.p % BUFFER_SIZE = 0) (hposition : w.position = w.p + w.buffer.length)
    (hbuffer : w.buffer.length ≤ w.toRead data)
    (h : Current data w data.length fun a => PiecesAt 0 a.reads (data.take w.p ++ w.buffer)) :
    Inv data (w.compare data) := by
  unfold Writer.compare
  split
  · rename_i hshort
    exact ⟨hstart, hlt, haligned, hposition, hshort, h⟩
  · rename_i hfull
    have hlength : w.buffer.length = min (data.length - w.p) BUFFER_SIZE := by
      unfold Writer.toRead at hbuffer hfull
      omega
    split
    · rename_i hdiffers
      have hne : w.p ≠ data.length := Nat.ne_of_lt hlt
      rw [Writer.verified, if_neg hne]
      refine h.imp fun a hreads => ⟨hlt, haligned, w.buffer, hreads, hlength, ?_⟩
      rwa [hlength]
    · rename_i hsame
      rw [not_not] at hsame
      have htake : data.take w.p ++ w.buffer = data.take (w.p + BUFFER_SIZE) := by
        rw [hsame, List.take_add]
        congr 1
        rw [List.take_eq_take_iff, Writer.toRead, List.length_drop]
        omega
      refine Inv.forBlock hstart ?_ rfl ?_ ?_
      · show (w.p + BUFFER_SIZE) % BUFFER_SIZE = 0
        rw [Nat.add_mod_right]
        exact haligned
      · intro hnext
        show w.position = w.p + BUFFER_SIZE
        have : w.p + BUFFER_SIZE < data.length := hnext
        omega
      · exact h.imp fun a hreads => htake ▸ hreads

theorem Inv.gave {bytes : List UInt8} (h : Inv data w) (hw : w.control = .read) :
    Inv data (w.gave data bytes) := by
  have hsafe := h.safe
  unfold Inv at h
  rw [hw] at h
  obtain ⟨hstart, hlt, haligned, hposition, hshort, hcurrent⟩ := h
  unfold Writer.gave
  generalize hpiece : bytes.take (w.toRead data - w.buffer.length) = piece
  have hle : piece.length ≤ w.toRead data - w.buffer.length := by
    rw [← hpiece]
    exact List.length_take_le _ _
  dsimp only
  split
  · exact .fail hsafe
  · refine Inv.compare hstart hlt haligned ?_ ?_ ?_
    · show w.position + piece.length = w.p + (w.buffer ++ piece).length
      rw [hposition, List.length_append, Nat.add_assoc]
    · show (w.buffer ++ piece).length ≤ w.toRead data
      rw [List.length_append]
      omega
    · refine Current.record (w := { w with buffer := _, position := _ }) hcurrent ?_
      intro a origin hwritten hreads
      refine ⟨⟨hwritten.le, hwritten.upTo_le, hwritten.taken, hwritten.inside⟩, ?_⟩
      have hlength : (data.take w.p ++ w.buffer).length = w.position := by
        rw [List.length_append, List.length_take, hposition]
        omega
      have hnext := hreads.append piece
      rw [Nat.zero_add, hlength, List.append_assoc] at hnext
      exact hnext

theorem Inv.step {answer : Answer} (h : Inv data w) : Inv data (w.step data answer) := by
  have hnow := h
  unfold Inv at hnow
  unfold Writer.step
  cases hw : w.control with
  | openRdwr =>
    rw [hw] at hnow
    obtain ⟨hlog, hattempt, hstart⟩ := hnow
    refine h.expect fun _ _ => ⟨?_, ?_⟩
    · rw [hlog, hattempt]
      rfl
    · show History data w.log w.start
      rw [hlog, hstart]
      exact .first
  | seek =>
    rw [hw] at hnow
    obtain ⟨hlength, hist⟩ := hnow
    have hle : w.start ≤ data.length := hist.origin_le
    exact h.retry fun _ _ =>
      Inv.whileStart rfl hle ⟨_, _, _, rfl, hlength, hist, .start hle, rfl, rfl⟩
  | write => exact h.retry fun n _ => h.wrote hw
  | fsync =>
    rw [hw] at hnow
    refine h.expect fun _ _ => Current.record (w := w) hnow fun a origin hwritten hreads =>
      ⟨?_, hreads⟩
    exact ⟨hwritten.le, hwritten.upTo_le, hwritten.taken, hwritten.inside⟩
  | close =>
    rw [hw] at hnow
    exact h.expect fun _ _ => hnow
  | openRdonly =>
    rw [hw] at hnow
    exact h.expect fun _ _ => hnow
  | openDropCaches =>
    rw [hw] at hnow
    exact hnow
  | writeDropCaches =>
    rw [hw] at hnow
    cases answer with
    | interrupted => exact h
    | failed => exact hnow
    | ok => exact hnow
  | closeDropCaches =>
    rw [hw] at hnow
    exact hnow
  | seekBack =>
    rw [hw] at hnow
    refine h.retry fun _ _ => Inv.forBlock rfl rfl rfl (fun _ => rfl) ?_
    refine Current.imp (w := w) hnow fun a hreads => ?_
    rw [hreads]
    exact .nil
  | read => exact h.retry fun _ bytes => h.gave hw
  | closeRetry =>
    rw [hw] at hnow
    exact h.expect fun _ _ => hnow
  | reopen =>
    rw [hw] at hnow
    obtain ⟨a, earlier, origin, hlog, hattempt, hist, hwritten, hmismatch⟩ := hnow
    refine h.expect fun _ _ => ?_
    cases hist with
    | first =>
      rw [← hattempt]
      refine ⟨?_, ?_⟩
      · rw [hlog]
        rfl
      · show History data w.log w.start
        rw [hlog]
        exact .second hwritten hmismatch
    | second hfirst hp =>
      rw [← hattempt]
      exact ⟨h.safe, by intro hr; cases hr⟩
  | closeEnd =>
    rw [hw] at hnow
    obtain ⟨a, earlier, origin, hlog, -, -, -, hreads⟩ := hnow
    exact h.expect fun _ _ => ⟨h.safe, fun _ => ⟨a, earlier, hlog, hreads⟩⟩
  | returned r => exact h

theorem Inv.enter (data : List UInt8) (target : Text) : Inv data (enter target) := by
  unfold VerifiedWrite.enter
  split
  · split
    · exact ⟨.empty, by intro hr; cases hr⟩
    · exact ⟨rfl, rfl, rfl⟩
  · exact ⟨.empty, by intro hr; cases hr⟩

theorem inv_writeToPartition (data : List UInt8) (target : Text) (answers : List Answer) :
    Inv data (writeToPartition data target answers) := by
  unfold writeToPartition
  generalize hw : enter target = w
  have h : Inv data w := hw ▸ .enter data target
  clear hw
  induction answers generalizing w with
  | nil => exact h
  | cons answer answers ih => exact ih _ h.step

/-- The second attempt writes from the first block that differed, and everything before it syncs. -/
theorem Safe.second {b : Attempt} (h : Safe data [b, a]) :
    ∃ p upTo, FirstMismatch data a p ∧ Written data b p upTo ∧
    (b.synced = true → upTo = data.length) := by
  cases h with
  | attempt hist hwritten hsynced =>
    cases hist with
    | second _ hmismatch => exact ⟨_, _, hmismatch, hwritten, hsynced⟩

theorem Safe.inside {log : List Attempt} (h : Safe data log) :
    ∀ a ∈ log, ∀ w ∈ a.writes, w.position + w.bytes.length ≤ data.length := by
  cases h with
  | empty => simp
  | attempt hist hwritten _ =>
    cases hist with
    | first => simpa using hwritten.inside
    | second hfirst _ => simpa using ⟨hwritten.inside, hfirst.inside⟩

/-- With any device and for any data: there are at most two attempts; no write goes beyond the data;
the second attempt rewrites everything from the first block that was read back different; and the
result is 0 only if the reads of the last attempt gave the data from its start to its end. -/
theorem writeToPartition_verified (data : List UInt8) (target : Text) (answers : List Answer) :
    (writeToPartition data target answers).log.length ≤ 2 ∧
      (∀ a ∈ (writeToPartition data target answers).log, ∀ w ∈ a.writes,
        w.position + w.bytes.length ≤ data.length) ∧
      (∀ b a, (writeToPartition data target answers).log = [b, a] →
        ∃ p upTo, FirstMismatch data a p ∧ Written data b p upTo ∧
          (b.synced = true → upTo = data.length)) ∧
      ((writeToPartition data target answers).control = .returned 0 →
        ∃ a earlier, (writeToPartition data target answers).log = a :: earlier ∧
          PiecesAt 0 a.reads data) := by
  have h := inv_writeToPartition data target answers
  have hsafe := h.safe
  refine ⟨?_, hsafe.inside, fun b a hlog => (hlog ▸ hsafe).second, ?_⟩
  · generalize (writeToPartition data target answers).log = log at hsafe
    cases hsafe with
    | empty => exact Nat.zero_le _
    | attempt hist => exact Nat.succ_le_succ hist.length_le
  · intro hreturned
    unfold Inv at h
    rw [hreturned] at h
    exact h.2 rfl

-- the device stores a wrong byte at first
example : (writeToPartition [1, 2] "EMMC:p".toList
    [.ok 0 [], .ok 0 [], .ok 1 [], .interrupted, .ok 1 [], .ok 0 [], .ok 0 [], .ok 0 [],
      .ok 0 [], .failed, .ok 0 [], .ok 0 [], .ok 0 [1, 3], .ok 0 [], .ok 0 [], .ok 0 [], .ok 2 [],
      .ok 0 [], .ok 0 [], .ok 0 [], .ok 0 [], .ok 2 [], .ok 0 [], .ok 0 [], .ok 0 [1], .ok 0 [2],
      .ok 0 []]).control = .returned 0 := by
  decide

end

end BootableRecovery.ApplyPatch.VerifiedWrite
