import BootableRecovery.Theory.System
import BootableRecovery.Updater.RangeWriter
import Mathlib.Algebra.Order.BigOperators.Group.List

/-!
# New data that is compressed with brotli

The main thread hands the writers of the `new` commands to `receive_brotli_new_data`, which runs in
the thread of `unzip_new_data` and decompresses the zip entry into them. The two threads are a
transition system: what happens while the mutex is held is one step, and so is the body of the
receiver's loop, since the main thread waits while there is a writer.

The decoder is not part of the repository. It is given by the format: how a byte of the stream
changes its state, which output this gives, and when the stream is over. How much it takes and gives
in one call is left open.
-/

namespace BootableRecovery.BlockImg

/-- A compressed format: the state at the start, the state after a byte with the output that the
byte completes (`none` for a corrupt stream), and whether the stream is over. -/
structure Brotli (σ : Type) where
  start : σ
  next : σ → UInt8 → Option (σ × List UInt8)
  isOver : σ → Bool

namespace Brotli

variable {σ : Type} (B : Brotli σ)

/-- How the decoding of some input ends: after the stream with the bytes that follow it, within the
stream, or at a corrupt byte. -/
inductive Ending
  | isOver (rest : List UInt8)
  | truncated
  | corrupt
  deriving DecidableEq

/-- The decoded stream of some input, and how the decoding ends. -/
def decode : σ → List UInt8 → List UInt8 × Ending
  | s, [] => ([], if B.isOver s then .isOver [] else .truncated)
  | s, b :: bs =>
    if B.isOver s then ([], .isOver (b :: bs))
    else match B.next s b with
      | none => ([], .corrupt)
      | some (s', out) => (out ++ (decode s' bs).1, (decode s' bs).2)

/-- Some input within the stream: the state after it, and its output. -/
def feed : σ → List UInt8 → Option (σ × List UInt8)
  | s, [] => some (s, [])
  | s, b :: bs =>
    if B.isOver s then none
    else match B.next s b with
      | none => none
      | some (s', out) => (feed s' bs).map fun r => (r.1, out ++ r.2)

end Brotli

/-- `BrotliDecoderState`: the state of the format, and decoded bytes that were not given out yet. -/
structure BrotliDecoderState (σ : Type) where
  state : σ
  held : List UInt8

namespace BrotliDecoderState

variable {σ : Type}

/-- `BrotliDecoderHasMoreOutput`. -/
def hasMoreOutput (d : BrotliDecoderState σ) : Bool := !d.held.isEmpty

/-- `BrotliDecoderDecompressStream` with some input and some space for output: an error (`none`), or
the decoder after the call, the input that it has left, and the output. It takes or gives something,
unless the stream is over and everything was given out: then it does nothing and reports success. -/
inductive DecompressStream (B : Brotli σ) (d : BrotliDecoderState σ) (input : List UInt8)
    (space : Nat) : Option (BrotliDecoderState σ × List UInt8 × List UInt8) → Prop
  | error : (B.decode d.state input).2 = .corrupt → DecompressStream B d input space none
  | ok {taken rest output held : List UInt8} {state : σ} : input = taken ++ rest →
      B.feed d.state taken = some (state, out) → d.held ++ out = output ++ held →
      output.length ≤ space → (taken ≠ [] ∨ output ≠ [] ∨ B.isOver state = true ∧ held = []) →
      DecompressStream B d input space (some (⟨state, held⟩, rest, output))

end BrotliDecoderState

/-! ## The two threads -/

/-- Where the main thread is: before its next command, waiting for the receiver in
`PerformCommandNew`, or done, with whether all commands have succeeded. -/
inductive MainThread
  | ready
  | waiting
  | done (rc : Bool)
  deriving DecidableEq

/-- The state of the two threads: the targets of the `new` commands to come; `writer`,
`receiver_available` and the decoder of `NewThreadInfo`; the coming calls of the receiver with their
data, the data that is left of the call at hand, and whether the receiver's thread has ended; and
the device, with all bytes that `Write` has taken. -/
structure NewDataState (σ : Type) where
  todo : List RangeSet
  main : MainThread
  writer : Option RangeSinkWriter
  receiverAvailable : Bool
  decoder : BrotliDecoderState σ
  calls : List (List UInt8)
  data : List UInt8
  ended : Bool
  params : CommandParameters
  disk : Disk
  written : List UInt8

namespace NewDataState

variable {σ : Type}

/-- The main thread has started the receiver's. -/
def start (B : Brotli σ) (calls : List (List UInt8)) (tgts : List RangeSet) (p : CommandParameters)
    (d : Disk) : NewDataState σ where
  todo := tgts
  main := .ready
  writer := none
  receiverAvailable := true
  decoder := ⟨B.start, []⟩
  calls
  data := []
  ended := false
  params := p
  disk := d
  written := []

/-- A step of the main thread: it begins a `new` command, sees that the writer was taken away or
that the receiver has ended, or clears `receiver_available` at the end. `none` if it waits or is
done. -/
def mainStep (s : NewDataState σ) : Option (NewDataState σ) :=
  match s.main with
  | .ready => match s.todo with
    | tgt :: todo => some { s with todo, main := .waiting, writer := some (.make tgt) }
    | [] => some { s with main := .done true, receiverAvailable := false }
  | .waiting => match s.writer with
    | none => some { s with main := .ready }
    | some _ => if s.receiverAvailable then none else some { s with main := .done false }
  | .done _ => none

/-- The end of `unzip_new_data`. -/
def endReceiver (s : NewDataState σ) : NewDataState σ :=
  { s with receiverAvailable := false, ended := true }

/-- The body of the loop of `receive_brotli_new_data` after the decoder has returned. -/
def writeOutput (env : Env) (s : NewDataState σ) (w : RangeSinkWriter) :
    Option (BrotliDecoderState σ × List UInt8 × List UInt8) → NewDataState σ
  | none => s.endReceiver
  | some (decoder, rest, buffer) =>
    let disk := ((w.write env buffer).steps s.params s.disk).foldl (Disk.apply env) s.disk
    match (w.write env buffer).result s.params s.disk with
    | none => s.endReceiver
    | some ((w, written), params) =>
      if written = buffer.length then
        { s with
          decoder, params, disk, data := rest, written := s.written ++ buffer
          writer := if w.finished then none else some w }
      else endReceiver { s with params, disk }

/-- The steps of the receiver: the next call, the end of the entry, a wait that ends because the
main thread has cleared `receiver_available`, and the body of the loop. -/
inductive ReceiverStep (B : Brotli σ) (env : Env) (s : NewDataState σ) : NewDataState σ → Prop
  | call : s.ended = false → s.data = [] → s.decoder.hasMoreOutput = false → s.calls = bs :: rest →
      ReceiverStep B env s { s with data := bs, calls := rest }
  | endOfEntry : s.ended = false → s.data = [] → s.decoder.hasMoreOutput = false → s.calls = [] →
      ReceiverStep B env s s.endReceiver
  | unavailable : s.ended = false → s.data ≠ [] ∨ s.decoder.hasMoreOutput = true → s.writer = none →
      s.receiverAvailable = false → ReceiverStep B env s s.endReceiver
  | noSpace : s.ended = false → s.data ≠ [] ∨ s.decoder.hasMoreOutput = true → s.writer = some w →
      min 32768 w.availableSpace = 0 → ReceiverStep B env s s.endReceiver
  | body : s.ended = false → s.data ≠ [] ∨ s.decoder.hasMoreOutput = true → s.writer = some w →
      min 32768 w.availableSpace ≠ 0 →
      s.decoder.DecompressStream B s.data (min 32768 w.availableSpace) r →
      ReceiverStep B env s (s.writeOutput env w r)

/-- A step of either thread. -/
def Step (B : Brotli σ) (env : Env) (s s' : NewDataState σ) : Prop :=
  s.mainStep = some s' ∨ ReceiverStep B env s s'

end NewDataState

/-! ## The decoder -/

section
variable {σ : Type} {B : Brotli σ}

namespace Brotli

theorem decode_of_over {s : σ} (h : B.isOver s = true) (bs : List UInt8) :
    B.decode s bs = ([], .isOver bs) := by
  cases bs with
  | nil => rw [decode, if_pos h]
  | cons b bs => rw [decode, if_pos h]

theorem decode_feed {s s' : σ} {taken out : List UInt8} (h : B.feed s taken = some (s', out))
    (bs : List UInt8) :
    B.decode s (taken ++ bs) = (out ++ (B.decode s' bs).1, (B.decode s' bs).2) := by
  induction taken generalizing s out with
  | nil =>
    cases h
    rfl
  | cons b taken ih =>
    unfold feed at h
    split at h
    · cases h
    · rename_i hover
      split at h
      · cases h
      · rename_i t o hnext
        obtain ⟨⟨u, o'⟩, hfeed, heq⟩ := Option.map_eq_some_iff.mp h
        cases heq
        rw [List.cons_append, decode, if_neg hover, hnext]
        simp only [ih hfeed, List.append_assoc]

theorem feed_append {s s' s'' : σ} {xs ys out out' : List UInt8} (h : B.feed s xs = some (s', out))
    (h' : B.feed s' ys = some (s'', out')) : B.feed s (xs ++ ys) = some (s'', out ++ out') := by
  induction xs generalizing s out with
  | nil =>
    cases h
    exact h'
  | cons b xs ih =>
    unfold feed at h
    split at h
    · cases h
    · rename_i hover
      split at h
      · cases h
      · rename_i t o hnext
        obtain ⟨⟨u, o'⟩, hfeed, heq⟩ := Option.map_eq_some_iff.mp h
        cases heq
        rw [List.cons_append, feed, if_neg hover, hnext]
        simp only [ih hfeed, Option.map_some, List.append_assoc]

theorem corrupt_append {s : σ} {xs : List UInt8} (h : (B.decode s xs).2 = .corrupt)
    (ys : List UInt8) : (B.decode s (xs ++ ys)).2 = .corrupt := by
  induction xs generalizing s with
  | nil =>
    rw [decode] at h
    split at h <;> cases h
  | cons b xs ih =>
    rw [decode] at h
    rw [List.cons_append, decode]
    split at h
    · cases h
    · rename_i hover
      rw [if_neg hover]
      split at h
      · rfl
      · exact ih h

end Brotli

theorem BrotliDecoderState.decompressStream_total {d : BrotliDecoderState σ} {input : List UInt8}
    {space : Nat}
    (hspace : space ≠ 0) (hwork : input ≠ [] ∨ d.hasMoreOutput = true) :
    ∃ r, d.DecompressStream B input space r := by
  rcases hheld : d.held with _ | ⟨c, held⟩
  · rcases input with _ | ⟨b, bs⟩
    · simp [hasMoreOutput, hheld] at hwork
    cases hover : B.isOver d.state with
    | true =>
      have hheld' : d.held ++ [] = [] ++ [] := by rw [hheld]
      exact ⟨_, .ok (show b :: bs = [] ++ b :: bs from rfl) (rfl : B.feed d.state [] =
        some (d.state, [])) hheld' (Nat.zero_le _) (.inr (.inr ⟨hover, rfl⟩))⟩
    | false =>
      rcases hnext : B.next d.state b with _ | ⟨state, out⟩
      · refine ⟨none, .error ?_⟩
        simp [Brotli.decode, hover, hnext]
      · have hfeed : B.feed d.state [b] = some (state, out) := by simp [Brotli.feed, hover, hnext]
        have hheld' : d.held ++ out = [] ++ out := by rw [hheld]
        exact ⟨_,
          .ok (show b :: bs = [b] ++ bs from rfl) hfeed hheld' (Nat.zero_le _)
          (.inl (List.cons_ne_nil b []))⟩
  · have hheld' : d.held ++ [] = [c] ++ held := by
      rw [hheld, List.append_nil]
      rfl
    exact ⟨_,
      .ok (show input = [] ++ input from rfl) (rfl : B.feed d.state [] = some (d.state, [])) hheld'
      (Nat.one_le_iff_ne_zero.mpr hspace) (.inr (.inl (List.cons_ne_nil c [])))⟩

/-! ## What every run keeps -/

/-- The number of bytes that some targets hold. -/
def bytesOf (tgts : List RangeSet) : Nat := (tgts.map fun tgt => tgt.blocks * BLOCKSIZE).sum

/-- A writer that `PerformCommandNew` has made and that is not full yet. -/
structure RangeSinkWriter.InUse (w : RangeSinkWriter) : Prop where
  valid : w.Valid
  unfinished : w.finished = false
  suffix : ∃ done tgt, done ++ w.addresses = BlockImg.addresses tgt

theorem RangeSinkWriter.InUse.space_pos {w : RangeSinkWriter} (h : w.InUse) :
    0 < w.availableSpace := by
  rw [h.valid.space]
  refine List.length_pos_iff.mpr fun hnil => ?_
  have := (RangeSinkWriter.finished_iff h.valid.nonempty).mpr hnil
  rw [h.unfinished] at this
  cases this

theorem RangeSinkWriter.InUse.make {tgt : RangeSet} (h : tgt.isValid = true) :
    (RangeSinkWriter.make tgt).InUse where
  valid := valid_make tgt
  unfinished := by
    rw [← Bool.not_eq_true, RangeSinkWriter.finished_iff tgt.nonempty, addresses_make,
      ← List.length_eq_zero_iff, length_addresses]
    exact Nat.ne_of_gt (Nat.mul_pos (RangeSet.blocks_pos h) (by decide))
  suffix := ⟨[], tgt, by rw [addresses_make, List.nil_append]⟩

variable {env : Env} {p : CommandParameters} {d : Disk}

/-- `Write` of at most as many bytes as there is room for, on any device. -/
theorem write_result {w : RangeSinkWriter} {data : List UInt8} (hw : w.InUse) :
    ∃ w' n p', (w.write env data).result p d = some ((w', n), p') ∧
      (n = data.length → w'.availableSpace + data.length = w.availableSpace ∧
        (w'.finished = false → w'.InUse) ∧ (w'.finished = true → w'.availableSpace = 0)) := by
  obtain ⟨done, tgt, haddr⟩ := hw.suffix
  have hdone :
      (done.map fun a => (a, (0 : UInt8))).map Prod.fst ++ w.addresses = addresses tgt := by
    rw [List.map_map, ← haddr]
    congr 1
    exact List.map_id _
  have hrun : wp (.plain (Disk.apply env)) (fun _ => True) (w.write env data) (fun r _ => ∃ w' n p',
      r = some ((w', n), p') ∧ (n = data.length →
        data.length ≤ w.addresses.length ∧ w'.Valid ∧ w'.addresses = w.addresses.drop data.length))
        p d :=
    wp_write (I := fun _ _ => True) ⟨fun _ _ _ _ _ _ _ _ _ _ _ => trivial, fun _ _ _ _ _ _ =>
      trivial⟩
      (fun _ _ _ => trivial) hw.valid hdone trivial
      (fun p' w' _ _ hle hw' ha' _ => ⟨w', _, p', rfl, fun _ => ⟨hle, hw', ha'⟩⟩)
      (fun _ p' w' _ k _ _ hk _ => ⟨w', k, p', rfl, fun heq => absurd heq (Nat.ne_of_lt hk)⟩)
  obtain ⟨w', n, p', hresult, htaken⟩ := wp_result hrun
  refine ⟨w', n, p', hresult, fun hn => ?_⟩
  obtain ⟨hle, hw', ha'⟩ := htaken hn
  refine ⟨?_, fun hfin => ⟨hw', hfin, done ++ w.addresses.take data.length, tgt, ?_⟩, fun hfin =>
    ?_⟩
  · rw [hw'.space, ha', hw.valid.space, List.length_drop]
    omega
  · rw [ha', List.append_assoc, List.take_append_drop, haddr]
  · rw [hw'.space, (RangeSinkWriter.finished_iff hw'.nonempty).mp hfin]
    rfl

namespace NewDataState

/-- What holds at every moment: the bytes so far are decoded bytes in order, the input that the
decoder has taken and the bytes it holds go with them, and they are counted against the targets of
the commands. -/
structure Invariant (B : Brotli σ) (content : List UInt8) (tgts : List RangeSet)
    (s : NewDataState σ) : Prop where
  isPrefix : s.written <+: (B.decode B.start content).1
  input : s.ended = false → ∃ taken, content = taken ++ (s.data ++ s.calls.flatten) ∧
    B.feed B.start taken = some (s.decoder.state, s.written ++ s.decoder.held)
  idle : s.writer = none → s.written.length + bytesOf s.todo = bytesOf tgts
  busy : s.ended = false → ∀ w, s.writer = some w →
    w.InUse ∧ s.written.length + w.availableSpace + bytesOf s.todo = bytesOf tgts
  valid : ∀ tgt ∈ s.todo, tgt.isValid = true
  noWriter : s.main = .ready ∨ s.main = .done true → s.writer = none
  available : s.receiverAvailable = true ↔ s.ended = false ∧ ∀ rc, s.main ≠ .done rc
  failed : s.main = .done false → s.ended = true
  succeeded : s.main = .done true → s.todo = []

variable {content : List UInt8} {tgts : List RangeSet} {s s' : NewDataState σ}

theorem Invariant.start (hvalid : ∀ tgt ∈ tgts, tgt.isValid = true) (calls : List (List UInt8)) :
    Invariant B calls.flatten tgts (start B calls tgts p d) where
  isPrefix := List.nil_prefix
  input _ := ⟨[], rfl, rfl⟩
  idle _ := Nat.zero_add _
  busy _ _ hw := by cases hw
  valid := hvalid
  noWriter _ := rfl
  available := by simp [NewDataState.start]
  failed hmain := by cases hmain
  succeeded hmain := by cases hmain

theorem mainStep_cases (hs : s.mainStep = some s') :
    (∃ tgt todo, s.main = .ready ∧ s.todo = tgt :: todo ∧
      s' = { s with todo, main := .waiting, writer := some (.make tgt) }) ∨
    (s.main = .ready ∧ s.todo = [] ∧
      s' = { s with main := .done true, receiverAvailable := false }) ∨
    (s.main = .waiting ∧ s.writer = none ∧ s' = { s with main := .ready }) ∨
    (∃ w, s.main = .waiting ∧ s.writer = some w ∧ s.receiverAvailable = false ∧
      s' = { s with main := .done false }) := by
  unfold NewDataState.mainStep at hs
  rcases hmain : s.main with _ | _ | rc <;> rw [hmain] at hs
  · rcases htodo : s.todo with _ | ⟨tgt, todo⟩ <;> rw [htodo] at hs <;> cases hs
    · exact .inr (.inl ⟨rfl, rfl, rfl⟩)
    · exact .inl ⟨tgt, todo, rfl, rfl, rfl⟩
  · rcases hwriter : s.writer with _ | w <;> rw [hwriter] at hs
    · cases hs
      exact .inr (.inr (.inl ⟨rfl, rfl, rfl⟩))
    · simp only at hs
      split at hs
      · cases hs
      · rename_i havailable
        cases hs
        exact .inr (.inr (.inr ⟨w, rfl, rfl, by simpa using havailable, rfl⟩))
  · cases hs

theorem Invariant.mainStep (h : Invariant B content tgts s) (hs : s.mainStep = some s') :
    Invariant B content tgts s' := by
  obtain ⟨tgt, todo, hmain, htodo, rfl⟩ | ⟨hmain, htodo, rfl⟩ | ⟨hmain, hwriter, rfl⟩ |
    ⟨w, hmain, hwriter, havailable, rfl⟩ := mainStep_cases hs
  · have hidle := h.idle (h.noWriter (.inl hmain))
    have hvalid := h.valid
    have hav := h.available
    rw [htodo, List.forall_mem_cons] at hvalid
    rw [htodo, bytesOf, List.map_cons, List.sum_cons] at hidle
    refine { h with
      idle := fun hnone => by cases hnone
      busy := fun _ w hw => ?_
      valid := hvalid.2
      noWriter := by simp
      available := by simpa [hmain] using hav
      failed := fun hfalse => by cases hfalse
      succeeded := fun htrue => by cases htrue }
    cases hw
    have hspace : (RangeSinkWriter.make tgt).availableSpace = tgt.blocks * BLOCKSIZE :=
      Nat.sub_zero _
    refine ⟨.make hvalid.1, ?_⟩
    rw [hspace, ← hidle, Nat.add_assoc]
    rfl
  · exact { h with
      noWriter := fun _ => h.noWriter (.inl hmain)
      available := by simp
      failed := fun hfalse => by cases hfalse
      succeeded := fun _ => htodo }
  · have hav := h.available
    exact { h with
      noWriter := fun _ => hwriter
      available := by simpa [hmain] using hav
      failed := fun hfalse => by cases hfalse
      succeeded := fun htrue => by cases htrue }
  · have hav := h.available
    have hended : s.ended = true := by
      rw [havailable, hmain] at hav
      simpa using hav
    exact { h with
      noWriter := by simp
      available := by simp [havailable]
      failed := fun _ => hended
      succeeded := fun htrue => by cases htrue }

theorem writeOutput_cases (env : Env) {w : RangeSinkWriter} (hw : w.InUse) (s : NewDataState σ)
    (decoder : BrotliDecoderState σ) (rest buffer : List UInt8) :
    (∃ params disk, s.writeOutput env w (some (decoder, rest, buffer)) =
      endReceiver { s with params, disk }) ∨
    ∃ params disk writer, s.writeOutput env w (some (decoder, rest, buffer)) =
        { s with decoder, params, disk, data := rest, written := s.written ++ buffer, writer } ∧
      (writer = none ∧ buffer.length = w.availableSpace ∨
        ∃ w', writer = some w' ∧ w'.InUse ∧ w'.availableSpace + buffer.length =
        w.availableSpace) := by
  obtain ⟨w', n, p', hresult, htaken⟩ := @write_result env s.params s.disk w buffer hw
  simp only [writeOutput, hresult]
  split
  · rename_i hn
    obtain ⟨hspace, hgo, hfull⟩ := htaken hn
    refine .inr ⟨_, _, _, rfl, ?_⟩
    cases hfin : w'.finished with
    | true =>
      refine .inl ⟨rfl, ?_⟩
      rw [← hspace, hfull hfin, Nat.zero_add]
    | false => exact .inr ⟨w', rfl, hgo hfin, hspace⟩
  · exact .inl ⟨_, _, rfl⟩

theorem Invariant.endReceiver (h : Invariant B content tgts s) :
    Invariant B content tgts s.endReceiver where
  isPrefix := h.isPrefix
  input hend := by cases hend
  idle := h.idle
  busy hend := by cases hend
  valid := h.valid
  noWriter := h.noWriter
  available := by simp [NewDataState.endReceiver]
  failed _ := rfl
  succeeded := h.succeeded

theorem Invariant.receiverStep (h : Invariant B content tgts s) (hs : ReceiverStep B env s s') :
    Invariant B content tgts s' := by
  cases hs with
  | @call bs rest hended hdata _ hcalls =>
    refine { h with input := fun _ => ?_ }
    have := h.input hended
    rwa [hdata, hcalls] at this
  | endOfEntry => exact h.endReceiver
  | unavailable => exact h.endReceiver
  | noSpace => exact h.endReceiver
  | @body w r hended hwork hwriter hspace hcall =>
    obtain ⟨hw, hcount⟩ := h.busy hended w hwriter
    cases hcall with
    | error => exact h.endReceiver
    | @ok out taken rest output held state hdata hfeed hheld hlen hprogress =>
      obtain ⟨params, disk, heq⟩ | ⟨params, disk, writer, heq, hnext⟩ :=
        writeOutput_cases env hw s ⟨state, held⟩ rest output <;> rw [heq]
      · have hsame : Invariant B content tgts { s with params, disk } := { h with }
        exact hsame.endReceiver
      · obtain ⟨before, hcontent, hbefore⟩ := h.input hended
        have htaken :
            B.feed B.start (before ++ taken) = some (state, s.written ++ output ++ held) := by
          rw [Brotli.feed_append hbefore hfeed, List.append_assoc, List.append_assoc, hheld]
        have hrest : content = before ++ taken ++ (rest ++ s.calls.flatten) := by
          rw [hcontent, hdata]
          simp only [List.append_assoc]
        have hlength : (s.written ++ output).length = s.written.length + output.length :=
          List.length_append
        refine { h with
          isPrefix := ?_
          input := fun _ => ⟨before ++ taken, hrest, htaken⟩
          idle := fun hnone => ?_
          busy := fun _ w' hw' => ?_
          noWriter := fun hmain => ?_ }
        · rw [hrest, Brotli.decode_feed htaken, List.append_assoc]
          exact List.prefix_append _ _
        · obtain ⟨-, hfull⟩ | ⟨w', hw', -⟩ := hnext
          · show (s.written ++ output).length + bytesOf s.todo = bytesOf tgts
            omega
          · exact absurd (hw'.symm.trans hnone) (by simp)
        · obtain ⟨hnone, -⟩ | ⟨w₁, hw₁, huse, hleft⟩ := hnext
          · exact absurd (hw'.symm.trans hnone) (by simp)
          · cases hw₁.symm.trans hw'
            refine ⟨huse, ?_⟩
            show (s.written ++ output).length + w'.availableSpace + bytesOf s.todo = bytesOf tgts
            omega
        · have := h.noWriter hmain
          rw [hwriter] at this
          cases this

theorem Invariant.written_le (h : Invariant B content tgts s) (hended : s.ended = false) :
    s.written.length ≤ bytesOf tgts := by
  rcases hwriter : s.writer with _ | w
  · have := h.idle hwriter
    omega
  · have := (h.busy hended w hwriter).2
    omega

/-! ## When the receiver comes to its end -/

/-- The stream is over and was given out, there is more input, and there is a writer that waits for
bytes. -/
structure Stuck (B : Brotli σ) (content : List UInt8) (tgts : List RangeSet) (s : NewDataState σ) :
    Prop where
  isOver : B.decode B.start content = (s.written, .isOver (s.data ++ s.calls.flatten))
  more : s.data ≠ []
  wanted : s.written.length < bytesOf tgts

/-- What is left to do. -/
def rank (tgts : List RangeSet) (s : NewDataState σ) : Nat :=
  s.data.length + (s.calls.map fun data => data.length + 1).sum +
  (bytesOf tgts - s.written.length) +
    (3 * s.todo.length + match s.main with | .ready => 1 | .waiting => 2 | .done _ => 0) +
    if s.ended then 0 else 1

theorem rank_endReceiver (hended : s.ended = false) (params : CommandParameters) (disk : Disk) :
    rank tgts (NewDataState.endReceiver { s with params, disk }) < rank tgts s := by
  simp only [rank, NewDataState.endReceiver, hended, if_true, Bool.false_eq_true, if_false]
  omega

theorem rank_mainStep (hs : s.mainStep = some s') : rank tgts s' < rank tgts s := by
  obtain ⟨tgt, todo, hmain, htodo, rfl⟩ | ⟨hmain, htodo, rfl⟩ | ⟨hmain, -, rfl⟩ | ⟨w, hmain,
      -, -, rfl⟩ :=
    mainStep_cases hs
  · simp only [rank, hmain, htodo, List.length_cons]
    omega
  · simp only [rank, hmain]
    omega
  · simp only [rank, hmain]
    omega
  · simp only [rank, hmain]
    omega

/-- Every step of the receiver gets on with its work, unless it is stuck. -/
theorem rank_receiverStep (h : Invariant B content tgts s) (hs : ReceiverStep B env s s') :
    rank tgts s' < rank tgts s ∨ Stuck B content tgts s := by
  have h' := h.receiverStep hs
  cases hs with
  | @call bs rest hended hdata _ hcalls =>
    left
    simp only [rank, hdata, hcalls, List.map_cons, List.sum_cons, List.length_nil]
    omega
  | endOfEntry hended => exact .inl (rank_endReceiver hended s.params s.disk)
  | unavailable hended => exact .inl (rank_endReceiver hended s.params s.disk)
  | noSpace hended => exact .inl (rank_endReceiver hended s.params s.disk)
  | @body w r hended hwork hwriter hspace hcall =>
    obtain ⟨hw, hcount⟩ := h.busy hended w hwriter
    cases hcall with
    | error => exact .inl (rank_endReceiver hended s.params s.disk)
    | @ok out taken rest output held state hdata hfeed hheld hlen hprogress =>
      obtain ⟨params, disk, heq⟩ | ⟨params, disk, writer, heq, -⟩ :=
        writeOutput_cases env hw s ⟨state, held⟩ rest output <;> rw [heq] at h' ⊢
      · exact .inl (rank_endReceiver hended params disk)
      · have hbound := h'.written_le hended
        simp only [List.length_append] at hbound
        have hinput : s.data.length = taken.length + rest.length := by
          rw [hdata, List.length_append]
        rcases hprogress with htaken | houtput | ⟨hover, hempty⟩
        · have := List.length_pos_iff.mpr htaken
          left
          simp only [rank, List.length_append]
          omega
        · have := List.length_pos_iff.mpr houtput
          left
          simp only [rank, List.length_append]
          omega
        · rcases Nat.eq_zero_or_pos (taken.length + output.length) with hzero | hpos
          · -- nothing was taken and nothing was given
            right
            cases List.length_eq_zero_iff.mp (Nat.eq_zero_of_add_eq_zero_right hzero)
            cases List.length_eq_zero_iff.mp (Nat.eq_zero_of_add_eq_zero_left hzero)
            cases hempty
            cases hfeed
            have hnone : s.decoder.held = [] := by simpa using hheld
            obtain ⟨before, hcontent, hbefore⟩ := h.input hended
            refine ⟨?_, fun hnil => ?_, ?_⟩
            · rw [hcontent, Brotli.decode_feed hbefore, Brotli.decode_of_over hover, hnone,
                List.append_nil, List.append_nil]
            · simp [hnil, BrotliDecoderState.hasMoreOutput, hnone] at hwork
            · have := hw.space_pos
              omega
          · left
            simp only [rank, List.length_append]
            omega

theorem exists_mainStep (hmain : ∀ rc, s.main ≠ .done rc)
    (hgo : s.writer = none ∨ s.receiverAvailable = false) : ∃ s', s.mainStep = some s' := by
  unfold NewDataState.mainStep
  rcases hm : s.main with _ | _ | rc
  · rcases s.todo with _ | ⟨tgt, todo⟩ <;> exact ⟨_, rfl⟩
  · rcases hwriter : s.writer with _ | w
    · exact ⟨_, rfl⟩
    · have havailable := hgo.resolve_left (by rw [hwriter]; simp)
      simp only [havailable, Bool.false_eq_true, if_false]
      exact ⟨_, rfl⟩
  · exact absurd hm (hmain rc)

theorem exists_receiverStep (env : Env) (hended : s.ended = false)
    (hgo : s.writer ≠ none ∨ s.receiverAvailable = false) : ∃ s', ReceiverStep B env s s' := by
  by_cases hwork : s.data ≠ [] ∨ s.decoder.hasMoreOutput = true
  · rcases hwriter : s.writer with _ | w
    · exact ⟨_, .unavailable hended hwork hwriter (hgo.resolve_left fun hne => hne hwriter)⟩
    · by_cases hspace : min 32768 w.availableSpace = 0
      · exact ⟨_, .noSpace hended hwork hwriter hspace⟩
      · obtain ⟨r, hr⟩ := BrotliDecoderState.decompressStream_total (B := B) hspace hwork
        exact ⟨_, .body hended hwork hwriter hspace hr⟩
  · obtain ⟨hdata, hmore⟩ := not_or.mp hwork
    rcases hcalls : s.calls with _ | ⟨bs, rest⟩
    · exact ⟨_, .endOfEntry hended (Decidable.not_not.mp hdata) (by simpa using hmore) hcalls⟩
    · exact ⟨_, .call hended (Decidable.not_not.mp hdata) (by simpa using hmore) hcalls⟩

theorem Invariant.progress (env : Env) (h : Invariant B content tgts s) :
    (∃ s', Step B env s s') ∨ s.ended = true ∧ ∃ rc, s.main = .done rc := by
  have hav := h.available
  cases hended : s.ended with
  | true =>
    have hno : s.receiverAvailable = false := by
      rw [hended] at hav
      simpa using hav
    by_cases hmain : ∃ rc, s.main = .done rc
    · exact .inr ⟨rfl, hmain⟩
    · obtain ⟨s', hs'⟩ := exists_mainStep (fun rc hrc => hmain ⟨rc, hrc⟩) (.inr hno)
      exact .inl ⟨s', .inl hs'⟩
  | false =>
    by_cases hgo : s.writer ≠ none ∨ s.receiverAvailable = false
    · obtain ⟨s', hs'⟩ := exists_receiverStep env hended hgo
      exact .inl ⟨s', .inr hs'⟩
    · obtain ⟨hwriter, havailable⟩ := not_or.mp hgo
      have hmain := (hav.mp (by simpa using havailable)).2
      obtain ⟨s', hs'⟩ := exists_mainStep hmain (.inl (Decidable.not_not.mp hwriter))
      exact .inl ⟨s', .inl hs'⟩

/-! ## A device without failures -/

/-- The device has the bytes that were written, in the targets one after the other. -/
structure OnDisk (env : Env) (p : CommandParameters) (d : Disk) (tgts : List RangeSet)
    (s : NewDataState σ) : Prop where
  params : s.params = p
  within : ∀ tgt ∈ s.todo, env.Within tgt
  disk : s.disk = fill env p.isRetry (tgts.flatMap RangeSet.ranges) s.written d
  idle : s.writer = none → ∀ more, fill env p.isRetry (s.todo.flatMap RangeSet.ranges) more s.disk =
    fill env p.isRetry (tgts.flatMap RangeSet.ranges) (s.written ++ more) d
  busy : ∀ w, s.writer = some w → (∃ tgt, w.WritesTo tgt ∧ env.Within tgt) ∧
    ∀ more, fillFrom env p.isRetry (w.andThen (s.todo.flatMap RangeSet.ranges)) more s.disk =
      fill env p.isRetry (tgts.flatMap RangeSet.ranges) (s.written ++ more) d

theorem OnDisk.start (hin : ∀ tgt ∈ tgts, env.Within tgt) (calls : List (List UInt8)) :
    OnDisk env p d tgts (NewDataState.start B calls tgts p d) where
  params := rfl
  within := hin
  disk := (fill_nil _ _ _).symm
  idle _ _ := rfl
  busy _ hw := by cases hw

theorem OnDisk.mainStep (h : OnDisk env p d tgts s) (hready : s.main = .ready → s.writer = none)
    (hs : s.mainStep = some s') : OnDisk env p d tgts s' := by
  obtain ⟨tgt, todo, hmain, htodo, rfl⟩ | ⟨-, -, rfl⟩ | ⟨-, -, rfl⟩ | ⟨w, -, -, -, rfl⟩ :=
    mainStep_cases hs
  · have hin := h.within
    have hidle := h.idle (hready hmain)
    rw [htodo, List.forall_mem_cons] at hin
    rw [htodo, List.flatMap_cons] at hidle
    refine { h with
      within := hin.2
      idle := fun hnone => by cases hnone
      busy := fun w hw => ?_ }
    cases hw
    exact ⟨⟨tgt, RangeSinkWriter.writesTo_make tgt, hin.1⟩, hidle⟩
  · exact { h with }
  · exact { h with }
  · exact { h with }

theorem writeOutput_ok (hf : s.params.faults = []) {tgt : RangeSet} {w : RangeSinkWriter}
    (hw : w.WritesTo tgt) (hin : env.Within tgt) {buffer : List UInt8}
    (hroom : buffer.length ≤ w.availableSpace) (decoder : BrotliDecoderState σ)
    (rest : List UInt8) : ∃ w' disk, s.writeOutput env w (some (decoder, rest, buffer)) = { s with
        decoder, disk, data := rest, written := s.written ++ buffer
        writer := if w'.finished then none else some w' } ∧ w'.WritesTo tgt ∧
      ∀ rs more, fillFrom env s.params.isRetry (w'.andThen rs) more disk =
        fillFrom env s.params.isRetry (w.andThen rs) (buffer ++ more) s.disk := by
  have hrun : wp (.plain (Disk.apply env)) (fun _ => True) (w.write env buffer) (fun r disk => ∃ w',
      r = some ((w', buffer.length), s.params) ∧ w'.WritesTo tgt ∧
      ∀ rs more, fillFrom env s.params.isRetry (w'.andThen rs) more disk =
        fillFrom env s.params.isRetry (w.andThen rs) (buffer ++ more) s.disk) s.params s.disk := by
    refine wp_write_ok hf (fun _ _ _ _ => trivial) hw (fun b hb => ⟨hin b hb, hb⟩) trivial
      fun w' disk _ hw' _ hfill => ?_
    rw [Nat.min_eq_left hroom]
    exact ⟨w', rfl, hw', fun rs more => hfill rs more (.inr hroom)⟩
  obtain ⟨w', hresult, hw', hfill⟩ := wp_result hrun
  refine ⟨w', _, ?_, hw', hfill⟩
  simp only [writeOutput]
  rw [show (w.write env buffer).result s.params s.disk = _ from hresult]
  simp only [if_true]
  rfl

theorem OnDisk.receiverStep (hf : p.faults = []) (h : OnDisk env p d tgts s)
    (hs : ReceiverStep B env s s') : OnDisk env p d tgts s' := by
  cases hs with
  | call => exact { h with }
  | endOfEntry => exact { h with }
  | unavailable => exact { h with }
  | noSpace => exact { h with }
  | @body w r hended hwork hwriter hspace hcall =>
    obtain ⟨⟨tgt, hw, hin⟩, hbusy⟩ := h.busy w hwriter
    cases hcall with
    | error => exact { h with }
    | @ok out taken rest output held state hdata hfeed hheld hlen hprogress =>
      obtain ⟨w', disk, heq, hw', hfill⟩ := writeOutput_ok (by rw [h.params, hf]) hw hin
        (Nat.le_trans hlen (Nat.min_le_right _ _)) ⟨state, held⟩ rest
      rw [h.params] at hfill
      have hall :
          ∀ more, fillFrom env p.isRetry (w'.andThen (s.todo.flatMap RangeSet.ranges)) more disk =
          fill env p.isRetry (tgts.flatMap RangeSet.ranges) (s.written ++ output ++ more) d := by
        intro more
        rw [hfill, hbusy, List.append_assoc]
      rw [heq]
      refine { h with
        disk := ?_
        idle := fun hnone more => ?_
        busy := fun w'' hw'' => ?_ }
      · have hnone := hall []
        rwa [fillFrom_nil, List.append_nil] at hnone
      · have hfin : w'.finished = true := by
          by_contra hfin
          simp [hfin] at hnone
        rw [← hall more, fillFrom_andThen_finished hfin]
      · simp only [ite_eq_iff, reduceCtorEq, and_false, false_or] at hw''
        cases hw''.2
        exact ⟨⟨tgt, hw', hin⟩, hall⟩

/-! ## The result -/

/-- The two threads, with the zip entry cut into the given calls of the receiver. -/
def system (B : Brotli σ) (env : Env) (calls : List (List UInt8)) (tgts : List RangeSet)
    (p : CommandParameters) (d : Disk) : System (NewDataState σ) where
  init s := s = NewDataState.start B calls tgts p d
  step := Step B env

theorem inductive_invariant (hvalid : ∀ tgt ∈ tgts, tgt.isValid = true)
    (calls : List (List UInt8)) :
    (system B env calls tgts p d).Inductive (Invariant B calls.flatten tgts) where
  init := by
    rintro s rfl
    exact .start hvalid calls
  step s s' h hs := hs.elim h.mainStep h.receiverStep

theorem inductive_onDisk (hvalid : ∀ tgt ∈ tgts, tgt.isValid = true) (calls : List (List UInt8))
    (hf : p.faults = []) (hin : ∀ tgt ∈ tgts, env.Within tgt) :
    (system B env calls tgts p d).Inductive fun s => Invariant B calls.flatten tgts s ∧
    OnDisk env p d tgts s where
  init := by
    rintro s rfl
    exact ⟨.start hvalid calls, .start hin calls⟩
  step s s' h hs := by
    refine ⟨hs.elim h.1.mainStep h.1.receiverStep, hs.elim (fun hs => ?_) (h.2.receiverStep hf)⟩
    exact h.2.mainStep (fun hmain => h.1.noWriter (.inl hmain)) hs

end NewDataState

/-- The new data is delivered, on every device: the bytes written are the decoded stream in order,
they are where the commands want them if the device has no failures, a list of commands that
succeeds has them all, and every run comes to its end, at which the receiver has ended. -/
def DeliversNewData (B : Brotli σ) (calls : List (List UInt8)) (tgts : List RangeSet) : Prop :=
  ∀ (env : Env) (p : CommandParameters) (d : Disk),
    (∀ s, (NewDataState.system B env calls tgts p d).Reach s →
      s.written <+: (B.decode B.start calls.flatten).1 ∧
      (p.faults = [] → (∀ tgt ∈ tgts, env.Within tgt) →
        s.disk = fill env p.isRetry (tgts.flatMap RangeSet.ranges) s.written d) ∧
      (s.main = .done true → s.written.length = bytesOf tgts) ∧
      ((∃ s', NewDataState.Step B env s s') ∨ s.ended = true ∧ ∃ rc, s.main = .done rc)) ∧
    ¬Diverges (NewDataState.Step B env) (.start B calls tgts p d)

/-- Bytes after the end of the stream are only there when the stream has all bytes that the commands
want. -/
def NothingAfter (B : Brotli σ) (calls : List (List UInt8)) (tgts : List RangeSet) : Prop :=
  ∀ out rest, B.decode B.start calls.flatten = (out, .isOver rest) →
  rest = [] ∨ bytesOf tgts ≤ out.length

open NewDataState

/-- With bytes after a stream that is too short, nothing makes the receiver end. -/
theorem NewDataState.ReceiverStep.ended_eq {tgts : List RangeSet} {calls : List (List UInt8)}
    {s s' : NewDataState σ}
    {out rest : List UInt8} (hdecode : B.decode B.start calls.flatten = (out, .isOver rest))
    (hrest : rest ≠ []) (hshort : out.length < bytesOf tgts) (h : Invariant B calls.flatten tgts s)
    (hdisk : OnDisk env p d tgts s) (hf : p.faults = []) (hended : s.ended = false)
    (hs : ReceiverStep B env s s') : s'.ended = false := by
  cases hs with
  | call => exact hended
  | endOfEntry _ hdata _ hcalls =>
    obtain ⟨taken, hcontent, hfeed⟩ := h.input hended
    rw [hdata, hcalls] at hcontent
    rw [hcontent, Brotli.decode_feed hfeed, List.nil_append, List.flatten_nil, Brotli.decode]
      at hdecode
    split at hdecode <;> cases hdecode
    exact absurd rfl hrest
  | unavailable _ _ hwriter havailable =>
    have hav := h.available
    rw [havailable, hended] at hav
    simp only [Bool.false_eq_true, true_and, false_iff, not_forall, not_not] at hav
    obtain ⟨rc, hrc⟩ := hav
    cases rc with
    | false => exact absurd (h.failed hrc) (by rw [hended]; simp)
    | true =>
      have hidle := h.idle hwriter
      have hle := h.isPrefix.length_le
      rw [h.succeeded hrc, bytesOf, List.map_nil, List.sum_nil] at hidle
      rw [hdecode] at hle
      have hle : s.written.length ≤ out.length := hle
      omega
  | noSpace _ _ hwriter hspace =>
    have := (h.busy hended _ hwriter).1.space_pos
    omega
  | @body w r _ _ hwriter _ hcall =>
    cases hcall with
    | error hcorrupt =>
      obtain ⟨taken, hcontent, hfeed⟩ := h.input hended
      have hlate := Brotli.corrupt_append hcorrupt s.calls.flatten
      rw [hcontent, Brotli.decode_feed hfeed] at hdecode
      have hend := (Prod.mk.inj hdecode).2
      rw [hlate] at hend
      cases hend
    | @ok out taken rest output held state hdata hfeed hheld hlen hprogress =>
      obtain ⟨⟨tgt, hw, hin⟩, -⟩ := hdisk.busy w hwriter
      obtain ⟨w', disk, heq, -⟩ := writeOutput_ok (by rw [hdisk.params, hf]) hw hin
        (Nat.le_trans hlen (Nat.min_le_right _ _)) ⟨state, held⟩ rest
      rw [heq]
      exact hended

theorem diverges_of_not_nothingAfter {tgts : List RangeSet} {calls : List (List UInt8)}
    (hvalid : ∀ tgt ∈ tgts, tgt.isValid = true) (h : ¬NothingAfter B calls tgts)
    (hf : p.faults = []) (hin : ∀ tgt ∈ tgts, env.Within tgt) :
    Diverges (NewDataState.Step B env) (.start B calls tgts p d) := by
  simp only [NothingAfter, not_forall, not_or, Nat.not_le] at h
  obtain ⟨out, rest, hdecode, hrest, hshort⟩ := h
  have hI := inductive_onDisk (B := B) (d := d) hvalid calls hf hin
  refine .of_step (I := fun s => (Invariant B calls.flatten tgts s ∧ OnDisk env p d tgts s) ∧
    s.ended = false)
    (fun s hs => ?_) ⟨hI.init _ rfl, rfl⟩
  obtain ⟨hs, hended⟩ := hs
  rcases hs.1.progress env with ⟨s', hs'⟩ | ⟨hend, -⟩
  · refine ⟨s', hs', hI.step _ _ hs hs', ?_⟩
    rcases hs' with hmain | hrecv
    · obtain ⟨_, _, _, _, rfl⟩ | ⟨_, _, rfl⟩ | ⟨_, _, rfl⟩ | ⟨_, _, _, _, rfl⟩ :=
        mainStep_cases hmain <;>
        exact hended
    · exact hrecv.ended_eq hdecode hrest hshort hs.1 hs.2 hf hended
  · rw [hended] at hend
    cases hend

/-- New data is delivered exactly if nothing follows a stream that is too short for the commands. -/
theorem delivers_iff {tgts : List RangeSet} {calls : List (List UInt8)}
    (hvalid : ∀ tgt ∈ tgts, tgt.isValid = true) : DeliversNewData B calls tgts ↔
    NothingAfter B calls tgts := by
  constructor
  · intro h
    by_contra hafter
    let env := { Env.small with blocks := (tgts.flatMap RangeSet.toList).sum + 1 }
    have hin : ∀ tgt ∈ tgts, env.Within tgt := by
      intro tgt htgt b hb
      exact Nat.lt_succ_of_le
        (List.single_le_sum (by simp) b (List.mem_flatMap.mpr ⟨tgt, htgt, hb⟩))
    exact (h env .start (.start [])).2 (diverges_of_not_nothingAfter hvalid hafter rfl hin)
  · intro h env p d
    have hI : (system B env calls tgts p d).Inductive (Invariant B calls.flatten tgts) :=
      inductive_invariant hvalid calls
    refine ⟨fun s hs =>
      ⟨(hI.reach hs).isPrefix, fun hf hin => ?_, fun hmain => ?_, (hI.reach hs).progress env⟩, ?_⟩
    · exact ((inductive_onDisk hvalid calls hf hin).reach hs).2.disk
    · have hidle := (hI.reach hs).idle ((hI.reach hs).noWriter (.inr hmain))
      rw [(hI.reach hs).succeeded hmain, bytesOf, List.map_nil, List.sum_nil] at hidle
      exact hidle
    · refine not_diverges_of_rank (I := Invariant B calls.flatten tgts) (rank tgts)
        (fun s s' hs hstep => ⟨hI.step _ _ hs hstep, ?_⟩) (hI.init _ rfl)
      rcases hstep with hmain | hrecv
      · exact rank_mainStep hmain
      · refine (rank_receiverStep hs hrecv).resolve_right fun hstuck => ?_
        rcases h _ _ hstuck.isOver with hnil | hle
        · exact hstuck.more (List.append_eq_nil_iff.mp hnil).1
        · have := hstuck.wanted
          omega

end

/-- A format in which a stream is just `n` bytes. -/
def Brotli.raw (n : Nat) : Brotli Nat where
  start := n
  next k b := some (k - 1, [b])
  isOver k := k = 0

/-- A stream of one byte, of which a command wants a block: the receiver ends, and so does the
command. -/
theorem delivers_raw : DeliversNewData (.raw 1) [[7]] [⟨[(0, 1)], by decide⟩] := by
  refine (delivers_iff (by decide)).mpr fun out rest hdecode => .inl ?_
  have hend : (Brotli.raw 1).decode (Brotli.raw 1).start [7] = ([7], .isOver []) := by decide
  cases hend.symm.trans hdecode
  rfl

/-- The same stream with a byte after it: the receiver never ends. -/
theorem not_delivers_raw : ¬DeliversNewData (.raw 1) [[7, 8]] [⟨[(0, 1)], by decide⟩] := by
  intro h
  refine (h .small .start (.start [])).2
    (diverges_of_not_nothingAfter (by decide) (fun hafter => ?_) rfl ?_)
  · have hend : (Brotli.raw 1).decode (Brotli.raw 1).start [7, 8] = ([7], .isOver [8]) := by decide
    rcases hafter _ _ hend with hnil | hle
    · cases hnil
    · exact absurd hle (by decide)
  · intro tgt htgt b hb
    cases List.mem_singleton.mp htgt
    cases List.mem_singleton.mp hb
    decide

end BootableRecovery.BlockImg
