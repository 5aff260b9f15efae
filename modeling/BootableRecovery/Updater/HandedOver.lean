import BootableRecovery.Updater.HandOff

/-!
# New data is handed over

In every interleaving of the two threads the commands that return 0 have filled their targets with
consecutive bytes of the stream, neither thread waits for the other for ever, and both come to their
ends (`HandOff.handedOver`).
-/

namespace BootableRecovery.BlockImg

namespace HandOff

variable {env : Env} {stream : List UInt8} {tgts : List RangeSet} {calls : List (List UInt8)}
variable {p : CommandParameters} {d : Disk} {s s' : HandOff}

/-! ## What is left to do -/

/-- What is left to do for the main thread. -/
def mainRank (todo : List RangeSet) (m : MainPlace) : Nat :=
  7 * todo.length + match m with
    | .ready => 7
    | .newLock _ => 13
    | .newSet _ => 12
    | .newTest _ => 8
    | .newWait _ => 7
    | .newWake _ => 9
    | .endLock _ => 6
    | .endSet _ => 5
    | .join _ => 1
    | .done _ => 0

/-- What is left to do for the receiver. -/
def receiverRank (calls : List (List UInt8)) (r : ReceiverPlace) : Nat :=
  (calls.map fun data => 7 * data.length + 2).sum + match r with
    | .entry => 6
    | .lock data => 7 * data.length + 7
    | .test data => 7 * data.length + 6
    | .wait data => 7 * data.length + 5
    | .wake data => 7 * data.length + 7
    | .write data => 7 * data.length + 5
    | .fullLock data => 7 * data.length + 11
    | .fullSet data => 7 * data.length + 10
    | .endLock => 5
    | .endSet => 4
    | .ended => 0

/-- What is left to do: a broadcast may add to it, but it comes with more that is done. -/
def rank (s : HandOff) : Nat := mainRank s.todo s.main + receiverRank s.calls s.receiver

theorem mainRank_woken_le (todo : List RangeSet) (m : MainPlace) :
    mainRank todo m.woken ≤ mainRank todo m + 2 := by
  cases m <;> simp [mainRank, MainPlace.woken]

theorem receiverRank_woken_le (calls : List (List UInt8)) (r : ReceiverPlace) :
    receiverRank calls r.woken ≤ receiverRank calls r + 2 := by
  cases r <;> simp [receiverRank, ReceiverPlace.woken, Nat.add_assoc]

theorem receiverRank_next_le (calls : List (List UInt8)) (data : List UInt8) :
    receiverRank calls (.next data) ≤ (calls.map fun data => 7 * data.length + 2).sum + 7 *
    data.length + 7 := by
  rcases next_cases data with ⟨h, rfl⟩ | ⟨h, -⟩ <;> rw [h] <;> simp [receiverRank, Nat.add_assoc]

theorem rank_mainStep (hs : MainStep s s') : rank s' < rank s := by
  cases hs with
  | set hmain =>
    have := receiverRank_woken_le s.calls s.receiver
    simp only [rank, hmain, mainRank]
    omega
  | setEnd hmain =>
    have := receiverRank_woken_le s.calls s.receiver
    simp only [rank, hmain, mainRank]
    omega
  | begin hmain htodo =>
    simp only [rank, hmain, htodo, mainRank, List.length_cons]
    omega
  | finish _ hmain | lock hmain | taken hmain | missing hmain | wait hmain | relock hmain
  | lockEnd hmain | join hmain =>
    simp only [rank, hmain, mainRank]
    omega

theorem Invariant.write_cases (h : Invariant stream s) {w : RangeSinkWriter} {data : List UInt8}
    (hreceiver : s.receiver = .write data) (hwriter : s.writer = some w) :
    (s.write env w data).todo = s.todo ∧ (s.write env w data).main = s.main ∧
    (s.write env w data).calls = s.calls ∧
      ((s.write env w data).receiver = .endLock ∨ ∃ rest, rest.length < data.length ∧
        ((s.write env w data).receiver = .fullLock rest ∨ (s.write env w data).receiver =
        .next rest)) := by
  obtain ⟨tgt, hwants⟩ := h.exists_wants (by simp [hreceiver]) (by simp [hwriter])
  obtain ⟨hw, -, hfin⟩ := h.used (by rw [hreceiver]; rfl) tgt w hwants hwriter
  have hdata := h.works (by rw [hreceiver]; rfl)
  rw [hreceiver] at hfin hdata
  have hspace : 0 < w.availableSpace := by
    rw [hw.space]
    refine List.length_pos_iff.mpr fun hnil => ?_
    rw [(RangeSinkWriter.finished_iff hw.nonempty).mpr hnil] at hfin
    cases hfin
  have hless : (data.drop (min data.length w.availableSpace)).length < data.length := by
    have := List.length_pos_iff.mpr hdata
    simp only [ReceiverPlace.data] at this
    rw [List.length_drop]
    omega
  unfold HandOff.write
  dsimp only
  split
  · exact ⟨rfl, rfl, rfl, .inl rfl⟩
  · split
    · refine ⟨rfl, rfl, rfl, .inr ⟨_, hless, ?_⟩⟩
      dsimp only
      split
      · exact .inl rfl
      · exact .inr rfl
    · exact ⟨rfl, rfl, rfl, .inl rfl⟩

theorem rank_receiverStep (h : Invariant stream s) (hs : ReceiverStep env s s') :
    rank s' < rank s := by
  cases hs with
  | @call data rest hreceiver hcalls =>
    have := receiverRank_next_le rest data
    simp only [rank, hreceiver, hcalls]
    simp only [receiverRank, List.map_cons, List.sum_cons] at this ⊢
    omega
  | @write data w hreceiver hwriter =>
    obtain ⟨htodo, hmain, hcalls, hplace⟩ := h.write_cases hreceiver hwriter
    have hdata := h.works (by rw [hreceiver]; rfl)
    rw [hreceiver] at hdata
    have hpos : 0 < data.length := List.length_pos_iff.mpr hdata
    rw [rank, rank, htodo, hmain, hcalls, hreceiver]
    rcases hplace with hplace | ⟨rest, hless, hplace | hplace⟩ <;> rw [hplace]
    · simp only [receiverRank]
      omega
    · simp only [receiverRank]
      omega
    · have := receiverRank_next_le s.calls rest
      simp only [receiverRank] at this ⊢
      omega
  | @setFull data hreceiver =>
    have hnext := receiverRank_next_le s.calls data
    have hwoken := mainRank_woken_le s.todo s.main
    simp only [rank, hreceiver]
    simp only [receiverRank] at hnext ⊢
    omega
  | @setEnd hreceiver =>
    have hwoken := mainRank_woken_le s.todo s.main
    simp only [rank, hreceiver, receiverRank]
    split <;> omega
  | endOfEntry hreceiver | lock hreceiver | unavailable hreceiver | wait hreceiver
  | relock hreceiver | own hreceiver
  | lockFull hreceiver | lockEnd hreceiver =>
    simp only [rank, hreceiver, receiverRank]
    omega

/-- The receiver goes on unless it waits, if the main thread does not have the mutex. -/
theorem Invariant.exists_receiverStep (env : Env) (h : Invariant stream s)
    (hmain : s.main.holds = false) (hended : s.receiver ≠ .ended)
    (hwait : ∀ data, s.receiver ≠ .wait data) : ∃ s', ReceiverStep env s s' := by
  have hmu : s.receiver.holds = false → s.mu = none := by
    intro hholds
    rcases hmu : s.mu with _ | _ | _
    · rfl
    · rw [h.muMain.mp hmu] at hmain
      cases hmain
    · rw [h.muReceiver.mp hmu] at hholds
      cases hholds
  cases hreceiver : s.receiver with
  | entry =>
    rcases hcalls : s.calls with _ | ⟨data, rest⟩
    · exact ⟨_, .endOfEntry hreceiver hcalls⟩
    · exact ⟨_, .call hreceiver hcalls⟩
  | lock data => exact ⟨_, .lock hreceiver (hmu (by rw [hreceiver]; rfl))⟩
  | test data =>
    cases hwriter : s.writer with
    | some w => exact ⟨_, .own hreceiver (by simp [hwriter])⟩
    | none =>
      cases havailable : s.receiverAvailable with
      | true => exact ⟨_, .wait hreceiver hwriter havailable⟩
      | false => exact ⟨_, .unavailable hreceiver hwriter havailable⟩
  | wait data => exact absurd hreceiver (hwait data)
  | wake data => exact ⟨_, .relock hreceiver (hmu (by rw [hreceiver]; rfl))⟩
  | write data =>
    obtain ⟨w, hw⟩ := Option.ne_none_iff_exists'.mp (h.owns (.inl ⟨data, hreceiver⟩))
    exact ⟨_, .write hreceiver hw⟩
  | fullLock data => exact ⟨_, .lockFull hreceiver (hmu (by rw [hreceiver]; rfl))⟩
  | fullSet data => exact ⟨_, .setFull hreceiver⟩
  | endLock => exact ⟨_, .lockEnd hreceiver (hmu (by rw [hreceiver]; rfl))⟩
  | endSet => exact ⟨_, .setEnd hreceiver⟩
  | ended => exact absurd hreceiver hended

/-- The main thread goes on unless it waits or is at its end, if the receiver does not have the
mutex. -/
theorem Invariant.exists_mainStep (h : Invariant stream s) (hreceiver : s.receiver.holds = false)
    (hwait : ∀ tgt, s.main ≠ .newWait tgt) (hjoin : s.main.cleared = false) :
    ∃ s', MainStep s s' := by
  have hmu : s.main.holds = false → s.mu = none := by
    intro hholds
    rcases hmu : s.mu with _ | _ | _
    · rfl
    · rw [h.muMain.mp hmu] at hholds
      cases hholds
    · rw [h.muReceiver.mp hmu] at hreceiver
      cases hreceiver
  cases hmain : s.main with
  | ready => exact ⟨_, .finish false hmain nofun⟩
  | newLock tgt => exact ⟨_, .lock hmain (hmu (by rw [hmain]; rfl))⟩
  | newSet tgt => exact ⟨_, .set hmain⟩
  | newTest tgt =>
    by_cases hwriter : s.writer = none
    · exact ⟨_, .taken hmain hwriter⟩
    · cases havailable : s.receiverAvailable with
      | true => exact ⟨_, .wait hmain hwriter havailable⟩
      | false => exact ⟨_, .missing hmain hwriter havailable⟩
  | newWait tgt => exact absurd hmain (hwait tgt)
  | newWake tgt => exact ⟨_, .relock hmain (hmu (by rw [hmain]; rfl))⟩
  | endLock rc => exact ⟨_, .lockEnd hmain (hmu (by rw [hmain]; rfl))⟩
  | endSet rc => exact ⟨_, .setEnd hmain⟩
  | join rc =>
    rw [hmain] at hjoin
    cases hjoin
  | done rc =>
    rw [hmain] at hjoin
    cases hjoin

/-- Both threads are at their ends. -/
def Finished (s : HandOff) : Prop := s.receiver = .ended ∧ ∃ rc, s.main = .done rc

theorem Invariant.progress (env : Env) (h : Invariant stream s) :
    (∃ s', Next env s s') ∨ s.Finished := by
  have hreceiver (hmain : s.main.holds = false) (hended : s.receiver ≠ .ended)
      (hwait : ∀ data, s.receiver ≠ .wait data) : (∃ s', Next env s s') ∨ s.Finished := by
    obtain ⟨s', hs'⟩ := h.exists_receiverStep env hmain hended hwait
    exact .inl ⟨s', .inr hs'⟩
  cases hholds : s.receiver.holds with
  | true =>
    have hmain : s.main.holds = false := by
      by_contra hmain
      have := (h.muMain.mpr (by simpa using hmain)).symm.trans (h.muReceiver.mpr hholds)
      cases this
    refine hreceiver hmain (fun hended => ?_) fun data hwait => ?_
    · rw [hended] at hholds
      cases hholds
    · rw [hwait] at hholds
      cases hholds
  | false =>
    by_cases hwait : ∃ tgt, s.main = .newWait tgt
    · -- the receiver has the writer or is about to take it
      obtain ⟨tgt, hmain⟩ := hwait
      obtain ⟨hwriter, havailable⟩ := h.mainWait tgt hmain
      exact hreceiver (by rw [hmain]; rfl) (h.available.mp havailable).1 fun data hdata =>
        hwriter (h.receiverWait data hdata).1
    · cases hcleared : s.main.cleared with
      | false =>
        obtain ⟨s', hs'⟩ := h.exists_mainStep hholds (fun tgt hmain => hwait ⟨tgt, hmain⟩) hcleared
        exact .inl ⟨s', .inl hs'⟩
      | true =>
        by_cases hended : s.receiver = .ended
        · cases hmain : s.main with
          | join rc => exact .inl ⟨_, .inl (.join hmain hended)⟩
          | done rc => exact .inr ⟨hended, rc, hmain⟩
          | _ =>
            rw [hmain] at hcleared
            cases hcleared
        · -- nobody waits once `receiver_available` is cleared
          refine hreceiver ?_ hended fun data hdata => ?_
          · cases hmain : s.main <;> rw [hmain] at hcleared <;> first | rfl | cases hcleared
          · have := (h.available.mp (h.receiverWait data hdata).2).2
            rw [hcleared] at this
            cases this

/-- A `new` command has begun and does not have its data. -/
def Missing (s : HandOff) : Prop :=
  ∃ tgt, s.main = .newLock tgt ∨ s.main = .newSet tgt ∨ s.main.wants = some tgt ∧ s.writer ≠ none

/-- Once the receiver has ended, a command without its data comes closer to its failure in each
step. -/
theorem Invariant.missing_next (h : Invariant stream s) (hended : s.receiver = .ended)
    (hmissing : s.Missing) (hs : Next env s s') :
    s'.receiver = .ended ∧ (s'.Missing ∨ s'.main = .endLock false) := by
  obtain ⟨tgt, hmissing⟩ := hmissing
  have havailable : s.receiverAvailable ≠ true :=
    fun havailable => (h.available.mp havailable).1 hended
  have hmain : s.main = .newLock tgt ∨ s.main = .newSet tgt ∨
      (s.main = .newTest tgt ∨ s.main = .newWait tgt ∨ s.main = .newWake tgt) ∧
      s.writer ≠ none := by
    refine hmissing.imp_right (Or.imp_right (And.imp_left fun hwants => ?_))
    cases hmain : s.main <;> rw [hmain] at hwants <;> cases hwants <;> simp
  rcases hs with hs | hs
  · cases hs with
    | lock hm => exact ⟨hended, .inl ⟨_, .inr (.inl rfl)⟩⟩
    | set hm => exact ⟨by simpa using hended, .inl ⟨_, .inr (.inr ⟨rfl, nofun⟩)⟩⟩
    | taken hm hwriter => simp [hm, hwriter] at hmain
    | missing hm hwriter => exact ⟨hended, .inr rfl⟩
    | wait hm hwriter hgo => exact absurd hgo havailable
    | relock hm hmu =>
      refine ⟨hended, .inl ⟨_, .inr (.inr ⟨rfl, ?_⟩)⟩⟩
      simp only [hm, reduceCtorEq, false_or] at hmain
      exact hmain.2
    | begin hm | finish _ hm | lockEnd hm | setEnd hm | join hm => simp [hm] at hmain
  · cases hs <;> simp_all

theorem inductive_invariant (hvalid : ∀ tgt ∈ tgts, tgt.isValid = true) (env : Env)
    (calls : List (List UInt8)) :
    (system env calls tgts p d).Inductive (Invariant calls.flatten) where
  init := by
    rintro s rfl
    exact .start hvalid calls
  step s s' h hs := by
    rcases hs with (hs | hs) | hs
    · exact h.mainStep hs
    · exact h.receiverStep hs
    · exact h.spurious hs

/-- The new data is handed over: each command that has returned 0 has filled its target, byte after
byte, with what comes next in the stream; one of the threads can go on, and both come to their ends;
and once the receiver has ended, a command that misses data returns -1. -/
structure HandedOver (env : Env) (stream : List UInt8) (s : HandOff) : Prop where
  complete : ∀ r ∈ s.returned, (written r.2).map Prod.fst = addresses r.1
  inOrder : returnedBytes s.returned <+: stream
  progress : (∃ s', Next env s s') ∨ s.Finished
  ends : Inevitable (Next env) Finished s
  missing : s.receiver = .ended → s.Missing →
    Inevitable (Next env) (fun s => s.main = .endLock false) s

/-- In every interleaving, also if threads are woken for no reason, the new data is handed over. -/
theorem handedOver (hvalid : ∀ tgt ∈ tgts, tgt.isValid = true) (env : Env)
    (calls : List (List UInt8)) (p : CommandParameters) (d : Disk)
    (hs : (system env calls tgts p d).Reach s) : HandedOver env calls.flatten s := by
  have h := (inductive_invariant hvalid env calls).reach hs
  have hnext : ∀ s s', Invariant calls.flatten s → Next env s s' → Invariant calls.flatten s' ∧
      rank s' < rank s :=
    fun s s' hI hs => hs.elim (fun hs => ⟨hI.mainStep hs, rank_mainStep hs⟩)
      fun hs => ⟨hI.receiverStep hs, rank_receiverStep hI hs⟩
  refine ⟨h.complete, h.inOrder, h.progress env, ?_, fun hended hmissing => ?_⟩
  · exact .of_rank rank (fun s s' hI _ hs => hnext s s' hI hs) (fun s hI => hI.progress env) h
  · refine .of_rank (I := fun s => Invariant calls.flatten s ∧ s.receiver = .ended ∧
      (s.Missing ∨ s.main = .endLock false))
      rank (fun s s' hI hP hs => ?_) (fun s hI => ?_) ⟨h, hended, .inl hmissing⟩
    · obtain ⟨hI, hended, hmissing⟩ := hI
      obtain ⟨hI', hlt⟩ := hnext s s' hI hs
      exact ⟨⟨hI', hI.missing_next hended (hmissing.resolve_right hP) hs⟩, hlt⟩
    · obtain ⟨hI, -, hmissing | hfailed⟩ := hI
      · refine .inl ((hI.progress env).resolve_right fun hfinished => ?_)
        obtain ⟨-, rc, hdone⟩ := hfinished
        obtain ⟨tgt, hmissing⟩ := hmissing
        simp [hdone, MainPlace.wants] at hmissing
      · exact .inr hfailed

theorem lt_firstBlock : ∀ r ∈ [((0 : Nat), 1)], r.1 < r.2 := by decide

def firstBlock : RangeSet := ⟨[(0, 1)], lt_firstBlock⟩

/-- The receiver has the writer and a byte of the one block that the command waits for. -/
def oneByte : HandOff where
  todo := []
  main := .newWait firstBlock
  receiver := .write [7]
  mu := none
  writer := some (.make firstBlock)
  receiverAvailable := true
  calls := []
  params := .start
  disk := .start []
  steps := []
  returned := []

theorem reach_oneByte : (system .small [[7]] [firstBlock] .start (.start [])).Reach oneByte := by
  have h₀ : (system .small [[7]] [firstBlock] .start (.start [])).Reach
      (start [[7]] [firstBlock] .start (.start [])) := .init rfl
  have hwait : (system .small [[7]] [firstBlock] .start (.start [])).Reach
      { oneByte with receiver := .entry, calls := [[7]] } :=
    (((h₀.step (.inl (.inl (.begin rfl rfl)))).step (.inl (.inl (.lock rfl rfl)))).step
      (.inl (.inl (.set rfl)))).step (.inl (.inl (.wait rfl (by simp) rfl)))
  exact ((hwait.step (.inl (.inr (.call rfl rfl)))).step (.inl (.inr (.lock rfl rfl)))).step
    (.inl (.inr (.own rfl (by simp [oneByte]))))

/-- One byte for a command that wants a block: the receiver writes it and ends, and the command
returns -1. -/
theorem handedOver_oneByte : ∃ s, (system .small [[7]] [firstBlock] .start (.start [])).Reach s ∧
    s.steps.length = 1 ∧ HandedOver .small [7] s ∧
    Inevitable (Next .small) (fun s => s.main = .endLock false) s := by
  have hwritten := reach_oneByte.step (.inl (.inr (.write rfl rfl)))
  have hreceiver : (oneByte.write .small (.make firstBlock) [7]).receiver = .entry := rfl
  have hmain : (oneByte.write .small (.make firstBlock) [7]).main = .newWait firstBlock := rfl
  have hwriter : (oneByte.write .small (.make firstBlock) [7]).writer.isSome = true := rfl
  have hmu : (oneByte.write .small (.make firstBlock) [7]).mu = none := rfl
  have hcalls : (oneByte.write .small (.make firstBlock) [7]).calls = [] := rfl
  have hsteps : (oneByte.write .small (.make firstBlock) [7]).steps.length = 1 := rfl
  generalize oneByte.write .small (.make firstBlock) [7] = s at *
  have hwriter : s.writer ≠ none := Option.isSome_iff_ne_none.mp hwriter
  have hended := ((hwritten.step (.inl (.inr (.endOfEntry hreceiver hcalls)))).step
    (.inl (.inr (.lockEnd rfl hmu)))).step (.inl (.inr (.setEnd rfl)))
  have hover := handedOver (by decide) .small [[7]] .start (.start []) hended
  refine ⟨_, hended, hsteps, hover, hover.missing rfl ⟨firstBlock, .inr (.inr ⟨?_, hwriter⟩)⟩⟩
  rw [if_neg hwriter, hmain]
  rfl

end HandOff

end BootableRecovery.BlockImg
