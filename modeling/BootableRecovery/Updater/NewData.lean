import BootableRecovery.Updater.Executions
import BootableRecovery.Updater.Sink

/-!
# New data after a resume

The receiver hands out the stream of new data from its start, whatever the main loop skips. So after
a resume from index `k`, the `new` command of line `i` gets the bytes that follow those of the `new`
commands between `k` and `i`, and not those that follow all `new` commands before `i`.
-/

namespace BootableRecovery.BlockImg

/-- The target of a line with a `new` command. -/
def newTarget (line : Text) : Option RangeSet :=
  if commandOf line = some .new then (line.splitOn ' ').tail.head?.map RangeSet.parse else none

/-- The number of bytes of new data that a line asks for. -/
def newBytes (line : Text) : Nat := ((newTarget line).map fun tgt => tgt.blocks * BLOCKSIZE).getD 0

/-- The number of bytes of new data that some lines ask for. -/
def newOffset (lines : List Text) : Nat := (lines.map newBytes).sum

/-- The number of bytes that the receiver has handed out before line `i`, in a run that skips the
lines up to `saved`. -/
def handedOut (lines : List Text) (saved : Int) (i : Nat) : Nat :=
  newOffset ((lines.take i).drop (saved + 1).toNat)

theorem handedOut_skipped {lines : List Text} {saved : Int} {i : Nat} (h : (i : Int) ≤ saved) :
    handedOut lines saved (i + 1) = handedOut lines saved i := by
  have hnil : ∀ j ≤ i + 1, (lines.take j).drop (saved + 1).toNat = [] := by
    intro j hj
    refine List.drop_eq_nil_of_le ?_
    rw [List.length_take]
    omega
  simp only [handedOut, hnil (i + 1) (Nat.le_refl _), hnil i (Nat.le_succ i)]

theorem handedOut_succ {lines : List Text} {saved : Int} {i : Nat} {line : Text}
    (h : saved < i) (hline : lines[i]? = some line) :
    handedOut lines saved (i + 1) = handedOut lines saved i + newBytes line := by
  obtain ⟨hi, rfl⟩ := List.getElem?_eq_some_iff.mp hline
  have hlen : (saved + 1).toNat ≤ (lines.take i).length := by
    rw [List.length_take]
    omega
  simp only [handedOut, newOffset]
  rw [List.take_succ_eq_append_getElem hi, List.drop_append_of_le_length hlen]
  simp

section
variable {lines : List Text} {stream : List UInt8} {saved : Int}

/-- What a `new` command has written: the bytes that the receiver had not handed out before. -/
def Received (lines : List Text) (stream : List UInt8) (saved : Int) (_before : List Step) (i : Nat)
    (_params : CommandParameters) (body : List Step) : Prop :=
  ∀ line tgt, lines[i]? = some line → newTarget line = some tgt →
    tgt.blocks * BLOCKSIZE ≤ (stream.drop (handedOut lines saved i)).length ∧
    written body = (addresses tgt).zip (stream.drop (handedOut lines saved i))

variable {env : Env} {d : Disk} {log before : List Step} {i : Nat} {p params : CommandParameters}
variable {G : List Step → Nat → CommandParameters → List Step → Prop}

theorem sinkInvariant_running {tgt : RangeSet} :
    SinkInvariant (Monitor.history (Disk.apply env)) tgt
    fun done t => t.1 = d ∧ AllExecuted G t.2 ∧
      ∃ body, Running t.2 before i params body ∧ written body = done where
  write := by
    rintro done t b off data rest - - - - ⟨hd, hall, body, hr, rfl⟩
    exact ⟨hd, hall.storage trivial, _, hr.snoc trivial, by simp [written, Step.written]⟩
  discard := by
    rintro done t r rest - ⟨hd, hall, body, hr, rfl⟩
    exact ⟨hd, hall.storage trivial, _, hr.snoc trivial, by simp [written, Step.written]⟩

/-- What holds before line `i`: the receiver has the rest of the stream. -/
structure AtLine (lines : List Text) (stream : List UInt8) (saved : Int) (i : Nat)
    (p : CommandParameters) (log : List Step) : Prop where
  canwrite : p.canwrite = true
  available : p.nti.receiverAvailable = true
  rest : p.nti.stream.flatten = stream.drop (handedOut lines saved i)
  executed : AllExecuted (Received lines stream saved) log

theorem wp_performLine_received {line : Text} {p : CommandParameters}
    (hline : lines[i]? = some line) (hsaved : saved ≤ INT_MAX)
    (h : AtLine lines stream saved i p log) :
    wp (Monitor.history (Disk.apply env)) (fun t => AllExecuted (Received lines stream saved) t.2)
      (performLine env i line saved) (fun r t => t.1 = d ∧
        AllExecuted (Received lines stream saved) t.2 ∧ ∀ k p', r = some (some k, p') →
          k = saved ∧ AtLine lines stream saved (i + 1) p' t.2) p (d, log) := by
  have hbegan : AllExecuted (Received lines stream saved)
      (log ++ [.began i (p.forLine i line)]) := h.executed.snoc (by simp)
  have hrun := Running.start log i (p.forLine i line)
  refine wp_performLine (fun _ => ?_) (fun command hc hf => ?_) (fun hw hne hle _ => ?_)
    (fun command f hc hf hskip => ⟨hbegan, ?_⟩)
  · exact ⟨rfl, h.executed, by rintro k p' ⟨⟩⟩
  · rw [h.canwrite] at hf
    cases command <;> simp [Command.perform] at hf
  · -- a skipped line takes no new data
    have hi : cmdIndex i = i := cmdIndex_eq hne
    rw [hi] at hle
    refine ⟨h.executed.snoc (by simp), rfl, h.executed.snoc (by simp), ?_⟩
    rintro k p' ⟨⟩
    refine ⟨rfl, h.canwrite, h.available, ?_, h.executed.snoc (by simp)⟩
    rw [handedOut_skipped hle, h.rest]
  · have hlt : saved < i := by
      rw [h.canwrite] at hskip
      by_cases hne : cmdIndex i = -1
      · have := lt_of_cmdIndex_eq hne
        omega
      · have hi := cmdIndex_eq hne
        simp only [true_and, hne, not_false_eq_true, ne_eq] at hskip
        omega
    have hsucc := handedOut_succ hlt hline
    by_cases hnew : command = .new
    · subst hnew
      have hf' : f = performCommandNew env := by
        rw [h.canwrite] at hf
        simpa [Command.perform] using hf.symm
      subst hf'
      refine wp_performCommandNew (fun _ => sinkInvariant_running) (fun _ _ h => h.2.1) h.canwrite
        ⟨rfl, hbegan, [], hrun, rfl⟩ ?_ ?_
      · rintro p' ⟨d', log'⟩ tgt rest htgt hp hlen hrest ⟨rfl, hall, body, hr, hwr⟩
        have htarget : newTarget line = some tgt := by
          simpa [newTarget, hc, CommandParameters.forLine] using htgt
        have hw' : { p' with nti := ⟨rest, true⟩ : CommandParameters }.canwrite = true := by
          obtain ⟨⟨_, rfl⟩, -⟩ := hp
          exact h.canwrite
        have hrest' :
            (p.forLine i line).nti.stream.flatten = stream.drop (handedOut lines saved i) :=
          h.rest
        rw [hrest'] at hlen hrest hwr
        simp only [wpThen_some, if_true]
        refine wp_afterCommand_executed hw' hr hall ?_ (fun p'' log'' hp' hall' => ?_)
          (fun p'' log'' hall' => ⟨rfl, hall', by rintro k p' ⟨⟩⟩)
        · intro line' tgt' hline' htgt'
          cases hline.symm.trans hline'
          cases htarget.symm.trans htgt'
          exact ⟨hlen, hwr⟩
        · refine ⟨rfl, hall', ?_⟩
          rintro k p₃ ⟨⟩
          obtain ⟨⟨_, rfl⟩, -⟩ := hp'
          refine ⟨rfl, hw', rfl, ?_, hall'⟩
          rw [hsucc, newBytes, htarget]
          simpa [List.drop_drop] using hrest
      · rintro r ⟨d', log'⟩ done hr ⟨rfl, hall, -⟩
        rcases r with _ | ⟨ok, p'⟩
        · exact ⟨rfl, hall, by rintro k p' ⟨⟩⟩
        · cases ok with
          | true => exact absurd rfl (hr p')
          | false => simpa using hall
    · -- the other commands leave the new data alone
      have hnone : newTarget line = none := by
        rw [newTarget, if_neg]
        rw [hc]
        simpa using hnew
      refine wp_running (confined_perform_frame hf hnew) hrun hbegan
        (fun r log' body hr hall hF => ?_)
      rcases r with _ | ⟨ok, p'⟩
      · exact ⟨rfl, hall, by rintro k p' ⟨⟩⟩
      cases ok with
      | false => simpa using hall
      | true =>
        have hF := hF true p' rfl
        simp only [CommandParameters.frame, CommandParameters.settings, CommandParameters.forLine,
          Prod.mk.injEq] at hF
        obtain ⟨⟨-, -, hw', -, -⟩, hnti⟩ := hF
        simp only [wpThen_some, if_true]
        refine wp_afterCommand_executed (hw'.trans h.canwrite) hr hall ?_
          (fun p'' log'' hp' hall' => ?_) (fun p'' log'' hall' => ⟨rfl, hall', by rintro k p' ⟨⟩⟩)
        · intro line' tgt' hline' htgt'
          cases hline.symm.trans hline'
          cases hnone.symm.trans htgt'
        · refine ⟨rfl, hall', ?_⟩
          rintro k p₃ ⟨⟩
          obtain ⟨⟨_, rfl⟩, -⟩ := hp'
          refine ⟨rfl, hw'.trans h.canwrite, by rw [hnti]; exact h.available, ?_, hall'⟩
          rw [hnti, hsucc, newBytes, hnone]
          exact h.rest

theorem newBytes_nil : newBytes [] = 0 := by
  have hnone : commandOf [] = none := by decide
  simp [newBytes, newTarget, hnone]

theorem AtLine.blank (h : AtLine lines stream saved i p log) (hline : lines[i]? = some []) :
    AtLine lines stream saved (i + 1) p log := by
  refine ⟨h.canwrite, h.available, ?_, h.executed⟩
  rcases lt_or_ge saved i with hlt | hle
  · rw [handedOut_succ hlt hline, newBytes_nil, Nat.add_zero, h.rest]
  · rw [handedOut_skipped hle, h.rest]

theorem wp_performLines_received {rest : List Text} {p : CommandParameters}
    (hrest : lines.drop i = rest) (hsaved : saved ≤ INT_MAX)
    (h : AtLine lines stream saved i p log) :
    wp (Monitor.history (Disk.apply env)) (fun t => AllExecuted (Received lines stream saved) t.2)
      (performLines env i rest saved) (fun _ t => t.1 = d ∧
        AllExecuted (Received lines stream saved) t.2) p (d, log) := by
  induction rest generalizing i p log with
  | nil => simpa [performLines] using h.executed
  | cons line rest ih =>
    have hline : lines[i]? = some line := by
      rw [← List.head?_drop, hrest, List.head?_cons]
    have hrest' : lines.drop (i + 1) = rest := by
      rw [← List.tail_drop, hrest, List.tail_cons]
    unfold performLines
    split
    · rename_i hempty
      rw [List.isEmpty_iff.mp hempty] at hline
      exact ih hrest' (h.blank hline)
    · rw [wp_bind]
      refine wp_mono (wp_performLine_received hline hsaved h) fun r t ht => ?_
      obtain ⟨d', log'⟩ := t
      obtain ⟨rfl, hall, hnext⟩ := ht
      rcases r with _ | ⟨_ | k, p'⟩
      · exact ⟨rfl, hall⟩
      · simpa using hall
      · obtain ⟨rfl, hnext⟩ := hnext k p' rfl
        simpa using ih hrest' hnext

end

theorem savedIndex_le {d : Disk} {k : Int} (h : d.savedIndex = some k) : k ≤ INT_MAX := by
  obtain ⟨content, -, hk⟩ := Option.bind_eq_some_iff.mp h
  unfold parseLastCommand at hk
  split at hk
  · have := (Option.filter_eq_some_iff.mp hk).2
    simp at this
    omega
  · cases hk

/-- What the `new` commands of a call write: the stream from the start of the call, as far as the
commands before have not used it. The call resumes from the saved index, if it can read it. -/
theorem allExecuted_received (env : Env) {call : Call} (p : CommandParameters) (d : Disk)
    (hupdate : call.dryrun = false) : ∃ k, (k = -1 ∨ d.savedIndex = some k) ∧
      (p.faults = [] → k = d.savedIndex.getD (-1)) ∧
      AllExecuted (Received call.lines call.newData.flatten k)
        ((performBlockImageUpdate env call).steps p d) := by
  suffices h :
      wp (Monitor.history (Disk.apply env)) (fun _ => True) (performBlockImageUpdate env call)
      (fun _ t => ∃ k, (k = -1 ∨ d.savedIndex = some k) ∧
        (p.faults = [] → k = d.savedIndex.getD (-1)) ∧
        AllExecuted (Received call.lines call.newData.flatten k) t.2) p (d, []) by
    simpa [Monitor.history_foldl] using wp_result h
  have hread : d.savedIndex.getD (-1) = -1 ∨ d.savedIndex = some (d.savedIndex.getD (-1)) := by
    cases d.savedIndex <;> simp
  have hended : ∀ {log : List Step}, (∀ G, AllExecuted G log) →
      ∃ k, (k = -1 ∨ d.savedIndex = some k) ∧ (p.faults = [] → k = d.savedIndex.getD (-1)) ∧
        AllExecuted (Received call.lines call.newData.flatten k) log :=
    fun hlog => ⟨_, hread, fun _ => rfl, hlog _⟩
  have hmkdir : ∀ G, AllExecuted G ([] ++ [.mkdirStash]) := fun _ => AllExecuted.nil.storage trivial
  refine wp_performBlockImageUpdate (fun _ _ => hended fun _ => .nil) ?_
  intro p₀ version total entries stashMax n lines hlines hw _ _ _ hnti _ _ hfaults
  have hcall : call.lines = lines := by simp [Call.lines, hlines]
  refine wp_performCommands (fun _ => trivial) (fun _ p' t' _ ht => ?_)
    (fun p₁ t' created hp ht => ?_)
  · rcases ht with rfl | ⟨-, rfl⟩
    · exact hended fun _ => .nil
    · exact hended hmkdir
  · obtain ⟨log, rfl, hlog, hview⟩ : ∃ log, t' = (d, log) ∧ (∀ G, AllExecuted G log) ∧
        (log.foldl (Disk.apply env) d).savedIndex = d.savedIndex := by
      rcases ht with ⟨-, -, rfl⟩ | ⟨-, -, rfl⟩
      · exact ⟨_, rfl, hmkdir, rfl⟩
      · exact ⟨_, rfl, fun _ => .nil, rfl⟩
    have hp₁ : p₁.canwrite = true ∧ p₁.nti = ⟨call.newData, true⟩ := by
      obtain ⟨⟨_, rfl⟩, -⟩ := hp
      exact ⟨by simp [hw, hupdate], hnti⟩
    have hnofault : p.faults = [] → p₁.faults = [] := by
      intro h₀
      rw [hp.eq (hfaults h₀)]
      exact hfaults h₀
    have hrun : ∀ p₂ log' k, Faulted p₁ p₂ → (∀ G, AllExecuted G log') →
        (k = -1 ∨ d.savedIndex = some k) → (p.faults = [] → k = d.savedIndex.getD (-1)) →
        wp (Monitor.history (Disk.apply env)) (fun _ => True) (do
          let rc ← performLines env 0 lines k
          finishUpdate env rc
          return rc) (fun _ t => ∃ k, (k = -1 ∨ d.savedIndex = some k) ∧
            (p.faults = [] → k = d.savedIndex.getD (-1)) ∧
            AllExecuted (Received call.lines call.newData.flatten k) t.2) p₂ (d, log') := by
      intro p₂ log' k hp₂ hlog' hk hk'
      have hle : k ≤ INT_MAX := by
        rcases hk with rfl | hk
        · decide
        · exact savedIndex_le hk
      have hat : AtLine lines call.newData.flatten k 0 p₂ log' := by
        obtain ⟨⟨_, rfl⟩, -⟩ := hp₂
        refine ⟨hp₁.1, by rw [hp₁.2], by simp [hp₁.2, handedOut, newOffset], hlog' _⟩
      refine wp_crash_mono (C := fun t => AllExecuted (Received lines call.newData.flatten k) t.2)
        (fun _ _ => trivial) ?_
      rw [wp_bind]
      refine wp_mono (wp_performLines_received (by simp) hle hat) fun r t ht => ?_
      obtain ⟨d', log''⟩ := t
      obtain ⟨rfl, hall⟩ := ht
      rcases r with _ | ⟨rc, p₃⟩
      · exact ⟨k, hk, hk', by rwa [hcall]⟩
      · simp only [wpThen_some, wp_bind]
        refine wp_between (confined_finishUpdate.mono fun _ => Step.IsUnsaving.isStorage) hall
          fun r log₃ hall' _ => ?_
        rcases r with _ | ⟨_, p₄⟩
        · exact ⟨k, hk, hk', by rwa [hcall]⟩
        · simp only [wpThen_some, wp_pure]
          exact ⟨k, hk, hk', by rwa [hcall]⟩
    rw [wp_bind]
    refine wp_savedIndex (fun p₂ k hp₂ hk => ?_) fun hnone => ⟨trivial, fun p₂ hp₂ => ?_,
      fun h p₂ hp₂ => ?_⟩
    · have hk : d.savedIndex = some k := hview.symm.trans hk
      exact hrun p₂ log k hp₂ hlog (.inr hk) fun _ => by simp [hk]
    · refine hrun p₂ _ (-1) hp₂ (fun _ => (hlog _).storage trivial) (.inl rfl) fun h₀ => ?_
      have : d.savedIndex = none := hview.symm.trans (hnone (hnofault h₀))
      simp [this]
    · exact hrun p₂ log (-1) hp₂ hlog (.inl rfl) fun h₀ => absurd (hnofault h₀) h

theorem zip_inj_right {as : List α} {bs cs : List β} (hb : bs.length = as.length)
    (hc : cs.length ≤ as.length) : as.zip bs = as.zip cs ↔ bs = cs := by
  constructor
  · intro h
    have hlen := congrArg List.length h
    simp only [List.length_zip, hb, Nat.min_self, Nat.min_eq_right hc] at hlen
    have := congrArg (List.map Prod.snd) h
    rwa [List.map_snd_zip (by omega), List.map_snd_zip hc] at this
  · rintro rfl
    rfl

/-- The `n` bytes of the stream from offset `o` on. -/
def slice (stream : List UInt8) (o n : Nat) : List UInt8 := (stream.drop o).take n

/-- A call resumes from an index `k`, which is the saved one if it can be read. A `new` command that
it executes writes the bytes that stand in the stream after those of all `new` commands before it
exactly if the same bytes stand there after those of the `new` commands between `k` and it. -/
theorem new_aligned_iff (env : Env) {call : Call} (p : CommandParameters) (d : Disk)
    (hupdate : call.dryrun = false) : ∃ k, (k = -1 ∨ d.savedIndex = some k) ∧
      (p.faults = [] → k = d.savedIndex.getD (-1)) ∧
      ∀ before i params body line tgt,
        Executed ((performBlockImageUpdate env call).steps p d) before i params body →
        call.lines[i]? = some line → newTarget line = some tgt →
        (written body = (addresses tgt).zip
            (slice call.newData.flatten (newOffset (call.lines.take i)) (tgt.blocks * BLOCKSIZE)) ↔
          slice call.newData.flatten (newOffset ((call.lines.take i).drop (k + 1).toNat))
              (tgt.blocks * BLOCKSIZE) =
            slice call.newData.flatten (newOffset (call.lines.take i))
            (tgt.blocks * BLOCKSIZE)) := by
  obtain ⟨k, hk, hk', hall⟩ := allExecuted_received env p d hupdate
  refine ⟨k, hk, hk', fun before i params body line tgt hx hline htgt => ?_⟩
  obtain ⟨hlen, hwr⟩ := hall before i params body hx line tgt hline htgt
  rw [handedOut] at hlen hwr
  have htake : (addresses tgt).zip (slice call.newData.flatten
      (newOffset ((call.lines.take i).drop (k + 1).toNat)) (tgt.blocks * BLOCKSIZE)) =
      written body := by
    rw [hwr, slice]
    exact zip_take_right (by simp)
  rw [← htake]
  refine zip_inj_right ?_ ?_
  · rw [slice, List.length_take, length_addresses]
    omega
  · rw [slice, List.length_take, length_addresses]
    omega

/-- An update with two `new` commands for one block each, and a stash between them. -/
def newCall : Call where
  dryrun := false
  retry := false
  blockdev := "system".toList
  transferList := "4\n2\n1\n1\nnew 2,0,1\nstash b 2,2,3\nnew 2,1,2".toList
  newData := [List.replicate BLOCKSIZE 1, List.replicate BLOCKSIZE 2]

/-- What the update leaves when it is interrupted after it has saved its index. -/
def Disk.interrupted : Disk :=
  (((performBlockImageUpdate .small newCall).steps .start (.start [])).take 9).foldl
    (Disk.apply .small) (.start [])

/-- The mark or the first byte written. -/
def Step.outline : Step → (Nat × Nat) ⊕ Option (Nat × UInt8)
  | .began i _ => .inl (0, i)
  | .finished i => .inl (1, i)
  | .skipped i => .inl (2, i)
  | e => .inr e.written.head?

theorem executed_of_outline {log : List Step} {i n : Nat} {w : Nat × UInt8}
    (h : ((log.drop n).take 3).map Step.outline = [.inl (0, i), .inr (some w), .inl (1, i)]) :
    ∃ params e, Executed log (log.take n) i params [e] ∧ (written [e]).head? = some w := by
  obtain ⟨b, l₁, hl, hb, h₁⟩ := List.map_eq_cons_iff.mp h
  obtain ⟨e, l₂, rfl, he, h₂⟩ := List.map_eq_cons_iff.mp h₁
  obtain ⟨f, l₃, rfl, hf, h₃⟩ := List.map_eq_cons_iff.mp h₂
  obtain ⟨params, rfl⟩ : ∃ params, b = .began i params := by
    cases b <;> simp_all [Step.outline]
  obtain rfl : f = .finished i := by
    cases f <;> simp_all [Step.outline]
  have hstorage : e.IsStorage ∧ e.written.head? = some w := by
    cases e <;> simp_all [Step.outline, Step.IsStorage, Step.IsData, Step.written]
  refine ⟨params, e, ⟨log.take n ++ [.began i params, e], ⟨by simpa using hstorage.1, by simp⟩, ?_⟩,
    by simpa [written] using hstorage.2⟩
  have hlog : log.take n ++ ([.began i params, e, .finished i] ++ (log.drop n).drop 3) = log := by
    rw [List.map_eq_nil_iff.mp h₃] at hl
    rw [← hl, List.take_append_drop, List.take_append_drop]
  exact ⟨(log.drop n).drop 3, by simpa using hlog⟩

/-- After the interruption, the second `new` command gets the data of the first one. -/
theorem outline_resumed :
    ((((performBlockImageUpdate .small newCall).steps .start .interrupted).drop 2).take 3).map
      Step.outline = [.inl (0, 2), .inr (some (4096, 1)), .inl (1, 2)] := by
  decide +kernel

theorem savedIndex_interrupted : Disk.interrupted.savedIndex = some 1 := by decide +kernel

theorem newTarget_newCall : newCall.lines[2]? = some "new 2,1,2".toList ∧
    newTarget "new 2,1,2".toList = some ⟨[(1, 2)], by decide⟩ ∧
    newOffset (newCall.lines.take 2) = BLOCKSIZE := by decide +kernel

/-- The resumed update executes the `new` command of line 2 with the bytes from the start of the
stream. -/
theorem new_aligned_iff_resumed : ∃ params e,
    Executed ((performBlockImageUpdate .small newCall).steps .start .interrupted)
      (((performBlockImageUpdate .small newCall).steps .start .interrupted).take 2) 2 params [e] ∧
    (written [e] = (addresses ⟨[(1, 2)], by decide⟩).zip
        (slice newCall.newData.flatten BLOCKSIZE BLOCKSIZE) ↔
      slice newCall.newData.flatten 0 BLOCKSIZE =
      slice newCall.newData.flatten BLOCKSIZE BLOCKSIZE) := by
  obtain ⟨params, e, hx, -⟩ := executed_of_outline outline_resumed
  obtain ⟨hline, htgt, hoff⟩ := newTarget_newCall
  obtain ⟨k, -, hk, h⟩ := new_aligned_iff .small .start .interrupted
    (show newCall.dryrun = false from rfl)
  have hk : k = 1 := by rw [hk rfl, savedIndex_interrupted, Option.getD_some]
  have := h _ _ _ _ _ _ hx hline htgt
  rw [hk, hoff] at this
  exact ⟨params, e, hx, by simpa [newOffset, RangeSet.blocks] using this⟩

/-- The `new` commands of a resumed update are not aligned with the stream. -/
theorem new_not_aligned :
    ¬∀ (env : Env) (call : Call) (p : CommandParameters) (d₀ d : Disk) (n : Nat), call.dryrun =
    false → d₀.lastCommand = none →
    d = (((performBlockImageUpdate env call).steps p d₀).take n).foldl (Disk.apply env) d₀ →
    ∀ before i params body line tgt,
      Executed ((performBlockImageUpdate env call).steps p d) before i params body →
      call.lines[i]? = some line → newTarget line = some tgt →
      written body = (addresses tgt).zip
        (slice call.newData.flatten (newOffset (call.lines.take i)) (tgt.blocks * BLOCKSIZE)) := by
  intro h
  obtain ⟨params, e, hx, hw⟩ := executed_of_outline outline_resumed
  obtain ⟨hline, htgt, hoff⟩ := newTarget_newCall
  have := h .small newCall .start (.start []) .interrupted 9 rfl rfl rfl _ _ _ _ _ _ hx hline htgt
  rw [this, hoff] at hw
  have hhead : ((addresses ⟨[(1, 2)], by decide⟩).zip (slice newCall.newData.flatten BLOCKSIZE
      (1 * BLOCKSIZE))).head? = some (4096, 2) := by decide +kernel
  have hblocks : (⟨[(1, 2)], by decide⟩ : RangeSet).blocks = 1 := rfl
  rw [hblocks, hhead] at hw
  exact absurd hw (by decide)

end BootableRecovery.BlockImg
