import BootableRecovery.Theory.System
import BootableRecovery.Updater.Loop

/-!
# One saved index for all partitions

Every partition has its own stash directory, but there is one `last_command_file` for all partitions
and all transfer lists. `Shared` is storage with several partitions, together with a record of who
saved the index (`savedBy`) and of who skipped commands because of which index (`skips`).

Nothing in the file says what list the index belongs to, and the saved command line is not compared.
So a call skips commands of its own list only if each call follows one for the same partition and
list, or finds no file.
-/

namespace BootableRecovery.BlockImg

/-- What a call is for: a block device and a transfer list. -/
abbrev CallId := Text × Text

def Call.id (call : Call) : CallId := (call.blockdev, call.transferList)

def Step.isSkipped : Step → Bool
  | .skipped _ => true
  | _ => false

/-- The storage of one partition, and who saved the index; `self` is at work. -/
def saver (env : Env) (self : CallId) : Monitor (Disk.apply env) (Disk × Option CallId) where
  step t e := (t.1.apply env e, match e with
    | .renameLast _ => some self
    | .unlinkLast => none
    | _ => t.2)
  view := Prod.fst
  view_step _ _ := rfl

/-- The storage of all partitions. -/
structure Shared where
  disks : Text → (Nat → Block) × Option (List (Text × StashFile))
  lastCommand : Option Text
  savedBy : Option CallId
  previous : Option CallId
  skips : List (CallId × Option CallId)

namespace Shared

/-- What a call for the block device `dev` sees. -/
def disk (s : Shared) (dev : Text) : Disk := ⟨(s.disks dev).1, (s.disks dev).2, s.lastCommand⟩

/-- The first `k` steps of a call. -/
def callSteps (devices : Text → Env) (s : Shared) (call : Call) (p : CommandParameters) (k : Nat) :
    List Step :=
  ((performBlockImageUpdate (devices call.blockdev) call).steps p (s.disk call.blockdev)).take k

/-- A call that is interrupted after `k` steps, or ends before. -/
def call (devices : Text → Env) (s : Shared) (call : Call) (p : CommandParameters) (k : Nat) :
    Shared :=
  let steps := s.callSteps devices call p k
  let t := steps.foldl (saver (devices call.blockdev) call.id).step (s.disk call.blockdev,
    s.savedBy)
  { disks := Function.update s.disks call.blockdev (t.1.part, t.1.stash)
    lastCommand := t.1.lastCommand
    savedBy := t.2
    previous := some call.id
    skips := (if steps.any Step.isSkipped then [(call.id, s.savedBy)] else []) ++ s.skips }

/-- Whoever skipped commands did so because of an index saved for the same partition and list. -/
def Isolated (s : Shared) : Prop := ∀ skip ∈ s.skips, skip.2 = some skip.1

end Shared

section
variable (devices : Text → Env)

/-- All sequences of calls, each with any faults and interrupted at any point. -/
def calls : System Shared where
  init s := s.lastCommand = none ∧ s.savedBy = none ∧ s.previous = none ∧ s.skips = []
  step s s' := ∃ call p k, s' = s.call devices call p k

/-- The sequences in which each call is for the same partition and transfer list as the one before
it, or starts without a `last_command_file`. -/
def guardedCalls : System Shared where
  init := (calls devices).init
  step s s' := ∃ call p k, (s.previous = some call.id ∨ s.lastCommand = none) ∧
    s' = s.call devices call p k

end

/-! ## A call that finds no saved index skips nothing -/

section
variable {env : Env} {p : CommandParameters} {d₀ : Disk}

/-- No command was skipped so far. -/
def NoSkip (t : Disk × List Step) : Prop := ∀ e ∈ t.2, e.isSkipped = false

theorem NoSkip.step {t : Disk × List Step} (h : NoSkip t) {e : Step}
    (he : e.isSkipped = false) : NoSkip (t.1, t.2 ++ [e]) := by
  intro e' he'
  rcases List.mem_append.mp he' with he' | he'
  · exact h e' he'
  · rwa [List.mem_singleton.mp he']

theorem Step.IsStorage.not_skipped {e : Step} (h : e.IsStorage) : e.isSkipped = false := by
  cases e <;> first | rfl | cases h

theorem wp_noSkip_of_confined {x : M env α} {F : CommandParameters → γ}
    (hx : x.Confined Step.IsStorage F)
    {t : Disk × List Step} (ht : NoSkip t)
    {Q : Option (α × CommandParameters) → Disk × List Step → Prop}
    (hQ : ∀ r t, NoSkip t → Q r t) : wp (Monitor.history (Disk.apply env)) NoSkip x Q p t :=
  hx.wp (fun _ _ he h => h.step he.not_skipped) ht fun r t ht _ => hQ r t ht

theorem neg_one_le_cmdIndex (i : Nat) : -1 ≤ cmdIndex i := by
  unfold cmdIndex
  split <;> omega

theorem wp_afterCommand_noSkip {i : Nat} {command : Command} {t : Disk × List Step}
    (ht : NoSkip t) :
    wp (Monitor.history (Disk.apply env)) NoSkip (afterCommand env i command (-1))
      (fun r t => (∀ k p', r = some (some k, p') → k = -1) ∧ NoSkip t) p t := by
  refine wp_afterCommand (fun _ p' _ _ => ⟨by rintro k _ ⟨⟩; rfl, ht⟩)
    (fun _ h => absurd rfl h) (fun _ => ?_)
  have h₁ := ht.step (e := .finished i) rfl
  have h₂ := h₁.step (e := .fsync) rfl
  exact ⟨h₁, h₂, fun p' _ => ⟨by rintro k _ ⟨⟩; rfl, h₂⟩, fun _ p' _ => ⟨by rintro k _ ⟨⟩, h₁⟩⟩

theorem wp_performLines_noSkip {lines : List Text} {i : Nat}
    {t : Disk × List Step} (ht : NoSkip t) :
    wp (Monitor.history (Disk.apply env)) NoSkip (performLines env i lines (-1))
      (fun _ t => NoSkip t) p t := by
  induction lines generalizing i p t with
  | nil => simpa [performLines] using ht
  | cons line lines ih =>
    unfold performLines
    split
    · exact ih ht
    · rw [wp_bind]
      refine wp_performLine (fun _ => by simpa using ht) (fun _ _ _ => by simpa using ih ht)
        (fun _ hne hle _ => ?_) (fun command f hc hf _ => ?_)
      · have := neg_one_le_cmdIndex i
        omega
      · have hb := ht.step (e := .began i (p.forLine i line)) rfl
        refine ⟨hb, wp_noSkip_of_confined (confined_perform hf) hb fun r t ht => ?_⟩
        rcases r with _ | ⟨ok, p'⟩
        · exact ht
        · simp only [wpThen_some]
          cases ok with
          | false => simpa using ht
          | true =>
            simp only [if_true]
            refine wp_mono (wp_afterCommand_noSkip ht) fun r t h => ?_
            rcases r with _ | ⟨_ | k, p''⟩
            · exact h.2
            · simpa using h.2
            · have : k = -1 := h.1 k p'' rfl
              subst this
              simpa using ih h.2

theorem not_skipped_of_lastCommand_eq_none {call : Call} {d : Disk} (hd : d.lastCommand = none) :
    ∀ e ∈ (performBlockImageUpdate env call).steps p d, e.isSkipped = false := by
  have ht : NoSkip (d, []) := by simp [NoSkip]
  suffices h : wp (Monitor.history (Disk.apply env)) NoSkip (performBlockImageUpdate env call)
      (fun _ t => NoSkip t) p (d, []) by
    simpa [Monitor.history_foldl, NoSkip] using wp_result h
  refine wp_performBlockImageUpdate (fun _ _ => ht) fun p' _ _ _ _ n lines _ _ _ _ _ _ _ _ _ => ?_
  have hlines : ∀ {p t}, NoSkip t → wp (Monitor.history (Disk.apply env)) NoSkip (do
      let rc ← performLines env 0 lines (-1)
      finishUpdate env rc
      return rc) (fun _ t => NoSkip t) p t := by
    intro p t ht
    rw [wp_bind]
    refine wp_mono (wp_performLines_noSkip ht) fun r t ht => ?_
    rcases r with _ | ⟨rc, p⟩
    · exact ht
    · simp only [wpThen_some, wp_bind]
      refine wp_noSkip_of_confined (confined_finishUpdate.mono fun _ =>
        Step.IsUnsaving.isStorage) ht fun r t ht => ?_
      rcases r with _ | ⟨_, _⟩
      · exact ht
      · simpa using ht
  have hmkdir : NoSkip (d, [.mkdirStash]) := ht.step rfl
  refine wp_performCommands (fun _ => hmkdir) (fun _ p' t' _ h => ?_) (fun p₁ t' _ _ h => ?_)
  · rcases h with rfl | ⟨-, rfl⟩
    · exact ht
    · exact hmkdir
  · have ht' : NoSkip t' ∧ (t'.2.foldl (Disk.apply env) t'.1).lastCommand = none := by
      rcases h with ⟨-, -, rfl⟩ | ⟨-, -, rfl⟩
      · exact ⟨hmkdir, hd⟩
      · exact ⟨ht, hd⟩
    have hunlink : NoSkip (t'.1, t'.2 ++ [.unlinkLast]) := ht'.1.step rfl
    rw [wp_bind]
    refine wp_savedIndex (fun p₂ k _ hk => ?_) fun _ =>
      ⟨hunlink, fun p₂ _ => hlines hunlink, fun _ p₂ _ => hlines ht'.1⟩
    rw [Monitor.history_view, Disk.savedIndex, ht'.2] at hk
    cases hk

/-! ## Isolation -/

/-- The index that is on storage was saved in the call that came last. -/
structure SavedByPrevious (s : Shared) : Prop where
  saved : s.savedBy = none ↔ s.lastCommand = none
  previous : ∀ id, s.savedBy = some id → s.previous = some id
  isolated : s.Isolated

theorem saver_foldl (env : Env) {self : CallId} (steps : List Step) {t : Disk × Option CallId}
    (h : t.2 = none ↔ t.1.lastCommand = none) (hself : t.2 = none ∨ t.2 = some self) :
    let t' := steps.foldl (saver env self).step t
    (t'.2 = none ↔ t'.1.lastCommand = none) ∧ (t'.2 = none ∨ t'.2 = some self) := by
  induction steps generalizing t with
  | nil => exact ⟨h, hself⟩
  | cons e steps ih =>
    refine ih ?_ ?_
    · cases e with
      | renameLast | unlinkLast => simp [saver, Disk.apply]
      | rmdirStash =>
        simp only [saver, Disk.apply]
        split <;> exact h
      | _ => exact h
    · cases e with
      | renameLast => exact .inr rfl
      | unlinkLast => exact .inl rfl
      | _ => exact hself

theorem savedByPrevious_call {devices : Text → Env} {s : Shared} {call : Call} {k : Nat}
    (hs : SavedByPrevious s) (hguard : s.previous = some call.id ∨ s.lastCommand = none) :
    SavedByPrevious (s.call devices call p k) := by
  have hself : s.savedBy = none ∨ s.savedBy = some call.id := by
    rcases hguard with hprev | hnone
    · cases hsaved : s.savedBy with
      | none => exact .inl rfl
      | some id =>
        have := hs.previous id hsaved
        rw [hprev] at this
        exact .inr this.symm
    · exact .inl (hs.saved.mpr hnone)
  obtain ⟨hsaved, hby⟩ := saver_foldl (devices call.blockdev) (s.callSteps devices call p k)
    (t := (s.disk call.blockdev, s.savedBy)) hs.saved hself
  refine ⟨hsaved, fun id hid => ?_, fun skip hskip => ?_⟩
  · rcases hby with hby | hby
    · cases hby.symm.trans hid
    · exact (hby.symm.trans hid)
  · rcases List.mem_append.mp hskip with hskip | hskip
    · split at hskip
      · rename_i hany
        cases List.mem_singleton.mp hskip
        rcases hself with hnone | hself
        · -- a call that skips has found an index
          obtain ⟨e, he, hskipped⟩ := List.any_eq_true.mp hany
          have := not_skipped_of_lastCommand_eq_none (hs.saved.mp hnone) e (List.mem_of_mem_take he)
          exact absurd hskipped (by simp [this])
        · exact hself
      · cases hskip
    · exact hs.isolated skip hskip

theorem inductive_savedByPrevious (devices : Text → Env) :
    (guardedCalls devices).Inductive SavedByPrevious where
  init s h := by
    obtain ⟨h₁, h₂, h₃, h₄⟩ := h
    exact ⟨by simp [h₁, h₂], by simp [h₂], by simp [Shared.Isolated, h₄]⟩
  step s s' hs h := by
    obtain ⟨call, p, k, hguard, rfl⟩ := h
    exact savedByPrevious_call hs hguard

/-- Where each call is for the partition and the list of the call before it, or finds no saved
index, no call skips a command because of an index that was saved for something else. -/
theorem guardedCalls_isolated {devices : Text → Env} {s : Shared}
    (h : (guardedCalls devices).Reach s) : s.Isolated :=
  ((inductive_savedByPrevious devices).reach h).isolated

end

/-- Storage with blocks of zeros, before the first call. -/
def Shared.start : Shared := ⟨fun _ => (fun _ => 0, none), none, none, none, []⟩

/-- An update of the partition `system` that stashes block 0. -/
def stashCall : Call := ⟨false, false, "system".toList, "4\n1\n1\n1\nstash b 2,0,1".toList, []⟩

/-- An update of the partition `vendor` that fills block 0 with zeros. -/
def zeroCall : Call := ⟨false, false, "vendor".toList, "4\n1\n0\n0\nzero 2,0,1".toList, []⟩

/-- The first update is interrupted when it has saved its index, and resumed. -/
theorem guardedCalls_isolated_resumed :
    let s := (Shared.start.call (fun _ => .small) stashCall .start 5).call (fun _ => .small)
      stashCall .start 9
    s.skips = [(stashCall.id, some stashCall.id)] ∧ s.Isolated := by
  have hr : (guardedCalls fun _ => .small).Reach Shared.start := .init ⟨rfl, rfl, rfl, rfl⟩
  have h₁ := hr.step ⟨stashCall, .start, 5, .inr rfl, rfl⟩
  have h₂ := h₁.step ⟨stashCall, .start, 9, .inl rfl, rfl⟩
  exact ⟨by decide +kernel, guardedCalls_isolated h₂⟩

/-- Without the condition, the second update skips its only command because of the index of the
first one. -/
theorem calls_not_isolated :
    ¬∀ (devices : Text → Env) (s : Shared), (calls devices).Reach s → s.Isolated := by
  intro h
  have hr : (calls fun _ => .small).Reach Shared.start := .init ⟨rfl, rfl, rfl, rfl⟩
  have h₁ := hr.step ⟨stashCall, .start, 5, rfl⟩
  have h₂ := h₁.step ⟨zeroCall, .start, 9, rfl⟩
  have hskips : ((Shared.start.call (fun _ => .small) stashCall .start 5).call (fun _ => .small)
      zeroCall .start 9).skips = [(zeroCall.id, some stashCall.id)] := by decide +kernel
  have := h _ _ h₂ (zeroCall.id, some stashCall.id) (by simp [hskips])
  exact absurd this (by decide +kernel)

end BootableRecovery.BlockImg
