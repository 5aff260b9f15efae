import BootableRecovery.Updater.VerifyRun

/-!
# An update through any number of interruptions

A boot into recovery verifies the transfer list and then executes it. If it is interrupted, by a
crash after any step of the verification or the update, the next one does the same from the storage
that is left. Whatever interruptions there were, an attempt that is not interrupted leaves the
target image, no stash and no saved index.
-/

namespace BootableRecovery.BlockImg

variable {env : Env} {S F : Image} {instrs : List Instr} {settled : Nat → Prop} {j : Nat}
    {C : Disk → Prop}
variable {p : CommandParameters} {d : Disk}

/-! ## The arguments -/

/-- The transfer list has a header that is accepted, and its other lines are the commands. -/
structure Call.Reads (call : Call) (instrs : List Instr) : Prop where
  header : ∃ version total entries stashMax : Text, ∃ v : Int, ∃ n m : Nat,
    call.transferList.splitOn '\n' = version :: total :: entries :: stashMax :: call.lines ∧
      parseInt version = some v ∧ 3 ≤ v ∧ v ≤ 4 ∧ parseUint total = some (n + 1) ∧
      parseUint stashMax = some m
  lines : call.lines.mapM Instr.decode = some instrs
  blockdev : call.blockdev ≠ []

/-- The variables of a call after its arguments are read. -/
def CommandParameters.forCall (p : CommandParameters) (call : Call) : CommandParameters :=
  { p with
    tokens := [], cmdindex := 0, cmdline := [], freestash := [], canwrite :=
      !call.dryrun, createdstash := false
    isunresumable := false, nti := ⟨call.newData, true⟩, buffer := [], targetVerified := false
    isRetry := p.isRetry || call.retry }

theorem Call.not_mem_lines (call : Call) : ∀ line ∈ call.lines, '\n' ∉ line := by
  intro line hline
  exact (of_mem_splitOn (s := call.transferList) (List.mem_of_mem_drop hline)).1

theorem wp_performBlockImageUpdate_reads {call : Call}
    {Q : Option (Bool × CommandParameters) → Disk → Prop}
    (hreads : call.Reads instrs) (hf : p.faults = [])
    (hrun : ∀ n, wp (.plain (Disk.apply env)) C (performCommands env call.blockdev n call.lines) Q
      (p.forCall call) d) :
      wp (.plain (Disk.apply env)) C (performBlockImageUpdate env call) Q p d := by
  obtain ⟨⟨version, total, entries, stashMax, v, n, m, hlist, hversion, h₃, h₄, htotal, hmax⟩, -,
      -⟩ := hreads
  simp only [performBlockImageUpdate, wp_bind, wp_modify, wpThen_some]
  refine wp_syscalls (fun p' hp => ?_) fun h => absurd hf h
  rw [hp.eq hf]
  have hsupported : ¬(v < 3 ∨ 4 < v) := by omega
  simp only [wpThen_some, if_true, hlist, hversion, Option.all_some, hsupported, decide_false,
    Bool.false_eq_true, if_false, htotal, hmax]
  exact hrun m

/-! ## One attempt -/

theorem Reached.mkdirStash (h : Reached env S F instrs settled j d) (hnone : d.stash = none) :
    Reached env S F instrs settled j (d.apply env .mkdirStash) := by
  refine h.of_eq rfl (fun id => ?_) fun _ hk => hk
  rw [Disk.stashFile, Disk.stashFile, hnone]
  simp [Disk.apply, hnone]

theorem Reached.unlinkLast (h : Reached env S F instrs settled j d) :
    Reached env S F instrs settled j (d.apply env .unlinkLast) :=
  h.of_eq rfl (fun _ => rfl) fun _ hk => by cases hk

section
variable (hinj : Function.Injective env.sha1) (hcreator : Creator env S F instrs)
include hinj hcreator

theorem wp_update_reached {call : Call} {Q : Option (Bool × CommandParameters) → Disk → Prop}
    (hreads : call.Reads instrs) (hwrite : call.dryrun = false) (hf : p.faults = [])
    (hagain : 0 = j ∨ 0 < j ∧ Resumable instrs)
    (hstream : streamBytes F instrs <+: call.newData.flatten)
    (h : Reached env S F instrs settled j d) (hbefore : d.SavedBefore j)
    (hC : ∀ d', Recoverable env S F instrs d' → C d')
    (hQ : ∀ p', p'.faults = [] → Q (some (true, p')) ⟨F, none, none⟩) :
    wp (.plain (Disk.apply env)) C (performBlockImageUpdate env call) Q p d := by
  refine wp_performBlockImageUpdate_reads hreads hf fun n => ?_
  have hidle : Idle (p.forCall call) :=
    ⟨hf, by rw [CommandParameters.forCall, hwrite]; rfl, rfl, rfl⟩
  -- the loop and the end, with the saved index that was read
  have hloop : ∀ (d : Disk) (saved : Int) (p : CommandParameters), Idle p →
      p.nti = ⟨call.newData, true⟩ → Reached env S F instrs settled j d → d.stash.isSome = true →
      saved ≤ INT_MAX → (∀ k, d.savedIndex = some k → k = saved) →
      (∀ k : Nat, (k : Int) ≤ saved → k < j ∧ settled k) → wp (.plain (Disk.apply env)) C (do
        let rc ← performLines env 0 call.lines saved
        finishUpdate env rc
        return rc) Q p d := by
    intro d saved p hp hnti h hstash hmax hk hsaved
    have hunsettled : Reached env S F instrs (fun k => k < 0 ∨ (k : Int) ≤ saved) j d := by
      refine h.unsettle (fun k hk => ?_) fun k hk' i hi => .inl ?_
      · rcases hk with hk | hk
        · omega
        · exact (hsaved k hk).2
      · cases hk k hk'
        exact ⟨(hsaved i hi).1, .inr hi⟩
    rw [wp_bind]
    refine wp_performLines_update hinj hcreator hreads.lines call.not_mem_lines hagain hmax
      (fun k hk => (hsaved k hk).1) hp
      hunsettled hstash (by rw [hnti]; exact ⟨hstream, rfl⟩) hC fun p' d' n hn hp' h' hstash' => ?_
    rw [wpThen_some, wp_bind]
    refine wp_finishUpdate_reached hcreator hp' hn h' hstash' hC ?_
    rw [wpThen_some, wp_pure]
    exact hQ p' hp'.faults
  have hcommands : ∀ (d : Disk) (p : CommandParameters), Idle p → p.nti = ⟨call.newData, true⟩ →
      Reached env S F instrs settled j d → d.stash.isSome = true → d.SavedBefore j →
      wp (.plain (Disk.apply env)) C (do
        let saved ← savedIndex env
        let rc ← performLines env 0 call.lines saved
        finishUpdate env rc
        return rc) Q p d := by
    intro d p hp hnti h hstash hbefore
    rw [wp_bind]
    refine wp_savedIndex (fun p' k hp' hk => ?_) fun _ =>
      ⟨hC _ ⟨_, _, h.unlinkLast⟩, fun p' hp' => ?_, fun hfaults => ?_⟩
    · rw [hp'.eq hp.faults]
      refine hloop d k p hp hnti h hstash (Disk.savedIndex_le hk) (fun k' hk' => ?_) fun i hi => ?_
      · exact Option.some.inj (hk'.symm.trans hk)
      · have hlt := hbefore k hk i hi
        exact ((h.saved k hk i hi).resolve_right fun heq => absurd heq.1 hlt.ne)
    · rw [hp'.eq hp.faults]
      exact hloop _ (-1) p hp hnti h.unlinkLast hstash (by decide) (fun _ hk => by cases hk)
        fun k hk => by omega
    · exact absurd hp.faults hfaults
  refine wp_performCommands (fun hnone => hC _ ⟨_, _, h.mkdirStash hnone⟩)
    (fun hempty => absurd (hempty hf) hreads.blockdev) fun p' d' createdstash hp' hd' => ?_
  rw [hp'.eq hf]
  rcases hd' with ⟨-, hnone, rfl⟩ | ⟨-, hsome, rfl⟩
  · exact hcommands _ _ ⟨hf, hidle.canwrite, rfl, rfl⟩ rfl (h.mkdirStash hnone) rfl hbefore
  · exact hcommands _ _ ⟨hf, hidle.canwrite, rfl, rfl⟩ rfl h (Option.isSome_iff_ne_none.mpr hsome)
      hbefore

/-- A verification of storage that updates have reached: it succeeds, and nothing changes but that
the saved index may be gone. -/
theorem wp_verify_reached {call : Call} {Q : Option (Bool × CommandParameters) → Disk → Prop}
    (hreads : call.Reads instrs) (hdryrun : call.dryrun = true) (hf : p.faults = [])
    (hmap : p.stashMap = []) (honce : d.part = S ∨ UsedOnce instrs)
    (h : Reached env S F instrs settled j d) (hC : ∀ d', Recoverable env S F instrs d' → C d')
    (hQ : ∀ p' d' settled' j', p'.faults = [] → d' = d ∨ d' = { d with lastCommand := none } →
      j ≤ j' → Reached env S F instrs settled' j' d' → d'.SavedBefore j' → Q (some (true, p')) d') :
    wp (.plain (Disk.apply env)) C (performBlockImageUpdate env call) Q p d := by
  refine wp_performBlockImageUpdate_reads hreads hf fun n => ?_
  have hw : (p.forCall call).canwrite = false := by rw [CommandParameters.forCall, hdryrun]; rfl
  -- from the storage with its stash directory on
  have hcommands : ∀ (d₁ : Disk) (created : Bool) (p : CommandParameters), Looking created p →
      p.stashMap = [] → Reached env S F instrs settled j d₁ →
      (created = true → d₁.stash = some []) → d₁.part = S ∨ UsedOnce instrs →
      (if created then { d₁ with stash := none } else d₁) = d →
      wp (.plain (Disk.apply env)) C (do
        let saved ← savedIndex env
        let rc ← performLines env 0 call.lines saved
        finishUpdate env rc
        return rc) Q p d₁ := by
    intro d₁ created p hp hmap h hdir honce hd
    -- the loop and the end, with the saved index that was read
    have hloop : ∀ (d₂ : Disk) (saved : Int), d₂ = d₁ ∨ d₂ = { d₁ with lastCommand := none } →
        (∀ k, d₂.savedIndex = some k → saved = k) →
        wp (.plain (Disk.apply env)) C (do
          let rc ← performLines env 0 call.lines saved
          finishUpdate env rc
          return rc) Q p d₂ := by
      intro d₂ saved hd₂ hsaved
      have h₂ : Reached env S F instrs settled j d₂ ∧ d₂.stash = d₁.stash ∧ d₂.part = d₁.part := by
        rcases hd₂ with rfl | rfl
        · exact ⟨h, rfl, rfl⟩
        · exact ⟨h.unlinkLast, rfl, rfl⟩
      rw [wp_bind]
      refine wp_performLines_verify hinj hcreator hreads.lines hp h₂.1 (.start hcreator hmap)
        (fun hcreated => h₂.2.1.trans (hdir hcreated)) (by rwa [h₂.2.2]) hsaved
          (fun hlt => absurd hlt (Nat.not_lt_zero j))
        hC fun p' d' n hn hp' hd' h' hchecked => ?_
      have hstash : d'.stash = d₁.stash := by
        rw [← h₂.2.1]
        rcases hd' with rfl | rfl <;> rfl
      have hd'₁ : d' = d₁ ∨ d' = { d₁ with lastCommand := none } := by
        rcases hd' with rfl | rfl
        · exact hd₂
        · rcases hd₂ with rfl | rfl
          · exact .inr rfl
          · exact .inr rfl
      obtain ⟨settled', j', hj', hreached, hbefore⟩ := h'.verified hcreator hchecked hn
      have hremoved :
          created = true → Reached env S F instrs settled' j' { d' with stash := none } := by
        intro hcreated
        refine hreached.of_eq rfl (fun id => ?_) fun _ hk => hk
        rw [Disk.stashFile, Disk.stashFile, hstash, hdir hcreated]
        rfl
      rw [wpThen_some, wp_bind]
      refine wp_finishUpdate_verify hp'
        (fun hcreated => hstash.trans (hdir hcreated)) (hC d' ⟨_, _, hreached⟩)
        (fun hcreated => hC _ ⟨_, _, hremoved hcreated⟩) ?_
      rw [wpThen_some, wp_pure]
      subst hd
      cases created with
      | false => exact hQ p' d' settled' j' hp'.faults hd'₁ hj' hreached hbefore
      | true =>
        refine hQ p' { d' with stash := none } settled' j' hp'.faults ?_ hj' (hremoved rfl) hbefore
        rcases hd'₁ with rfl | rfl
        · exact .inl rfl
        · exact .inr rfl
    rw [wp_bind]
    refine wp_savedIndex (fun p' k hp' hk => ?_) fun _ =>
      ⟨hC _ ⟨_, _, h.unlinkLast⟩, fun p' hp' => ?_, fun hfaults => ?_⟩
    · rw [hp'.eq hp.faults]
      exact hloop d₁ k (.inl rfl) fun k' hk' => Option.some.inj (hk.symm.trans hk')
    · rw [hp'.eq hp.faults]
      exact hloop _ (-1) (.inr rfl) fun _ hk => by cases hk
    · exact absurd hp.faults hfaults
  refine wp_performCommands (fun hnone => hC _ ⟨_, _, h.mkdirStash hnone⟩)
    (fun hempty => absurd (hempty hf) hreads.blockdev) fun p' d' createdstash hp' hd' => ?_
  rw [hp'.eq hf]
  rcases hd' with ⟨rfl, hnone, rfl⟩ | ⟨rfl, hsome, rfl⟩
  · rw [Monitor.plain_view] at hnone
    refine hcommands _ true _ ⟨hf, hw, rfl, rfl, rfl⟩ hmap (h.mkdirStash hnone)
      (fun _ => ?_) honce ?_
    · simp [Disk.apply, hnone]
    · rw [if_pos rfl]
      simp only [Monitor.plain_step, Disk.apply]
      rw [← hnone]
  · exact hcommands _ false _ ⟨hf, hw, rfl, rfl, rfl⟩ hmap h (by rintro ⟨⟩) honce
      (if_neg Bool.false_ne_true)

end

/-! ## Attempts -/

/-- What the script of a package does: the list is verified, and then executed. -/
def attempt (env : Env) (call : Call) (retry : Bool) : M env Bool := do
  if ← performBlockImageUpdate env { call with dryrun := true, retry } then
    performBlockImageUpdate env { call with dryrun := false, retry }
  else return false

/-- Storage after any number of attempts, each of them cut off after some of its steps. Every
attempt is made by a new process. -/
inductive Interrupted (env : Env) (S : Image) (call : Call) : Disk → Prop
  | start : Interrupted env S call ⟨S, none, none⟩
  | attempt {d : Disk} (retry : Bool) (k : Nat) : Interrupted env S call d →
    Interrupted env S call
    ((((attempt env call retry).steps .start d).take k).foldl (Disk.apply env) d)

/-- The attempt ends with success, and leaves this storage. -/
def Completes (env : Env) (call : Call) (retry : Bool) (d d' : Disk) : Prop :=
  (∃ p, (attempt env call retry).result .start d = some (true, p)) ∧
    ((attempt env call retry).steps .start d).foldl (Disk.apply env) d = d'

section
variable (hinj : Function.Injective env.sha1) (hcreator : Creator env S F instrs)
include hinj hcreator

theorem wp_attempt_reached (retry : Bool) {call : Call}
    {Q : Option (Bool × CommandParameters) → Disk → Prop}
    (hreads : call.Reads instrs) (hstream : streamBytes F instrs <+: call.newData.flatten)
    (honce : d.part = S ∨ UsedOnce instrs) (h : Reached env S F instrs settled j d)
    (hagain : d.lastCommand = none ∧ 0 = j ∨ Resumable instrs)
    (hC : ∀ d', Recoverable env S F instrs d' → C d')
    (hQ : ∀ p', Q (some (true, p')) ⟨F, none, none⟩) :
    wp (.plain (Disk.apply env)) C (attempt env call retry) Q .start d := by
  have hreads' : ∀ dryrun, Call.Reads { call with dryrun, retry } instrs := fun _ =>
    ⟨hreads.header, hreads.lines, hreads.blockdev⟩
  rw [attempt, wp_bind]
  refine wp_verify_reached hinj hcreator (hreads' true) rfl rfl rfl honce h hC
    fun p' d' settled' j' hf hd' _ hreached hbefore => ?_
  rw [wpThen_some, if_pos rfl]
  rcases hagain with ⟨hlast, rfl⟩ | hresumable
  · -- nothing was changed
    have hsame : d' = d := by
      rcases hd' with rfl | rfl
      · rfl
      · rw [← hlast]
    subst hsame
    refine wp_update_reached hinj hcreator (hreads' false) rfl hf (.inl rfl) hstream h
      (fun k hk => ?_) hC fun p' _ => hQ p'
    rw [Disk.savedIndex, hlast] at hk
    cases hk
  · exact wp_update_reached hinj hcreator (hreads' false) rfl hf
      ((Nat.eq_zero_or_pos j').imp Eq.symm fun hpos => ⟨hpos, hresumable⟩) hstream hreached hbefore
        hC fun p' _ => hQ p'

omit hinj hcreator in
theorem Resumable.streamBytes (h : Resumable instrs) : streamBytes F instrs = [] := by
  refine List.flatMap_eq_nil_iff.mpr fun c hc => ?_
  cases c with
  | new tgt => exact absurd hc (h.noNew tgt)
  | _ => rfl

theorem Interrupted.recoverable {call : Call} (hreads : call.Reads instrs)
    (hresumable : Resumable instrs) (h : Interrupted env S call d) :
    Recoverable env S F instrs d := by
  induction h with
  | start => exact ⟨fun _ => True, 0, .start hcreator _⟩
  | @attempt d retry k _ ih =>
    obtain ⟨settled, j, hreached⟩ := ih
    have hwp := wp_attempt_reached hinj hcreator retry (C := Recoverable env S F instrs)
      (Q := fun _ _ => True) hreads (by rw [hresumable.streamBytes]; exact List.nil_prefix)
        (.inr hresumable.toUsedOnce) hreached
      (.inr hresumable) (fun _ h => h) fun _ => trivial
    exact hwp.1.take ⟨settled, j, hreached⟩ k

end

/-! ## Two blocks that are swapped -/

/-- The first block goes to a stash, and the second one takes its place. -/
def swapCall : Call where
  dryrun := false
  retry := false
  blockdev := "system".toList
  transferList :=
    "4\n2\n0\n1\nstash ab 2,0,1\nmove aab 2,0,1 1 2,1,2\nmove ab 2,1,2 1 - ab:2,0,1\nfree ab".toList
  newData := []

def swapInstrs : List Instr :=
  let first : RangeSet := ⟨[(0, 1)], by decide⟩
  let second : RangeSet := ⟨[(1, 2)], by decide⟩
  [.stash "ab".toList first,
    .transfer none ⟨"aab".toList, "aab".toList, first, ⟨1, some second, none, []⟩⟩,
    .transfer none ⟨"ab".toList, "ab".toList, second, ⟨1, none, none, [("ab".toList, first)]⟩⟩,
    .free "ab".toList]

theorem reads_swap : swapCall.Reads swapInstrs where
  header := ⟨['4'], ['2'], ['0'], ['1'], 4, 1, 1, by decide +kernel⟩
  lines := by decide +kernel
  blockdev := by decide

/-- The images with the two blocks in the one and in the other order. -/
def swapImage (a b : Block) : Image := fun i => [a, b].getD i 0

theorem creator_swap : Creator .small (swapImage 1 2) (swapImage 2 1) swapInstrs where
  within := by decide
  once := by decide
  apart := by decide
  readFirst := by decide
  stashed i c hi id hid := by
    -- only the second move loads a stash
    rcases i with _ | _ | _ | _ | i
    · cases hi
      cases hid
    · cases hi
      cases hid
    · cases hi
      cases List.mem_singleton.mp hid
      refine ⟨0, by decide, _, rfl, fun k hk hk2 => ?_⟩
      rw [show k = 1 by omega]
      simp [swapInstrs]
    · cases hi
      cases hid
    · cases hi
  meets c hc := by
    simp only [swapInstrs, List.mem_cons, List.not_mem_nil, or_false] at hc
    rcases hc with rfl | rfl | rfl | rfl
    · simp only [Instr.Meets]
      decide +kernel
    · refine ⟨by decide +kernel, [2], ⟨rfl, by decide, by decide, by rintro _ ⟨⟩, ?_,
        by rintro _ ⟨⟩⟩, by decide +kernel, by decide +kernel⟩
      rintro _ ⟨⟩
      decide +kernel
    · refine ⟨by decide +kernel, [1], ⟨rfl, by decide, by decide, by rintro _ ⟨⟩,
        by rintro _ ⟨⟩, fun x hx => ?_⟩, by decide +kernel, by decide +kernel⟩
      cases List.mem_singleton.mp hx
      exact ⟨[1], by decide +kernel, by decide +kernel⟩
    · simp only [Instr.Meets]
      decide
  changed b hb := by
    have hmem : b ∈ swapInstrs.flatMap Instr.target := by
      rcases b with _ | _ | b
      · decide
      · decide
      · simp [swapImage] at hb
    obtain ⟨c, hc, hbc⟩ := List.mem_flatMap.mp hmem
    exact ⟨c, hc, hbc⟩

theorem resumable_swap : Resumable swapInstrs where
  stash := by simp [swapInstrs]
  free := by simp [swapInstrs]
  implicit := by simp [swapInstrs]
  noNew := by simp [swapInstrs]

/-- Storage after the first move. -/
def swapHalfway : Disk :=
  (((attempt .small swapCall false).steps .start ⟨swapImage 1 2, none, none⟩).take 18).foldl
  (Disk.apply .small)
    ⟨swapImage 1 2, none, none⟩

theorem interrupted_swapHalfway : Interrupted .small (swapImage 1 2) swapCall swapHalfway :=
  .attempt false 18 .start

/-! ## The target image -/

section
variable (hinj : Function.Injective env.sha1) (hcreator : Creator env S F instrs)
include hinj hcreator

/-- An update that is not interrupted gives the target image. The verification before it changes
nothing, and stashes may be made again under the same name. -/
theorem attempt_completes {call : Call} (retry : Bool) (hreads : call.Reads instrs)
    (hstream : streamBytes F instrs <+: call.newData.flatten) :
    Completes env call retry ⟨S, none, none⟩ ⟨F, none, none⟩ := by
  have hwp := wp_attempt_reached hinj hcreator retry (C := fun _ => True)
    (Q := fun r d' => (∃ p, r = some (true, p)) ∧ d' = ⟨F, none, none⟩) hreads hstream (.inl rfl)
    (.start hcreator fun _ => True) (.inl ⟨rfl, rfl⟩) (fun _ _ => trivial) fun p' =>
      ⟨⟨p', rfl⟩, rfl⟩
  exact hwp.2

omit hinj hcreator in
theorem attempt_completes_swap :
    Completes .small swapCall true ⟨swapImage 1 2, none, none⟩ ⟨swapImage 2 1, none, none⟩ :=
  attempt_completes unaryHash_injective creator_swap true reads_swap List.nil_prefix

/-- Whatever attempts were interrupted before, the update gives the target image: if each stash is
used once and no new data is taken from the stream. -/
theorem interrupted_attempt_completes {call : Call} (retry : Bool) (hreads : call.Reads instrs)
    (hresumable : Resumable instrs) (h : Interrupted env S call d) :
    Completes env call retry d ⟨F, none, none⟩ := by
  obtain ⟨settled, j, hreached⟩ := h.recoverable hinj hcreator hreads hresumable
  have hwp := wp_attempt_reached hinj hcreator retry (C := fun _ => True)
    (Q := fun r d' => (∃ p, r = some (true, p)) ∧ d' = ⟨F, none, none⟩) hreads
    (by rw [hresumable.streamBytes]; exact List.nil_prefix) (.inr hresumable.toUsedOnce) hreached
      (.inr hresumable)
    (fun _ _ => trivial) fun p' => ⟨⟨p', rfl⟩, rfl⟩
  exact hwp.2

omit hinj hcreator in
/-- Both blocks have the same content when the update is interrupted. -/
theorem interrupted_attempt_completes_swap : swapHalfway.part 0 = 2 ∧ swapHalfway.part 1 = 2 ∧
    Completes .small swapCall true swapHalfway ⟨swapImage 2 1, none, none⟩ :=
  ⟨by decide +kernel, by decide +kernel,
    interrupted_attempt_completes unaryHash_injective creator_swap true reads_swap resumable_swap
    interrupted_swapHalfway⟩

end

end BootableRecovery.BlockImg
