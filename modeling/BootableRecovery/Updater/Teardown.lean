import BootableRecovery.Updater.Loop

/-!
# The end of the new-data thread

`PerformBlockImageUpdate` starts the thread of `unzip_new_data` before it reads the header of the
transfer list, and tells it to stop and joins it at `pbiudone`. The thread works with
`NewThreadInfo`, which is on the stack of the function. `performUpdate` is `performBlockImageUpdate`
with what becomes of the thread.
-/

namespace BootableRecovery.BlockImg

/-- The thread of a call: there is none, it runs, or it was told to stop and was joined. -/
inductive NewDataThread
  | none
  | running
  | joined
  deriving DecidableEq

/-! ## The arguments -/

/-- The types of edify values. -/
inductive ValueType
  | invalid
  | string
  | blob
  deriving DecidableEq

/-- A value of the updater script. -/
structure Value where
  type : ValueType
  data : Text

/-- `UpdaterInfo`: whether there is a command pipe, and the entries of the package, if it is there,
with the pieces in which they are unzipped. -/
structure UpdaterInfo where
  cmdPipe : Bool
  packageZip : Option (Text → Option (List (List UInt8)))

/-- What `PerformBlockImageUpdate` does with its arguments, which are null where the evaluation
fails: an early result (null or the empty string), or the call that they make. -/
def readArguments (dryrun retry : Bool) (ui : Option UpdaterInfo) (argv : List (Option Value)) :
    Except (Option Bool) Call :=
  match argv with
  | [blockdev, list, newData, patchData] =>
    match blockdev, list, newData, patchData with
    | some blockdev, some list, some newData, some patchData =>
      if blockdev.type = .string ∧ list.type = .blob ∧ newData.type = .string ∧
        patchData.type = .string then
        match ui with
        | some ⟨true, some entries⟩ =>
          match entries patchData.data, entries newData.data with
          | some _, some stream => .ok ⟨dryrun, retry, blockdev.data, list.data, stream⟩
          | _, _ => .error (some false)
        | _ => .error (some false)
      else .error (some false)
    | _, _, _, _ => .error none
  | _ => .error (some false)

variable (env : Env)

/-! ## The thread -/

/-- `performCommands` with the thread. -/
def performCommandsIn (thread : NewDataThread) (blockdev : Text) (stashMaxBlocks : Nat)
    (lines : List Text) : M env (NewDataThread × Bool) := do
  match ← createStash env stashMaxBlocks blockdev with
  | none => return (thread, false)
  | some createdstash =>
    Prog.modify fun p => { p with createdstash }
    let saved ← savedIndex env
    let rc ← performLines env 0 lines saved
    -- pbiudone: the receiver is told to stop, and is joined
    let canwrite := (← Prog.get).canwrite
    finishUpdate env rc
    return (if canwrite then .joined else thread, rc)

/-- `performBlockImageUpdate` from the header of the transfer list on, with the thread. -/
def readTransferList (thread : NewDataThread) (call : Call) : M env (NewDataThread × Bool) := do
  match call.transferList.splitOn '\n' with
  | version :: total :: rest =>
    if (parseInt version).all fun v => v < 3 ∨ 4 < v then return (thread, false)
    else match parseUint total with
      | none => return (thread, false)
      | some 0 => return (thread, true)
      | some _ => match rest with
        | _ :: stashMax :: lines => match parseUint stashMax with
          | none => return (thread, false)
          | some stashMaxBlocks => performCommandsIn env thread call.blockdev stashMaxBlocks lines
        | _ => return (thread, false)
  | _ => return (thread, false)

/-- `performBlockImageUpdate` with the thread. -/
def performUpdate (call : Call) : M env (NewDataThread × Bool) := do
  Prog.modify fun p => { p with
    tokens := [], cmdindex := 0, cmdline := [], freestash := [], canwrite := !call.dryrun
    createdstash := false, isunresumable := false, nti := ⟨call.newData, true⟩, buffer := []
    targetVerified := false, isRetry := p.isRetry || call.retry }
  -- open of the device
  if ← syscall env then
    if call.dryrun then readTransferList env .none call
    -- `pthread_create`
    else if ← syscall env then readTransferList env .running call
    else return (.none, false)
  else return (.none, false)

/-- `PerformBlockImageUpdate` from its arguments on: what has become of the thread when it returns,
and the result, which is null, the empty string or "t". -/
def performCall (dryrun retry : Bool) (ui : Option UpdaterInfo) (argv : List (Option Value)) :
    M env (NewDataThread × Option Bool) := do
  Prog.modify fun p => { p with isRetry := p.isRetry || retry }
  match readArguments dryrun retry ui argv with
  | .error r => return (.none, r)
  | .ok call =>
    let (thread, rc) ← performUpdate env call
    return (thread, some rc)

/-! ## It is the same call -/

variable {env}

theorem snd_performCommandsIn (thread : NewDataThread) (blockdev : Text) (n : Nat)
    (lines : List Text) :
    Prod.snd <$> performCommandsIn env thread blockdev n lines =
    performCommands env blockdev n lines := by
  simp only [performCommandsIn, performCommands, map_bind]
  congr 1
  funext created
  cases created with
  | none => rfl
  | some created =>
    simp only [map_bind, map_pure]
    rfl

theorem snd_readTransferList (thread : NewDataThread) (call : Call) :
    Prod.snd <$> readTransferList env thread call =
    Prod.snd <$> readTransferList env .none call := by
  simp only [readTransferList]
  split
  · split
    · rfl
    · split
      · rfl
      · rfl
      · split
        · split
          · rfl
          · rw [snd_performCommandsIn, snd_performCommandsIn]
        · rfl
  · rfl

theorem performBlockImageUpdate_eq (call : Call) : performBlockImageUpdate env call = (do
    Prog.modify fun p => { p with
      tokens := [], cmdindex := 0, cmdline := [], freestash := [], canwrite := !call.dryrun
      createdstash := false, isunresumable := false, nti := ⟨call.newData, true⟩, buffer := []
      targetVerified := false, isRetry := p.isRetry || call.retry }
    if ← syscalls env (if call.dryrun then 1 else 2)
    then Prod.snd <$> readTransferList env .none call
    else return false) := by
  unfold performBlockImageUpdate
  congr 1
  funext _
  congr 1
  funext ok
  cases ok with
  | false => rfl
  | true =>
    simp only [if_true, readTransferList]
    rcases call.transferList.splitOn '\n' with _ | ⟨version, _ | ⟨total, rest⟩⟩
    · rfl
    · rfl
    simp only
    split
    · rfl
    rcases parseUint total with _ | _ | n
    · rfl
    · rfl
    rcases rest with _ | ⟨entries, _ | ⟨stashMax, lines⟩⟩
    · rfl
    · rfl
    simp only
    rcases parseUint stashMax with _ | n
    · rfl
    · exact (snd_performCommandsIn .none _ _ _).symm

/-- The thread makes no difference to what a call does. -/
theorem snd_performUpdate (call : Call) :
    Prod.snd <$> performUpdate env call = performBlockImageUpdate env call := by
  rw [performBlockImageUpdate_eq]
  simp only [performUpdate, map_bind]
  congr 1
  funext _
  cases call.dryrun with
  | true =>
    simp only [if_true, syscalls, bind_assoc]
    congr 1
    funext ok
    cases ok with
    | true => rfl
    | false => rfl
  | false =>
    simp only [Bool.false_eq_true, if_false, syscalls, bind_assoc]
    congr 1
    funext ok
    cases ok with
    | true =>
      simp only [if_true, map_bind, bind_assoc]
      congr 1
      funext created
      cases created with
      | true => exact snd_readTransferList .running call
      | false => rfl
    | false => rfl

/-! ## When the thread is joined -/

/-- The next `n` system calls succeed. -/
def Succeed (n : Nat) (faults : List Bool) : Prop := ∀ fails ∈ faults.take n, fails = false

/-- The number of blocks in the header of a transfer list, and the lines after it. -/
def readHeader (list : Text) : Option (Nat × List Text) :=
  match list.splitOn '\n' with
  | version :: total :: _ :: stashMax :: lines =>
    if (parseInt version).all (fun v => v < 3 ∨ 4 < v) ∨ (parseUint total).getD 0 = 0 then none
    else (parseUint stashMax).map fun n => (n, lines)
  | _ => none

/-- The stash directory can be made, or it is there and there is space for what it lacks. -/
def StashUsable (d : Disk) (faults : List Bool) (stashMaxBlocks : Nat) (blockdev : Text) : Prop :=
  blockdev ≠ [] ∧ match d.stash with
    | none => Succeed 4 faults
    | some files =>
      Succeed (if wrapBlocks stashMaxBlocks * BLOCKSIZE > (files.map (·.2.size)).sum then 2
        else 1) faults

theorem readTransferList_eq (thread : NewDataThread) (call : Call) :
    ∃ rc, readTransferList env thread call = match readHeader call.transferList with
    | none => return (thread, rc)
    | some (n, lines) => performCommandsIn env thread call.blockdev n lines := by
  unfold readTransferList readHeader
  rcases call.transferList.splitOn '\n' with _ | ⟨version, _ | ⟨total, rest⟩⟩
  · exact ⟨false, rfl⟩
  · exact ⟨false, rfl⟩
  simp only
  split
  · rename_i hversion
    rcases rest with _ | ⟨entries, _ | ⟨stashMax, lines⟩⟩
    · exact ⟨false, rfl⟩
    · exact ⟨false, rfl⟩
    · simp only [if_pos (Or.inl hversion)]
      exact ⟨false, rfl⟩
  rename_i hversion
  rcases rest with _ | ⟨entries, _ | ⟨stashMax, lines⟩⟩
  · rcases parseUint total with _ | _ | blocks
    · exact ⟨false, rfl⟩
    · exact ⟨true, rfl⟩
    · exact ⟨false, rfl⟩
  · rcases parseUint total with _ | _ | blocks
    · exact ⟨false, rfl⟩
    · exact ⟨true, rfl⟩
    · exact ⟨false, rfl⟩
  · simp only [eq_false hversion, false_or]
    rcases parseUint total with _ | _ | blocks
    · exact ⟨false, rfl⟩
    · exact ⟨true, rfl⟩
    · rcases parseUint stashMax with _ | n
      · exact ⟨false, rfl⟩
      · exact ⟨false, rfl⟩

theorem succeed_succ {n : Nat} {faults : List Bool} :
    Succeed (n + 1) faults ↔ faults.headD false = false ∧ Succeed n faults.tail := by
  cases faults <;> simp [Succeed]

section
variable {τ : Type} {Mo : Monitor (Disk.apply env) τ} {C : τ → Prop} {p : CommandParameters} {t : τ}

theorem wp_syscalls_exact {n : Nat} {Q : Option (Bool × CommandParameters) → τ → Prop}
    (hok : Succeed n p.faults → ∀ faults, Q (some (true, { p with faults })) t)
    (hfail : ¬Succeed n p.faults → ∀ faults, Q (some (false, { p with faults })) t) :
    wp Mo C (syscalls env n) Q p t := by
  induction n generalizing p with
  | zero =>
    rw [syscalls, wp_pure]
    exact hok (by simp [Succeed]) p.faults
  | succ n ih =>
    rw [succeed_succ] at hok hfail
    rw [syscalls, wp_bind]
    refine wp_syscall_exact (fun hhead => ?_) fun hhead => ?_
    · rw [wpThen_some, if_pos rfl]
      exact ih (fun h => hok ⟨hhead, h⟩) fun h => hfail fun h' => h h'.2
    · rw [wpThen_some, if_neg (by simp), wp_pure]
      exact hfail (fun h => Bool.false_ne_true (h.1.symm.trans hhead)) _

theorem wp_createStash_exact {n : Nat} {blockdev : Text}
    {Q : Option (Option Bool × CommandParameters) → τ → Prop}
    (hok : StashUsable (Mo.view t) p.faults n blockdev →
      ∀ created faults t', Q (some (some created, { p with faults })) t')
    (hfail : ¬StashUsable (Mo.view t) p.faults n blockdev →
      ∀ faults t', Q (some (none, { p with faults })) t') :
    wp Mo (fun _ => True) (createStash env n blockdev) Q p t := by
  unfold createStash
  split
  · rename_i hempty
    rw [wp_pure]
    exact hfail (fun h => h.1 (List.isEmpty_iff.mp hempty)) p.faults t
  · rename_i hempty
    have hne : blockdev ≠ [] := fun hnil => hempty (List.isEmpty_iff.mpr hnil)
    simp only [StashUsable, hne, not_false_eq_true, ne_eq, true_and] at hok hfail
    rw [wp_bind, wp_disk, wpThen_some, wp_bind]
    rcases hstash : (Mo.view t).stash with _ | files <;> rw [hstash] at hok hfail
    · -- stat and mkdir, and then chown and `CacheSizeCheck`
      simp only [succeed_succ (n := 3), succeed_succ (n := 2)] at hok hfail
      refine wp_syscall_exact (fun hstat => ?_) fun hstat => ?_
      · rw [wpThen_some, if_pos rfl, wp_bind]
        refine wp_syscall_exact (fun hmkdir => ?_) fun hmkdir => ?_
        · rw [wpThen_some, if_pos rfl, wp_bind, wp_emit_step, wpThen_some, wp_bind]
          refine ⟨trivial, wp_syscalls_exact (fun hrest faults => ?_) fun hrest faults => ?_⟩
          · rw [wpThen_some, if_pos rfl, wp_pure]
            exact hok ⟨hstat, hmkdir, hrest⟩ true faults _
          · rw [wpThen_some, if_neg (by simp), wp_pure]
            exact hfail (fun h => hrest h.2.2) faults _
        · rw [wpThen_some, if_neg (by simp), wp_pure]
          exact hfail (fun h => Bool.false_ne_true (h.2.1.symm.trans hmkdir)) _ _
      · rw [wpThen_some, if_neg (by simp), wp_pure]
        exact hfail (fun h => Bool.false_ne_true (h.1.symm.trans hstat)) _ _
    · refine wp_syscall_exact (fun hstat => ?_) fun hstat => ?_
      · rw [wpThen_some, if_pos rfl]
        simp only
        split
        · rename_i hspace
          simp only [if_pos hspace, succeed_succ (n := 1), succeed_succ (n := 0)] at hok hfail
          rw [wp_bind]
          refine wp_syscall_exact (fun hcheck => ?_) fun hcheck => ?_
          · rw [wpThen_some, if_pos rfl, wp_pure]
            exact hok ⟨hstat, hcheck, by simp [Succeed]⟩ false _ _
          · rw [wpThen_some, if_neg (by simp), wp_pure]
            exact hfail (fun h => Bool.false_ne_true (h.2.1.symm.trans hcheck)) _ _
        · rename_i hspace
          simp only [if_neg hspace, succeed_succ (n := 0)] at hok hfail
          rw [wp_pure]
          exact hok ⟨hstat, by simp [Succeed]⟩ false _ _
      · have hno : ∀ n, ¬Succeed (n + 1) p.faults := by
          intro n h
          rw [succeed_succ, hstat] at h
          cases h.1
        rw [wpThen_some, if_neg (by simp), wp_pure]
        refine hfail (fun h => ?_) _ _
        simp only at h
        split at h
        · exact hno 1 h
        · exact hno 0 h

end

/-! ## The mode of a call stays -/

theorem confined_mode {x : M env α} {P : Step → Prop}
    (h : x.Confined P CommandParameters.settings) :
    x.Confined (fun _ => True) CommandParameters.canwrite :=
  (h.mono fun _ _ => trivial).comp fun s => s.2.2.1

theorem confined_mode_frame {x : M env α} {P : Step → Prop}
    (h : x.Confined P CommandParameters.frame) :
    x.Confined (fun _ => True) CommandParameters.canwrite :=
  confined_mode (h.comp Prod.fst)

theorem confined_performLine {i : Nat} {line : Text} {saved : Int} :
    (performLine env i line saved).Confined (fun _ => True) CommandParameters.canwrite := by
  unfold performLine
  split
  · split
    · exact .pure
    · refine .bind .get fun p => ?_
      split
      · exact .pure
      · rename_i f hf
        split
        · exact .bind (.emit trivial) fun _ => .pure
        · refine .bind (.modify fun _ => rfl) fun _ => .bind .get fun p =>
            .bind (.emit trivial) fun _ => ?_
          refine .bind (confined_mode (confined_perform hf)) fun ok => ?_
          split
          · refine .bind ?_ fun saved => .bind ?_ fun ok => ?_
            · refine .bind .get fun p => ?_
              split
              · exact .bind (confined_mode_frame confined_deleteLastCommandFile) fun _ => .pure
              · exact .pure
            · refine .bind .get fun p => ?_
              split
              · refine .bind (.emit trivial) fun _ =>
                  .bind (confined_mode_frame (confined_syscall (P := fun _ => True))) fun ok => ?_
                split
                · exact .bind (.emit trivial) fun _ => .pure
                · exact .pure
              · exact .pure
            · split
              · exact .pure
              · exact .pure
          · exact .pure
  · exact .pure

theorem confined_performLines {i : Nat} {lines : List Text} {saved : Int} :
    (performLines env i lines saved).Confined (fun _ => True) CommandParameters.canwrite := by
  induction lines generalizing i saved with
  | nil => exact .pure
  | cons line lines ih =>
    unfold performLines
    split
    · exact ih
    · refine .bind confined_performLine fun next => ?_
      split
      · exact ih
      · exact .pure

theorem confined_savedIndex :
    (savedIndex env).Confined (fun _ => True) CommandParameters.canwrite := by
  refine .bind (.bind .store fun d => ?_) fun index => ?_
  · split
    · refine .bind (confined_mode_frame (confined_syscalls (P := fun _ => True))) fun ok => ?_
      split
      · exact .pure
      · exact .pure
    · exact .pure
  · split
    · exact .pure
    · exact .bind (confined_mode_frame confined_deleteLastCommandFile) fun _ => .pure

section
variable {τ : Type} {Mo : Monitor (Disk.apply env) τ} {p : CommandParameters} {t : τ}

/-- A call that can use the stash directory goes through `pbiudone`, and no other call does. -/
theorem wp_performCommandsIn {thread : NewDataThread} {blockdev : Text} {n : Nat}
    {lines : List Text}
    {Q : Option ((NewDataThread × Bool) × CommandParameters) → τ → Prop}
    (hok : StashUsable (Mo.view t) p.faults n blockdev →
      ∀ r t', (∀ thread' rc p', r = some ((thread', rc), p') → thread' = if p.canwrite then .joined
        else thread) → Q r t')
    (hfail : ¬StashUsable (Mo.view t) p.faults n blockdev →
      ∀ p' t', Q (some ((thread, false), p')) t') :
      wp Mo (fun _ => True) (performCommandsIn env thread blockdev n lines) Q p t := by
  unfold performCommandsIn
  rw [wp_bind]
  refine wp_createStash_exact (fun husable created faults t' => ?_) fun husable faults t' => ?_
  · have hQ := hok husable
    rw [wpThen_some]
    simp only [wp_bind, wp_modify, wpThen_some]
    refine confined_savedIndex.wp (fun _ _ _ _ => trivial) trivial fun r t₁ _ hr => ?_
    rcases r with _ | ⟨saved, p₁⟩
    · exact hQ none t₁ (by simp)
    rw [wpThen_some, wp_bind]
    refine confined_performLines.wp (fun _ _ _ _ => trivial) trivial fun r t₂ _ hr' => ?_
    rcases r with _ | ⟨rc, p₂⟩
    · exact hQ none t₂ (by simp)
    have hmode : p₂.canwrite = p.canwrite := (hr' _ _ rfl).trans (hr _ _ rfl)
    rw [wpThen_some]
    simp only [wp_bind, wp_get, wpThen_some]
    refine confined_finishUpdate.wp (fun _ _ _ _ => trivial) trivial fun r t₃ _ _ => ?_
    rcases r with _ | ⟨_, p₃⟩
    · exact hQ none t₃ (by simp)
    rw [wpThen_some, wp_pure]
    refine hQ _ t₃ fun thread' rc' p' h => ?_
    cases h
    rw [hmode]
  · rw [wpThen_some, wp_pure]
    exact hfail husable _ t'

theorem wp_readTransferList {thread : NewDataThread} {call : Call}
    {Q : Option ((NewDataThread × Bool) × CommandParameters) → τ → Prop}
    (hok : ∀ n lines, readHeader call.transferList = some (n, lines) →
      StashUsable (Mo.view t) p.faults n call.blockdev →
      ∀ r t', (∀ thread' rc p', r = some ((thread', rc), p') → thread' = if p.canwrite then .joined
        else thread) → Q r t')
    (hfail : (∀ n lines, readHeader call.transferList = some (n, lines) →
        ¬StashUsable (Mo.view t) p.faults n call.blockdev) →
      ∀ rc p' t', Q (some ((thread, rc), p')) t') :
    wp Mo (fun _ => True) (readTransferList env thread call) Q p t := by
  obtain ⟨rc, hread⟩ := @readTransferList_eq env thread call
  rw [hread]
  rcases hheader : readHeader call.transferList with _ | ⟨n, lines⟩
  · simp only [wp_pure]
    refine hfail (fun n lines h => ?_) rc p t
    rw [hheader] at h
    cases h
  · refine wp_performCommandsIn (hok n lines hheader) fun hbad p' t' =>
      hfail (fun n' lines' h' => ?_) false p' t'
    rw [hheader] at h'
    cases h'
    exact hbad

/-- The thread is joined, or the call has returned before `pbiudone` with the thread still
running. -/
theorem wp_performUpdate {call : Call}
    {Q : Option ((NewDataThread × Bool) × CommandParameters) → τ → Prop}
    (hok : (call.dryrun = false → Succeed 2 p.faults → ∃ n lines, readHeader call.transferList =
      some (n, lines) ∧
        StashUsable (Mo.view t) (p.faults.drop 2) n call.blockdev) →
      ∀ r t', (∀ thread rc p', r = some ((thread, rc), p') → thread ≠ .running) → Q r t')
    (hfail : call.dryrun = false → Succeed 2 p.faults →
      (∀ n lines, readHeader call.transferList = some (n, lines) →
        ¬StashUsable (Mo.view t) (p.faults.drop 2) n call.blockdev) →
      ∀ rc p' t', Q (some ((.running, rc), p')) t') :
    wp Mo (fun _ => True) (performUpdate env call) Q p t := by
  have hnotStarted : ¬(call.dryrun = false ∧ Succeed 2 p.faults) → ∀ r t',
      (∀ thread rc p', r = some ((thread, rc), p') → thread ≠ .running) → Q r t' :=
    fun h => hok fun hd hs => absurd ⟨hd, hs⟩ h
  have hnone : ∀ (rc : Bool) (p' : CommandParameters) thread rc' p'',
      some ((NewDataThread.none, rc), p') = some ((thread, rc'), p'') → thread ≠ .running := by
    rintro rc p' thread rc' p'' ⟨⟩
    decide
  have htwo : Succeed 2 p.faults ↔
      p.faults.headD false = false ∧ p.faults.tail.headD false = false := by
    rw [succeed_succ, succeed_succ]
    simp [Succeed]
  have hdrop : p.faults.tail.tail = p.faults.drop 2 := by
    rw [← List.drop_one, ← List.drop_one, List.drop_drop]
  unfold performUpdate
  rw [wp_bind, wp_modify, wpThen_some, wp_bind]
  refine wp_syscall_exact (fun hopen => ?_) fun hopen => ?_
  · rw [wpThen_some, if_pos rfl]
    cases hdryrun : call.dryrun with
    | true =>
      have hend := hnotStarted (by simp [hdryrun])
      simp only [if_true]
      refine wp_readTransferList (fun n lines _ _ r t' hr => hend r t' fun thread rc p' h => ?_)
        fun _ rc p' t' => hend _ t' (hnone rc p')
      simp [hr thread rc p' h]
    | false =>
      simp only [Bool.false_eq_true, if_false, wp_bind]
      refine wp_syscall_exact (fun hcreate => ?_) fun hcreate => ?_
      · have hstarted : Succeed 2 p.faults := htwo.mpr ⟨hopen, hcreate⟩
        rw [wpThen_some, if_pos rfl]
        rw [← hdrop] at hok hfail
        refine wp_readTransferList (fun n lines hread husable r t' hr => ?_) fun hbad =>
          hfail hdryrun hstarted hbad
        refine hok (fun _ _ => ⟨n, lines, hread, husable⟩) r t' fun thread rc p' h => ?_
        simp [hr thread rc p' h]
      · rw [wpThen_some, if_neg (by simp), wp_pure]
        refine hnotStarted (fun h => ?_) _ t (hnone false _)
        exact absurd ((htwo.mp h.2).2.symm.trans hcreate) Bool.false_ne_true
  · rw [wpThen_some, if_neg (by simp), wp_pure]
    refine hnotStarted (fun h => ?_) _ t (hnone false _)
    exact absurd ((htwo.mp h.2).1.symm.trans hopen) Bool.false_ne_true

end

/-- The thread does not outlive the call exactly if it was not started, or the header of the
transfer list is well formed and the stash directory can be used. -/
theorem performCall_joined_iff (env : Env) (dryrun retry : Bool) (ui : Option UpdaterInfo)
    (argv : List (Option Value)) (p : CommandParameters) (d : Disk) :
    (∀ thread r p', (performCall env dryrun retry ui argv).result p d = some ((thread, r), p') →
        thread ≠ .running) ↔
      ∀ call, readArguments dryrun retry ui argv = .ok call → call.dryrun = false →
      Succeed 2 p.faults →
        ∃ n lines, readHeader call.transferList = some (n, lines) ∧
          StashUsable d (p.faults.drop 2) n call.blockdev := by
  -- the result together with the condition
  suffices hrun :
      wp (.plain (Disk.apply env)) (fun _ => True) (performCall env dryrun retry ui argv)
      (fun r _ =>
      (∀ thread r' p', r = some ((thread, r'), p') → thread ≠ .running) ↔
        ∀ call, readArguments dryrun retry ui argv = .ok call → call.dryrun = false →
        Succeed 2 p.faults →
          ∃ n lines, readHeader call.transferList = some (n, lines) ∧
            StashUsable d (p.faults.drop 2) n call.blockdev) p d from wp_result hrun
  unfold performCall
  rw [wp_bind, wp_modify, wpThen_some]
  rcases hread : readArguments dryrun retry ui argv with r | call
  · simp only [wp_pure]
    refine iff_of_true (fun thread r' p' h => ?_) fun call h => by cases h
    cases h
    decide
  · simp only [wp_bind]
    refine wp_performUpdate (fun hcond r t' hr => ?_) fun hdryrun hstarted hbad rc p' t' => ?_
    · rcases r with _ | ⟨⟨thread, rc⟩, p'⟩
      · rw [wpThen_none]
        refine iff_of_true (fun thread r' p' h => by cases h) fun call' h => ?_
        cases h
        exact hcond
      · rw [wpThen_some, wp_pure]
        refine iff_of_true (fun thread' r' p'' h => ?_) fun call' h => ?_
        · cases h
          exact hr thread rc p' rfl
        · cases h
          exact hcond
    · rw [wpThen_some, wp_pure]
      refine iff_of_false (fun h => h _ _ _ rfl rfl) fun h => ?_
      obtain ⟨n, lines, hheader, husable⟩ := h call rfl hdryrun hstarted
      exact hbad n lines hheader husable

/-- The arguments of an update with a transfer list of version 5. -/
def versionFive : List (Option Value) :=
  [some ⟨.string, ['d']⟩, some ⟨.blob, ['5', '\n', '1']⟩, some ⟨.string, ['n']⟩,
    some ⟨.string, ['p']⟩]

/-- An update with a transfer list of version 5 returns with the thread running. -/
theorem performCall_not_joined :
    ¬∀ thread r p',
    (performCall .small false false (some ⟨true, some fun _ => some []⟩) versionFive).result
      .start (.start []) = some ((thread, r), p') → thread ≠ .running := by
  intro h
  exact h _ _ _ rfl rfl

end BootableRecovery.BlockImg
