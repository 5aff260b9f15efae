import BootableRecovery.Updater.Rules
import BootableRecovery.Updater.Marks

/-!
# Rules for the main loop

`performLine` skips a command, or runs it between the marks `began` and `finished`. The rules here
leave the command itself open.
-/

namespace BootableRecovery.BlockImg

variable {env : Env} {τ : Type} {Mo : Monitor (Disk.apply env) τ} {C : τ → Prop}
    {p : CommandParameters}
variable {t : τ}

theorem wp_deleteLastCommandFile {Q : Option (Unit × CommandParameters) → τ → Prop}
    (hC : C (Mo.step t .unlinkLast))
    (hok : ∀ p', Faulted p p' → Q (some ((), p')) (Mo.step t .unlinkLast))
    (hfail : p.faults ≠ [] → ∀ p', Faulted p p' → Q (some ((), p')) t) :
    wp Mo C (deleteLastCommandFile env) Q p t := by
  simp only [deleteLastCommandFile, wp_bind]
  refine wp_syscall (fun p' hp => ?_) (fun h p' hp => ?_)
  · simpa using ⟨hC, hok p' hp⟩
  · simpa using hfail h p' hp

/-- The index that storage holds. -/
def Disk.savedIndex (d : Disk) : Option Int := d.lastCommand.bind parseLastCommand

theorem wp_savedIndex {Q : Option (Int × CommandParameters) → τ → Prop}
    (hread : ∀ p' k, Faulted p p' → (Mo.view t).savedIndex = some k → Q (some (k, p')) t)
    (hnone : (p.faults = [] → (Mo.view t).savedIndex = none) →
      C (Mo.step t .unlinkLast) ∧ (∀ p', Faulted p p' → Q (some (-1, p')) (Mo.step t .unlinkLast)) ∧
      (p.faults ≠ [] → ∀ p', Faulted p p' → Q (some (-1, p')) t)) :
    wp Mo C (savedIndex env) Q p t := by
  have hdelete : ∀ p', Faulted p p' → (p.faults = [] → (Mo.view t).savedIndex = none) →
      wp Mo C (do deleteLastCommandFile env; return -1) Q p' t := by
    intro p' hp h
    obtain ⟨hC, hok, hfail⟩ := hnone h
    rw [wp_bind]
    refine wp_deleteLastCommandFile hC (fun p'' hp' => ?_) (fun h' p'' hp' => ?_)
    · simpa using hok p'' (hp.trans hp')
    · simp only [wpThen_some, wp_pure]
      refine hfail (fun h₀ => h' ?_) p'' (hp.trans hp')
      rw [hp.eq h₀, h₀]
  simp only [savedIndex, parseLastCommandFile, wp_bind, wp_disk, wpThen_some]
  rcases hl : (Mo.view t).lastCommand with _ | content
  · simp only [wp_pure, wpThen_some]
    exact hdelete p (.refl p) fun _ => by simp [Disk.savedIndex, hl]
  · simp only [wp_bind]
    have hidx : (Mo.view t).savedIndex = parseLastCommand content := by simp [Disk.savedIndex, hl]
    refine wp_syscalls (fun p' hp => ?_) (fun h p' hp => ?_)
    · simp only [wpThen_some, if_true, wp_pure]
      rcases hk : parseLastCommand content with _ | k
      · exact hdelete p' hp fun _ => hidx.trans hk
      · simpa using hread p' k hp (hidx.trans hk)
    · simp only [wpThen_some, Bool.false_eq_true, if_false, wp_pure]
      exact hdelete p' hp fun h₀ => absurd h₀ h

theorem cmdIndex_eq {i : Nat} (h : cmdIndex i ≠ -1) : cmdIndex i = i := by
  unfold cmdIndex at h ⊢
  split <;> simp_all

theorem lt_of_cmdIndex_eq {i : Nat} (h : cmdIndex i = -1) : INT_MAX < i := by
  unfold cmdIndex at h
  split at h
  · assumption
  · omega

/-- The variables with which a line is executed. -/
def CommandParameters.forLine (p : CommandParameters) (i : Nat) (line : Text) : CommandParameters :=
  { p with
    tokens := (line.splitOn ' ').tail, cmdindex := cmdIndex i, cmdline := cstr line
    targetVerified := false }

/-- The lines of a call after the header. -/
def Call.lines (call : Call) : List Text := (call.transferList.splitOn '\n').drop 4

/-- The command of a line. -/
def commandOf (line : Text) : Option Command := (line.splitOn ' ').head?.bind Command.ofName

theorem commandOf_eq (line : Text) :
    commandOf line = Command.ofName (line.takeWhile (· ≠ ' ')) := by
  rw [commandOf, head_splitOn, Option.bind_some]

theorem commandOf_cstr (line : Text) : commandOf (cstr line) = commandOf line := by
  have hname : cstr ((cstr line).takeWhile (· ≠ ' ')) = cstr (line.takeWhile (· ≠ ' ')) := by
    simp only [cstr, List.takeWhile_takeWhile]
    congr 1
    funext c
    by_cases c = '\x00' <;> simp [*]
  rw [commandOf_eq, commandOf_eq, Command.ofName, hname, Command.ofName]

/-- What follows a command that has returned without an error. -/
def afterCommand (env : Env) (i : Nat) (command : Command) (saved : Int) : M env (Option Int) := do
  let saved ← checkLastCommand env command saved
  if ← syncCommand env i then return some saved else return none

theorem wp_performLine {i : Nat} {line : Text} {saved : Int}
    {Q : Option (Option Int × CommandParameters) → τ → Prop}
    (hunknown : commandOf line = none → Q (some (none, p)) t)
    (hnull : ∀ command, commandOf line = some command → command.perform env (!p.canwrite) = none →
      Q (some (some saved, p)) t)
    (hskip : p.canwrite = true → cmdIndex i ≠ -1 → cmdIndex i ≤ saved →
      (∃ command, commandOf line = some command) →
      C (Mo.step t (.skipped i)) ∧
        Q (some (some saved, p)) (Mo.step t (.skipped i)))
    (hrun : ∀ command f, commandOf line = some command →
      command.perform env (!p.canwrite) = some f →
      ¬(p.canwrite = true ∧ cmdIndex i ≠ -1 ∧ cmdIndex i ≤ saved) →
      C (Mo.step t (.began i (p.forLine i line))) ∧
        wp Mo C f (wpThen Mo C (fun ok => if ok then afterCommand env i command saved
          else return none) Q) (p.forLine i line) (Mo.step t (.began i (p.forLine i line)))) :
    wp Mo C (performLine env i line saved) Q p t := by
  unfold performLine
  rcases hsplit : line.splitOn ' ' with _ | ⟨name, tokens⟩
  · exact absurd hsplit (List.splitOn_ne_nil _ _)
  have hcommand : commandOf line = Command.ofName name := by simp [commandOf, hsplit]
  rw [hcommand] at hunknown hnull hskip hrun
  dsimp only
  rcases hname : Command.ofName name with _ | command
  · simpa using hunknown hname
  simp only [wp_bind, wp_get, wpThen_some]
  rcases hf : command.perform env (!p.canwrite) with _ | f
  · simpa using hnull command hname hf
  simp only
  split
  · rename_i h
    simp only [wp_bind, wp_emit_step, wpThen_some, wp_pure]
    exact hskip h.1 h.2.1 h.2.2 ⟨command, hname⟩
  · rename_i h
    have hp : { p with
        tokens := tokens, cmdindex := cmdIndex i, cmdline := cstr line, targetVerified := false } =
        p.forLine i line := by
      simp [CommandParameters.forLine, hsplit]
    obtain ⟨hC, hw⟩ := hrun command f hname hf h
    simp only [wp_bind, wp_modify, wpThen_some, wp_get, wp_emit_step, hp]
    exact ⟨hC, hw⟩

/-- After a command: the saved index may be dropped in verify mode, and the partition is flushed in
update mode. -/
theorem wp_afterCommand {i : Nat} {command : Command} {saved : Int}
    {Q : Option (Option Int × CommandParameters) → τ → Prop}
    (hverify : p.canwrite = false → ∀ p', Faulted p p' →
      (¬(saved ≠ -1 ∧ p.cmdindex ≠ -1 ∧ p.cmdindex ≤ saved ∧ command.isTransfer = true ∧
        p.targetVerified = false) → Q (some (some saved, p')) t))
    (hdrop : p.canwrite = false → saved ≠ -1 → p.cmdindex ≠ -1 → p.cmdindex ≤ saved →
      command.isTransfer = true → p.targetVerified = false →
      C (Mo.step t .unlinkLast) ∧
      (∀ p', Faulted p p' → Q (some (some (-1), p')) (Mo.step t .unlinkLast)) ∧
      (p.faults ≠ [] → ∀ p', Faulted p p' → Q (some (some (-1), p')) t))
    (hupdate : p.canwrite = true →
      C (Mo.step t (.finished i)) ∧
      C (Mo.step (Mo.step t (.finished i)) .fsync) ∧
      (∀ p', Faulted p p' →
        Q (some (some saved, p')) (Mo.step (Mo.step t (.finished i)) .fsync)) ∧
      (p.faults ≠ [] → ∀ p', Faulted p p' →
        Q (some (none, p')) (Mo.step t (.finished i)))) :
    wp Mo C (afterCommand env i command saved) Q p t := by
  simp only [afterCommand, checkLastCommand, wp_bind, wp_get, wpThen_some]
  cases hw : p.canwrite with
  | true =>
    obtain ⟨hC₁, hC₂, hok, hfail⟩ := hupdate hw
    simp only [Bool.not_true, Bool.false_eq_true, false_and, if_false, wp_pure, wpThen_some,
      syncCommand, wp_bind, wp_get, hw, if_true, wp_emit_step]
    refine ⟨hC₁, wp_syscall (fun p' hp => ?_) (fun h p' hp => ?_)⟩
    · simpa using ⟨hC₂, hok p' hp⟩
    · simpa using hfail h p' hp
  | false =>
    have hsync : ∀ p' (t : τ) saved', Faulted p p' → Q (some (some saved', p')) t →
        wp Mo C (do if ← syncCommand env i then return some saved' else return none) Q p' t := by
      intro p' t saved' hp hQ
      have hw' : p'.canwrite = false := by
        obtain ⟨⟨_, rfl⟩, -⟩ := hp
        exact hw
      simpa [syncCommand, hw'] using hQ
    split
    · rename_i h
      obtain ⟨-, h₁, h₂, h₃, h₄, h₅⟩ := h
      obtain ⟨hC, hok, hfail⟩ := hdrop hw h₁ h₂ h₃ (by simpa using h₄) (by simpa using h₅)
      simp only [wp_bind]
      refine wp_deleteLastCommandFile hC (fun p' hp => ?_) (fun h p' hp => ?_)
      · simp only [wpThen_some, wp_pure]
        exact hsync p' _ (-1) hp (hok p' hp)
      · simp only [wpThen_some, wp_pure]
        exact hsync p' _ (-1) hp (hfail h p' hp)
    · rename_i h
      simp only [wp_pure, wpThen_some]
      refine hsync p t saved (.refl p) (hverify hw p (.refl p) fun h' => h ?_)
      obtain ⟨h₁, h₂, h₃, h₄, h₅⟩ := h'
      exact ⟨by simp, h₁, h₂, h₃, by simpa using h₄, by simpa using h₅⟩

theorem wp_createStash {maxblocks : Nat} {blockdev : Text}
    {Q : Option (Option Bool × CommandParameters) → τ → Prop}
    (hmkdir : (Mo.view t).stash = none → C (Mo.step t .mkdirStash) ∧
      ∀ p', Faulted p p' → Q (some (some true, p')) (Mo.step t .mkdirStash) ∧
        (p.faults ≠ [] → Q (some (none, p')) (Mo.step t .mkdirStash)))
    (hexists : (Mo.view t).stash ≠ none → ∀ p', Faulted p p' → Q (some (some false, p')) t)
    (hfail : (p.faults = [] → blockdev = []) → ∀ p', Faulted p p' → Q (some (none, p')) t) :
    wp Mo C (createStash env maxblocks blockdev) Q p t := by
  unfold createStash
  split
  · rename_i hempty
    simpa using hfail (fun _ => List.isEmpty_iff.mp hempty) p (.refl p)
  · simp only [wp_bind, wp_disk, wpThen_some]
    refine wp_syscall (fun p₁ hp₁ => ?_) (fun h p₁ hp₁ => ?_)
    · simp only [wpThen_some, if_true]
      rcases hs : (Mo.view t).stash with _ | files
      · obtain ⟨hC, hok⟩ := hmkdir hs
        simp only [wp_bind]
        refine wp_syscall (fun p₂ hp₂ => ?_) (fun h p₂ hp₂ => ?_)
        · simp only [wpThen_some, if_true, wp_bind, wp_emit_step]
          refine ⟨hC, wp_syscalls (fun p₃ hp₃ => ?_) (fun h p₃ hp₃ => ?_)⟩
          · simpa using (hok p₃ ((hp₁.trans hp₂).trans hp₃)).1
          · simp only [wpThen_some, Bool.false_eq_true, if_false, wp_pure]
            refine (hok p₃ ((hp₁.trans hp₂).trans hp₃)).2 fun h₀ => h ?_
            rw [(hp₁.trans hp₂).eq h₀, h₀]
        · simp only [wpThen_some, Bool.false_eq_true, if_false, wp_pure]
          refine hfail (fun h₀ => absurd ?_ h) p₂ (hp₁.trans hp₂)
          rw [hp₁.eq h₀, h₀]
      · have hne : (Mo.view t).stash ≠ none := by simp [hs]
        simp only
        split
        · simp only [wp_bind]
          refine wp_syscall (fun p₂ hp₂ => ?_) (fun h p₂ hp₂ => ?_)
          · simpa using hexists hne p₂ (hp₁.trans hp₂)
          · simp only [wpThen_some, Bool.false_eq_true, if_false, wp_pure]
            refine hfail (fun h₀ => absurd ?_ h) p₂ (hp₁.trans hp₂)
            rw [hp₁.eq h₀, h₀]
        · simpa using hexists hne p₁ hp₁
    · simpa using hfail (fun h₀ => absurd h₀ h) p₁ hp₁

/-- The stash directory is made or found; what follows starts with the saved index. -/
theorem wp_performCommands {blockdev : Text} {n : Nat} {lines : List Text}
    {Q : Option (Bool × CommandParameters) → τ → Prop}
    (hmkdir : (Mo.view t).stash = none → C (Mo.step t .mkdirStash))
    (hfail : (p.faults = [] → blockdev = []) → ∀ p' t', Faulted p p' →
      t' = t ∨ (Mo.view t).stash = none ∧ t' = Mo.step t .mkdirStash → Q (some (false, p')) t')
    (hrun : ∀ p' t' createdstash, Faulted { p with createdstash } p' →
      (createdstash = true ∧ (Mo.view t).stash = none ∧ t' = Mo.step t .mkdirStash ∨
        createdstash = false ∧ (Mo.view t).stash ≠ none ∧ t' = t) →
      wp Mo C (do
        let saved ← savedIndex env
        let rc ← performLines env 0 lines saved
        finishUpdate env rc
        return rc) Q p' t') :
    wp Mo C (performCommands env blockdev n lines) Q p t := by
  have hcreated : ∀ {p' : CommandParameters} (createdstash : Bool), Faulted p p' →
      Faulted { p with createdstash } { p' with createdstash } := by
    intro p' createdstash hp
    refine ⟨?_, fun h₀ => by rw [hp.eq h₀]⟩
    obtain ⟨⟨f, rfl⟩, -⟩ := hp
    exact ⟨f, rfl⟩
  simp only [performCommands, wp_bind]
  refine wp_createStash (fun hs => ⟨hmkdir hs, fun p' hp => ⟨?_, fun h => ?_⟩⟩)
    (fun hs p' hp => ?_) (fun h p' hp => ?_)
  · simpa using hrun _ _ true (hcreated true hp) (.inl ⟨rfl, hs, rfl⟩)
  · simpa using hfail (fun h₀ => absurd h₀ h) p' _ hp (.inr ⟨hs, rfl⟩)
  · simpa using hrun _ _ false (hcreated false hp) (.inr ⟨rfl, hs, rfl⟩)
  · simpa using hfail h p' t hp (.inl rfl)

/-- The part of a call that follows the header of the transfer list: either the call ends before it,
with no step taken, or it is `performCommands`. -/
theorem wp_performBlockImageUpdate {call : Call}
    {Q : Option (Bool × CommandParameters) → τ → Prop}
    (hearly : ∀ p' r, Q (some (r, p')) t)
    (hrun : ∀ p' version total entries stashMax n lines,
      call.transferList.splitOn '\n' = version :: total :: entries :: stashMax :: lines →
      p'.canwrite = !call.dryrun → p'.isRetry = (p.isRetry || call.retry) → p'.freestash = [] →
      p'.isunresumable = false → p'.nti = ⟨call.newData, true⟩ → p'.buffer = [] →
      p'.stashMap = p.stashMap → (p.faults = [] → p'.faults = []) →
      wp Mo C (performCommands env call.blockdev n lines) Q p' t) :
    wp Mo C (performBlockImageUpdate env call) Q p t := by
  simp only [performBlockImageUpdate, wp_bind, wp_modify, wpThen_some]
  refine wp_syscalls (fun p' hp => ?_) (fun _ p' hp => by simpa using hearly p' false)
  simp only [wpThen_some, if_true]
  split
  · rename_i version total rest hlines
    split
    · simpa using hearly p' false
    · split
      · simpa using hearly p' false
      · simpa using hearly p' true
      · split
        · rename_i entries stashMax lines
          split
          · simpa using hearly p' false
          · rename_i n _
            have hf := hp.eq
            obtain ⟨⟨f, rfl⟩, -⟩ := hp
            refine hrun _ version total entries stashMax n lines (by simpa using hlines) rfl rfl rfl
              rfl rfl rfl rfl fun h₀ => ?_
            rw [hf h₀]
            exact h₀
        · simpa using hearly p' false
  · simpa using hearly p' false

end BootableRecovery.BlockImg
