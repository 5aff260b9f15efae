import BootableRecovery.Updater.UpdateCommands

/-!
# The loop of an update

The loop executes the commands from the first one that the saved index does not skip, and comes to
the end from wherever earlier updates were interrupted; the stash directory and the saved index are
gone then.
-/

namespace BootableRecovery.BlockImg

variable {env : Env} {S F : Image} {instrs : List Instr} {settled : Nat → Prop} {i j n : Nat}
    {C : Disk → Prop}
variable {p : CommandParameters} {d : Disk} {lines : List Text} {saved : Int}

theorem parseLastCommand_le {content : Text} {k : Int} (h : parseLastCommand content = some k) :
    k ≤ INT_MAX := by
  rw [parseLastCommand] at h
  split at h
  · have := (Option.filter_eq_some_iff.mp h).2
    simp only [Bool.and_eq_true, decide_eq_true_eq] at this
    exact this.2
  · cases h

theorem Disk.savedIndex_le {k : Int} (h : d.savedIndex = some k) : k ≤ INT_MAX := by
  obtain ⟨content, -, hparse⟩ := Option.bind_eq_some_iff.mp h
  exact parseLastCommand_le hparse

theorem Reached.congr (h : Reached env S F instrs settled j d) {settled' : Nat → Prop}
    (hiff : ∀ k, settled k ↔ settled' k) : Reached env S F instrs settled' j d := by
  rwa [← show settled = settled' from funext fun k => propext (hiff k)]

theorem Reached.all (h : Reached env S F instrs settled j d)
    (hall : ∀ k < instrs.length, settled k) : Reached env S F instrs (fun _ => True) j d :=
  { h with
    written :=
      fun i hi c hc _ => h.written i hi c hc fun _ => hall i (List.getElem?_eq_some_iff.mp hc).1
    saved := fun k hk i hi => (h.saved k hk i hi).imp_left fun h => ⟨h.1, trivial⟩ }

/-! ## The loop -/

section
variable (hinj : Function.Injective env.sha1) (hcreator : Creator env S F instrs)
include hinj hcreator

theorem wp_performLines_update {Q : Option (Bool × CommandParameters) → Disk → Prop}
    (hlines : lines.mapM Instr.decode = some (instrs.drop i)) (hnl : ∀ line ∈ lines, '\n' ∉ line)
    (hagain : i = j ∨ i < j ∧ Resumable instrs) (hmax : saved ≤ INT_MAX)
    (hsaved : ∀ k : Nat, (k : Int) ≤ saved → k < j) (hp : Idle p)
    (h : Reached env S F instrs (fun k => k < i ∨ (k : Int) ≤ saved) j d)
    (hstash : d.stash.isSome = true) (hsupplied : Supplied F (instrs.drop i) p.nti)
    (hC : ∀ d', Recoverable env S F instrs d' → C d') (hQ : ∀ p' d' n, instrs.length ≤ n → Idle p' →
      Reached env S F instrs (fun _ => True) n d' → d'.stash.isSome = true →
      Q (some (true, p')) d') :
      wp (.plain (Disk.apply env)) C (performLines env i lines saved) Q p d := by
  induction lines generalizing i j p d with
  | nil =>
    have hlen : instrs.length ≤ i := List.drop_eq_nil_iff.mp (Option.some.inj hlines).symm
    have hj : i ≤ j := by omega
    rw [performLines, wp_pure]
    exact hQ p d j (by omega) hp (h.all fun k hk => .inl (by omega)) hstash
  | cons line lines ih =>
    obtain ⟨hline, hnl⟩ := List.forall_mem_cons.mp hnl
    rw [List.mapM_cons] at hlines
    obtain ⟨c, hdecode, hlines⟩ := Option.bind_eq_some_iff.mp hlines
    obtain ⟨rest, hrest, hdrop⟩ := Option.bind_eq_some_iff.mp hlines
    replace hdrop : c :: rest = instrs.drop i := Option.some.inj hdrop
    have hi : instrs[i]? = some c := by
      have := congrArg (fun l => l[0]?) hdrop
      simpa using this.symm
    have hdrop' : rest = instrs.drop (i + 1) := by
      have := congrArg List.tail hdrop
      rwa [List.tail_cons, List.tail_drop] at this
    rw [hdrop'] at hrest
    -- what follows a line that is done
    have hnext : ∀ p' d' j', (i + 1 = j' ∨ i + 1 < j' ∧ Resumable instrs) → j ≤ j' → Idle p' →
        Supplied F (instrs.drop (i + 1)) p'.nti →
        Reached env S F instrs (fun k => (k < i ∨ (k : Int) ≤ saved) ∨ k = i) j' d' →
        d'.stash.isSome = true →
        wp (.plain (Disk.apply env)) C (performLines env (i + 1) lines saved) Q p' d' := by
      intro p' d' j' hagain' hj' hp' hsupplied' h' hstash'
      refine ih hrest hnl hagain' (fun k hk => (hsaved k hk).trans_le hj') hp' (h'.congr fun k =>
        ?_) hstash' hsupplied'
      constructor
      · rintro ((h | h) | h)
        · exact .inl (by omega)
        · exact .inr h
        · exact .inl (by omega)
      · rintro (h | h)
        · rcases Nat.lt_succ_iff_lt_or_eq.mp h with h | h
          · exact .inl (.inl h)
          · exact .inr h
        · exact .inl (.inr h)
    have hmaxj : i + 1 = max j (i + 1) ∨ i + 1 < max j (i + 1) ∧ Resumable instrs := by
      rcases hagain with rfl | ⟨hlt, hresumable⟩
      · exact .inl (by omega)
      · rcases Nat.lt_or_eq_of_le hlt with hlt | heq
        · exact .inr ⟨by omega, hresumable⟩
        · exact .inl (by omega)
    rw [performLines]
    split
    · -- an empty line
      rename_i hempty
      rw [Instr.decode, if_pos hempty] at hdecode
      cases hdecode
      obtain ⟨hreached, hdir⟩ :=
        h.progressed hcreator hi hagain hstash (by rintro _ ⟨⟩) (by rintro _ _ _ ⟨⟩)
      exact hnext p d _ hmaxj (Nat.le_max_left ..) hp (hsupplied.tail hi (by rintro _ ⟨⟩))
        hreached hdir
    · rename_i hempty
      rw [Instr.decode, if_neg hempty] at hdecode
      obtain ⟨command, hcommand, hdecode⟩ := Option.bind_eq_some_iff.mp hdecode
      have hrecoverable : Recoverable env S F instrs d := ⟨_, _, h⟩
      rw [wp_bind]
      refine wp_performLine (fun hnone => ?_) (fun command' _ hnone => ?_)
        (fun _ hindex hle _ => ?_)
        fun command' f hcommand' hf hnot => ?_
      · rw [hcommand] at hnone
        cases hnone
      · rw [hp.canwrite] at hnone
        cases command' <;> cases hnone
      · -- the command is skipped
        have hle : (i : Int) ≤ saved := by rwa [cmdIndex_eq hindex] at hle
        have hlt := hsaved i hle
        have hresumable := (hagain.resolve_left hlt.ne).2
        refine ⟨hC d hrecoverable,
          hnext p d j ?_ (Nat.le_refl j) hp (hsupplied.tail hi ?_) (h.congr fun k => ?_) hstash⟩
        · exact (Nat.eq_or_lt_of_le hlt).imp_right fun hlt => ⟨hlt, hresumable⟩
        · rintro tgt rfl
          exact hresumable.noNew tgt (List.mem_of_getElem? hi)
        · exact ⟨.inl, fun h => h.elim id fun heq => .inr (heq ▸ hle)⟩
      · rw [hcommand] at hcommand'
        cases hcommand'
        rw [hp.canwrite] at hf
        refine ⟨hC d hrecoverable, ?_⟩
        have hpending :
            Pending env S F instrs
            (fun k => k < i ∨ (k : Int) ≤ saved) i j c (p.forLine i line) d := by
          refine ⟨hi, hagain, ⟨hp.faults, hp.canwrite, hp.freestash, hp.isunresumable⟩,
            ⟨rfl, fun h => hline (mem_of_mem_cstr h),
              exists_not_isSpace ((commandOf_cstr line).trans hcommand)⟩, h, hstash, fun k =>
              .inl, ?_, hsupplied⟩
          rintro (hlt | hle)
          · exact absurd hlt (Nat.lt_irrefl i)
          · have hindex : cmdIndex i = i := by
              rw [cmdIndex, if_neg (by omega)]
            exact hnot ⟨hp.canwrite, by rw [hindex]; omega, by rwa [hindex]⟩
        refine performs_perform hinj hcreator hdecode hf hpending C _ hC
          fun p' d' hp' hsupplied' hprogressed => ?_
        simp only [wpThen_some, if_true]
        refine wp_afterCommand (fun hw => ?_) (fun hw => ?_) fun _ => ?_
        · rw [hp'.canwrite] at hw
          cases hw
        · rw [hp'.canwrite] at hw
          cases hw
        have hrecoverable' : Recoverable env S F instrs d' := ⟨_, _, hprogressed.reached⟩
        refine ⟨hC d' hrecoverable', hC d' hrecoverable', fun p'' hp'' => ?_, fun hfaults =>
          absurd hp'.faults hfaults⟩
        rw [hp''.eq hp'.faults]
        exact hnext p' d' _ hmaxj (Nat.le_max_left ..) hp' hsupplied' hprogressed.reached
          hprogressed.stash

end

/-! ## The end -/

theorem wp_deleteFiles_reached {ids : List Text} {files : List (Text × StashFile)}
    {Q : Option (Unit × CommandParameters) → Disk → Prop} (hf : p.faults = [])
    (hn : instrs.length ≤ n) (h : Reached env S F instrs settled n d)
    (hfiles : d.stash = some files) (hids : ∀ x ∈ files, x.1 ∈ ids)
    (hC : ∀ d', Recoverable env S F instrs d' → C d')
    (hQ : ∀ d', Reached env S F instrs settled n d' → d'.stash = some [] → Q (some ((), p)) d') :
    wp (.plain (Disk.apply env)) C (deleteFiles env ids) Q p d := by
  induction ids generalizing d files with
  | nil =>
    rw [deleteFiles, wp_pure]
    refine hQ d h ?_
    rw [hfiles, List.eq_nil_iff_forall_not_mem.mpr fun x hx => List.not_mem_nil (hids x hx)]
  | cons id ids ih =>
    have hunlink : Reached env S F instrs settled n (d.apply env (.unlinkStash id)) :=
      h.unlinkStash (not_needed_of_length_le hn) fun patch t ht => by
        rw [List.getElem?_eq_none hn] at ht
        cases ht
    rw [deleteFiles, wp_bind]
    refine wp_deleteFile (hC _ ⟨_, _, hunlink⟩) (fun p' hp => ?_) fun hfaults => absurd hf hfaults
    rw [hp.eq hf]
    refine ih hunlink (show _ = some (files.filter (·.1 ≠ id)) by simp [Disk.apply, hfiles])
      fun x hx => ?_
    obtain ⟨hx, hne⟩ := List.mem_filter.mp hx
    exact (List.mem_cons.mp (hids x hx)).resolve_left (by simpa using hne)

theorem wp_finishUpdate_reached {Q : Option (Unit × CommandParameters) → Disk → Prop}
    (hcreator : Creator env S F instrs) (hp : Idle p) (hn : instrs.length ≤ n)
    (h : Reached env S F instrs (fun _ => True) n d) (hstash : d.stash.isSome = true)
    (hC : ∀ d', Recoverable env S F instrs d' → C d') (hQ : Q (some ((), p)) ⟨F, none, none⟩) :
    wp (.plain (Disk.apply env)) C (finishUpdate env true) Q p d := by
  obtain ⟨files, hfiles⟩ := Option.isSome_iff_exists.mp hstash
  simp only [finishUpdate, wp_bind, wp_get, wpThen_some, hp.canwrite, hp.isunresumable,
    Bool.and_true, onlyIf, if_true, deleteStash, wp_disk, Monitor.plain_view, hfiles,
    Option.getD_some]
  refine wp_deleteFiles_reached hp.faults hn h hfiles (fun x hx => List.mem_map_of_mem hx) hC
    fun d₁ h₁ hempty => ?_
  -- the directory
  have hrmdir : d₁.apply env .rmdirStash = { d₁ with stash := none } := by
    rw [Disk.apply, if_pos hempty]
  have h₂ : Reached env S F instrs (fun _ => True) n (d₁.apply env .rmdirStash) := by
    rw [hrmdir]
    refine h₁.of_eq rfl (fun id => ?_) fun _ hk => hk
    rw [Disk.stashFile, Disk.stashFile, hempty]
    rfl
  have h₃ :
      Reached env S F instrs (fun _ => True) n ((d₁.apply env .rmdirStash).apply env .unlinkLast) :=
    h₂.of_eq rfl (fun _ => rfl) fun _ hk => by cases hk
  have hend : (d₁.apply env .rmdirStash).apply env .unlinkLast = ⟨F, none, none⟩ := by
    have hpart := h₃.part_eq hcreator hn
    rw [hrmdir] at hpart ⊢
    simpa [Disk.apply] using hpart
  rw [wpThen_some, wp_bind]
  refine wp_syscall (fun p' hp' => ?_) fun hfaults => absurd hp.faults hfaults
  rw [hp'.eq hp.faults]
  simp only [wpThen_some, if_true, wp_emit_step, Monitor.plain_step]
  refine ⟨hC _ ⟨_, _, h₂⟩, ?_⟩
  refine wp_deleteLastCommandFile (hC _ ⟨_, _, h₃⟩) (fun p' hp' => ?_) fun hfaults =>
    absurd hp.faults hfaults
  rw [hp'.eq hp.faults, wpThen_some, Monitor.plain_step, hend]
  rw [wp_bind]
  refine wp_syscall (fun p' hp' => ?_) fun hfaults => absurd hp.faults hfaults
  rw [hp'.eq hp.faults]
  simp only [wpThen_some, if_true, wp_emit_step, Monitor.plain_step, wp_bind, Bool.false_eq_true,
    if_false, wp_pure, Bool.not_true, Bool.false_and, Bool.or_self]
  exact ⟨hC _ ⟨_, _, hend ▸ h₃⟩, hQ⟩

end BootableRecovery.BlockImg
