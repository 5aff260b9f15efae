import BootableRecovery.Updater.Keeps
import BootableRecovery.Updater.RangeWriter
import BootableRecovery.Updater.SavedIndex

/-!
# What a transfer leaves in its target

`PerformCommandMove` and `PerformCommandDiff` check the hash of their source, write the target and
return 0. Nothing looks at the target again: a patch may give fewer bytes than the target has (the
source only logs "range sink underrun?") or other bytes than the target hash stands for, and the
source of a move need not have as many blocks as its target.
-/

namespace BootableRecovery.BlockImg

/-! ## Filled targets -/

section
variable {env : Env} {d d' : Disk}

theorem Disk.part_store (h : d.part = d'.part) (a : Nat) (data : List UInt8) :
    (d.store a data).part = (d'.store a data).part := by
  induction data generalizing d d' a with
  | nil => exact h
  | cons c cs ih =>
    refine ih ?_ (a + 1)
    simp only [setByte, h]

theorem part_fill (h : d.part = d'.part) (retry : Bool) (rs : List Range) (data : List UInt8) :
    (fill env retry rs data d).part = (fill env retry rs data d').part := by
  induction rs generalizing d d' data with
  | nil => exact h
  | cons r rs ih =>
    simp only [fill]
    split
    · exact h
    · refine ih (Disk.part_store ?_ _ _) _
      cases retry with
      | false => exact h
      | true => simp only [Disk.discardFor, if_true, List.foldl_cons, List.foldl_nil, Disk.apply, h]

theorem Disk.read_congr (h : d.part = d'.part) (rs : RangeSet) : d.read rs = d'.read rs := by
  rw [read, read, h]

/-- The data reach every byte of the target, and leave the target with the hash. -/
def FillsTarget (env : Env) (retry : Bool) (tgthash : Text) (tgt : RangeSet) (d : Disk)
    (data : List UInt8) : Prop :=
  (∀ a ∈ addresses tgt, a ∈ (addresses tgt).take data.length) ∧
    env.sha1 ((fill env retry tgt.ranges data d).read tgt) = tgthash

theorem fillsTarget_iff {retry : Bool} {tgthash : Text} {tgt : RangeSet} {data : List UInt8}
    (hnodup : tgt.toList.Nodup) (hle : data.length ≤ tgt.blocks * BLOCKSIZE) :
    FillsTarget env retry tgthash tgt d data ↔
      data.length = tgt.blocks * BLOCKSIZE ∧ env.sha1 (blocksOf tgt.blocks data) = tgthash := by
  have hread : data.length = tgt.blocks * BLOCKSIZE →
      (fill env retry tgt.ranges data d).read tgt = blocksOf tgt.blocks data := by
    intro hlen
    have hsteps :=
      @foldl_writeSteps env retry tgt.ranges (blocksOf tgt.blocks data) d tgt.nonempty (by
        rw [length_blocksOf]
        exact Nat.le_refl _)
    rw [flatMap_blocksOf hlen] at hsteps
    rw [← hsteps, read_writeSteps hnodup (by rw [length_blocksOf]),
      List.take_of_length_le (by rw [length_blocksOf])]
  constructor
  · rintro ⟨hall, hsha⟩
    have hlen : data.length = tgt.blocks * BLOCKSIZE := by
      refine Nat.le_antisymm hle (Nat.le_of_not_lt fun hlt => ?_)
      rw [← length_addresses] at hlt
      -- the first address that is not reached comes once only
      obtain ⟨i, hi⟩ := List.mem_iff_getElem?.mp (hall _ (List.getElem_mem hlt))
      rw [List.getElem?_take] at hi
      split at hi
      · rename_i hi'
        have hbound := (List.getElem?_eq_some_iff.mp hi).1
        have heq := (List.getElem?_eq_some_iff.mp hi).2
        exact Nat.ne_of_lt hi' ((nodup_addresses hnodup).getElem_inj_iff.mp heq)
      · cases hi
    rw [hread hlen] at hsha
    exact ⟨hlen, hsha⟩
  · rintro ⟨hlen, hsha⟩
    refine ⟨fun a ha => ?_, by rwa [hread hlen]⟩
    rwa [hlen, ← length_addresses, List.take_length]

end

/-! ## Loading the source in update mode -/

section
variable {env : Env} {p : CommandParameters} {d : Disk} {t : Disk × List Step}

/-- The variables of an update in which no system call fails. -/
def Updating (retry : Bool) (p : CommandParameters) : Prop :=
  p.faults = [] ∧ p.canwrite = true ∧ p.isRetry = retry

theorem volatile_updating {retry : Bool} : Volatile (Updating retry) where
  faults h := by
    refine ⟨?_, h.2⟩
    rw [h.1, List.tail_nil]
  buffer _ h := h

/-- The partition is as in `d`, and nothing was written to it. -/
def Quiet (env : Env) (d : Disk) (t : Disk × List Step) : Prop :=
  ((Monitor.history (Disk.apply env)).view t).part = d.part ∧ written t.2 = []

theorem Quiet.step (h : Quiet env d t) {e : Step}
    (hpart : ∀ d', (Disk.apply env d' e).part = d'.part) (hwritten : e.written = []) :
    Quiet env d ((Monitor.history (Disk.apply env)).step t e) := by
  refine ⟨?_, ?_⟩
  · rw [Monitor.view_step, hpart]
    exact h.1
  · rw [Monitor.history_step, written, List.flatMap_append, ← written, h.2, List.flatMap_singleton,
      hwritten]
    rfl

theorem Quiet.read_eq (h : Quiet env d t) (rs : RangeSet) :
    ((Monitor.history (Disk.apply env)).view t).read rs = d.read rs :=
  Disk.read_congr h.1 rs

/-- The buffer starts with a source that has its hash. -/
def StartsWithSource (env : Env) (srchash : Text) (buffer : List Block) : Prop :=
  ∃ source, env.sha1 source = srchash ∧ source <+: buffer

theorem wp_recoverSource_updating {retry : Bool} {l : LoadedSource}
    {Q : Option (LoadStatus × CommandParameters) → Disk × List Step → Prop} (hp : Updating retry p)
    (ht : Quiet env d t)
    (hready : ∀ p' t', Updating retry p' → Quiet env d t' →
      StartsWithSource env l.srchash p'.buffer → Q (some (.ready, p')) t')
    (hfail : ∀ r t', (∀ s p', r = some (s, p') → s = .failed) → Q r t') :
    wp (.history (Disk.apply env)) (fun _ => True) (recoverSource env l) Q p t := by
  have hkeeps :
      (recoverSource env l).Keeps (.history (Disk.apply env)) (Updating retry) (Quiet env d) :=
    keeps_recoverSource volatile_updating (fun h => h) fun _ => keeps_loadStash volatile_updating
      (keeps_loadStashFile volatile_updating fun _ _ h => h.step (fun _ => rfl) rfl)
  have hsource : wp (.history (Disk.apply env)) (fun _ => True) (recoverSource env l) (fun r _ =>
      (∃ p', r = some (.ready, p') ∧ StartsWithSource env l.srchash p'.buffer) ∨
        ∀ s p', r = some (s, p') → s = .failed) p t := by
    refine wp_recoverSource trivial (fun p' _ hbuffer => .inl ⟨p', rfl, ?_⟩) fun r t' hr _ =>
      .inr hr
    obtain ⟨n, -, hsha, -⟩ := hbuffer hp.2.1
    exact ⟨_, hsha, List.take_prefix _ _⟩
  refine wp_crash_mono (fun _ _ => trivial) (wp_mono (wp_and (hkeeps p t hp ht) hsource) ?_)
  rintro r t' ⟨⟨ht', hupdating⟩, ⟨p', rfl, hbuffer⟩ | hfailed⟩
  · exact hready p' t' (hupdating _ _ rfl) ht' hbuffer
  · exact hfail r t' hfailed

theorem wp_writeStash_updating {id : Text} {blocks : List Block} {checkspace reuse : Bool}
    {Q : Option ((Bool × Bool) × CommandParameters) → Disk × List Step → Prop} (hf : p.faults = [])
    (ht : Quiet env d t) (hQ : ∀ r t', Quiet env d t' → Q (some (r, p)) t') :
    wp (.history (Disk.apply env))
    (fun _ => True) (writeStash env id blocks checkspace reuse) Q p t := by
  have hcreate : wp (.history (Disk.apply env)) (fun _ => True)
      (do return (← createStashFile env id blocks, false)) Q p t := by
    simp only [createStashFile, wp_bind, wp_disk, wpThen_some]
    split
    · simpa using hQ (false, false) t ht
    · rw [wp_bind]
      refine wp_syscalls (fun p' hp => ?_) fun h => absurd hf h
      cases hp.eq hf
      simp only [wpThen_some, if_true, wp_bind, wp_emit_step]
      refine ⟨trivial, wp_syscalls (fun p' hp => ?_) fun h => absurd hf h⟩
      cases hp.eq hf
      simpa using hQ (true, false) _ (ht.step (fun _ => rfl) rfl)
  have hrest : wp (.history (Disk.apply env)) (fun _ => True) (do
      if reuse then
        let d ← disk env
        if (← syscall env) && (d.stashFile (getStashFileName env id)).isSome
          then return (true, true)
        else return (← createStashFile env id blocks, false)
      else return (← createStashFile env id blocks, false)) Q p t := by
    split
    · simp only [wp_bind, wp_disk, wpThen_some]
      refine wp_syscall (fun p' hp => ?_) fun h => absurd hf h
      cases hp.eq hf
      simp only [wpThen_some, Bool.true_and]
      split
      · rw [wp_pure]
        exact hQ (true, true) t ht
      · exact hcreate
    · exact hcreate
  simp only [writeStash, wp_bind]
  split
  · refine wp_syscall (fun p' hp => ?_) fun h => absurd hf h
    cases hp.eq hf
    simpa only [wpThen_some, if_true, wp_bind] using hrest
  · simpa only [wp_pure, wpThen_some, if_true, wp_bind] using hrest

theorem wp_stashSource_updating {retry : Bool} {l : LoadedSource}
    {Q : Option (LoadStatus × CommandParameters) → Disk × List Step → Prop} (hp : Updating retry p)
    (ht : Quiet env d t)
    (hready : ∀ p' t', Updating retry p' → Quiet env d t' → p'.buffer = p.buffer →
      Q (some (.ready, p')) t') (hfail : ∀ r t', (∀ s p', r = some (s, p') → s = .failed) →
      Q r t') : wp (.history (Disk.apply env)) (fun _ => True) (stashSource env l) Q p t := by
  rw [stashSource, wp_bind, wp_get, wpThen_some]
  split
  · rw [wp_bind]
    refine wp_writeStash_updating hp.1 ht fun r t₁ ht₁ => ?_
    obtain ⟨_ | _, existed⟩ := r
    · rw [wpThen_some]
      simp only [Bool.false_eq_true, if_false, wp_pure]
      refine hfail _ t₁ ?_
      rintro s p' ⟨⟩
      rfl
    · rw [wpThen_some]
      simp only [if_true, wp_bind]
      refine wp_updateLastCommandIndex trivial (fun p₁ r hp₁ => ?_) fun h => absurd hp.1 h
      cases hp₁.eq hp.1
      rw [wpThen_some, wp_bind, wp_modify, wpThen_some, wp_pure]
      refine hready _ _ ?_ (ht₁.step (fun _ => rfl) rfl) ?_
      · cases existed with
        | true => exact hp
        | false => exact hp
      · cases existed with
        | true => rfl
        | false => rfl
  · rw [wp_pure]
    exact hready p t hp ht rfl

/-- Loading ends with a target that has its hash already, with a source that can be used, or in
failure. -/
theorem wp_loadSrcTgtVersion3_updating {retry : Bool} {tokens : List Text} {onehash : Bool}
    {Q : Option ((LoadStatus × RangeSet × Nat) × CommandParameters) → Disk × List Step → Prop}
    (hp : Updating retry p) (ht : Quiet env d t)
    (hdone : ∀ p' srchash tgthash tgt, Updating retry p' →
      Targets onehash tokens srchash tgthash tgt → env.sha1 (d.read tgt) = tgthash →
      Q (some ((.done, tgt, 0), p')) t)
      (hready : ∀ p' t' srchash tgthash tgt blocks, Updating retry p' → Quiet env d t' →
        Targets onehash tokens srchash tgthash tgt → Counts onehash tokens blocks → env.Within tgt →
      env.sha1 (d.read tgt) ≠ tgthash → StartsWithSource env srchash p'.buffer →
      Q (some ((.ready, tgt, blocks), p')) t')
    (hfail : ∀ r t', (∀ s tgt blocks p', r = some ((s, tgt, blocks), p') → s = .failed) → Q r t') :
    wp (.history (Disk.apply env))
    (fun _ => True) (loadSrcTgtVersion3 env tokens onehash) Q p t := by
  have hsteps : (loadTgtSrc env tokens onehash).Confined (fun _ => False) CommandParameters.frame :=
    confined_loadTgtSrc
  have hkeeps :
      (loadTgtSrc env tokens onehash).Keeps (.plain (Disk.apply env)) (Updating retry) fun _ =>
      True :=
    keeps_loadTgtSrc volatile_updating
  have hupdating := (wp_result (hkeeps p ((Monitor.history (Disk.apply env)).view t) hp trivial)).2
  have hfacts := loadTgtSrc_facts env tokens onehash p ((Monitor.history (Disk.apply env)).view t)
  rw [loadSrcTgtVersion3, wp_bind]
  refine wp_of_steps_eq_nil hsteps.steps_eq_nil ?_
  simp only [Monitor.plain_view] at hupdating
  rcases hr : (loadTgtSrc env tokens onehash).result p
    ((Monitor.history (Disk.apply env)).view t) with
    _ | ⟨⟨s, tgt⟩ | l, p₁⟩
  · exact hfail none t (by simp)
  · rw [hr] at hfacts hupdating
    rw [wpThen_some]
    simp only [wp_pure]
    cases s with
    | failed =>
      refine hfail _ t ?_
      rintro s tgt blocks p' ⟨⟩
      rfl
    | ready => cases hfacts
    | done =>
      obtain ⟨srchash, tgthash, htgt, hsha⟩ := hfacts
      rw [ht.read_eq] at hsha
      exact hdone p₁ srchash tgthash tgt (hupdating _ _ rfl) htgt hsha
  · rw [hr] at hfacts hupdating
    obtain ⟨tgthash, htgt, hcount, hwithin, hsha⟩ := hfacts
    rw [ht.read_eq] at hsha
    have hp₁ := hupdating _ _ rfl
    have hready' : ∀ p' t', Updating retry p' → Quiet env d t' →
        StartsWithSource env l.srchash p'.buffer → Q (some ((.ready, l.tgt, l.blocks), p')) t' :=
      fun p' t' hp' ht' =>
      hready p' t' l.srchash tgthash l.tgt l.blocks hp' ht' htgt hcount hwithin hsha
    have hfail' : ∀ r t', (∀ s p', r = some (s, p') → s = .failed) →
        wpThen (.history (Disk.apply env)) (fun _ => True)
        (fun s => (pure (s, l.tgt, l.blocks) : M env _)) Q r t' := by
      intro r t' hr
      rcases r with _ | ⟨s, p'⟩
      · exact hfail none t' (by simp)
      · rw [wpThen_some, wp_pure]
        refine hfail _ t' ?_
        rintro s tgt blocks p' ⟨⟩
        exact hr _ _ rfl
    rw [wpThen_some]
    simp only [wp_bind, wp_get, wpThen_some]
    refine wp_verifyBlocks (fun _ => ?_) fun _ => hfail none t (by simp)
    rw [wpThen_some]
    split
    · rename_i hverified
      rw [wp_bind]
      refine wp_stashSource_updating hp₁ ht (fun p' t' hp' ht' hbuffer => ?_) hfail'
      rw [wpThen_some, wp_pure]
      refine hready' p' t' hp' ht' ⟨_, of_decide_eq_true hverified, ?_⟩
      rw [hbuffer]
      exact List.take_prefix _ _
    · rw [wp_bind]
      refine wp_recoverSource_updating hp₁ ht (fun p' t' hp' ht' hbuffer => ?_) hfail'
      rw [wpThen_some, wp_pure]
      exact hready' p' t' hp' ht' hbuffer

end

/-! ## Writing the target -/

section
variable {env : Env} {p : CommandParameters} {d : Disk} {t : Disk × List Step} {tgt : RangeSet}

theorem fill_take {retry : Bool} {rs : List Range} (hrs : ∀ r ∈ rs, r.1 < r.2) (data : List UInt8) :
    fill env retry rs (data.take ((rs.map fun r => r.2 - r.1).sum * BLOCKSIZE)) d =
    fill env retry rs data d := by
  induction rs generalizing data d with
  | nil => rfl
  | cons r rs ih =>
    obtain ⟨hr, hrs⟩ := List.forall_mem_cons.mp hrs
    have hpos : 0 < (r.2 - r.1) * BLOCKSIZE := Nat.mul_pos (by omega) (by decide)
    rw [List.map_cons, List.sum_cons, Nat.add_mul]
    rcases data with _ | ⟨c, cs⟩
    · rw [List.take_nil]
    · have hne :
          (c :: cs).take ((r.2 - r.1) * BLOCKSIZE + (rs.map fun r => r.2 - r.1).sum * BLOCKSIZE) ≠
          [] := by
        rw [ne_eq, List.take_eq_nil_iff]
        rintro (h | h)
        · omega
        · cases h
      simp only [fill, if_neg hne, if_neg (List.cons_ne_nil c cs), List.take_take, List.drop_take]
      rw [Nat.min_eq_left (Nat.le_add_right _ _), Nat.add_sub_cancel_left]
      exact ih hrs _

theorem written_zipWith_write {bs : List Nat} {data : List Block} (h : bs.length ≤ data.length) :
    (List.zipWith Step.write bs data).flatMap Step.written =
      (bs.flatMap fun b => List.range' (b * BLOCKSIZE) BLOCKSIZE).zip
      ((data.take bs.length).flatMap Block.bytes) := by
  induction bs generalizing data with
  | nil => rfl
  | cons b bs ih =>
    cases data with
    | nil => cases h
    | cons v data =>
      rw [List.zipWith_cons_cons, List.flatMap_cons, ih (Nat.le_of_succ_le_succ h),
        List.flatMap_cons, List.length_cons, List.take_succ_cons, List.flatMap_cons,
        List.zip_append (by rw [List.length_range', Block.length_bytes])]
      rfl

theorem written_writeSteps {retry : Bool} {rs : List Range} {data : List Block}
    (h : (rs.map fun r => r.2 - r.1).sum ≤ data.length) :
    written (writeSteps retry rs data) = (rs.flatMap Range.addresses).zip
      ((data.take (rs.map fun r => r.2 - r.1).sum).flatMap Block.bytes) := by
  induction rs generalizing data with
  | nil => rfl
  | cons r rs ih =>
    rw [List.map_cons, List.sum_cons] at h
    have hdiscard : (if retry then [Step.discard r] else []).flatMap Step.written = [] := by
      cases retry with
      | false => rfl
      | true => rfl
    have hrange : (BootableRecovery.Range.toList r).length = r.2 - r.1 := Range.length_toList r
    have hlen : ((data.take (r.2 - r.1)).flatMap Block.bytes).length = (r.2 - r.1) * BLOCKSIZE := by
      simp [Nat.min_eq_left (Nat.le_trans (Nat.le_add_right _ _) h)]
    have hrest := @ih (data.drop (r.2 - r.1)) (by
      rw [List.length_drop]
      omega)
    rw [written] at hrest
    rw [written, writeSteps, List.flatMap_append, List.flatMap_append, hdiscard,
      List.nil_append, hrest, written_zipWith_write (by omega), hrange, ← Range.addresses_eq,
      List.map_cons, List.sum_cons, List.flatMap_cons, List.take_add, List.flatMap_append,
      List.zip_append]
    rw [hlen, Range.addresses, List.length_range']

/-- The target was written with the data, and nothing else was written. -/
structure Wrote (env : Env) (retry : Bool) (tgt : RangeSet) (d : Disk) (data : List UInt8)
    (t : Disk × List Step) : Prop where
  part : ((Monitor.history (Disk.apply env)).view t).part = (fill env retry tgt.ranges data d).part
  written : written t.2 = (addresses tgt).zip data
  length : data.length ≤ tgt.blocks * BLOCKSIZE

/-- The data that `WriteBlocks` takes from a buffer. -/
def blockData (tgt : RangeSet) (buffer : List Block) : List UInt8 :=
  (buffer.take tgt.blocks).flatMap Block.bytes

theorem wp_writeBlocks_updating {retry : Bool} {buffer : List Block} (hp : Updating retry p)
    (ht : Quiet env d t) :
    wp (.history (Disk.apply env)) (fun _ => True) (writeBlocks env tgt buffer) (fun r t' => ∀ p',
      r = some (true, p') → Wrote env retry tgt d (blockData tgt buffer) t') p t := by
  refine wp_writeBlocks (fun _ _ => trivial) (fun p' _ _ hlen p'' _ => ?_)
    (fun _ _ _ _ _ _ h => by cases h)
    fun _ _ _ _ h => by cases h
  rw [hp.2.2]
  have hbytes : (blockData tgt buffer).length = tgt.blocks * BLOCKSIZE := by
    simp [blockData, Nat.min_eq_left hlen]
  refine ⟨?_, ?_, Nat.le_of_eq hbytes⟩
  · rw [Monitor.view_foldl, foldl_writeSteps tgt.nonempty hlen, part_fill ht.1]
    have htake :
        blockData tgt buffer = (buffer.flatMap Block.bytes).take (tgt.blocks * BLOCKSIZE) := by
      conv => rhs; rw [← List.take_append_drop tgt.blocks buffer, List.flatMap_append]
      exact (List.take_left' hbytes).symm
    rw [htake]
    exact congrArg Disk.part (fill_take tgt.nonempty _).symm
  · obtain ⟨start, log⟩ := t
    rw [Monitor.history_foldl]
    show BlockImg.written (log ++ _) = _
    rw [BlockImg.written, List.flatMap_append, ← BlockImg.written, ← BlockImg.written, ht.2,
      List.nil_append]
    exact written_writeSteps hlen

theorem wp_applyPatch_fill {pieces : List (List UInt8)} {w : RangeSinkWriter} {ok : Bool}
    {Q : Option (Bool × CommandParameters) → Disk × List Step → Prop} (hf : p.faults = [])
    (hw : w.WritesTo tgt) (hin : env.Within tgt)
    (hok : ∀ t', (Monitor.history (Disk.apply env)).view t' =
      fillFrom env p.isRetry w pieces.flatten ((Monitor.history (Disk.apply env)).view t) →
      Q (some (ok, p)) t') (hfail : ∀ t', Q (some (false, p)) t') :
    wp (.history (Disk.apply env)) (fun _ => True) (applyPatch env pieces w ok) Q p t := by
  induction pieces generalizing w t with
  | nil =>
    rw [applyPatch, wp_pure]
    refine hok t ?_
    rw [List.flatten_nil, fillFrom_nil]
  | cons data pieces ih =>
    rw [applyPatch, wp_bind]
    refine wp_write_ok hf (fun _ _ _ _ => trivial) hw (fun b hb => ⟨hin b hb, hb⟩) trivial
      fun w' t' _ hw' _ hfill => ?_
    rw [wpThen_some]
    simp only
    split
    · refine ih hw' fun t'' hview => hok t'' ?_
      have hall := hfill [] pieces.flatten (.inl rfl)
      rw [RangeSinkWriter.andThen_nil, RangeSinkWriter.andThen_nil] at hall
      rw [hview, hall, List.flatten_cons]
    · rw [wp_pure]
      exact hfail t'

theorem wp_applyPatch_updating {retry : Bool} {pieces : List (List UInt8)} {ok : Bool}
    (hp : Updating retry p) (ht : Quiet env d t) (hin : env.Within tgt) :
    wp (.history (Disk.apply env)) (fun _ => True) (applyPatch env pieces (.make tgt) ok)
    (fun r t' => ∀ p',
      r = some (true, p') → Wrote env retry tgt d pieces.flatten t') p t := by
  -- what is stored
  have hfill :
      wp (.history (Disk.apply env)) (fun _ => True) (applyPatch env pieces (.make tgt) ok)
      (fun r t' =>
      ∀ p', r = some (true, p') → (Monitor.history (Disk.apply env)).view t' =
        fill env retry tgt.ranges pieces.flatten ((Monitor.history (Disk.apply env)).view t))
        p t := by
    refine wp_applyPatch_fill hp.1 (RangeSinkWriter.writesTo_make tgt) hin (fun t' hview p' _ => ?_)
      fun _ _ h => by
      cases h
    rw [hp.2.2] at hview
    exact hview
  -- what is written
  have hwritten :
      wp (.history (Disk.apply env)) (fun _ => True) (applyPatch env pieces (.make tgt) ok)
      (fun r t' =>
      ∀ p', r = some (true, p') → pieces.flatten.length ≤ tgt.blocks * BLOCKSIZE ∧
        written t'.2 = (addresses tgt).zip pieces.flatten) p t := by
    have hI := @sinkInvariant_written env tgt []
    refine wp_applyPatch hI (fun _ _ _ => trivial) (RangeSinkWriter.valid_make tgt) (by simp) ht.2
      (fun p' t' _ hle hI' p'' _ => ?_) fun _ _ _ _ _ _ _ h => by cases h
    rw [RangeSinkWriter.addresses_make] at hle hI'
    rw [length_addresses] at hle
    exact ⟨hle, hI'⟩
  refine wp_crash_mono (fun _ _ => trivial) (wp_mono (wp_and hfill hwritten) fun r t' hboth p' hr =>
    ?_)
  obtain ⟨hfill, hwritten⟩ := hboth
  obtain ⟨hlen, hwritten⟩ := hwritten p' hr
  refine ⟨?_, hwritten, hlen⟩
  rw [hfill p' hr, part_fill ht.1]

end

/-! ## Transfers -/

section
variable (env : Env)

/-- The target of a transfer with its hash, as its tokens say. -/
def Command.target : Command → List Text → Option Effect
  | .move, tokens => hashedTarget true tokens
  | .bsdiff, tokens | .imgdiff, tokens => hashedTarget false (tokens.drop 2)
  | _, _ => none

/-- The hashes, the target and the number of source blocks of a transfer, as its tokens say. -/
def Command.Reads (tokens : List Text) (srchash tgthash : Text) (tgt : RangeSet) (blocks : Nat) :
    Command → Prop
  | .move => Targets true tokens srchash tgthash tgt ∧ Counts true tokens blocks
  | .bsdiff | .imgdiff =>
    Targets false (tokens.drop 2) srchash tgthash tgt ∧ Counts false (tokens.drop 2) blocks
  | _ => False

/-- What the patch of the tokens gives for the first blocks of a buffer. -/
def patched (imgdiff : Bool) (blocks : Nat) (tokens : List Text) (buffer : List Block) :
    List UInt8 :=
  match tokens with
  | offset :: len :: _ =>
    match parseUint offset, parseUint len with
    | some offset, some len =>
      (env.patch imgdiff offset len (buffer.take (wrapBlocks blocks))).1.flatten
    | _, _ => []
  | _ => []

/-- What a transfer makes of a buffer: as many blocks of it as the target has, or what the patch
gives. -/
def Command.makes (tgt : RangeSet) (blocks : Nat) (tokens : List Text) (buffer : List Block) :
    Command → List UInt8
  | .move => blockData tgt buffer
  | .bsdiff => patched env false blocks tokens buffer
  | .imgdiff => patched env true blocks tokens buffer
  | _ => []

/-- The condition on a transfer: of every buffer that starts with a source of its source hash, it
makes its target. -/
def Command.MakesTarget (command : Command) (p : CommandParameters) (d : Disk)
    (srchash tgthash : Text) (tgt : RangeSet) (blocks : Nat) : Prop :=
  ∀ source buffer, env.sha1 source = srchash → source <+: buffer →
    FillsTarget env p.isRetry tgthash tgt d (command.makes env tgt blocks p.tokens buffer)

/-- The target has its hash already, or the transfer makes it. -/
def Command.Fits (command : Command) (p : CommandParameters) (d : Disk) (tgthash : Text)
    (tgt : RangeSet) : Prop :=
  env.sha1 (d.read tgt) = tgthash ∨
  ∀ srchash blocks, command.Reads p.tokens srchash tgthash tgt blocks →
    command.MakesTarget env p d srchash tgthash tgt blocks

/-- The source hash of a transfer stands for one source, which has the blocks that the tokens
count. -/
def Command.Unambiguous (command : Command) (p : CommandParameters) (tgthash : Text)
    (tgt : RangeSet) : Prop :=
  ∀ srchash blocks, command.Reads p.tokens srchash tgthash tgt blocks →
    (∀ source source', env.sha1 source = srchash → env.sha1 source' = srchash → source = source') ∧
    ∀ source, env.sha1 source = srchash → wrapBlocks blocks ≤ source.length

/-- Every byte of the target was written by the steps, or the target was verified before them; and
it has the hash after them. -/
def Produced (tgthash : Text) (tgt : RangeSet) (d : Disk) (steps : List Step) : Prop :=
  ((∀ a ∈ addresses tgt, ∃ c, (a, c) ∈ written steps) ∨ env.sha1 (d.read tgt) = tgthash) ∧
    env.sha1 ((steps.foldl (Disk.apply env) d).read tgt) = tgthash

/-- What a transfer has done when it returns 0. -/
inductive Transferred (command : Command) (p : CommandParameters) (d : Disk)
    (t : Disk × List Step) : Prop
  | verified {tgthash : Text} {tgt : RangeSet} :
    command.target p.tokens = some (.hashed tgthash tgt) → env.sha1 (d.read tgt) = tgthash →
    ((Monitor.history (Disk.apply env)).view t).part = d.part → Transferred command p d t
  | wrote {srchash tgthash : Text} {tgt : RangeSet} {blocks : Nat} {buffer : List Block} :
    command.Reads p.tokens srchash tgthash tgt blocks → env.sha1 (d.read tgt) ≠ tgthash →
    StartsWithSource env srchash buffer →
    Wrote env p.isRetry tgt d (command.makes env tgt blocks p.tokens buffer) t →
    Transferred command p d t

end

section
variable {env : Env} {command : Command} {p p₁ : CommandParameters} {d : Disk}
    {t : Disk × List Step}

theorem Transferred.unlink (h : Transferred env command p d t) (id : Text) :
    Transferred env command p d ((Monitor.history (Disk.apply env)).step t (.unlinkStash id)) := by
  cases h with
  | verified htarget hsha hpart =>
    exact .verified htarget hsha ((congrArg _ (Monitor.view_step ..)).trans hpart)
  | wrote hreads hsha hsource hwrote =>
    refine .wrote hreads hsha hsource ⟨(congrArg _ (Monitor.view_step ..)).trans hwrote.part, ?_,
      hwrote.length⟩
    rw [Monitor.history_step, written, List.flatMap_append, ← written, hwrote.written]
    exact List.append_nil _

theorem wp_releaseStash_transferred (h : Transferred env command p d t) :
    wp (.history (Disk.apply env)) (fun _ => True) (do releaseStash env; return true)
    (fun r t' => ∀ p',
      r = some (true, p') → Transferred env command p d t') p₁ t := by
  rw [wp_bind]
  refine wp_releaseStash (fun _ => trivial) fun p' t' _ ht' => ?_
  rw [wpThen_some, wp_pure]
  intro p'' _
  rcases ht' with rfl | ⟨id, rfl⟩
  · exact h
  · exact h.unlink id

theorem wp_afterWrite {x : M env Bool}
    (hx : wp (.history (Disk.apply env)) (fun _ => True) x (fun r t' => ∀ p',
      r = some (true, p') → Transferred env command p d t') p₁ t) :
    wp (.history (Disk.apply env)) (fun _ => True) (do
      if ← x then
        releaseStash env
        return true
      else return false) (fun r t' => ∀ p', r = some (true, p') →
      Transferred env command p d t') p₁ t := by
  rw [wp_bind]
  refine wp_mono hx fun r t' hr => ?_
  rcases r with _ | ⟨_ | _, p'⟩
  · intro p' h
    cases h
  · rw [wpThen_some, if_neg (by simp), wp_pure]
    intro p' h
    cases h
  · rw [wpThen_some, if_pos rfl]
    exact wp_releaseStash_transferred (hr p' rfl)

theorem quiet_start : Quiet env d (d, []) := ⟨rfl, rfl⟩

theorem wp_performCommandMove_transferred (hp : Updating p.isRetry p) :
    wp (.history (Disk.apply env)) (fun _ => True) (performCommandMove env) (fun r t' => ∀ p',
      r = some (true, p') → Transferred env .move p d t') p (d, []) := by
  rw [performCommandMove, wp_bind, wp_get, wpThen_some, wp_bind]
  refine wp_loadSrcTgtVersion3_updating hp quiet_start
    (fun p₁ srchash tgthash tgt hp₁ htgt hsha => ?_)
    (fun p₁ t₁ srchash tgthash tgt blocks hp₁ ht₁ htgt hcount hwithin hsha hsource => ?_)
      fun r t' hfail => ?_
  · rw [wpThen_some]
    simp only [reduceCtorEq, if_false, if_true, wp_bind, wp_modify, wp_get, wpThen_some,
      decide_false, Bool.and_false, Bool.false_eq_true, wp_pure]
    exact wp_bind.mp (wp_releaseStash_transferred (.verified (hashedTarget_eq htgt) hsha rfl))
  · rw [wpThen_some]
    simp only [reduceCtorEq, if_false, wp_bind, wp_modify, wp_get, wpThen_some, decide_true,
      Bool.and_true, hp₁.2.1, if_true]
    refine wp_bind.mp
      (wp_afterWrite (wp_mono (wp_writeBlocks_updating hp₁ ht₁) fun r t' hr p' h => ?_))
    have hreads : Command.Reads p.tokens srchash tgthash tgt blocks .move := ⟨htgt, hcount⟩
    exact .wrote hreads hsha hsource (hr p' h)
  · rcases r with _ | ⟨⟨s, tgt, blocks⟩, p₁⟩
    · intro p' h
      cases h
    · have hs : s = .failed := hfail s tgt blocks p₁ rfl
      rw [wpThen_some]
      simp only [hs, if_true, wp_pure]
      intro p' h
      cases h

theorem wp_performCommandDiff_transferred {imgdiff : Bool} (hp : Updating p.isRetry p)
    (htarget : ∀ tokens, command.target tokens = hashedTarget false (tokens.drop 2))
    (hreads : ∀ srchash tgthash tgt blocks, command.Reads p.tokens srchash tgthash tgt blocks ↔
      Targets false (p.tokens.drop 2) srchash tgthash tgt ∧ Counts false (p.tokens.drop 2) blocks)
    (hmakes : ∀ tgt blocks buffer, command.makes env tgt blocks p.tokens buffer =
      patched env imgdiff blocks p.tokens buffer) :
    wp (.history (Disk.apply env)) (fun _ => True) (performCommandDiff env imgdiff)
    (fun r t' => ∀ p',
      r = some (true, p') → Transferred env command p d t') p (d, []) := by
  have hfailed : ∀ (p₁ : CommandParameters) t', wp (.history (Disk.apply env)) (fun _ => True)
      (return false : M env Bool) (fun r t' => ∀ p', r = some (true, p') →
        Transferred env command p d t') p₁ t' := by
    intro p₁ t'
    rw [wp_pure]
    intro p' h
    cases h
  rw [performCommandDiff, wp_bind, wp_get, wpThen_some]
  rcases htokens : p.tokens with _ | ⟨offset, _ | ⟨len, tokens⟩⟩
  · exact hfailed _ _
  · exact hfailed _ _
  simp only
  rcases hoffset : parseUint offset with _ | o
  · exact hfailed _ _
  rcases hlen : parseUint len with _ | l
  · exact hfailed _ _
  have hdrop : p.tokens.drop 2 = tokens := by
    rw [htokens]
    rfl
  have htarget := htarget p.tokens
  rw [hdrop] at htarget hreads
  rw [wp_bind]
  refine wp_loadSrcTgtVersion3_updating hp quiet_start
    (fun p₁ srchash tgthash tgt hp₁ htgt hsha => ?_)
    (fun p₁ t₁ srchash tgthash tgt blocks hp₁ ht₁ htgt hcount hwithin hsha hsource => ?_)
      fun r t' hfail => ?_
  · rw [wpThen_some]
    simp only [reduceCtorEq, if_false, if_true, wp_bind, wp_modify, wp_get, wpThen_some,
      decide_false, Bool.and_false, Bool.false_eq_true, wp_pure]
    refine wp_bind.mp (wp_releaseStash_transferred (.verified ?_ hsha rfl))
    rw [htarget]
    exact hashedTarget_eq htgt
  · rw [wpThen_some]
    simp only [reduceCtorEq, if_false, wp_bind, wp_modify, wp_get, wpThen_some, decide_true,
      Bool.and_true, hp₁.2.1, if_true]
    refine wp_bind.mp
      (wp_afterWrite (wp_mono (wp_applyPatch_updating hp₁ ht₁ hwithin) fun r t' hr p' h => ?_))
    refine .wrote ((hreads _ _ _ _).mpr ⟨htgt, hcount⟩) hsha hsource ?_
    have hpatched : patched env imgdiff blocks p.tokens p₁.buffer =
        (env.patch imgdiff o l (p₁.buffer.take (wrapBlocks blocks))).1.flatten := by
      unfold patched
      simp only [htokens, hoffset, hlen]
    rw [hmakes, hpatched]
    exact hr p' h
  · rcases r with _ | ⟨⟨s, tgt, blocks⟩, p₁⟩
    · intro p' h
      cases h
    · have hs : s = .failed := hfail s tgt blocks p₁ rfl
      rw [wpThen_some]
      simp only [hs, if_true]
      exact hfailed p₁ t'

/-- A transfer that returns 0 in update mode has found its target verified, or it has written its
data. -/
theorem transferred_of_result {f : M env Bool} {p' : CommandParameters}
    (hf : command.perform env false = some f) (htransfer : command.isTransfer = true)
    (hp : Updating p.isRetry p) (hr : f.result p d = some (true, p')) :
    Transferred env command p d (d, f.steps p d) := by
  suffices hrun :
      wp (.history (Disk.apply env)) (fun _ => True) f (fun r t' => ∀ p', r = some (true, p') →
        Transferred env command p d t') p (d, []) by
    have hend := wp_result hrun p' hr
    rwa [Monitor.history_foldl] at hend
  cases command with
  | move =>
    cases hf
    exact wp_performCommandMove_transferred hp
  | bsdiff | imgdiff =>
    cases hf
    exact wp_performCommandDiff_transferred hp (fun _ => rfl) (fun _ _ _ _ => Iff.rfl) fun _ _ _ =>
      rfl
  | erase | free | new | stash | zero => cases htransfer

theorem mem_written_zip {as : List Nat} {data : List UInt8} {a : Nat}
    (h : data.length ≤ as.length) : (∃ c, (a, c) ∈ as.zip data) ↔ a ∈ as.take data.length := by
  induction as generalizing data with
  | nil => simp
  | cons b as ih =>
    cases data with
    | nil => simp
    | cons c data =>
      rw [List.zip_cons_cons, List.length_cons, List.take_succ_cons, List.mem_cons,
        ← ih (Nat.le_of_succ_le_succ h)]
      constructor
      · rintro ⟨c', hc'⟩
        rcases List.mem_cons.mp hc' with hc' | hc'
        · cases hc'
          exact .inl rfl
        · exact .inr ⟨c', hc'⟩
      · rintro (rfl | ⟨c', hc'⟩)
        · exact ⟨c, List.mem_cons_self⟩
        · exact ⟨c', List.mem_cons_of_mem _ hc'⟩

theorem Targets.unique {onehash : Bool} {tokens : List Text}
    {srchash srchash' tgthash tgthash' : Text}
    {tgt tgt' : RangeSet} (h : Targets onehash tokens srchash tgthash tgt)
    (h' : Targets onehash tokens srchash' tgthash' tgt') :
    srchash = srchash' ∧ tgthash = tgthash' ∧ tgt = tgt' := by
  obtain ⟨s, rest, hs, rfl⟩ := h
  obtain ⟨s', rest', hs', rfl⟩ := h'
  cases hs.symm.trans hs'
  exact ⟨rfl, rfl, rfl⟩

theorem Counts.unique {onehash : Bool} {tokens : List Text} {blocks blocks' : Nat}
    (h : Counts onehash tokens blocks) (h' : Counts onehash tokens blocks') : blocks = blocks' := by
  obtain ⟨_, _, _, count, _, hs, hcount⟩ := h
  obtain ⟨_, _, _, count', _, hs', hcount'⟩ := h'
  cases hs.symm.trans hs'
  exact Option.some.inj (hcount.symm.trans hcount')

section
variable {tokens : List Text} {srchash srchash' tgthash tgthash' : Text} {tgt tgt' : RangeSet}
    {blocks blocks' : Nat}

theorem Command.Reads.target (h : command.Reads tokens srchash tgthash tgt blocks) :
    command.target tokens = some (.hashed tgthash tgt) := by
  cases command with
  | move | bsdiff | imgdiff => exact hashedTarget_eq h.1
  | erase | free | new | stash | zero => cases h

theorem Command.Reads.unique (h : command.Reads tokens srchash tgthash tgt blocks)
    (h' : command.Reads tokens srchash' tgthash' tgt' blocks') :
    srchash = srchash' ∧ blocks = blocks' := by
  cases command with
  | move | bsdiff | imgdiff => exact ⟨(h.1.unique h'.1).1, h.2.unique h'.2⟩
  | erase | free | new | stash | zero => cases h

theorem patched_eq {imgdiff : Bool} {source buffer buffer' : List Block} (h : source <+: buffer)
    (h' : source <+: buffer') (hblocks : wrapBlocks blocks ≤ source.length) :
    patched env imgdiff blocks tokens buffer = patched env imgdiff blocks tokens buffer' := by
  have htake : buffer.take (wrapBlocks blocks) = buffer'.take (wrapBlocks blocks) := by
    obtain ⟨rest, rfl⟩ := h
    obtain ⟨rest', rfl⟩ := h'
    rw [List.take_append_of_le_length hblocks, List.take_append_of_le_length hblocks]
  unfold patched
  rw [htake]

/-- What is made of two buffers that start with one source is the same, if `move` has left the
source in its target. -/
theorem Command.makes_eq {source buffer buffer' : List Block}
    (hreads : command.Reads tokens srchash tgthash tgt blocks) (h : source <+: buffer)
    (h' : source <+: buffer') (hblocks : wrapBlocks blocks ≤ source.length)
    (hmove : srchash = tgthash → tgt.blocks = source.length) :
    command.makes env tgt blocks tokens buffer = command.makes env tgt blocks tokens buffer' := by
  cases command with
  | move =>
    obtain ⟨rest, rfl⟩ := h
    obtain ⟨rest', rfl⟩ := h'
    have hlen := hmove hreads.1.srchash_eq
    rw [makes, makes, blockData, blockData, List.take_left' hlen.symm, List.take_left' hlen.symm]
  | bsdiff | imgdiff => exact patched_eq h h' hblocks
  | erase | free | new | stash | zero => cases hreads

end

/-- A transfer that returns 0 in update mode has produced its target if it fits; and only then, if
its source hash stands for one source. To fill a target that names no block twice is to be as long
as it, with its hash. -/
theorem produced_iff {env : Env} {command : Command} {f : M env Bool} {p p' : CommandParameters}
    {d : Disk}
    (hf : command.perform env false = some f) (htransfer : command.isTransfer = true)
    (hw : p.canwrite = true) (hfaults : p.faults = []) (hr : f.result p d = some (true, p')) :
    ∃ tgthash tgt, command.target p.tokens = some (.hashed tgthash tgt) ∧
      (command.Fits env p d tgthash tgt → Produced env tgthash tgt d (f.steps p d)) ∧
      (command.Unambiguous env p tgthash tgt → Produced env tgthash tgt d (f.steps p d) →
        command.Fits env p d tgthash tgt) ∧
      (tgt.toList.Nodup → ∀ data : List UInt8, data.length ≤ tgt.blocks * BLOCKSIZE →
        (FillsTarget env p.isRetry tgthash tgt d data ↔
          data.length = tgt.blocks * BLOCKSIZE ∧ env.sha1 (blocksOf tgt.blocks data) =
          tgthash)) := by
  cases transferred_of_result hf htransfer ⟨hfaults, hw, rfl⟩ hr with
  | @verified tgthash tgt htarget hsha hpart =>
    have hproduced : Produced env tgthash tgt d (f.steps p d) := by
      have hpart : ((f.steps p d).foldl (Disk.apply env) d).part = d.part := hpart
      refine ⟨.inr hsha, ?_⟩
      rw [Disk.read_congr hpart]
      exact hsha
    exact ⟨tgthash, tgt, htarget, fun _ => hproduced, fun _ _ => .inl hsha, fun hnodup _ =>
      fillsTarget_iff hnodup⟩
  | @wrote srchash tgthash tgt blocks buffer hreads hsha hsource hwrote =>
    have hall : (∀ a ∈ addresses tgt, ∃ c, (a, c) ∈ written (f.steps p d)) ↔
        ∀ a ∈ addresses tgt,
        a ∈ (addresses tgt).take (command.makes env tgt blocks p.tokens buffer).length := by
      refine forall₂_congr fun a _ => ?_
      rw [show written (f.steps p d) = _ from hwrote.written]
      refine mem_written_zip ?_
      rw [length_addresses]
      exact hwrote.length
    have hproduced : Produced env tgthash tgt d (f.steps p d) ↔
        FillsTarget env p.isRetry tgthash tgt d (command.makes env tgt blocks p.tokens buffer) := by
      rw [Produced, hall, or_iff_left hsha, FillsTarget,
        show ((f.steps p d).foldl (Disk.apply env) d).read tgt =
        _ from Disk.read_congr hwrote.part tgt]
    refine ⟨tgthash, tgt, hreads.target, fun hfits => ?_, fun hone h =>
      .inr fun srchash' blocks' hreads' => ?_, fun hnodup _ => fillsTarget_iff hnodup⟩
    · obtain ⟨source, hsource, hprefix⟩ := hsource
      exact hproduced.mpr (hfits.resolve_left hsha _ _ hreads source buffer hsource hprefix)
    · obtain ⟨rfl, rfl⟩ := hreads.unique hreads'
      obtain ⟨hunique, hcount⟩ := hone srchash blocks hreads
      obtain ⟨source, hsource, hprefix⟩ := hsource
      intro source' buffer' hsource' hprefix'
      cases hunique source source' hsource hsource'
      -- a move has left its source in the target
      have hmove : srchash = tgthash → tgt.blocks = source.length := fun heq => by
        rw [hunique source _ hsource (h.2.trans heq.symm), Disk.length_read]
      rw [← command.makes_eq hreads hprefix hprefix' (hcount source hsource) hmove]
      exact hproduced.mp h

/-- Block 0 is moved to block 1. -/
def moveOne : CommandParameters :=
  { CommandParameters.start with
    canwrite := true, tokens :=
      [['b'], ['2', ',', '1', ',', '2'], ['1'], ['2', ',', '0', ',', '1']] }

/-- A patch from block 0 to block 1. -/
def patchOne : CommandParameters :=
  { CommandParameters.start with
    canwrite := true
    tokens :=
      [['0'], ['0'], ['b'], ['a', 'b'], ['2', ',', '1', ',', '2'], ['1'],
        ['2', ',', '0', ',', '1']] }

/-- A device on which every patch gives block 1. -/
def Env.onePatch : Env := { Env.small with patch := fun _ _ _ _ => ([Block.bytes 1], true) }

theorem blocksOf_bytes (v : Block) : blocksOf 1 (Block.bytes v) = [v] := by
  rw [blocksOf, blocksOf, List.take_of_length_le (by simp), Block.ofBytes_bytes]

/-- A move and a patch fill their targets. -/
theorem produced_moveAndPatch :
    Produced .small ['b'] (RangeSet.parse ['2', ',', '1', ',', '2']) (.start [0, 1])
      ((performCommandMove .small).steps moveOne (.start [0, 1])) ∧
    Produced .onePatch ['a', 'b'] (RangeSet.parse ['2', ',', '1', ',', '2']) (.start [])
      ((performCommandDiff .onePatch false).steps patchOne (.start [])) := by
  have hblocks : (RangeSet.parse ['2', ',', '1', ',', '2']).blocks = 1 := by decide
  have hnodup : (RangeSet.parse ['2', ',', '1', ',', '2']).toList.Nodup := by decide
  constructor
  · have hresult : ((performCommandMove .small).result moveOne (.start [0, 1])).map Prod.fst =
        some true := by
      decide +kernel
    obtain ⟨⟨_, p'⟩, hr, rfl⟩ := Option.map_eq_some_iff.mp hresult
    obtain ⟨tgthash, tgt, htarget, hproduced, -, hfills⟩ :=
      @produced_iff .small .move _ moveOne p' _ rfl rfl rfl rfl hr
    have htarget' : Command.target .move moveOne.tokens =
        some (.hashed ['b'] (RangeSet.parse ['2', ',', '1', ',', '2'])) := rfl
    cases htarget'.symm.trans htarget
    refine hproduced (.inr fun srchash blocks hreads source buffer hsource hprefix => ?_)
    -- the source is block 0
    have hzero : unaryHash [0] = srchash := by
      rw [hreads.1.srchash_eq]
      decide +kernel
    have hsource : unaryHash source = srchash := hsource
    rw [← hzero] at hsource
    cases unaryHash_injective hsource
    obtain ⟨rest, rfl⟩ := hprefix
    have hmakes :
        Command.makes .small (RangeSet.parse ['2', ',', '1', ',', '2']) blocks moveOne.tokens
        ([0] ++ rest) .move = Block.bytes 0 := by
      rw [Command.makes, blockData, hblocks]
      exact List.append_nil _
    rw [hmakes]
    refine (hfills hnodup _ (by rw [hblocks, Block.length_bytes, Nat.one_mul])).mpr ?_
    rw [hblocks, blocksOf_bytes, Block.length_bytes, Nat.one_mul]
    exact ⟨rfl, by decide +kernel⟩
  · have hresult : ((performCommandDiff .onePatch false).result patchOne (.start [])).map Prod.fst =
        some true := by
      decide +kernel
    obtain ⟨⟨_, p'⟩, hr, rfl⟩ := Option.map_eq_some_iff.mp hresult
    obtain ⟨tgthash, tgt, htarget, hproduced, -, hfills⟩ :=
      @produced_iff .onePatch .bsdiff _ patchOne p' _ rfl rfl rfl rfl hr
    have htarget' : Command.target .bsdiff patchOne.tokens =
        some (.hashed ['a', 'b'] (RangeSet.parse ['2', ',', '1', ',', '2'])) := rfl
    cases htarget'.symm.trans htarget
    refine hproduced (.inr fun srchash blocks hreads source buffer hsource hprefix => ?_)
    have hmakes :
        Command.makes .onePatch (RangeSet.parse ['2', ',', '1', ',', '2']) blocks patchOne.tokens
        buffer .bsdiff = Block.bytes 1 := by
      have hnumber : parseUint ['0'] = some 0 := by decide
      unfold Command.makes patched
      simp only [patchOne, hnumber]
      rw [Env.onePatch]
      exact List.flatten_singleton
    rw [hmakes]
    refine (hfills hnodup _ (by rw [hblocks, Block.length_bytes, Nat.one_mul])).mpr ?_
    rw [hblocks, blocksOf_bytes, Block.length_bytes, Nat.one_mul]
    exact ⟨rfl, by decide +kernel⟩

/-- A device on which every patch succeeds with no bytes at all. -/
def Env.emptyPatch : Env := { Env.small with patch := fun _ _ _ _ => ([], true) }

/-- A patch that gives no bytes leaves the target as it was, and the command returns 0. -/
theorem not_produced_patchOne :
    ((performCommandDiff .emptyPatch false).result patchOne (.start [])).map Prod.fst = some true ∧
    Command.target .bsdiff patchOne.tokens =
    some (.hashed ['a', 'b'] (RangeSet.parse ['2', ',', '1', ',', '2'])) ∧
    ¬Produced .emptyPatch ['a', 'b'] (RangeSet.parse ['2', ',', '1', ',', '2']) (.start [])
      ((performCommandDiff .emptyPatch false).steps patchOne (.start [])) := by
  refine ⟨by decide +kernel, rfl, fun h => ?_⟩
  have hsha :
      Env.emptyPatch.sha1
      ((((performCommandDiff .emptyPatch false).steps patchOne (.start [])).foldl
        (Disk.apply .emptyPatch) (.start [])).read (RangeSet.parse ['2', ',', '1', ',', '2'])) =
        ['b'] := by decide +kernel
  cases hsha.symm.trans h.2

end

end BootableRecovery.BlockImg
