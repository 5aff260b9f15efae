import BootableRecovery.Updater.Rules
import BootableRecovery.Updater.Marks

/-!
# Rules for loading a source

`LoadSrcTgtVersion3` without the branch that stashes an overlapping source: what its status says
about the target and about the buffer.
-/

namespace BootableRecovery.BlockImg

variable {env : Env} {τ : Type} {Mo : Monitor (Disk.apply env) τ} {C : τ → Prop}
    {p : CommandParameters}
variable {t : τ} {tokens : List Text} {onehash : Bool}

/-- The hashes and the target at the start of the tokens. -/
def Targets (onehash : Bool) (tokens : List Text) (srchash tgthash : Text) (tgt : RangeSet) :
    Prop :=
  ∃ s rest, splitHashes onehash tokens = some (srchash, tgthash, s :: rest) ∧ RangeSet.parse s = tgt

/-- The number of source blocks after the target. -/
def Counts (onehash : Bool) (tokens : List Text) (blocks : Nat) : Prop :=
  ∃ srchash tgthash tgt count rest,
    splitHashes onehash tokens = some (srchash, tgthash, tgt :: count :: rest) ∧
    parseUint count = some blocks

theorem loadSourceBlocks_count {tgt : RangeSet} {count src : Text} {d : Disk} {r : Nat × Bool}
    {p' : CommandParameters}
    (h : (loadSourceBlocks env tgt count src tokens).result p d = some (some r, p')) :
    parseUint count = some r.1 := by
  have hw : wp (Monitor.plain (Disk.apply env)) (fun _ => True)
      (loadSourceBlocks env tgt count src tokens)
      (fun x _ => ∀ r p', x = some (some r, p') → parseUint count = some r.1) p d := by
    unfold loadSourceBlocks
    split
    · simp
    · rename_i blocks hblocks
      simp only [wp_bind, wp_modify, wpThen_some]
      refine confined_loadSourceRanges.wp (P := fun _ => True) (fun _ _ _ _ => trivial) trivial
        fun x d' _ _ => ?_
      rcases x with _ | ⟨_ | ⟨overlap, rest⟩, p''⟩
      · simp
      · simp
      · simp only [wpThen_some, wp_bind]
        refine confined_loadStashes.wp (P := fun _ => True) (fun _ _ _ _ => trivial) trivial
          fun x d' _ _ => ?_
        rcases x with _ | ⟨_ | _, p''⟩
        · simp
        · simp
        · simp only [wpThen_some, if_true, wp_pure]
          rintro r p₃ ⟨⟩
          exact hblocks
  exact wp_result hw r p' h

/-- What `loadTgtSrc` has found out. -/
def TgtSrcFacts (env : Env) (tokens : List Text) (onehash : Bool) (d : Disk) :
    Option (((LoadStatus × RangeSet) ⊕ LoadedSource) × CommandParameters) → Prop
  | none => True
  | some (.inl (.failed, _), _) => True
  | some (.inl (.ready, _), _) => False
  | some (.inl (.done, tgt), _) => ∃ srchash tgthash, Targets onehash tokens srchash tgthash tgt ∧
      env.sha1 (d.read tgt) = tgthash
  | some (.inr l, _) => ∃ tgthash, Targets onehash tokens l.srchash tgthash l.tgt ∧
      Counts onehash tokens l.blocks ∧ env.Within l.tgt ∧ env.sha1 (d.read l.tgt) ≠ tgthash

theorem loadTgtSrc_facts (env : Env) (tokens : List Text) (onehash : Bool) (p : CommandParameters)
    (d : Disk) :
    TgtSrcFacts env tokens onehash d ((loadTgtSrc env tokens onehash).result p d) := by
  suffices h : wp (Monitor.plain (Disk.apply env)) (fun _ => True) (loadTgtSrc env tokens onehash)
      (fun r _ => TgtSrcFacts env tokens onehash d r) p d from wp_result h
  unfold loadTgtSrc
  split
  · rename_i srchash tgthash tgt count src rest htok
    have htgt : Targets onehash tokens srchash tgthash (RangeSet.parse tgt) := ⟨_, _, htok, rfl⟩
    simp only [parseRanges, wp_bind]
    split
    · simp only [wp_pure, wpThen_some, wp_bind]
      refine wp_readBlocks (fun p' _ hwithin _ => ?_) (fun _ p' buffer _ _ => ?_) (fun _ => trivial)
      · simp only [wpThen_some, Bool.not_true, Bool.false_eq_true, if_false, wp_bind,
          Monitor.plain_view]
        refine wp_verifyBlocks (fun _ => ?_) (fun _ => trivial)
        rw [List.take_left' (by simp)]
        simp only [wpThen_some]
        split
        · rename_i hsha
          exact wp_pure.mpr ⟨_, _, htgt, by simpa using hsha⟩
        · rename_i hsha
          rw [wp_bind]
          have hsource : (loadSourceBlocks env (RangeSet.parse tgt) count src rest).Confined
              (fun _ => False) CommandParameters.frame := confined_loadSourceBlocks
          refine wp_of_steps_eq_nil hsource.steps_eq_nil ?_
          rw [Monitor.plain_view]
          rcases hr : (loadSourceBlocks env (RangeSet.parse tgt) count src rest).result p' d with
            _ | ⟨_ | ⟨blocks, overlap⟩, p''⟩
          · trivial
          · simp [TgtSrcFacts]
          · simp only [wpThen_some, wp_pure]
            exact ⟨_, htgt, ⟨_, _, _, _, _, htok, loadSourceBlocks_count hr⟩, hwithin,
              by simpa using hsha⟩
      · simp [TgtSrcFacts]
    · simp [TgtSrcFacts]
  · simp [TgtSrcFacts]

/-- What the buffer has when the source is ready in update mode: the first blocks of it, as many as
the source has or as a stash of it has, have the hash of the source. -/
def SourceReady (env : Env) (d : Disk) (srchash : Text) (blocks : Nat) (buffer : List Block) :
    Prop :=
  ∃ n ≤ buffer.length, env.sha1 (buffer.take n) = srchash ∧
    (n = wrapBlocks blocks ∨ ∃ f, d.stashFile srchash = some f ∧ n = f.blocks.length)

theorem wp_recoverSource {l : LoadedSource} {Q : Option (LoadStatus × CommandParameters) → τ → Prop}
    (hunlink : C (Mo.step t (.unlinkStash (getStashFileName env l.srchash))))
    (hready : ∀ p', p'.frame = p.frame →
      (p.canwrite = true → SourceReady env (Mo.view t) l.srchash l.blocks p'.buffer) →
      Q (some (.ready, p')) t)
    (hfail : ∀ r t', (∀ s p', r = some (s, p') → s = .failed) →
      t' = t ∨ t' = Mo.step t (.unlinkStash (getStashFileName env l.srchash)) → Q r t') :
    wp Mo C (recoverSource env l) Q p t := by
  have hfailed : ∀ p' t', t' = t ∨ t' = Mo.step t (.unlinkStash (getStashFileName env l.srchash)) →
      wp Mo C (do
        printHashForCorruptedSourceBlocks env l.src l.tokens
        Prog.modify fun p => { p with isunresumable := true }
        return .failed) Q p' t' := by
    intro p' t' ht
    have hprint : (printHashForCorruptedSourceBlocks env l.src l.tokens).Confined (fun _ => False)
      CommandParameters.frame := confined_printSource
    rw [wp_bind]
    refine wp_of_steps_eq_nil hprint.steps_eq_nil ?_
    rcases (printHashForCorruptedSourceBlocks env l.src l.tokens).result p' (Mo.view t') with
      _ | ⟨_, p''⟩
    · exact hfail none t' (by simp) ht
    · simpa using hfail (some (.failed, _)) t' (by simp) ht
  simp only [recoverSource, loadImplicitStash, wp_bind]
  split
  · simp only [wp_bind, wp_get, wpThen_some, loadStash]
    split
    · rename_i src hsrc
      refine wp_loadStashFromSource (fun p' hp _ _ => ?_) (fun _ p' buffer hp => ?_) (fun _ _ => ?_)
      · have hw : p.canwrite = false := by
          cases hw : p.canwrite
          · rfl
          · simp [hw] at hsrc
        simp only [wpThen_some, wp_bind, wp_modify, wp_pure, if_true]
        refine hready _ ?_ (by simp [hw])
        obtain ⟨⟨_, rfl⟩, -⟩ := hp
        rfl
      · simpa using hfailed _ t (.inl rfl)
      · exact hfail none t (by simp) (.inl rfl)
    · refine wp_loadStashFile rfl (fun p' f hp hf _ hsha => ?_) (fun _ p' buffer hp _ _ => ?_)
        (fun f _ _ _ _ => ⟨hunlink, fun p' buffer hp _ => ?_⟩) (fun _ _ _ _ _ _ _ => ?_)
      · simp only [wpThen_some, wp_bind, wp_modify, wp_pure, if_true]
        rw [getStashFileName_of_sha1 (hsha rfl)] at hf
        refine hready _ ?_ fun _ => ⟨f.blocks.length, by simp, ?_, .inr ⟨f, hf, rfl⟩⟩
        · obtain ⟨⟨_, rfl⟩, -⟩ := hp
          rfl
        · rw [List.take_left]
          exact hsha rfl
      · simpa using hfailed _ t (.inl rfl)
      · simpa using hfailed _ _ (.inr rfl)
      · exact hfail none t (by simp) (.inl rfl)
  · simpa using hfailed p t (.inl rfl)

/-- The branch of `LoadSrcTgtVersion3` that stashes an overlapping source, and saves the index of
the command. -/
def StashesSource (env : Env) (tokens : List Text) (onehash : Bool) (d : Disk)
    (p : CommandParameters) : Prop :=
  p.canwrite = true ∧ ∃ l p', (loadTgtSrc env tokens onehash).result p d = some (.inr l, p') ∧
    l.overlap = true ∧ env.sha1 (p'.buffer.take (wrapBlocks l.blocks)) = l.srchash

theorem wp_loadSrcTgtVersion3
    {Q : Option ((LoadStatus × RangeSet × Nat) × CommandParameters) → τ → Prop}
    (hnostash : ¬StashesSource env tokens onehash (Mo.view t) p)
    (hunlink : ∀ id, C (Mo.step t (.unlinkStash id)))
    (hdone : ∀ p' srchash tgthash tgt, p'.frame = p.frame →
      Targets onehash tokens srchash tgthash tgt → env.sha1 ((Mo.view t).read tgt) = tgthash →
      Q (some ((.done, tgt, 0), p')) t)
    (hready : ∀ p' srchash tgthash tgt blocks, p'.frame = p.frame →
      Targets onehash tokens srchash tgthash tgt → Counts onehash tokens blocks →
      (p.canwrite = true → SourceReady env (Mo.view t) srchash blocks p'.buffer) →
      Q (some ((.ready, tgt, blocks), p')) t)
    (hfail : ∀ r t', (∀ s tgt blocks p', r = some ((s, tgt, blocks), p') → s = .failed) →
      t' = t ∨ (∃ id, t' = Mo.step t (.unlinkStash id)) → Q r t') :
    wp Mo C (loadSrcTgtVersion3 env tokens onehash) Q p t := by
  have hsteps : (loadTgtSrc env tokens onehash).Confined (fun _ => False) CommandParameters.frame :=
    confined_loadTgtSrc
  rw [loadSrcTgtVersion3, wp_bind]
  refine wp_of_steps_eq_nil hsteps.steps_eq_nil ?_
  have hfacts := loadTgtSrc_facts env tokens onehash p (Mo.view t)
  have hframe := (hsteps p (Mo.view t)).2
  have hstash : p.canwrite = true → ∀ l p',
      (loadTgtSrc env tokens onehash).result p (Mo.view t) = some (.inr l, p') →
      l.overlap = true → env.sha1 (p'.buffer.take (wrapBlocks l.blocks)) ≠ l.srchash :=
    fun hw l p' hr ho heq => hnostash ⟨hw, l, p', hr, ho, heq⟩
  rcases hr : (loadTgtSrc env tokens onehash).result p (Mo.view t) with _ | ⟨⟨s, tgt⟩ | l, p'⟩
  · exact hfail none t (by simp) (.inl rfl)
  · rw [hr] at hfacts hframe
    simp only [wpThen_some, wp_pure]
    cases s with
    | failed => exact hfail _ t (by rintro _ _ _ _ ⟨⟩; rfl) (.inl rfl)
    | ready => cases hfacts
    | done =>
      obtain ⟨srchash, tgthash, htgt, hsha⟩ := hfacts
      exact hdone p' srchash tgthash tgt (hframe _ _ rfl) htgt hsha
  · rw [hr] at hfacts hframe
    obtain ⟨tgthash, htgt, hcount, -⟩ := hfacts
    have hframe := hframe _ _ rfl
    have hcan : p'.canwrite = p.canwrite := congrArg (fun f => f.1.2.2.1) hframe
    simp only [wpThen_some, wp_bind, wp_get]
    refine wp_verifyBlocks (fun hlen => ?_) (fun _ => hfail none t (by simp) (.inl rfl))
    simp only [wpThen_some]
    split
    · -- the source has its hash
      rename_i hsha
      have hsha : env.sha1 (p'.buffer.take (wrapBlocks l.blocks)) = l.srchash := by simpa using hsha
      have hnot : (l.overlap && p'.canwrite) = false := by
        rw [hcan, Bool.eq_false_iff]
        exact fun h =>
          hstash (Bool.and_eq_true_iff.mp h).2 l p' hr (Bool.and_eq_true_iff.mp h).1 hsha
      simp only [stashSource, wp_bind, wp_get, wpThen_some, hnot, Bool.false_eq_true,
        if_false, wp_pure]
      exact hready p' l.srchash tgthash l.tgt l.blocks hframe htgt hcount
        fun _ => ⟨_, hlen, hsha, .inl rfl⟩
    · rw [wp_bind]
      refine wp_recoverSource (hunlink _) (fun p'' hp hr => ?_) (fun r t' hr ht => ?_)
      · simp only [wpThen_some, wp_pure]
        exact hready p'' l.srchash tgthash l.tgt l.blocks (hp.trans hframe) htgt hcount
          fun hw => hr (hcan.trans hw)
      · have ht : t' = t ∨ ∃ id, t' = Mo.step t (.unlinkStash id) := ht.imp_right fun h => ⟨_, h⟩
        rcases r with _ | ⟨s, p''⟩
        · exact hfail none t' (by simp) ht
        · have hs : s = .failed := hr s p'' rfl
          simp only [wpThen_some, wp_pure, hs]
          exact hfail _ t' (by rintro _ _ _ _ ⟨⟩; rfl) ht

/-- The rest of `PerformCommandMove` and `PerformCommandDiff` when the source is loaded. -/
def afterLoad (env : Env) (status : LoadStatus) (write : CommandParameters → M env Bool) :
    M env Bool :=
  if status = .failed then return false
  else do
    Prog.modify fun p => if status = .done then { p with targetVerified := true } else p
    let p ← Prog.get
    if ← (if p.canwrite && status = .ready then write p else pure true) then
      releaseStash env
      return true
    else return false

theorem performCommandMove_eq : performCommandMove env = (do
    let (status, tgt, _) ← loadSrcTgtVersion3 env (← Prog.get).tokens true
    afterLoad env status (fun p => writeBlocks env tgt p.buffer)) := rfl

theorem wp_releaseStash {Q : Option (Unit × CommandParameters) → τ → Prop}
    (hC : ∀ id, C (Mo.step t (.unlinkStash id)))
    (hQ : ∀ p' t', p'.frame = p.frame → t' = t ∨ (∃ id, t' = Mo.step t (.unlinkStash id)) →
      Q (some ((), p')) t') :
    wp Mo C (releaseStash env) Q p t := by
  simp only [releaseStash, wp_bind, wp_get, wpThen_some]
  split
  · simp only [freeStash, wp_bind]
    split
    · simp only [wp_pure, wpThen_some, wp_modify]
      exact hQ { p with freestash := [] } t rfl (.inl rfl)
    · simp only [wp_bind]
      have hframe : ∀ {p'}, Faulted p p' → { p' with freestash := [] }.frame = p.frame := by
        rintro p' ⟨⟨_, rfl⟩, -⟩
        rfl
      refine wp_deleteFile (hC _) (fun p' hp => ?_) (fun _ p' hp => ?_)
      · simpa using hQ _ _ (hframe hp) (.inr ⟨_, rfl⟩)
      · simpa using hQ _ t (hframe hp) (.inl rfl)
  · simpa using hQ p t rfl (.inl rfl)

end BootableRecovery.BlockImg
