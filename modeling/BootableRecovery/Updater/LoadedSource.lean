import BootableRecovery.Updater.SourceBuffer

/-!
# Loading a source that is there

`LoadSrcTgtVersion3` when no system call fails and the source can be had: the target is done, or the
source is in the buffer at the end. A source that an interrupted command has partly overwritten
comes from the stash that the command has made of it; an overlapping source is stashed before the
command goes on.
-/

namespace BootableRecovery.BlockImg

variable {env : Env} {C : Disk → Prop} {p : CommandParameters} {d : Disk}

/-! ## Stash files -/

theorem stashFile_renameStash (env : Env) (id : Text) (blocks : List Block)
    (hstash : d.stash.isSome = true) (id' : Text) :
    (d.apply env (.renameStash id blocks)).stashFile id' =
      if id' = id then some ⟨blocks, ⟨0, by decide⟩⟩ else d.stashFile id' := by
  obtain ⟨files, hfiles⟩ := Option.isSome_iff_exists.mp hstash
  simp only [Disk.stashFile, Disk.apply, hfiles, Option.map_some, Option.bind_some,
    List.lookup_cons]
  split_ifs with h
  · simp [h]
  · rw [beq_false_of_ne h, lookup_filter_ne h]

/-- Where there is a stash directory, `WriteStash` finds the file or makes it. -/
theorem wp_writeStash_made {id : Text} {blocks : List Block} {checkspace reuse : Bool}
    {Q : Option ((Bool × Bool) × CommandParameters) → Disk → Prop} (hf : p.faults = [])
    (hname : getStashFileName env id = id) (hstash : d.stash.isSome = true)
    (hexists : reuse = true → (d.stashFile id).isSome = true → Q (some ((true, true), p)) d)
    (hcreate : (reuse = true → d.stashFile id = none) → C (d.apply env (.renameStash id blocks)) ∧
      Q (some ((true, false), p)) (d.apply env (.renameStash id blocks))) :
    wp (.plain (Disk.apply env)) C (writeStash env id blocks checkspace reuse) Q p d := by
  have hnone : d.stash.isNone = false := by rw [← Option.not_isSome, hstash]; rfl
  -- the part after the test for an existing file
  have hmake : (reuse = true → d.stashFile id = none) →
      wp (.plain (Disk.apply env)) C (do return (← createStashFile env id blocks, false))
      Q p d := by
    intro h
    obtain ⟨hC, hQ⟩ := hcreate h
    simp only [createStashFile, wp_bind, wp_disk, Monitor.plain_view, wpThen_some, hnone,
      Bool.false_eq_true, if_false, hname]
    refine wp_syscalls (fun p' hp => ?_) fun h => absurd hf h
    cases hp.eq hf
    simp only [wpThen_some, if_true, wp_bind, wp_emit_step]
    refine ⟨hC, wp_syscalls (fun p' hp => ?_) fun h => absurd hf h⟩
    cases hp.eq hf
    simpa using hQ
  have hrest : wp (.plain (Disk.apply env)) C (do
      if reuse then
        let d ← disk env
        if (← syscall env) && (d.stashFile id).isSome then return (true, true)
        else return (← createStashFile env id blocks, false)
      else return (← createStashFile env id blocks, false)) Q p d := by
    split
    · rename_i hreuse
      simp only [wp_bind, wp_disk, wpThen_some, Monitor.plain_view]
      refine wp_syscall (fun p' hp => ?_) fun h => absurd hf h
      cases hp.eq hf
      simp only [wpThen_some, Bool.true_and]
      split
      · rename_i hsome
        rw [wp_pure]
        exact hexists hreuse hsome
      · rename_i hsome
        exact hmake fun _ => by simpa using hsome
    · rename_i hreuse
      exact hmake fun h => absurd h hreuse
  simp only [writeStash, wp_bind, hname]
  split
  · refine wp_syscall (fun p' hp => ?_) fun h => absurd hf h
    cases hp.eq hf
    simpa only [wpThen_some, if_true, wp_bind] using hrest
  · simpa only [wp_pure, wpThen_some, if_true, wp_bind] using hrest

/-! ## What loading leaves -/

/-- The stash of an overlapping source, when the command goes on: the name of the stash that it has
to free at its end, and the storage. -/
inductive Stashed (env : Env) (t : Transfer) (content : List Block) (p : CommandParameters)
    (d : Disk) : Text → Disk → Prop
  | kept : (t.overlap = true → p.canwrite = true → (d.stashFile t.srchash).isSome = true) →
    Stashed env t content p d p.freestash d
  | found : t.overlap = true → p.canwrite = true → (d.stashFile t.srchash).isSome = true →
    Stashed env t content p d p.freestash
    (d.apply env (.renameLast (lastCommandContent p.cmdindex p.cmdline)))
  | created : t.overlap = true → p.canwrite = true → d.stashFile t.srchash = none →
    Stashed env t content p d t.srchash ((d.apply env (.renameStash t.srchash content)).apply env
      (.renameLast (lastCommandContent p.cmdindex p.cmdline)))

/-- The source of the transfer can be had: its stashes can be loaded, and its ranges are as in the
image or it was stashed itself. -/
structure Available (env : Env) (S : Image) (t : Transfer) (content : List Block)
    (p : CommandParameters) (d : Disk) : Prop where
  gathers : t.source.Gathers env S content
  hash : env.sha1 content = t.srchash
  within : ∀ ranges, t.source.ranges = some ranges → env.Within ranges
  stashes : ∀ x ∈ t.source.stashes, ∃ blocks, Offers env p d x.1 blocks
  ranges : (∀ ranges, t.source.ranges = some ranges → d.read ranges = S.read ranges) ∨
    t.overlap = true ∧ Offers env p d t.srchash content

variable {S : Image} {t : Transfer} {content : List Block}

theorem wp_stashSource_stashed {l : LoadedSource}
    {Q : Option (LoadStatus × CommandParameters) → Disk → Prop}
    (hf : p.faults = []) (hhash : env.sha1 content = t.srchash) (hsrchash : l.srchash = t.srchash)
    (hoverlap : l.overlap = t.overlap)
    (hcontent : p.buffer.take (wrapBlocks l.blocks) = content)
    (hstash : p.canwrite = true → d.stash.isSome = true)
    (hC : ∀ fs d', Stashed env t content p d fs d' → C d')
    (hrename : t.overlap = true → p.canwrite = true → d.stashFile t.srchash = none →
      C (d.apply env (.renameStash t.srchash content)))
    (hQ : ∀ fs d', Stashed env t content p d fs d' →
      Q (some (.ready, { p with freestash := fs })) d') :
    wp (.plain (Disk.apply env)) C (stashSource env l) Q p d := by
  rw [stashSource, wp_bind, wp_get, wpThen_some, hsrchash, hoverlap, hcontent]
  split
  · rename_i hboth
    obtain ⟨hover, hwrite⟩ := Bool.and_eq_true_iff.mp hboth
    rw [wp_bind]
    refine wp_writeStash_made hf (getStashFileName_of_sha1 hhash) (hstash hwrite)
      (fun _ hsome => ?_) fun hnone => ?_
    · have hfound : Stashed env t content p d _ _ := .found hover hwrite hsome
      simp only [wpThen_some, if_true, wp_bind]
      refine wp_updateLastCommandIndex (hC _ _ hfound) (fun p' r hp => ?_) fun h => absurd hf h
      cases hp.eq hf
      simpa using hQ _ _ hfound
    · have hcreated : Stashed env t content p d _ _ := .created hover hwrite (hnone rfl)
      refine ⟨hrename hover hwrite (hnone rfl), ?_⟩
      simp only [wpThen_some, if_true, wp_bind]
      refine wp_updateLastCommandIndex (hC _ _ hcreated) (fun p' r hp => ?_) fun h => absurd hf h
      cases hp.eq hf
      simpa using hQ _ _ hcreated
  · rename_i hboth
    rw [wp_pure]
    exact hQ _ _ (.kept fun hover hwrite => absurd (Bool.and_eq_true_iff.mpr ⟨hover, hwrite⟩) hboth)

theorem wp_loadTgtSrc_available {onehash : Bool} {tokens : List Text}
    {Q : Option (((LoadStatus × RangeSet) ⊕ LoadedSource) × CommandParameters) → Disk → Prop}
    (hinj : Function.Injective env.sha1) (hf : p.faults = [])
    (hdecode : Transfer.decode onehash tokens = some t) (htgt : env.Within t.tgt)
    (havailable : env.sha1 (d.read t.tgt) ≠ t.tgthash → Available env S t content p d)
    (hdone : env.sha1 (d.read t.tgt) = t.tgthash → Q (some (.inl (.done, t.tgt), p)) d)
    (hloaded : ∀ (l : LoadedSource) (buffer : List Block), env.sha1 (d.read t.tgt) ≠ t.tgthash →
      l.tgt = t.tgt → l.srchash = t.srchash → l.blocks = t.source.count → l.overlap = t.overlap →
      t.source.count ≤ buffer.length →
      ((∀ ranges, t.source.ranges = some ranges → d.read ranges = S.read ranges) →
        buffer.take t.source.count = content) →
      Q (some (.inr l, { p with buffer })) d) :
    wp (.plain (Disk.apply env)) C (loadTgtSrc env tokens onehash) Q p d := by
  rw [Transfer.decode] at hdecode
  split at hdecode
  · rename_i srchash tgthash tgt count src rest htok
    obtain ⟨tgt', htgt', hdecode⟩ := Option.bind_eq_some_iff.mp hdecode
    obtain ⟨source, hsource, hdecode⟩ := Option.bind_eq_some_iff.mp hdecode
    cases hdecode
    rw [loadTgtSrc, htok]
    simp only [wp_bind, parseRanges_eq htgt', wp_pure, wpThen_some]
    refine wp_readBlocks (fun p' hp _ _ => ?_) (fun hbad => absurd htgt (hbad hf)) fun h => ?_
    · cases hp.eq hf
      simp only [wpThen_some, Bool.not_true, Bool.false_eq_true, if_false, Monitor.plain_view,
        wp_bind]
      refine wp_verifyBlocks (fun _ => ?_) fun h => ?_
      · rw [List.take_left' (Disk.length_read _ _)]
        simp only [wpThen_some]
        split
        · rename_i hsha
          rw [wp_pure]
          exact hdone (by simpa using hsha)
        · rename_i hsha
          have hsha : env.sha1 (d.read tgt') ≠ tgthash := by simpa using hsha
          obtain ⟨hgathers, -, hwithin, hstashes, -⟩ := havailable hsha
          rw [wp_bind]
          refine wp_loadSourceBlocks_gathers hinj hf hsource hgathers hwithin hstashes
            fun buffer hlen hsame => ?_
          simp only [wpThen_some, wp_pure]
          exact hloaded _ buffer hsha rfl rfl rfl rfl hlen hsame
      · rw [List.length_append, Disk.length_read] at h
        omega
    · simp at h
  · cases hdecode

theorem wp_loadSrcTgtVersion3_available (content : List Block) {onehash : Bool} {tokens : List Text}
    {Q : Option ((LoadStatus × RangeSet × Nat) × CommandParameters) → Disk → Prop}
    (hinj : Function.Injective env.sha1) (hf : p.faults = [])
    (hdecode : Transfer.decode onehash tokens = some t) (htgt : env.Within t.tgt)
    (havailable : env.sha1 (d.read t.tgt) ≠ t.tgthash → Available env S t content p d)
    (hstash : p.canwrite = true → d.stash.isSome = true)
    (hC : env.sha1 (d.read t.tgt) ≠ t.tgthash → ∀ fs d', Stashed env t content p d fs d' → C d')
    (hrename : env.sha1 (d.read t.tgt) ≠ t.tgthash → t.overlap = true → p.canwrite = true →
      d.stashFile t.srchash = none → C (d.apply env (.renameStash t.srchash content)))
    (hdone : env.sha1 (d.read t.tgt) = t.tgthash → Q (some ((.done, t.tgt, 0), p)) d)
    (hready : ∀ (buffer : List Block) fs d', env.sha1 (d.read t.tgt) ≠ t.tgthash →
      buffer.take t.source.count = content → Stashed env t content p d fs d' →
      Q (some ((.ready, t.tgt, t.source.count), { p with buffer, freestash := fs })) d') :
    wp (.plain (Disk.apply env)) C (loadSrcTgtVersion3 env tokens onehash) Q p d := by
  rw [loadSrcTgtVersion3, wp_bind]
  refine wp_loadTgtSrc_available hinj hf hdecode htgt havailable (fun hsha => ?_)
    fun l buffer hsha hltgt hsrchash hblocks hoverlap hlen hsame => ?_
  · simp only [wpThen_some, wp_pure]
    exact hdone hsha
  · obtain ⟨hgathers, hhash, -, -, hranges⟩ := havailable hsha
    have hwrap : wrapBlocks l.blocks = t.source.count := by rw [hblocks, hgathers.wrapBlocks_count]
    simp only [wpThen_some, wp_bind, wp_get]
    refine wp_verifyBlocks (fun _ => ?_) fun h => absurd h (by rw [hwrap]; omega)
    rw [hwrap, hsrchash, hltgt, hblocks, wpThen_some]
    split
    · rename_i hverified
      have hcontent : buffer.take t.source.count = content :=
        hinj ((of_decide_eq_true hverified).trans hhash.symm)
      rw [wp_bind]
      refine wp_stashSource_stashed hf hhash hsrchash hoverlap (hwrap ▸ hcontent) hstash ?_
        (hrename hsha)
        fun fs d' hd' => ?_
      · exact fun fs d' hd' => hC hsha fs d' (by cases hd' <;> constructor <;> assumption)
      · simp only [wpThen_some, wp_pure]
        exact hready buffer fs d' hsha hcontent (by cases hd' <;> constructor <;> assumption)
    · rename_i hverified
      -- the source was overwritten: its stash is there
      have hoffer : t.overlap = true ∧ Offers env p d t.srchash content := by
        refine hranges.resolve_left fun hsame' => hverified (decide_eq_true ?_)
        rw [hsame hsame', hhash]
      rw [wp_bind]
      simp only [recoverSource, loadImplicitStash, hoverlap, hoffer.1, if_true, wp_bind, wp_get,
        wpThen_some, hsrchash]
      refine wp_loadStash_offers hf hoffer.2 ?_
      simp only [wpThen_some, wp_bind, wp_modify, wp_pure, if_true]
      have htake : (content ++ buffer.drop content.length).take t.source.count = content := by
        rw [← hgathers.count, List.take_left]
      refine hready _ p.freestash d hsha htake (.kept fun _ hwrite => ?_)
      have hfile := hoffer.2.2
      rw [if_pos hwrite] at hfile
      obtain ⟨f, hf, -⟩ := hfile
      rw [hf]
      rfl

end BootableRecovery.BlockImg
