import BootableRecovery.Updater.UpdateLoop

/-!
# A verification of what is reached

The verification that comes before an update goes through the same list from storage that earlier
updates have reached. It finds the targets of the commands that are done, and the sources of the
others; a stash without a file is read from the source ranges that it has noted for it. At its end
no command is skipped that has still to be executed.
-/

namespace BootableRecovery.BlockImg

variable {env : Env} {S F : Image} {instrs : List Instr} {settled : Nat → Prop} {i j n : Nat}
    {C : Disk → Prop}
variable {p p' : CommandParameters} {d d' : Disk} {c : Instr} {id : Text} {src : RangeSet}
    {tokens : List Text}
variable {created : Bool}

/-! ## What a verification knows -/

/-- The variables of a verification between two commands. -/
structure Looking (created : Bool) (p : CommandParameters) : Prop where
  faults : p.faults = []
  canwrite : p.canwrite = false
  freestash : p.freestash = []
  isunresumable : p.isunresumable = false
  createdstash : p.createdstash = created

/-- The stash `id` is loaded by a command from the `i`-th and the `j`-th on, before a verification
at the line `i` sees it stashed again. -/
def Wanted (instrs : List Instr) (i j : Nat) (id : Text) : Prop :=
  ∃ m ≥ i, j ≤ m ∧ ∃ c : Instr, instrs[m]? = some c ∧ id ∈ c.uses ∧
    ∀ s, i ≤ s → s < m → ∀ src, instrs[s]? ≠ some (Instr.stash id src)

/-- The stashes that a verification can load at its line `i`; it has noted the source ranges of
those without a file. -/
structure Surveyed (env : Env) (instrs : List Instr) (i j : Nat) (p : CommandParameters)
    (d : Disk) : Prop where
  offers : ∀ id, Wanted instrs i j id → ∃ blocks, Offers env p d id blocks
  mapped : ∀ id src, p.stashMap.lookup id = some src →
    d.stashFile id = none ∧ ∃ s < i, instrs[s]? = some (.stash id src)

theorem Wanted.pred (h : Wanted instrs (i + 1) j id)
    (hstash : ∀ src, instrs[i]? ≠ some (.stash id src)) : Wanted instrs i j id := by
  obtain ⟨m, hm, hj, c, hc, huse, hnone⟩ := h
  refine ⟨m, by omega, hj, c, hc, huse, fun s hs hsm src => ?_⟩
  rcases Nat.eq_or_lt_of_le hs with rfl | hlt
  · exact hstash src
  · exact hnone s hlt hsm src

theorem Wanted.needed (h : Wanted instrs i j id) (hij : i ≤ j) : Needed instrs j id := by
  obtain ⟨m, -, hj, c, hc, huse, hnone⟩ := h
  exact ⟨m, hj, c, hc, huse, fun s hs => hnone s (by omega)⟩

theorem Creator.not_wanted_of_free (hcreator : Creator env S F instrs)
    (hi : instrs[i]? = some (.free id)) : ¬Wanted instrs (i + 1) j id := by
  rintro ⟨m, hm, -, c, hc, huse, hnone⟩
  exact hcreator.not_needed_of_free hi ⟨m, hm, c, hc, huse, hnone⟩

theorem Offers.congr {blocks : List Block} (h : Offers env p d id blocks) (hw : p.canwrite = false)
    (hw' : p'.canwrite = false) (hlookup : p'.stashMap.lookup id = p.stashMap.lookup id) :
    Offers env p' d id blocks := by
  obtain ⟨hsha, h⟩ := h
  refine ⟨hsha, ?_⟩
  rw [hw] at h
  rw [hw', hlookup]
  exact h

namespace Surveyed

theorem start (hcreator : Creator env S F instrs) (hmap : p.stashMap = []) :
    Surveyed env instrs 0 j p d where
  offers id hid := by
    obtain ⟨m, hm, -, c, hc, huse, hnone⟩ := hid
    exact absurd ⟨m, hm, c, hc, huse, hnone⟩ (hcreator.not_needed_zero id)
  mapped id src hsrc := by
    rw [hmap] at hsrc
    cases hsrc

theorem pass (hcreator : Creator env S F instrs) (h : Surveyed env instrs i j p d)
    (hi : instrs[i]? = some c) (hstash : ∀ id src, c ≠ .stash id src) (hw : p.canwrite = false)
    (hw' : p'.canwrite = false)
    (hkeep : ∀ id, c ≠ .free id → p'.stashMap.lookup id = p.stashMap.lookup id)
    (hsub : ∀ id src, p'.stashMap.lookup id = some src → p.stashMap.lookup id = some src) :
    Surveyed env instrs (i + 1) j p' d where
  offers id hid := by
    have hfree : c ≠ .free id := by
      rintro rfl
      exact hcreator.not_wanted_of_free hi hid
    obtain ⟨blocks, hoffer⟩ := h.offers id (hid.pred fun src hsrc => by
      rw [hi] at hsrc
      exact hstash id src (Option.some.inj hsrc))
    exact ⟨blocks, hoffer.congr hw hw' (hkeep id hfree)⟩
  mapped id src hsrc := by
    obtain ⟨hnone, s, hs, hinstr⟩ := h.mapped id src (hsub id src hsrc)
    exact ⟨hnone, s, by omega, hinstr⟩

theorem stash (h : Surveyed env instrs i j p d) (hi : instrs[i]? = some (.stash id src))
    (hw : p.canwrite = false) (hw' : p'.canwrite = false)
    (hkeep : ∀ id', id' ≠ id → p'.stashMap.lookup id' = p.stashMap.lookup id')
    (hoffer : Wanted instrs (i + 1) j id → ∃ blocks, Offers env p' d id blocks)
    (hmapped : ∀ src, p'.stashMap.lookup id = some src →
      d.stashFile id = none ∧ ∃ s < i + 1, instrs[s]? = some (.stash id src)) :
      Surveyed env instrs (i + 1) j p' d where
  offers id' hid' := by
    by_cases hid : id' = id
    · subst hid
      exact hoffer hid'
    · obtain ⟨blocks, hblocks⟩ := h.offers id' (hid'.pred fun src hsrc => by
        rw [hi] at hsrc
        cases hsrc
        exact hid rfl)
      exact ⟨blocks, hblocks.congr hw hw' (hkeep id' hid)⟩
  mapped id' src' hsrc' := by
    by_cases hid : id' = id
    · subst hid
      exact hmapped src' hsrc'
    · rw [hkeep id' hid] at hsrc'
      obtain ⟨hnone, s, hs, hinstr⟩ := h.mapped id' src' hsrc'
      exact ⟨hnone, s, by omega, hinstr⟩

theorem offers_file (h : Surveyed env instrs i j p d)
    (hreached : Reached env S F instrs settled j d) (hinj : Function.Injective env.sha1)
    (hw : p.canwrite = false) (hsome : (d.stashFile id).isSome = true) {content : List Block}
    (hsha : env.sha1 content = id) : Offers env p d id content := by
  obtain ⟨f, hfile⟩ := Option.isSome_iff_exists.mp hsome
  obtain ⟨htail, hf⟩ := hreached.sound id f hfile
  have hlookup : p.stashMap.lookup id = none := by
    refine Option.eq_none_iff_forall_ne_some.mpr fun src hsrc => ?_
    rw [(h.mapped id src hsrc).1] at hfile
    cases hfile
  refine ⟨hsha, ?_⟩
  rw [hw, hlookup]
  exact ⟨f, hfile, htail, hinj (hf.trans hsha.symm)⟩

end Surveyed

/-! ## The commands -/

/-- The command `i` is about to be verified. -/
structure Inspected (env : Env) (S F : Image) (instrs : List Instr) (settled : Nat → Prop)
    (i j : Nat) (created : Bool) (c : Instr) (p : CommandParameters) (d : Disk) : Prop where
  instr : instrs[i]? = some c
  looking : Looking created p
  reached : Reached env S F instrs settled j d
  surveyed : Surveyed env instrs i j p d
  unverified : p.targetVerified = false
  directory : created = true → d.stash = some []
  once : d.part = S ∨ UsedOnce instrs

/-- The command `i` succeeds and leaves storage as it is; if it has noted that its target is done,
it is. -/
def Looks (env : Env) (F : Image) (instrs : List Instr) (i j : Nat) (created : Bool)
    (f : M env Bool) (p : CommandParameters) (d : Disk) : Prop :=
  ∀ (C : Disk → Prop) (Q : Option (Bool × CommandParameters) → Disk → Prop), C d →
    (∀ p', Looking created p' → Surveyed env instrs (i + 1) j p' d → p'.cmdindex = p.cmdindex →
      (p'.targetVerified = true → ∀ c, instrs[i]? = some c → ∀ b ∈ c.target, d.part b = F b) →
      Q (some (true, p')) d) →
    wp (.plain (Disk.apply env)) C f Q p d

section
variable (hinj : Function.Injective env.sha1) (hcreator : Creator env S F instrs)
include hinj hcreator

theorem looks_transfer {patch : Option (Bool × Nat × Nat)} {t : Transfer} {onehash : Bool}
    {tokens : List Text}
    (write : RangeSet → Nat → CommandParameters → M env Bool)
    (hdecode : Transfer.decode onehash tokens = some t)
    (h : Inspected env S F instrs settled i j created (.transfer patch t) p d) :
    Looks env F instrs i j created (do
      let (status, tgt, blocks) ← loadSrcTgtVersion3 env tokens onehash
      afterLoad env status (write tgt blocks)) p d := by
  intro C Q hC hQ
  obtain ⟨htgthash, content, hgathers, hhash, -⟩ := hcreator.meets _ (List.mem_of_getElem? h.instr)
  have hw := h.looking.canwrite
  have hpass : ∀ p' : CommandParameters, p'.canwrite = false → p'.stashMap = p.stashMap →
      Surveyed env instrs (i + 1) j p' d := fun p' hw' hmap =>
    h.surveyed.pass hcreator h.instr (by rintro _ _ ⟨⟩) hw hw' (fun _ _ => by rw [hmap])
      fun _ _ hsrc => hmap ▸ hsrc
  rw [wp_bind]
  refine wp_loadSrcTgtVersion3_available (S := S) content hinj h.looking.faults hdecode
    (hcreator.within_target h.instr rfl) (fun hne => ?_) (fun hw' => ?_) (fun _ fs d' hd' => ?_)
      (fun _ _ hw' => ?_)
    (fun hsha => ?_) fun buffer fs d' hne hbuffer hd' => ?_
  · -- only a command that is not done has no target with its hash
    have hji : j ≤ i := by
      by_contra hlt
      refine hne ?_
      rw [read_of_part (h.reached.written i (by omega) _ h.instr (by rintro ⟨⟩)), htgthash]
    refine h.reached.available hcreator hji h.instr hgathers hhash (fun x hx => ?_)
      fun _ hsome => h.surveyed.offers_file h.reached hinj hw hsome hhash
    exact h.surveyed.offers x.1 ⟨i, Nat.le_refl i, hji, _, h.instr, List.mem_map_of_mem hx,
      fun s hs hlt => absurd hs (by omega)⟩
  · rw [hw] at hw'
    cases hw'
  · cases hd' with
    | kept => exact hC
    | found _ hw' | created _ hw' =>
      rw [hw] at hw'
      cases hw'
  · rw [hw] at hw'
    cases hw'
  · simp only [wpThen_some, afterLoad, reduceCtorEq, if_false, wp_bind, wp_modify, if_true, wp_get,
      hw, Bool.false_and, Bool.false_eq_true, wp_pure, releaseStash, h.looking.freestash,
      List.isEmpty_nil, Bool.not_true]
    refine hQ _ ⟨h.looking.faults, rfl, rfl, h.looking.isunresumable, h.looking.createdstash⟩
      (hpass _ rfl rfl) rfl ?_
    intro _ c hc
    rw [h.instr] at hc
    cases hc
    exact part_of_read (hinj (hsha.trans htgthash.symm))
  · cases hd' with
    | kept =>
      simp only [wpThen_some, afterLoad, reduceCtorEq, if_false, wp_bind, wp_modify, if_true,
        wp_get, hw, Bool.false_and, Bool.false_eq_true, wp_pure, releaseStash, h.looking.freestash,
        List.isEmpty_nil, Bool.not_true]
      refine hQ _ ⟨h.looking.faults, rfl, rfl, h.looking.isunresumable, h.looking.createdstash⟩
        (hpass _ rfl rfl) rfl ?_
      intro hverified
      rw [h.unverified] at hverified
      cases hverified
    | found _ hw' | created _ hw' =>
      rw [hw] at hw'
      cases hw'

omit hinj in
theorem looks_free (htok : p.tokens = id :: tokens)
    (h : Inspected env S F instrs settled i j created (.free id) p d) :
    Looks env F instrs i j created (performCommandFree env) p d := by
  intro C Q hC hQ
  obtain ⟨hid, hname⟩ : id ≠ [] ∧ getStashFileName env id = id :=
    hcreator.meets _ (List.mem_of_getElem? h.instr)
  have hpass :
      Surveyed env instrs (i + 1) j { p with stashMap := p.stashMap.filter (·.1 ≠ id) } d := by
    refine h.surveyed.pass hcreator h.instr (by rintro _ _ ⟨⟩) h.looking.canwrite h.looking.canwrite
      (fun id' hne => ?_)
      fun id' src hsrc => ?_
    · exact lookup_filter_ne fun heq => hne (by rw [heq])
    · by_cases heq : id' = id
      · subst heq
        rw [List.lookup_eq_none_iff.mpr fun x hx => by
          simpa using Ne.symm (by simpa using (List.mem_filter.mp hx).2)] at hsrc
        cases hsrc
      · rwa [lookup_filter_ne heq] at hsrc
  have hdone := hQ { p with stashMap := p.stashMap.filter (·.1 ≠ id) }
    ⟨h.looking.faults, h.looking.canwrite, h.looking.freestash, h.looking.isunresumable,
      h.looking.createdstash⟩ hpass rfl
    fun hverified => by
      rw [h.unverified] at hverified
      cases hverified
  rw [performCommandFree, wp_bind, wp_get, wpThen_some, htok]
  simp only [wp_bind, wp_modify, wpThen_some]
  split
  · -- the directory has no files
    rename_i hcreated
    rw [h.looking.canwrite, Bool.or_false, h.looking.createdstash] at hcreated
    have hempty := h.directory hcreated
    have hsame : d.apply env (.unlinkStash id) = d := by
      simp only [Disk.apply, hempty, Option.map_some, List.filter_nil]
      rw [← hempty]
    rw [freeStash, if_neg (by simpa using hid), wp_bind, hname]
    refine wp_deleteFile (by rwa [Monitor.plain_step, hsame]) (fun p' hp => ?_) fun hfaults =>
      absurd h.looking.faults hfaults
    rw [hp.eq h.looking.faults, wpThen_some, wp_pure, Monitor.plain_step, hsame]
    exact hdone
  · rw [wp_pure]
    exact hdone

theorem looks_stash {text : Text} (htok : p.tokens = id :: text :: tokens)
    (hparse : validRanges text = some src)
    (h : Inspected env S F instrs settled i j created (.stash id src) p d) :
    Looks env F instrs i j created (performCommandStash env) p d := by
  intro C Q hC hQ
  have hsha : env.sha1 (S.read src) = id := hcreator.meets _ (List.mem_of_getElem? h.instr)
  have hw := h.looking.canwrite
  have hlooking : ∀ buffer map, Looking created { p with buffer, stashMap := map } := fun _ _ =>
    ⟨h.looking.faults, hw, h.looking.freestash, h.looking.isunresumable, h.looking.createdstash⟩
  have hunverified : p.targetVerified = true → ∀ c, instrs[i]? = some c →
      ∀ b ∈ c.target, d.part b = F b := by
    intro hverified
    rw [h.unverified] at hverified
    cases hverified
  rw [performCommandStash, wp_bind, wp_get, wpThen_some, htok]
  simp only [wp_bind]
  by_cases hoffer : ∃ blocks, Offers env p d id blocks
  · obtain ⟨blocks, hoffer⟩ := hoffer
    refine wp_loadStash_offers h.looking.faults hoffer ?_
    simp only [wpThen_some, wp_bind, wp_modify, if_true, wp_pure]
    refine hQ _ (hlooking _ _)
      (h.surveyed.stash h.instr hw hw (fun _ _ => rfl) (fun _ => ⟨blocks, ?_⟩) fun src' hsrc' => ?_)
      rfl hunverified
    · exact hoffer.congr hw hw rfl
    · obtain ⟨hnone, s, hs, hinstr⟩ := h.surveyed.mapped id src' hsrc'
      exact ⟨hnone, s, by omega, hinstr⟩
  · -- there is neither a file nor a note
    have hnone : d.stashFile id = none := by
      rcases hfile : d.stashFile id with _ | f
      · rfl
      · exact absurd ⟨_,
          h.surveyed.offers_file h.reached hinj hw (Option.isSome_iff_exists.mpr ⟨f, hfile⟩) hsha⟩
          hoffer
    have hlookup : p.stashMap.lookup id = none := by
      refine Option.eq_none_iff_forall_ne_some.mpr fun src' hsrc' => hoffer ?_
      obtain ⟨-, s, hs, hinstr⟩ := h.surveyed.mapped id src' hsrc'
      have hpart : d.part = S := h.once.resolve_right fun honce =>
        pairwise_getElem? honce.stash hs hinstr h.instr id src' src rfl rfl
      refine ⟨d.read src', ?_, ?_⟩
      · rw [Env.Within.read_eq (S := S) fun b _ => by rw [hpart]]
        exact hcreator.meets _ (List.mem_of_getElem? hinstr)
      · rw [hw, hsrc']
        exact ⟨hcreator.within_source hinstr rfl, rfl⟩
    simp only [loadStash, wp_bind, wp_get, wpThen_some, hw, Bool.false_eq_true, if_false, hlookup]
    refine wp_loadStashFile (getStashFileName_of_sha1 hsha) (fun p' f hp hfile _ _ => ?_)
      (fun _ p' buffer hp _ hbuffer => ?_) (fun f hfile _ _ _ => ?_)
      fun f _ hfile _ _ => ?_
    · rw [Monitor.plain_view, hnone] at hfile
      cases hfile
    · rw [hp.eq h.looking.faults]
      simp only [wpThen_some, wp_bind, wp_modify, Bool.false_eq_true, if_false,
        parseRanges_eq hparse, wp_pure]
      refine wp_readBlocks (fun p' hp _ _ => ?_)
        (fun hbad => absurd (hcreator.within_source h.instr rfl) (hbad h.looking.faults))
          fun hlen => ?_
      · rw [hp.eq h.looking.faults]
        simp only [wpThen_some, wp_bind, wp_modify, Bool.not_true, Bool.false_eq_true, if_false]
        refine wp_verifyBlocks (fun _ => ?_) fun hlen => ?_
        · have hend : wp (.plain (Disk.apply env)) C (return true) Q
              { p with
                buffer := d.read src ++ (allocate src.blocks buffer).drop src.blocks
                stashMap := (id, src) :: p.stashMap.filter (·.1 ≠ id) } d := by
            rw [wp_pure]
            refine hQ _ (hlooking _ _) (h.surveyed.stash h.instr hw hw (fun id' hne => ?_)
              (fun hwanted => ?_) fun src' hsrc' => ?_) rfl hunverified
            · rw [List.lookup_cons, beq_false_of_ne hne]
              exact lookup_filter_ne hne
            · -- the source ranges are still as in the image
              have hread : d.read src = S.read src := by
                refine Env.Within.read_eq fun b hb => h.reached.untouched b fun k hk c hc hbc => ?_
                rcases Nat.lt_or_ge k i with hlt | hge
                · exact pairwise_getElem? hcreator.readFirst hlt hc h.instr b hbc hb
                · rcases Nat.lt_or_eq_of_le (hge.trans hk) with hlt | rfl
                  · have hpresent := h.reached.present id (hwanted.needed hlt)
                    rw [hnone] at hpresent
                    cases hpresent
                  · rw [show k = i by omega, h.instr] at hc
                    cases hc
                    cases hbc
              refine ⟨S.read src, hsha, ?_⟩
              simp only [hw, Bool.false_eq_true, if_false, List.lookup_cons, beq_self_eq_true]
              exact ⟨hcreator.within_source h.instr rfl, hread⟩
            · simp only [List.lookup_cons, beq_self_eq_true, Option.some.injEq] at hsrc'
              exact ⟨hnone, i, by omega, hsrc' ▸ h.instr⟩
          simp only [hw, Bool.not_false, if_true, wpThen_some]
          rw [← hw]
          split
          · exact hend
          · exact hend
        · simp at hlen
      · rw [length_allocate] at hlen
        omega
    · rw [Monitor.plain_view, hnone] at hfile
      cases hfile
    · rw [Monitor.plain_view, hnone] at hfile
      cases hfile

theorem looks_perform {command : Command} {f : M env Bool}
    (hdecode : command.decode p.tokens = some c) (hf : command.perform env true = some f)
    (h : Inspected env S F instrs settled i j created c p d) :
    Looks env F instrs i j created f p d := by
  cases command with
  | move =>
    cases hf
    obtain ⟨t, ht, rfl⟩ := Option.map_eq_some_iff.mp hdecode
    intro C Q hC hQ
    rw [performCommandMove_eq, wp_bind, wp_get, wpThen_some]
    exact looks_transfer hinj hcreator (fun tgt _ p => writeBlocks env tgt p.buffer) ht h C Q hC hQ
  | bsdiff | imgdiff =>
    cases hf
    rcases htok : p.tokens with _ | ⟨offset, _ | ⟨len, tokens⟩⟩ <;> rw [htok] at hdecode
    · cases hdecode
    · cases hdecode
    obtain ⟨off, hoff, hdecode⟩ := Option.bind_eq_some_iff.mp hdecode
    obtain ⟨n, hlen, hdecode⟩ := Option.bind_eq_some_iff.mp hdecode
    obtain ⟨t, ht, hdecode⟩ := Option.bind_eq_some_iff.mp hdecode
    cases hdecode
    intro C Q hC hQ
    rw [performCommandDiff, wp_bind, wp_get, wpThen_some, htok]
    simp only [hoff, hlen]
    exact looks_transfer hinj hcreator
      (fun tgt blocks p => applyPatch env (env.patch _ off n (p.buffer.take (wrapBlocks blocks))).1
        (.make tgt) (env.patch _ off n (p.buffer.take (wrapBlocks blocks))).2) ht h C Q hC hQ
  | stash =>
    cases hf
    rcases htok : p.tokens with _ | ⟨id, _ | ⟨text, tokens⟩⟩ <;> rw [htok] at hdecode
    · cases hdecode
    · cases hdecode
    obtain ⟨src, hparse, rfl⟩ := Option.map_eq_some_iff.mp hdecode
    exact looks_stash hinj hcreator htok hparse h
  | free =>
    cases hf
    rcases htok : p.tokens with _ | ⟨id, tokens⟩ <;> rw [htok] at hdecode
    · cases hdecode
    · cases hdecode
      exact looks_free hcreator htok h
  | zero | new | erase => cases hf

/-! ## The loop -/

/-- What a verification at line `i` has found out about the saved index: if it is not before the
command `j`, that one is done. -/
def Checked (F : Image) (instrs : List Instr) (i j : Nat) (d : Disk) : Prop :=
  j < i → ∀ k, d.savedIndex = some k → (j : Int) ≤ k → ∀ c, instrs[j]? = some c →
  ∀ b ∈ c.target, d.part b = F b

omit hinj hcreator in
theorem Checked.step (h : Checked F instrs i j d)
    (hi : i = j → ∀ k, d.savedIndex = some k → (j : Int) ≤ k → ∀ c, instrs[j]? = some c →
      ∀ b ∈ c.target, d.part b = F b) : Checked F instrs (i + 1) j d := by
  intro hlt
  rcases Nat.lt_succ_iff_lt_or_eq.mp hlt with hlt | heq
  · exact h hlt
  · exact hi heq.symm

omit hinj hcreator in
theorem Checked.of_none (h : d.savedIndex = none) : Checked F instrs i j d := by
  intro _ k hk
  rw [h] at hk
  cases hk

omit hinj hcreator in
theorem Surveyed.of_disk (h : Surveyed env instrs i j p d) (hpart : d'.part = d.part)
    (hfile : ∀ id, d'.stashFile id = d.stashFile id) : Surveyed env instrs i j p d' where
  offers id hid := by
    obtain ⟨blocks, hsha, hoffer⟩ := h.offers id hid
    refine ⟨blocks, hsha, ?_⟩
    split at hoffer
    · rw [Disk.read, hpart]
      exact hoffer
    · rw [hfile]
      exact hoffer
  mapped id src hsrc := by
    rw [hfile]
    exact h.mapped id src hsrc

theorem wp_performLines_verify {lines : List Text} {saved : Int}
    {Q : Option (Bool × CommandParameters) → Disk → Prop}
    (hlines : lines.mapM Instr.decode = some (instrs.drop i)) (hp : Looking created p)
    (h : Reached env S F instrs settled j d) (hs : Surveyed env instrs i j p d)
    (hdir : created = true → d.stash = some []) (honce : d.part = S ∨ UsedOnce instrs)
    (hsaved : ∀ k, d.savedIndex = some k → saved = k) (hchecked : Checked F instrs i j d)
    (hC : ∀ d', Recoverable env S F instrs d' → C d')
    (hQ : ∀ p' d' n, instrs.length ≤ n → Looking created p' →
      d' = d ∨ d' = { d with lastCommand := none } →
      Reached env S F instrs settled j d' → Checked F instrs n j d' → Q (some (true, p')) d') :
    wp (.plain (Disk.apply env)) C (performLines env i lines saved) Q p d := by
  induction lines generalizing i p d saved with
  | nil =>
    have hlen : instrs.length ≤ i := List.drop_eq_nil_iff.mp (Option.some.inj hlines).symm
    rw [performLines, wp_pure]
    exact hQ p d i hlen hp (.inl rfl) h hchecked
  | cons line lines ih =>
    rw [List.mapM_cons] at hlines
    obtain ⟨c, hdecode, hlines⟩ := Option.bind_eq_some_iff.mp hlines
    obtain ⟨rest, hrest, hdrop⟩ := Option.bind_eq_some_iff.mp hlines
    replace hdrop : c :: rest = instrs.drop i := Option.some.inj hdrop
    have hi : instrs[i]? = some c := by
      have := congrArg (fun l => l[0]?) hdrop
      simpa using this.symm
    have hdrop' : rest = instrs.drop (i + 1) := by
      have := congrArg List.tail hdrop
      rwa [List.tail_cons, List.tail_drop] at this
    rw [hdrop'] at hrest
    have hw := hp.canwrite
    -- an index that is not before the command `j` is that of an overlapping transfer
    have htransfer : ∀ k, d.savedIndex = some k → (j : Int) ≤ k →
        ∃ patch t, instrs[j]? = some (.transfer patch t) := by
      intro k hk hle
      obtain ⟨patch, t, ht, -⟩ :=
        ((h.saved k hk j hle).resolve_left fun hlt => absurd hlt.1 (Nat.lt_irrefl j)).2
      exact ⟨patch, t, ht⟩
    -- a line that is no transfer, and makes no stash
    have hplain : (∀ patch t, c ≠ .transfer patch t) → Surveyed env instrs (i + 1) j p d →
        wp (.plain (Disk.apply env)) C (performLines env (i + 1) lines saved) Q p d := by
      intro hnot hs'
      refine ih hrest hp h hs' hdir honce hsaved (hchecked.step ?_) hQ
      rintro rfl k hk hle
      obtain ⟨patch, t, ht⟩ := htransfer k hk hle
      rw [hi] at ht
      exact absurd (Option.some.inj ht) (hnot patch t)
    rw [performLines]
    split
    · rename_i hempty
      rw [Instr.decode, if_pos hempty] at hdecode
      cases hdecode
      exact hplain (by rintro _ _ ⟨⟩)
        (hs.pass hcreator hi (by rintro _ _ ⟨⟩) hw hw (fun _ _ => rfl) fun _ _ => id)
    · rename_i hempty
      rw [Instr.decode, if_neg hempty] at hdecode
      obtain ⟨command, hcommand, hdecode⟩ := Option.bind_eq_some_iff.mp hdecode
      rw [wp_bind]
      refine wp_performLine (fun hnone => ?_) (fun command' hcommand' hnull => ?_) (fun hw' => ?_)
        fun command' f hcommand' hf _ => ?_
      · rw [hcommand] at hnone
        cases hnone
      · -- the command has no function in the table
        rw [hcommand] at hcommand'
        cases hcommand'
        rw [hw] at hnull
        have hkind : (∀ patch t, c ≠ .transfer patch t) ∧ ∀ id src, c ≠ .stash id src := by
          cases command with
          | zero | new | erase =>
            rcases htok : (line.splitOn ' ').tail with _ | ⟨text, tokens⟩ <;> rw [htok] at hdecode
            · cases hdecode
            · obtain ⟨tgt, -, rfl⟩ := Option.map_eq_some_iff.mp hdecode
              exact ⟨by rintro _ _ ⟨⟩, by rintro _ _ ⟨⟩⟩
          | bsdiff | imgdiff | move | stash | free => cases hnull
        rw [wpThen_some]
        refine hplain hkind.1 (hs.pass hcreator hi hkind.2 hw hw (fun _ _ => rfl) fun _ _ => id)
      · rw [hw] at hw'
        cases hw'
      · rw [hcommand] at hcommand'
        cases hcommand'
        rw [hw] at hf
        have hCd : C d := hC d ⟨_, _, h⟩
        refine ⟨hCd, ?_⟩
        have hinspected : Inspected env S F instrs settled i j created c (p.forLine i line) d :=
          ⟨hi, ⟨hp.faults, hw, hp.freestash, hp.isunresumable, hp.createdstash⟩, h,
            ⟨hs.offers, hs.mapped⟩, rfl, hdir, honce⟩
        refine looks_perform hinj hcreator hdecode hf hinspected C _ hCd
          fun p' hp' hs' hindex hverified => ?_
        replace hindex : p'.cmdindex = cmdIndex i := hindex
        simp only [wpThen_some, if_true]
        refine wp_afterCommand (fun _ p'' hp'' hkept => ?_) (fun _ _ _ _ _ _ => ?_) fun hw' => ?_
        · -- the saved index is kept
          rw [hp''.eq hp'.faults, wpThen_some]
          refine ih hrest hp' h hs' hdir honce hsaved (hchecked.step ?_) hQ
          rintro rfl k hk hle
          obtain ⟨patch, t, ht⟩ := htransfer k hk hle
          refine hverified ?_
          by_contra hunverified
          obtain rfl := hsaved k hk
          have hmax := Disk.savedIndex_le hk
          have hcmd : cmdIndex i = i := by
            rw [cmdIndex, if_neg (by omega)]
          refine hkept ⟨by omega, by rw [hindex, hcmd]; omega, by rwa [hindex, hcmd], ?_,
            by simpa using hunverified⟩
          rw [hi] at ht
          cases ht
          cases command with
          | move | bsdiff | imgdiff => rfl
          | stash =>
            rcases htok : (line.splitOn ' ').tail with _ | ⟨id, _ | ⟨text, tokens⟩⟩ <;> rw [htok]
              at hdecode
            · cases hdecode
            · cases hdecode
            · obtain ⟨_, -, heq⟩ := Option.map_eq_some_iff.mp hdecode
              cases heq
          | free =>
            rcases htok : (line.splitOn ' ').tail with _ | ⟨id, tokens⟩ <;> rw [htok]
              at hdecode <;> cases hdecode
          | zero | new | erase => cases hf
        · -- the saved index is dropped
          have hunlink : Reached env S F instrs settled j (d.apply env .unlinkLast) :=
            h.of_eq rfl (fun _ => rfl) fun _ hk => by cases hk
          refine ⟨hC _ ⟨_, _, hunlink⟩, fun p'' hp'' => ?_, fun hfaults =>
            absurd hp'.faults hfaults⟩
          rw [hp''.eq hp'.faults, wpThen_some]
          refine ih hrest hp' hunlink (hs'.of_disk rfl fun _ => rfl) hdir honce
            (fun k hk => by cases hk)
            (.of_none rfl) fun p' d' n hn hp' hd' => hQ p' d' n hn hp' (.inr ?_)
          rcases hd' with rfl | rfl
          · rfl
          · rfl
        · rw [hp'.canwrite] at hw'
          cases hw'

end

/-! ## The end -/

/-- The saved index is before the command `j`. -/
def Disk.SavedBefore (d : Disk) (j : Nat) : Prop :=
  ∀ k, d.savedIndex = some k → ∀ i : Nat, (i : Int) ≤ k → i < j

/-- When all lines were verified, the next command is one that the saved index does not skip. -/
theorem Reached.verified (hcreator : Creator env S F instrs)
    (h : Reached env S F instrs settled j d) (hchecked : Checked F instrs n j d)
    (hn : instrs.length ≤ n) : ∃ settled' j', j ≤ j' ∧ Reached env S F instrs settled' j' d ∧
    d.SavedBefore j' := by
  by_cases hbefore : d.SavedBefore j
  · exact ⟨settled, j, Nat.le_refl j, h, hbefore⟩
  · rw [Disk.SavedBefore] at hbefore
    push Not at hbefore
    obtain ⟨k, hk, i, hik, hji⟩ := hbefore
    obtain ⟨-, patch, t, ht, -⟩ :=
      (h.saved k hk j (by omega)).resolve_left fun hlt => absurd hlt.1 (Nat.lt_irrefl j)
    have hlt : j < instrs.length := (List.getElem?_eq_some_iff.mp ht).1
    refine ⟨_, j + 1, by omega,
      h.advance hcreator ht (hchecked (by omega) k hk (by omega) _ ht) (by rintro _ _ ⟨⟩), ?_⟩
    intro k' hk' i' hi'
    rcases h.saved k' hk' i' hi' with ⟨hlt, -⟩ | ⟨rfl, -⟩ <;> omega

theorem wp_finishUpdate_verify {Q : Option (Unit × CommandParameters) → Disk → Prop}
    (hp : Looking created p) (hdir : created = true → d.stash = some []) (hC : C d)
    (hC' : created = true → C { d with stash := none })
    (hQ : Q (some ((), p)) (if created then { d with stash := none } else d)) :
    wp (.plain (Disk.apply env)) C (finishUpdate env true) Q p d := by
  simp only [finishUpdate, wp_bind, wp_get, wpThen_some, hp.canwrite, hp.isunresumable,
    hp.createdstash, onlyIf, Bool.false_and, Bool.false_eq_true, if_false, wp_pure, Bool.false_or,
    Bool.not_false, Bool.true_and]
  refine wp_syscall (fun p' hp' => ?_) fun hfaults => absurd hp.faults hfaults
  rw [hp'.eq hp.faults]
  simp only [wpThen_some, if_true, wp_bind, wp_emit_step, wp_pure, Monitor.plain_step]
  refine ⟨hC, ?_⟩
  rw [show d.apply env .fsync = d from rfl]
  cases created with
  | false => simpa using hQ
  | true =>
    have hempty : d.stash = some [] := hdir rfl
    simp only [if_true, deleteStash, wp_bind, wp_disk, wpThen_some, Monitor.plain_view, hempty,
      Option.getD_some, List.map_nil, deleteFiles, wp_pure]
    refine wp_syscall (fun p' hp' => ?_) fun hfaults => absurd hp.faults hfaults
    have hrmdir : d.apply env .rmdirStash = { d with stash := none } := by
      rw [Disk.apply, if_pos hempty]
    rw [hp'.eq hp.faults]
    simp only [wpThen_some, if_true, wp_emit_step, Monitor.plain_step, hrmdir]
    exact ⟨hC' rfl, hQ⟩

end BootableRecovery.BlockImg
