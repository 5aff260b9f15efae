import BootableRecovery.Updater.UpdateRun

/-!
# Every command of an update

That each function of the command table does what its line says (`performs_perform`), from the rule
for transfers and the rules for filling a target.
-/

namespace BootableRecovery.BlockImg

variable {env : Env} {S F : Image} {instrs : List Instr} {settled : Nat → Prop} {i j : Nat}
    {C : Disk → Prop}
variable {p p' : CommandParameters} {d d' : Disk} {c : Instr} {id : Text} {src tgt : RangeSet}
    {tokens : List Text}
variable {rs : List Range}

/-! ## Being done -/

theorem Reached.progressed (hcreator : Creator env S F instrs) (hi : instrs[i]? = some c)
    (hagain : i = j ∨ i < j ∧ Resumable instrs) (h : Reached env S F instrs settled j d)
    (hdir : d.stash.isSome = true) (htarget : ∀ b ∈ c.target, d.part b = F b)
    (hstash : ∀ id src, i = j → c = .stash id src → (d.stashFile id).isSome = true) :
    Progressed env S F instrs settled i j d := by
  refine ⟨?_, hdir⟩
  rcases hagain with rfl | ⟨hlt, -⟩
  · rw [Nat.max_eq_right (by omega)]
    exact h.advance hcreator hi htarget fun id src => hstash id src rfl
  · rw [Nat.max_eq_left (by omega)]
    refine h.settle fun c' hc' _ => ?_
    rw [hi] at hc'
    cases hc'
    exact htarget

theorem Pending.progressed {bs : List Nat} (hcreator : Creator env S F instrs)
    (h : Pending env S F instrs settled i j c p d) (hreached : Reached env S F instrs settled j d')
    (hsame : d.SameBut bs d') (htarget : ∀ b ∈ c.target, d'.part b = F b)
    (hnot : ∀ id src, c ≠ .stash id src) : Progressed env S F instrs settled i j d' := by
  have hdir : d'.stash.isSome = true := by
    rw [hsame.stash]
    exact h.stash
  exact hreached.progressed hcreator h.instr h.again hdir htarget fun id src _ hc =>
    absurd hc (hnot id src)

theorem Pending.read_source (hcreator : Creator env S F instrs)
    (h : Pending env S F instrs settled i j (.stash id src) p d) (hij : i = j) :
    d.read src = S.read src := by
  subst hij
  refine Env.Within.read_eq fun b hb => h.reached.untouched b fun k hk c hc hbc => ?_
  rcases Nat.lt_or_eq_of_le hk with hlt | rfl
  · exact pairwise_getElem? hcreator.readFirst hlt hc h.instr b hbc hb
  · rw [h.instr] at hc
    cases hc
    cases hbc

theorem Pending.not_needed (hcreator : Creator env S F instrs)
    (h : Pending env S F instrs settled i j (.free id) p d) :
    ¬Needed instrs (max j (i + 1)) id := by
  rcases h.again with rfl | ⟨hlt, hresumable⟩
  · rw [Nat.max_eq_right (by omega)]
    exact hcreator.not_needed_of_free h.instr
  · rw [Nat.max_eq_left (by omega)]
    rintro ⟨m, hm, c, hc, huse, hnone⟩
    obtain ⟨s, hs, src, hstash, hfree⟩ := hcreator.stashed m c hc id huse
    rcases Nat.lt_trichotomy s i with hsi | rfl | his
    · exact hfree i hsi (by omega) h.instr
    · rw [h.instr] at hstash
      cases hstash
    · exact pairwise_getElem? hresumable.free his h.instr hstash id src rfl rfl

/-! ## Erasing -/

/-- Those blocks of the target that are not erased are in ranges that are left. -/
def Erasing (S F : Image) (tgt : RangeSet) (rs : List Range) (d : Disk) : Prop :=
  ∀ b ∈ tgt.toList, d.part b = F b ∨ d.part b = S b ∧ b ∈ rs.flatMap Range.toList

theorem Erasing.source_or (h : Erasing S F tgt rs d) :
    ∀ b ∈ tgt.toList, d.part b = S b ∨ d.part b = F b :=
  fun b hb => (h b hb).symm.imp_left And.left

theorem Erasing.discard {r : Range} (h : Erasing S F tgt (r :: rs) d)
    (hF : ∀ b ∈ tgt.toList, F b = (env.discarded b).getD (S b)) :
    Erasing S F tgt rs (d.apply env (.discard r)) := by
  intro b hb
  have hpart : (d.apply env (.discard r)).part b =
      if r.1 ≤ b ∧ b < r.2 then (env.discarded b).getD (d.part b) else d.part b := rfl
  rw [hpart]
  split
  · left
    rcases hdiscarded : env.discarded b with _ | v
    · -- the request is not supported, and the block stays
      have hsame : F b = S b := by rw [hF b hb, hdiscarded, Option.getD_none]
      rw [Option.getD_none]
      rcases h b hb with h | ⟨h, -⟩
      · exact h
      · rw [h, hsame]
    · rw [hF b hb, hdiscarded, Option.getD_some, Option.getD_some]
  · rename_i hnot
    refine (h b hb).imp_right fun ⟨hsource, hmem⟩ => ⟨hsource, ?_⟩
    rw [List.flatMap_cons, List.mem_append, Range.mem_toList] at hmem
    exact hmem.resolve_left hnot

theorem wp_eraseRanges {Q : Option (Bool × CommandParameters) → Disk → Prop} (hf : p.faults = [])
    (hF : ∀ b ∈ tgt.toList, F b = (env.discarded b).getD (S b))
    (hrs : ∀ r ∈ rs, ∀ b ∈ Range.toList r, b ∈ tgt.toList) (h : Erasing S F tgt rs d)
    (hC : ∀ rs d', d.SameBut tgt.toList d' → Erasing S F tgt rs d' → C d')
    (hQ : ∀ d', d.SameBut tgt.toList d' → Erasing S F tgt [] d' → Q (some (true, p)) d') :
    wp (.plain (Disk.apply env)) C (eraseRanges env rs) Q p d := by
  induction rs generalizing d with
  | nil =>
    rw [eraseRanges, wp_pure]
    exact hQ d .refl h
  | cons r rs ih =>
    obtain ⟨hr, hrs⟩ := List.forall_mem_cons.mp hrs
    have hsame : d.SameBut tgt.toList (d.apply env (.discard r)) :=
      .apply hr
    have hdiscard := h.discard hF
    simp only [eraseRanges, blkdiscard, wp_bind]
    refine wp_syscall (fun p' hp => ?_) fun hfaults => absurd hf hfaults
    rw [hp.eq hf]
    simp only [wpThen_some, if_true, wp_bind, wp_emit_step, Monitor.plain_step, wp_pure]
    exact ⟨hC rs _ hsame hdiscard, ih hrs hdiscard (fun rs d' h' => hC rs d' (hsame.trans h'))
      fun d' h' => hQ d' (hsame.trans h')⟩

/-! ## The commands -/

section
variable (hinj : Function.Injective env.sha1) (hcreator : Creator env S F instrs)
include hinj hcreator

theorem performs_move {t : Transfer} (hdecode : Transfer.decode true p.tokens = some t)
    (h : Pending env S F instrs settled i j (.transfer none t) p d) :
    Performs env S F instrs settled i j (performCommandMove env) p d := by
  obtain ⟨-, content, -, hhash, rfl⟩ := hcreator.meets _ (List.mem_of_getElem? h.instr)
  have hload :=
    performs_transfer hinj hcreator (fun tgt _ p => writeBlocks env tgt p.buffer) hdecode h
    fun content p' hhash' hlen _ hf hbuffer => by
      cases hinj (hhash'.trans hhash.symm)
      refine fillsWith_writeBlocks hf (hcreator.once _ (List.mem_of_getElem? h.instr))
        (hcreator.within_target h.instr rfl) ?_
      rw [← hbuffer, ← hlen, Image.length_read]
  intro C Q hC hQ
  rw [performCommandMove_eq, wp_bind, wp_get, wpThen_some]
  exact hload C Q hC hQ

theorem performs_diff {imgdiff : Bool} {offset len : Text} {off n : Nat} {t : Transfer}
    (htok : p.tokens = offset :: len :: tokens) (hoff : parseUint offset = some off)
    (hlen : parseUint len = some n) (hdecode : Transfer.decode false tokens = some t)
    (h : Pending env S F instrs settled i j (.transfer (some (imgdiff, off, n)) t) p d) :
    Performs env S F instrs settled i j (performCommandDiff env imgdiff) p d := by
  obtain ⟨-, content, -, hhash, hok, hpieces⟩ := hcreator.meets _ (List.mem_of_getElem? h.instr)
  have hload := performs_transfer hinj hcreator
    (fun tgt blocks p =>
      applyPatch env (env.patch imgdiff off n (p.buffer.take (wrapBlocks blocks))).1 (.make tgt)
      (env.patch imgdiff off n (p.buffer.take (wrapBlocks blocks))).2) hdecode h
    fun content' p' hhash' _ hgathers hf hbuffer => by
      cases hinj (hhash'.trans hhash.symm)
      rw [hgathers.wrapBlocks_count, hbuffer, hok]
      exact fillsWith_applyPatch hf (hcreator.once _ (List.mem_of_getElem? h.instr))
        (hcreator.within_target h.instr rfl) hpieces
  intro C Q hC hQ
  rw [performCommandDiff, wp_bind, wp_get, wpThen_some, htok]
  simp only [hoff, hlen]
  exact hload C Q hC hQ

omit hinj in
theorem performs_zero {text : Text} (htok : p.tokens = text :: tokens)
    (hparse : validRanges text = some tgt)
    (h : Pending env S F instrs settled i j (.zero tgt) p d) :
    Performs env S F instrs settled i j (performCommandZero env) p d := by
  intro C Q hC hQ
  have hwriting : ∀ d', d.SameBut tgt.toList d' → Reached env S F instrs settled j d' :=
    fun d' hsame =>
    h.reached.writing hcreator h.instr (h.again.imp_right fun ⟨hlt, _⟩ =>
      ⟨hlt, rfl, h.fresh⟩) (by rintro _ _ ⟨⟩)
      (by rintro _ ⟨⟩) hsame
  rw [performCommandZero, wp_bind, wp_get, wpThen_some, htok]
  simp only [parseRanges_eq hparse, wp_bind, wp_pure, wpThen_some, wp_modify, h.idle.canwrite,
    if_true]
  refine fillsWith_zeroRanges
    (p := { p with buffer := (allocate 1 p.buffer).set 0 0, canwrite := true }) h.idle.faults
    (hcreator.once _ (List.mem_of_getElem? h.instr)) (hcreator.within_target h.instr rfl)
    (hcreator.meets _ (List.mem_of_getElem? h.instr)) C Q d
      (fun d' hsame => hC d' ⟨_, _, hwriting d' hsame⟩)
    fun d' hsame hread => ?_
  refine hQ _ d' ⟨h.idle.faults, rfl, h.idle.freestash, h.idle.isunresumable⟩
    (h.supplied.tail h.instr (by rintro _ ⟨⟩)) ?_
  exact h.progressed hcreator (hwriting d' hsame) hsame (part_of_read hread) (by rintro _ _ ⟨⟩)

omit hinj in
theorem performs_new {text : Text} (htok : p.tokens = text :: tokens)
    (hparse : validRanges text = some tgt) (h : Pending env S F instrs settled i j (.new tgt) p d) :
    Performs env S F instrs settled i j (performCommandNew env) p d := by
  intro C Q hC hQ
  -- new data cannot be taken again
  have hij : i = j := h.again.resolve_right fun ⟨_, hresumable⟩ =>
    hresumable.noNew tgt (List.mem_of_getElem? h.instr)
  have hwriting : ∀ d', d.SameBut tgt.toList d' → Reached env S F instrs settled j d' :=
    fun d' hsame =>
    h.reached.writing hcreator h.instr (.inl hij) (by rintro _ _ ⟨⟩) (by rintro _ ⟨⟩) hsame
  obtain ⟨hbytesIn, havailable⟩ := h.supplied
  rw [streamBytes_drop h.instr] at hbytesIn
  have hbytes :
      streamBytes F [Instr.new tgt] = (F.read tgt).flatMap Block.bytes := by simp [streamBytes]
  rw [hbytes] at hbytesIn
  obtain ⟨hvalid, rfl⟩ := validRanges_eq_some hparse
  rw [performCommandNew, wp_bind, wp_get, wpThen_some, htok]
  simp only [parseRanges_eq hparse, wp_bind, wp_pure, wpThen_some, h.idle.canwrite,
    havailable, if_true]
  refine fillsWith_receiveNewData h.idle.faults (hcreator.once _ (List.mem_of_getElem? h.instr))
    (hcreator.within_target h.instr rfl) hvalid ((List.prefix_append ..).trans hbytesIn)
    (fun d' hsame => hC d' ⟨_, _, hwriting d' hsame⟩) fun d' rest hsame hread hrest => ?_
  refine hQ _ d' ⟨h.idle.faults, h.idle.canwrite, h.idle.freestash, h.idle.isunresumable⟩
    ⟨?_, rfl⟩ ?_
  · rw [hrest] at hbytesIn
    exact (List.prefix_append_right_inj _).mp hbytesIn
  · exact h.progressed hcreator (hwriting d' hsame) hsame (part_of_read hread) (by rintro _ _ ⟨⟩)

omit hinj in
theorem performs_erase {text : Text} (htok : p.tokens = text :: tokens)
    (hparse : validRanges text = some tgt)
    (h : Pending env S F instrs settled i j (.erase tgt) p d) :
    Performs env S F instrs settled i j (performCommandErase env) p d := by
  intro C Q hC hQ
  obtain ⟨hblk, hF⟩ := hcreator.meets _ (List.mem_of_getElem? h.instr)
  have hwriting : ∀ rs d', d.SameBut tgt.toList d' → Erasing S F tgt rs d' →
      Reached env S F instrs settled j d' :=
    fun rs d' hsame herasing => h.reached.writing hcreator h.instr
      (h.again.imp_right fun hagain => ⟨hagain.1, rfl, h.fresh⟩) (by rintro _ _ ⟨⟩)
      (by
        rintro _ ⟨⟩
        exact herasing.source_or) hsame
  simp only [performCommandErase, wp_bind]
  refine wp_syscall (fun p' hp => ?_) fun hfaults => absurd h.idle.faults hfaults
  rw [hp.eq h.idle.faults]
  simp only [wpThen_some, if_true, hblk, Bool.not_true, Bool.false_eq_true, if_false, wp_bind,
    wp_get, htok, parseRanges_eq hparse, wp_pure, h.idle.canwrite]
  refine wp_eraseRanges h.idle.faults hF (fun r hr b hb => List.mem_flatMap.mpr ⟨r, hr, hb⟩)
    (fun b hb => ?_)
    (fun rs d' hsame herasing => hC d' ⟨_, _, hwriting rs d' hsame herasing⟩)
      fun d' hsame herasing => ?_
  · exact (h.reached.erased i tgt h.instr b hb).symm.imp_right fun hsource => ⟨hsource, hb⟩
  · refine hQ _ d' h.idle (h.supplied.tail h.instr (by rintro _ ⟨⟩)) ?_
    refine h.progressed hcreator (hwriting [] d' hsame herasing) hsame
      (fun b hb => ?_) (by rintro _ _ ⟨⟩)
    exact (herasing b hb).resolve_right fun hleft => by cases hleft.2

omit hinj in
theorem performs_free (htok : p.tokens = id :: tokens)
    (h : Pending env S F instrs settled i j (.free id) p d) :
    Performs env S F instrs settled i j (performCommandFree env) p d := by
  intro C Q hC hQ
  obtain ⟨hid, hname⟩ : id ≠ [] ∧ getStashFileName env id = id :=
    hcreator.meets _ (List.mem_of_getElem? h.instr)
  have hprogressed :=
    h.reached.progressed hcreator h.instr h.again h.stash (by rintro _ ⟨⟩) (by rintro _ _ _ ⟨⟩)
  have hunlink :
      Reached env S F instrs
      (fun k => settled k ∨ k = i) (max j (i + 1)) (d.apply env (.unlinkStash id)) := by
    refine hprogressed.reached.unlinkStash (h.not_needed hcreator) fun patch t ht hover => ?_
    rcases h.again with rfl | ⟨hlt, hresumable⟩
    · rw [Nat.max_eq_right (by omega)] at ht
      exact .inr (h.reached.next_untouched hcreator ht)
    · rw [Nat.max_eq_left (by omega)] at ht
      exact .inl (pairwise_getElem? hresumable.implicit hlt h.instr ht id patch t rfl rfl hover)
  rw [performCommandFree, wp_bind, wp_get, wpThen_some, htok]
  simp only [wp_bind, wp_modify, wpThen_some, h.idle.canwrite, Bool.or_true, if_true,
    freeStash, hname]
  rw [if_neg (by simpa using hid)]
  simp only [wp_bind]
  refine wp_deleteFile (hC _ ⟨_, _, hunlink⟩) (fun p' hp => ?_) fun hfaults =>
    absurd h.idle.faults hfaults
  rw [hp.eq h.idle.faults]
  simp only [wpThen_some, wp_pure]
  refine hQ _ _ ⟨h.idle.faults, rfl, h.idle.freestash, h.idle.isunresumable⟩
    (h.supplied.tail h.instr (by rintro _ ⟨⟩)) ⟨hunlink, ?_⟩
  have hstash := h.stash
  simpa [Disk.apply] using hstash

omit hinj in
theorem performs_stash {text : Text} (htok : p.tokens = id :: text :: tokens)
    (hparse : validRanges text = some src)
    (h : Pending env S F instrs settled i j (.stash id src) p d) :
    Performs env S F instrs settled i j (performCommandStash env) p d := by
  intro C Q hC hQ
  have hsha : env.sha1 (S.read src) = id := hcreator.meets _ (List.mem_of_getElem? h.instr)
  have hname : getStashFileName env id = id := getStashFileName_of_sha1 hsha
  have hsupplied := h.supplied.tail h.instr (by rintro _ ⟨⟩)
  rw [performCommandStash, wp_bind, wp_get, wpThen_some, htok]
  simp only [wp_bind, loadStash, wp_get, wpThen_some, h.idle.canwrite, if_true]
  refine wp_loadStashFile hname (fun p' f hp hfile _ _ => ?_) (fun hbad p' buffer hp _ _ => ?_)
    (fun f hfile _ _ hbad => ?_)
    fun f _ hfile _ hbad => absurd (h.reached.sound id f hfile).2 hbad
  · -- the stash is there
    rw [hp.eq h.idle.faults]
    simp only [wpThen_some, if_true, wp_bind, wp_modify, wp_pure]
    refine hQ _ d ⟨h.idle.faults, h.idle.canwrite, h.idle.freestash, h.idle.isunresumable⟩
      hsupplied ?_
    refine h.reached.progressed hcreator h.instr h.again h.stash (by rintro _ ⟨⟩) ?_
    rintro _ _ - ⟨⟩
    exact Option.isSome_iff_exists.mpr ⟨f, hfile⟩
  · have hnone : ∀ f, d.stashFile id ≠ some f := fun f hfile => by
      obtain ⟨htail, hf⟩ := h.reached.sound id f hfile
      rcases hbad h.idle.faults f hfile with hbad | ⟨-, hbad⟩
      · exact hbad htail
      · exact hbad hf
    rw [hp.eq h.idle.faults]
    simp only [wpThen_some, wp_bind, wp_modify, Bool.false_eq_true, if_false, parseRanges_eq hparse,
      wp_pure]
    refine wp_readBlocks (fun p' hp _ _ => ?_)
      (fun hbad => absurd (hcreator.within_source h.instr rfl) (hbad h.idle.faults)) fun hlen => ?_
    · rw [hp.eq h.idle.faults]
      simp only [wpThen_some, wp_bind, wp_modify, Bool.not_true, Bool.false_eq_true, if_false,
        Monitor.plain_view]
      refine wp_verifyBlocks (fun _ => ?_) fun hlen => ?_
      · rw [List.take_left' (Disk.length_read _ _), wpThen_some]
        split
        · -- the stash is made
          rename_i hverified
          have hverified : env.sha1 (d.read src) = id := of_decide_eq_true hverified
          have hrename := h.reached.renameStash h.stash hverified
          have hfile := stashFile_renameStash env id (d.read src) h.stash id
          rw [if_pos rfl] at hfile
          have hdir : (d.apply env (.renameStash id (d.read src))).stash.isSome = true := by
            have hstash := h.stash
            simpa [Disk.apply] using hstash
          have hprogressed := hrename.progressed hcreator h.instr h.again hdir (by rintro _ ⟨⟩) (by
            rintro _ _ - ⟨⟩
            exact Option.isSome_iff_exists.mpr ⟨_, hfile⟩)
          have hlast := hprogressed.reached.renameLast h.line.cmdline.1 h.line.cmdline.2
            (i := i) fun k hk => .inl ⟨by omega, (Nat.lt_or_eq_of_le hk).imp_left (h.before k)⟩
          simp only [wp_bind]
          refine wp_writeStash_made h.idle.faults hname h.stash (by rintro ⟨⟩) fun _ =>
            ⟨hC _ ⟨_, _, hrename⟩, ?_⟩
          simp only [wpThen_some, if_true, wp_bind, h.line.cmdindex]
          refine wp_updateLastCommandIndex (hC _ ⟨_, _, hlast⟩) (fun p'' r hp'' => ?_)
            fun hfaults => absurd h.idle.faults hfaults
          rw [hp''.eq h.idle.faults]
          simp only [wpThen_some, wp_pure]
          exact hQ _ _ ⟨h.idle.faults, h.idle.canwrite, h.idle.freestash, h.idle.isunresumable⟩
            hsupplied ⟨hlast, hdir⟩
        · -- its source has been overwritten since it was freed
          rename_i hverified
          rw [wp_pure]
          refine hQ _ d ⟨h.idle.faults, h.idle.canwrite, h.idle.freestash, h.idle.isunresumable⟩
            hsupplied ?_
          refine h.reached.progressed hcreator h.instr h.again h.stash (by rintro _ ⟨⟩)
            fun _ _ hij _ => ?_
          refine absurd (decide_eq_true ?_) hverified
          rw [h.read_source hcreator hij, hsha]
      · simp at hlen
    · rw [length_allocate] at hlen
      omega
  · exact absurd (h.reached.sound id f hfile).2 hbad

/-- Every function of the table, with the parameters that were read from its line. -/
theorem performs_perform {command : Command} {f : M env Bool}
    (hdecode : command.decode p.tokens = some c) (hf : command.perform env false = some f)
    (h : Pending env S F instrs settled i j c p d) : Performs env S F instrs settled i j f p d := by
  cases command with
  | move =>
    cases hf
    obtain ⟨t, ht, rfl⟩ := Option.map_eq_some_iff.mp hdecode
    exact performs_move hinj hcreator ht h
  | bsdiff | imgdiff =>
    cases hf
    rcases htok : p.tokens with _ | ⟨offset, _ | ⟨len, tokens⟩⟩ <;> rw [htok] at hdecode
    · cases hdecode
    · cases hdecode
    obtain ⟨off, hoff, hdecode⟩ := Option.bind_eq_some_iff.mp hdecode
    obtain ⟨n, hlen, hdecode⟩ := Option.bind_eq_some_iff.mp hdecode
    obtain ⟨t, ht, hdecode⟩ := Option.bind_eq_some_iff.mp hdecode
    cases hdecode
    exact performs_diff hinj hcreator htok hoff hlen ht h
  | stash =>
    cases hf
    rcases htok : p.tokens with _ | ⟨id, _ | ⟨text, tokens⟩⟩ <;> rw [htok] at hdecode
    · cases hdecode
    · cases hdecode
    obtain ⟨src, hparse, rfl⟩ := Option.map_eq_some_iff.mp hdecode
    exact performs_stash hcreator htok hparse h
  | free =>
    cases hf
    rcases htok : p.tokens with _ | ⟨id, tokens⟩ <;> rw [htok] at hdecode
    · cases hdecode
    · cases hdecode
      exact performs_free hcreator htok h
  | zero =>
    cases hf
    rcases htok : p.tokens with _ | ⟨text, tokens⟩ <;> rw [htok] at hdecode
    · cases hdecode
    · obtain ⟨tgt, hparse, rfl⟩ := Option.map_eq_some_iff.mp hdecode
      exact performs_zero hcreator htok hparse h
  | new =>
    cases hf
    rcases htok : p.tokens with _ | ⟨text, tokens⟩ <;> rw [htok] at hdecode
    · cases hdecode
    · obtain ⟨tgt, hparse, rfl⟩ := Option.map_eq_some_iff.mp hdecode
      exact performs_new hcreator htok hparse h
  | erase =>
    cases hf
    rcases htok : p.tokens with _ | ⟨text, tokens⟩ <;> rw [htok] at hdecode
    · cases hdecode
    · obtain ⟨tgt, hparse, rfl⟩ := Option.map_eq_some_iff.mp hdecode
      exact performs_erase hcreator htok hparse h

end

end BootableRecovery.BlockImg
