import BootableRecovery.Updater.Progress

/-!
# The commands of an update

Each command of an update, with no system call failing, from storage that some updates have reached:
after every step storage is still such, and at the end the command is done (`Progressed`). The
command may be the next one or, with stashes that are used once, one that is executed again.
-/

namespace BootableRecovery.BlockImg

/-- Storage at which an update can be resumed. -/
def Recoverable (env : Env) (S F : Image) (instrs : List Instr) (d : Disk) : Prop :=
  ∃ settled j, Reached env S F instrs settled j d

/-- The variables of an update between two commands. -/
structure Idle (p : CommandParameters) : Prop where
  faults : p.faults = []
  canwrite : p.canwrite = true
  freestash : p.freestash = []
  isunresumable : p.isunresumable = false

variable {env : Env} {S F : Image} {instrs : List Instr} {settled : Nat → Prop} {i j : Nat}
    {C : Disk → Prop}
variable {p p' : CommandParameters} {d d' : Disk} {tgt : RangeSet}

/-! ## Filling a target -/

/-- The program writes nothing but the target, and leaves it as in the image. -/
def FillsWith (env : Env) (F : Image) (tgt : RangeSet) (write : M env Bool)
    (p p' : CommandParameters) : Prop :=
  ∀ (C : Disk → Prop) (Q : Option (Bool × CommandParameters) → Disk → Prop) (d : Disk),
    (∀ d', d.SameBut tgt.toList d' → C d') →
    (∀ d', d.SameBut tgt.toList d' → d'.read tgt = F.read tgt → Q (some (true, p')) d') →
    wp (.plain (Disk.apply env)) C write Q p d

theorem part_of_read (h : d.read tgt = F.read tgt) : ∀ b ∈ tgt.toList, d.part b = F b :=
  List.map_inj_left.mp h

theorem read_of_part (h : ∀ b ∈ tgt.toList, d.part b = F b) : d.read tgt = F.read tgt :=
  List.map_inj_left.mpr h

theorem fillsWith_writeBlocks {buffer : List Block} (hf : p.faults = []) (hnodup : tgt.toList.Nodup)
    (hwithin : env.Within tgt) (hbuffer : buffer.take tgt.blocks = F.read tgt) :
    FillsWith env F tgt (writeBlocks env tgt buffer) p p := by
  intro C Q d hC hQ
  have hlen : tgt.blocks ≤ buffer.length := by
    have := congrArg List.length hbuffer
    rw [List.length_take, Image.length_read] at this
    omega
  have htouch : ∀ e ∈ writeSteps p.isRetry tgt.ranges buffer, e.Touches tgt.toList :=
    touches_writeSteps
  refine wp_writeBlocks (fun pre hpre => ?_) (fun p' hp _ _ => ?_)
    (fun hbad => absurd hwithin (hbad hf)) fun h => ?_
  · exact hC _ (.foldl fun e he => htouch e (hpre.subset he))
  · rw [hp.eq hf]
    exact hQ _ (.foldl htouch) ((read_writeSteps hnodup hlen).trans hbuffer)
  · omega

theorem sinkInvariant_filled (hnodup : tgt.toList.Nodup) (d : Disk) :
    SinkInvariant (Monitor.plain (Disk.apply env)) tgt (Filled tgt d) where
  write _ _ _ _ _ _ hne hoff _ haddr h := h.write env hnodup hne hoff haddr
  discard _ _ _ _ haddr h := h.discard env hnodup haddr

theorem within_addresses (hwithin : env.Within tgt) :
    ¬∃ a ∈ addresses tgt, env.blocks ≤ a / BLOCKSIZE := by
  rintro ⟨a, ha, hle⟩
  exact absurd (hwithin _ (mem_addresses.mp ha)) (by omega)

theorem length_bytes_read (F : Image) (tgt : RangeSet) :
    ((F.read tgt).flatMap Block.bytes).length = (addresses tgt).length := by
  rw [length_addresses, List.length_flatMap]
  simp

theorem fillsWith_applyPatch {pieces : List (List UInt8)} (hf : p.faults = [])
    (hnodup : tgt.toList.Nodup) (hwithin : env.Within tgt)
    (hpieces : pieces.flatten = (F.read tgt).flatMap Block.bytes) :
    FillsWith env F tgt (applyPatch env pieces (.make tgt) true) p p := by
  intro C Q d hC hQ
  refine wp_applyPatch (sinkInvariant_filled hnodup d) (fun _ _ h => hC _ h.same)
    (RangeSinkWriter.valid_make tgt) (by simp) (show Filled tgt d [] d from ⟨.refl, by simp⟩)
    (fun p' t' hp _ h => ?_) fun hbad => ?_
  · rw [hp.eq hf]
    rw [RangeSinkWriter.addresses_make, List.nil_append, hpieces] at h
    exact hQ t' h.same (h.read (Image.length_read F tgt))
  · rw [RangeSinkWriter.addresses_make, hpieces, length_bytes_read] at hbad
    rcases hbad hf with h | h
    · exact absurd h (Nat.lt_irrefl _)
    · exact absurd h (within_addresses hwithin)

theorem fillsWith_receiveNewData {stream : List (List UInt8)} (hf : p.faults = [])
    (hnodup : tgt.toList.Nodup) (hwithin : env.Within tgt) (hne : tgt.isValid = true)
    (hstream : (F.read tgt).flatMap Block.bytes <+: stream.flatten)
    {Q : Option (Bool × CommandParameters) → Disk → Prop}
    (hC : ∀ d', d.SameBut tgt.toList d' → C d')
    (hQ : ∀ d' rest, d.SameBut tgt.toList d' → d'.read tgt = F.read tgt →
      stream.flatten = (F.read tgt).flatMap Block.bytes ++ rest.flatten →
      Q (some (true, { p with nti := ⟨rest, true⟩ })) d') :
    wp (.plain (Disk.apply env)) C (receiveNewData env stream (.make tgt)) Q p d := by
  have haddresses : (RangeSinkWriter.make tgt).addresses ≠ [] := by
    have hpos := RangeSet.blocks_pos hne
    rw [RangeSinkWriter.addresses_make]
    intro hnil
    have := congrArg List.length hnil
    rw [length_addresses, List.length_nil] at this
    simp only [BLOCKSIZE] at this
    omega
  obtain ⟨tail, htail⟩ := hstream
  have hlen := length_bytes_read F tgt
  refine wp_receiveNewData (sinkInvariant_filled hnodup d) (fun _ _ h => hC _ h.same)
    (RangeSinkWriter.valid_make tgt) haddresses (by simp) (show Filled tgt d [] d
      from ⟨.refl, by simp⟩)
    (fun p' t' rest hp hle hrest h => ?_)
    fun hbad => ?_
  · rw [hp.eq hf]
    rw [RangeSinkWriter.addresses_make] at hrest h
    rw [List.nil_append, ← htail, zip_append_drop (by omega)] at h
    rw [List.drop_of_length_le (by omega), List.zip_nil_left, List.append_nil] at h
    refine hQ t' rest h.same (h.read (Image.length_read F tgt)) ?_
    rw [hrest, ← htail, List.drop_left' hlen]
  · rw [RangeSinkWriter.addresses_make, ← htail, List.length_append] at hbad
    rcases hbad hf with h | h
    · omega
    · exact absurd h (within_addresses hwithin)

theorem fillsWith_zeroRanges (hf : p.faults = []) (hnodup : tgt.toList.Nodup)
    (hwithin : env.Within tgt) (hzero : ∀ b ∈ tgt.toList, F b = 0) :
    FillsWith env F tgt (zeroRanges env tgt.ranges) p p := by
  have hread : F.read tgt = List.replicate tgt.blocks 0 := by
    rw [← RangeSet.length_toList, ← List.map_const', Image.read]
    exact List.map_inj_left.mpr hzero
  rw [zeroRanges_eq]
  refine fillsWith_writeBlocks hf hnodup hwithin ?_
  rw [hread]
  exact List.take_of_length_le (List.length_replicate ..).le

/-! ## Transfers -/

theorem Env.Within.read_eq (h : ∀ b ∈ tgt.toList, d.part b = S b) : d.read tgt = S.read tgt :=
  List.map_inj_left.mpr h

/-- The source of a command that has not been passed can be had, if its stashes can. -/
theorem Reached.available (hcreator : Creator env S F instrs)
    (h : Reached env S F instrs settled j d) {m : Nat}
    (hm : j ≤ m) {patch : Option (Bool × Nat × Nat)} {t : Transfer}
    (ht : instrs[m]? = some (.transfer patch t)) {content : List Block}
    (hgathers : t.source.Gathers env S content) (hhash : env.sha1 content = t.srchash)
    (hstashes : ∀ x ∈ t.source.stashes, ∃ blocks, Offers env p d x.1 blocks)
    (himplicit : m = j → (d.stashFile t.srchash).isSome = true → Offers env p d t.srchash content) :
    Available env S t content p d where
  gathers := hgathers
  hash := hhash
  within ranges hranges := hcreator.within_source ht (by rw [Instr.source, hranges]; rfl)
  stashes := hstashes
  ranges := by
    -- the blocks of the source that are not in the target of the command `j`
    have huntouched : ∀ ranges, t.source.ranges = some ranges → ∀ b ∈ ranges.toList,
        (m = j → b ∉ t.tgt.toList) → d.part b = S b := by
      intro ranges hranges b hb hnot
      refine h.untouched b fun i hi c hc hbc => ?_
      by_cases him : i = m
      · subst him
        rw [ht] at hc
        cases hc
        exact hnot (by omega) hbc
      · have hsource : b ∈ (Instr.transfer patch t).source := by
          rw [Instr.source, hranges]
          exact hb
        exact pairwise_getElem? hcreator.readFirst (by omega) hc ht b hbc hsource
    by_cases hover : m = j ∧ t.overlap = true
    · obtain ⟨rfl, hover⟩ := hover
      rcases h.implicit patch t ht hover with hsource | hsome
      · refine .inl fun ranges hranges => Env.Within.read_eq fun b hb => ?_
        by_cases hbt : b ∈ t.tgt.toList
        · exact hsource b hbt
        · exact huntouched ranges hranges b hb fun _ => hbt
      · exact .inr ⟨hover, himplicit rfl hsome⟩
    · refine .inl fun ranges hranges => Env.Within.read_eq fun b hb =>
        huntouched ranges hranges b hb fun hmj hbt => ?_
      have hnot : ranges.overlaps t.tgt = false := by
        have : t.overlap ≠ true := fun h => hover ⟨hmj, h⟩
        rw [Transfer.overlap, hranges] at this
        simpa using this
      exact absurd (RangeSet.overlaps_iff.mpr ⟨b, hb, hbt⟩) (by rw [hnot]; decide)

theorem Reached.offers (h : Reached env S F instrs settled j d) (hinj : Function.Injective env.sha1)
    (hw : p.canwrite = true) {id : Text} (hsome : (d.stashFile id).isSome = true)
    {content : List Block}
    (hsha : env.sha1 content = id) : Offers env p d id content := by
  obtain ⟨f, hfile⟩ := Option.isSome_iff_exists.mp hsome
  obtain ⟨htail, hf⟩ := h.sound id f hfile
  refine ⟨hsha, ?_⟩
  rw [if_pos hw]
  exact ⟨f, hfile, htail, hinj (hf.trans hsha.symm)⟩

/-- The line of a command, whose index may be saved. -/
structure OnLine (p : CommandParameters) (i : Nat) : Prop where
  cmdindex : p.cmdindex = cmdIndex i
  cmdline : '\n' ∉ p.cmdline ∧ ∃ c ∈ p.cmdline, isSpace c = false

theorem Stashed.reached {t : Transfer} {patch : Option (Bool × Nat × Nat)} {content : List Block}
    {fs : Text}
    (hstashed : Stashed env t content p d fs d') (h : Reached env S F instrs settled j d)
    (ht : instrs[j]? = some (.transfer patch t)) (hsettled : ∀ k < j, settled k)
    (hline : OnLine p j) (hstash : p.canwrite = true → d.stash.isSome = true)
    (hhash : env.sha1 content = t.srchash) : Reached env S F instrs settled j d' ∧
    d'.part = d.part ∧ (d.stash.isSome = true → d'.stash.isSome = true) ∧
      (t.overlap = true → p.canwrite = true → (d'.stashFile t.srchash).isSome = true) := by
  have hsaved : t.overlap = true → ∀ k ≤ j, k < j ∧ settled k ∨ k = j ∧ Overlapping instrs j := by
    intro hover k hk
    rcases Nat.lt_or_eq_of_le hk with hlt | rfl
    · exact .inl ⟨hlt, hsettled k hlt⟩
    · exact .inr ⟨rfl, patch, t, ht, hover⟩
  cases hstashed with
  | kept hsome => exact ⟨h, rfl, id, hsome⟩
  | found hover _ hsome =>
    rw [hline.cmdindex]
    exact ⟨h.renameLast hline.cmdline.1 hline.cmdline.2 (hsaved hover), rfl, id, fun _ _ => hsome⟩
  | created hover hwrite _ =>
    rw [hline.cmdindex]
    refine ⟨(h.renameStash (hstash hwrite) hhash).renameLast hline.cmdline.1 hline.cmdline.2
      (hsaved hover), rfl, fun hsome => ?_, fun _ _ => ?_⟩
    · simpa [Disk.apply] using hsome
    · have hfile := stashFile_renameStash env t.srchash content (hstash hwrite) t.srchash
      rw [if_pos rfl] at hfile
      exact Option.isSome_iff_exists.mpr ⟨_, hfile⟩

/-- The new data that the commands take from the stream. -/
def streamBytes (F : Image) (instrs : List Instr) : List UInt8 :=
  instrs.flatMap fun
    | .new tgt => (F.read tgt).flatMap Block.bytes
    | _ => []

/-- The stream starts with the new data of the commands. -/
def Supplied (F : Image) (instrs : List Instr) (nti : NewThreadInfo) : Prop :=
  streamBytes F instrs <+: nti.stream.flatten ∧ nti.receiverAvailable = true

/-- The commands can be executed again: they use each stash once and take no new data. -/
structure Resumable (instrs : List Instr) : Prop extends UsedOnce instrs where
  noNew : ∀ tgt, Instr.new tgt ∉ instrs

/-- The command `i` is about to be executed, for the first time (`i = j`) or again. -/
structure Pending (env : Env) (S F : Image) (instrs : List Instr) (settled : Nat → Prop) (i j : Nat)
    (c : Instr) (p : CommandParameters) (d : Disk) : Prop where
  instr : instrs[i]? = some c
  again : i = j ∨ i < j ∧ Resumable instrs
  idle : Idle p
  line : OnLine p i
  reached : Reached env S F instrs settled j d
  stash : d.stash.isSome = true
  before : ∀ k < i, settled k
  fresh : ¬settled i
  supplied : Supplied F (instrs.drop i) p.nti

/-- What a command leaves behind. -/
structure Progressed (env : Env) (S F : Image) (instrs : List Instr) (settled : Nat → Prop)
    (i j : Nat) (d : Disk) : Prop where
  reached : Reached env S F instrs (fun k => settled k ∨ k = i) (max j (i + 1)) d
  stash : d.stash.isSome = true

/-- Storage can be resumed from all along, and at the end the command `i` is done. -/
def Performs (env : Env) (S F : Image) (instrs : List Instr) (settled : Nat → Prop) (i j : Nat)
    (f : M env Bool) (p : CommandParameters) (d : Disk) : Prop :=
  ∀ (C : Disk → Prop) (Q : Option (Bool × CommandParameters) → Disk → Prop),
    (∀ d', Recoverable env S F instrs d' → C d') →
    (∀ p' d', Idle p' → Supplied F (instrs.drop (i + 1)) p'.nti →
      Progressed env S F instrs settled i j d' → Q (some (true, p')) d') →
    wp (.plain (Disk.apply env)) C f Q p d

theorem streamBytes_drop {c : Instr} (hi : instrs[i]? = some c) :
    streamBytes F (instrs.drop i) = streamBytes F [c] ++ streamBytes F (instrs.drop (i + 1)) := by
  obtain ⟨hlt, rfl⟩ := List.getElem?_eq_some_iff.mp hi
  rw [List.drop_eq_getElem_cons hlt, streamBytes, List.flatMap_cons, streamBytes,
    List.flatMap_singleton, streamBytes]

theorem Supplied.tail {nti : NewThreadInfo} {c : Instr} (h : Supplied F (instrs.drop i) nti)
    (hi : instrs[i]? = some c) (hnew : ∀ tgt, c ≠ .new tgt) :
    Supplied F (instrs.drop (i + 1)) nti := by
  obtain ⟨hbytesIn, havailable⟩ := h
  have hnone : streamBytes F [c] = [] := by
    cases c with
    | new tgt => exact absurd rfl (hnew tgt)
    | _ => rfl
  rw [streamBytes_drop hi, hnone, List.nil_append] at hbytesIn
  exact ⟨hbytesIn, havailable⟩

theorem Pending.le {c : Instr} (h : Pending env S F instrs settled i j c p d) : i ≤ j := by
  rcases h.again with h | h
  · exact h.le
  · exact h.1.le

section
variable (hinj : Function.Injective env.sha1) (hcreator : Creator env S F instrs)
include hinj hcreator

theorem performs_transfer {patch : Option (Bool × Nat × Nat)} {t : Transfer} {onehash : Bool}
    {tokens : List Text}
    (write : RangeSet → Nat → CommandParameters → M env Bool)
    (hdecode : Transfer.decode onehash tokens = some t)
    (hpending : Pending env S F instrs settled i j (.transfer patch t) p d)
    (hwrite : ∀ (content : List Block) (p' : CommandParameters), env.sha1 content = t.srchash →
      content.length = t.source.count → t.source.Gathers env S content → p'.faults = [] →
      p'.buffer.take t.source.count = content →
      FillsWith env F t.tgt (write t.tgt t.source.count p') p' p') :
      Performs env S F instrs settled i j (do
      let (status, tgt, blocks) ← loadSrcTgtVersion3 env tokens onehash
      afterLoad env status (write tgt blocks)) p d := by
  intro C Q hC hQ
  have hij := hpending.le
  obtain ⟨hi, -, hp, hline, h, hstash, hsettled, -, hsupplied⟩ := hpending
  replace hsupplied := hsupplied.tail hi (by rintro _ ⟨⟩)
  obtain ⟨htgthash, content, hgathers, hhash, -⟩ := hcreator.meets _ (List.mem_of_getElem? hi)
  have hwithin : env.Within t.tgt := hcreator.within_target hi rfl
  have hnodup := hcreator.once _ (List.mem_of_getElem? hi)
  -- a target with its hash is the target of the image
  have htarget : env.sha1 (d.read t.tgt) = t.tgthash → ∀ b ∈ t.tgt.toList, d.part b = F b :=
    fun hsha => part_of_read (hinj (hsha.trans htgthash.symm))
  have heq : env.sha1 (d.read t.tgt) ≠ t.tgthash → i = j := by
    intro hne
    by_contra hnot
    refine hne ?_
    rw [read_of_part (h.written i (by omega) _ hi (by rintro ⟨⟩)), htgthash]
  rw [wp_bind]
  refine wp_loadSrcTgtVersion3_available (S := S) content hinj hp.faults hdecode hwithin
    (fun hne => ?_)
    (fun _ => hstash) (fun hne fs d' hd' => ?_) (fun hne _ _ _ => ?_) (fun hsha => ?_)
      fun buffer fs d' hne hbuffer hd' => ?_
  · -- the stashes of the next command are there
    cases heq hne
    refine h.available hcreator (Nat.le_refl i) hi hgathers hhash (fun x hx => ?_)
      fun _ hsome => h.offers hinj hp.canwrite hsome hhash
    obtain ⟨blocks, hsha, -⟩ := hgathers.stashes x hx
    refine ⟨blocks,
      h.offers hinj hp.canwrite (h.present x.1 ⟨i, Nat.le_refl i, _, hi, ?_, ?_⟩) hsha⟩
    · exact List.mem_map_of_mem hx
    · exact fun s hs hlt => absurd hs (by omega)
  · cases heq hne
    exact hC d' ⟨_, _, (hd'.reached h hi hsettled hline (fun _ => hstash) hhash).1⟩
  · exact hC _ ⟨_, _, h.renameStash hstash hhash⟩
  · -- the target is done
    simp only [wpThen_some, afterLoad, reduceCtorEq, if_false, wp_bind, wp_modify, if_true, wp_get,
      decide_false, Bool.and_false, Bool.false_eq_true, wp_pure, releaseStash, hp.freestash,
      List.isEmpty_nil, Bool.not_true]
    refine hQ _ d ⟨hp.faults, hp.canwrite, rfl, hp.isunresumable⟩ hsupplied ⟨?_, hstash⟩
    rcases Nat.lt_or_eq_of_le hij with hlt | rfl
    · rw [Nat.max_eq_left (by omega)]
      refine h.settle fun c hc hloose => ?_
      rw [hi] at hc
      cases hc
      cases hloose
    · rw [Nat.max_eq_right (by omega)]
      exact h.advance hcreator hi (htarget hsha) fun _ _ h => by cases h
  · cases heq hne
    obtain ⟨h', hpart, hsome, himplicit⟩ := hd'.reached h hi hsettled hline (fun _ => hstash) hhash
    have hwriting : ∀ d'', d'.SameBut t.tgt.toList d'' → Reached env S F instrs settled i d'' :=
      fun d'' hsame =>
      h'.writing hcreator hi (.inl rfl)
        (by
          rintro _ _ ⟨⟩ hover
          exact himplicit hover hp.canwrite) (by rintro _ ⟨⟩) hsame
    simp only [wpThen_some, afterLoad, reduceCtorEq, if_false, wp_bind, wp_modify, wp_get,
      decide_true, Bool.and_true, hp.canwrite, if_true]
    refine hwrite content { p with buffer, freestash := fs, canwrite := true } hhash hgathers.count
      hgathers hp.faults
      hbuffer _ _ d'
      (fun d'' hsame => hC d'' ⟨_, _, hwriting d'' hsame⟩) fun d'' hsame hread => ?_
    have hwritten := hwriting d'' hsame
    have hadvanced := hwritten.advance hcreator hi (part_of_read hread) fun _ _ h => by cases h
    have hstash' : d''.stash.isSome = true := by
      rw [hsame.stash]
      exact hsome hstash
    simp only [wpThen_some, if_true, releaseStash, wp_bind, wp_get]
    split
    · -- the implicit stash is freed
      rename_i hfs
      have hunlink : Reached env S F instrs (fun k => settled k ∨ k = i) (i + 1)
          (d''.apply env (.unlinkStash fs)) := by
        have hcreated : fs = t.srchash ∧ d.stashFile t.srchash = none := by
          cases hd' with
          | kept | found => simp [hp.freestash] at hfs
          | created _ _ hnone => exact ⟨rfl, hnone⟩
        refine hadvanced.unlinkStash (fun hneeded => ?_) fun patch' t' ht' _ =>
          .inr (hwritten.next_untouched hcreator ht')
        have hpresent := h.present fs (hneeded.pred fun src hsrc => by rw [hi] at hsrc; cases hsrc)
        rw [hcreated.1, hcreated.2] at hpresent
        cases hpresent
      have hname : getStashFileName env fs = fs := by
        cases hd' with
        | kept | found => simp [hp.freestash] at hfs
        | created => exact getStashFileName_of_sha1 hhash
      simp only [freeStash, wp_bind, hname]
      rw [if_neg (by simpa using hfs)]
      simp only [wp_bind]
      refine wp_deleteFile (hC _ ⟨_, _, hunlink⟩) (fun p'' hp'' => ?_) fun hf => absurd hp.faults hf
      rw [hp''.eq hp.faults]
      simp only [wpThen_some, wp_pure, wp_modify]
      refine hQ _ _ ⟨hp.faults, rfl, rfl, hp.isunresumable⟩ hsupplied ⟨?_, ?_⟩
      · rwa [Nat.max_eq_right (by omega)]
      · simpa [Disk.apply] using hstash'
    · rename_i hfs
      simp only [wp_pure, wpThen_some]
      refine hQ _ d'' ⟨hp.faults, rfl, ?_, hp.isunresumable⟩ hsupplied ⟨?_, hstash'⟩
      · simpa using hfs
      · rwa [Nat.max_eq_right (by omega)]

end

end BootableRecovery.BlockImg
