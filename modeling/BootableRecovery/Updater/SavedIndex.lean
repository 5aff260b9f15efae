import BootableRecovery.Theory.System
import BootableRecovery.Updater.Contents
import BootableRecovery.Updater.Executions
import BootableRecovery.Updater.Load

/-!
# What the saved index promises

A call skips the commands up to the saved index without a look at the partition. So the index is
sound if each of these commands has been executed to its end at some time before.
`PerformCommandStash` saves the index when nothing of its own is left to be done, but
`LoadSrcTgtVersion3` saves it before the target is written. `guardedRuns_sound` is about the runs
that do not take this branch.
-/

namespace BootableRecovery.BlockImg

/-- What a command is for: its target gets a hash, or is written. -/
inductive Effect
  | hashed (tgthash : Text) (tgt : RangeSet)
  | written (tgt : RangeSet)

/-- The effect of a command with hashes. -/
def hashedTarget (onehash : Bool) (tokens : List Text) : Option Effect :=
  match splitHashes onehash tokens with
  | some (_, tgthash, tgt :: _) => some (.hashed tgthash (RangeSet.parse tgt))
  | _ => none

/-- The effect of a line, `none` for commands that only work on stashes or discard blocks. -/
def effectOf (line : Text) : Option Effect :=
  match commandOf line with
  | some .move => hashedTarget true (line.splitOn ' ').tail
  | some .bsdiff | some .imgdiff => hashedTarget false ((line.splitOn ' ').tail.drop 2)
  | some .zero | some .new =>
    (line.splitOn ' ').tail.head?.map fun tgt => .written (RangeSet.parse tgt)
  | _ => none

/-- An execution with the steps `body` that has left `d` has had the effect. -/
def Effect.Took (env : Env) (d : Disk) (body : List Step) : Effect → Prop
  | .hashed tgthash tgt => env.sha1 (d.read tgt) = tgthash
  | .written tgt => ∀ a ∈ addresses tgt, ∃ c, (a, c) ∈ BlockImg.written body

/-- Line `i` was executed at some time, and had its effect at the end of that execution. The state
is storage at the start, with the log of all calls. -/
def TookEffect (env : Env) (t : Disk × List Step) (i : Nat) (line : Text) : Prop :=
  ∀ effect, effectOf line = some effect → ∃ before params body, Executed t.2 before i params body ∧
    effect.Took env ((before ++ .began i params :: body).foldl (Disk.apply env) t.1) body

/-- If an index is saved, the lines up to it have taken effect. -/
def Sound (env : Env) (lines : List Text) (t : Disk × List Step) : Prop :=
  ∀ k, (t.2.foldl (Disk.apply env) t.1).savedIndex = some k → ∀ i : Nat, (i : Int) ≤ k →
    ∀ line, lines[i]? = some line → TookEffect env t i line

variable {env : Env} {lines : List Text} {t : Disk × List Step}

theorem TookEffect.mono {i : Nat} {line : Text} {log : List Step} (h : TookEffect env t i line)
    (hpre : t.2 <+: log) : TookEffect env (t.1, log) i line := by
  intro effect he
  obtain ⟨before, params, body, hx, htook⟩ := h effect he
  exact ⟨before, params, body, hx.mono hpre, htook⟩

theorem TookEffect.snoc {i : Nat} {line : Text} (h : TookEffect env t i line) (e : Step) :
    TookEffect env (t.1, t.2 ++ [e]) i line :=
  h.mono (List.prefix_append _ _)

theorem Sound.snoc (h : Sound env lines t) {e : Step}
    (he : ∀ k, ((t.2.foldl (Disk.apply env) t.1).apply env e).savedIndex = some k →
      (t.2.foldl (Disk.apply env) t.1).savedIndex = some k) :
    Sound env lines (t.1, t.2 ++ [e]) := by
  intro k hk i hi line hline
  rw [List.foldl_append] at hk
  exact (h k (he k hk) i hi line hline).snoc e

theorem Sound.data (h : Sound env lines t) {e : Step} (he : e.IsData) :
    Sound env lines (t.1, t.2 ++ [e]) := by
  refine h.snoc fun k hk => ?_
  rwa [Disk.savedIndex, he.lastCommand_apply] at hk

theorem Sound.unsaving (h : Sound env lines t) {e : Step} (he : e.IsUnsaving) :
    Sound env lines (t.1, t.2 ++ [e]) := by
  cases e with
  | unlinkLast => exact h.snoc fun k hk => by cases hk
  | began | finished | skipped | renameLast => cases he
  | _ => exact h.data he

theorem Sound.rename {content : Text}
    (h : ∀ k, parseLastCommand content = some k → ∀ i : Nat, (i : Int) ≤ k → ∀ line,
      lines[i]? = some line → TookEffect env t i line) :
    Sound env lines (t.1, t.2 ++ [.renameLast content]) := by
  intro k hk i hi line hline
  rw [List.foldl_append] at hk
  exact (h k hk i hi line hline).snoc _

/-! ## The content of the file -/

theorem exists_not_isSpace {line : Text} {command : Command} (h : commandOf line = some command) :
    ∃ c ∈ line, isSpace c = false := by
  obtain ⟨name, hname, hcommand⟩ := Option.bind_eq_some_iff.mp h
  have hmem : name ∈ line.splitOn ' ' := List.mem_of_mem_head? hname
  have heq : command.name = cstr name := by simpa using List.find?_some hcommand
  obtain ⟨c, hc, hsp⟩ : ∃ c ∈ command.name, isSpace c = false := by
    cases command <;> exact ⟨_, List.mem_cons_self, by decide⟩
  rw [heq] at hc
  exact ⟨c, (of_mem_splitOn hmem).2 c (mem_of_mem_cstr hc), hsp⟩

theorem parseLastCommand_content {i : Nat} {line : Text} (hnl : '\n' ∉ line)
    (hc : ∃ c ∈ line, isSpace c = false) :
    parseLastCommand (lastCommandContent (cmdIndex i) line) = some (cmdIndex i) := by
  have htext : '\n' ∉ toText (cmdIndex i) := fun h => absurd (not_isSpace_toText h) (by decide)
  have hlast : '\n' ∉ line.rdropWhile isSpace := fun h =>
    hnl ((List.rdropWhile_prefix isSpace line).subset h)
  obtain ⟨c, s, hcs⟩ := List.exists_cons_of_ne_nil (toText_ne_nil (cmdIndex i))
  have hnot : isSpace c = false := not_isSpace_toText (hcs ▸ List.mem_cons_self)
  have htrim : trim (lastCommandContent (cmdIndex i) line) =
      toText (cmdIndex i) ++ '\n' :: line.rdropWhile isSpace := by
    have := trim_cons_append (s := s ++ ['\n']) hnot hc
    simpa [lastCommandContent, hcs] using this
  rw [parseLastCommand, htrim, List.splitOn_append_cons_self_of_not_mem htext,
    List.splitOn_eq_singleton hlast]
  refine parseInt_toText ?_ ?_ <;> unfold cmdIndex <;> split <;> simp only [INT_MAX] at * <;> omega

/-! ## What a command needs -/

/-- A `move` fills its target: each block of it is named once, and the source has as many blocks. -/
def MoveDelivers (d : Disk) (tokens : List Text) : Prop :=
  ∀ srchash tgthash tgt blocks, Targets true tokens srchash tgthash tgt →
  Counts true tokens blocks →
    tgt.toList.Nodup ∧ wrapBlocks blocks = tgt.blocks ∧
    ∀ f, d.stashFile srchash = some f → f.blocks.length = tgt.blocks

/-- A patch gives the target from the source. -/
def DiffDelivers (env : Env) (d : Disk) (imgdiff : Bool) (offset len : Nat) (tokens : List Text) :
    Prop :=
  ∀ srchash tgthash tgt blocks, Targets false tokens srchash tgthash tgt →
    Counts false tokens blocks → tgt.toList.Nodup ∧
    (∀ f, d.stashFile srchash = some f → f.blocks.length = wrapBlocks blocks) ∧
    ∀ source, source.length = wrapBlocks blocks → env.sha1 source = srchash →
      (env.patch imgdiff offset len source).2 = true → ∃ target : List Block,
        target.length = tgt.blocks ∧
        (env.patch imgdiff offset len source).1.flatten = target.flatMap Block.bytes ∧
        env.sha1 target = tgthash

/-- The command that starts with the variables `p` delivers its target, if it finds its source. -/
def Delivers (env : Env) (d : Disk) (p : CommandParameters) : Prop :=
  match commandOf p.cmdline, p.tokens with
  | some .move, tokens => MoveDelivers d tokens
  | some .bsdiff, offset :: len :: tokens =>
    ∀ o l, parseUint offset = some o → parseUint len = some l →
      DiffDelivers env d false o l tokens
  | some .imgdiff, offset :: len :: tokens => ∀ o l, parseUint offset = some o →
      parseUint len = some l → DiffDelivers env d true o l tokens
  | _, _ => True

/-- The command that starts with the variables `p` stashes its source by itself. -/
def StashesImplicitly (env : Env) (d : Disk) (p : CommandParameters) : Prop :=
  match commandOf p.cmdline, p.tokens with
  | some .move, tokens => StashesSource env tokens true d p
  | some .bsdiff, _ :: _ :: tokens => StashesSource env tokens false d p
  | some .imgdiff, _ :: _ :: tokens => StashesSource env tokens false d p
  | _, _ => False

/-! ## One command -/

/-- In the middle of the command of line `i`. -/
structure InCommand (env : Env) (lines : List Text) (start : Disk) (before : List Step) (i : Nat)
    (params : CommandParameters) (t : Disk × List Step) : Prop where
  start_eq : t.1 = start
  sound : Sound env lines t
  running : ∃ body, Running t.2 before i params body
  earlier : params.canwrite = true → ∀ j < i, ∀ line, lines[j]? = some line →
    TookEffect env t j line

/-- The command of line `i` has returned. -/
structure Returned (env : Env) (lines : List Text) (start : Disk) (before : List Step) (i : Nat)
    (line : Text) (params : CommandParameters) (t : Disk × List Step) : Prop
    extends InCommand env lines start before i params t where
  took : params.canwrite = true → ∀ effect, effectOf line = some effect → ∀ body,
    Running t.2 before i params body → effect.Took env (t.2.foldl (Disk.apply env) t.1) body

section
variable {start : Disk} {before : List Step} {i : Nat} {params p : CommandParameters} {line : Text}

theorem InCommand.data (h : InCommand env lines start before i params t) {e : Step}
    (he : e.IsData) : InCommand env lines start before i params (t.1, t.2 ++ [e]) := by
  obtain ⟨body, hr⟩ := h.running
  exact ⟨h.start_eq, h.sound.data he, ⟨_, hr.snoc he.isStorage⟩,
    fun hw j hj line hline => (h.earlier hw j hj line hline).snoc e⟩

theorem InCommand.foldl (h : InCommand env lines start before i params t) {steps : List Step}
    (hsteps : ∀ e ∈ steps, e.IsData) : InCommand env lines start before i params
      (steps.foldl (Monitor.history (Disk.apply env)).step t) := by
  induction steps generalizing t with
  | nil => exact h
  | cons e steps ih => exact ih (h.data (hsteps e (by simp))) fun e he => hsteps e (by simp [he])

theorem InCommand.returned (h : InCommand env lines start before i params t)
    (hnone : params.canwrite = true → effectOf line = none) :
    Returned env lines start before i line params t :=
  ⟨h, fun hw effect heff => absurd heff (by simp [hnone hw])⟩

/-- The postcondition of a command. -/
def CommandPost (env : Env) (lines : List Text) (start : Disk) (before : List Step) (i : Nat)
    (line : Text) (params : CommandParameters) (r : Option (Bool × CommandParameters))
    (t : Disk × List Step) : Prop :=
  InCommand env lines start before i params t ∧ ∀ p', r = some (true, p') →
    p'.settings = params.settings ∧ Returned env lines start before i line params t

theorem commandPost_of_ne {r : Option (Bool × CommandParameters)}
    (h : InCommand env lines start before i params t) (hr : ∀ p', r ≠ some (true, p')) :
    CommandPost env lines start before i line params r t :=
  ⟨h, fun p' heq => absurd heq (hr p')⟩

/-- Commands that only work on the partition or on stashes, and have no effect to show. -/
theorem wp_data {x : M env Bool} (hx : x.Confined Step.IsData CommandParameters.settings)
    (hnone : params.canwrite = true → effectOf line = none)
    (h : InCommand env lines start before i params t) :
    wp (Monitor.history (Disk.apply env)) (InCommand env lines start before i params) x
      (CommandPost env lines start before i line params) params t := by
  refine hx.wp (fun t e he ht => ht.data he) h fun r t ht hF => ⟨ht, fun p' hr => ?_⟩
  exact ⟨hF _ _ hr, ht.returned hnone⟩

theorem wp_new_took (hw : params.canwrite = true) (hc : commandOf line = some .new)
    (htok : params.tokens = (line.splitOn ' ').tail)
    (hrun : Running t.2 before i params [])
    (h : InCommand env lines start before i params t) :
    wp (Monitor.history (Disk.apply env)) (InCommand env lines start before i params)
      (performCommandNew env) (CommandPost env lines start before i line params) params t := by
  have hI : ∀ tgt, SinkInvariant (Monitor.history (Disk.apply env)) tgt fun done t =>
      InCommand env lines start before i params t ∧
        ∃ body, Running t.2 before i params body ∧ written body = done := by
    intro tgt
    constructor
    · rintro done t b off data rest - - - - ⟨h, body, hr, rfl⟩
      exact ⟨h.data trivial, _, hr.snoc trivial, by simp [written, Step.written]⟩
    · rintro done t r rest - ⟨h, body, hr, rfl⟩
      exact ⟨h.data trivial, _, hr.snoc trivial, by simp [written, Step.written]⟩
  refine wp_performCommandNew hI (fun _ _ h => h.1) hw ⟨h, [], hrun, rfl⟩
    (fun p' t' tgt rest htgt hp hlen _ ht => ?_) (fun r t' done hr ht => commandPost_of_ne ht.1 hr)
  obtain ⟨ht, body, hr, hwr⟩ := ht
  refine ⟨ht, fun p'' heq => ?_⟩
  cases heq
  refine ⟨?_, ht, fun _ effect heff body' hr' => ?_⟩
  · obtain ⟨⟨_, rfl⟩, -⟩ := hp
    rfl
  · obtain ⟨-, -, -, rfl⟩ := hr.unique hr'
    rw [htok] at htgt
    simp only [effectOf, hc] at heff
    obtain ⟨s, hs, rfl⟩ := Option.map_eq_some_iff.mp htgt
    rw [hs, Option.map_some] at heff
    cases heff
    intro a ha
    rw [hwr]
    obtain ⟨n, hn⟩ := List.mem_iff_getElem?.mp ha
    have hn' : n < (params.nti.stream.flatten).length := by
      have := (List.getElem?_eq_some_iff.mp hn).1
      rw [length_addresses] at this
      omega
    exact ⟨params.nti.stream.flatten[n], List.mem_iff_getElem?.mpr
      ⟨n, List.getElem?_zip_eq_some.mpr ⟨hn, List.getElem?_eq_getElem hn'⟩⟩⟩

theorem exists_write_mem_writeSteps {retry : Bool} {rs : List Range} {data : List Block} {b : Nat}
    (hlen : (rs.map fun r => r.2 - r.1).sum ≤ data.length) (hb : b ∈ rs.flatMap Range.toList) :
    ∃ v, Step.write b v ∈ writeSteps retry rs data := by
  induction rs generalizing data with
  | nil => simp at hb
  | cons r rs ih =>
    simp only [List.map_cons, List.sum_cons] at hlen
    simp only [writeSteps, List.mem_append]
    rcases List.mem_append.mp (List.flatMap_cons ▸ hb) with hb | hb
    · obtain ⟨n, hn⟩ := List.mem_iff_getElem?.mp hb
      have hn' : n < data.length := by
        have := (List.getElem?_eq_some_iff.mp hn).1
        rw [Range.length_toList] at this
        omega
      refine ⟨data[n], .inl (.inr (List.mem_iff_getElem?.mpr ⟨n, ?_⟩))⟩
      rw [List.getElem?_zipWith, hn, List.getElem?_eq_getElem hn']
    · have hlen' : (rs.map fun r => r.2 - r.1).sum ≤ (data.drop (r.2 - r.1)).length := by
        rw [List.length_drop]
        omega
      obtain ⟨v, hv⟩ := ih hlen' hb
      exact ⟨v, .inr hv⟩

theorem exists_mem_written_write (a : Nat) (v : Block) :
    ∃ c, (a, c) ∈ (Step.write (a / BLOCKSIZE) v).written := by
  have hmod : a % BLOCKSIZE < BLOCKSIZE := Nat.mod_lt _ (by decide)
  have hbyte : a % BLOCKSIZE < v.bytes.length := by simpa using hmod
  have hdiv : a / BLOCKSIZE * BLOCKSIZE + a % BLOCKSIZE = a := by
    rw [Nat.mul_comm]
    exact Nat.div_add_mod a BLOCKSIZE
  refine ⟨v.bytes[a % BLOCKSIZE], List.mem_iff_getElem?.mpr ⟨a % BLOCKSIZE, ?_⟩⟩
  exact List.getElem?_zip_eq_some.mpr ⟨by simp [hmod, hdiv], by simp [hmod]⟩

theorem wp_zero_took (hw : params.canwrite = true) (hc : commandOf line = some .zero)
    (htok : params.tokens = (line.splitOn ' ').tail) (hrun : Running t.2 before i params [])
    (h : InCommand env lines start before i params t) :
    wp (Monitor.history (Disk.apply env)) (InCommand env lines start before i params)
      (performCommandZero env) (CommandPost env lines start before i line params) params t := by
  obtain ⟨d, log⟩ := t
  simp only [performCommandZero, wp_bind, wp_get, wpThen_some]
  rcases htgt : params.tokens with _ | ⟨tgt, tokens⟩
  · simpa using commandPost_of_ne h (by simp)
  simp only [parseRanges, wp_bind]
  split
  · simp only [wp_pure, wpThen_some, wp_bind, wp_modify]
    rw [zeroRanges_eq]
    generalize hdata : List.replicate ((RangeSet.parse tgt).ranges.map fun r => r.2 - r.1).sum
      (0 : Block) = data
    generalize hsteps : writeSteps params.isRetry (RangeSet.parse tgt).ranges data = steps
    have hlen : ((RangeSet.parse tgt).ranges.map fun r => r.2 - r.1).sum = data.length := by
      rw [← hdata, List.length_replicate]
    have hall : ∀ e ∈ steps, e.IsData := by
      rw [← hsteps]
      exact fun e he => (touches_writeSteps e he).isData
    refine wp_writeRanges (fun pre hpre => ?_) (fun p' hp _ _ => ?_) (fun _ p' pre _ hpre => ?_)
      (fun hlt => by omega)
    · exact h.foldl fun e he => hall e (hsteps ▸ hpre.subset he)
    · have hwritten := h.foldl hall
      rw [Monitor.history_foldl] at hwritten
      dsimp only
      rw [hsteps, Monitor.history_foldl]
      refine ⟨hwritten, fun p'' heq => ?_⟩
      cases heq
      refine ⟨?_, hwritten, fun _ effect heff body hr => ?_⟩
      · obtain ⟨⟨_, rfl⟩, -⟩ := hp
        rfl
      · have hr' := hrun.append fun e he => (hall e he).isStorage
        obtain ⟨-, -, -, rfl⟩ := hr'.unique hr
        simp only [effectOf, hc, ← htok, htgt, List.head?_cons, Option.map_some,
          Option.some.injEq] at heff
        subst heff
        intro a ha
        obtain ⟨v, hv⟩ : ∃ v, Step.write (a / BLOCKSIZE) v ∈ steps := by
          rw [← hsteps]
          exact exists_write_mem_writeSteps (Nat.le_of_eq hlen) (mem_addresses.mp ha)
        obtain ⟨c, hac⟩ := exists_mem_written_write a v
        exact ⟨c, List.mem_flatMap.mpr ⟨_, by simpa using hv, hac⟩⟩
    · exact commandPost_of_ne (h.foldl fun e he => hall e (hsteps ▸ hpre.subset he)) (by simp)
  · simpa using commandPost_of_ne h (by simp)

theorem InCommand.rename (h : InCommand env lines start before i params t)
    (hw : params.canwrite = true) (hline : lines[i]? = some line) (hnl : '\n' ∉ line)
    (hc : ∃ command, commandOf line = some command) (hnone : effectOf line = none) :
    InCommand env lines start before i params
      (t.1, t.2 ++ [.renameLast (lastCommandContent (cmdIndex i) (cstr line))]) := by
  obtain ⟨body, hr⟩ := h.running
  obtain ⟨command, hc⟩ := hc
  rw [← commandOf_cstr] at hc
  refine ⟨h.start_eq, .rename fun k hk j hj line' hline' => ?_, ⟨_, hr.snoc trivial⟩,
    fun hw j hj line' hline' => (h.earlier hw j hj line' hline').snoc _⟩
  rw [parseLastCommand_content (fun h => hnl (mem_of_mem_cstr h)) (exists_not_isSpace hc)] at hk
  cases hk
  have hji : j ≤ i := by
    unfold cmdIndex at hj
    split at hj <;> omega
  rcases Nat.lt_or_eq_of_le hji with hlt | rfl
  · exact h.earlier hw j hlt line' hline'
  · cases hline.symm.trans hline'
    intro effect heff
    cases hnone.symm.trans heff

theorem wp_stash_took (hc : commandOf line = some .stash) (hline : lines[i]? = some line)
    (hnl : '\n' ∉ line) (hindex : params.cmdindex = cmdIndex i)
    (hcmdline : params.cmdline = cstr line) (h : InCommand env lines start before i params t) :
    wp (Monitor.history (Disk.apply env)) (InCommand env lines start before i params)
      (performCommandStash env) (CommandPost env lines start before i line params) params t := by
  have hnone : effectOf line = none := by simp [effectOf, hc]
  have hreturn : ∀ p' t', p'.settings = params.settings →
      InCommand env lines start before i params t' →
      CommandPost env lines start before i line params (some (true, p')) t' := by
    intro p' t' hp ht
    refine ⟨ht, fun p'' heq => ?_⟩
    cases heq
    exact ⟨hp, ht.returned fun _ => hnone⟩
  have hdata : ∀ (t : Disk × List Step) e, Step.IsData e →
      InCommand env lines start before i params t →
      InCommand env lines start before i params ((Monitor.history (Disk.apply env)).step t e) :=
    fun t e he ht => ht.data he
  simp only [performCommandStash, wp_bind, wp_get, wpThen_some]
  rcases htok : params.tokens with _ | ⟨id, _ | ⟨src, tokens⟩⟩
  · simpa using commandPost_of_ne h (by simp)
  · simpa using commandPost_of_ne h (by simp)
  simp only [wp_bind]
  refine confined_loadStash.wp hdata h fun r t h hp => ?_
  rcases r with _ | ⟨⟨ok, buffer⟩, p₁⟩
  · exact commandPost_of_ne h (by simp)
  have hp₁ : p₁.settings = params.settings := congrArg Prod.fst (hp _ _ rfl)
  simp only [wpThen_some, wp_bind, wp_modify]
  split
  · exact wp_pure.mpr (hreturn _ t hp₁ h)
  simp only [wp_bind, parseRanges]
  split
  · simp only [wp_pure, wpThen_some, wp_bind]
    refine wp_readBlocks (fun p₂ hp₂ _ _ => ?_) (fun _ p₂ _ hp₂ _ => ?_)
      (fun _ => commandPost_of_ne h (by simp))
    · simp only [wpThen_some, wp_bind, wp_modify, Bool.not_true, Bool.false_eq_true, if_false]
      refine wp_verifyBlocks (fun _ => ?_) (fun _ => commandPost_of_ne h (by simp))
      have hp₂ : p₂.settings = params.settings := by
        obtain ⟨⟨_, rfl⟩, -⟩ := hp₂
        exact hp₁
      simp only [wpThen_some]
      split
      · split
        · exact wp_pure.mpr (hreturn _ t hp₂ h)
        · rename_i hw
          have hw : params.canwrite = true := by simpa using hw
          simp only [wp_bind]
          refine confined_writeStash.wp hdata h fun r t h hp => ?_
          rcases r with _ | ⟨⟨ok, existed⟩, p₃⟩
          · exact commandPost_of_ne h (by simp)
          have hp₃ : p₃.settings = params.settings := (congrArg Prod.fst (hp _ _ rfl)).trans hp₂
          simp only [wpThen_some]
          split
          · have hrename := h.rename hw hline hnl ⟨_, hc⟩ hnone
            rw [hindex, hcmdline]
            simp only [wp_bind]
            refine wp_updateLastCommandIndex hrename (fun p₄ _ hp₄ => ?_) (fun _ p₄ hp₄ => ?_)
            · simp only [wpThen_some, wp_pure]
              refine hreturn p₄ _ ?_ hrename
              obtain ⟨⟨_, rfl⟩, -⟩ := hp₄
              exact hp₃
            · simp only [wpThen_some, wp_pure]
              refine hreturn p₄ _ ?_ h
              obtain ⟨⟨_, rfl⟩, -⟩ := hp₄
              exact hp₃
          · simpa using commandPost_of_ne h (by simp)
      · exact wp_pure.mpr (hreturn _ t hp₂ h)
    · simpa using commandPost_of_ne h (by simp)
  · simpa using commandPost_of_ne h (by simp)

theorem hashedTarget_eq {onehash : Bool} {tokens : List Text} {srchash tgthash : Text}
    {tgt : RangeSet}
    (h : Targets onehash tokens srchash tgthash tgt) :
    hashedTarget onehash tokens = some (.hashed tgthash tgt) := by
  obtain ⟨s, rest, hs, rfl⟩ := h
  simp [hashedTarget, hs]

theorem Targets.srchash_eq {tokens : List Text} {srchash tgthash : Text} {tgt : RangeSet}
    (h : Targets true tokens srchash tgthash tgt) : srchash = tgthash := by
  obtain ⟨s, rest, hs, -⟩ := h
  cases tokens with
  | nil => cases hs
  | cons hash tokens =>
    simp only [splitHashes, if_true, Option.some.injEq, Prod.mk.injEq] at hs
    exact hs.1.symm.trans hs.2.1

theorem wp_releaseStash_took {tgthash : Text} {tgt : RangeSet}
    (heff : effectOf line = some (.hashed tgthash tgt)) (hp : p.settings = params.settings)
    (h : InCommand env lines start before i params t)
    (hsha : params.canwrite = true → env.sha1 ((t.2.foldl (Disk.apply env) t.1).read tgt) =
      tgthash) : wp (Monitor.history (Disk.apply env)) (InCommand env lines start before i params)
      (do releaseStash env; return true) (CommandPost env lines start before i line params)
      p t := by
  rw [wp_bind]
  refine wp_releaseStash (fun id => h.data trivial) fun p' t' hp' ht => ?_
  have hpart : InCommand env lines start before i params t' ∧
      (t'.2.foldl (Disk.apply env) t'.1).part = (t.2.foldl (Disk.apply env) t.1).part := by
    rcases ht with rfl | ⟨id, rfl⟩
    · exact ⟨h, rfl⟩
    · exact ⟨h.data trivial, by simp [Disk.apply]⟩
  simp only [wpThen_some, wp_pure]
  refine ⟨hpart.1, fun p'' heq => ?_⟩
  cases heq
  refine ⟨(congrArg Prod.fst hp').trans hp, hpart.1, fun hw effect heff' body hr => ?_⟩
  cases heff.symm.trans heff'
  have hsha := hsha hw
  rwa [Disk.read, ← hpart.2] at hsha

/-- The end of a transfer that does not stash its source, if `write` leaves the target with its
hash. -/
theorem wp_afterLoad_took {onehash : Bool} {tokens : List Text}
    (write : RangeSet → Nat → CommandParameters → M env Bool)
    (heff : ∀ {srchash tgthash tgt}, Targets onehash tokens srchash tgthash tgt →
      effectOf line = some (.hashed tgthash tgt))
    (hnostash : ¬StashesSource env tokens onehash (t.2.foldl (Disk.apply env) t.1) params)
    (h : InCommand env lines start before i params t)
    (hwrite : ∀ p₁ srchash tgthash tgt blocks, p₁.settings = params.settings →
      Targets onehash tokens srchash tgthash tgt → Counts onehash tokens blocks →
      params.canwrite = true →
      SourceReady env (t.2.foldl (Disk.apply env) t.1) srchash blocks p₁.buffer →
      wp (Monitor.history (Disk.apply env)) (InCommand env lines start before i params)
      (write tgt blocks p₁)
        (fun r t' => InCommand env lines start before i params t' ∧ ∀ p₂, r = some (true, p₂) →
          p₂.settings = params.settings ∧ env.sha1 ((t'.2.foldl (Disk.apply env) t'.1).read tgt) =
          tgthash) p₁ t) :
    wp (Monitor.history (Disk.apply env)) (InCommand env lines start before i params) (do
      let (status, tgt, blocks) ← loadSrcTgtVersion3 env tokens onehash
      afterLoad env status (write tgt blocks)) (CommandPost env lines start before i line params)
      params t := by
  rw [wp_bind]
  refine wp_loadSrcTgtVersion3 hnostash (fun id => h.data trivial)
    (fun p₁ srchash tgthash tgt hp₁ htgt hsha => ?_)
    (fun p₁ srchash tgthash tgt blocks hp₁ htgt hcount hready => ?_) (fun r t' hr ht => ?_)
  · simp only [wpThen_some, afterLoad, reduceCtorEq, if_false, wp_bind, wp_modify, wp_get,
      decide_false, Bool.and_false, Bool.false_eq_true, wp_pure, if_true]
    have hset : p₁.settings = params.settings := congrArg Prod.fst hp₁
    exact wp_bind.mp (wp_releaseStash_took (heff htgt) hset h fun _ => hsha)
  · have hset : p₁.settings = params.settings := congrArg Prod.fst hp₁
    have hcan : p₁.canwrite = params.canwrite := congrArg (fun s => s.2.2.1) hset
    simp only [wpThen_some, afterLoad, reduceCtorEq, if_false, wp_bind, wp_modify, wp_get,
      decide_true, Bool.and_true, hcan]
    cases hw : params.canwrite with
    | false =>
      simp only [Bool.false_eq_true, if_false, wp_pure, wpThen_some, if_true]
      exact wp_releaseStash_took (heff htgt) hset h (by simp [hw])
    | true =>
      simp only [if_true]
      refine wp_mono (hwrite p₁ srchash tgthash tgt blocks hset htgt hcount hw (hready hw))
        fun r t' htr => ?_
      obtain ⟨ht, hr⟩ := htr
      rcases r with _ | ⟨_ | _, p₂⟩
      · exact commandPost_of_ne ht (by simp)
      · simpa using commandPost_of_ne ht (by simp)
      · obtain ⟨hset₂, hsha⟩ := hr p₂ rfl
        simp only [wpThen_some, if_true]
        exact wp_releaseStash_took (heff htgt) hset₂ ht fun _ => hsha
  · have ht : InCommand env lines start before i params t' := by
      rcases ht with rfl | ⟨id, rfl⟩
      · exact h
      · exact h.data trivial
    rcases r with _ | ⟨⟨s, tgt, blocks⟩, p'⟩
    · exact commandPost_of_ne ht (by simp)
    · have hs : s = .failed := hr s tgt blocks p' rfl
      subst hs
      simpa [afterLoad] using commandPost_of_ne ht (by simp)

theorem wp_move_took (hc : commandOf line = some .move)
    (htok : params.tokens = (line.splitOn ' ').tail)
    (hnostash : ¬StashesSource env params.tokens true (t.2.foldl (Disk.apply env) t.1) params)
    (hdel : MoveDelivers (t.2.foldl (Disk.apply env) t.1) params.tokens)
    (h : InCommand env lines start before i params t) :
    wp (Monitor.history (Disk.apply env)) (InCommand env lines start before i params)
      (performCommandMove env) (CommandPost env lines start before i line params) params t := by
  have heff : ∀ {srchash tgthash tgt}, Targets true params.tokens srchash tgthash tgt →
      effectOf line = some (.hashed tgthash tgt) := by
    intro srchash tgthash tgt htgt
    rw [htok] at htgt
    simp [effectOf, hc, hashedTarget_eq htgt]
  rw [performCommandMove_eq, wp_bind, wp_get, wpThen_some]
  refine wp_afterLoad_took (fun tgt _ p => writeBlocks env tgt p.buffer) heff hnostash h
    fun p₁ srchash tgthash tgt blocks hset htgt hcount hw hready => ?_
  obtain ⟨hnodup, hwrap, hfile⟩ := hdel srchash tgthash tgt blocks htgt hcount
  obtain ⟨n, hn, hsha, hn'⟩ := hready
  have hblocks : n = tgt.blocks := by
    rcases hn' with rfl | ⟨f, hf, rfl⟩
    · exact hwrap
    · exact hfile f hf
  subst hblocks
  have hdata : ∀ e ∈ writeSteps p₁.isRetry tgt.ranges p₁.buffer, e.IsData :=
    fun e he => (touches_writeSteps e he).isData
  refine wp_writeBlocks (fun pre hpre => ?_) (fun p₂ hp₂ _ _ => ⟨h.foldl hdata, fun p' heq => ?_⟩)
    (fun _ p₂ pre _ hpre => ?_) fun _ pre hpre => ?_
  · exact h.foldl fun e he => hdata e (hpre.subset he)
  · cases heq
    refine ⟨?_, ?_⟩
    · obtain ⟨⟨_, rfl⟩, -⟩ := hp₂
      exact hset
    · obtain ⟨d, log⟩ := t
      rw [Monitor.history_foldl, List.foldl_append, read_writeSteps hnodup hn, hsha,
        htgt.srchash_eq]
  · exact ⟨h.foldl fun e he => hdata e (hpre.subset he), fun p' heq => by cases heq⟩
  · exact ⟨h.foldl fun e he => hdata e (hpre.subset he), fun p' heq => by cases heq⟩

theorem wp_diff_took {imgdiff : Bool}
    (hc : commandOf line = some (if imgdiff then .imgdiff else .bsdiff))
    (htok : params.tokens = (line.splitOn ' ').tail)
    (hnostash : ∀ offset len tokens, params.tokens = offset :: len :: tokens →
      ¬StashesSource env tokens false (t.2.foldl (Disk.apply env) t.1) params)
    (hdel : ∀ offset len tokens o l, params.tokens = offset :: len :: tokens →
      parseUint offset = some o → parseUint len = some l →
      DiffDelivers env (t.2.foldl (Disk.apply env) t.1) imgdiff o l tokens)
    (h : InCommand env lines start before i params t) :
    wp (Monitor.history (Disk.apply env)) (InCommand env lines start before i params)
      (performCommandDiff env imgdiff) (CommandPost env lines start before i line params)
      params t := by
  rw [performCommandDiff, wp_bind, wp_get, wpThen_some]
  rcases htoks : params.tokens with _ | ⟨offset, _ | ⟨len, tokens⟩⟩
  · simpa using commandPost_of_ne h (by simp)
  · simpa using commandPost_of_ne h (by simp)
  have heff : ∀ {srchash tgthash tgt}, Targets false tokens srchash tgthash tgt →
      effectOf line = some (.hashed tgthash tgt) := by
    intro srchash tgthash tgt htgt
    cases imgdiff <;> simp only [Bool.false_eq_true, if_true, if_false] at hc <;>
      simp [effectOf, hc, ← htok, htoks, hashedTarget_eq htgt]
  dsimp only
  rcases ho : parseUint offset with _ | o
  · simpa using commandPost_of_ne h (by simp)
  rcases hl : parseUint len with _ | l
  · simpa using commandPost_of_ne h (by simp)
  refine wp_afterLoad_took (fun tgt blocks p => applyPatch env
    (env.patch imgdiff o l (p.buffer.take (wrapBlocks blocks))).1 (.make tgt)
    (env.patch imgdiff o l (p.buffer.take (wrapBlocks blocks))).2) heff (hnostash _ _ _ htoks) h
    fun p₁ srchash tgthash tgt blocks hset htgt hcount hw hready => ?_
  obtain ⟨hnodup, hfile, hpatch⟩ :=
    hdel _ _ _ _ _ htoks ho hl srchash tgthash tgt blocks htgt hcount
  obtain ⟨n, hn, hsha, hn'⟩ := hready
  have hblocks : n = wrapBlocks blocks := by
    rcases hn' with rfl | ⟨f, hf, rfl⟩
    · rfl
    · exact hfile f hf
  subst hblocks
  have hpatch := hpatch (p₁.buffer.take (wrapBlocks blocks)) (by simpa using hn) hsha
  have hI : SinkInvariant (Monitor.history (Disk.apply env)) tgt fun done t' =>
      InCommand env lines start before i params t' ∧
        Filled tgt (t.2.foldl (Disk.apply env) t.1) done (t'.2.foldl (Disk.apply env) t'.1) := by
    constructor
    · rintro done t' b off data rest hne hoff - haddr ⟨h, hfill⟩
      refine ⟨h.data trivial, ?_⟩
      rw [Monitor.history_step, List.foldl_append]
      exact hfill.write env hnodup hne hoff haddr
    · rintro done t' r rest haddr ⟨h, hfill⟩
      refine ⟨h.data trivial, ?_⟩
      rw [Monitor.history_step, List.foldl_append]
      exact hfill.discard env hnodup haddr
  have haddr : ([] : List (Nat × UInt8)).map Prod.fst ++ (RangeSinkWriter.make tgt).addresses =
      addresses tgt := by
    simp
  refine wp_applyPatch hI (fun _ _ h => h.1) (RangeSinkWriter.valid_make tgt) haddr ⟨h,
    .refl, by simp⟩
    (fun p₂ t' hp₂ _ ht => ⟨ht.1, fun p' heq => ?_⟩) fun _ p₂ t' done _ ht =>
      ⟨ht.1, fun p' heq => by cases heq⟩
  simp only [RangeSinkWriter.addresses_make, List.nil_append] at ht
  obtain ⟨hok, rfl⟩ := Prod.mk.inj (Option.some.inj heq)
  obtain ⟨target, htlen, hflat, htsha⟩ := hpatch hok
  rw [hflat] at ht
  refine ⟨?_, ?_⟩
  · obtain ⟨⟨_, rfl⟩, -⟩ := hp₂
    exact hset
  · rw [ht.2.read htlen, htsha]

theorem wp_perform_took {command : Command} {f : M env Bool} (hc : commandOf line = some command)
    (hf : command.perform env (!p.canwrite) = some f) (hline : lines[i]? = some line)
    (hnl : '\n' ∉ line)
    (hstash : ¬StashesImplicitly env (t.2.foldl (Disk.apply env) t.1) (p.forLine i line))
    (hdel : Delivers env (t.2.foldl (Disk.apply env) t.1) (p.forLine i line))
    (hrun : Running t.2 before i (p.forLine i line) [])
    (h : InCommand env lines start before i (p.forLine i line) t) :
    wp (Monitor.history (Disk.apply env)) (InCommand env lines start before i (p.forLine i line)) f
      (CommandPost env lines start before i line (p.forLine i line)) (p.forLine i line) t := by
  have hcommand : commandOf (p.forLine i line).cmdline = some command :=
    (commandOf_cstr line).trans hc
  have htok : (p.forLine i line).tokens = (line.splitOn ' ').tail := rfl
  have hcanwrite : ∀ {x : M env Bool}, (if (!p.canwrite) = true then none else some x) = some f →
      (p.forLine i line).canwrite = true ∧ x = f := by
    intro x hx
    cases hw : p.canwrite
    · simp [hw] at hx
    · exact ⟨hw, by simpa [hw] using hx⟩
  simp only [StashesImplicitly, Delivers, hcommand] at hstash hdel
  cases command with
  | bsdiff =>
    cases hf
    refine wp_diff_took hc htok (fun offset len tokens h => ?_)
      (fun offset len tokens o l h => ?_) h
    · simpa [h] using hstash
    · rw [h] at hdel
      exact hdel o l
  | imgdiff =>
    cases hf
    refine wp_diff_took hc htok (fun offset len tokens h => ?_)
      (fun offset len tokens o l h => ?_) h
    · simpa [h] using hstash
    · rw [h] at hdel
      exact hdel o l
  | move =>
    cases hf
    exact wp_move_took hc htok hstash hdel h
  | stash =>
    cases hf
    exact wp_stash_took hc hline hnl rfl rfl h
  | free =>
    cases hf
    exact wp_data (confined_performCommandFree.comp Prod.fst) (fun _ => by simp [effectOf, hc]) h
  | erase =>
    obtain ⟨-, rfl⟩ := hcanwrite hf
    exact wp_data (confined_performCommandErase.comp Prod.fst) (fun _ => by simp [effectOf, hc]) h
  | new =>
    obtain ⟨hw, rfl⟩ := hcanwrite hf
    exact wp_new_took hw hc htok hrun h
  | zero =>
    obtain ⟨hw, rfl⟩ := hcanwrite hf
    exact wp_zero_took hw hc htok hrun h

end

/-! ## Whole runs -/

/-- Every command that was started, in any of the calls, delivers its target and does not stash its
source by itself. -/
def Guarded (env : Env) (t : Disk × List Step) : Prop :=
  ∀ before i params, before ++ [.began i params] <+: t.2 →
    ¬StashesImplicitly env (before.foldl (Disk.apply env) t.1) params ∧
    Delivers env (before.foldl (Disk.apply env) t.1) params

theorem Guarded.of_snoc {e : Step} (h : Guarded env (t.1, t.2 ++ [e])) : Guarded env t :=
  fun before i params hpre => h before i params (hpre.trans (List.prefix_append _ _))

theorem wp_of_not_guarded {x : M env α} {S : Disk × List Step → Prop} {p : CommandParameters}
    {Q : Option (α × CommandParameters) → Disk × List Step → Prop} (h : ¬Guarded env t)
    (hQ : ∀ r t, ¬Guarded env t → Q r t) :
    wp (Monitor.history (Disk.apply env)) (fun t => Guarded env t → S t) x Q p t := by
  have hx : x.Confined (fun _ => True) (fun _ => ()) :=
    fun m d => ⟨fun _ _ => trivial, fun _ _ _ => rfl⟩
  refine wp_crash_mono (C := fun t => ¬Guarded env t) (fun t h hg => absurd hg h)
    (hx.wp (fun t e _ h hg => h (Guarded.of_snoc hg)) h fun r t h _ => hQ r t h)

/-- What holds before line `i`. In update mode the lines before have taken effect, and those that
will be skipped have too. -/
structure BeforeLine (env : Env) (lines : List Text) (i : Nat) (saved : Int) (p : CommandParameters)
    (t : Disk × List Step) : Prop where
  sound : Sound env lines t
  took : p.canwrite = true → ∀ j : Nat, j < i ∨ (j : Int) ≤ saved → ∀ line, lines[j]? = some line →
    TookEffect env t j line

/-- The postcondition of a line. -/
def LinePost (env : Env) (lines : List Text) (i : Nat) (r : Option (Option Int × CommandParameters))
    (t : Disk × List Step) : Prop :=
  (Guarded env t → Sound env lines t) ∧ ∀ saved p, r = some (some saved, p) → Guarded env t →
    BeforeLine env lines (i + 1) saved p t

theorem Sound.mark (h : Sound env lines t) {e : Step} (he : ∀ d : Disk, d.apply env e = d) :
    Sound env lines (t.1, t.2 ++ [e]) :=
  h.snoc fun k hk => by rwa [he] at hk

theorem wp_afterCommand_took {start : Disk} {before : List Step} {i : Nat} {line : Text}
    {command : Command} {params p : CommandParameters} {saved : Int} (hline : lines[i]? = some line)
    (hp : p.settings = params.settings) (h : Returned env lines start before i line params t)
    (hsaved : params.canwrite = true → ∀ j : Nat, (j : Int) ≤ saved →
      ∀ line, lines[j]? = some line → TookEffect env t j line) :
    wp (Monitor.history (Disk.apply env)) (Sound env lines) (afterCommand env i command saved)
      (fun r t => Sound env lines t ∧ ∀ saved p, r = some (some saved, p) →
        BeforeLine env lines (i + 1) saved p t) p t := by
  have hcan : p.canwrite = params.canwrite := congrArg (fun s => s.2.2.1) hp
  have hnoupdate : ∀ {p' saved t'}, Faulted p p' → p.canwrite = false → Sound env lines t' →
      Sound env lines t' ∧ ∀ saved'' p'', some (some saved, p') = some (some saved'', p'') →
        BeforeLine env lines (i + 1) saved'' p'' t' := by
    intro p' saved t' hp' hw ht
    refine ⟨ht, ?_⟩
    rintro _ _ ⟨⟩
    refine ⟨ht, fun hw' => ?_⟩
    obtain ⟨⟨_, rfl⟩, -⟩ := hp'
    cases hw.symm.trans hw'
  refine wp_afterCommand (fun hw p' hp' _ => hnoupdate hp' hw h.sound)
    (fun hw _ _ _ _ _ =>
      ⟨(h.sound.unsaving trivial), fun p' hp' => hnoupdate hp' hw (h.sound.unsaving trivial),
        fun _ p' hp' => hnoupdate hp' hw h.sound⟩) fun hw => ?_
  have hw : params.canwrite = true := hcan.symm.trans hw
  have h₁ : Sound env lines (t.1, t.2 ++ [.finished i]) := h.sound.mark fun _ => rfl
  have h₂ : Sound env lines (t.1, t.2 ++ [.finished i] ++ [.fsync]) := h₁.data trivial
  refine ⟨h₁, h₂, fun p' _ => ⟨h₂, ?_⟩, fun _ p' _ => ⟨h₁, by rintro _ _ ⟨⟩⟩⟩
  rintro _ _ ⟨⟩
  refine ⟨h₂, fun _ j hj line' hline' => ?_⟩
  have hlt : j < i → TookEffect env t j line' := fun hji => h.earlier hw j hji line' hline'
  rcases hj with hj | hj
  · rcases Nat.lt_succ_iff_lt_or_eq.mp hj with hj | rfl
    · exact ((hlt hj).snoc _).snoc _
    · -- the command that has just returned
      cases hline.symm.trans hline'
      intro effect heff
      obtain ⟨body, hr⟩ := h.running
      have htook := h.took hw effect heff body hr
      rw [hr.log_eq, h.start_eq] at htook
      exact ⟨before, params, body, ⟨t.2, hr, List.prefix_append _ _⟩,
        by simpa [h.start_eq] using htook⟩
  · exact ((hsaved hw j hj line' hline').snoc _).snoc _

theorem BeforeLine.snoc {i : Nat} {saved : Int} {p : CommandParameters} {e : Step}
    (h : BeforeLine env lines i saved p t) (he : ∀ d : Disk, d.apply env e = d) :
    BeforeLine env lines i saved p (t.1, t.2 ++ [e]) :=
  ⟨h.sound.mark he, fun hw j hj line hline => (h.took hw j hj line hline).snoc e⟩

theorem wp_performLine_took {i : Nat} {line : Text} {saved : Int} {p : CommandParameters}
    (hline : lines[i]? = some line) (hnl : '\n' ∉ line)
    (h : Guarded env t → BeforeLine env lines i saved p t) :
    wp (Monitor.history (Disk.apply env)) (fun t => Guarded env t → Sound env lines t)
      (performLine env i line saved) (LinePost env lines i) p t := by
  have hsound : Guarded env t → Sound env lines t := fun hg => (h hg).sound
  refine wp_performLine (fun _ => ⟨hsound, by rintro _ _ ⟨⟩⟩) (fun command _ hf => ⟨hsound, ?_⟩)
    (fun hw hne hle _ => ?_) (fun command f hc hf _ => ?_)
  · -- a command that has nothing to do in verify mode
    rintro _ _ ⟨⟩ hg
    refine ⟨hsound hg, fun hw => ?_⟩
    rw [hw] at hf
    cases command <;> simp [Command.perform] at hf
  · -- a skipped line has taken effect
    have hmark : ∀ d : Disk, d.apply env (.skipped i) = d := fun _ => rfl
    rw [cmdIndex_eq hne] at hle
    refine ⟨fun hg => (hsound hg.of_snoc).mark hmark, fun hg => (hsound hg.of_snoc).mark hmark, ?_⟩
    rintro _ _ ⟨⟩ hg
    have hbefore := (h hg.of_snoc).snoc hmark
    refine ⟨hbefore.sound, fun hw j hj line' hline' => hbefore.took hw j ?_ line' hline'⟩
    omega
  · have hmark : ∀ d : Disk, d.apply env (.began i (p.forLine i line)) = d := fun _ => rfl
    refine ⟨fun hg => (hsound hg.of_snoc).mark hmark, ?_⟩
    by_cases hg : Guarded env (t.1, t.2 ++ [.began i (p.forLine i line)])
    · have hbefore := (h hg.of_snoc).snoc hmark
      obtain ⟨hstash, hdel⟩ := hg t.2 i (p.forLine i line) (List.prefix_refl _)
      have hview : (t.2 ++ [Step.began i (p.forLine i line)]).foldl (Disk.apply env) t.1 =
          t.2.foldl (Disk.apply env) t.1 := by
        rw [List.foldl_append]
        rfl
      have hin : InCommand env lines t.1 t.2 i (p.forLine i line)
          (t.1, t.2 ++ [.began i (p.forLine i line)]) :=
        ⟨rfl, hbefore.sound, ⟨[], .start _ _ _⟩,
          fun hw j hj line' hline' => hbefore.took hw j (.inl hj) line' hline'⟩
      have hperform := wp_perform_took hc hf hline hnl (by rwa [hview]) (by rwa [hview])
        (.start _ _ _) hin
      refine wp_mono (wp_crash_mono (fun t' h _ => h.sound) hperform) fun r t' hpost => ?_
      obtain ⟨hin', hreturned⟩ := hpost
      rcases r with _ | ⟨ok, p'⟩
      · exact ⟨fun _ => hin'.sound, by rintro _ _ ⟨⟩⟩
      cases ok with
      | false => exact wp_pure.mpr ⟨fun _ => hin'.sound, by rintro _ _ ⟨⟩⟩
      | true =>
        obtain ⟨hset, hret⟩ := hreturned p' rfl
        simp only [wpThen_some, if_true]
        refine wp_crash_mono (fun t'' h _ => h) (wp_mono (wp_afterCommand_took hline hset hret
          fun hw j hj line' hline' => ?_) fun r t'' hafter => ?_)
        · obtain ⟨body, hr⟩ := hin'.running
          have htook := (h hg.of_snoc).took hw j (.inr hj) line' hline'
          have hpre : t.2 <+: t'.2 := by
            rw [hr.log_eq]
            exact List.prefix_append _ _
          have := htook.mono hpre
          rwa [← hin'.start_eq] at this
        · exact ⟨fun _ => hafter.1, fun saved' p'' hr _ => hafter.2 saved' p'' hr⟩
    · exact wp_of_not_guarded hg fun r t hg => by
        rcases r with _ | ⟨ok, p'⟩
        · exact ⟨fun h => absurd h hg, by rintro _ _ ⟨⟩⟩
        · exact wp_of_not_guarded hg fun r t hg =>
            ⟨fun h => absurd h hg, fun _ _ _ h => absurd h hg⟩

theorem effectOf_nil : effectOf [] = none := by
  have hnone : commandOf [] = none := by decide
  simp [effectOf, hnone]

theorem BeforeLine.blank {i : Nat} {saved : Int} {p : CommandParameters}
    (h : BeforeLine env lines i saved p t) (hline : lines[i]? = some []) :
    BeforeLine env lines (i + 1) saved p t := by
  refine ⟨h.sound, fun hw j hj line hline' => ?_⟩
  by_cases hji : j = i
  · subst hji
    cases hline.symm.trans hline'
    intro effect heff
    cases effectOf_nil.symm.trans heff
  · exact h.took hw j (by omega) line hline'

theorem wp_performLines_took {rest : List Text} {i : Nat} {saved : Int} {p : CommandParameters}
    (hrest : lines.drop i = rest) (hnl : ∀ line ∈ lines, '\n' ∉ line)
    (h : Guarded env t → BeforeLine env lines i saved p t) :
    wp (Monitor.history (Disk.apply env)) (fun t => Guarded env t → Sound env lines t)
      (performLines env i rest saved) (fun _ t => Guarded env t → Sound env lines t) p t := by
  induction rest generalizing i saved p t with
  | nil => exact wp_pure.mpr fun hg => (h hg).sound
  | cons line rest ih =>
    have hline : lines[i]? = some line := by
      rw [← List.head?_drop, hrest, List.head?_cons]
    have hrest' : lines.drop (i + 1) = rest := by
      rw [← List.tail_drop, hrest, List.tail_cons]
    unfold performLines
    split
    · rename_i hempty
      rw [List.isEmpty_iff.mp hempty] at hline
      exact ih hrest' fun hg => (h hg).blank hline
    · rw [wp_bind]
      refine wp_mono (wp_performLine_took hline (hnl line (List.mem_of_getElem? hline)) h)
        fun r t ht => ?_
      rcases r with _ | ⟨_ | saved', p'⟩
      · exact ht.1
      · simpa using ht.1
      · exact ih hrest' (ht.2 saved' p' rfl)

/-- All sequences of calls for one transfer list, in verify or update mode, each with any faults and
interrupted at any point. The state is storage before the first call, with the log of all calls. -/
def runs (env : Env) (list : Text) : System (Disk × List Step) where
  init t := t.1.lastCommand = none ∧ t.2 = []
  step t t' := ∃ call p n, call.transferList = list ∧
    t' = (((performBlockImageUpdate env call).steps p (t.2.foldl (Disk.apply env) t.1)).take
      n).foldl
      (Monitor.history (Disk.apply env)).step t

theorem wp_performBlockImageUpdate_took {call : Call} {p : CommandParameters}
    (h : Guarded env t → Sound env call.lines t) :
    wp (Monitor.history (Disk.apply env)) (fun t => Guarded env t → Sound env call.lines t)
      (performBlockImageUpdate env call) (fun _ t => Guarded env t →
        Sound env call.lines t) p t := by
  refine wp_performBlockImageUpdate (fun _ _ => h) ?_
  intro p₀ version total entries stashMax n lines hlines _ _ _ _ _ _ _ _
  have hcall : call.lines = lines := by simp [Call.lines, hlines]
  rw [hcall] at h ⊢
  have hnl : ∀ line ∈ lines, '\n' ∉ line := by
    intro line hline
    refine (of_mem_splitOn (s := call.transferList) ?_).1
    rw [hlines]
    simp [hline]
  have hmkdir : Guarded env (t.1, t.2 ++ [.mkdirStash]) →
      Sound env lines (t.1, t.2 ++ [.mkdirStash]) :=
    fun hg => (h hg.of_snoc).data trivial
  refine wp_performCommands (fun _ => hmkdir) (fun _ p' t' _ ht => ?_) (fun p₁ t' _ _ ht => ?_)
  · rcases ht with rfl | ⟨-, rfl⟩
    · exact h
    · exact hmkdir
  · have ht' : Guarded env t' → Sound env lines t' := by
      rcases ht with ⟨-, -, rfl⟩ | ⟨-, -, rfl⟩
      · exact hmkdir
      · exact h
    have hrun : ∀ p₂ t'' saved, (Guarded env t'' → BeforeLine env lines 0 saved p₂ t'') →
        wp (Monitor.history (Disk.apply env)) (fun t => Guarded env t → Sound env lines t) (do
          let rc ← performLines env 0 lines saved
          finishUpdate env rc
          return rc) (fun _ t => Guarded env t → Sound env lines t) p₂ t'' := by
      intro p₂ t'' saved hbefore
      rw [wp_bind]
      refine wp_mono (wp_performLines_took (by simp) hnl hbefore) fun r t h => ?_
      rcases r with _ | ⟨rc, p₃⟩
      · exact h
      · simp only [wpThen_some, wp_bind]
        refine confined_finishUpdate.wp (fun t e he h hg => (h hg.of_snoc).unsaving he) h
          fun r t h _ => ?_
        rcases r with _ | ⟨_, p₄⟩
        · exact h
        · simpa using h
    have hunlink : Guarded env (t'.1, t'.2 ++ [.unlinkLast]) →
        Sound env lines (t'.1, t'.2 ++ [.unlinkLast]) := fun hg => (ht' hg.of_snoc).unsaving trivial
    have hnone : ∀ {p₂ t''}, (Guarded env t'' → Sound env lines t'') →
        Guarded env t'' → BeforeLine env lines 0 (-1) p₂ t'' :=
      fun h hg => ⟨h hg, fun _ j hj => by omega⟩
    rw [wp_bind]
    refine wp_savedIndex (fun p₂ k _ hk => ?_) fun _ =>
      ⟨hunlink, fun p₂ _ => hrun p₂ _ _ (hnone hunlink), fun _ p₂ _ => hrun p₂ _ _ (hnone ht')⟩
    refine hrun p₂ t' k fun hg => ⟨ht' hg, fun _ j hj line hline => ?_⟩
    exact ht' hg k hk j (by omega) line hline

theorem inductive_sound (env : Env) (list : Text) : (runs env list).Inductive fun t =>
    Guarded env t → Sound env ((list.splitOn '\n').drop 4) t where
  init t ht _ k hk := by
    rw [ht.2, List.foldl_nil, Disk.savedIndex, ht.1] at hk
    cases hk
  step t t' h hstep := by
    obtain ⟨call, p, n, rfl, rfl⟩ := hstep
    exact wp_crash (wp_performBlockImageUpdate_took h) h n

/-- Whatever calls were made for a transfer list, and wherever they were interrupted: where no
command has stashed its source by itself, every command up to the saved index has taken effect. -/
theorem runs_sound {env : Env} {list : Text} {t : Disk × List Step} (h : (runs env list).Reach t)
    (hg : Guarded env t) : Sound env ((list.splitOn '\n').drop 4) t :=
  (inductive_sound env list).reach h hg

/-- One more update, which is interrupted after the given number of steps. -/
def interruptedUpdate (list : Text) (t : Disk × List Step) (n : Nat) : Disk × List Step :=
  (t.1, t.2 ++
    ((performBlockImageUpdate .small ⟨false, false, "system".toList, list, []⟩).steps .start
      (t.2.foldl (Disk.apply .small) t.1)).take n)

theorem reach_interruptedUpdate {list : Text} {t : Disk × List Step}
    (h : (runs .small list).Reach t) (n : Nat) :
    (runs .small list).Reach (interruptedUpdate list t n) := by
  have hstep := h.step ⟨⟨false, false, "system".toList, list, []⟩, .start, n, rfl, rfl⟩
  rwa [Monitor.history_foldl] at hstep

def zeroAndStash : Text :=
  "4\n2\n1\n1\nzero 2,0,1\nstash b 2,2,3\nzero 2,1,2\nstash ab 2,3,4".toList

/-- Two blocks are filled with zeros and two others are stashed, in two updates. -/
def stashedTwice : Disk × List Step :=
  interruptedUpdate zeroAndStash (interruptedUpdate zeroAndStash (.start [1, 2, 0, 1], []) 9) 9

/-- The first update has saved the index of the first stash; the second one skips the commands up to
it, and has saved the index of the last command. -/
theorem runs_sound_zeroAndStash :
    (interruptedUpdate zeroAndStash (.start [1, 2, 0, 1], []) 9).2.length = 9 ∧
      (stashedTwice.2.foldl (Disk.apply .small) stashedTwice.1).savedIndex = some 3 ∧
      Sound .small ((zeroAndStash.splitOn '\n').drop 4) stashedTwice := by
  have hinit : (runs .small zeroAndStash).Reach (.start [1, 2, 0, 1], []) := .init ⟨rfl, rfl⟩
  have hreach : (runs .small zeroAndStash).Reach stashedTwice := by
    unfold stashedTwice
    exact reach_interruptedUpdate (reach_interruptedUpdate hinit 9) 9
  refine ⟨by decide +kernel, by decide +kernel, runs_sound hreach fun before i params hpre => ?_⟩
  have hbegan : stashedTwice.2.all (fun
      | .began _ params =>
      commandOf params.cmdline = some .zero ∨ commandOf params.cmdline = some .stash
      | _ => true) = true := by decide +kernel
  have := List.all_eq_true.mp hbegan (.began i params) (hpre.subset (by simp))
  rcases of_decide_eq_true this with hc | hc <;> simp [StashesImplicitly, Delivers, hc]

def overlappingMove : Text := "4\n2\n1\n2\nmove abaab 2,1,3 2 2,0,2".toList

/-- A move of blocks 0 and 1 to 1 and 2, which is interrupted when its index is saved. -/
theorem runs_not_sound :
    ¬∀ (env : Env) (list : Text) (t : Disk × List Step), (runs env list).Reach t →
    Sound env ((list.splitOn '\n').drop 4) t := by
  intro h
  have hline : ((overlappingMove.splitOn '\n').drop 4)[0]? =
      some "move abaab 2,1,3 2 2,0,2".toList := by decide +kernel
  have hinit : (runs .small overlappingMove).Reach (.start [1, 2], []) := .init ⟨rfl, rfl⟩
  have hreach := reach_interruptedUpdate hinit 5
  have hsaved :
      ((interruptedUpdate overlappingMove (.start [1, 2], []) 5).2.foldl (Disk.apply .small)
        (.start [1, 2])).savedIndex = some 0 := by decide +kernel
  have heff : (effectOf "move abaab 2,1,3 2 2,0,2".toList).isSome = true := by decide +kernel
  obtain ⟨effect, heff⟩ := Option.isSome_iff_exists.mp heff
  obtain ⟨before, params, body, ⟨log, -, hpre⟩, -⟩ :=
    h .small overlappingMove _ hreach 0 hsaved 0 (by decide) _ hline effect heff
  have hfinished : (interruptedUpdate overlappingMove (.start [1, 2], []) 5).2.all (fun
      | .finished _ => false
      | _ => true) = true := by decide +kernel
  have := List.all_eq_true.mp hfinished (.finished 0) (hpre.subset (by simp))
  cases this

end BootableRecovery.BlockImg
