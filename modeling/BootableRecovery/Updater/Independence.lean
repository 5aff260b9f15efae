import BootableRecovery.Theory.Relational
import BootableRecovery.Theory.System
import BootableRecovery.Updater.DryRun

/-!
# What one call leaves to the next

`stash_map` and `is_retry` are static variables of the file: what a call has left in them is there
for the calls that come after it in the same process. `is_retry` decides whether blocks are
discarded, which a verification does not do. A `stash_map` entry is different. `LoadStash` in verify
mode reads the source ranges of the entry, and does not look for the stash file.
-/

namespace BootableRecovery.BlockImg

/-! ## The stashes that a list loads -/

/-- The ids of stashes with locations in the buffer. -/
def stashIds (tokens : List Text) : List Text :=
  tokens.filterMap fun token => match token.splitOn ':' with
    | [id, _] => some id
    | _ => none

/-- The source ranges overlap the target. -/
def overlaps (src : Text) (tgt : RangeSet) : Bool :=
  src ≠ ['-'] && (RangeSet.parse src).overlaps tgt

/-- The tokens of the stashes, after the source ranges and their locations. -/
def stashTokens (src : Text) (tokens : List Text) : List Text :=
  if src = ['-'] then tokens else tokens.tail

/-- The ids that `LoadSrcTgtVersion3` may load: of the stashes, and of the source if it overlaps the
target. -/
def sourceIds (onehash : Bool) (tokens : List Text) : List Text :=
  match splitHashes onehash tokens with
  | some (srchash, _, tgt :: _ :: src :: tokens) =>
    (if overlaps src (RangeSet.parse tgt) then [srchash] else []) ++
      stashIds (stashTokens src tokens)
  | _ => []

/-- The ids that a command may load with `LoadStash`. -/
def Command.loads : Command → List Text → List Text
  | .stash, id :: _ :: _ => [id]
  | .move, tokens => sourceIds true tokens
  | .bsdiff, _ :: _ :: tokens | .imgdiff, _ :: _ :: tokens => sourceIds false tokens
  | _, _ => []

/-- The id that a command drops from `stash_map`. -/
def Command.frees : Command → List Text → List Text
  | .free, id :: _ => [id]
  | _, _ => []

/-- The ids that are not among those freed. -/
def unfreed (freed ids : List Text) : List Text := ids.filter (· ∉ freed)

@[simp] theorem unfreed_nil (ids : List Text) : unfreed [] ids = ids := by simp [unfreed]

/-- No line loads one of the ids, unless a line before it frees that id. A line that has no command
ends the loop. -/
def avoids (ids : List Text) : List Text → Bool
  | [] => true
  | line :: lines =>
    if line.isEmpty then avoids ids lines
    else match commandOf line with
      | none => true
      | some command =>
        (command.loads (line.splitOn ' ').tail).all (· ∉ ids) &&
          avoids (unfreed (command.frees (line.splitOn ' ').tail) ids) lines

/-! ## Two processes -/

variable {env : Env} {ids : List Text} {p q : CommandParameters}

/-- The variables of a verification in two processes. They differ in `is_retry` and in the
`stash_map` entries for `ids`. -/
def Agree (ids : List Text) (p q : CommandParameters) : Prop :=
  ∃ stashMap isRetry, q = { p with stashMap, isRetry } ∧ p.canwrite = false ∧
    ∀ id, id ∉ ids → p.stashMap.lookup id = stashMap.lookup id

/-- The two processes stay like that, and do the same. -/
def Agrees (ids : List Text) (x y : M env α) : Prop := x.Alike (Agree ids) (Agree ids) y

theorem Agrees.bind {x y : M env α} {f g : α → M env β} (h : Agrees ids x y)
    (hf : ∀ a, Agrees ids (f a) (g a)) : Agrees ids (x >>= f) (y >>= g) :=
  Prog.Alike.bind h hf

theorem Agree.modify {f : CommandParameters → CommandParameters} (h : Agree ids p q)
    (hf : ∀ p stashMap isRetry, f { p with stashMap, isRetry } = { f p with stashMap, isRetry })
    (hcanwrite : (f p).canwrite = p.canwrite) (hstash : (f p).stashMap = p.stashMap) :
    Agree ids (f p) (f q) := by
  obtain ⟨m, r, rfl, hp, hm⟩ := h
  exact ⟨m, r, hf p m r, hcanwrite.trans hp, fun id hid => by rw [hstash]; exact hm id hid⟩

theorem agrees_modify {f : CommandParameters → CommandParameters}
    (hf : ∀ p stashMap isRetry, f { p with stashMap, isRetry } = { f p with stashMap, isRetry })
    (hcanwrite : ∀ p, (f p).canwrite = p.canwrite) (hstash : ∀ p, (f p).stashMap = p.stashMap) :
    Agrees ids (Prog.modify f : M env Unit) (Prog.modify f) :=
  .modify fun p _ h => h.modify hf (hcanwrite p) (hstash p)

theorem agrees_setBuffer {buffer : List Block} : Agrees ids
    (Prog.modify fun p => { p with buffer } : M env Unit) (Prog.modify fun p =>
      { p with buffer }) :=
  agrees_modify (fun _ _ _ => rfl) (fun _ => rfl) fun _ => rfl

/-! ## Functions that do not look at `stash_map` -/

theorem agrees_expect {x : Option α} : Agrees ids (expect env x) (expect env x) := by
  cases x with
  | none => exact .abort
  | some a => exact .pure

theorem agrees_onlyIf {b : Bool} {x y : M env Unit} (h : Agrees ids x y) :
    Agrees ids (onlyIf env b x) (onlyIf env b y) := by
  unfold onlyIf
  split
  · exact h
  · exact .pure

theorem agrees_parseRanges {s : Text} : Agrees ids (parseRanges env s) (parseRanges env s) := by
  unfold parseRanges
  split
  · exact .pure
  · exact .abort

theorem agrees_verifyBlocks {expected : Text} {buffer : List Block} {blocks : Nat} :
    Agrees ids (verifyBlocks env expected buffer blocks)
    (verifyBlocks env expected buffer blocks) := by
  unfold verifyBlocks
  split
  · exact .pure
  · exact .abort

theorem agrees_printCorrupted {buffer : List Block} {src : RangeSet} :
    Agrees ids (printHashForCorruptedStashedBlocks env buffer src)
    (printHashForCorruptedStashedBlocks env buffer src) := by
  unfold printHashForCorruptedStashedBlocks
  split
  · exact .pure
  · exact .abort

theorem agrees_syscall : Agrees ids (syscall env) (syscall env) := by
  rintro p _ d ⟨m, r, rfl, hp, hm⟩
  rcases p with ⟨_, _, _, _, _, _, _, _, _, _, _, _, faults⟩
  cases faults with
  | nil => exact ⟨rfl, .some ⟨rfl, m, r, rfl, hp, hm⟩⟩
  | cons fails faults => exact ⟨rfl, .some ⟨rfl, m, r, rfl, hp, hm⟩⟩

theorem agrees_syscalls {n : Nat} : Agrees ids (syscalls env n) (syscalls env n) := by
  induction n with
  | zero => exact .pure
  | succ n ih =>
    refine .bind agrees_syscall fun ok => ?_
    split
    · exact ih
    · exact .pure

theorem agrees_readAll {vs : List (Option Block)} {n : Nat} {buffer : List Block} :
    Agrees ids (readAll env vs n buffer) (readAll env vs n buffer) := by
  induction vs generalizing n buffer with
  | nil => exact .pure
  | cons v vs ih =>
    refine .bind agrees_syscall fun ok => ?_
    split
    · split
      · exact .pure
      · split
        · exact ih
        · exact .abort
    · exact .pure

theorem agrees_readBlocks {src : RangeSet} {buffer : List Block} :
    Agrees ids (readBlocks env src buffer) (readBlocks env src buffer) :=
  .store_bind fun _ => agrees_readAll

theorem agrees_deleteFile {id : Text} : Agrees ids (deleteFile env id) (deleteFile env id) := by
  refine .bind agrees_syscall fun ok => ?_
  split
  · exact .emit fun _ => rfl
  · exact .pure

theorem agrees_deleteFiles {files : List Text} :
    Agrees ids (deleteFiles env files) (deleteFiles env files) := by
  induction files with
  | nil => exact .pure
  | cons id files ih => exact .bind agrees_deleteFile fun _ => ih

theorem agrees_deleteStash : Agrees ids (deleteStash env) (deleteStash env) := by
  refine .store_bind fun d => .bind agrees_deleteFiles fun _ => .bind agrees_syscall fun ok => ?_
  split
  · exact .emit fun _ => rfl
  · exact .pure

theorem agrees_deleteLastCommandFile :
    Agrees ids (deleteLastCommandFile env) (deleteLastCommandFile env) := by
  refine .bind agrees_syscall fun ok => ?_
  split
  · exact .emit fun _ => rfl
  · exact .pure

theorem agrees_savedIndex : Agrees ids (savedIndex env) (savedIndex env) := by
  refine .bind (.store_bind fun d => ?_) fun index => ?_
  · split
    · refine .bind agrees_syscalls fun ok => ?_
      split
      · exact .pure
      · exact .pure
    · exact .pure
  · split
    · exact .pure
    · exact .bind agrees_deleteLastCommandFile fun _ => .pure

theorem agrees_createStash {n : Nat} {blockdev : Text} :
    Agrees ids (createStash env n blockdev) (createStash env n blockdev) := by
  unfold createStash
  split
  · exact .pure
  · refine .store_bind fun d => .bind agrees_syscall fun ok => ?_
    split
    · split
      · refine .bind agrees_syscall fun ok => ?_
        split
        · refine .bind (.emit fun _ => rfl) fun _ => .bind agrees_syscalls fun ok => ?_
          split
          · exact .pure
          · exact .pure
        · exact .pure
      · split
        · refine .bind agrees_syscall fun ok => ?_
          split
          · exact .pure
          · exact .pure
        · exact .pure
    · exact .pure

/-! ## Loading stashes -/

theorem agrees_printMissing {id : Text} (hid : id ∉ ids) :
    Agrees ids (printHashForMissingStashedBlocks env id)
    (printHashForMissingStashedBlocks env id) := by
  refine .get_bind fun p q hpq => ?_
  obtain ⟨m, r, rfl, -, hm⟩ := hpq
  rw [hm id hid]
  dsimp only
  split
  · exact .pure
  · refine .bind agrees_readBlocks fun ⟨_, _⟩ => ?_
    dsimp only
    split
    · exact agrees_printCorrupted
    · exact .pure

theorem agrees_loadStashFromSource {id : Text} {src : RangeSet} {buffer : List Block} :
    Agrees ids (loadStashFromSource env id src buffer) (loadStashFromSource env id src buffer) := by
  refine .bind agrees_readBlocks fun ⟨_, _⟩ => ?_
  dsimp only
  split
  · refine .bind agrees_verifyBlocks fun ok => ?_
    split
    · exact .pure
    · exact .bind agrees_printCorrupted fun _ => .pure
  · exact .pure

theorem agrees_loadStashFile {id : Text} (hid : id ∉ ids) {verify printnoent : Bool}
    {buffer : List Block} :
    Agrees ids (loadStashFile env id verify buffer printnoent)
    (loadStashFile env id verify buffer printnoent) := by
  refine .store_bind fun d => .bind agrees_syscall fun stat => ?_
  split
  · exact .bind (agrees_onlyIf (agrees_printMissing hid)) fun _ => .pure
  · split
    · exact .pure
    · refine .bind agrees_syscall fun ok => ?_
      split
      · refine .bind agrees_readAll fun ⟨_, _⟩ => ?_
        dsimp only
        split
        · split
          · exact .pure
          · refine .bind agrees_verifyBlocks fun ok => ?_
            split
            · exact .pure
            · refine .bind ?_ fun _ => .bind agrees_deleteFile fun _ => .pure
              refine .get_bind fun p q hpq => ?_
              obtain ⟨m, r, rfl, -, hm⟩ := hpq
              rw [hm id hid]
              dsimp only
              split
              · exact agrees_printCorrupted
              · exact .pure
        · exact .pure
      · exact .pure

theorem agrees_loadStash {id : Text} (hid : id ∉ ids) {verify printnoent : Bool}
    {buffer : List Block} :
    Agrees ids (loadStash env id verify buffer printnoent)
    (loadStash env id verify buffer printnoent) := by
  refine .get_bind fun p q hpq => ?_
  obtain ⟨m, r, rfl, -, hm⟩ := hpq
  rw [hm id hid]
  dsimp only
  rcases (if p.canwrite then none else m.lookup id) with _ | src
  · exact agrees_loadStashFile hid
  · exact agrees_loadStashFromSource

theorem agrees_loadStashes {tokens : List Text} (hids : ∀ id ∈ stashIds tokens, id ∉ ids) :
    Agrees ids (loadStashes env tokens) (loadStashes env tokens) := by
  induction tokens with
  | nil => exact .pure
  | cons token tokens ih =>
    unfold loadStashes
    split
    · rename_i id ranges hsplit
      have hid : id ∉ ids :=
        hids id (List.mem_filterMap.mpr ⟨token, List.mem_cons_self, by rw [hsplit]⟩)
      have hrest : ∀ id ∈ stashIds tokens, id ∉ ids := fun id hmem =>
        hids id (((List.sublist_cons_self token tokens).filterMap _).subset hmem)
      refine .bind (agrees_loadStash hid) fun ⟨_, _⟩ => ?_
      dsimp only
      split
      · refine .bind agrees_parseRanges fun locs => .get_bind fun p q hpq => ?_
        obtain ⟨m, r, rfl, -⟩ := hpq
        exact .bind agrees_expect fun _ => .bind agrees_setBuffer fun _ => ih hrest
      · exact ih hrest
    · exact .pure

/-! ## Loading the source -/

theorem agrees_parseRanges_bind {s : Text} {f g : RangeSet → M env α}
    (h : Agrees ids (f (RangeSet.parse s)) (g (RangeSet.parse s))) :
    Agrees ids (parseRanges env s >>= f) (parseRanges env s >>= g) := by
  unfold parseRanges
  split
  · rw [pure_bind, pure_bind]
    exact h
  · exact fun _ _ _ _ => ⟨rfl, .none⟩

theorem agrees_loadSourceRanges {tgt : RangeSet} {src : Text} {tokens : List Text}
    {f g : Option (Bool × List Text) → M env α} (hnone : Agrees ids (f none) (g none))
    (hsome : Agrees ids (f (some (overlaps src tgt, stashTokens src tokens)))
      (g (some (overlaps src tgt, stashTokens src tokens)))) :
    Agrees ids (loadSourceRanges env tgt src tokens >>= f)
    (loadSourceRanges env tgt src tokens >>= g) := by
  unfold loadSourceRanges overlaps stashTokens at *
  by_cases hsrc : src = ['-']
  · simp only [hsrc, if_true, pure_bind, ne_eq, not_true, decide_false, Bool.false_and] at hsome ⊢
    exact hsome
  · simp only [hsrc, if_false, ne_eq, not_false_iff, decide_true, Bool.true_and] at hsome ⊢
    rw [bind_assoc, bind_assoc]
    refine agrees_parseRanges_bind ?_
    simp only [bind_assoc]
    refine .get_bind fun p q hpq => ?_
    obtain ⟨m, r, rfl, -⟩ := hpq
    refine .bind agrees_readBlocks fun result => .bind agrees_setBuffer fun _ => ?_
    obtain ⟨ok, buffer⟩ := result
    dsimp only
    cases ok with
    | false =>
      simp only [Bool.not_false, if_true, pure_bind]
      exact hnone
    | true =>
      simp only [Bool.not_true, Bool.false_eq_true, if_false]
      cases tokens with
      | nil =>
        simp only [pure_bind]
        exact hsome
      | cons locs tokens =>
        simp only [bind_assoc, pure_bind]
        refine .bind agrees_parseRanges fun locs => .get_bind fun p q hpq => ?_
        obtain ⟨m, r, rfl, -⟩ := hpq
        exact .bind agrees_expect fun _ => .bind agrees_setBuffer fun _ => hsome

theorem agrees_loadSourceBlocks {tgt : RangeSet} {count src : Text} {tokens : List Text}
    (hids : ∀ id ∈ stashIds (stashTokens src tokens), id ∉ ids)
    {f g : Option (Nat × Bool) → M env α}
    (hnone : Agrees ids (f none) (g none))
    (hsome : ∀ blocks,
      Agrees ids (f (some (blocks, overlaps src tgt))) (g (some (blocks, overlaps src tgt)))) :
      Agrees ids (loadSourceBlocks env tgt count src tokens >>= f)
      (loadSourceBlocks env tgt count src tokens >>= g) := by
  unfold loadSourceBlocks
  split
  · rw [pure_bind, pure_bind]
    exact hnone
  · rename_i blocks _
    simp only [bind_assoc]
    refine .bind (agrees_modify (fun _ _ _ => rfl) (fun _ => rfl) fun _ => rfl) fun _ => ?_
    refine agrees_loadSourceRanges ?_ ?_
    · simp only [pure_bind]
      exact hnone
    · simp only [bind_assoc]
      refine .bind (agrees_loadStashes hids) fun ok => ?_
      split
      · rw [pure_bind, pure_bind]
        exact hsome blocks
      · rw [pure_bind, pure_bind]
        exact hnone

/-- What `LoadSrcTgtVersion3` has loaded: the source overlaps the target only if its hash is one of
the ids. -/
theorem agrees_loadTgtSrc {tokens : List Text} {onehash : Bool}
    (hids : ∀ id ∈ sourceIds onehash tokens, id ∉ ids)
    {f g : (LoadStatus × RangeSet) ⊕ LoadedSource → M env α}
    (hinl : ∀ r, Agrees ids (f (.inl r)) (g (.inl r)))
    (hinr : ∀ l : LoadedSource, (l.overlap = true → l.srchash ∉ ids) →
      Agrees ids (f (.inr l)) (g (.inr l))) :
      Agrees ids (loadTgtSrc env tokens onehash >>= f) (loadTgtSrc env tokens onehash >>= g) := by
  unfold loadTgtSrc
  split
  · rename_i srchash tgthash tgt count src tokens hsplit
    rw [sourceIds, hsplit, List.forall_mem_append] at hids
    rw [bind_assoc, bind_assoc]
    refine agrees_parseRanges_bind ?_
    rw [bind_assoc, bind_assoc]
    refine .bind agrees_readBlocks fun ⟨ok, _⟩ => ?_
    dsimp only
    split
    · rw [pure_bind, pure_bind]
      exact hinl _
    · rw [bind_assoc, bind_assoc]
      refine .bind agrees_verifyBlocks fun ok => ?_
      split
      · rw [pure_bind, pure_bind]
        exact hinl _
      · rw [bind_assoc, bind_assoc]
        refine agrees_loadSourceBlocks hids.2 ?_ fun blocks => ?_
        · rw [pure_bind, pure_bind]
          exact hinl _
        · rw [pure_bind, pure_bind]
          refine hinr _ fun hoverlap => hids.1 _ ?_
          rw [if_pos hoverlap]
          exact List.mem_singleton_self _
  · rw [pure_bind, pure_bind]
    exact hinl _

theorem agrees_loadImplicitStash {l : LoadedSource} (hl : l.overlap = true → l.srchash ∉ ids) :
    Agrees ids (loadImplicitStash env l) (loadImplicitStash env l) := by
  unfold loadImplicitStash
  split
  · rename_i hoverlap
    refine .get_bind fun p q hpq => ?_
    obtain ⟨m, r, rfl, -⟩ := hpq
    exact .bind (agrees_loadStash (hl hoverlap)) fun _ => .bind agrees_setBuffer fun _ => .pure
  · exact .pure

theorem agrees_printSource {src : Text} {tokens : List Text} :
    Agrees ids (printHashForCorruptedSourceBlocks env src tokens)
    (printHashForCorruptedSourceBlocks env src tokens) := by
  refine .get_bind fun p q hpq => ?_
  obtain ⟨m, r, rfl, -⟩ := hpq
  dsimp only
  split
  · exact .pure
  · split
    · exact .pure
    · exact .abort

theorem agrees_recoverSource {l : LoadedSource} (hl : l.overlap = true → l.srchash ∉ ids) :
    Agrees ids (recoverSource env l) (recoverSource env l) := by
  refine .bind (agrees_loadImplicitStash hl) fun ok => ?_
  split
  · exact .pure
  · exact .bind agrees_printSource fun _ =>
      .bind (agrees_modify (fun _ _ _ => rfl) (fun _ => rfl) fun _ => rfl) fun _ => .pure

theorem agrees_stashSource {l : LoadedSource} :
    Agrees ids (stashSource env l) (stashSource env l) := by
  refine .get_bind fun p q hpq => ?_
  obtain ⟨m, r, rfl, hp, -⟩ := hpq
  dsimp only
  rw [hp, Bool.and_false]
  exact .pure

theorem agrees_loadSrcTgtVersion3 {tokens : List Text} {onehash : Bool}
    (hids : ∀ id ∈ sourceIds onehash tokens, id ∉ ids) :
    Agrees ids (loadSrcTgtVersion3 env tokens onehash) (loadSrcTgtVersion3 env tokens onehash) := by
  refine agrees_loadTgtSrc hids (fun _ => .pure) fun l hl => ?_
  refine .get_bind fun p q hpq => ?_
  obtain ⟨m, r, rfl, -⟩ := hpq
  refine .bind agrees_verifyBlocks fun ok => ?_
  split
  · exact .bind agrees_stashSource fun _ => .pure
  · exact .bind (agrees_recoverSource hl) fun _ => .pure

/-! ## The commands -/

/-- The rest of `PerformCommandMove` and `PerformCommandDiff` when the source is loaded: there is no
implicit stash. -/
theorem agrees_releaseStash : Agrees ids (releaseStash env) (releaseStash env) := by
  refine .get_bind fun p q hpq => ?_
  obtain ⟨m, r, rfl, -⟩ := hpq
  dsimp only
  split
  · refine .bind ?_ fun _ => agrees_modify (fun _ _ _ => rfl) (fun _ => rfl) fun _ => rfl
    unfold freeStash
    split
    · exact .pure
    · exact .bind agrees_deleteFile fun _ => .pure
  · exact .pure

theorem agrees_afterLoad {status : LoadStatus} {write : CommandParameters → M env Bool} :
    Agrees ids (afterLoad env status write) (afterLoad env status write) := by
  unfold afterLoad
  split
  · exact .pure
  · refine .bind ?_ fun _ => .get_bind fun p q hpq => ?_
    · split
      · exact agrees_modify (fun _ _ _ => rfl) (fun _ => rfl) fun _ => rfl
      · exact agrees_modify (fun _ _ _ => rfl) (fun _ => rfl) fun _ => rfl
    · obtain ⟨m, r, rfl, hp, -⟩ := hpq
      dsimp only
      rw [hp, Bool.false_and]
      refine .bind .pure fun ok => ?_
      split
      · exact .bind agrees_releaseStash fun _ => .pure
      · exact .pure

theorem agree_stash {id : Text} {src : RangeSet} (h : Agree ids p q) :
    Agree ids { p with stashMap := (id, src) :: p.stashMap.filter (·.1 ≠ id) }
      { q with stashMap := (id, src) :: q.stashMap.filter (·.1 ≠ id) } := by
  obtain ⟨m, r, rfl, hp, hm⟩ := h
  refine ⟨_, r, rfl, hp, fun id' hid' => ?_⟩
  rw [List.lookup_cons, List.lookup_cons]
  by_cases hid : id' = id
  · rw [hid, beq_self_eq_true]
  · rw [beq_false_of_ne hid, lookup_filter_ne hid, lookup_filter_ne hid, hm id' hid']

theorem lookup_filter_self {l : List (Text × β)} {k : Text} :
    (l.filter fun x => x.1 ≠ k).lookup k = none := by
  rw [List.lookup_eq_none_iff]
  intro x hx
  have hne : x.1 ≠ k := by simpa using (List.mem_filter.mp hx).2
  exact bne_iff_ne.mpr hne.symm

/-- Whatever the entry was, the id that is freed has none in either process. -/
theorem agree_free {id : Text} (h : Agree ids p q) :
    Agree (unfreed [id] ids) { p with stashMap := p.stashMap.filter (·.1 ≠ id) }
      { q with stashMap := q.stashMap.filter (·.1 ≠ id) } := by
  obtain ⟨m, r, rfl, hp, hm⟩ := h
  refine ⟨_, r, rfl, hp, fun id' hid' => ?_⟩
  by_cases hid : id' = id
  · rw [hid, lookup_filter_self, lookup_filter_self]
  · rw [lookup_filter_ne hid, lookup_filter_ne hid]
    refine hm id' fun hmem => hid' (List.mem_filter.mpr ⟨hmem, ?_⟩)
    simpa using hid

/-- Two processes at the start of a command with these tokens. -/
def AgreeAt (tokens ids : List Text) (p q : CommandParameters) : Prop :=
  Agree ids p q ∧ p.tokens = tokens

theorem agrees_performCommandMove {tokens : List Text}
    (hids : ∀ id ∈ sourceIds true tokens, id ∉ ids) :
    Prog.Alike (AgreeAt tokens ids) (Agree ids) (performCommandMove env)
    (performCommandMove env) := by
  refine .get_bind fun p q hpq => ?_
  obtain ⟨⟨m, r, rfl, -⟩, rfl⟩ := hpq
  refine Prog.Alike.mono (R := Agree ids) ?_ (fun _ _ h => h.1) fun _ _ h => h
  exact .bind (agrees_loadSrcTgtVersion3 hids) fun ⟨_, _, _⟩ => agrees_afterLoad

theorem agrees_performCommandDiff {imgdiff : Bool} {tokens : List Text}
    (hids : ∀ offset len tokens', tokens = offset :: len :: tokens' →
      ∀ id ∈ sourceIds false tokens', id ∉ ids) :
      Prog.Alike (AgreeAt tokens ids) (Agree ids) (performCommandDiff env imgdiff)
      (performCommandDiff env imgdiff) := by
  refine .get_bind fun p q hpq => ?_
  obtain ⟨⟨m, r, rfl, -⟩, rfl⟩ := hpq
  refine Prog.Alike.mono (R := Agree ids) ?_ (fun _ _ h => h.1) fun _ _ h => h
  dsimp only
  split
  · rename_i offset len tokens' htokens
    split
    · exact .bind (agrees_loadSrcTgtVersion3 (hids _ _ _ htokens)) fun ⟨_, _, _⟩ => agrees_afterLoad
    · exact .pure
  · exact .pure

theorem agrees_performCommandStash {tokens : List Text}
    (hids : ∀ id src tokens', tokens = id :: src :: tokens' → id ∉ ids) :
    Prog.Alike (AgreeAt tokens ids) (Agree ids) (performCommandStash env)
    (performCommandStash env) := by
  refine .get_bind fun p q hpq => ?_
  obtain ⟨⟨m, r, rfl, hp, -⟩, rfl⟩ := hpq
  refine Prog.Alike.mono (R := Agree ids) ?_ (fun _ _ h => h.1) fun _ _ h => h
  dsimp only
  split
  · rename_i id src tokens' htokens
    refine .bind (agrees_loadStash (hids _ _ _ htokens)) fun ⟨_, _⟩ =>
      .bind agrees_setBuffer fun _ => ?_
    dsimp only
    split
    · exact .pure
    · refine .bind agrees_parseRanges fun src => .bind agrees_readBlocks fun ⟨_, _⟩ =>
        .bind agrees_setBuffer fun _ => ?_
      dsimp only
      split
      · exact .pure
      · refine .bind (.modify fun _ _ h => agree_stash h) fun _ =>
          .bind agrees_verifyBlocks fun ok => ?_
        rw [hp]
        split
        · exact .pure
        · exact .pure
  · exact .pure

theorem agrees_performCommandFree {tokens : List Text} :
    Prog.Alike (AgreeAt tokens ids) (Agree (unfreed (Command.free.frees tokens) ids))
    (performCommandFree env)
      (performCommandFree env) := by
  refine .get_bind fun p q hpq => ?_
  obtain ⟨⟨m, r, rfl, -⟩, rfl⟩ := hpq
  dsimp only
  split
  · rename_i id tokens' htokens
    rw [htokens]
    refine Prog.Alike.bind (?_ : Prog.Alike _ (Agree (unfreed [id] ids)) _ _) fun _ => ?_
    · exact .modify fun _ _ h => agree_free h.1
    · split
      · unfold freeStash
        split
        · exact .pure
        · exact Agrees.bind agrees_deleteFile fun _ => .pure
      · exact .pure
  · rename_i htokens
    rw [htokens]
    refine Prog.Alike.mono (R := Agree ids) .pure (fun _ _ h => h.1) fun _ _ h => ?_
    rwa [show Command.free.frees [] = [] from rfl, unfreed_nil]

theorem agrees_perform {command : Command} {f : M env Bool} (hf : command.perform env true = some f)
    {tokens : List Text} (hids : ∀ id ∈ command.loads tokens, id ∉ ids) :
    Prog.Alike (AgreeAt tokens ids) (Agree (unfreed (command.frees tokens) ids)) f f := by
  have hdiff : ∀ imgdiff, (∀ id ∈ Command.bsdiff.loads tokens, id ∉ ids) →
      Prog.Alike (AgreeAt tokens ids) (Agree ids)
      (performCommandDiff env imgdiff) (performCommandDiff env imgdiff) := by
    rintro imgdiff hids
    refine agrees_performCommandDiff ?_
    rintro offset len tokens' rfl
    exact hids
  cases command with
  | bsdiff =>
    cases hf
    rw [show Command.bsdiff.frees tokens = [] from rfl, unfreed_nil]
    exact hdiff false hids
  | imgdiff =>
    cases hf
    rw [show Command.imgdiff.frees tokens = [] from rfl, unfreed_nil]
    refine hdiff true ?_
    rcases tokens with _ | ⟨_, _ | ⟨_, _⟩⟩
    · exact hids
    · exact hids
    · exact hids
  | free =>
    cases hf
    exact agrees_performCommandFree
  | move =>
    cases hf
    rw [show Command.move.frees tokens = [] from rfl, unfreed_nil]
    exact agrees_performCommandMove hids
  | stash =>
    cases hf
    rw [show Command.stash.frees tokens = [] from rfl, unfreed_nil]
    refine agrees_performCommandStash ?_
    rintro id src tokens' rfl
    exact hids id (List.mem_singleton_self id)
  | erase | new | zero => cases hf

/-! ## The loop -/

theorem agrees_checkLastCommand {command : Command} {saved : Int} :
    Agrees ids (checkLastCommand env command saved) (checkLastCommand env command saved) := by
  refine .get_bind fun p q hpq => ?_
  obtain ⟨m, r, rfl, -⟩ := hpq
  dsimp only
  split
  · exact .bind agrees_deleteLastCommandFile fun _ => .pure
  · exact .pure

theorem agrees_syncCommand {i : Nat} : Agrees ids (syncCommand env i) (syncCommand env i) := by
  refine .get_bind fun p q hpq => ?_
  obtain ⟨m, r, rfl, hp, -⟩ := hpq
  dsimp only
  rw [hp]
  exact .pure

theorem performLine_of_unknown {i : Nat} {line : Text} {saved : Int} (h : commandOf line = none) :
    performLine env i line saved = pure none := by
  unfold performLine
  unfold commandOf at h
  rcases hsplit : line.splitOn ' ' with _ | ⟨name, tokens⟩
  · rfl
  · rw [hsplit] at h
    simp only [List.head?_cons, Option.bind_some] at h
    simp only [h]

theorem agrees_performLine {i : Nat} {line : Text} {saved : Int} {command : Command}
    (hcommand : commandOf line = some command)
    (hids : ∀ id ∈ command.loads (line.splitOn ' ').tail, id ∉ ids) :
    Prog.Alike (Agree ids) (Agree (unfreed (command.frees (line.splitOn ' ').tail) ids))
      (performLine env i line saved) (performLine env i line saved) := by
  unfold performLine
  unfold commandOf at hcommand
  rcases hsplit : line.splitOn ' ' with _ | ⟨name, tokens⟩
  · exact absurd hsplit (List.splitOn_ne_nil _ _)
  rw [hsplit] at hcommand hids
  simp only [List.head?_cons, Option.bind_some, List.tail_cons] at hcommand hids
  simp only [hcommand, List.tail_cons]
  refine .get_bind fun p q hpq => ?_
  obtain ⟨m, r, rfl, hp, -⟩ := hpq
  dsimp only
  rw [hp, Bool.not_false]
  rcases hf : command.perform env true with _ | f
  · refine Prog.Alike.mono (R := Agree ids) .pure (fun _ _ h => h) fun _ _ h => ?_
    have hnil : command.frees tokens = [] := by
      cases command with
      | erase | new | zero => rfl
      | bsdiff | imgdiff | free | move | stash => cases hf
    rwa [hnil, unfreed_nil]
  simp only [Bool.false_eq_true, false_and, if_false]
  refine Prog.Alike.bind (?_ : Prog.Alike _ (AgreeAt tokens ids) _ _) fun _ => ?_
  · refine .modify fun p q hpq => ?_
    obtain ⟨m, r, rfl, hp, hm⟩ := hpq
    exact ⟨⟨m, r, rfl, hp, hm⟩, rfl⟩
  refine .get_bind fun p q hpq => ?_
  refine Prog.Alike.bind (.emit fun _ => rfl : Prog.Alike _ (AgreeAt tokens ids) _ _) fun _ => ?_
  refine Prog.Alike.bind (agrees_perform hf hids) fun ok => ?_
  split
  · refine .bind agrees_checkLastCommand fun saved => .bind agrees_syncCommand fun ok => ?_
    split
    · exact .pure
    · exact .pure
  · exact .pure

theorem Agree.mono {ids' : List Text} (h : Agree ids p q) (hids : ∀ id ∈ ids, id ∈ ids') :
    Agree ids' p q := by
  obtain ⟨m, r, hq, hp, hm⟩ := h
  exact ⟨m, r, hq, hp, fun id hid => hm id fun hmem => hid (hids id hmem)⟩

theorem Agrees.mono {ids' : List Text} {x y : M env α} (hids : ∀ id ∈ ids, id ∈ ids')
    (h : Agrees ids x y) : Prog.Alike (Agree ids) (Agree ids') x y :=
  Prog.Alike.mono h (fun _ _ h => h) fun _ _ h => h.mono hids

theorem mem_of_mem_unfreed {freed : List Text} {id : Text} (h : id ∈ unfreed freed ids) :
    id ∈ ids :=
  (List.mem_filter.mp h).1

theorem agrees_performLines {i : Nat} {lines : List Text} {saved : Int}
    (h : avoids ids lines = true) :
    Agrees ids (performLines env i lines saved) (performLines env i lines saved) := by
  induction lines generalizing ids i saved with
  | nil => exact .pure
  | cons line lines ih =>
    unfold performLines
    unfold avoids at h
    split
    · rename_i hempty
      rw [if_pos hempty] at h
      exact ih h
    · rename_i hempty
      rw [if_neg hempty] at h
      rcases hcommand : commandOf line with _ | command
      · rw [performLine_of_unknown hcommand, pure_bind]
        exact .pure
      · rw [hcommand] at h
        simp only [Bool.and_eq_true, List.all_eq_true, decide_eq_true_eq] at h
        refine Prog.Alike.bind (agrees_performLine hcommand h.1) fun next => ?_
        refine Agrees.mono (fun _ => mem_of_mem_unfreed) ?_
        split
        · exact ih h.2
        · exact .pure

theorem agrees_finishUpdate {rc : Bool} :
    Agrees ids (finishUpdate env rc) (finishUpdate env rc) := by
  refine .get_bind fun p q hpq => ?_
  obtain ⟨m, r, rfl, -⟩ := hpq
  exact .bind (agrees_onlyIf (.bind agrees_deleteStash fun _ => agrees_deleteLastCommandFile))
    fun _ =>
    .bind agrees_syscall fun _ => .bind (agrees_onlyIf (.emit fun _ => rfl)) fun _ =>
    .bind (agrees_onlyIf agrees_deleteLastCommandFile) fun _ => agrees_onlyIf agrees_deleteStash

/-! ## A call -/

theorem agrees_performCommandsIn {thread : NewDataThread} {blockdev : Text} {n : Nat}
    {lines : List Text}
    (h : avoids ids lines = true) : Agrees ids (performCommandsIn env thread blockdev n lines)
      (performCommandsIn env thread blockdev n lines) := by
  refine .bind agrees_createStash fun created => ?_
  split
  · exact .pure
  · refine .bind (agrees_modify (fun _ _ _ => rfl) (fun _ => rfl) fun _ => rfl) fun _ =>
      .bind agrees_savedIndex fun saved => .bind (agrees_performLines h) fun rc =>
        .get_bind fun p q hpq => ?_
    obtain ⟨m, r, rfl, -⟩ := hpq
    exact .bind agrees_finishUpdate fun _ => .pure

/-- Two processes between calls: all other variables are set at the start of a call. -/
def Between (ids : List Text) (p q : CommandParameters) : Prop :=
  p.faults = q.faults ∧ ∀ id, id ∉ ids → p.stashMap.lookup id = q.stashMap.lookup id

theorem alike_performUpdate {call : Call} (hdryrun : call.dryrun = true)
    (h : ∀ n lines, readHeader call.transferList = some (n, lines) → avoids ids lines = true) :
    Prog.Alike (Between ids) (Agree ids) (performUpdate env call) (performUpdate env call) := by
  unfold performUpdate
  refine Prog.Alike.bind (?_ : Prog.Alike _ (Agree ids) _ _) fun _ => ?_
  · refine .modify fun p q hpq => ⟨q.stashMap, q.isRetry || call.retry, ?_, ?_, hpq.2⟩
    · rw [hpq.1]
    · rw [hdryrun, Bool.not_true]
  · refine .bind agrees_syscall fun ok => ?_
    rw [hdryrun, if_pos rfl]
    split
    · obtain ⟨rc, hread⟩ := @readTransferList_eq env .none call
      rw [hread]
      split
      · exact .pure
      · rename_i n lines hheader
        exact agrees_performCommandsIn (h n lines hheader)
    · exact .pure

/-- A call of `block_image_verify` (`dryrun`) or `block_image_update`: the device, the arguments,
what is on storage at its start, and which system calls fail. -/
structure Invocation where
  env : Env
  dryrun : Bool
  retry : Bool
  ui : Option UpdaterInfo
  argv : List (Option Value)
  disk : Disk
  faults : List Bool

namespace Invocation

/-- What can be seen of a call when the static variables are as in `p`. -/
def outcome (c : Invocation) (p : CommandParameters) :
    Option (NewDataThread × Option Bool) × List (Disk → Disk) :=
  (performCall c.env c.dryrun c.retry c.ui c.argv).outcome { p with faults := c.faults } c.disk

/-- The variables that a call leaves, if the process is alive after it. -/
def next (c : Invocation) (p : CommandParameters) : Option CommandParameters :=
  ((performCall c.env c.dryrun c.retry c.ui c.argv).result { p with faults := c.faults } c.disk).map
  Prod.snd

/-- The lines of the transfer list after the header, if the arguments and the header can be read. -/
def lines (c : Invocation) : List Text :=
  match readArguments c.dryrun c.retry c.ui c.argv with
  | .ok call => ((readHeader call.transferList).map (·.2)).getD []
  | .error _ => []

/-- The list of the call loads no stash for which there is an entry in `stash_map`, unless it has
freed it. -/
def Avoids (c : Invocation) (p : CommandParameters) : Prop :=
  avoids (p.stashMap.map (·.1)) c.lines = true

instance (c : Invocation) (p : CommandParameters) : Decidable (c.Avoids p) :=
  inferInstanceAs (Decidable (avoids (p.stashMap.map (·.1)) c.lines = true))

theorem dryrun_of_readArguments {dryrun retry : Bool} {ui : Option UpdaterInfo}
    {argv : List (Option Value)} {call : Call}
    (h : readArguments dryrun retry ui argv = .ok call) : call.dryrun = dryrun := by
  unfold readArguments at h
  grind

/-- A verification that avoids the entries does the same as in a fresh process. -/
theorem outcome_eq (c : Invocation) (p : CommandParameters) (hdryrun : c.dryrun = true)
    (h : c.Avoids p) : c.outcome p = c.outcome .start := by
  have hstart : Between (p.stashMap.map (·.1)) { p with faults := c.faults }
      { CommandParameters.start with faults := c.faults } := by
    refine ⟨rfl, fun id hid => ?_⟩
    rw [CommandParameters.start, List.lookup_nil, List.lookup_eq_none_iff]
    intro x hx
    exact bne_iff_ne.mpr fun heq => hid (List.mem_map.mpr ⟨x, hx, heq.symm⟩)
  suffices halike : Prog.Alike (Between (p.stashMap.map (·.1))) (fun _ _ => True)
      (performCall c.env c.dryrun c.retry c.ui c.argv)
        (performCall c.env c.dryrun c.retry c.ui c.argv) from
    halike.outcome_eq hstart c.disk
  refine Prog.Alike.bind (?_ : Prog.Alike _ (Between (p.stashMap.map (·.1))) _ _) fun _ => ?_
  · exact .modify fun p q hpq => hpq
  rcases hargs : readArguments c.dryrun c.retry c.ui c.argv with r | call
  · exact .mono .pure (fun _ _ h => h) fun _ _ _ => trivial
  · have hlines : ∀ n lines, readHeader call.transferList = some (n, lines) →
        avoids (p.stashMap.map (·.1)) lines = true := by
      intro n lines hheader
      simp only [Avoids, Invocation.lines, hargs, hheader, Option.map_some, Option.getD_some] at h
      exact h
    refine Prog.Alike.bind
      (alike_performUpdate ((dryrun_of_readArguments hargs).trans hdryrun) hlines) fun _ => ?_
    exact .mono .pure (fun _ _ h => h) fun _ _ _ => trivial

end Invocation

/-! ## All sequences of calls -/

/-- A process of the updater between two calls: its variables (`none` if it has died), and what
could be seen of each verification, here and when the same call is made in a fresh process. -/
structure Process where
  params : Option CommandParameters
  verified : List ((Option (NewDataThread × Option Bool) × List (Disk → Disk)) ×
    (Option (NewDataThread × Option Bool) × List (Disk → Disk)))

namespace Process

/-- The process after a call. -/
def call (s : Process) (p : CommandParameters) (c : Invocation) : Process where
  params := c.next p
  verified := if c.dryrun then (c.outcome p, c.outcome .start) :: s.verified else s.verified

theorem params_call (s : Process) (p : CommandParameters) (c : Invocation) :
    (s.call p c).params = c.next p := rfl

/-- Every verification was as in a fresh process. -/
def Independent (s : Process) : Prop := ∀ v ∈ s.verified, v.1 = v.2

theorem Independent.last {s : Process} {p : CommandParameters} {c : Invocation}
    (h : (s.call p c).Independent) (hdryrun : c.dryrun = true) :
    c.outcome p = c.outcome .start := by
  have hmem : (c.outcome p, c.outcome .start) ∈ (s.call p c).verified := by
    rw [call, if_pos hdryrun]
    exact List.mem_cons_self
  exact h _ hmem

end Process

/-- All sequences of calls in one process, for any devices and with anything on storage. -/
def processes : System Process where
  init s := s.params = some .start ∧ s.verified = []
  step s s' := ∃ p c, s.params = some p ∧ s' = s.call p c

/-- The sequences in which no verification loads a stash for which an earlier call has left an
entry. -/
def avoidingProcesses : System Process where
  init := processes.init
  step s s' := ∃ p c, s.params = some p ∧ (c.dryrun = true → c.Avoids p) ∧ s' = s.call p c

theorem inductive_independent : avoidingProcesses.Inductive Process.Independent where
  init s h := by
    intro v hv
    rw [h.2] at hv
    cases hv
  step s s' hs h := by
    obtain ⟨p, c, -, havoids, rfl⟩ := h
    unfold Process.Independent Process.call
    dsimp only
    split
    · rename_i hdryrun
      exact List.forall_mem_cons.mpr ⟨c.outcome_eq p hdryrun (havoids hdryrun), hs⟩
    · exact hs

/-- Where no verification loads a stash for which an earlier call has left an entry in `stash_map`,
every verification has the result and the effects that it has in a fresh process. -/
theorem avoidingProcesses_independent {s : Process} (h : avoidingProcesses.Reach s) :
    s.Independent :=
  inductive_independent.reach h

/-- A verification of a small device by a list with two blocks and a stash of one block. -/
def verification (disk : Disk) (commands : Text) : Invocation where
  env := .small
  dryrun := true
  retry := false
  ui := some ⟨true, some fun _ => some []⟩
  argv := [⟨.string, ['d']⟩, ⟨.blob, "4\n1\n1\n1\n".toList ++ commands⟩, ⟨.string, ['n']⟩,
    ⟨.string, ['p']⟩].map some
  disk
  faults := []

/-- Block 0 has to hold what the list stashes, and it does not: the verification fails before the
stash is freed. -/
def staleVerification : Invocation :=
  verification (.start []) "stash ab 2,0,1\nmove ab 2,1,2 1 - ab:2,0,1\nfree ab".toList

/-- The variables that it leaves. -/
def staleParams : CommandParameters := (staleVerification.next .start).getD .start

theorem params_staleVerification (s : Process) :
    (s.call .start staleVerification).params = some staleParams := by
  have hsome : (staleVerification.next .start).isSome = true := by decide +kernel
  rw [Process.params_call, staleParams, Option.getD_of_ne_none (Option.isSome_iff_ne_none.mp hsome)]

/-- The next list loads another stash. -/
def otherVerification : Invocation :=
  verification (.start [0, 1, 0]) "stash b 2,2,3\nmove b 2,1,2 1 - b:2,0,1\nfree b".toList

/-- The next partition has the stash file of an update that was interrupted, and what was stashed is
overwritten. -/
def resumedVerification : Invocation :=
  verification { Disk.start [2] with stash := some [("ab".toList, ⟨[1], ⟨0, Nat.zero_lt_succ _⟩⟩)] }
    "stash ab 2,0,1\nmove ab 2,1,2 1 - ab:2,0,1\nfree ab".toList

/-- A list that loads another stash is verified as in a fresh process. -/
theorem avoidingProcesses_independent_otherStash :
    staleParams.stashMap = [("ab".toList, RangeSet.parse "2,0,1".toList)] ∧
      otherVerification.outcome staleParams = otherVerification.outcome .start := by
  have hinit : avoidingProcesses.Reach ⟨some .start, []⟩ := .init ⟨rfl, rfl⟩
  have hstale := hinit.step ⟨.start, staleVerification, rfl, fun _ => by decide +kernel, rfl⟩
  have hother :=
    hstale.step ⟨staleParams, otherVerification, params_staleVerification _,
      fun _ => by decide +kernel, rfl⟩
  exact ⟨by decide +kernel, (avoidingProcesses_independent hother).last rfl⟩

/-- A fresh process loads the stash file. With the entry that the call before has left, the update
cannot be resumed. -/
theorem processes_not_independent : ¬∀ s, processes.Reach s → s.Independent := by
  intro h
  have hinit : processes.Reach ⟨some .start, []⟩ := .init ⟨rfl, rfl⟩
  have hstale := hinit.step ⟨.start, staleVerification, rfl, rfl⟩
  have hresumed := hstale.step ⟨staleParams, resumedVerification, params_staleVerification _, rfl⟩
  have heq := (h _ hresumed).last rfl
  have hfresh :
      (resumedVerification.outcome .start).1 = some (.none, some true) := by decide +kernel
  have hhere :
      (resumedVerification.outcome staleParams).1 = some (.none, some false) := by decide +kernel
  have hvalue := hhere.symm.trans ((congrArg Prod.fst heq).trans hfresh)
  cases hvalue

end BootableRecovery.BlockImg
