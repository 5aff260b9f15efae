import BootableRecovery.Updater.BlockImg

/-!
# Rules for the functions of the updater

One rule for each function that later proofs call by name. A system call may fail, so a rule has one
premise for each way in which its function can end; `Faulted p p'` says that `p'` differs from `p`
only by system calls that were made in between. When no call fails, nothing has changed
(`Faulted.eq`), and the premises for failures fall away.
-/

namespace BootableRecovery.BlockImg

/-- `p'` is `p` after some system calls. -/
structure Faulted (p p' : CommandParameters) : Prop where
  same : ∃ faults, p' = { p with faults }
  eq : p.faults = [] → p' = p

namespace Faulted

theorem refl (p : CommandParameters) : Faulted p p := ⟨⟨p.faults, rfl⟩, fun _ => rfl⟩

theorem trans {p p' p'' : CommandParameters} (h : Faulted p p') (h' : Faulted p' p'') :
    Faulted p p'' := by
  obtain ⟨⟨f, rfl⟩, heq⟩ := h
  obtain ⟨⟨f', rfl⟩, heq'⟩ := h'
  exact ⟨⟨f', rfl⟩, fun h₀ => (heq' (by rw [heq h₀, h₀])).trans (heq h₀)⟩

end Faulted

variable {env : Env} {τ : Type} {Mo : Monitor (Disk.apply env) τ} {C : τ → Prop}
    {p : CommandParameters}
variable {t : τ}

/-! ## Primitives -/

@[simp]
theorem wp_disk {Q : Option (Disk × CommandParameters) → τ → Prop} :
    wp Mo C (disk env) Q p t ↔ Q (some (Mo.view t, p)) t :=
  wp_store

@[simp]
theorem wp_emit_step {e : Step} {Q : Option (Unit × CommandParameters) → τ → Prop} :
    wp Mo C (emit env e) Q p t ↔ C (Mo.step t e) ∧ Q (some ((), p)) (Mo.step t e) :=
  wp_emit

@[simp]
theorem wp_abort_check {Q : Option (α × CommandParameters) → τ → Prop} :
    wp Mo C (abort env) Q p t ↔ Q none t :=
  wp_abort

theorem wp_syscall {Q : Option (Bool × CommandParameters) → τ → Prop}
    (hok : ∀ p', Faulted p p' → Q (some (true, p')) t)
    (hfail : p.faults ≠ [] → ∀ p', Faulted p p' → Q (some (false, p')) t) :
    wp Mo C (syscall env) Q p t := by
  rcases hf : p.faults with _ | ⟨b, faults⟩
  · have : wp Mo C (syscall env) Q p t ↔ Q (some (true, p)) t := by
      simp [wp, Prog.steps, Prog.result, syscall, hf, Monitor.Along]
    exact this.mpr (hok p (.refl p))
  · have : wp Mo C (syscall env) Q p t ↔ Q (some (!b, { p with faults })) t := by
      simp [wp, Prog.steps, Prog.result, syscall, hf, Monitor.Along]
    have hp : Faulted p { p with faults } := ⟨⟨faults, rfl⟩, by simp [hf]⟩
    rw [this]
    cases b
    · exact hok _ hp
    · exact hfail (by simp [hf]) _ hp

theorem wp_syscall_exact {Q : Option (Bool × CommandParameters) → τ → Prop}
    (hok : p.faults.headD false = false → Q (some (true, { p with faults := p.faults.tail })) t)
    (hfail : p.faults.headD false = true → Q (some (false, { p with faults := p.faults.tail })) t) :
    wp Mo C (syscall env) Q p t := by
  rcases hf : p.faults with _ | ⟨b, faults⟩ <;> rw [hf] at hok hfail
  · have hp : { p with faults := [] } = p := by rw [← hf]
    have := hok rfl
    rw [List.tail_nil, hp] at this
    simpa [wp, Prog.steps, Prog.result, syscall, hf, Monitor.Along] using this
  · cases b with
    | false => simpa [wp, Prog.steps, Prog.result, syscall, hf, Monitor.Along] using hok rfl
    | true => simpa [wp, Prog.steps, Prog.result, syscall, hf, Monitor.Along] using hfail rfl

theorem wp_syscalls {n : Nat} {Q : Option (Bool × CommandParameters) → τ → Prop}
    (hok : ∀ p', Faulted p p' → Q (some (true, p')) t)
    (hfail : p.faults ≠ [] → ∀ p', Faulted p p' → Q (some (false, p')) t) :
    wp Mo C (syscalls env n) Q p t := by
  induction n generalizing p with
  | zero => simpa [syscalls] using hok p (.refl p)
  | succ n ih =>
    simp only [syscalls, wp_bind]
    refine wp_syscall (fun p' hp => ?_) (fun h p' hp => ?_)
    · simp only [wpThen_some, if_true]
      refine ih (fun p'' hp' => hok p'' (hp.trans hp')) (fun h p'' hp' => ?_)
      refine hfail (fun h₀ => h ?_) p'' (hp.trans hp')
      rw [hp.eq h₀, h₀]
    · simpa using hfail h p' hp

/-! ## Reading -/

theorem overwriteAt_nil (l : List α) (n : Nat) : overwriteAt l n [] = l := by
  simp [overwriteAt]

theorem overwriteAt_set {l : List α} {n : Nat} {x : α} {xs : List α} (h : n < l.length) :
    overwriteAt (l.set n x) (n + 1) xs = overwriteAt l n (x :: xs) := by
  have h₁ : (l.set n x).take (n + 1) = l.take n ++ [x] := by
    rw [List.take_set, List.take_succ_eq_append_getElem h, List.set_append_right _ _ (by simp),
      List.length_take, Nat.min_eq_left (Nat.le_of_lt h), Nat.sub_self]
    rfl
  simp only [overwriteAt, h₁, List.drop_set, List.length_cons]
  rw [if_pos (by omega), show n + 1 + xs.length = n + (xs.length + 1) by omega]
  simp

theorem overwriteAt_zero {l xs : List α} : overwriteAt l 0 xs = xs ++ l.drop xs.length := by
  simp [overwriteAt]

theorem wp_readAll {vs : List (Option Block)} {n : Nat} {buffer : List Block}
    {Q : Option ((Bool × List Block) × CommandParameters) → τ → Prop}
    (hok : ∀ p' ws, Faulted p p' → vs = ws.map some → n + ws.length ≤ buffer.length →
      Q (some ((true, overwriteAt buffer n ws), p')) t)
    (hfail : (p.faults = [] → none ∈ vs) → ∀ p' buffer', Faulted p p' →
      buffer'.length = buffer.length → Q (some ((false, buffer'), p')) t)
    (habort : buffer.length < n + vs.length → Q none t) (hn : n ≤ buffer.length) :
    wp Mo C (readAll env vs n buffer) Q p t := by
  induction vs generalizing n buffer p with
  | nil => simpa [readAll, overwriteAt_nil] using hok p [] (.refl p) rfl (by simpa using hn)
  | cons v vs ih =>
    simp only [readAll, wp_bind]
    refine wp_syscall (fun p' hp => ?_) (fun h p' hp => ?_)
    · simp only [wpThen_some, if_true]
      cases v with
      | none => simpa using hfail (fun _ => by simp) p' buffer hp rfl
      | some v =>
        simp only
        split
        · rename_i hlt
          refine ih (fun p'' ws hp' hws hlen => ?_) (fun h p'' buffer' hp' hlen => ?_)
            (fun h => habort ?_) (by simpa using Nat.succ_le_of_lt hlt)
          · have := hok p'' (v :: ws) (hp.trans hp') (by simp [hws])
              (by simp only [List.length_set] at hlen; simp only [List.length_cons]; omega)
            rwa [overwriteAt_set hlt]
          · refine hfail (fun h₀ => ?_) p'' buffer' (hp.trans hp') (by simpa using hlen)
            exact List.mem_cons_of_mem _ (h (by rw [hp.eq h₀, h₀]))
          · simp only [List.length_set] at h
            simp only [List.length_cons]
            omega
        · simp only [wp_abort_check]
          refine habort ?_
          simp only [List.length_cons]
          omega
    · simpa using hfail (fun h₀ => absurd h₀ h) p' buffer hp rfl

/-- All blocks of the set lie on the device. -/
def Env.Within (env : Env) (rs : RangeSet) : Prop := ∀ b ∈ rs.toList, b < env.blocks

theorem contents_eq_some {d : Disk} {rs : RangeSet} {ws : List Block}
    (h : rs.toList.map (env.contents d) = ws.map some) : env.Within rs ∧ ws = d.read rs := by
  suffices key : ∀ (bs : List Nat) (ws : List Block), bs.map (env.contents d) = ws.map some →
      (∀ b ∈ bs, b < env.blocks) ∧ ws = bs.map d.part from key _ _ h
  intro bs
  induction bs with
  | nil => simp
  | cons b bs ih =>
    intro ws h
    cases ws with
    | nil => simp at h
    | cons w ws =>
      simp only [List.map_cons, List.cons.injEq, Env.contents] at h
      obtain ⟨hb, h⟩ := h
      obtain ⟨hbs, rfl⟩ := ih ws h
      split at hb
      · rename_i hlt
        cases hb
        exact ⟨by simpa using ⟨hlt, hbs⟩, rfl⟩
      · cases hb

theorem wp_readBlocks {src : RangeSet} {buffer : List Block}
    {Q : Option ((Bool × List Block) × CommandParameters) → τ → Prop}
    (hok : ∀ p', Faulted p p' → env.Within src → src.blocks ≤ buffer.length →
      Q (some ((true, (Mo.view t).read src ++ buffer.drop src.blocks), p')) t)
    (hfail : (p.faults = [] → ¬env.Within src) → ∀ p' buffer', Faulted p p' →
      buffer'.length = buffer.length → Q (some ((false, buffer'), p')) t)
    (habort : buffer.length < src.blocks → Q none t) :
    wp Mo C (readBlocks env src buffer) Q p t := by
  simp only [readBlocks, wp_bind, wp_disk]
  refine wp_readAll (fun p' ws hp hws hlen => ?_) (fun h p' buffer' hp hlen => ?_) (fun h => ?_)
    (Nat.zero_le _)
  · obtain ⟨hin, rfl⟩ := contents_eq_some hws
    have hl : ((Mo.view t).read src).length = src.blocks := by simp [Disk.read]
    have := hok p' hp hin (by omega)
    rwa [overwriteAt_zero, hl]
  · refine hfail (fun h₀ hin => ?_) p' buffer' hp hlen
    obtain ⟨b, hb, hnone⟩ := List.mem_map.mp (h h₀)
    simp [Env.contents, hin b hb] at hnone
  · exact habort (by simpa using h)

theorem wp_verifyBlocks {expected : Text} {buffer : List Block} {blocks : Nat}
    {Q : Option (Bool × CommandParameters) → τ → Prop}
    (hok : blocks ≤ buffer.length →
      Q (some (decide (env.sha1 (buffer.take blocks) = expected), p)) t)
    (habort : buffer.length < blocks → Q none t) :
    wp Mo C (verifyBlocks env expected buffer blocks) Q p t := by
  unfold verifyBlocks
  split
  · rename_i h
    simpa using hok h
  · rename_i h
    simpa using habort (by omega)

/-! ## Writing -/

/-- The steps of `WriteBlocks` for the given data. -/
def writeSteps (retry : Bool) : List Range → List Block → List Step
  | [], _ => []
  | r :: rs, data => (if retry then [.discard r] else []) ++
      List.zipWith .write (Range.toList r) data ++ writeSteps retry rs (data.drop (r.2 - r.1))

theorem wp_discardBlocks {r : Range} {Q : Option (Bool × CommandParameters) → τ → Prop}
    (hC : p.isRetry = true → C (Mo.step t (.discard r)))
    (hok : ∀ p', Faulted p p' →
      Q (some (true, p')) ((if p.isRetry then [.discard r] else []).foldl Mo.step t))
    (hfail : p.faults ≠ [] → ∀ p', Faulted p p' → Q (some (false, p')) t) :
    wp Mo C (discardBlocks env r) Q p t := by
  simp only [discardBlocks, wp_bind, wp_get, wpThen_some]
  cases hr : p.isRetry with
  | false => simpa [hr] using hok p (.refl p)
  | true =>
    simp only [if_true, blkdiscard, wp_bind]
    refine wp_syscall (fun p' hp => ?_) (fun h p' hp => ?_)
    · have := hok p' hp
      simp only [hr, if_true, List.foldl_cons, List.foldl_nil] at this
      simpa using ⟨hC hr, this⟩
    · simpa using hfail h p' hp

theorem wp_writeBlock {b : Nat} {v : Block} {Q : Option (Bool × CommandParameters) → τ → Prop}
    (hC : C (Mo.step t (.write b v)))
    (hok : ∀ p', Faulted p p' → b < env.blocks → Q (some (true, p')) (Mo.step t (.write b v)))
    (hfail : (p.faults = [] → env.blocks ≤ b) → ∀ p', Faulted p p' → Q (some (false, p')) t) :
    wp Mo C (writeBlock env b v) Q p t := by
  simp only [writeBlock, wp_bind]
  refine wp_syscall (fun p' hp => ?_) (fun h p' hp => ?_)
  · by_cases hb : b < env.blocks
    · simpa [hb] using ⟨hC, hok p' hp hb⟩
    · simpa [hb] using hfail (fun _ => Nat.le_of_not_lt hb) p' hp
  · simpa using hfail (fun h₀ => absurd h₀ h) p' hp

theorem wp_writeRange {bs : List Nat} {data : List Block}
    {Q : Option (Option (List Block) × CommandParameters) → τ → Prop}
    (hC : ∀ pre, pre <+: List.zipWith Step.write bs data → C (pre.foldl Mo.step t))
    (hok : ∀ p', Faulted p p' → (∀ b ∈ bs, b < env.blocks) → bs.length ≤ data.length →
      Q (some (some (data.drop bs.length), p')) ((List.zipWith Step.write bs data).foldl Mo.step t))
    (hfail : (p.faults = [] → ∃ b ∈ bs, env.blocks ≤ b) → ∀ p' pre, Faulted p p' →
      pre <+: List.zipWith Step.write bs data → Q (some (none, p')) (pre.foldl Mo.step t))
    (habort : data.length < bs.length → ∀ pre, pre <+: List.zipWith Step.write bs data →
      Q none (pre.foldl Mo.step t)) :
    wp Mo C (writeRange env bs data) Q p t := by
  induction bs generalizing data p t with
  | nil => simpa [writeRange] using hok p (.refl p)
  | cons b bs ih =>
    cases data with
    | nil => simpa [writeRange] using habort (by simp) [] (by simp)
    | cons v data =>
      have cons : ∀ {pre}, pre <+: List.zipWith Step.write bs data →
          Step.write b v :: pre <+: List.zipWith Step.write (b :: bs) (v :: data) := by
        intro pre h
        simpa using h
      simp only [writeRange, wp_bind]
      refine wp_writeBlock (hC [_] (cons List.nil_prefix)) (fun p' hp hb => ?_) (fun h p' hp => ?_)
      · simp only [wpThen_some, if_true]
        refine ih (fun pre h => hC _ (cons h)) (fun p'' hp' hbs hlen => ?_)
          (fun h p'' pre hp' hpre => ?_) (fun h pre hpre => ?_)
        · exact hok p'' (hp.trans hp') (by simpa using ⟨hb, hbs⟩) (by simpa using hlen)
        · refine hfail (fun h₀ => ?_) p'' _ (hp.trans hp') (cons hpre)
          obtain ⟨b', hb', hle⟩ := h (by rw [hp.eq h₀, h₀])
          exact ⟨b', List.mem_cons_of_mem _ hb', hle⟩
        · exact habort (by simpa using h) _ (cons hpre)
      · simpa using hfail (fun h₀ => ⟨b, by simp, h h₀⟩) p' [] hp (by simp)

theorem wp_writeRanges {rs : List Range} {data : List Block}
    {Q : Option (Bool × CommandParameters) → τ → Prop}
    (hC : ∀ pre, pre <+: writeSteps p.isRetry rs data → C (pre.foldl Mo.step t))
    (hok : ∀ p', Faulted p p' → (∀ r ∈ rs, ∀ b ∈ Range.toList r, b < env.blocks) →
      (rs.map fun r => r.2 - r.1).sum ≤ data.length →
      Q (some (true, p')) ((writeSteps p.isRetry rs data).foldl Mo.step t))
      (hfail : (p.faults = [] → ∃ r ∈ rs, ∃ b ∈ Range.toList r, env.blocks ≤ b) →
        ∀ p' pre, Faulted p p' → pre <+: writeSteps p.isRetry rs data →
        Q (some (false, p')) (pre.foldl Mo.step t))
    (habort : data.length < (rs.map fun r => r.2 - r.1).sum → ∀ pre,
      pre <+: writeSteps p.isRetry rs data → Q none (pre.foldl Mo.step t)) :
    wp Mo C (writeRanges env rs data) Q p t := by
  induction rs generalizing data p t with
  | nil => simpa [writeRanges, writeSteps] using hok p (.refl p)
  | cons r rs ih =>
    have hsteps : writeSteps p.isRetry (r :: rs) data = (if p.isRetry then [.discard r] else []) ++
      (List.zipWith .write (Range.toList r) data ++
        writeSteps p.isRetry rs (data.drop (r.2 - r.1))) := by
      simp [writeSteps]
    generalize hD : (if p.isRetry then [Step.discard r] else []) = D at hsteps
    rw [hsteps] at hC hok hfail habort
    simp only [writeRanges, wp_bind]
    refine wp_discardBlocks (fun hr => ?_) (fun p' hp => ?_) (fun h p' hp => ?_)
    · have := hC D (List.prefix_append _ _)
      simpa [← hD, hr] using this
    · have hr' : p'.isRetry = p.isRetry := by
        obtain ⟨⟨f, rfl⟩, -⟩ := hp
        rfl
      simp only [hD, wpThen_some, if_true, wp_bind]
      refine wp_writeRange (fun pre h => ?_) (fun p'' hp' hb hlen => ?_)
        (fun h p'' pre hp' hpre => ?_) (fun h pre hpre => ?_)
      · have :=
          hC (D ++ pre) ((List.prefix_append_right_inj D).mpr (h.trans (List.prefix_append _ _)))
        simpa using this
      · have hr'' : p''.isRetry = p.isRetry := by
          obtain ⟨⟨f, rfl⟩, -⟩ := hp'
          exact hr'
        simp only [Range.length_toList, wpThen_some]
        simp only [Range.length_toList] at hlen
        have fold : ∀ pre : List Step, pre.foldl Mo.step ((List.zipWith Step.write (Range.toList r)
            data).foldl Mo.step (D.foldl Mo.step t)) =
            (D ++ (List.zipWith Step.write (Range.toList r) data ++ pre)).foldl Mo.step t := by
          simp
        have pref : ∀ {pre : List Step}, pre <+: writeSteps p''.isRetry rs (data.drop (r.2 - r.1)) →
            D ++ (List.zipWith Step.write (Range.toList r) data ++ pre) <+:
            D ++ (List.zipWith Step.write (Range.toList r) data ++
              writeSteps p.isRetry rs (data.drop (r.2 - r.1))) := by
          intro pre h
          rw [List.prefix_append_right_inj, List.prefix_append_right_inj, ← hr'']
          exact h
        refine ih (fun pre h => ?_) (fun p₃ hp₃ hbs hrest => ?_) (fun h p₃ pre hp₃ hpre => ?_)
          (fun h pre hpre => ?_)
        · rw [fold]
          exact hC _ (pref h)
        · rw [fold, hr'']
          refine hok p₃ ((hp.trans hp').trans hp₃) (List.forall_mem_cons.mpr ⟨hb, hbs⟩) ?_
          rw [List.length_drop] at hrest
          simp only [List.map_cons, List.sum_cons]
          omega
        · rw [fold]
          refine hfail (fun h₀ => ?_) p₃ _ ((hp.trans hp').trans hp₃) (pref hpre)
          obtain ⟨r', hr₁, b, hb', hle⟩ := h (by rw [(hp.trans hp').eq h₀, h₀])
          exact ⟨r', List.mem_cons_of_mem _ hr₁, b, hb', hle⟩
        · rw [fold]
          refine habort ?_ _ (pref hpre)
          simp only [List.map_cons, List.sum_cons, List.length_drop] at h ⊢
          omega
      · have := hfail (fun h₀ => ?_) p'' (D ++ pre) (hp.trans hp')
          ((List.prefix_append_right_inj D).mpr (hpre.trans (List.prefix_append _ _)))
        · simpa using this
        · obtain ⟨b, hb, hle⟩ := h (by rw [hp.eq h₀, h₀])
          exact ⟨r, by simp, b, hb, hle⟩
      · have := habort ?_ (D ++ pre)
          ((List.prefix_append_right_inj D).mpr (hpre.trans (List.prefix_append _ _)))
        · simpa using this
        · simp only [Range.length_toList] at h
          simp only [List.map_cons, List.sum_cons]
          omega
    · simpa using hfail (fun h₀ => absurd h₀ h) p' [] hp List.nil_prefix

theorem wp_writeBlocks {tgt : RangeSet} {buffer : List Block}
    {Q : Option (Bool × CommandParameters) → τ → Prop}
    (hC : ∀ pre, pre <+: writeSteps p.isRetry tgt.ranges buffer → C (pre.foldl Mo.step t))
    (hok : ∀ p', Faulted p p' → env.Within tgt → tgt.blocks ≤ buffer.length →
      Q (some (true, p')) ((writeSteps p.isRetry tgt.ranges buffer).foldl Mo.step t))
    (hfail : (p.faults = [] → ¬env.Within tgt) → ∀ p' pre, Faulted p p' →
      pre <+: writeSteps p.isRetry tgt.ranges buffer → Q (some (false, p')) (pre.foldl Mo.step t))
    (habort : buffer.length < tgt.blocks → ∀ pre, pre <+: writeSteps p.isRetry tgt.ranges buffer →
      Q none (pre.foldl Mo.step t)) :
    wp Mo C (writeBlocks env tgt buffer) Q p t := by
  refine wp_writeRanges hC (fun p' hp h hlen => hok p' hp ?_ hlen)
    (fun h p' pre hp hpre => ?_) habort
  · intro b hb
    obtain ⟨r, hr, hb⟩ := List.mem_flatMap.mp hb
    exact h r hr b hb
  · refine hfail (fun h₀ hin => ?_) p' pre hp hpre
    obtain ⟨r, hr, b, hb, hle⟩ := h h₀
    exact absurd (hin b (List.mem_flatMap.mpr ⟨r, hr, hb⟩)) (Nat.not_lt.mpr hle)

theorem writeRange_zero (env : Env) (bs : List Nat) (n : Nat) :
    writeRange env bs (List.replicate (bs.length + n) 0) =
      (do if ← zeroRange env bs then return some (List.replicate n 0) else return none) := by
  induction bs with
  | nil => simp only [writeRange, zeroRange, List.length_nil, Nat.zero_add, pure_bind, if_true]
  | cons b bs ih =>
    have : (b :: bs).length + n = (bs.length + n) + 1 := by simp only [List.length_cons]; omega
    rw [this, List.replicate_succ]
    simp only [writeRange, zeroRange, bind_assoc, ih]
    congr 1
    funext ok
    cases ok
    · simp only [Bool.false_eq_true, if_false, pure_bind]
    · simp only [if_true]

theorem zeroRanges_eq (rs : List Range) :
    zeroRanges env rs =
      writeRanges env rs (List.replicate (rs.map fun r => r.2 - r.1).sum 0) := by
  induction rs with
  | nil => simp [writeRanges, zeroRanges]
  | cons r rs ih =>
    have := writeRange_zero env (Range.toList r) (rs.map fun r => r.2 - r.1).sum
    rw [Range.length_toList] at this
    simp only [List.map_cons, List.sum_cons, writeRanges, zeroRanges, this, ih, bind_assoc]
    congr 1
    funext ok
    cases ok
    · simp
    · simp only [if_true]
      congr 1
      funext ok
      cases ok <;> simp

/-! ## Stash files -/

theorem length_allocate (n : Nat) (buffer : List Block) :
    (allocate n buffer).length = max n buffer.length := by
  simp only [allocate, List.length_append, List.length_replicate]
  omega

theorem drop_allocate (n : Nat) (buffer : List Block) :
    (allocate n buffer).drop n = buffer.drop n := by
  simp [allocate, List.drop_append]

@[simp] theorem Disk.length_read (d : Disk) (rs : RangeSet) : (d.read rs).length = rs.blocks := by
  simp [Disk.read]

theorem wp_deleteFile {id : Text} {Q : Option (Unit × CommandParameters) → τ → Prop}
    (hC : C (Mo.step t (.unlinkStash id)))
    (hok : ∀ p', Faulted p p' → Q (some ((), p')) (Mo.step t (.unlinkStash id)))
    (hfail : p.faults ≠ [] → ∀ p', Faulted p p' → Q (some ((), p')) t) :
    wp Mo C (deleteFile env id) Q p t := by
  simp only [deleteFile, wp_bind]
  refine wp_syscall (fun p' hp => ?_) (fun h p' hp => ?_)
  · simpa using ⟨hC, hok p' hp⟩
  · simpa using hfail h p' hp

theorem wp_printHashForMissingStashedBlocks {id : Text}
    {Q : Option (Unit × CommandParameters) → τ → Prop}
    (hok : ∀ p', Faulted p p' → Q (some ((), p')) t) :
    wp Mo C (printHashForMissingStashedBlocks env id) Q p t := by
  simp only [printHashForMissingStashedBlocks, wp_bind, wp_get, wpThen_some]
  split
  · simpa using hok p (.refl p)
  · rename_i src _
    simp only [wp_bind]
    refine wp_readBlocks (fun p' hp _ _ => ?_) (fun _ p' buffer' hp _ => ?_) (fun h => ?_)
    · simpa [printHashForCorruptedStashedBlocks] using hok p' hp
    · simpa using hok p' hp
    · simp at h

theorem getStashFileName_of_sha1 {id : Text} {blocks : List Block} (h : env.sha1 blocks = id) :
    getStashFileName env id = id := by
  rw [getStashFileName, ← h]
  exact env.resolve_sha1 blocks

theorem wp_loadStashFile {id name : Text} {verify printnoent : Bool} {buffer : List Block}
    {Q : Option ((Bool × List Block) × CommandParameters) → τ → Prop}
    (hname : getStashFileName env id = name)
    (hok : ∀ p' f, Faulted p p' → (Mo.view t).stashFile name = some f → f.tail.val = 0 →
      (verify = true → env.sha1 f.blocks = id) →
      Q (some ((true, f.blocks ++ buffer.drop f.blocks.length), p')) t)
    (hfail : (p.faults = [] → ∀ f, (Mo.view t).stashFile name = some f →
        f.tail.val ≠ 0 ∨ verify = true ∧ env.sha1 f.blocks ≠ id) →
      ∀ p' buffer', Faulted p p' → buffer.length ≤ buffer'.length →
        ((Mo.view t).stashFile name = none → p.faults = [] → buffer' = buffer) →
        Q (some ((false, buffer'), p')) t)
    (hbad : ∀ f, (Mo.view t).stashFile name = some f → f.tail.val = 0 → verify = true →
      env.sha1 f.blocks ≠ id → C (Mo.step t (.unlinkStash name)) ∧ ∀ p' buffer', Faulted p p' →
      buffer.length ≤ buffer'.length →
        Q (some ((false, buffer'), p')) (Mo.step t (.unlinkStash name)))
    (habort : ∀ f src, (Mo.view t).stashFile name = some f → verify = true →
      env.sha1 f.blocks ≠ id → p.stashMap.lookup id = some src →
      src.blocks ≠ max f.blocks.length buffer.length → Q none t) :
      wp Mo C (loadStashFile env id verify buffer printnoent) Q p t := by
  -- a file that is not there, or cannot be looked at
  have hmissing : ∀ p' stat, Faulted p p' → ((Mo.view t).stashFile name = none ∨ p.faults ≠ []) →
      wp Mo C (do
        onlyIf env (!stat || printnoent) (printHashForMissingStashedBlocks env id)
        return (false, buffer)) Q p' t := by
    intro p' stat hp hnone
    have hend : ∀ p'', Faulted p' p'' → Q (some ((false, buffer), p'')) t := by
      intro p'' hp'
      refine hfail (fun h₀ f hf => ?_) p'' buffer (hp.trans hp') (Nat.le_refl _) (fun _ _ => rfl)
      rcases hnone with h | h
      · rw [h] at hf; cases hf
      · exact absurd h₀ h
    rw [wp_bind]
    unfold onlyIf
    split
    · exact wp_printHashForMissingStashedBlocks fun p'' hp' => by simpa using hend p'' hp'
    · simpa using hend p' (.refl p')
  simp only [loadStashFile, wp_bind, wp_disk, wpThen_some, hname]
  refine wp_syscall (fun p₁ hp₁ => ?_) (fun h p₁ hp₁ => ?_)
  · simp only [wpThen_some, if_true]
    rcases hf : (Mo.view t).stashFile name with _ | f
    · exact hmissing p₁ true hp₁ (.inl hf)
    · simp only
      have fails : ∀ p' buffer', Faulted p p' → buffer.length ≤ buffer'.length →
          (p.faults = [] → f.tail.val ≠ 0 ∨ verify = true ∧ env.sha1 f.blocks ≠ id) →
          Q (some ((false, buffer'), p')) t := by
        intro p' buffer' hp hlen h
        refine hfail (fun h₀ f' hf' => ?_) p' buffer' hp hlen (fun hnone => ?_)
        · cases hf.symm.trans hf'
          exact h h₀
        · rw [hf] at hnone
          cases hnone
      split
      · rename_i htail
        simpa using fails p₁ buffer hp₁ (Nat.le_refl _) fun _ => .inl htail
      · rename_i htail
        have htail : f.tail.val = 0 := by simpa using htail
        simp only [wp_bind]
        refine wp_syscall (fun p₂ hp₂ => ?_) (fun h p₂ hp₂ => ?_)
        · have hp₂ := hp₁.trans hp₂
          simp only [wpThen_some, if_true, wp_bind]
          refine wp_readAll (fun p₃ ws hp₃ hws hlen => ?_) (fun h p₃ buffer' hp₃ hlen => ?_)
            (fun h => ?_) (Nat.zero_le _)
          · have hp₃ := hp₂.trans hp₃
            have : ws = f.blocks := (List.map_injective_iff.mpr (Option.some_injective _) hws).symm
            subst this
            have hbuf : overwriteAt (allocate f.blocks.length buffer) 0 f.blocks =
                f.blocks ++ buffer.drop f.blocks.length := by
              rw [overwriteAt_zero, drop_allocate]
            simp only [wpThen_some, if_true, hbuf]
            cases verify with
            | false => simpa using hok p₃ f hp₃ hf htail (by simp)
            | true =>
              simp only [Bool.not_true, Bool.false_eq_true, if_false, wp_bind]
              refine wp_verifyBlocks (fun _ => ?_) (fun h => ?_)
              · simp only [List.take_left, wpThen_some]
                by_cases hsha : env.sha1 f.blocks = id
                · simpa [hsha] using hok p₃ f hp₃ hf htail fun _ => hsha
                · simp only [hsha, decide_false, Bool.false_eq_true, if_false,
                    printHashForUnexpectedStash, wp_bind, wp_get, wpThen_some]
                  obtain ⟨hC, hQ⟩ := hbad f hf htail rfl hsha
                  have hdelete : wp Mo C (do
                      deleteFile env name
                      return (false, f.blocks ++ buffer.drop f.blocks.length)) Q p₃ t := by
                    have hlen :
                        buffer.length ≤ (f.blocks ++ buffer.drop f.blocks.length).length := by
                      rw [List.length_append, List.length_drop]; omega
                    simp only [wp_bind]
                    refine wp_deleteFile hC (fun p₄ hp₄ => ?_) (fun h p₄ hp₄ => ?_)
                    · simpa using hQ p₄ _ (hp₃.trans hp₄) hlen
                    · simp only [wpThen_some, wp_pure]
                      refine fails p₄ _ (hp₃.trans hp₄) hlen fun h₀ => absurd ?_ h
                      rw [hp₃.eq h₀, h₀]
                  rw [wp_bind] at hdelete
                  rcases hmap : p₃.stashMap.lookup id with _ | src
                  · simpa [hmap] using hdelete
                  · simp only [printHashForCorruptedStashedBlocks]
                    split
                    · simpa using hdelete
                    · rename_i hne
                      simp only [wp_abort_check, wpThen_none]
                      refine habort f src hf rfl hsha ?_ fun heq => hne ?_
                      · obtain ⟨⟨_, rfl⟩, -⟩ := hp₃
                        exact hmap
                      · rw [heq, List.length_append, List.length_drop]; omega
              · simp at h
          · have hlen' : buffer.length ≤ buffer'.length := by
              rw [hlen, length_allocate]; exact Nat.le_max_right _ _
            simp only [wpThen_some, Bool.false_eq_true, if_false, wp_pure]
            refine fails p₃ buffer' (hp₂.trans hp₃) hlen' fun h₀ => ?_
            simp [hp₂.eq h₀, h₀] at h
          · rw [length_allocate, List.length_map] at h
            omega
        · simp only [wpThen_some, Bool.false_eq_true, if_false, wp_pure]
          refine fails p₂ buffer (hp₁.trans hp₂) (Nat.le_refl _) fun h₀ => absurd ?_ h
          rw [hp₁.eq h₀, h₀]
  · simp only [wpThen_some, Bool.false_eq_true, if_false]
    exact hmissing p₁ false hp₁ (.inr h)

theorem wp_loadStashFromSource {id : Text} {src : RangeSet} {buffer : List Block}
    {Q : Option ((Bool × List Block) × CommandParameters) → τ → Prop}
    (hok : ∀ p', Faulted p p' → env.Within src → env.sha1 ((Mo.view t).read src) = id →
      Q (some ((true, (Mo.view t).read src ++ buffer.drop src.blocks), p')) t)
    (hfail : (p.faults = [] → env.Within src → env.sha1 ((Mo.view t).read src) ≠ id) →
      ∀ p' buffer', Faulted p p' → Q (some ((false, buffer'), p')) t)
    (habort : env.sha1 ((Mo.view t).read src) ≠ id → src.blocks < buffer.length → Q none t) :
    wp Mo C (loadStashFromSource env id src buffer) Q p t := by
  simp only [loadStashFromSource, wp_bind]
  refine wp_readBlocks (fun p' hp hin _ => ?_) (fun h p' buffer' hp hlen => ?_) (fun h => ?_)
  · simp only [drop_allocate, wpThen_some, if_true, wp_bind]
    refine wp_verifyBlocks (fun _ => ?_) (fun h => ?_)
    · rw [List.take_left' (by simp)]
      simp only [wpThen_some]
      by_cases hsha : env.sha1 ((Mo.view t).read src) = id
      · simpa [hsha] using hok p' hp hin hsha
      · simp only [hsha, decide_false, Bool.false_eq_true, if_false, wp_bind,
          printHashForCorruptedStashedBlocks]
        split
        · simpa using hfail (fun _ _ => hsha) p' _ hp
        · rename_i hne
          simp only [wp_abort_check, wpThen_none]
          refine habort hsha (Nat.lt_of_not_le fun hle => hne ?_)
          simp only [List.length_append, Disk.length_read, List.length_drop]
          omega
    · simp at h
  · simp only [wpThen_some, Bool.false_eq_true, if_false, wp_pure]
    exact hfail (fun h₀ hin => absurd hin (h h₀)) p' buffer' hp
  · rw [length_allocate] at h
    omega

theorem wp_updateLastCommandIndex {index : Int} {cmdline : Text}
    {Q : Option (Bool × CommandParameters) → τ → Prop}
    (hC : C (Mo.step t (.renameLast (lastCommandContent index cmdline))))
    (hok : ∀ p' r, Faulted p p' →
      Q (some (r, p')) (Mo.step t (.renameLast (lastCommandContent index cmdline))))
    (hfail : p.faults ≠ [] → ∀ p', Faulted p p' → Q (some (false, p')) t) :
    wp Mo C (updateLastCommandIndex env index cmdline) Q p t := by
  simp only [updateLastCommandIndex, wp_bind]
  refine wp_syscalls (fun p' hp => ?_) (fun h p' hp => ?_)
  · simp only [wpThen_some, if_true, wp_bind, wp_emit_step]
    exact ⟨hC, wp_syscalls (fun p'' hp' => hok p'' true (hp.trans hp'))
      (fun _ p'' hp' => hok p'' false (hp.trans hp'))⟩
  · simpa using hfail h p' hp

end BootableRecovery.BlockImg
