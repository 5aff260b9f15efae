import BootableRecovery.Updater.Executions

/-!
# Filling a target byte by byte

The bytes of a target have addresses on the device, in the order in which `RangeSinkWriter` fills
them. A writer is described by the addresses it has still to fill. The rules carry an invariant `I`
over the pairs of address and byte that are written so far, however the data is cut into pieces.
-/

namespace BootableRecovery.BlockImg

variable {env : Env} {τ : Type} {Mo : Monitor (Disk.apply env) τ} {C : τ → Prop}
    {p : CommandParameters}
variable {t : τ}

theorem zip_append_drop {as : List α} {bs cs : List β} (h : bs.length ≤ as.length) :
    as.zip (bs ++ cs) = as.zip bs ++ (as.drop bs.length).zip cs := by
  induction bs generalizing as with
  | nil => simp
  | cons b bs ih =>
    cases as with
    | nil => simp at h
    | cons a as => simp [ih (by simpa using h)]

theorem zip_take_right {as : List α} {bs : List β} {n : Nat} (h : as.length ≤ n) :
    as.zip (bs.take n) = as.zip bs := by
  induction as generalizing bs n with
  | nil => simp
  | cons a as ih =>
    cases n with
    | zero => simp at h
    | succ n => cases bs with
      | nil => simp
      | cons b bs => simp [ih (Nat.le_of_succ_le_succ h)]

theorem map_fst_zip_append_drop {as : List α} {bs : List β} (h : bs.length ≤ as.length) :
    (as.zip bs).map Prod.fst ++ as.drop bs.length = as := by
  induction bs generalizing as with
  | nil => simp
  | cons b bs ih =>
    cases as with
    | nil => simp at h
    | cons a as => simp [ih (by simpa using h)]

/-- The addresses of the bytes of a range. -/
def Range.addresses (r : Range) : List Nat :=
  List.range' (r.1 * BLOCKSIZE) ((r.2 - r.1) * BLOCKSIZE)

/-- The addresses of the bytes of a target, in the order in which they are written. -/
def addresses (tgt : RangeSet) : List Nat := tgt.ranges.flatMap Range.addresses

@[simp] theorem length_addresses (tgt : RangeSet) :
    (addresses tgt).length = tgt.blocks * BLOCKSIZE := by
  simp only [addresses, Range.addresses, RangeSet.blocks, List.length_flatMap, List.length_range']
  induction tgt.ranges with
  | nil => rfl
  | cons r rs ih => simp only [List.map_cons, List.sum_cons, ih, Nat.add_mul]

/-- The addresses that a writer has still to fill. -/
def RangeSinkWriter.addresses (w : RangeSinkWriter) : List Nat :=
  List.range' w.position w.currentRangeLeft ++ w.rest.flatMap Range.addresses

/-- A writer that can be used: its ranges are not empty, and it counts what it has written. -/
structure RangeSinkWriter.Valid (w : RangeSinkWriter) : Prop where
  nonempty : ∀ r ∈ w.rest, r.1 < r.2
  space : w.availableSpace = w.addresses.length

theorem RangeSinkWriter.valid_make (tgt : RangeSet) : (make tgt).Valid where
  nonempty := tgt.nonempty
  space := by
    have : (make tgt).addresses = BlockImg.addresses tgt := by
      simp [make, addresses, BlockImg.addresses]
    rw [this, length_addresses]
    simp [availableSpace, make]

@[simp] theorem RangeSinkWriter.addresses_make (tgt : RangeSet) :
    (make tgt).addresses = BlockImg.addresses tgt := by
  simp [make, addresses, BlockImg.addresses]

theorem RangeSinkWriter.finished_iff {w : RangeSinkWriter} (h : ∀ r ∈ w.rest, r.1 < r.2) :
    w.finished = true ↔ w.addresses = [] := by
  rcases hr : w.rest with _ | ⟨r, rest⟩
  · simp [finished, addresses, hr]
  · have hlt := h r (by simp [hr])
    have : 0 < (r.2 - r.1) * BLOCKSIZE := Nat.mul_pos (by omega) (by decide)
    simp only [finished, hr, List.isEmpty_cons, Bool.false_and, Bool.false_eq_true, addresses,
      List.flatMap_cons, false_iff, List.append_eq_nil_iff, Range.addresses, List.range'_eq_nil_iff]
    omega

/-- `I` goes with the steps of a writer into `tgt`. -/
structure SinkInvariant (Mo : Monitor (Disk.apply env) τ) (tgt : RangeSet)
    (I : List (Nat × UInt8) → τ → Prop) : Prop where
  write : ∀ done t b off data rest, data ≠ [] → off + data.length ≤ BLOCKSIZE → b < env.blocks →
    done.map Prod.fst ++ (List.range' (b * BLOCKSIZE + off) data.length ++ rest) = addresses tgt →
    I done t → I (done ++ (List.range' (b * BLOCKSIZE + off) data.length).zip data)
      (Mo.step t (.writeBytes b off data))
  discard : ∀ done t r rest, done.map Prod.fst ++ (Range.addresses r ++ rest) = addresses tgt →
    I done t → I done (Mo.step t (.discard r))

theorem sinkInvariant_written (tgt : RangeSet) (before : List (Nat × UInt8)) :
    SinkInvariant (Monitor.history (Disk.apply env)) tgt fun done t =>
    before ++ written t.2 = done where
  write done t b off data rest _ _ _ _ h := by
    rw [Monitor.history_step, written, List.flatMap_append, ← written, ← List.append_assoc, h,
      List.flatMap_singleton]
    rfl
  discard done t r rest _ h := by
    rw [Monitor.history_step, written, List.flatMap_append, ← written, ← List.append_assoc, h,
      List.flatMap_singleton]
    exact List.append_nil done

section
variable {tgt : RangeSet} {I : List (Nat × UInt8) → τ → Prop}
variable (hI : SinkInvariant Mo tgt I) (hC : ∀ done t, I done t → C t)
include hI hC

theorem wp_writeAll {fuel pos : Nat} {data : List UInt8} {done : List (Nat × UInt8)}
    {rest : List Nat}
    {Q : Option (Bool × CommandParameters) → τ → Prop} (hfuel : data.length ≤ fuel)
    (haddr : done.map Prod.fst ++ (List.range' pos data.length ++ rest) = addresses tgt)
    (h : I done t)
    (hok : ∀ p' t', Faulted p p' → I (done ++ (List.range' pos data.length).zip data) t' →
      Q (some (true, p')) t')
    (hfail : (p.faults = [] → ∃ a ∈ List.range' pos data.length, env.blocks ≤ a / BLOCKSIZE) →
      ∀ p' t' done', Faulted p p' → I done' t' → Q (some (false, p')) t') :
    wp Mo C (RangeSinkWriter.writeAll env fuel pos data) Q p t := by
  induction fuel generalizing pos data done p t with
  | zero =>
    cases List.length_eq_zero_iff.mp (Nat.le_zero.mp hfuel)
    simpa [RangeSinkWriter.writeAll] using hok p t (.refl p) (by simpa using h)
  | succ fuel ih =>
    cases hd : data with
    | nil =>
      subst hd
      simpa [RangeSinkWriter.writeAll] using hok p t (.refl p) (by simpa using h)
    | cons c cs =>
      rw [← hd]
      have hne : data ≠ [] := by simp [hd]
      have hmod : pos / BLOCKSIZE * BLOCKSIZE + pos % BLOCKSIZE = pos := by
        rw [Nat.mul_comm]; exact Nat.div_add_mod pos BLOCKSIZE
      have hlt : pos % BLOCKSIZE < BLOCKSIZE := Nat.mod_lt _ (by decide)
      -- the bytes up to the end of the block, and the rest
      generalize hn : BLOCKSIZE - pos % BLOCKSIZE = n
      have hsplit : List.range' pos data.length =
          List.range' pos (data.take n).length ++ List.range' (pos + n) (data.drop n).length := by
        rcases Nat.le_total data.length n with hle | hle
        · rw [List.take_of_length_le hle, List.drop_eq_nil_of_le hle]; simp
        · rw [List.length_take, Nat.min_eq_left hle, List.length_drop, List.range'_append_1]
          congr 1; omega
      have hzip : (List.range' pos data.length).zip data =
          (List.range' pos (data.take n).length).zip (data.take n) ++
            (List.range' (pos + n) (data.drop n).length).zip (data.drop n) := by
        rw [hsplit, ← List.zip_append (by simp), List.take_append_drop]
      simp only [RangeSinkWriter.writeAll, List.isEmpty_iff, hne, if_false, wp_bind, hn]
      refine wp_syscall (fun p' hp => ?_) (fun hf p' hp => ?_)
      · simp only [wpThen_some, if_true]
        by_cases hb : pos / BLOCKSIZE < env.blocks
        · have hstep := hI.write done t (pos / BLOCKSIZE) (pos % BLOCKSIZE) (data.take n)
            (List.range' (pos + n) (data.drop n).length ++ rest) (by simp [hd]; omega)
            (by rw [List.length_take]; omega) hb
            (by rw [hmod, ← haddr, hsplit, List.append_assoc]) h
          rw [hmod] at hstep
          have hfuel' : (data.drop n).length ≤ fuel := by rw [List.length_drop]; omega
          have haddr' : (done ++ (List.range' pos (data.take n).length).zip (data.take n)).map
              Prod.fst ++ (List.range' (pos + n) (data.drop n).length ++ rest) = addresses tgt := by
            rw [List.map_append, List.map_fst_zip (by simp), List.append_assoc, ← haddr, hsplit,
              List.append_assoc]
          simp only [hb, if_true, wp_bind, wp_emit_step]
          refine ⟨hC _ _ hstep, ?_⟩
          simp only [wpThen_some]
          refine ih hfuel' haddr' hstep (fun p'' t' hp' hI' => ?_)
            (fun hf p'' t' done' hp' hI' => ?_)
          · refine hok p'' t' (hp.trans hp') ?_
            rwa [hzip, ← List.append_assoc]
          · refine hfail (fun h₀ => ?_) p'' t' done' (hp.trans hp') hI'
            obtain ⟨a, ha, hle⟩ := hf (by rw [hp.eq h₀, h₀])
            exact ⟨a, by rw [hsplit]; exact List.mem_append_right _ ha, hle⟩
        · simp only [hb, if_false, wp_pure]
          refine hfail (fun _ => ⟨pos, ?_, Nat.le_of_not_lt hb⟩) p' t done hp h
          simp [hd]
      · simpa using hfail (fun h₀ => absurd h₀ hf) p' t done hp h

/-- `SeekToOutputRange` stays in its range, or moves on to the next one. -/
theorem wp_seekToOutputRange {w : RangeSinkWriter} {done : List (Nat × UInt8)}
    {Q : Option (Option RangeSinkWriter × CommandParameters) → τ → Prop}
    (hw : ∀ r ∈ w.rest, r.1 < r.2) (haddr : done.map Prod.fst ++ w.addresses = addresses tgt)
    (h : I done t)
    (hok : ∀ p' w' t', Faulted p p' → (∀ r ∈ w'.rest, r.1 < r.2) → w'.addresses = w.addresses →
      w'.currentRangeLeft ≠ 0 → w'.bytesWritten = w.bytesWritten → w'.total = w.total → I done t' →
      Q (some (some w', p')) t')
    (hfail : (p.faults = [] → w.addresses = []) → ∀ p' t', Faulted p p' → I done t' →
      Q (some (none, p')) t') :
    wp Mo C (w.seekToOutputRange env) Q p t := by
  unfold RangeSinkWriter.seekToOutputRange
  split
  · rename_i hcur
    simpa using hok p w t (.refl p) hw rfl hcur rfl rfl h
  · rename_i hcur
    have hcur : w.currentRangeLeft = 0 := by simpa using hcur
    split
    · rename_i hrest
      have : w.addresses = [] := by simp [RangeSinkWriter.addresses, hcur, hrest]
      simpa using hfail (fun _ => this) p t (.refl p) h
    · rename_i r rest hrest
      have ha : w.addresses = Range.addresses r ++ rest.flatMap Range.addresses := by
        simp [RangeSinkWriter.addresses, hcur, hrest]
      have hlt : r.1 < r.2 := hw r (by simp [hrest])
      have hpos : 0 < (r.2 - r.1) * BLOCKSIZE := Nat.mul_pos (by omega) (by decide)
      have hd := hI.discard done t r (rest.flatMap Range.addresses) (by rw [← ha, haddr]) h
      have hD : I done ((if p.isRetry then [Step.discard r] else []).foldl Mo.step t) := by
        cases p.isRetry
        · exact h
        · exact hd
      simp only [wp_bind]
      refine wp_discardBlocks (fun _ => hC _ _ hd) (fun p' hp => ?_) (fun hf p' hp => ?_)
      · simp only [wpThen_some, if_true, wp_bind]
        refine wp_syscall (fun p'' hp' => ?_) (fun hf p'' hp' => ?_)
        · simp only [wpThen_some, if_true, wp_pure]
          refine hok p'' _ _ (hp.trans hp') (fun r' hr' => ?_) ?_ (Nat.ne_of_gt hpos) rfl rfl hD
          · exact hw r' (by rw [hrest]; exact List.mem_cons_of_mem _ hr')
          · rw [ha, RangeSinkWriter.addresses, Range.addresses]
        · simp only [wpThen_some, Bool.false_eq_true, if_false, wp_pure]
          refine hfail (fun h₀ => absurd ?_ hf) p'' _ (hp.trans hp') hD
          rw [hp.eq h₀, h₀]
      · simpa using hfail (fun h₀ => absurd h₀ hf) p' t hp h

theorem wp_writeLoop {fuel n : Nat} {w : RangeSinkWriter} {data : List UInt8}
    {done : List (Nat × UInt8)}
    {Q : Option ((RangeSinkWriter × Nat) × CommandParameters) → τ → Prop}
    (hfuel : data.length ≤ fuel) (hw : ∀ r ∈ w.rest, r.1 < r.2)
    (haddr : done.map Prod.fst ++ w.addresses = addresses tgt) (h : I done t)
    (hok : ∀ p' w' t', Faulted p p' → data.length ≤ w.addresses.length →
      (∀ r ∈ w'.rest, r.1 < r.2) → w'.addresses = w.addresses.drop data.length →
      w'.bytesWritten = w.bytesWritten → w'.total = w.total → I (done ++ w.addresses.zip data) t' →
      Q (some ((w', n + data.length), p')) t')
    (hfail : (p.faults = [] → w.addresses.length < data.length ∨
        ∃ a ∈ w.addresses, env.blocks ≤ a / BLOCKSIZE) →
      ∀ p' w' t' k done', Faulted p p' → k < n + data.length → I done' t' →
        Q (some ((w', k), p')) t') :
    wp Mo C (RangeSinkWriter.writeLoop env fuel w data n) Q p t := by
  induction fuel generalizing w data done n p t with
  | zero =>
    cases List.length_eq_zero_iff.mp (Nat.le_zero.mp hfuel)
    simpa [RangeSinkWriter.writeLoop] using
      hok p w t (.refl p) (Nat.zero_le _) hw (by simp) rfl rfl (by simpa using h)
  | succ fuel ih =>
    rcases Nat.eq_zero_or_pos data.length with hd | hd
    · cases List.length_eq_zero_iff.mp hd
      simpa [RangeSinkWriter.writeLoop] using
        hok p w t (.refl p) (Nat.zero_le _) hw (by simp) rfl rfl (by simpa using h)
    have hne : data ≠ [] := List.length_pos_iff.mp hd
    simp only [RangeSinkWriter.writeLoop, List.isEmpty_iff, hne, if_false, wp_bind]
    refine wp_seekToOutputRange hI hC hw haddr h (fun p' w₁ t₁ hp hw₁ ha₁ hcur hb₁ ht₁ hI₁ => ?_)
      (fun hf p' t₁ hp hI₁ => ?_)
    · -- one piece into the current range, then the rest of the data
      simp only [wpThen_some, wp_bind]
      generalize hnow : min data.length w₁.currentRangeLeft = now
      generalize hw₂ : { w₁ with
        position := w₁.position + now, currentRangeLeft := w₁.currentRangeLeft - now } = w₂
      have ha₂ : w.addresses = List.range' w₁.position (data.take now).length ++ w₂.addresses := by
        rw [List.length_take, Nat.min_eq_left (by omega), ← ha₁, ← hw₂]
        simp only [RangeSinkWriter.addresses, ← List.append_assoc]
        rw [List.range'_append_1, Nat.add_sub_cancel' (by omega)]
      have hlen : (List.range' w₁.position (data.take now).length).length = now := by
        rw [List.length_range', List.length_take]; omega
      have hzip : w.addresses.zip data =
          (List.range' w₁.position (data.take now).length).zip (data.take now) ++
            w₂.addresses.zip (data.drop now) := by
        rw [ha₂, ← List.zip_append (by simp), List.take_append_drop]
      refine wp_writeAll hI hC (by rw [List.length_take]; omega)
        (by rw [← haddr, ha₂]) hI₁ (fun p'' t₂ hp' hI₂ => ?_) (fun hf p'' t₂ done' hp' hI₂ => ?_)
      · simp only [wpThen_some, if_true]
        have hfuel' : (data.drop now).length ≤ fuel := by rw [List.length_drop]; omega
        have hrest : ∀ r ∈ w₂.rest, r.1 < r.2 := by rw [← hw₂]; exact hw₁
        have haddr' : (done ++ (List.range' w₁.position (data.take now).length).zip
            (data.take now)).map Prod.fst ++ w₂.addresses = addresses tgt := by
          rw [List.map_append, List.map_fst_zip (by simp), List.append_assoc, ← ha₂, haddr]
        have hdrop : n + now + (data.drop now).length = n + data.length := by
          rw [List.length_drop]; omega
        refine ih hfuel' hrest haddr' hI₂ (fun p₃ w₃ t₃ hp₃ hle hw₃ ha₃ hb₃ ht₃ hI₃ => ?_)
          (fun hf p₃ w₃ t₃ k done' hp₃ hk hI₃ => ?_)
        · rw [hdrop]
          refine hok p₃ w₃ t₃ ((hp.trans hp').trans hp₃) ?_ hw₃ ?_ ?_ ?_ ?_
          · rw [ha₂, List.length_append, hlen]
            rw [List.length_drop] at hle
            omega
          · have hnil : (List.range' w₁.position (data.take now).length).drop data.length = [] :=
              List.drop_eq_nil_of_le (by rw [hlen]; omega)
            rw [ha₃, ha₂, List.drop_append, hlen, hnil, List.length_drop, List.nil_append]
          · rw [hb₃, ← hw₂]; exact hb₁
          · rw [ht₃, ← hw₂]; exact ht₁
          · rwa [hzip, ← List.append_assoc]
        · refine hfail (fun h₀ => ?_) p₃ w₃ t₃ k done' ((hp.trans hp').trans hp₃)
            (by rwa [hdrop] at hk) hI₃
          rcases hf (by rw [(hp.trans hp').eq h₀, h₀]) with hlt | ⟨a, ha, hle⟩
          · left
            rw [ha₂, List.length_append, hlen]
            rw [List.length_drop] at hlt
            omega
          · exact .inr ⟨a, by rw [ha₂]; exact List.mem_append_right _ ha, hle⟩
      · simp only [wpThen_some, Bool.false_eq_true, if_false, wp_pure]
        refine hfail (fun h₀ => ?_) p'' _ t₂ n done' (hp.trans hp') (by omega) hI₂
        obtain ⟨a, ha, hle⟩ := hf (by rw [hp.eq h₀, h₀])
        exact .inr ⟨a, by rw [ha₂]; exact List.mem_append_left _ ha, hle⟩
    · simp only [wpThen_some, wp_pure]
      refine hfail (fun h₀ => .inl ?_) p' w t₁ n done hp (by omega) hI₁
      rw [hf h₀]
      exact hd

theorem wp_write {w : RangeSinkWriter} {data : List UInt8} {done : List (Nat × UInt8)}
    {Q : Option ((RangeSinkWriter × Nat) × CommandParameters) → τ → Prop} (hw : w.Valid)
    (haddr : done.map Prod.fst ++ w.addresses = addresses tgt) (h : I done t)
    (hok : ∀ p' w' t', Faulted p p' → data.length ≤ w.addresses.length → w'.Valid →
      w'.addresses = w.addresses.drop data.length → I (done ++ w.addresses.zip data) t' →
      Q (some ((w', data.length), p')) t')
    (hfail : (p.faults = [] → w.addresses.length < data.length ∨
        ∃ a ∈ w.addresses, env.blocks ≤ a / BLOCKSIZE) →
      ∀ p' w' t' k done', Faulted p p' → k < data.length → I done' t' → Q (some ((w', k), p')) t') :
    wp Mo C (w.write env data) Q p t := by
  unfold RangeSinkWriter.write
  split
  · rename_i hfin
    have ha := (RangeSinkWriter.finished_iff hw.nonempty).mp hfin
    rcases Nat.eq_zero_or_pos data.length with hd | hd
    · cases List.length_eq_zero_iff.mp hd
      simpa using hok p w t (.refl p) (Nat.zero_le _) hw (by simp) (by simpa [ha] using h)
    · simpa using hfail (fun _ => .inl (by simpa [ha] using hd)) p w t 0 done (.refl p) hd h
  · simp only [wp_bind]
    refine wp_writeLoop hI hC (Nat.le_refl _) hw.nonempty haddr h
      (fun p' w' t' hp hle hw' ha' hb' ht' hI' => ?_) (fun hf p' w' t' k done' hp hk hI' => ?_)
    · simp only [wpThen_some, wp_pure, Nat.zero_add]
      refine hok p' _ t' hp hle ⟨hw', ?_⟩ ha' hI'
      have := hw.space
      simp only [RangeSinkWriter.availableSpace] at this ⊢
      have ha'' : w'.addresses.length = w.addresses.length - data.length := by
        rw [ha', List.length_drop]
      simp only [RangeSinkWriter.addresses] at ha'' this ⊢
      rw [ha'', hb', ht', ← this]
      omega
    · simp only [wpThen_some, wp_pure]
      exact hfail hf p' _ t' k done' hp (by simpa using hk) hI'

theorem wp_receiveNewData {stream : List (List UInt8)} {w : RangeSinkWriter}
    {done : List (Nat × UInt8)} {Q : Option (Bool × CommandParameters) → τ → Prop}
    (hw : w.Valid) (hne : w.addresses ≠ [])
    (haddr : done.map Prod.fst ++ w.addresses = addresses tgt) (h : I done t)
    (hok : ∀ p' t' rest, Faulted p p' → w.addresses.length ≤ stream.flatten.length →
      rest.flatten = stream.flatten.drop w.addresses.length →
      I (done ++ w.addresses.zip stream.flatten) t' →
      Q (some (true, { p' with nti := ⟨rest, true⟩ })) t')
    (hfail : (p.faults = [] → stream.flatten.length < w.addresses.length ∨
        ∃ a ∈ w.addresses, env.blocks ≤ a / BLOCKSIZE) →
      ∀ p' t' done', Faulted p p' → I done' t' →
        Q (some (false, { p' with nti := ⟨[], false⟩ })) t') :
    wp Mo C (receiveNewData env stream w) Q p t := by
  induction stream generalizing w done p t with
  | nil =>
    simp only [receiveNewData, wp_bind, wp_modify, wpThen_some, wp_pure]
    refine hfail (fun _ => .inl ?_) p t done (.refl p) h
    simpa using List.length_pos_iff.mpr hne
  | cons data stream ih =>
    unfold receiveNewData
    rcases Nat.eq_zero_or_pos data.length with hd | hd
    · cases List.length_eq_zero_iff.mp hd
      simpa using ih hw hne haddr h hok hfail
    have hdata : data.isEmpty = false := by
      simpa [List.isEmpty_eq_false_iff] using List.length_pos_iff.mp hd
    simp only [hdata, Bool.false_eq_true, if_false, hw.space, wp_bind]
    generalize hnow : min data.length w.addresses.length = now
    have hpos : 0 < w.addresses.length := List.length_pos_iff.mpr hne
    have htake : (data.take now).length = now := by rw [List.length_take]; omega
    refine wp_write hI hC hw haddr h (fun p' w' t' hp hle hw' ha' hI' => ?_)
      (fun hf p' w' t' k done' hp hk hI' => ?_)
    · simp only [wpThen_some, htake, if_true]
      split
      · -- the writer has all its bytes
        rename_i hfin
        have hnil := (RangeSinkWriter.finished_iff hw'.nonempty).mp hfin
        have hall : now = w.addresses.length := by
          have : w.addresses.length ≤ now := by
            rw [← htake]; exact List.drop_eq_nil_iff.mp (ha' ▸ hnil)
          omega
        have hlen : w.addresses.length ≤ data.length := by omega
        simp only [wp_bind, wp_modify, wpThen_some, wp_pure]
        refine hok p' t' _ hp ?_ ?_ ?_
        · rw [List.flatten_cons, List.length_append]; omega
        · rw [List.flatten_cons, List.flatten_cons, List.drop_append_of_le_length hlen, hall]
        · have : w.addresses.zip (data :: stream).flatten = w.addresses.zip (data.take now) := by
            rw [← zip_take_right (Nat.le_of_eq hall.symm), List.flatten_cons,
              List.take_append_of_le_length (by omega)]
          rwa [this]
      · -- the piece is used up
        rename_i hfin
        have hnil : w'.addresses ≠ [] := fun hnil =>
          hfin ((RangeSinkWriter.finished_iff hw'.nonempty).mpr hnil)
        have hall : now = data.length := by
          have : now < w.addresses.length := by
            rw [← htake]
            exact Nat.lt_of_not_le fun hle' => hnil (by rw [ha']; exact List.drop_eq_nil_of_le hle')
          omega
        have hfull : data.take now = data := by rw [hall, List.take_length]
        have hlen : data.length ≤ w.addresses.length := by omega
        have ha'' : w'.addresses.length = w.addresses.length - data.length := by
          rw [ha', List.length_drop, htake, hall]
        rw [hfull] at hI' ha'
        have hzip : w.addresses.zip (data :: stream).flatten =
            w.addresses.zip data ++ w'.addresses.zip stream.flatten := by
          rw [List.flatten_cons, zip_append_drop hlen, ha']
        have haddr' : (done ++ w.addresses.zip data).map Prod.fst ++ w'.addresses =
            addresses tgt := by
          rw [List.map_append, List.append_assoc, ha', map_fst_zip_append_drop hlen, haddr]
        refine ih hw' hnil haddr' hI' (fun p'' t'' rest hp' hle' hrest hI'' => ?_)
          (fun hf p'' t'' done' hp' hI'' => ?_)
        · refine hok p'' t'' rest (hp.trans hp') ?_ ?_ ?_
          · rw [List.flatten_cons, List.length_append]; omega
          · rw [hrest, List.flatten_cons, List.drop_append, List.drop_eq_nil_of_le hlen, ha'']; simp
          · rwa [hzip, ← List.append_assoc]
        · refine hfail (fun h₀ => ?_) p'' t'' done' (hp.trans hp') hI''
          rcases hf (by rw [hp.eq h₀, h₀]) with hlt | ⟨a, ha, hle⟩
          · left
            rw [List.flatten_cons, List.length_append]; omega
          · exact .inr ⟨a, by rw [ha'] at ha; exact List.mem_of_mem_drop ha, hle⟩
    · rw [htake] at hk
      simp only [wpThen_some, Nat.ne_of_lt hk, if_false, wp_bind, wp_modify, wp_pure]
      refine hfail (fun h₀ => ?_) p' t' done' hp hI'
      rcases hf h₀ with hlt | hout
      · omega
      · exact .inr hout

theorem wp_applyPatch {pieces : List (List UInt8)} {w : RangeSinkWriter} {ok : Bool}
    {done : List (Nat × UInt8)} {Q : Option (Bool × CommandParameters) → τ → Prop}
    (hw : w.Valid) (haddr : done.map Prod.fst ++ w.addresses = addresses tgt) (h : I done t)
    (hok : ∀ p' t', Faulted p p' → pieces.flatten.length ≤ w.addresses.length →
      I (done ++ w.addresses.zip pieces.flatten) t' → Q (some (ok, p')) t')
    (hfail : (p.faults = [] → w.addresses.length < pieces.flatten.length ∨
        ∃ a ∈ w.addresses, env.blocks ≤ a / BLOCKSIZE) →
      ∀ p' t' done', Faulted p p' → I done' t' → Q (some (false, p')) t') :
    wp Mo C (applyPatch env pieces w ok) Q p t := by
  induction pieces generalizing w done p t with
  | nil => simpa [applyPatch] using hok p t (.refl p) (by simp) (by simpa using h)
  | cons data pieces ih =>
    simp only [applyPatch, wp_bind]
    refine wp_write hI hC hw haddr h (fun p' w' t' hp hle hw' ha' hI' => ?_)
      (fun hf p' w' t' k done' hp hk hI' => ?_)
    · simp only [wpThen_some, if_true]
      have ha'' : w'.addresses.length = w.addresses.length - data.length := by
        rw [ha', List.length_drop]
      have hzip : w.addresses.zip (data :: pieces).flatten =
          w.addresses.zip data ++ w'.addresses.zip pieces.flatten := by
        rw [List.flatten_cons, zip_append_drop hle, ha']
      have haddr' : (done ++ w.addresses.zip data).map Prod.fst ++ w'.addresses =
          addresses tgt := by
        rw [List.map_append, List.append_assoc, ha', map_fst_zip_append_drop hle, haddr]
      refine ih hw' haddr' hI' (fun p'' t'' hp' hle' hI'' => ?_)
        (fun hf p'' t'' done' hp' hI'' => ?_)
      · refine hok p'' t'' (hp.trans hp') ?_ ?_
        · rw [List.flatten_cons, List.length_append]; omega
        · rwa [hzip, ← List.append_assoc]
      · refine hfail (fun h₀ => ?_) p'' t'' done' (hp.trans hp') hI''
        rcases hf (by rw [hp.eq h₀, h₀]) with hlt | ⟨a, ha, hle⟩
        · left
          rw [List.flatten_cons, List.length_append]; omega
        · exact .inr ⟨a, by rw [ha'] at ha; exact List.mem_of_mem_drop ha, hle⟩
    · simp only [wpThen_some, Nat.ne_of_lt hk, if_false, wp_pure]
      refine hfail (fun h₀ => ?_) p' t' done' hp hI'
      rcases hf h₀ with hlt | hout
      · left
        rw [List.flatten_cons, List.length_append]; omega
      · exact .inr hout

end

theorem wp_performCommandNew {I : List (Nat × UInt8) → τ → Prop}
    {Q : Option (Bool × CommandParameters) → τ → Prop} (hI : ∀ tgt, SinkInvariant Mo tgt I)
    (hC : ∀ done t, I done t → C t) (hw : p.canwrite = true) (h : I [] t)
    (hok : ∀ p' t' tgt rest, p.tokens.head?.map RangeSet.parse = some tgt → Faulted p p' →
      tgt.blocks * BLOCKSIZE ≤ p.nti.stream.flatten.length →
      rest.flatten = p.nti.stream.flatten.drop (tgt.blocks * BLOCKSIZE) →
      I ((addresses tgt).zip p.nti.stream.flatten) t' →
      Q (some (true, { p' with nti := ⟨rest, true⟩ })) t')
    (hfail : ∀ r t' done, (∀ p', r ≠ some (true, p')) → I done t' → Q r t') :
    wp Mo C (performCommandNew env) Q p t := by
  simp only [performCommandNew, wp_bind, wp_get, wpThen_some]
  rcases htok : p.tokens with _ | ⟨tgt, tokens⟩
  · simpa using hfail _ t [] (by simp) h
  simp only [parseRanges, wp_bind]
  cases hvalid : (RangeSet.parse tgt).isValid with
  | false => simpa using hfail none t [] (by simp) h
  | true =>
    simp only [if_true, wp_pure, wpThen_some, hw]
    cases p.nti.receiverAvailable with
    | false => simpa using hfail _ t [] (by simp) h
    | true =>
      have hne : (RangeSinkWriter.make (RangeSet.parse tgt)).addresses ≠ [] := by
        rw [RangeSinkWriter.addresses_make, ← List.length_pos_iff, length_addresses]
        exact Nat.mul_pos (RangeSet.blocks_pos hvalid) (by decide)
      have haddr : ([] : List (Nat × UInt8)).map Prod.fst ++
          (RangeSinkWriter.make (RangeSet.parse tgt)).addresses =
          addresses (RangeSet.parse tgt) := by
        simp
      refine wp_receiveNewData (hI _) hC (RangeSinkWriter.valid_make _) hne haddr h
        (fun p' t' rest hp hlen hrest hI' => ?_) (fun _ p' t' done hp hI' => ?_)
      · simp only [RangeSinkWriter.addresses_make, length_addresses, List.nil_append]
          at hlen hrest hI'
        exact hok p' t' _ rest (by simp [htok]) hp hlen hrest hI'
      · exact hfail _ t' done (by simp) hI'

end BootableRecovery.BlockImg
