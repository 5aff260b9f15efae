import BootableRecovery.Updater.Contents

/-!
# The range writer and the block writer

`RangeSinkWriter` takes the bytes of a target in pieces of any size, `WriteBlocks` takes them at
once, and both leave the same partition behind. What the writer has still to do with the bytes to
come is `fillFrom`, which each `Write` keeps.
-/

namespace BootableRecovery.BlockImg

variable {env : Env} {d d' : Disk} {p : CommandParameters}

/-! ## Bytes of the partition -/

theorem Disk.ext_byteAt (h : ∀ a, d.byteAt a = d'.byteAt a) (hstash : d.stash = d'.stash)
    (hlast : d.lastCommand = d'.lastCommand) : d = d' := by
  have hpart : d.part = d'.part := by
    funext b
    refine Block.bytes_injective (List.ext_getElem? fun i => ?_)
    rcases Nat.lt_or_ge i BLOCKSIZE with hi | hi
    · have hdiv : (b * BLOCKSIZE + i) / BLOCKSIZE = b := by
        rw [Nat.mul_comm, Nat.mul_add_div (by decide), Nat.div_eq_of_lt hi, Nat.add_zero]
      have hmod : (b * BLOCKSIZE + i) % BLOCKSIZE = i := by
        rw [Nat.mul_comm, Nat.mul_add_mod, Nat.mod_eq_of_lt hi]
      have hbyte := h (b * BLOCKSIZE + i)
      rwa [byteAt, byteAt, hdiv, hmod] at hbyte
    · rw [List.getElem?_eq_none (by simpa using hi), List.getElem?_eq_none (by simpa using hi)]
  cases d
  cases d'
  cases hpart
  cases hstash
  cases hlast
  rfl

def Disk.setByte (d : Disk) (a : Nat) (c : UInt8) : Disk :=
  let block := Block.ofBytes ((d.part (a / BLOCKSIZE)).bytes.set (a % BLOCKSIZE) c)
  { d with part := Function.update d.part (a / BLOCKSIZE) block }

/-- The disk with some bytes stored from an address on. -/
def Disk.store (d : Disk) : Nat → List UInt8 → Disk
  | _, [] => d
  | a, c :: cs => (d.setByte a c).store (a + 1) cs

theorem Disk.byteAt_setByte (d : Disk) (a a' : Nat) (c : UInt8) :
    (d.setByte a c).byteAt a' = if a' = a then some c else d.byteAt a' := by
  have hmod : a % BLOCKSIZE < BLOCKSIZE := Nat.mod_lt _ (by decide)
  have hbytes : (Block.ofBytes ((d.part (a / BLOCKSIZE)).bytes.set (a % BLOCKSIZE) c)).bytes =
      (d.part (a / BLOCKSIZE)).bytes.set (a % BLOCKSIZE) c :=
    Block.bytes_ofBytes (by rw [List.length_set, Block.length_bytes])
  by_cases hdiv : a' / BLOCKSIZE = a / BLOCKSIZE
  · simp only [byteAt, setByte, hdiv, Function.update_self, hbytes, List.getElem?_set,
      Block.length_bytes]
    by_cases hmod' : a % BLOCKSIZE = a' % BLOCKSIZE
    · have heq : a' = a := by
        rw [← Nat.div_add_mod a BLOCKSIZE, ← Nat.div_add_mod a' BLOCKSIZE, hdiv, hmod']
      rw [if_pos hmod', if_pos hmod, if_pos heq]
    · have hne : a' ≠ a := by
        rintro rfl
        exact hmod' rfl
      rw [if_neg hmod', if_neg hne]
  · have hne : a' ≠ a := by
      rintro rfl
      exact hdiv rfl
    simp only [byteAt, setByte, Function.update_of_ne hdiv, if_neg hne]

theorem Disk.byteAt_store (d : Disk) (a a' : Nat) (data : List UInt8) :
    (d.store a data).byteAt a' = if a ≤ a' ∧ a' < a + data.length then data[a' - a]?
    else d.byteAt a' := by
  induction data generalizing d a with
  | nil =>
    rw [store, if_neg]
    simp only [List.length_nil]
    omega
  | cons c cs ih =>
    rw [store, ih, byteAt_setByte, List.length_cons]
    by_cases ha : a' = a
    · subst ha
      rw [if_neg (by omega), if_pos rfl, if_pos (by omega), Nat.sub_self]
      rfl
    · rw [if_neg ha]
      by_cases hin : a + 1 ≤ a' ∧ a' < a + 1 + cs.length
      · have hsub : a' - a = a' - (a + 1) + 1 := by omega
        rw [if_pos hin, if_pos (by omega), hsub, List.getElem?_cons_succ]
      · rw [if_neg hin, if_neg (by omega)]

theorem Disk.stash_store (d : Disk) (a : Nat) (data : List UInt8) :
    (d.store a data).stash = d.stash ∧ (d.store a data).lastCommand = d.lastCommand := by
  induction data generalizing d a with
  | nil => exact ⟨rfl, rfl⟩
  | cons c cs ih => exact ih (d.setByte a c) (a + 1)

theorem Disk.store_append (d : Disk) (a : Nat) (xs ys : List UInt8) :
    d.store a (xs ++ ys) = (d.store a xs).store (a + xs.length) ys := by
  induction xs generalizing d a with
  | nil => rfl
  | cons x xs ih =>
    have hlen : a + (x :: xs).length = a + 1 + xs.length := by
      rw [List.length_cons]
      omega
    rw [List.cons_append, store, ih, hlen]
    rfl

theorem Disk.apply_writeBytes {b off : Nat} {data : List UInt8}
    (h : off + data.length ≤ BLOCKSIZE) :
    d.apply env (.writeBytes b off data) = d.store (b * BLOCKSIZE + off) data := by
  obtain ⟨hstash, hlast⟩ := d.stash_store (b * BLOCKSIZE + off) data
  refine ext_byteAt (fun a => ?_) hstash.symm hlast.symm
  rw [byteAt_writeBytes h, byteAt_store]

theorem Disk.apply_write (b : Nat) (v : Block) :
    d.apply env (.write b v) = d.store (b * BLOCKSIZE) v.bytes := by
  have hwhole : d.apply env (.write b v) = d.apply env (.writeBytes b 0 v.bytes) := by
    have hbytes : overwriteAt (d.part b).bytes 0 v.bytes = v.bytes := by
      rw [overwriteAt_zero, List.drop_eq_nil_of_le (by simp), List.append_nil]
    rw [apply, apply, hbytes, Block.ofBytes_bytes]
  rw [hwhole, apply_writeBytes (by simp), Nat.add_zero]

/-! ## What is left to do -/

/-- A range is discarded before it is written, if the update is a retry. -/
def Disk.discardFor (env : Env) (retry : Bool) (r : Range) (d : Disk) : Disk :=
  (if retry then [Step.discard r] else []).foldl (Disk.apply env) d

/-- The disk after some ranges were filled with data. A range is only begun when there is data for
it. -/
def fill (env : Env) (retry : Bool) : List Range → List UInt8 → Disk → Disk
  | [], _, d => d
  | r :: rs, data, d =>
    if data = [] then d
    else
      let n := (r.2 - r.1) * BLOCKSIZE
      fill env retry rs (data.drop n)
        ((d.discardFor env retry r).store (r.1 * BLOCKSIZE) (data.take n))

/-- The disk after a writer has taken all the data that is still to come. -/
def fillFrom (env : Env) (retry : Bool) (w : RangeSinkWriter) (data : List UInt8) (d : Disk) :
    Disk :=
  fill env retry w.rest (data.drop w.currentRangeLeft)
  (d.store w.position (data.take w.currentRangeLeft))

theorem fill_nil (retry : Bool) (rs : List Range) (d : Disk) : fill env retry rs [] d = d := by
  cases rs with
  | nil => rfl
  | cons r rs => exact if_pos rfl

theorem fillFrom_nil (retry : Bool) (w : RangeSinkWriter) (d : Disk) :
    fillFrom env retry w [] d = d := by
  rw [fillFrom, List.drop_nil, List.take_nil, fill_nil]
  rfl

/-- The writer with further ranges after its own. -/
def RangeSinkWriter.andThen (w : RangeSinkWriter) (rs : List Range) : RangeSinkWriter :=
  { w with rest := w.rest ++ rs }

theorem RangeSinkWriter.andThen_nil (w : RangeSinkWriter) : w.andThen [] = w := by
  rw [andThen, List.append_nil]

theorem fillFrom_andThen_finished {retry : Bool} {w : RangeSinkWriter} (h : w.finished = true)
    (rs : List Range) (data : List UInt8) (d : Disk) :
    fillFrom env retry (w.andThen rs) data d = fill env retry rs data d := by
  simp only [RangeSinkWriter.finished, Bool.and_eq_true, List.isEmpty_iff, decide_eq_true_eq] at h
  simp only [fillFrom, RangeSinkWriter.andThen, h.1, h.2]
  rfl

theorem fillFrom_store (retry : Bool) {w : RangeSinkWriter} {data : List UInt8}
    (h : data.length ≤ w.currentRangeLeft) (more : List UInt8) (d : Disk) :
    fillFrom env retry { w with
        position := w.position + data.length, currentRangeLeft :=
  w.currentRangeLeft - data.length } more
      (d.store w.position data) = fillFrom env retry w (data ++ more) d := by
  have htake :
      (data ++ more).take w.currentRangeLeft =
      data ++ more.take (w.currentRangeLeft - data.length) := by
    rw [List.take_append, List.take_of_length_le h]
  have hdrop :
      (data ++ more).drop w.currentRangeLeft = more.drop (w.currentRangeLeft - data.length) := by
    rw [List.drop_append, List.drop_eq_nil_of_le h, List.nil_append]
  rw [fillFrom, fillFrom, htake, hdrop, Disk.store_append]

theorem fillFrom_next {retry : Bool} {w : RangeSinkWriter} {r : Range} {rest : List Range}
    (hleft : w.currentRangeLeft = 0) (hrest : w.rest = r :: rest) {data : List UInt8}
    (hne : data ≠ []) (d : Disk) :
    fillFrom env retry { w with
        rest, position := r.1 * BLOCKSIZE, currentRangeLeft := (r.2 - r.1) * BLOCKSIZE } data
      (d.discardFor env retry r) = fillFrom env retry w data d := by
  rw [fillFrom, fillFrom, hleft, hrest, List.drop_zero, List.take_zero, Disk.store, fill,
    if_neg hne]

/-! ## Write -/

/-- A writer into a target: it counts the bytes it has written, and the rest is still to be
filled. -/
structure RangeSinkWriter.WritesTo (tgt : RangeSet) (w : RangeSinkWriter) : Prop where
  nonempty : ∀ r ∈ w.rest, r.1 < r.2
  total : w.total = tgt.blocks * BLOCKSIZE
  addresses : w.addresses = (BlockImg.addresses tgt).drop w.bytesWritten
  bound : w.bytesWritten ≤ w.total

theorem RangeSinkWriter.writesTo_make (tgt : RangeSet) : (make tgt).WritesTo tgt where
  nonempty := tgt.nonempty
  total := rfl
  addresses := by
    rw [addresses_make]
    rfl
  bound := Nat.zero_le _

namespace RangeSinkWriter.WritesTo

variable {tgt : RangeSet} {w : RangeSinkWriter} (h : w.WritesTo tgt)
include h

theorem length_addresses : w.addresses.length = w.total - w.bytesWritten := by
  rw [h.addresses, List.length_drop, BlockImg.length_addresses, h.total]

theorem availableSpace_add : w.availableSpace + w.bytesWritten = tgt.blocks * BLOCKSIZE := by
  have := h.bound
  rw [availableSpace, ← h.total]
  omega

theorem finished_iff : w.finished = true ↔ w.bytesWritten = tgt.blocks * BLOCKSIZE := by
  have hbound := h.bound
  have hlen := h.length_addresses
  rw [RangeSinkWriter.finished_iff h.nonempty, ← List.length_eq_zero_iff, hlen, ← h.total]
  omega

end RangeSinkWriter.WritesTo

/-- Hands the chunks to `Write` one after the other: what each call returns, with the writer after
it. -/
def RangeSinkWriter.feed (env : Env) :
    RangeSinkWriter → List (List UInt8) → M env (List (Nat × RangeSinkWriter))
  | _, [] => return []
  | w, data :: chunks => do
    let (w, written) ← w.write env data
    let moments ← feed env w chunks
    return (written, w) :: moments

/-- What the calls of `Write` return, and the writers after them. -/
inductive Fed (tgt : RangeSet) : RangeSinkWriter → List (List UInt8) →
    List (Nat × RangeSinkWriter) → Prop
  | nil : Fed tgt w [] []
  | cons : w'.WritesTo tgt → w'.bytesWritten = w.bytesWritten + min data.length w.availableSpace →
      Fed tgt w' chunks moments →
      Fed tgt w (data :: chunks) ((min data.length w.availableSpace, w') :: moments)

namespace Fed

variable {tgt : RangeSet} {w w' : RangeSinkWriter} {chunks : List (List UInt8)}
    {moments : List (Nat × RangeSinkWriter)}

theorem map_fst (h : Fed tgt w chunks moments) (hw : w.WritesTo tgt)
    (hlen : chunks.flatten.length ≤ w.availableSpace) :
    moments.map Prod.fst = chunks.map List.length := by
  induction h with
  | nil => rfl
  | @cons w' w data chunks moments hw' hbytes _ ih =>
    rw [List.flatten_cons, List.length_append] at hlen
    have hspace := hw.availableSpace_add
    have hspace' := hw'.availableSpace_add
    rw [List.map_cons, List.map_cons, ih hw' (by omega), Nat.min_eq_left (by omega)]

/-- At every moment the writer has the bytes that it was given so far, as far as there was room. -/
theorem moment (h : Fed tgt w chunks moments) (hw : w.WritesTo tgt) {k m n : Nat}
    (hk : ((m, w) :: moments)[k]? = some (n, w')) :
    w'.WritesTo tgt ∧
      w'.bytesWritten =
      min (w.bytesWritten + (chunks.take k).flatten.length) (tgt.blocks * BLOCKSIZE) := by
  have hstart : ∀ {w : RangeSinkWriter}, w.WritesTo tgt →
      w.bytesWritten = min (w.bytesWritten + 0) (tgt.blocks * BLOCKSIZE) := by
    intro w hw
    have := hw.availableSpace_add
    omega
  induction h generalizing k m n with
  | nil =>
    cases k with
    | zero =>
      cases hk
      exact ⟨hw, hstart hw⟩
    | succ k => cases hk
  | @cons w₁ w data chunks moments hw₁ hbytes _ ih =>
    cases k with
    | zero =>
      cases hk
      exact ⟨hw, hstart hw⟩
    | succ k =>
      obtain ⟨hw', hbytes'⟩ := ih hw₁ hk
      have hspace := hw.availableSpace_add
      refine ⟨hw', ?_⟩
      rw [hbytes', hbytes, List.take_succ_cons, List.flatten_cons, List.length_append]
      omega

end Fed

section
variable {τ : Type} {Mo : Monitor (Disk.apply env) τ} {C : τ → Prop} {t : τ} {bs : List Nat}
variable (hf : p.faults = []) (hC : ∀ t e, e.Touches bs → C t → C (Mo.step t e))
include hf

theorem wp_syscall_ok {Q : Option (Bool × CommandParameters) → τ → Prop}
    (h : Q (some (true, p)) t) : wp Mo C (syscall env) Q p t := by
  refine wp_syscall (fun p' hp => ?_) fun hfaults => absurd hf hfaults
  rwa [hp.eq hf]

include hC

theorem wp_discardBlocks_ok {r : Range} {Q : Option (Bool × CommandParameters) → τ → Prop}
    (hr : ∀ b ∈ Range.toList r, b ∈ bs) (h₀ : C t)
    (h : ∀ t', C t' → Mo.view t' = (Mo.view t).discardFor env p.isRetry r → Q (some (true, p)) t') :
    wp Mo C (discardBlocks env r) Q p t := by
  refine wp_discardBlocks (fun _ => hC t _ hr h₀) (fun p' hp => ?_) fun hfaults => absurd hf hfaults
  rw [hp.eq hf]
  refine h _ ?_ (Mo.view_foldl _ _)
  cases p.isRetry
  · exact h₀
  · exact hC t _ hr h₀

theorem wp_writeAll_ok {fuel pos : Nat} {data : List UInt8}
    {Q : Option (Bool × CommandParameters) → τ → Prop} (hfuel : data.length ≤ fuel)
    (hin : ∀ a ∈ List.range' pos data.length, a / BLOCKSIZE < env.blocks ∧ a / BLOCKSIZE ∈ bs)
    (h₀ : C t) (h : ∀ t', C t' → Mo.view t' = (Mo.view t).store pos data → Q (some (true, p)) t') :
    wp Mo C (RangeSinkWriter.writeAll env fuel pos data) Q p t := by
  induction fuel generalizing pos data t with
  | zero =>
    cases List.length_eq_zero_iff.mp (Nat.le_zero.mp hfuel)
    simpa [RangeSinkWriter.writeAll] using h t h₀ rfl
  | succ fuel ih =>
    unfold RangeSinkWriter.writeAll
    split
    · rename_i hempty
      cases List.isEmpty_iff.mp hempty
      simpa using h t h₀ rfl
    · rename_i hempty
      have hlen : 0 < data.length := by
        refine List.length_pos_iff.mpr fun hnil => hempty ?_
        rw [hnil]
        rfl
      obtain ⟨hblock, hmem⟩ := hin pos (List.mem_range'_1.mpr ⟨Nat.le_refl _, by omega⟩)
      have hmod : pos % BLOCKSIZE < BLOCKSIZE := Nat.mod_lt _ (by decide)
      have haddr : pos / BLOCKSIZE * BLOCKSIZE + pos % BLOCKSIZE = pos := by
        rw [Nat.mul_comm]
        exact Nat.div_add_mod pos BLOCKSIZE
      obtain ⟨n, hn⟩ : ∃ n, n = BLOCKSIZE - pos % BLOCKSIZE := ⟨_, rfl⟩
      -- the bytes up to the end of the block are one step
      have hstep : C (Mo.step t (.writeBytes (pos / BLOCKSIZE) (pos % BLOCKSIZE) (data.take n))) :=
        hC _ _ hmem h₀
      have hview :
          Mo.view (Mo.step t (.writeBytes (pos / BLOCKSIZE) (pos % BLOCKSIZE) (data.take n))) =
          (Mo.view t).store pos (data.take n) := by
        rw [Mo.view_step, Disk.apply_writeBytes (by rw [List.length_take]; omega), haddr]
      have hsplit : (Mo.view t).store pos data =
          ((Mo.view t).store pos (data.take n)).store (pos + n) (data.drop n) := by
        rcases Nat.le_total n data.length with hle | hle
        · have := (Mo.view t).store_append pos (data.take n) (data.drop n)
          rwa [List.take_append_drop, List.length_take, Nat.min_eq_left hle] at this
        · rw [List.take_of_length_le hle, List.drop_eq_nil_of_le hle]
          rfl
      rw [← hn, wp_bind]
      refine wp_syscall_ok hf ?_
      rw [wpThen_some, if_pos rfl, if_pos hblock, wp_bind, wp_emit_step, wpThen_some]
      refine ⟨hstep, ih (by rw [List.length_drop]; omega) (fun a ha => hin a ?_) hstep
        fun t' ht' hview' => ?_⟩
      · rw [List.mem_range'_1, List.length_drop] at ha
        exact List.mem_range'_1.mpr (by omega)
      · exact h t' ht' (by rw [hview', hview, hsplit])

/-- The writer takes as much as it has room for, and what it has still to do is what is left of the
whole. When it has room for all, this includes what further ranges will take. -/
theorem wp_writeLoop_ok {fuel n : Nat} {w : RangeSinkWriter} {data : List UInt8}
    {Q : Option ((RangeSinkWriter × Nat) × CommandParameters) → τ → Prop}
    (hfuel : data.length ≤ fuel) (hw : ∀ r ∈ w.rest, r.1 < r.2)
    (hin : ∀ a ∈ w.addresses, a / BLOCKSIZE < env.blocks ∧ a / BLOCKSIZE ∈ bs) (h₀ : C t)
    (h : ∀ w' t', C t' → (∀ r ∈ w'.rest, r.1 < r.2) → w'.addresses = w.addresses.drop data.length →
      w'.bytesWritten = w.bytesWritten → w'.total = w.total →
      (∀ rs more, rs = [] ∨ data.length ≤ w.addresses.length →
        fillFrom env p.isRetry (w'.andThen rs) more (Mo.view t') =
          fillFrom env p.isRetry (w.andThen rs) (data ++ more) (Mo.view t)) →
      Q (some ((w', n + min data.length w.addresses.length), p)) t') :
    wp Mo C (RangeSinkWriter.writeLoop env fuel w data n) Q p t := by
  induction fuel generalizing w data n t with
  | zero =>
    cases List.length_eq_zero_iff.mp (Nat.le_zero.mp hfuel)
    simpa [RangeSinkWriter.writeLoop] using h w t h₀ hw (by simp) rfl rfl fun _ _ _ => rfl
  | succ fuel ih =>
    unfold RangeSinkWriter.writeLoop
    split
    · rename_i hempty
      cases List.isEmpty_iff.mp hempty
      simpa using h w t h₀ hw (by simp) rfl rfl fun _ _ _ => rfl
    · rename_i hempty
      have hne : data ≠ [] := fun hnil => hempty (List.isEmpty_iff.mpr hnil)
      have hpos : 0 < data.length := List.length_pos_iff.mpr hne
      -- one piece into the range at hand, then the rest of the data
      have hpiece : ∀ w₁ t₁, C t₁ → (∀ r ∈ w₁.rest, r.1 < r.2) → w₁.addresses = w.addresses →
          w₁.currentRangeLeft ≠ 0 → w₁.bytesWritten = w.bytesWritten → w₁.total = w.total →
          (∀ rs more, fillFrom env p.isRetry (w₁.andThen rs) (data ++ more) (Mo.view t₁) =
            fillFrom env p.isRetry (w.andThen rs) (data ++ more) (Mo.view t)) →
          wp Mo C (do
            let now := min data.length w₁.currentRangeLeft
            if ← RangeSinkWriter.writeAll env now w₁.position (data.take now) then
              RangeSinkWriter.writeLoop env fuel
                { w₁ with
                  position := w₁.position + now, currentRangeLeft := w₁.currentRangeLeft - now }
                (data.drop now) (n + now)
            else return (w₁, n)) Q p t₁ := by
        intro w₁ t₁ hC₁ hw₁ haddr hleft hbytes htotal hfill
        obtain ⟨now, hnow⟩ : ∃ now, now = min data.length w₁.currentRangeLeft := ⟨_, rfl⟩
        have htake : (data.take now).length = now := by
          rw [List.length_take]
          omega
        have hnext : w.addresses = List.range' w₁.position now ++ ({ w₁ with
            position := w₁.position + now, currentRangeLeft := w₁.currentRangeLeft - now } :
              RangeSinkWriter).addresses := by
          rw [← haddr]
          simp only [RangeSinkWriter.addresses, ← List.append_assoc, List.range'_append_1]
          rw [Nat.add_sub_cancel' (by omega)]
        have hwhole : now + (data.drop now).length = data.length := by
          rw [List.length_drop]
          omega
        have hroom := congrArg List.length hnext
        rw [List.length_append, List.length_range'] at hroom
        rw [← hnow, wp_bind]
        refine wp_writeAll_ok hf hC (by omega) (fun a ha => hin a ?_) hC₁ fun t₂ hC₂ hview => ?_
        · rw [htake] at ha
          rw [hnext]
          exact List.mem_append_left _ ha
        · rw [wpThen_some, if_pos rfl]
          refine ih (by omega) hw₁ (fun a ha => hin a ?_) hC₂
            fun w' t' hC' hw' haddr' hbytes' htotal' hfill' => ?_
          · rw [hnext]
            exact List.mem_append_right _ ha
          · have hsum :
                ∀ m, n + now + min (data.drop now).length m =
                n + min data.length (now + m) := by omega
            rw [hsum, ← hroom]
            refine h w' t' hC' hw' ?_ (hbytes'.trans hbytes) (htotal'.trans htotal)
              fun rs more hroom' => ?_
            · rw [haddr', hnext, ← hwhole, ← List.drop_drop,
                List.drop_left' (List.length_range' ..)]
            · have hleft' : (data.take now).length ≤ (w₁.andThen rs).currentRangeLeft := by
                rw [htake]
                exact Nat.le_trans (Nat.le_of_eq hnow) (Nat.min_le_right _ _)
              have hstore :=
                @fillFrom_store env p.isRetry _ _ hleft' (data.drop now ++ more) (Mo.view t₁)
              rw [htake, ← List.append_assoc, List.take_append_drop, hfill rs more] at hstore
              rw [hfill' rs more (hroom'.imp_right fun hle => by omega), hview, ← hstore]
              rfl
      unfold RangeSinkWriter.seekToOutputRange
      rw [wp_bind]
      split
      · rename_i hleft
        rw [wp_pure, wpThen_some]
        exact hpiece w t h₀ hw rfl hleft rfl rfl fun _ _ => rfl
      · rename_i hleft
        have hleft : w.currentRangeLeft = 0 := Decidable.not_not.mp hleft
        split
        · -- no room is left
          rename_i hrest
          have haddr : w.addresses = [] := by
            rw [RangeSinkWriter.addresses, hleft, hrest]
            rfl
          rw [wp_pure, wpThen_some, wp_pure]
          have hnone := h w t h₀ hw (by rw [haddr, List.drop_nil]) rfl rfl fun rs more hroom => ?_
          · rwa [haddr, List.length_nil, Nat.min_zero, Nat.add_zero] at hnone
          · have hfin : w.finished = true := by
              rw [RangeSinkWriter.finished, hleft, hrest]
              rfl
            rw [haddr, List.length_nil] at hroom
            rcases hroom with rfl | hroom
            · rw [fillFrom_andThen_finished hfin, fillFrom_andThen_finished hfin]
              rfl
            · omega
        · rename_i r rest hrest
          have hlt : r.1 < r.2 := hw r (by rw [hrest]; exact List.mem_cons_self)
          have haddr : w.addresses = Range.addresses r ++ rest.flatMap Range.addresses := by
            rw [RangeSinkWriter.addresses, hleft, hrest]
            rfl
          rw [wp_bind]
          refine wp_discardBlocks_ok hf hC (fun b hb => ?_) h₀ fun t₁ hC₁ hview => ?_
          · have hdiv : b * BLOCKSIZE / BLOCKSIZE = b := Nat.mul_div_cancel _ (by decide)
            have hmem := hin (b * BLOCKSIZE) ?_
            · rw [hdiv] at hmem
              exact hmem.2
            · rw [haddr]
              refine List.mem_append_left _ (Range.mem_addresses.mpr ?_)
              rwa [hdiv]
          · rw [wpThen_some, if_pos rfl, wp_bind]
            refine wp_syscall_ok hf ?_
            rw [wpThen_some, if_pos rfl, wp_pure, wpThen_some]
            refine hpiece _ _ hC₁ (fun r' hr' => hw r' ?_) ?_ ?_ rfl rfl fun rs more => ?_
            · rw [hrest]
              exact List.mem_cons_of_mem _ hr'
            · exact haddr.symm
            · have : 0 < (r.2 - r.1) * BLOCKSIZE := Nat.mul_pos (by omega) (by decide)
              exact Nat.ne_of_gt this
            · have hrest' : (w.andThen rs).rest = r :: (rest ++ rs) := by
                rw [RangeSinkWriter.andThen, hrest]
                rfl
              rw [hview]
              exact fillFrom_next (w := w.andThen rs) hleft hrest'
                (fun hnil => hne (List.append_eq_nil_iff.mp hnil).1) _

theorem wp_write_ok {tgt : RangeSet} {w : RangeSinkWriter} {data : List UInt8}
    {Q : Option ((RangeSinkWriter × Nat) × CommandParameters) → τ → Prop} (hw : w.WritesTo tgt)
    (hin : ∀ b ∈ tgt.toList, b < env.blocks ∧ b ∈ bs) (h₀ : C t)
    (h : ∀ w' t', C t' → w'.WritesTo tgt →
      w'.bytesWritten = w.bytesWritten + min data.length w.availableSpace →
      (∀ rs more, rs = [] ∨ data.length ≤ w.availableSpace →
        fillFrom env p.isRetry (w'.andThen rs) more (Mo.view t') =
          fillFrom env p.isRetry (w.andThen rs) (data ++ more) (Mo.view t)) →
      Q (some ((w', min data.length w.availableSpace), p)) t') :
    wp Mo C (w.write env data) Q p t := by
  have hbound := hw.bound
  have hspace : w.addresses.length = w.availableSpace := hw.length_addresses
  unfold RangeSinkWriter.write
  split
  · rename_i hfin
    have hnone : min data.length w.availableSpace = 0 := by
      rw [RangeSinkWriter.availableSpace, hw.total, hw.finished_iff.mp hfin, Nat.sub_self,
        Nat.min_zero]
    have hstay := h w t h₀ hw (by rw [hnone, Nat.add_zero]) fun rs more hroom => ?_
    · rw [wp_pure]
      rwa [hnone] at hstay
    · rw [fillFrom_andThen_finished hfin, fillFrom_andThen_finished hfin]
      rcases hroom with rfl | hroom
      · rfl
      · have hnil : data = [] := List.length_eq_zero_iff.mp (by omega)
        rw [hnil, List.nil_append]
  · rw [wp_bind]
    refine wp_writeLoop_ok hf hC (Nat.le_refl _) hw.nonempty (fun a ha => hin _ ?_) h₀
      fun w' t' hC' hw' haddr' hbytes' htotal' hfill' => ?_
    · rw [hw.addresses] at ha
      exact mem_addresses.mp (List.mem_of_mem_drop ha)
    · rw [wpThen_some, wp_pure, Nat.zero_add, hbytes', hspace]
      refine h _ t' hC' ⟨hw', htotal'.trans hw.total, ?_, ?_⟩ rfl (by rwa [hspace] at hfill')
      · have hlen := length_addresses tgt
        have htotal := hw.total
        have hgone : ((addresses tgt).drop w.bytesWritten).drop data.length =
            (addresses tgt).drop (w.bytesWritten + min data.length w.availableSpace) := by
          rw [List.drop_drop]
          rcases Nat.le_total data.length w.availableSpace with hle | hle
          · rw [Nat.min_eq_left hle]
          · rw [RangeSinkWriter.availableSpace] at hle ⊢
            rw [List.drop_eq_nil_of_le (by omega), List.drop_eq_nil_of_le (by omega)]
        rw [← hgone, ← hw.addresses, ← haddr']
        rfl
      · show w.bytesWritten + min data.length w.availableSpace ≤ w'.total
        rw [htotal', RangeSinkWriter.availableSpace]
        omega

/-- Feeds a writer with chunks, each of which it takes as far as there is room. -/
theorem wp_feed_ok {tgt : RangeSet} {w : RangeSinkWriter} {chunks : List (List UInt8)}
    {Q : Option (List (Nat × RangeSinkWriter) × CommandParameters) → τ → Prop} (hw : w.WritesTo tgt)
    (hin : ∀ b ∈ tgt.toList, b < env.blocks ∧ b ∈ bs) (h₀ : C t)
    (h : ∀ moments t', C t' → Fed tgt w chunks moments →
      Mo.view t' = fillFrom env p.isRetry w chunks.flatten (Mo.view t) → Q (some (moments, p)) t') :
    wp Mo C (RangeSinkWriter.feed env w chunks) Q p t := by
  induction chunks generalizing w t Q with
  | nil =>
    rw [RangeSinkWriter.feed, wp_pure]
    refine h [] t h₀ .nil ?_
    rw [List.flatten_nil, fillFrom_nil]
  | cons data chunks ih =>
    rw [RangeSinkWriter.feed, wp_bind]
    refine wp_write_ok hf hC hw hin h₀ fun w' t' hC' hw' hbytes hfill => ?_
    rw [wpThen_some, wp_bind]
    refine ih hw' hC' fun moments t'' hC'' hfed hview => ?_
    rw [wpThen_some, wp_pure]
    refine h _ t'' hC'' (.cons hw' hbytes hfed) ?_
    have hall := hfill [] chunks.flatten (.inl rfl)
    rw [RangeSinkWriter.andThen_nil, RangeSinkWriter.andThen_nil] at hall
    rw [hview, hall, List.flatten_cons]

end

/-! ## WriteBlocks -/

/-- The blocks of a byte string. -/
def blocksOf : Nat → List UInt8 → List Block
  | 0, _ => []
  | n + 1, data => .ofBytes (data.take BLOCKSIZE) :: blocksOf n (data.drop BLOCKSIZE)

@[simp] theorem length_blocksOf (n : Nat) (data : List UInt8) : (blocksOf n data).length = n := by
  induction n generalizing data with
  | zero => rfl
  | succ n ih => rw [blocksOf, List.length_cons, ih]

theorem flatMap_blocksOf {n : Nat} {data : List UInt8} (h : data.length = n * BLOCKSIZE) :
    (blocksOf n data).flatMap Block.bytes = data := by
  induction n generalizing data with
  | zero =>
    rw [Nat.zero_mul] at h
    cases List.length_eq_zero_iff.mp h
    rfl
  | succ n ih =>
    rw [Nat.succ_mul] at h
    have htake : (data.take BLOCKSIZE).length = BLOCKSIZE := by
      rw [List.length_take]
      omega
    have hdrop : (data.drop BLOCKSIZE).length = n * BLOCKSIZE := by
      rw [List.length_drop]
      omega
    rw [blocksOf, List.flatMap_cons, Block.bytes_ofBytes htake, ih hdrop, List.take_append_drop]

theorem foldl_write {s n : Nat} {data : List Block} {d : Disk} (h : n ≤ data.length) :
    (List.zipWith Step.write (List.range' s n) data).foldl (Disk.apply env) d =
      d.store (s * BLOCKSIZE) ((data.take n).flatMap Block.bytes) := by
  induction n generalizing s data d with
  | zero => rfl
  | succ n ih =>
    cases data with
    | nil => cases h
    | cons v data =>
      rw [List.range'_succ, List.zipWith_cons_cons, List.foldl_cons, Disk.apply_write,
        ih (Nat.le_of_succ_le_succ h), List.take_succ_cons, List.flatMap_cons, Disk.store_append,
        Block.length_bytes, Nat.succ_mul]

theorem foldl_writeSteps {retry : Bool} {rs : List Range} {data : List Block} {d : Disk}
    (hrs : ∀ r ∈ rs, r.1 < r.2) (hlen : (rs.map fun r => r.2 - r.1).sum ≤ data.length) :
    (writeSteps retry rs data).foldl (Disk.apply env) d =
    fill env retry rs (data.flatMap Block.bytes) d := by
  induction rs generalizing data d with
  | nil => rfl
  | cons r rs ih =>
    obtain ⟨hr, hrs⟩ := List.forall_mem_cons.mp hrs
    rw [List.map_cons, List.sum_cons] at hlen
    have hbytes : ∀ n, n ≤ data.length →
        ((data.take n).flatMap Block.bytes).length = n * BLOCKSIZE := by
      intro n hn
      simp [Nat.min_eq_left hn]
    have hsplit : data.flatMap Block.bytes =
        (data.take (r.2 - r.1)).flatMap Block.bytes ++
        (data.drop (r.2 - r.1)).flatMap Block.bytes := by
      rw [← List.flatMap_append, List.take_append_drop]
    have hne : data.flatMap Block.bytes ≠ [] := by
      intro hnil
      have hlen' := hbytes (r.2 - r.1) (by omega)
      rw [hsplit, List.append_eq_nil_iff] at hnil
      rw [hnil.1, List.length_nil, BLOCKSIZE] at hlen'
      omega
    have htake : (data.flatMap Block.bytes).take ((r.2 - r.1) * BLOCKSIZE) =
        (data.take (r.2 - r.1)).flatMap Block.bytes := by
      rw [hsplit, List.take_left' (hbytes _ (by omega))]
    have hdrop : (data.flatMap Block.bytes).drop ((r.2 - r.1) * BLOCKSIZE) =
        (data.drop (r.2 - r.1)).flatMap Block.bytes := by
      rw [hsplit, List.drop_left' (hbytes _ (by omega))]
    simp only [fill, if_neg hne, htake, hdrop, writeSteps, List.foldl_append]
    rw [ih hrs (by rw [List.length_drop]; omega), Range.toList, foldl_write (by omega)]
    rfl

/-! ## Short writes -/

/-- The same steps, where a `write` may take a part of its bytes and leave the rest to further
calls. -/
inductive Cut : List Step → List Step → Prop
  | nil : Cut [] []
  | step (e : Step) : Cut steps steps' → Cut (e :: steps) (e :: steps')
  | short : off + xs.length + ys.length ≤ BLOCKSIZE →
      Cut (.writeBytes b (off + xs.length) ys :: steps) steps' →
      Cut (.writeBytes b off (xs ++ ys) :: steps) (.writeBytes b off xs :: steps')
  | block : Cut (.writeBytes b 0 v.bytes :: steps) steps' → Cut (.write b v :: steps) steps'

theorem Cut.foldl {steps steps' : List Step} (h : Cut steps steps') (d : Disk) :
    steps'.foldl (Disk.apply env) d = steps.foldl (Disk.apply env) d := by
  induction h generalizing d with
  | nil => rfl
  | step e _ ih => rw [List.foldl_cons, List.foldl_cons, ih]
  | @short off xs ys b steps steps' hlen _ ih =>
    rw [List.foldl_cons, ih, List.foldl_cons, List.foldl_cons, Disk.apply_writeBytes (by omega),
      Disk.apply_writeBytes (by omega), Disk.apply_writeBytes (by rw [List.length_append]; omega),
      Disk.store_append, Nat.add_assoc]
  | @block b v steps steps' _ ih =>
    rw [ih, List.foldl_cons, List.foldl_cons, Disk.apply_write, Disk.apply_writeBytes (by simp),
      Nat.add_zero]

/-! ## The two writers -/

/-- However the data is cut into chunks, and wherever writes end early, the range writer leaves the
device as `WriteBlocks` does. It counts what it has taken, it is finished when it has all bytes of
the target, and it writes nowhere else, however much data it is given. -/
theorem feed_eq_writeBlocks (env : Env) (tgt : RangeSet) (p : CommandParameters) (d : Disk)
    (chunks : List (List UInt8)) (hf : p.faults = []) (hin : env.Within tgt) :
    let fed := RangeSinkWriter.feed env (.make tgt) chunks
    (∀ e ∈ fed.steps p d, e.Touches tgt.toList) ∧
    ∃ moments, fed.result p d = some (moments, p) ∧
      (∀ k n w, ((0, .make tgt) :: moments)[k]? = some (n, w) →
        w.availableSpace + w.bytesWritten = tgt.blocks * BLOCKSIZE ∧
        (w.finished = true ↔ tgt.blocks * BLOCKSIZE ≤ (chunks.take k).flatten.length)) ∧
      (chunks.flatten.length ≤ tgt.blocks * BLOCKSIZE →
        moments.map Prod.fst = chunks.map List.length) ∧
      (chunks.flatten.length = tgt.blocks * BLOCKSIZE →
        let written := writeBlocks env tgt (blocksOf tgt.blocks chunks.flatten)
        written.result p d = some (true, p) ∧
        ∀ steps steps', Cut (fed.steps p d) steps → Cut (written.steps p d) steps' →
          steps.foldl (Disk.apply env) d = steps'.foldl (Disk.apply env) d) := by
  have hmake := RangeSinkWriter.writesTo_make tgt
  have hspace : (RangeSinkWriter.make tgt).availableSpace = tgt.blocks * BLOCKSIZE := Nat.sub_zero _
  -- the run is followed with all its steps so far
  let within := fun t : Disk × List Step => t.1 = d ∧ ∀ e ∈ t.2, e.Touches tgt.toList
  have hkeep : ∀ t (e : Step), e.Touches tgt.toList → within t →
      within ((Monitor.history (Disk.apply env)).step t e) := by
    rintro t e he ⟨hd, hsteps⟩
    refine ⟨hd, fun e' he' => ?_⟩
    rcases List.mem_append.mp he' with he' | he'
    · exact hsteps e' he'
    · cases List.mem_singleton.mp he'
      exact he
  have hrun :
      wp (.history (Disk.apply env)) within (RangeSinkWriter.feed env (.make tgt) chunks)
      (fun r t =>
      within t ∧ ∃ moments, r = some (moments, p) ∧ Fed tgt (.make tgt) chunks moments ∧
        t.2.foldl (Disk.apply env) t.1 = fillFrom env p.isRetry (.make tgt) chunks.flatten d) p
        (d, []) :=
    wp_feed_ok hf hkeep hmake (fun b hb => ⟨hin b hb, hb⟩) ⟨rfl, by simp⟩
      fun moments t' ht' hfed hview => ⟨ht', moments, rfl, hfed, hview⟩
  have hresult := wp_result hrun
  rw [Monitor.history_foldl] at hresult
  obtain ⟨⟨-, htouch⟩, moments, hresult, hfed, hstore⟩ := hresult
  refine ⟨htouch, moments, hresult, fun k n w hk => ?_, fun hlen =>
    hfed.map_fst hmake (by rwa [hspace]), fun hlen => ?_⟩
  · obtain ⟨hw, hbytes⟩ := hfed.moment hmake hk
    have hzero : (RangeSinkWriter.make tgt).bytesWritten = 0 := rfl
    rw [hzero, Nat.zero_add] at hbytes
    refine ⟨hw.availableSpace_add, ?_⟩
    rw [hw.finished_iff, hbytes]
    omega
  · have hblocks := flatMap_blocksOf hlen
    have hrun' : wp (.plain (Disk.apply env)) (fun _ => True)
        (writeBlocks env tgt (blocksOf tgt.blocks chunks.flatten))
        (fun r d' => r = some (true, p) ∧ d' = fill env p.isRetry tgt.ranges chunks.flatten d)
          p d := by
      refine wp_writeBlocks (fun _ _ => trivial) (fun p' hp _ _ => ?_)
        (fun hout => absurd hin (hout hf))
        fun hshort => ?_
      · rw [hp.eq hf]
        refine ⟨rfl, (foldl_writeSteps tgt.nonempty ?_).trans (by rw [hblocks])⟩
        rw [length_blocksOf]
        exact Nat.le_refl _
      · rw [length_blocksOf] at hshort
        exact absurd hshort (Nat.lt_irrefl _)
    have hwrite := wp_result hrun'
    refine ⟨hwrite.1, fun steps steps' hcut hcut' => ?_⟩
    have hfill : fillFrom env p.isRetry (.make tgt) chunks.flatten d =
        fill env p.isRetry tgt.ranges chunks.flatten d := rfl
    exact (hcut.foldl d).trans ((hstore.trans hfill).trans ((hcut'.foldl d).trans hwrite.2).symm)

/-- Blocks 1, 3 and 4 are filled in a retry, with a byte, then the rest of block 1 together with
block 3, and then block 4. -/
theorem feed_eq_writeBlocks_sample :
    ∃ moments, (RangeSinkWriter.feed .small (.make ⟨[(1, 2), (3, 5)], by decide⟩)
        [[7], List.replicate 8191 8, List.replicate 4096 9]).result
          { CommandParameters.start with isRetry := true } (.start []) =
        some (moments, { CommandParameters.start with isRetry := true }) ∧
      moments.map Prod.fst = [1, 8191, 4096] := by
  have hin : Env.small.Within ⟨[(1, 2), (3, 5)], by decide⟩ := by
    show ∀ b ∈ [1, 3, 4], b < 8
    decide
  obtain ⟨-, moments, hresult, -, hsizes, -⟩ :=
    feed_eq_writeBlocks .small ⟨[(1, 2), (3, 5)], by decide⟩
    { CommandParameters.start with isRetry := true } (.start [])
    [[7], List.replicate 8191 8, List.replicate 4096 9] rfl hin
  refine ⟨moments, hresult, (hsizes ?_).trans ?_⟩
  · rw [List.length_flatten, List.map_cons, List.map_cons, List.map_cons, List.length_replicate,
      List.length_replicate]
    decide
  · rw [List.map_cons, List.map_cons, List.map_cons, List.length_replicate, List.length_replicate]
    rfl

end BootableRecovery.BlockImg
