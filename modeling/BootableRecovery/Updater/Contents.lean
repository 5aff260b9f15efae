import BootableRecovery.Theory.LittleEndian
import BootableRecovery.Updater.Marks
import BootableRecovery.Updater.Sink
import Mathlib.Data.List.Nodup

/-!
# What writes leave on the partition

After `WriteBlocks`, or when a sink has taken all bytes of a target, the target has the given
contents and the other blocks are as before. A target that names a block twice is left with the data
that came last, so the target is assumed to name each block once.
-/

namespace BootableRecovery.BlockImg

/-! ## Blocks and bytes -/

namespace Block

@[simp] theorem length_bytes (b : Block) : b.bytes.length = BLOCKSIZE := by simp [bytes]

theorem pow_eq : 256 ^ BLOCKSIZE = 2 ^ (8 * 4096) := by
  have h : 256 = 2 ^ 8 := rfl
  rw [h, BLOCKSIZE, ← Nat.pow_mul]

theorem ofBytes_bytes (b : Block) : ofBytes b.bytes = b := by
  have hmap : b.bytes.map UInt8.toNat = (List.range BLOCKSIZE).map fun i =>
      b.toNat / 256 ^ i % 256 := by
    simp only [bytes, List.map_map]
    refine List.map_congr_left fun i _ => ?_
    simp
  have hlt : b.toNat < 256 ^ BLOCKSIZE := Nat.lt_of_lt_of_eq b.isLt pow_eq.symm
  rw [ofBytes, hmap, ofDigits_range, Nat.mod_eq_of_lt hlt, BitVec.ofNat_toNat, BitVec.setWidth_eq]

theorem bytes_ofBytes {l : List UInt8} (h : l.length = BLOCKSIZE) : (ofBytes l).bytes = l := by
  have hdigits : ∀ n ∈ l.map UInt8.toNat, n < 256 := by
    intro n hn
    obtain ⟨c, -, rfl⟩ := List.mem_map.mp hn
    exact c.toNat_lt
  have hlt : Nat.ofDigits 256 (l.map UInt8.toNat) < 2 ^ (8 * 4096) := by
    rw [← pow_eq, ← h, ← List.length_map (f := UInt8.toNat)]
    exact Nat.ofDigits_lt_base_pow_length (by decide) hdigits
  have hnat : (ofBytes l).toNat = Nat.ofDigits 256 (l.map UInt8.toNat) := by
    rw [ofBytes, BitVec.toNat_ofNat]
    exact Nat.mod_eq_of_lt hlt
  refine List.ext_getElem (by rw [length_bytes, h]) fun i hi hi' => ?_
  simp only [bytes, List.getElem_map, List.getElem_range, hnat]
  rw [Nat.ofDigits_div_pow_eq_ofDigits_drop i (by decide) _ hdigits, ← List.map_drop,
    List.drop_eq_getElem_cons hi', List.map_cons, Nat.ofDigits_cons, Nat.add_mul_mod_self_left]
  simp

end Block

/-! ## Steps that stay within some blocks -/

/-- The step changes at most the given blocks of the partition, and nothing else. -/
def Step.Touches (bs : List Nat) : Step → Prop
  | .write b _ => b ∈ bs
  | .writeBytes b _ _ => b ∈ bs
  | .discard r => ∀ b ∈ Range.toList r, b ∈ bs
  | .fsync => True
  | _ => False

variable {env : Env}

theorem Step.Touches.part_apply {e : Step} {bs : List Nat} (h : e.Touches bs) {d : Disk} {b : Nat}
    (hb : b ∉ bs) : (d.apply env e).part b = d.part b := by
  cases e with
  | write b' v =>
    have hne : b ≠ b' := by
      rintro rfl
      exact hb h
    exact Function.update_of_ne hne _ _
  | writeBytes b' off data =>
    have hne : b ≠ b' := by
      rintro rfl
      exact hb h
    exact Function.update_of_ne hne _ _
  | discard r =>
    have : ¬(r.1 ≤ b ∧ b < r.2) := fun hr => hb (h b (Range.mem_toList.mpr hr))
    simp only [Disk.apply, if_neg this]
  | fsync => rfl
  | _ => cases h

theorem Step.Touches.mono {e : Step} {bs bs' : List Nat} (h : e.Touches bs)
    (hsub : ∀ b ∈ bs, b ∈ bs') : e.Touches bs' := by
  cases e with
  | write b v => exact hsub b h
  | writeBytes b off data => exact hsub b h
  | discard r => exact fun b hb => hsub b (h b hb)
  | fsync => trivial
  | _ => cases h

theorem Step.Touches.stash_apply {e : Step} {bs : List Nat} (h : e.Touches bs) {d : Disk} :
    (d.apply env e).stash = d.stash := by
  cases e <;> first | rfl | cases h

theorem Step.Touches.isData {e : Step} {bs : List Nat} (h : e.Touches bs) : e.IsData := by
  cases e <;> trivial

/-- `d'` differs from `d` at most in the given blocks of the partition. -/
structure Disk.SameBut (bs : List Nat) (d d' : Disk) : Prop where
  part : ∀ b ∉ bs, d'.part b = d.part b
  stash : d'.stash = d.stash
  lastCommand : d'.lastCommand = d.lastCommand

namespace Disk.SameBut

variable {bs bs' : List Nat} {d d' d'' : Disk}

theorem refl : SameBut bs d d := ⟨fun _ _ => rfl, rfl, rfl⟩

theorem trans (h : SameBut bs d d') (h' : SameBut bs d' d'') : SameBut bs d d'' :=
  ⟨fun b hb => (h'.part b hb).trans (h.part b hb), h'.stash.trans h.stash,
    h'.lastCommand.trans h.lastCommand⟩

theorem mono (h : SameBut bs d d') (hsub : ∀ b ∈ bs, b ∈ bs') : SameBut bs' d d' :=
  ⟨fun b hb => h.part b fun hb' => hb (hsub b hb'), h.stash, h.lastCommand⟩

theorem apply {e : Step} (h : e.Touches bs) : SameBut bs d (d.apply env e) :=
  ⟨fun _ hb => h.part_apply hb, h.stash_apply, h.isData.lastCommand_apply d⟩

theorem foldl {steps : List Step} (h : ∀ e ∈ steps, e.Touches bs) :
    SameBut bs d (steps.foldl (Disk.apply env) d) := by
  induction steps generalizing d with
  | nil => exact .refl
  | cons e steps ih =>
    exact (apply (h e (by simp))).trans (ih fun e he => h e (by simp [he]))

theorem read_eq {rs : RangeSet} (h : SameBut bs d d') (hdis : ∀ b ∈ rs.toList, b ∉ bs) :
    d'.read rs = d.read rs :=
  List.map_congr_left fun b hb => h.part b (hdis b hb)

end Disk.SameBut

/-! ## WriteBlocks -/

theorem touches_writeSteps {retry : Bool} {rs : List Range} {data : List Block} :
    ∀ e ∈ writeSteps retry rs data, e.Touches (rs.flatMap Range.toList) := by
  induction rs generalizing data with
  | nil => simp [writeSteps]
  | cons r rs ih =>
    intro e he
    simp only [writeSteps, List.mem_append] at he
    rcases he with (he | he) | he
    · split at he
      · cases List.mem_singleton.mp he
        intro b hb
        exact List.mem_flatMap.mpr ⟨r, by simp, hb⟩
      · cases he
    · rw [← List.map_uncurry_zip_eq_zipWith] at he
      obtain ⟨⟨b, v⟩, hbv, rfl⟩ := List.mem_map.mp he
      exact List.mem_flatMap.mpr ⟨r, by simp, (List.of_mem_zip hbv).1⟩
    · refine (ih e he).mono fun b hb => ?_
      obtain ⟨r', hr', hb⟩ := List.mem_flatMap.mp hb
      exact List.mem_flatMap.mpr ⟨r', by simp [hr'], hb⟩

theorem part_zipWith_write {bs : List Nat} {data : List Block} {d : Disk} (hnodup : bs.Nodup)
    (hlen : bs.length ≤ data.length) :
    bs.map ((List.zipWith Step.write bs data).foldl (Disk.apply env) d).part =
      data.take bs.length := by
  induction bs generalizing data d with
  | nil => simp
  | cons b bs ih =>
    cases data with
    | nil => simp at hlen
    | cons v data =>
      obtain ⟨hb, hbs⟩ := List.nodup_cons.mp hnodup
      have hsame : Disk.SameBut bs (d.apply env (.write b v))
          ((List.zipWith Step.write bs data).foldl (Disk.apply env)
            (d.apply env (.write b v))) := by
        refine .foldl fun e he => ?_
        rw [← List.map_uncurry_zip_eq_zipWith] at he
        obtain ⟨⟨b', v'⟩, hbv, rfl⟩ := List.mem_map.mp he
        exact (List.of_mem_zip hbv).1
      simp only [List.zipWith_cons_cons, List.foldl_cons, List.map_cons, List.length_cons,
        List.take_succ_cons, ih hbs (by simpa using hlen), hsame.part b hb]
      simp [Disk.apply]

theorem read_writeSteps {retry : Bool} {tgt : RangeSet} {data : List Block} {d : Disk}
    (hnodup : tgt.toList.Nodup) (hlen : tgt.blocks ≤ data.length) :
    ((writeSteps retry tgt.ranges data).foldl (Disk.apply env) d).read tgt =
    data.take tgt.blocks := by
  rw [← RangeSet.length_toList] at hlen ⊢
  simp only [Disk.read, RangeSet.toList] at hnodup hlen ⊢
  generalize tgt.ranges = rs at hnodup hlen
  induction rs generalizing data d with
  | nil => simp
  | cons r rs ih =>
    simp only [List.flatMap_cons, List.nodup_append] at hnodup
    obtain ⟨hr, hrs, hdis⟩ := hnodup
    simp only [List.flatMap_cons, List.length_append, Range.length_toList] at hlen
    simp only [writeSteps, List.foldl_append, List.flatMap_cons, List.map_append,
      List.length_append]
    generalize (if retry then [Step.discard r] else []).foldl (Disk.apply env) d = d₁
    have hsame : Disk.SameBut (rs.flatMap Range.toList)
        ((List.zipWith Step.write (Range.toList r) data).foldl (Disk.apply env) d₁)
        ((writeSteps retry rs (data.drop (r.2 - r.1))).foldl (Disk.apply env)
          ((List.zipWith Step.write (Range.toList r) data).foldl (Disk.apply env) d₁)) :=
      .foldl touches_writeSteps
    rw [ih hrs (by rw [List.length_drop]; omega), List.map_congr_left fun b hb => hsame.part b
      fun hb' => hdis b hb b hb' rfl, part_zipWith_write hr (by rw [Range.length_toList]; omega),
      Range.length_toList, List.take_add]

/-! ## Sinks -/

theorem Block.bytes_injective : Function.Injective Block.bytes :=
  Function.LeftInverse.injective Block.ofBytes_bytes

theorem flatMap_bytes_inj {bs cs : List Block}
    (h : bs.flatMap Block.bytes = cs.flatMap Block.bytes) : bs = cs := by
  induction bs generalizing cs with
  | nil =>
    cases cs with
    | nil => rfl
    | cons c cs =>
      have := congrArg List.length h
      simp [BLOCKSIZE] at this
      omega
  | cons b bs ih =>
    cases cs with
    | nil =>
      have := congrArg List.length h
      simp [BLOCKSIZE] at this
    | cons c cs =>
      obtain ⟨hb, hbs⟩ := List.append_inj h (by simp)
      rw [Block.bytes_injective hb, ih hbs]

theorem Range.mem_addresses {r : Range} {a : Nat} :
    a ∈ Range.addresses r ↔ a / BLOCKSIZE ∈ BootableRecovery.Range.toList r := by
  rw [Range.addresses, List.mem_range'_1, BootableRecovery.Range.mem_toList,
    Nat.le_div_iff_mul_le BLOCKSIZE_pos, Nat.div_lt_iff_lt_mul BLOCKSIZE_pos, Nat.sub_mul]
  omega

theorem mem_addresses {tgt : RangeSet} {a : Nat} : a ∈ addresses tgt ↔
    a / BLOCKSIZE ∈ tgt.toList := by
  simp only [addresses, RangeSet.toList, List.mem_flatMap, Range.mem_addresses]

theorem Range.addresses_eq (r : Range) : Range.addresses r =
    (BootableRecovery.Range.toList r).flatMap fun b => List.range' (b * BLOCKSIZE) BLOCKSIZE := by
  simp only [Range.addresses, BootableRecovery.Range.toList]
  generalize r.2 - r.1 = n
  induction n with
  | zero => simp
  | succ n ih =>
    rw [List.range'_1_concat, List.flatMap_append, ← ih, Nat.succ_mul, ← List.range'_append_1]
    simp [Nat.add_mul]

theorem addresses_eq (tgt : RangeSet) :
    addresses tgt = tgt.toList.flatMap fun b => List.range' (b * BLOCKSIZE) BLOCKSIZE := by
  simp only [addresses, RangeSet.toList, List.flatMap_assoc]
  exact List.flatMap_congr fun r _ => Range.addresses_eq r

theorem nodup_addresses {tgt : RangeSet} (h : tgt.toList.Nodup) : (addresses tgt).Nodup := by
  rw [addresses_eq]
  refine List.nodup_flatMap.mpr ⟨fun b _ => List.nodup_range', ?_⟩
  refine h.imp fun {a b} hne => ?_
  simp only [Function.onFun, List.Disjoint, List.mem_range'_1, BLOCKSIZE]
  omega

/-- The byte at an address of the partition. -/
def Disk.byteAt (d : Disk) (a : Nat) : Option UInt8 :=
  (d.part (a / BLOCKSIZE)).bytes[a % BLOCKSIZE]?

theorem getElem?_overwriteAt {l xs : List α} {n j : Nat} (h : n + xs.length ≤ l.length) :
    (overwriteAt l n xs)[j]? = if n ≤ j ∧ j < n + xs.length then xs[j - n]? else l[j]? := by
  have hn : (l.take n).length = n := by rw [List.length_take]; omega
  simp only [overwriteAt, List.append_assoc, List.getElem?_append, hn, List.getElem?_take,
    List.getElem?_drop]
  split_ifs <;> first | rfl | omega | (congr 1; omega)

theorem byteAt_writeBytes {d : Disk} {b off a : Nat} {data : List UInt8}
    (h : off + data.length ≤ BLOCKSIZE) :
    (d.apply env (.writeBytes b off data)).byteAt a =
      if b * BLOCKSIZE + off ≤ a ∧ a < b * BLOCKSIZE + off + data.length
      then data[a - (b * BLOCKSIZE + off)]? else d.byteAt a := by
  have hlen : (overwriteAt (d.part b).bytes off data).length = BLOCKSIZE := by
    rw [length_overwriteAt (by simpa using h), Block.length_bytes]
  have hdiv := Nat.div_add_mod a BLOCKSIZE
  have hmod := Nat.mod_lt a BLOCKSIZE_pos
  by_cases hb : a / BLOCKSIZE = b
  · subst hb
    rw [Nat.mul_comm] at hdiv
    have hread := getElem?_overwriteAt (l := (d.part (a / BLOCKSIZE)).bytes) (j := a % BLOCKSIZE)
      (by simpa using h)
    simp only [Disk.byteAt, Disk.apply, Function.update_self, Block.bytes_ofBytes hlen, hread]
    generalize a / BLOCKSIZE * BLOCKSIZE = base at hdiv ⊢
    by_cases hin : off ≤ a % BLOCKSIZE ∧ a % BLOCKSIZE < off + data.length
    · have hsub : a % BLOCKSIZE - off = a - (base + off) := by omega
      rw [if_pos hin, if_pos (by omega), hsub]
    · rw [if_neg hin, if_neg (by omega)]
  · simp only [Disk.byteAt, Disk.apply, Function.update_of_ne hb]
    rw [if_neg]
    intro ha
    refine hb (Nat.div_eq_of_lt_le ?_ ?_)
    · omega
    · rw [Nat.succ_mul]
      omega

/-- The bytes so far are on the partition, and nothing outside the target has changed. -/
structure Filled (tgt : RangeSet) (d₀ : Disk) (done : List (Nat × UInt8)) (d : Disk) : Prop where
  same : Disk.SameBut tgt.toList d₀ d
  bytes : ∀ x ∈ done, d.byteAt x.1 = some x.2

theorem Filled.write (env : Env) {tgt : RangeSet} {d₀ d : Disk} {done : List (Nat × UInt8)}
    {b off : Nat}
    {data : List UInt8} {rest : List Nat} (hnodup : tgt.toList.Nodup) (hne : data ≠ [])
    (hoff : off + data.length ≤ BLOCKSIZE)
    (haddr : done.map Prod.fst ++ (List.range' (b * BLOCKSIZE + off) data.length ++ rest) =
      addresses tgt) (h : Filled tgt d₀ done d) :
    Filled tgt d₀ (done ++ (List.range' (b * BLOCKSIZE + off) data.length).zip data)
      (d.apply env (.writeBytes b off data)) := by
  have hdis : ∀ x ∈ done, x.1 ∉ List.range' (b * BLOCKSIZE + off) data.length := by
    intro x hx hmem
    have hnd := haddr ▸ nodup_addresses hnodup
    exact (List.nodup_append.mp hnd).2.2 x.1 (List.mem_map_of_mem hx) x.1
      (List.mem_append_left _ hmem) rfl
  have hb : b ∈ tgt.toList := by
    have hmem : b * BLOCKSIZE + off ∈ addresses tgt := by
      rw [← haddr]
      refine List.mem_append_right _ (List.mem_append_left _ ?_)
      have := List.length_pos_iff.mpr hne
      rw [List.mem_range'_1]
      omega
    have hdiv : (b * BLOCKSIZE + off) / BLOCKSIZE = b := by
      have := List.length_pos_iff.mpr hne
      refine Nat.div_eq_of_lt_le (by omega) ?_
      rw [Nat.succ_mul]
      omega
    rw [mem_addresses, hdiv] at hmem
    exact hmem
  refine ⟨h.same.trans (.apply hb), fun x hx => ?_⟩
  rw [byteAt_writeBytes hoff]
  rcases List.mem_append.mp hx with hx | hx
  · have := hdis x hx
    rw [List.mem_range'_1] at this
    rw [if_neg this, h.bytes x hx]
  · obtain ⟨i, hi⟩ := List.mem_iff_getElem?.mp hx
    obtain ⟨ha, hc⟩ := List.getElem?_zip_eq_some.mp hi
    obtain ⟨hi', ha⟩ := List.getElem?_eq_some_iff.mp ha
    rw [List.length_range'] at hi'
    rw [List.getElem_range'] at ha
    rw [← ha, if_pos (by omega), ← hc]
    congr 1
    omega

theorem Filled.discard (env : Env) {tgt : RangeSet} {d₀ d : Disk} {done : List (Nat × UInt8)}
    {r : Range}
    {rest : List Nat} (hnodup : tgt.toList.Nodup)
    (haddr : done.map Prod.fst ++ (Range.addresses r ++ rest) = addresses tgt)
    (h : Filled tgt d₀ done d) : Filled tgt d₀ done (d.apply env (.discard r)) := by
  have hr : ∀ b ∈ BootableRecovery.Range.toList r, b ∈ tgt.toList := by
    intro b hb
    have hdiv : b * BLOCKSIZE / BLOCKSIZE = b := Nat.mul_div_cancel _ (by decide)
    have hmem : b * BLOCKSIZE ∈ addresses tgt := by
      rw [← haddr]
      refine List.mem_append_right _ (List.mem_append_left _ ?_)
      rwa [Range.mem_addresses, hdiv]
    rwa [mem_addresses, hdiv] at hmem
  refine ⟨h.same.trans (.apply hr), fun x hx => ?_⟩
  have hx' : x.1 / BLOCKSIZE ∉ BootableRecovery.Range.toList r := by
    rw [← Range.mem_addresses]
    intro hmem
    have hnd := haddr ▸ nodup_addresses hnodup
    exact (List.nodup_append.mp hnd).2.2 x.1 (List.mem_map_of_mem hx) x.1
      (List.mem_append_left _ hmem) rfl
  have htouch : (Step.discard r).Touches (BootableRecovery.Range.toList r) := fun _ hb => hb
  rw [Disk.byteAt, htouch.part_apply hx']
  exact h.bytes x hx

theorem Filled.read {tgt : RangeSet} {d₀ d : Disk} {data : List Block}
    (hlen : data.length = tgt.blocks)
    (h : Filled tgt d₀ ((addresses tgt).zip (data.flatMap Block.bytes)) d) : d.read tgt = data := by
  refine flatMap_bytes_inj ?_
  refine List.map_injective_iff.mpr (Option.some_injective _) ?_
  have hbytes : (addresses tgt).map d.byteAt = ((d.read tgt).flatMap Block.bytes).map some := by
    rw [addresses_eq, Disk.read, List.flatMap_map, List.map_flatMap, List.map_flatMap]
    refine List.flatMap_congr fun b _ => List.ext_getElem (by simp) fun j hj _ => ?_
    simp only [List.length_map, List.length_range'] at hj
    have hdiv : (b * BLOCKSIZE + j) / BLOCKSIZE = b := by
      refine Nat.div_eq_of_lt_le (by omega) ?_
      rw [Nat.succ_mul]
      omega
    have hmod : (b * BLOCKSIZE + j) % BLOCKSIZE = j := by
      rw [Nat.mul_comm, Nat.mul_add_mod, Nat.mod_eq_of_lt hj]
    simp [Disk.byteAt, hdiv, hmod, hj]
  have hlen' : (data.flatMap Block.bytes).length = (addresses tgt).length := by
    simp [hlen]
  rw [← hbytes]
  refine List.ext_getElem (by simp [hlen]) fun j hj hj' => ?_
  simp only [List.length_map] at hj hj'
  have hz : ((addresses tgt)[j], (data.flatMap Block.bytes)[j]) ∈
      (addresses tgt).zip (data.flatMap Block.bytes) := by
    rw [List.mem_iff_getElem?]
    exact ⟨j, by rw [List.getElem?_zip_eq_some]; exact ⟨List.getElem?_eq_getElem hj,
      List.getElem?_eq_getElem hj'⟩⟩
  simpa using h.bytes _ hz

end BootableRecovery.BlockImg
