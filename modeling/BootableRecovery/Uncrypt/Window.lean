import BootableRecovery.Uncrypt.Uncrypt

/-!
# The ring of buffers

The blocks of the package are read to the tail of a ring of buffers and leave it at its head.
`Window` says where the ring is when some blocks were read, and the two loops keep it: at the end
the ranges are those of all blocks in order (`wholeWindow`), and on an encrypted file system the
device holds the package.
-/

namespace BootableRecovery.Uncrypt

/-! ## Calls -/

variable {package : Package} {encrypted : Bool} {s s' : State}

theorem bind_eq_ok {x : UncryptM α} {f : α → UncryptM β} {r : β × State} :
    (x >>= f) s = .ok r ↔ ∃ a t, x s = .ok (a, t) ∧ f a t = .ok r := by
  constructor
  · intro h
    cases hx : x s with
    | error e =>
      have : (x >>= f) s = .error e := by
        change (x s >>= fun p => f p.1 p.2) = _
        rw [hx]
        rfl
      rw [this] at h
      cases h
    | ok p =>
      have : (x >>= f) s = f p.1 p.2 := by
        change (x s >>= fun p => f p.1 p.2) = _
        rw [hx]
        rfl
      exact ⟨p.1, p.2, rfl, this ▸ h⟩
  · rintro ⟨a, t, hx, hf⟩
    change (x s >>= fun p => f p.1 p.2) = _
    rw [hx]
    exact hf

theorem pure_eq_ok {a b : α} : (pure a : UncryptM α) s = .ok (b, s') ↔ b = a ∧ s' = s := by
  constructor
  · intro h
    cases h
    exact ⟨rfl, rfl⟩
  · rintro ⟨rfl, rfl⟩
    rfl

theorem get_eq_ok {t : State} : (get : UncryptM State) s = .ok (t, s') ↔ s = t ∧ s = s' := by
  constructor
  · intro h
    cases h
    exact ⟨rfl, rfl⟩
  · rintro ⟨rfl, rfl⟩
    rfl

theorem modify_eq_ok {f : State → State} {u : Unit} :
    (modify f : UncryptM Unit) s = .ok (u, s') ↔ s' = f s := by
  constructor
  · intro h
    cases h
    rfl
  · rintro rfl
    rfl

theorem not_throw_eq_ok {e : Failure} {r : α × State} : ¬(throw e : UncryptM α) s = .ok r :=
  fun h => by cases h

/-- The state has made other numbers of calls, and is the same otherwise. -/
def State.Calls (s s' : State) : Prop :=
  ∃ calls ioctls, s' = { s with calls := calls, ioctls := ioctls }

theorem State.Calls.refl (s : State) : s.Calls s := ⟨s.calls, s.ioctls, rfl⟩

theorem State.Calls.trans {t : State} (h : s.Calls t) (h' : t.Calls s') : s.Calls s' := by
  obtain ⟨c, i, rfl⟩ := h
  obtain ⟨c', i', rfl⟩ := h'
  exact ⟨c', i', rfl⟩

theorem attempt_eq_ok {code : UncryptErrorCode} {u : Unit}
    (h : attempt package code s = .ok (u, s')) : s.Calls s' := by
  unfold attempt at h
  split at h
  · cases h
    exact ⟨s.calls + 1, s.ioctls, rfl⟩
  · cases h

theorem onlyIf_eq_ok {cond : Prop} [Decidable cond] {act : UncryptM Unit} {u : Unit} :
    onlyIf cond act s = .ok (u, s') ↔ if cond then act s = .ok (u, s') else s' = s := by
  unfold onlyIf
  split
  · rfl
  · rw [pure_eq_ok]
    exact and_iff_right rfl

theorem fits_eq_ok {u : Unit} (h : fits bits value s = .ok (u, s')) :
    value < 2 ^ (bits - 1) ∧ s' = s := by
  unfold fits at h
  split at h
  · cases h
    exact ⟨‹_›, rfl⟩
  · cases h

theorem fibmap_eq_ok {found : Option Nat} (h : fibmap package block s = .ok (found, s')) :
    found = package.fibmap s.ioctls block ∧ s.Calls s' := by
  cases h
  exact ⟨rfl, s.calls, s.ioctls + 1, rfl⟩

/-! ## Ranges -/

/-- The ranges after the blocks were added one by one. -/
def rangesOf (blocks : List Nat) : List (Nat × Nat) := blocks.foldl addBlockToRanges []

/-- The blocks of ranges, in order. -/
def expand (rs : List (Nat × Nat)) : List Nat := rs.flatMap fun r => List.range' r.1 (r.2 - r.1)

theorem rangesOf_concat (blocks : List Nat) (b : Nat) :
    rangesOf (blocks ++ [b]) = addBlockToRanges (rangesOf blocks) b := by
  rw [rangesOf, List.foldl_append, ← rangesOf]
  rfl

theorem addBlockToRanges_cases (rs : List (Nat × Nat)) (b : Nat) :
    (∃ rs' start, rs = rs' ++ [(start, b)] ∧ addBlockToRanges rs b = rs' ++ [(start, b + 1)]) ∨
      ((∀ r ∈ rs.getLast?, r.2 ≠ b) ∧ addBlockToRanges rs b = rs ++ [(b, b + 1)]) := by
  induction rs, b using addBlockToRanges.induct with
  | case1 b => exact Or.inr ⟨by simp, rfl⟩
  | case2 r =>
    exact Or.inl ⟨[], r.1, rfl, if_pos rfl⟩
  | case3 b r hb =>
    exact Or.inr ⟨by simpa using fun h => hb h.symm, if_neg hb⟩
  | case4 r rs b hne ih =>
    obtain ⟨r', rs'', rfl⟩ := List.exists_cons_of_ne_nil fun h => hne h
    have hcons : addBlockToRanges (r :: r' :: rs'') b = r :: addBlockToRanges (r' :: rs'') b := rfl
    rw [hcons]
    rcases ih with ⟨rs', start, hrs, h⟩ | ⟨hlast, h⟩
    · exact Or.inl ⟨r :: rs', start, by rw [hrs]; rfl, by rw [h]; rfl⟩
    · refine Or.inr ⟨?_, by rw [h]; rfl⟩
      rwa [List.getLast?_cons_cons]

theorem nonempty_addBlockToRanges {rs : List (Nat × Nat)} (h : ∀ r ∈ rs, r.1 < r.2) (b : Nat) :
    ∀ r ∈ addBlockToRanges rs b, r.1 < r.2 := by
  rcases addBlockToRanges_cases rs b with ⟨rs', start, rfl, hadd⟩ | ⟨-, hadd⟩ <;> rw [hadd] <;>
    intro r hr <;>
    rcases List.mem_append.mp hr with hr | hr
  · exact h r (List.mem_append_left _ hr)
  · have := h (start, b) (List.mem_append_right _ (List.mem_singleton_self _))
    cases List.mem_singleton.mp hr
    exact Nat.lt_succ_of_lt this
  · exact h r hr
  · cases List.mem_singleton.mp hr
    exact Nat.lt_succ_self b

theorem expand_addBlockToRanges {rs : List (Nat × Nat)} (h : ∀ r ∈ rs, r.1 < r.2) (b : Nat) :
    expand (addBlockToRanges rs b) = expand rs ++ [b] := by
  rcases addBlockToRanges_cases rs b with ⟨rs', start, rfl, hadd⟩ | ⟨-, hadd⟩
  · have hlt : start < b := h (start, b) (List.mem_append_right _ (List.mem_singleton_self _))
    rw [hadd, expand, expand, List.flatMap_append, List.flatMap_append, List.append_assoc]
    congr 1
    rw [List.flatMap_singleton, List.flatMap_singleton, Nat.sub_add_comm hlt.le, List.range'_concat,
      Nat.one_mul, Nat.add_sub_cancel' hlt.le]
  · rw [hadd, expand, expand, List.flatMap_append, List.flatMap_singleton, Nat.add_sub_cancel_left]
    rfl

theorem nonempty_rangesOf (blocks : List Nat) : ∀ r ∈ rangesOf blocks, r.1 < r.2 := by
  induction blocks using List.reverseRecOn with
  | nil =>
    intro r hr
    cases hr
  | append_singleton blocks b ih =>
    rw [rangesOf_concat]
    exact nonempty_addBlockToRanges ih b

theorem expand_rangesOf (blocks : List Nat) : expand (rangesOf blocks) = blocks := by
  induction blocks using List.reverseRecOn with
  | nil => rfl
  | append_singleton blocks b ih =>
    rw [rangesOf_concat, expand_addBlockToRanges (nonempty_rangesOf blocks), ih]

/-! ## The window -/

/-- The number of blocks of the package. -/
def Package.blocks (package : Package) : Nat := (package.data.length - 1) / package.blksize + 1

/-- A block of the package; the last one may be shorter than the others. -/
def Package.block (package : Package) (k : Nat) : List UInt8 :=
  (package.data.drop (k * package.blksize)).take package.blksize

/-- What is looked up for a block is its block on the device. -/
def Package.Finds (package : Package) (m : Nat → Nat) : Prop :=
  ∀ k < package.blocks, ∀ s found s', findBlock package k s = .ok (found, s') →
  found = m k ∧ s.Calls s'

theorem Package.lt_blocks_iff (hdata : 0 < package.data.length) (hblk : 0 < package.blksize) :
    k < package.blocks ↔ k * package.blksize < package.data.length := by
  rw [Package.blocks, Nat.lt_succ_iff, Nat.le_div_iff_mul_le hblk]
  omega

theorem Package.length_block (package : Package) (k : Nat) :
    (package.block k).length = min package.blksize (package.data.length - k * package.blksize) := by
  rw [Package.block, List.length_take, List.length_drop]

section
variable {m : Nat → Nat}

theorem writeAtOffset_eq_ok {u : Unit} (h : writeAtOffset package offset bytes s = .ok (u, s')) :
    ∃ calls ioctls, s' = { s with
      calls := calls, ioctls := ioctls, device := s.device.write offset bytes
      accesses := s.accesses ++ [.write offset bytes] } := by
  obtain ⟨_, _, hattempt, h₁⟩ := bind_eq_ok.mp h
  obtain ⟨calls, ioctls, rfl⟩ := attempt_eq_ok hattempt
  exact ⟨calls, ioctls, modify_eq_ok.mp h₁⟩

theorem saveHead_eq_ok {u : Unit} (h : saveHead package block s = .ok (u, s')) :
    ∃ calls ioctls, s' = { s with
      calls := calls, ioctls := ioctls
      device := s.device.write (package.blksize * block) (s.buffers.getD s.head [])
      accesses :=
  s.accesses ++ [.write (package.blksize * block) (s.buffers.getD s.head [])] } := by
  obtain ⟨_, _, hfits, h₁⟩ := bind_eq_ok.mp h
  obtain ⟨-, rfl⟩ := fits_eq_ok hfits
  obtain ⟨_, _, hget, h₂⟩ := bind_eq_ok.mp h₁
  obtain ⟨rfl, rfl⟩ := get_eq_ok.mp hget
  exact writeAtOffset_eq_ok h₂

variable (package encrypted) in
/-- The state after the head buffer was written out to a block. -/
def State.afterHead (s : State) (block : Nat) : State :=
  let bytes := s.buffers.getD s.head []
  { s with
    ranges := addBlockToRanges s.ranges block, head := (s.head + 1) % WINDOW_SIZE, headBlock :=
      s.headBlock + 1
    device := if encrypted then s.device.write (package.blksize * block) bytes else s.device
    accesses := if encrypted then s.accesses ++ [.write (package.blksize * block) bytes]
      else s.accesses }

theorem writeOutHead_eq_ok {u : Unit}
    (hfound : ∀ found t, findBlock package s.headBlock s = .ok (found, t) →
      found = m s.headBlock ∧ s.Calls t) (h : writeOutHead package encrypted s = .ok (u, s')) :
    m s.headBlock + 1 < 2 ^ 31 ∧ s.headBlock + 1 < 2 ^ 31 ∧
      (s.afterHead package encrypted (m s.headBlock)).Calls s' := by
  obtain ⟨_, _, hget, h₁⟩ := bind_eq_ok.mp h
  obtain ⟨rfl, rfl⟩ := get_eq_ok.mp hget
  obtain ⟨block, t, hblock, h₂⟩ := bind_eq_ok.mp h₁
  obtain ⟨rfl, c, i, rfl⟩ := hfound _ _ hblock
  obtain ⟨_, _, hfits, h₃⟩ := bind_eq_ok.mp h₂
  obtain ⟨hsmall, rfl⟩ := fits_eq_ok hfits
  obtain ⟨_, _, hranges, h₄⟩ := bind_eq_ok.mp h₃
  cases modify_eq_ok.mp hranges
  obtain ⟨_, t, hsave, h₅⟩ := bind_eq_ok.mp h₄
  obtain ⟨_, _, hfits, h₆⟩ := bind_eq_ok.mp h₅
  obtain ⟨hfew, rfl⟩ := fits_eq_ok hfits
  cases modify_eq_ok.mp h₆
  refine ⟨hsmall, hfew, ?_⟩
  cases encrypted with
  | false =>
    cases onlyIf_eq_ok.mp hsave
    exact ⟨c, i, rfl⟩
  | true =>
    obtain ⟨c', i', rfl⟩ := saveHead_eq_ok hsave
    exact ⟨c', i', rfl⟩

variable (package encrypted) in
/-- The state after the next block was read to the tail buffer. -/
def State.afterTail (s : State) : State :=
  let toRead := min package.blksize (package.data.length - s.pos)
  if encrypted then { s with
    buffers :=
      s.buffers.modify s.tail fun buffer =>
        (package.data.drop s.pos).take toRead ++ buffer.drop toRead
    accesses := s.accesses ++ [.read s.pos toRead], pos := s.pos + toRead, tail :=
      (s.tail + 1) % WINDOW_SIZE }
  else { s with pos := s.pos + package.blksize, tail := (s.tail + 1) % WINDOW_SIZE }

theorem readNext_eq_ok {u : Unit} (h : readNext package encrypted s = .ok (u, s')) :
    (s.afterTail package encrypted).Calls s' := by
  obtain ⟨_, _, hfill, h₁⟩ := bind_eq_ok.mp h
  obtain ⟨_, _, hskip, h₂⟩ := bind_eq_ok.mp h₁
  cases modify_eq_ok.mp h₂
  cases encrypted with
  | false =>
    cases onlyIf_eq_ok.mp hfill
    cases modify_eq_ok.mp (onlyIf_eq_ok.mp hskip)
    exact State.Calls.refl _
  | true =>
    obtain ⟨_, _, hattempt, hread⟩ := bind_eq_ok.mp (onlyIf_eq_ok.mp hfill)
    obtain ⟨calls, ioctls, rfl⟩ := attempt_eq_ok hattempt
    cases modify_eq_ok.mp hread
    cases onlyIf_eq_ok.mp hskip
    exact ⟨calls, ioctls, rfl⟩

end

variable (package encrypted) in
/-- The window after some blocks were read: those from `headBlock` on are in the ring, and the
blocks before are in the ranges. -/
structure Window (m : Nat → Nat) (dev : BlockDevice) (read : Nat) (s : State) : Prop where
  head : s.head = s.headBlock % WINDOW_SIZE
  tail : s.tail = read % WINDOW_SIZE
  le : s.headBlock ≤ read
  lt : read < s.headBlock + WINDOW_SIZE
  inFile : read ≤ package.blocks
  pos : s.pos = if encrypted then min (read * package.blksize) package.data.length
    else read * package.blksize
  ranges : s.ranges = rangesOf ((List.range s.headBlock).map m)
  small : ∀ k < s.headBlock, m k + 1 < 2 ^ 31
  few : s.headBlock < 2 ^ 31
  device : encrypted = false → s.device = dev
  buffers : encrypted = true → s.buffers.length = WINDOW_SIZE ∧
    (∀ b ∈ s.buffers, b.length = package.blksize) ∧ ∀ k, s.headBlock ≤ k → k < read →
    ∀ b ∈ s.buffers[k % WINDOW_SIZE]?, package.block k <+: b
  written : encrypted = true → (∀ i < package.blocks, ∀ j < package.blocks, m i = m j → i = j) →
    ∀ k < s.headBlock, s.device.read (package.blksize * m k) (package.block k).length =
    package.block k

section
variable {m : Nat → Nat} {dev : BlockDevice} {read : Nat}

theorem Window.calls (hw : Window package encrypted m dev read s) (h : s.Calls s') :
    Window package encrypted m dev read s' := by
  obtain ⟨c, i, rfl⟩ := h
  exact ⟨hw.head, hw.tail, hw.le, hw.lt, hw.inFile, hw.pos, hw.ranges, hw.small, hw.few, hw.device,
    hw.buffers, hw.written⟩

theorem Window.afterHead (hw : Window package encrypted m dev read s)
    (hlt : s.headBlock < read) (hsmall : m s.headBlock + 1 < 2 ^ 31)
    (hfew : s.headBlock + 1 < 2 ^ 31) :
    Window package encrypted m dev read (s.afterHead package encrypted (m s.headBlock)) where
  head := by
    change (s.head + 1) % WINDOW_SIZE = (s.headBlock + 1) % WINDOW_SIZE
    rw [hw.head, Nat.mod_add_mod]
  tail := hw.tail
  le := hlt
  lt := Nat.lt_of_lt_of_le hw.lt (Nat.add_le_add_right (Nat.le_succ _) _)
  inFile := hw.inFile
  pos := hw.pos
  ranges := by
    change addBlockToRanges s.ranges (m s.headBlock) =
      rangesOf ((List.range (s.headBlock + 1)).map m)
    rw [List.range_succ, List.map_append, List.map_singleton, rangesOf_concat, hw.ranges]
  small := fun k hk => by
    rcases Nat.lt_succ_iff_lt_or_eq.mp hk with hk | rfl
    · exact hw.small k hk
    · exact hsmall
  few := hfew
  device := fun h => by
    cases h
    exact hw.device rfl
  buffers := fun h => by
    obtain ⟨hlen, hall, hin⟩ := hw.buffers h
    exact ⟨hlen, hall, fun k hk => hin k (Nat.le_of_succ_le hk)⟩
  written := fun h hinj k hk => by
    cases h
    obtain ⟨hlen, hall, hin⟩ := hw.buffers rfl
    have hbuf : s.head < s.buffers.length := by
      rw [hlen, hw.head]
      exact Nat.mod_lt _ (by decide)
    -- the head buffer starts with the block
    have hbytes : package.block s.headBlock <+: s.buffers.getD s.head [] := by
      refine hin s.headBlock le_rfl hlt _ ?_
      rw [← hw.head, List.getD_eq_getElem _ _ hbuf, List.getElem?_eq_getElem hbuf]
      rfl
    have hbytesLen : (s.buffers.getD s.head []).length = package.blksize := by
      rw [List.getD_eq_getElem _ _ hbuf]
      exact hall _ (List.getElem_mem hbuf)
    change (s.device.write _ (s.buffers.getD s.head [])).read _ _ = _
    obtain ⟨rest, hrest⟩ := hbytes
    rcases Nat.lt_succ_iff_lt_or_eq.mp hk with hk | rfl
    · -- other blocks lie elsewhere
      have hne : m k ≠ m s.headBlock := fun heq => by
        have := hinj k (by have := hw.inFile; omega) s.headBlock (by have := hw.inFile; omega) heq
        omega
      rw [BlockDevice.read_write_of_disjoint, hw.written rfl hinj k hk]
      rw [hbytesLen, package.length_block]
      rcases Nat.lt_or_gt_of_ne hne with hne | hne
      · have := Nat.mul_le_mul_left package.blksize (Nat.succ_le_of_lt hne)
        rw [Nat.mul_succ] at this
        omega
      · have := Nat.mul_le_mul_left package.blksize (Nat.succ_le_of_lt hne)
        rw [Nat.mul_succ] at this
        omega
    · rw [← hrest, BlockDevice.write_append, BlockDevice.read_write_of_disjoint (Or.inl le_rfl),
        BlockDevice.read_write_self rfl]

theorem Window.afterTail (hdata : 0 < package.data.length) (hblk : 0 < package.blksize)
    (hw : Window package encrypted m dev read s) (hlt : read < package.blocks)
    (hroom : read + 1 < s.headBlock + WINDOW_SIZE) :
    Window package encrypted m dev (read + 1) (s.afterTail package encrypted) := by
  have htail :
      (s.tail + 1) % WINDOW_SIZE = (read + 1) % WINDOW_SIZE := by rw [hw.tail, Nat.mod_add_mod]
  cases encrypted with
  | false =>
    refine ⟨hw.head, htail, Nat.le_succ_of_le hw.le, hroom, hlt, ?_, hw.ranges, hw.small, hw.few,
      hw.device, (nomatch ·), (nomatch ·)⟩
    change s.pos + package.blksize = _
    rw [hw.pos, if_neg (by decide), if_neg (by decide), Nat.succ_mul]
  | true =>
    have hinFile : read * package.blksize < package.data.length :=
      (package.lt_blocks_iff hdata hblk).mp hlt
    have hpos : s.pos = read * package.blksize := by
      rw [hw.pos, if_pos rfl, Nat.min_eq_left hinFile.le]
    obtain ⟨hlen, hall, hin⟩ := hw.buffers rfl
    refine ⟨hw.head, htail, Nat.le_succ_of_le hw.le, hroom, hlt, ?_, hw.ranges, hw.small, hw.few,
      (nomatch ·), ?_, hw.written⟩
    · change s.pos + min package.blksize (package.data.length - s.pos) = _
      rw [if_pos rfl, hpos, Nat.succ_mul]
      omega
    · intro _
      change (s.buffers.modify s.tail _).length = _ ∧ (∀ b ∈ s.buffers.modify s.tail _, _) ∧
        ∀ k, s.headBlock ≤ k → k < read + 1 → ∀ b ∈ (s.buffers.modify s.tail _)[k % WINDOW_SIZE]?, _
      have htake :
          (package.data.drop s.pos).take (min package.blksize (package.data.length - s.pos)) =
          package.block read := by
        rw [Package.block, hpos, ← List.length_drop, ← List.take_eq_take_min]
      rw [htake, hpos, ← package.length_block]
      refine ⟨by rw [List.length_modify, hlen], fun b hb => ?_, fun k hk hkr b hb => ?_⟩
      · obtain ⟨i, hi, rfl⟩ := List.mem_iff_getElem.mp hb
        rw [List.length_modify] at hi
        have hi' := hall _ (List.getElem_mem hi)
        rw [List.getElem_modify]
        split
        · rw [List.length_append, List.length_drop, hi', package.length_block]
          omega
        · exact hi'
      · rw [List.getElem?_modify, Option.map_eq_map, Option.mem_map] at hb
        obtain ⟨b, hb, rfl⟩ := hb
        rcases Nat.lt_succ_iff_lt_or_eq.mp hkr with hkr | rfl
        · have hne : s.tail ≠ k % WINDOW_SIZE := by
            have := hw.lt
            rw [hw.tail]
            unfold WINDOW_SIZE at this ⊢
            omega
          rw [if_neg hne]
          exact hin k hk hkr b hb
        · rw [if_pos hw.tail]
          exact List.prefix_append _ _

/-- Only the loops' own variables and the device have changed. -/
structure State.SameMap (s s' : State) : Prop where
  map : s'.map = s.map
  tmp : s'.tmp = s.tmp
  offset : s'.offset = s.offset

theorem State.SameMap.refl (s : State) : s.SameMap s := ⟨rfl, rfl, rfl⟩

theorem State.SameMap.trans {t : State} (h : s.SameMap t) (h' : t.SameMap s') : s.SameMap s' :=
  ⟨h'.map.trans h.map, h'.tmp.trans h.tmp, h'.offset.trans h.offset⟩

theorem State.Calls.sameMap (h : s.Calls s') : s.SameMap s' := by
  obtain ⟨c, i, rfl⟩ := h
  exact ⟨rfl, rfl, rfl⟩

variable (package encrypted m dev) in
/-- What is looked up for a block is its block on the device as long as `P` holds, and that the
loops keep. -/
structure Package.FindsWhile (P : (read : Nat) → State → Prop) : Prop where
  found : ∀ read s, Window package encrypted m dev read s → P read s → s.headBlock < read →
    ∀ found t, findBlock package s.headBlock s = .ok (found, t) → found = m s.headBlock ∧ s.Calls t
  head : ∀ read s s' u, Window package encrypted m dev read s → P read s → s.headBlock < read →
    writeOutHead package encrypted s = .ok (u, s') → P read s'
  tail : ∀ read s s' u, Window package encrypted m dev read s → P read s → read < package.blocks →
    readNext package encrypted s = .ok (u, s') → P (read + 1) s'

theorem Package.Finds.findsWhile (h : package.Finds m) :
    package.FindsWhile encrypted m dev fun _ _ => True where
  found _ s hw _ hlt found t := h s.headBlock (Nat.lt_of_lt_of_le hlt hw.inFile) s found t
  head _ _ _ _ _ _ _ _ := trivial
  tail _ _ _ _ _ _ _ _ := trivial

variable {P : (read : Nat) → State → Prop}

theorem writeOutHead_window (hfind : package.FindsWhile encrypted m dev P)
    (hw : Window package encrypted m dev read s) (hp : P read s)
    (hlt : s.headBlock < read) {u : Unit} (h : writeOutHead package encrypted s = .ok (u, s')) :
    Window package encrypted m dev read s' ∧ P read s' ∧ s'.headBlock = s.headBlock + 1 ∧
    s.SameMap s' := by
  obtain ⟨hsmall, hfew, hcalls⟩ := writeOutHead_eq_ok (hfind.found read s hw hp hlt) h
  have hsame : s.SameMap (s.afterHead package encrypted (m s.headBlock)) := ⟨rfl, rfl, rfl⟩
  refine ⟨(hw.afterHead hlt hsmall hfew).calls hcalls, hfind.head read s s' u hw hp hlt h, ?_,
    hsame.trans hcalls.sameMap⟩
  obtain ⟨c, i, rfl⟩ := hcalls
  rfl

theorem Window.full_iff (hw : Window package encrypted m dev read s) :
    (s.tail + 1) % WINDOW_SIZE = s.head ↔ read + 1 = s.headBlock + WINDOW_SIZE := by
  have hle := hw.le
  have hlt := hw.lt
  rw [hw.head, hw.tail, Nat.mod_add_mod]
  unfold WINDOW_SIZE at hlt ⊢
  omega

theorem Window.empty_iff (hw : Window package encrypted m dev read s) : s.head = s.tail ↔
    s.headBlock = read := by
  have hle := hw.le
  have hlt := hw.lt
  rw [hw.head, hw.tail]
  unfold WINDOW_SIZE at hlt ⊢
  omega

theorem Window.pos_lt_iff (hdata : 0 < package.data.length) (hblk : 0 < package.blksize)
    (hw : Window package encrypted m dev read s) : s.pos < package.data.length ↔
    read < package.blocks := by
  rw [package.lt_blocks_iff hdata hblk, hw.pos]
  split <;> omega

theorem readLoop_window (hdata : 0 < package.data.length) (hblk : 0 < package.blksize)
    (hfind : package.FindsWhile encrypted m dev P) {fuel : Nat} {u : Unit}
    (hw : Window package encrypted m dev read s) (hp : P read s)
    (hfuel : package.blocks ≤ read + fuel) (h : readLoop package encrypted fuel s = .ok (u, s')) :
    Window package encrypted m dev package.blocks s' ∧ P package.blocks s' ∧ s.SameMap s' := by
  induction fuel generalizing read s with
  | zero =>
    obtain ⟨-, rfl⟩ := pure_eq_ok.mp h
    have := hw.inFile
    obtain rfl : read = package.blocks := by omega
    exact ⟨hw, hp, State.SameMap.refl _⟩
  | succ fuel ih =>
    obtain ⟨_, _, hget, h₁⟩ := bind_eq_ok.mp h
    obtain ⟨rfl, rfl⟩ := get_eq_ok.mp hget
    rw [onlyIf_eq_ok] at h₁
    by_cases hlt : s.pos < package.data.length
    · rw [if_pos hlt] at h₁
      rw [hw.pos_lt_iff hdata hblk] at hlt
      obtain ⟨_, t, hhead, h₂⟩ := bind_eq_ok.mp h₁
      obtain ⟨_, t', htail, h₃⟩ := bind_eq_ok.mp h₂
      -- there is room for a block
      have hroom : Window package encrypted m dev read t ∧ P read t ∧
          read + 1 < t.headBlock + WINDOW_SIZE ∧ s.SameMap t := by
        rw [onlyIf_eq_ok] at hhead
        split at hhead
        · rename_i hfull
          rw [hw.full_iff] at hfull
          obtain ⟨hw', hp', hblock, hsame⟩ :=
            writeOutHead_window hfind hw hp (by unfold WINDOW_SIZE at hfull; omega) hhead
          exact ⟨hw', hp', by omega, hsame⟩
        · rename_i hfull
          rw [hw.full_iff] at hfull
          subst hhead
          exact ⟨hw, hp, Nat.lt_of_le_of_ne hw.lt hfull, State.SameMap.refl _⟩
      obtain ⟨hwt, hpt, hroom, hsame⟩ := hroom
      have hcalls := readNext_eq_ok htail
      have hpt' := hfind.tail read t t' _ hwt hpt hlt htail
      obtain ⟨hw', hp', hsame'⟩ :=
        ih ((hwt.afterTail hdata hblk hlt hroom).calls hcalls) hpt' (by omega) h₃
      refine ⟨hw', hp', hsame.trans (State.SameMap.trans ?_ (hcalls.sameMap.trans hsame'))⟩
      unfold State.afterTail
      split <;> exact ⟨rfl, rfl, rfl⟩
    · rw [if_neg hlt] at h₁
      rw [hw.pos_lt_iff hdata hblk] at hlt
      subst h₁
      have := hw.inFile
      obtain rfl : read = package.blocks := by omega
      exact ⟨hw, hp, State.SameMap.refl _⟩

theorem drainLoop_window (hfind : package.FindsWhile encrypted m dev P) {fuel : Nat} {u : Unit}
    (hw : Window package encrypted m dev read s) (hp : P read s) (hfuel : read ≤ s.headBlock + fuel)
    (h : drainLoop package encrypted fuel s = .ok (u, s')) :
    Window package encrypted m dev read s' ∧ P read s' ∧ s'.headBlock = read ∧ s.SameMap s' := by
  induction fuel generalizing s with
  | zero =>
    obtain ⟨-, rfl⟩ := pure_eq_ok.mp h
    exact ⟨hw, hp, Nat.le_antisymm hw.le hfuel, State.SameMap.refl _⟩
  | succ fuel ih =>
    obtain ⟨_, _, hget, h₁⟩ := bind_eq_ok.mp h
    obtain ⟨rfl, rfl⟩ := get_eq_ok.mp hget
    rw [onlyIf_eq_ok] at h₁
    split at h₁
    · rename_i hne
      rw [ne_eq, hw.empty_iff] at hne
      obtain ⟨_, t, hhead, h₂⟩ := bind_eq_ok.mp h₁
      obtain ⟨hwt, hpt, hblock, hsame⟩ :=
        writeOutHead_window hfind hw hp (Nat.lt_of_le_of_ne hw.le hne) hhead
      obtain ⟨hw', hp', hread, hsame'⟩ := ih hwt hpt (by omega) h₂
      exact ⟨hw', hp', hread, hsame.trans hsame'⟩
    · rename_i heq
      subst h₁
      exact ⟨hw, hp, hw.empty_iff.mp (not_not.mp heq), State.SameMap.refl _⟩

end

end BootableRecovery.Uncrypt
