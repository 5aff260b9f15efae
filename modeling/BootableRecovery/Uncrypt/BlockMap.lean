import BootableRecovery.Uncrypt.Window

/-!
# The block map is read back

A run of `produce_block_map` that returns 0 leaves the map text (`mapText`) in the map file, and
behind it what an earlier temporary file had from there on. `MapBlockFile` gives the package back if
and only if that is white space and each range starts on a page, in the file and on the device
(`produceBlockMap_givesBack_iff`).
-/

namespace BootableRecovery.Uncrypt

variable {package : Package} {encrypted f2fs : Bool} {s s' : State} {m : Nat → Nat}

/-! ## What is written -/

/-- A map: the device, the sizes, the number of ranges and the ranges. -/
def mapText (blkDev : Text) (size blksize : Nat) (ranges : List (Nat × Nat)) : Text :=
  header blkDev size blksize ++ (toText ranges.length ++ ['\n']) ++ ranges.flatMap rangeLine

/-- The temporary file starts with a text, and the rest of it is old. -/
structure State.Wrote (old text : Text) (s : State) : Prop where
  tmp : s.tmp = some (text ++ old.drop text.length)
  offset : s.offset = text.length

theorem State.Wrote.congr {old text : Text} (hw : s.Wrote old text) (h : s.SameMap s') :
    s'.Wrote old text :=
  ⟨h.tmp.trans hw.tmp, h.offset.trans hw.offset⟩

theorem writeString_eq_ok {old text w : Text} {u : Unit} (hw : s.Wrote old text)
    (h : writeString package w s = .ok (u, s')) :
    s'.Wrote old (text ++ w) ∧ s'.device = s.device ∧ s'.ranges = s.ranges := by
  obtain ⟨_, _, hattempt, h₁⟩ := bind_eq_ok.mp h
  obtain ⟨calls, ioctls, rfl⟩ := attempt_eq_ok hattempt
  cases modify_eq_ok.mp h₁
  refine ⟨⟨?_, ?_⟩, rfl, rfl⟩
  · change some ((s.tmp.getD []).take s.offset ++ w ++
      (s.tmp.getD []).drop (s.offset + w.length)) = _
    rw [hw.tmp, hw.offset, Option.getD_some, List.take_left, List.drop_append, List.drop_drop,
      List.drop_eq_nil_of_le (Nat.le_add_right _ _), List.nil_append, Nat.add_sub_cancel_left,
      List.length_append]
  · change s.offset + w.length = _
    rw [hw.offset, List.length_append]

theorem writeRanges_eq_ok {old text : Text} {rs : List (Nat × Nat)} {u : Unit}
    (hw : s.Wrote old text) (h : writeRanges package rs s = .ok (u, s')) :
    s'.Wrote old (text ++ rs.flatMap rangeLine) ∧ s'.device = s.device := by
  induction rs generalizing s text with
  | nil =>
    obtain ⟨-, rfl⟩ := pure_eq_ok.mp h
    exact ⟨by rwa [List.flatMap_nil, List.append_nil], rfl⟩
  | cons r rs ih =>
    obtain ⟨_, t, hline, h₁⟩ := bind_eq_ok.mp h
    obtain ⟨hwt, hdev, -⟩ := writeString_eq_ok hw hline
    obtain ⟨hw', hdev'⟩ := ih hwt h₁
    rw [List.append_assoc, ← List.flatMap_cons] at hw'
    exact ⟨hw', hdev'.trans hdev⟩

theorem Window.start (hblocks : s.headBlock = 0) (hhead : s.head = 0) (htail : s.tail = 0)
    (hpos : s.pos = 0) (hranges : s.ranges = []) (hbuffers : encrypted = true →
      s.buffers = List.replicate WINDOW_SIZE (List.replicate package.blksize 0)) :
    Window package encrypted m s.device 0 s where
  head := by rw [hhead, hblocks, Nat.zero_mod]
  tail := by rw [htail, Nat.zero_mod]
  le := hblocks.le
  lt := by
    rw [hblocks]
    decide
  inFile := Nat.zero_le _
  pos := by
    rw [hpos]
    split <;> simp
  ranges := by
    rw [hranges, hblocks]
    rfl
  small := fun k hk => absurd hk (by rw [hblocks]; exact Nat.not_lt_zero k)
  few := by
    rw [hblocks]
    decide
  device := fun _ => rfl
  buffers := fun h => by
    rw [hbuffers h]
    refine ⟨List.length_replicate, fun b hb => ?_, fun k _ hk => absurd hk (Nat.not_lt_zero k)⟩
    rw [List.eq_of_mem_replicate hb, List.length_replicate]
  written := fun _ _ k hk => absurd hk (by rw [hblocks]; exact Nat.not_lt_zero k)

/-- The ranges of the package. -/
def Package.ranges (package : Package) (m : Nat → Nat) : List (Nat × Nat) :=
  rangesOf ((List.range package.blocks).map m)

/-- The blocks of the package are on the device. -/
def Package.StoredOn (package : Package) (m : Nat → Nat) (dev : BlockDevice) : Prop :=
  ∀ k < package.blocks, dev.read (package.blksize * m k) (package.block k).length = package.block k

variable (package encrypted m) in
/-- What a run leaves that returned 0: the map text and what was behind it, and the device. -/
structure Produced (blkDev : Text) (s s' : State) : Prop where
  map : s'.map = some (mapText blkDev package.data.length package.blksize (package.ranges m) ++
    (s.tmp.getD []).drop
    (mapText blkDev package.data.length package.blksize (package.ranges m)).length)
  small : ∀ k < package.blocks, m k + 1 < 2 ^ 31
  device : encrypted = false → s'.device = s.device
  written : encrypted = true → (∀ i < package.blocks, ∀ j < package.blocks, m i = m j → i = j) →
    package.StoredOn m s'.device

theorem openMap_eq_ok {blkDev : Text} {u : Unit} (h : openMap package blkDev s = .ok (u, s')) :
    s'.Wrote (s.tmp.getD []) (header blkDev package.data.length package.blksize) ∧
    s'.device = s.device := by
  obtain ⟨_, _, hremove, h₁⟩ := bind_eq_ok.mp h
  obtain ⟨_, _, rfl⟩ := attempt_eq_ok hremove
  obtain ⟨_, _, hmap, h₂⟩ := bind_eq_ok.mp h₁
  cases modify_eq_ok.mp hmap
  obtain ⟨_, _, hopen, h₃⟩ := bind_eq_ok.mp h₂
  obtain ⟨_, _, rfl⟩ := attempt_eq_ok hopen
  obtain ⟨_, _, htmp, h₄⟩ := bind_eq_ok.mp h₃
  cases modify_eq_ok.mp htmp
  obtain ⟨_, _, hsocket, h₅⟩ := bind_eq_ok.mp h₄
  obtain ⟨_, _, rfl⟩ := attempt_eq_ok hsocket
  obtain ⟨_, _, hstat, h₆⟩ := bind_eq_ok.mp h₅
  obtain ⟨_, _, rfl⟩ := attempt_eq_ok hstat
  obtain ⟨hw, hdev, -⟩ :=
    writeString_eq_ok (show State.Wrote (s.tmp.getD []) [] _ from ⟨rfl, rfl⟩) h₆
  exact ⟨hw, hdev⟩

theorem calls_of_onlyIf {cond : Prop} [Decidable cond] {code : UncryptErrorCode} {u : Unit}
    (h : onlyIf cond (attempt package code) s = .ok (u, s')) : s.Calls s' := by
  rw [onlyIf_eq_ok] at h
  split at h
  · exact attempt_eq_ok h
  · exact h ▸ State.Calls.refl _

theorem openPackage_eq_ok {u : Unit} (h : openPackage package encrypted f2fs s = .ok (u, s')) :
    Window package encrypted m s.device 0 s' ∧ s.SameMap s' := by
  obtain ⟨_, t₁, hvars, h₁⟩ := bind_eq_ok.mp h
  obtain ⟨_, t₂, hopen, h₂⟩ := bind_eq_ok.mp h₁
  obtain ⟨_, t₃, hblock, hpin⟩ := bind_eq_ok.mp h₂
  have hcalls := (attempt_eq_ok hopen).trans ((calls_of_onlyIf hblock).trans (calls_of_onlyIf hpin))
  have hvars := modify_eq_ok.mp hvars
  have hstart : Window package encrypted m t₁.device 0 t₁ := by
    subst hvars
    exact Window.start rfl rfl rfl rfl rfl fun h => if_pos h
  have hsame : s.SameMap t₁ := by
    subst hvars
    exact ⟨rfl, rfl, rfl⟩
  have hdev : t₁.device = s.device := by
    subst hvars
    rfl
  exact ⟨hdev ▸ hstart.calls hcalls, hsame.trans hcalls.sameMap⟩

theorem writeMap_eq_ok {old text : Text} {u : Unit} (hw : s.Wrote old text)
    (h : writeMap package s = .ok (u, s')) :
    s'.Wrote old (text ++ (toText s.ranges.length ++ ['\n']) ++ s.ranges.flatMap rangeLine) ∧
      s'.device = s.device := by
  obtain ⟨_, _, hget, h₁⟩ := bind_eq_ok.mp h
  obtain ⟨rfl, rfl⟩ := get_eq_ok.mp hget
  obtain ⟨_, t, hcount, h₂⟩ := bind_eq_ok.mp h₁
  obtain ⟨hwt, hdev, -⟩ := writeString_eq_ok hw hcount
  obtain ⟨hw', hdev'⟩ := writeRanges_eq_ok hwt h₂
  exact ⟨hw', hdev'.trans hdev⟩

theorem installMap_eq_ok {u : Unit} (h : installMap package encrypted s = .ok (u, s')) :
    s'.map = s.tmp ∧ s'.device = s.device := by
  obtain ⟨_, _, hsync, h₁⟩ := bind_eq_ok.mp h
  obtain ⟨_, _, rfl⟩ := attempt_eq_ok hsync
  obtain ⟨_, _, hclose, h₂⟩ := bind_eq_ok.mp h₁
  obtain ⟨_, _, rfl⟩ := attempt_eq_ok hclose
  obtain ⟨_, _, hsync', h₃⟩ := bind_eq_ok.mp h₂
  obtain ⟨_, _, rfl⟩ := calls_of_onlyIf hsync'
  obtain ⟨_, _, hclose', h₄⟩ := bind_eq_ok.mp h₃
  obtain ⟨_, _, rfl⟩ := calls_of_onlyIf hclose'
  obtain ⟨_, _, hrename, h₅⟩ := bind_eq_ok.mp h₄
  obtain ⟨_, _, rfl⟩ := attempt_eq_ok hrename
  obtain ⟨_, _, hmap, h₆⟩ := bind_eq_ok.mp h₅
  cases modify_eq_ok.mp hmap
  obtain ⟨_, _, hdir, h₇⟩ := bind_eq_ok.mp h₆
  obtain ⟨_, _, rfl⟩ := attempt_eq_ok hdir
  obtain ⟨_, _, hdirSync, h₈⟩ := bind_eq_ok.mp h₇
  obtain ⟨_, _, rfl⟩ := attempt_eq_ok hdirSync
  obtain ⟨_, _, rfl⟩ := attempt_eq_ok h₈
  exact ⟨rfl, rfl⟩

theorem produceBlockMap_eq_ok (hdata : 0 < package.data.length) (hblk : 0 < package.blksize)
    (hfind : package.Finds m) {blkDev : Text} {u : Unit}
    (h : produceBlockMap package encrypted blkDev f2fs s = .ok (u, s')) :
    Produced package encrypted m blkDev s s' := by
  obtain ⟨_, t₁, hopen, h₁⟩ := bind_eq_ok.mp h
  obtain ⟨_, t₂, hpackage, h₂⟩ := bind_eq_ok.mp h₁
  obtain ⟨_, t₃, hread, h₃⟩ := bind_eq_ok.mp h₂
  obtain ⟨_, t₄, hdrain, h₄⟩ := bind_eq_ok.mp h₃
  obtain ⟨_, t₅, hwrite, hinstall⟩ := bind_eq_ok.mp h₄
  obtain ⟨hheader, hdev₁⟩ := openMap_eq_ok hopen
  obtain ⟨hstart, hsame₁⟩ := openPackage_eq_ok (m := m) hpackage
  have hfuel : package.blocks ≤ 0 + package.data.length := by
    have := Nat.div_le_self (package.data.length - 1) package.blksize
    rw [Package.blocks]
    omega
  obtain ⟨hwin, -, hsame₂⟩ := readLoop_window hdata hblk hfind.findsWhile hstart trivial hfuel hread
  obtain ⟨hend, -, hblocks, hsame₃⟩ :=
    drainLoop_window hfind.findsWhile hwin trivial hwin.lt.le hdrain
  have hwrote := hheader.congr (hsame₁.trans (hsame₂.trans hsame₃))
  obtain ⟨htext, hdev₂⟩ := writeMap_eq_ok hwrote hwrite
  obtain ⟨hmap, hdev₃⟩ := installMap_eq_ok hinstall
  have hranges : t₄.ranges = package.ranges m := by rw [hend.ranges, hblocks, Package.ranges]
  have hdev : s'.device = t₄.device := hdev₃.trans hdev₂
  rw [hranges] at htext
  refine ⟨hmap.trans htext.tmp, ?_, fun henc => ?_, fun henc hinj => ?_⟩
  · rw [← hblocks]
    exact hend.small
  · rw [hdev, hend.device henc, hdev₁]
  · rw [hdev, Package.StoredOn, ← hblocks]
    exact hend.written henc hinj

/-! ## What is mapped -/

/-- The bytes of blocks of a device. -/
def blocksAt (dev : BlockDevice) (blksize : Nat) (blocks : List Nat) : List UInt8 :=
  blocks.flatMap fun b => dev.read (b * blksize) blksize

/-- Each range starts on a page, in the file and on the device. -/
def Aligned (pageSize blksize : Nat) : (next : Nat) → List (Nat × Nat) → Prop
  | _, [] => True
  | next, r :: rs => (next % pageSize = 0 ∧ r.1 * blksize % pageSize = 0) ∧
      Aligned pageSize blksize (next + (r.2 - r.1) * blksize) rs

theorem expand_cons (r : Nat × Nat) (rs : List (Nat × Nat)) :
    expand (r :: rs) = List.range' r.1 (r.2 - r.1) ++ expand rs := by
  rw [expand, List.flatMap_cons, ← expand]

theorem length_le_expand {rs : List (Nat × Nat)} (h : ∀ r ∈ rs, r.1 < r.2) :
    rs.length ≤ (expand rs).length := by
  induction rs with
  | nil => exact Nat.zero_le _
  | cons r rs ih =>
    have hr := h r List.mem_cons_self
    have := ih fun r hr => h r (List.mem_cons_of_mem _ hr)
    rw [expand_cons, List.length_append, List.length_range', List.length_cons]
    omega

theorem blocksAt_range' (dev : BlockDevice) (blksize start len : Nat) :
    blocksAt dev blksize (List.range' start len) = dev.read (start * blksize) (len * blksize) := by
  induction len generalizing start with
  | zero =>
    rw [Nat.zero_mul]
    rfl
  | succ len ih =>
    rw [List.range'_succ, blocksAt, List.flatMap_cons, ← blocksAt, ih, Nat.succ_mul len,
      Nat.add_comm (len * blksize), BlockDevice.read_add, Nat.succ_mul]

/-- The text of a range, without the newline. -/
def rangeText (r : Nat × Nat) : Text := toText r.1 ++ ' ' :: toText r.2

section
variable {mmap : Mmap} {dev : BlockDevice} {blksize : Nat}

/-- A range of the device whose end has an offset is mapped if and only if it starts on pages. -/
theorem mapRanges_cons {r : Nat × Nat} {lines : List Text} {next remaining : Nat}
    {bytes : List UInt8}
    (hblk : 0 < blksize) (hlt : r.1 < r.2) (hend : r.2 * blksize ≤ 2 ^ 63)
    (hroom : (r.2 - r.1) * blksize ≤ remaining) :
    mapRanges mmap dev blksize (rangeText r :: lines) next remaining = some bytes ↔
      (next % mmap.pageSize = 0 ∧ r.1 * blksize % mmap.pageSize = 0) ∧
        ∃ rest, mapRanges mmap dev blksize lines (next + (r.2 - r.1) * blksize)
          (remaining - (r.2 - r.1) * blksize) = some rest ∧
          bytes = dev.read (r.1 * blksize) ((r.2 - r.1) * blksize) ++ rest := by
  have hle : r.2 ≤ 2 ^ 63 := Nat.le_trans (Nat.le_mul_of_pos_right _ hblk) hend
  have hmax : (2 : Nat) ^ 63 ≤ SIZE_MAX := by decide
  have hstart : r.1 * blksize < 2 ^ 64 := by
    have := Nat.mul_le_mul_right blksize hlt.le
    omega
  have hdiff : r.2 - r.1 ≤ SIZE_MAX / blksize := by
    rw [Nat.le_div_iff_mul_le hblk]
    have := Nat.mul_le_mul_right blksize (Nat.sub_le r.2 r.1)
    omega
  rw [mapRanges, rangeText, scanSizes_toText (by omega) (by omega)]
  dsimp only
  rw [if_neg (by omega), Nat.mod_eq_of_lt hstart]
  split
  · rename_i hnot
    exact ⟨(nomatch ·), fun ⟨hpage, _⟩ => absurd hpage (by omega)⟩
  · rename_i hpage
    rw [Option.map_eq_some_iff]
    constructor
    · rintro ⟨rest, hrest, rfl⟩
      exact ⟨by omega, rest, hrest, rfl⟩
    · rintro ⟨-, rest, hrest, rfl⟩
      exact ⟨rest, hrest, rfl⟩

theorem mapRanges_eq_some_iff {rs : List (Nat × Nat)} {next : Nat} {bytes : List UInt8}
    (hblk : 0 < blksize) (hrs : ∀ r ∈ rs, r.1 < r.2 ∧ r.2 * blksize ≤ 2 ^ 63) :
    mapRanges mmap dev blksize (rs.map rangeText) next ((expand rs).length * blksize) = some bytes ↔
      Aligned mmap.pageSize blksize next rs ∧ bytes = blocksAt dev blksize (expand rs) := by
  induction rs generalizing next bytes with
  | nil =>
    change (if 0 * blksize ≠ 0 then none else some []) = some bytes ↔ True ∧ bytes = []
    rw [if_neg (by omega), Option.some.injEq, true_and, eq_comm]
  | cons r rs ih =>
    obtain ⟨hlt, hend⟩ := hrs r List.mem_cons_self
    have hlen :
        (expand (r :: rs)).length * blksize = (r.2 - r.1) * blksize + (expand rs).length *
        blksize := by
      rw [expand_cons, List.length_append, List.length_range', Nat.add_mul]
    have hbytes : blocksAt dev blksize (expand (r :: rs)) =
        dev.read (r.1 * blksize) ((r.2 - r.1) * blksize) ++ blocksAt dev blksize (expand rs) := by
      rw [expand_cons, blocksAt, List.flatMap_append, ← blocksAt, ← blocksAt, blocksAt_range']
    rw [List.map_cons, mapRanges_cons hblk hlt hend (by omega), hlen, Nat.add_sub_cancel_left,
      hbytes, Aligned]
    refine Iff.trans (and_congr_right fun _ => ?_) and_assoc.symm
    constructor
    · rintro ⟨rest, hrest, rfl⟩
      obtain ⟨haligned, rfl⟩ := (ih fun r hr => hrs r (List.mem_cons_of_mem _ hr)).mp hrest
      exact ⟨haligned, rfl⟩
    · rintro ⟨haligned, rfl⟩
      exact ⟨_, (ih fun r hr => hrs r (List.mem_cons_of_mem _ hr)).mpr ⟨haligned, rfl⟩, rfl⟩

end

/-! ## Ranges that start on pages -/

theorem Aligned.append_iff {pageSize blksize next : Nat} {rs rs' : List (Nat × Nat)} :
    Aligned pageSize blksize next (rs ++ rs') ↔ Aligned pageSize blksize next rs ∧
      Aligned pageSize blksize (next + (expand rs).length * blksize) rs' := by
  induction rs generalizing next with
  | nil => simp [Aligned, expand]
  | cons r rs ih =>
    rw [List.cons_append, Aligned, Aligned, ih, expand_cons, List.length_append, List.length_range',
      Nat.add_mul, Nat.add_assoc]
    exact and_assoc.symm

theorem getLast?_rangesOf_concat (blocks : List Nat) (b : Nat) :
    ∃ rs start, rangesOf (blocks ++ [b]) = rs ++ [(start, b + 1)] := by
  rw [rangesOf_concat]
  rcases addBlockToRanges_cases (rangesOf blocks) b with ⟨rs', start, -, hadd⟩ | ⟨-, hadd⟩
  · exact ⟨rs', start, hadd⟩
  · exact ⟨_, b, hadd⟩

theorem aligned_rangesOf_iff {pageSize blksize n : Nat} :
    Aligned pageSize blksize 0 (rangesOf ((List.range n).map m)) ↔
      ∀ k < n, (k = 0 ∨ m k ≠ m (k - 1) + 1) → k * blksize % pageSize = 0 ∧
      m k * blksize % pageSize = 0 := by
  induction n with
  | zero => simp [rangesOf, Aligned]
  | succ n ih =>
    have hrange : (List.range (n + 1)).map m = (List.range n).map m ++ [m n] := by
      rw [List.range_succ, List.map_append, List.map_singleton]
    have hlen : (expand (rangesOf ((List.range n).map m))).length = n := by
      rw [expand_rangesOf, List.length_map, List.length_range]
    -- the next block starts a range
    have hlast : (∀ r ∈ (rangesOf ((List.range n).map m)).getLast?, r.2 ≠ m n) ↔
        (n = 0 ∨ m n ≠ m (n - 1) + 1) := by
      cases n with
      | zero => simp [rangesOf]
      | succ j =>
        obtain ⟨rs, start, h⟩ := getLast?_rangesOf_concat ((List.range j).map m) (m j)
        rw [List.range_succ, List.map_append, List.map_singleton, h, List.getLast?_concat]
        simp [eq_comm]
    rw [hrange, rangesOf_concat, Nat.forall_lt_succ_right, ← ih, ← hlast]
    rcases addBlockToRanges_cases (rangesOf ((List.range n).map m)) (m n) with ⟨rs, start, hrs,
      hadd⟩ | ⟨hne, hadd⟩
    · rw [hadd, hrs, Aligned.append_iff, Aligned.append_iff, List.getLast?_concat]
      simp [Aligned]
    · rw [hadd, Aligned.append_iff, hlen]
      refine and_congr_right fun _ => ?_
      simp only [Aligned, and_true, Nat.zero_add]
      exact ⟨fun h _ => h, fun h => h hne⟩

/-! ## Reading the map -/

/-- The lines of a map. -/
def mapLines (blkDev : Text) (size blksize : Nat) (rs : List (Nat × Nat)) : List Text :=
  blkDev :: (toText size ++ ' ' :: toText blksize) :: toText rs.length :: rs.map rangeText

theorem mapText_eq (blkDev : Text) (size blksize : Nat) (rs : List (Nat × Nat)) :
    mapText blkDev size blksize rs = (mapLines blkDev size blksize rs).flatMap (· ++ ['\n']) := by
  have hlines : rs.flatMap rangeLine = (rs.map rangeText).flatMap (· ++ ['\n']) := by
    rw [List.flatMap_map]
    exact List.flatMap_congr fun r _ => by simp [rangeLine, rangeText]
  rw [mapText, header, hlines, mapLines]
  simp

theorem newline_notMem_toText (k : Int) : '\n' ∉ toText k := fun h => by
  cases not_isSpace_toText h

theorem newline_notMem_rangeText {a b : Int} : '\n' ∉ toText a ++ ' ' :: toText b := by
  rw [List.mem_append, List.mem_cons, not_or, not_or]
  exact ⟨newline_notMem_toText a, by decide, newline_notMem_toText b⟩

section
variable {mmap : Mmap} {blkDev : Text} {size blksize : Nat} {rs : List (Nat × Nat)} {rest : Text}

theorem newline_notMem_mapLines (hname : ∀ c ∈ blkDev, isSpace c = false) :
    ∀ l ∈ mapLines blkDev size blksize rs, '\n' ∉ l := by
  rw [mapLines]
  refine List.forall_mem_cons.mpr ⟨fun h => ?_, List.forall_mem_cons.mpr ⟨newline_notMem_rangeText,
    List.forall_mem_cons.mpr ⟨newline_notMem_toText _, ?_⟩⟩⟩
  · cases hname _ h
  · intro l hl
    obtain ⟨r, -, rfl⟩ := List.mem_map.mp hl
    exact newline_notMem_rangeText

/-- The shape of the lines: a first character and a last one that are no white space. -/
theorem exists_mapLines (hname : ∀ c ∈ blkDev, isSpace c = false) (hne : blkDev ≠ [])
    (hrs : rs ≠ []) : ∃ c first lines last d, isSpace c = false ∧ isSpace d = false ∧
      mapLines blkDev size blksize rs = (c :: first) :: (lines ++ [last ++ [d]]) := by
  obtain ⟨c, first, rfl⟩ := List.exists_cons_of_ne_nil hne
  obtain ⟨rs', r, rfl⟩ : ∃ rs' r, rs = rs' ++ [r] := ⟨_, _, (List.dropLast_append_getLast hrs).symm⟩
  obtain ⟨v, d, hd⟩ : ∃ v d, toText r.2 = v ++ [d] :=
    ⟨_, _, (List.dropLast_append_getLast (toText_ne_nil r.2)).symm⟩
  refine ⟨c, first, (toText size ++ ' ' :: toText blksize) :: toText (rs' ++ [r]).length ::
    rs'.map rangeText, toText r.1 ++ ' ' :: v, d, hname c List.mem_cons_self, ?_, ?_⟩
  · exact not_isSpace_toText (k := r.2) (hd ▸ List.mem_append_right _ (List.mem_singleton_self d))
  · simp [mapLines, rangeText, hd]

/-- What is done with the lines of a map, if its numbers are those of a file. -/
theorem mapBlockFile_of_lines {content : Text} {count : Nat} {ranges : List Text}
    (hsplit : (trim content).splitOn '\n' =
      blkDev :: (toText size ++ ' ' :: toText blksize) :: toText count :: ranges)
      (hranges : ranges ≠ []) (hsize : 0 < size) (hsize' : size < 2 ^ 63) (hblk : 0 < blksize)
      (hblk' : blksize < 2 ^ 63) (hcount : 0 < count) (hcount' : count ≤ SIZE_MAX)
      {mapping : MemMapping} :
    mapBlockFile mmap content = some mapping ↔ ranges.length = count ∧
      mmap.reserve (((size - 1) / blksize + 1) * blksize) = true ∧ ∃ dev, mmap.openDevice blkDev =
      some dev ∧
        ∃ bytes, mapRanges mmap dev blksize ranges 0 (((size - 1) / blksize + 1) * blksize) =
        some bytes ∧
          mapping = ⟨bytes, size⟩ := by
  have hmax : (2 : Nat) ^ 64 - 1 = SIZE_MAX := rfl
  have hcountText : scanSize (toText count) = some (count, []) := by
    have := @scanSize_toText count hcount' [] (by simp)
    rwa [List.append_nil] at this
  have hsub : (size + 2 ^ 64 - 1) % 2 ^ 64 = size - 1 := by omega
  have hblocks : (size - 1) / blksize + 1 ≤ SIZE_MAX / blksize := by
    rw [Nat.le_div_iff_mul_le hblk, Nat.succ_mul]
    have := Nat.div_mul_le_self (size - 1) blksize
    omega
  rw [mapBlockFile, hsplit]
  dsimp only
  rw [if_neg hranges, scanSizes_toText (by omega) (by omega)]
  dsimp only [Option.bind_eq_bind, Option.bind_some]
  rw [hcountText]
  dsimp only [Option.bind_some]
  rw [hsub]
  by_cases hlen : ranges.length = count
  · rw [if_neg (by omega)]
    cases hreserve : mmap.reserve (((size - 1) / blksize + 1) * blksize) with
    | false => simp
    | true =>
      simp only [Bool.not_true, Bool.false_eq_true, if_false, Option.bind_eq_some_iff,
        Option.pure_def, Option.some.injEq, hlen, true_and]
      simp only [eq_comm]
  · rw [if_pos (by omega)]
    exact ⟨(nomatch ·), fun h => absurd h.1 hlen⟩

/-- A map text is accepted with white space behind it only: anything else makes more lines than are
counted. -/
theorem mapBlockFile_mapText_eq_some_iff (hname : ∀ c ∈ blkDev, isSpace c = false)
    (hne : blkDev ≠ []) (hrs : rs ≠ []) (hsize : 0 < size) (hsize' : size < 2 ^ 63)
    (hblk : 0 < blksize) (hblk' : blksize < 2 ^ 63) (hcount : rs.length ≤ SIZE_MAX)
    {mapping : MemMapping} :
    mapBlockFile mmap (mapText blkDev size blksize rs ++ rest) = some mapping ↔
    (∀ c ∈ rest, isSpace c = true) ∧
      mmap.reserve (((size - 1) / blksize + 1) * blksize) = true ∧ ∃ dev, mmap.openDevice blkDev =
      some dev ∧
        ∃ bytes, mapRanges mmap dev blksize (rs.map rangeText) 0 (((size - 1) / blksize + 1) *
          blksize) = some bytes ∧ mapping = ⟨bytes, size⟩ := by
  obtain ⟨c, first, lines, last, d, hc, hd, hlines⟩ :=
    @exists_mapLines blkDev size blksize rs hname hne hrs
  have hnl := @newline_notMem_mapLines blkDev size blksize rs hname
  have hpos : 0 < rs.length := List.length_pos_iff.mpr hrs
  have hmap : rs.map rangeText ≠ [] := by simpa using hrs
  rw [hlines] at hnl
  by_cases hrest : ∀ c ∈ rest, isSpace c = true
  · have hsplit := splitOn_trim_lines hc hd hnl hrest
    rw [← hlines, ← mapText_eq, mapLines] at hsplit
    rw [mapBlockFile_of_lines hsplit hmap hsize hsize' hblk hblk' hpos hcount, List.length_map]
    exact and_congr_left fun _ => ⟨fun _ => hrest, fun _ => rfl⟩
  · have hmore : ∃ c ∈ rest, isSpace c = false := by simpa using hrest
    obtain ⟨more, hmore, hsplit⟩ := splitOn_trim_lines_append hc hnl hmore
    rw [← hlines, ← mapText_eq, mapLines, List.cons_append, List.cons_append, List.cons_append]
      at hsplit
    rw [mapBlockFile_of_lines hsplit (by simp [hmap]) hsize hsize' hblk hblk' hpos hcount,
      List.length_append, List.length_map]
    have := List.length_pos_iff.mpr hmore
    exact ⟨fun h => absurd h.1 (by omega), fun h => absurd h.1 hrest⟩

end

/-! ## The package -/

/-- `FIBMAP` gives the blocks of the package, none of them 0. -/
structure Package.MappedBy (package : Package) (m : Nat → Nat) : Prop where
  fibmap : ∀ call, ∀ k < package.blocks, package.fibmap call k = some (m k)
  ne_zero : ∀ k < package.blocks, m k ≠ 0

theorem Package.MappedBy.finds (h : package.MappedBy m) : package.Finds m := by
  intro k hk s found s' hfound
  obtain ⟨_, t, hfibmap, h₁⟩ := bind_eq_ok.mp hfound
  obtain ⟨rfl, hcalls⟩ := fibmap_eq_ok hfibmap
  rw [h.fibmap _ k hk] at h₁
  dsimp only at h₁
  rw [if_neg (h.ne_zero k hk)] at h₁
  obtain ⟨rfl, rfl⟩ := pure_eq_ok.mp h₁
  exact ⟨rfl, hcalls⟩

theorem take_read (dev : BlockDevice) (offset : Nat) {l n : Nat} (h : l ≤ n) :
    (dev.read offset n).take l = dev.read offset l := by
  rw [BlockDevice.read, ← List.map_take, List.take_range, Nat.min_eq_left h, BlockDevice.read]

theorem Package.StoredOn.take_blocksAt {dev : BlockDevice} (hdata : 0 < package.data.length)
    (hblk : 0 < package.blksize) (h : package.StoredOn m dev) :
    (blocksAt dev package.blksize ((List.range package.blocks).map m)).take package.data.length =
    package.data := by
  have hlen : ∀ n, (blocksAt dev package.blksize ((List.range n).map m)).length =
      n * package.blksize := fun n => by
    simp [blocksAt, List.length_flatMap, Function.comp_def]
  -- the first blocks, by induction on their number
  have hall : ∀ n ≤ package.blocks,
      (blocksAt dev package.blksize ((List.range n).map m)).take package.data.length =
        package.data.take (n * package.blksize) := by
    intro n
    induction n with
    | zero => simp [blocksAt]
    | succ n ih =>
      intro hn
      have hlt := (package.lt_blocks_iff hdata hblk).mp hn
      have hlenBlock := package.length_block n
      have hblock :
          (dev.read (m n * package.blksize) package.blksize).take
          (package.data.length - n * package.blksize) = package.block n := by
        rw [List.take_eq_take_min, BlockDevice.length_read, Nat.min_comm, ← hlenBlock,
          take_read dev _ (by omega), Nat.mul_comm (m n)]
        exact h n hn
      have hsplit : blocksAt dev package.blksize ((List.range (n + 1)).map m) =
          blocksAt dev package.blksize ((List.range n).map m) ++
          dev.read (m n * package.blksize) package.blksize := by
        simp [blocksAt, List.range_succ, List.flatMap_append]
      rw [hsplit, List.take_append, ih (Nat.le_of_succ_le hn), hlen, hblock, Nat.succ_mul,
        List.take_add, Package.block]
  rw [hall _ le_rfl, List.take_of_length_le]
  have := (package.lt_blocks_iff hdata hblk (k := package.blocks)).not.mp (Nat.lt_irrefl _)
  omega

/-- The package is on the device after the run: it was there, or it is written to blocks that are
all different. -/
def Package.Stored (package : Package) (encrypted : Bool) (m : Nat → Nat) (dev : BlockDevice) :
    Prop :=
  if encrypted then ∀ i < package.blocks, ∀ j < package.blocks, m i = m j →
  i = j else package.StoredOn m dev

variable (package encrypted) in
/-- `MapBlockFile` succeeds on the map file with the length of the package and its blocks on the
device in order, which start with the package. -/
def GivesBack (mmap : Mmap) (m : Nat → Nat) (s s' : State) : Prop :=
  ∃ content mapping, s'.map = some content ∧ mapBlockFile mmap content = some mapping ∧
    mapping.length = package.data.length ∧
    mapping.bytes = blocksAt s'.device package.blksize ((List.range package.blocks).map m) ∧
    (package.Stored encrypted m s.device → mapping.bytes.take mapping.length = package.data)

/-- The map file of a run that returned 0 gives the package back if and only if an earlier temporary
file has only white space from the end of the map text on, and each block that does not come right
after the block before it starts on a page, in the file and on the device. -/
theorem produceBlockMap_givesBack_iff {mmap : Mmap} {blkDev : Text}
    (hdata : 0 < package.data.length) (hsize : package.data.length < 2 ^ 63)
    (hblk : 0 < package.blksize) (hblksize : package.blksize < 2 ^ 63) (hm : package.MappedBy m)
    (hdev : ∀ k < package.blocks, (m k + 1) * package.blksize ≤ 2 ^ 63)
    (hname : ∀ c ∈ blkDev, isSpace c = false) (hne : blkDev ≠ [])
    (h : produceBlockMap package encrypted blkDev f2fs s = .ok ((), s'))
    (hopen : mmap.openDevice blkDev = some s'.device)
    (hreserve : mmap.reserve (package.blocks * package.blksize) = true) :
    GivesBack package encrypted mmap m s s' ↔
      (∀ c ∈ (s.tmp.getD []).drop
        (mapText blkDev package.data.length package.blksize (package.ranges m)).length,
        isSpace c = true) ∧
      ∀ k < package.blocks, (k = 0 ∨ m k ≠ m (k - 1) + 1) →
        k * package.blksize % mmap.pageSize = 0 ∧ m k * package.blksize % mmap.pageSize = 0 := by
  have hp := produceBlockMap_eq_ok hdata hblk hm.finds h
  have hexpand : expand (package.ranges m) = (List.range package.blocks).map m := expand_rangesOf _
  have hlen : (expand (package.ranges m)).length = package.blocks := by
    rw [hexpand, List.length_map, List.length_range]
  have hranges : package.ranges m ≠ [] := fun hnil => by
    rw [hnil] at hlen
    exact absurd hlen (Nat.succ_ne_zero _).symm
  have hcount : (package.ranges m).length ≤ SIZE_MAX := by
    have hle := length_le_expand (nonempty_rangesOf ((List.range package.blocks).map m))
    have hblocks := Nat.div_le_self (package.data.length - 1) package.blksize
    rw [← Package.ranges, hlen, Package.blocks] at hle
    unfold SIZE_MAX
    omega
  have hends : ∀ r ∈ package.ranges m, r.1 < r.2 ∧ r.2 * package.blksize ≤ 2 ^ 63 := by
    intro r hr
    have hlt := nonempty_rangesOf _ r hr
    have hmem : r.2 - 1 ∈ expand (package.ranges m) := List.mem_flatMap.mpr
      ⟨r, hr, List.mem_range'_1.mpr (by omega)⟩
    rw [hexpand] at hmem
    obtain ⟨k, hk, heq⟩ := List.mem_map.mp hmem
    have := hdev k (List.mem_range.mp hk)
    rw [heq, Nat.sub_add_cancel (by omega)] at this
    exact ⟨hlt, this⟩
  have hread :=
    @mapBlockFile_mapText_eq_some_iff mmap blkDev package.data.length package.blksize
      (package.ranges m)
    ((s.tmp.getD []).drop
      (mapText blkDev package.data.length package.blksize (package.ranges m)).length)
    hname hne hranges hdata hsize hblk hblksize hcount
  have hmapRanges := @mapRanges_eq_some_iff mmap s'.device package.blksize (package.ranges m) 0
  rw [hlen] at hmapRanges
  rw [← aligned_rangesOf_iff, ← Package.ranges]
  constructor
  · rintro ⟨content, mapping, hcontent, hmapping, -⟩
    rw [hp.map, Option.some.injEq] at hcontent
    subst hcontent
    obtain ⟨hwhite, -, dev, hdevice, bytes, hbytes, -⟩ := hread.mp hmapping
    rw [hopen, Option.some.injEq] at hdevice
    subst hdevice
    exact ⟨hwhite, ((hmapRanges hblk hends).mp hbytes).1⟩
  · rintro ⟨hwhite, haligned⟩
    refine ⟨_, _, hp.map, hread.mpr ⟨hwhite, hreserve, s'.device, hopen, _,
      (hmapRanges hblk hends).mpr ⟨haligned, rfl⟩, rfl⟩, rfl, by rw [hexpand], fun hstored => ?_⟩
    rw [hexpand]
    refine Package.StoredOn.take_blocksAt hdata hblk ?_
    cases encrypted with
    | false =>
      rw [hp.device rfl]
      exact hstored
    | true => exact hp.written rfl hstored

/-- A package of three bytes in two blocks, which `FIBMAP` finds one after the other. -/
def samplePackage : Package := ⟨[1, 2, 3], 2, fun _ k => some (k + 5), fun _ => true⟩

/-- The state before a run, with an earlier temporary file. -/
def sampleState (tmp : Option Text) : State := { map := none, tmp := tmp, device := fun _ => 0 }

/-- The state after a run on an encrypted file system. -/
def sampleEnd (tmp : Option Text) : State :=
  match produceBlockMap samplePackage true "/d".toList false (sampleState tmp) with
  | .ok r => r.2
  | .error _ => sampleState tmp

/-- A system with small pages and the block device. -/
def sampleMmap (tmp : Option Text) : Mmap :=
  ⟨2, fun _ => true, fun _ => some (sampleEnd tmp).device⟩

theorem produceBlockMap_sample {tmp : Option Text}
    (h : (produceBlockMap samplePackage true "/d".toList false (sampleState tmp)).isOk = true) :
    produceBlockMap samplePackage true "/d".toList false (sampleState tmp) =
    .ok ((), sampleEnd tmp) := by
  unfold sampleEnd
  cases hrun : produceBlockMap samplePackage true "/d".toList false (sampleState tmp) with
  | ok r => rfl
  | error e =>
    rw [hrun] at h
    cases h

theorem produceBlockMap_givesBack_sample :
    GivesBack samplePackage true (sampleMmap none) (· + 5) (sampleState none) (sampleEnd none) :=
  (produceBlockMap_givesBack_iff (by decide) (by decide) (by decide) (by decide)
    ⟨fun _ _ _ => rfl, fun _ _ => Nat.succ_ne_zero _⟩ (by decide) (by decide) (by decide)
    (produceBlockMap_sample (by decide +kernel)) rfl rfl).mpr ⟨by decide, by decide⟩

/-- The map of an earlier run for a longer package. -/
def sampleTmp : Text := "/d\n9 2\n2\n5 7\n20 23\n".toList

/-- The rest of a longer map from an earlier run is taken for one more range. -/
theorem not_produceBlockMap_givesBack :
    produceBlockMap samplePackage true "/d".toList false (sampleState (some sampleTmp)) =
        .ok ((), sampleEnd (some sampleTmp)) ∧
      ¬GivesBack samplePackage true (sampleMmap (some sampleTmp)) (· + 5)
      (sampleState (some sampleTmp))
        (sampleEnd (some sampleTmp)) := by
  refine ⟨produceBlockMap_sample (by decide +kernel), ?_⟩
  rintro ⟨content, mapping, hcontent, hmapping, -⟩
  have hend :
      (sampleEnd (some sampleTmp)).map = some "/d\n3 2\n1\n5 7\n20 23\n".toList := by decide +kernel
  rw [hend, Option.some.injEq] at hcontent
  subst hcontent
  have hnone :
      (mapBlockFile (sampleMmap (some sampleTmp)) "/d\n3 2\n1\n5 7\n20 23\n".toList).isNone =
      true := by
    decide +kernel
  rw [hmapping] at hnone
  cases hnone

end BootableRecovery.Uncrypt
