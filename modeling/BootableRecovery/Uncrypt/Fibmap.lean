import BootableRecovery.Uncrypt.BlockMap
import Mathlib.Data.List.Forall2

/-!
# The blocks that `FIBMAP` gives

`ioctl(fd, FIBMAP, &block)` takes the logical block in `block` and leaves the physical one there.
When that is 0, `retry_fibmap` calls it again with what it has left: it asks for the block 0 of the
file, whatever the head block is. So the blocks are right if and only if no block but the first one
has to be asked for again (`produceBlockMap_right_iff`).
-/

namespace BootableRecovery.Uncrypt

variable {package : Package} {encrypted f2fs : Bool} {s s' : State} {m p : Nat → Nat}

/-! ## What an action leaves as it was -/

/-- An action that succeeds leaves a part of the state as it was. -/
def Leaves (part : State → γ) (x : UncryptM α) : Prop :=
  ∀ s a s', x s = .ok (a, s') → part s' = part s

section
variable {part : State → γ}

theorem leaves_pure (a : α) : Leaves part (pure a : UncryptM α) := by
  intro s b s' h
  obtain ⟨-, rfl⟩ := pure_eq_ok.mp h
  rfl

theorem leaves_get : Leaves part (get : UncryptM State) := by
  intro s t s' h
  obtain ⟨-, rfl⟩ := get_eq_ok.mp h
  rfl

theorem leaves_fits (bits value : Nat) : Leaves part (fits bits value) := by
  intro s u s' h
  obtain ⟨-, rfl⟩ := fits_eq_ok h
  rfl

theorem leaves_modify {f : State → State} (hf : ∀ s, part (f s) = part s) :
    Leaves part (modify f : UncryptM Unit) := by
  intro s u s' h
  cases modify_eq_ok.mp h
  exact hf s

theorem Leaves.bind {x : UncryptM α} {f : α → UncryptM β} (hx : Leaves part x)
    (hf : ∀ a, Leaves part (f a)) : Leaves part (x >>= f) := by
  intro s b s' h
  obtain ⟨a, t, hxt, hft⟩ := bind_eq_ok.mp h
  exact (hf a t b s' hft).trans (hx s a t hxt)

theorem Leaves.onlyIf {cond : Prop} [Decidable cond] {act : UncryptM Unit} (h : Leaves part act) :
    Leaves part (onlyIf cond act) := by
  unfold Uncrypt.onlyIf
  split
  · exact h
  · exact leaves_pure ()

end

/-- The number of `FIBMAP` calls, the accesses and the ranges. -/
def State.blockLog (s : State) : Nat × List Access × List (Nat × Nat) :=
  (s.ioctls, s.accesses, s.ranges)

theorem leaves_attempt (code : UncryptErrorCode) :
    Leaves State.blockLog (attempt package code) := by
  intro s u s' h
  unfold attempt at h
  split at h
  · cases h
    rfl
  · cases h

theorem leaves_writeString (w : Text) : Leaves State.blockLog (writeString package w) :=
  (leaves_attempt _).bind fun _ => leaves_modify fun _ => rfl

theorem leaves_writeRanges (rs : List (Nat × Nat)) :
    Leaves State.blockLog (writeRanges package rs) := by
  induction rs with
  | nil => exact leaves_pure ()
  | cons r rs ih => exact (leaves_writeString _).bind fun _ => ih

theorem leaves_openMap (blkDev : Text) : Leaves State.blockLog (openMap package blkDev) := by
  refine (leaves_attempt _).bind fun _ => .bind (leaves_modify ?_) fun _ => ?_
  · exact fun _ => rfl
  refine (leaves_attempt _).bind fun _ => .bind (leaves_modify ?_) fun _ => ?_
  · exact fun _ => rfl
  exact (leaves_attempt _).bind fun _ => (leaves_attempt _).bind fun _ => leaves_writeString _

theorem leaves_writeMap : Leaves State.blockLog (writeMap package) :=
  leaves_get.bind fun _ => (leaves_writeString _).bind fun _ => leaves_writeRanges _

theorem leaves_installMap : Leaves State.blockLog (installMap package encrypted) := by
  refine (leaves_attempt _).bind fun _ => (leaves_attempt _).bind fun _ => ?_
  refine (leaves_attempt _).onlyIf.bind fun _ => (leaves_attempt _).onlyIf.bind fun _ => ?_
  refine (leaves_attempt _).bind fun _ => .bind (leaves_modify ?_) fun _ => ?_
  · exact fun _ => rfl
  exact (leaves_attempt _).bind fun _ => (leaves_attempt _).bind fun _ => leaves_attempt _

theorem openPackage_blockLog {u : Unit} (h : openPackage package encrypted f2fs s = .ok (u, s')) :
    s'.blockLog = (s.ioctls, [], []) := by
  obtain ⟨_, t, hvars, h₁⟩ := bind_eq_ok.mp h
  cases modify_eq_ok.mp hvars
  exact ((leaves_attempt _).bind fun _ => (leaves_attempt _).onlyIf.bind fun _ =>
    (leaves_attempt _).onlyIf) _ _ _ h₁

theorem leaves_ioctls_of_blockLog {x : UncryptM α} (h : Leaves State.blockLog x) :
    Leaves State.ioctls x :=
  fun s a s' hx => congrArg Prod.fst (h s a s' hx)

theorem leaves_ioctls_saveHead (block : Nat) : Leaves State.ioctls (saveHead package block) := by
  refine (leaves_fits _ _).bind fun _ => leaves_get.bind fun _ => ?_
  exact (leaves_ioctls_of_blockLog (leaves_attempt _)).bind fun _ => leaves_modify fun _ => rfl

theorem leaves_ioctls_readNext : Leaves State.ioctls (readNext package encrypted) := by
  refine .bind (.onlyIf ?_) fun _ => .bind (.onlyIf ?_) fun _ => ?_
  · exact (leaves_ioctls_of_blockLog (leaves_attempt _)).bind fun _ => leaves_modify fun _ => rfl
  · exact leaves_modify fun _ => rfl
  · exact leaves_modify fun _ => rfl

/-! ## Queries -/

variable (package) in
/-- What the loop of `retry_fibmap` finds, and the number of the call after its last one. -/
def Package.retryLookup : (retries call block : Nat) → Option (Nat × Nat)
  | 0, _, _ => none
  | retries + 1, call, block =>
    match package.fibmap call block with
    | none => none
    | some found =>
      if found ≠ 0 then some (found, call + 1) else retryLookup retries (call + 1) found

variable (package) in
/-- What is found for a block when `call` is the number of the next call. -/
def Package.lookup (call block : Nat) : Option (Nat × Nat) :=
  match package.fibmap call block with
  | none => none
  | some found =>
    if found = 0 then package.retryLookup FIBMAP_RETRY_LIMIT (call + 1) found
      else some (found, call + 1)

variable (package) in
/-- The number of the first call for a block, if the blocks are looked up in order from call `start`
on. -/
def Package.firstCall (start : Nat) : (block : Nat) → Nat
  | 0 => start
  | block + 1 => ((package.lookup (firstCall start block) block).map (·.2)).getD 0

variable (package) in
/-- What is then found for it. -/
def Package.found (start block : Nat) : Nat :=
  ((package.lookup (package.firstCall start block) block).map (·.1)).getD 0

theorem retryFibmap_eq_ok {found : Nat}
    (h : retryFibmap package retries block s = .ok (found, s')) :
    package.retryLookup retries s.ioctls block = some (found, s'.ioctls) ∧ s.Calls s' := by
  induction retries generalizing block s with
  | zero => exact absurd h not_throw_eq_ok
  | succ retries ih =>
    obtain ⟨_, t, hsync, h₁⟩ := bind_eq_ok.mp h
    obtain ⟨found₁, t', hfibmap, h₂⟩ := bind_eq_ok.mp h₁
    have hi := leaves_ioctls_of_blockLog (leaves_attempt _) _ _ _ hsync
    have hcalls := attempt_eq_ok hsync
    cases hfibmap
    rw [hi] at h₂
    unfold Package.retryLookup
    cases hq : package.fibmap s.ioctls block with
    | none =>
      rw [hq] at h₂
      exact absurd h₂ not_throw_eq_ok
    | some found₁ =>
      rw [hq] at h₂
      dsimp only at h₂ ⊢
      split at h₂
      · rename_i hne
        obtain ⟨rfl, rfl⟩ := pure_eq_ok.mp h₂
        rw [if_pos hne]
        exact ⟨rfl, hcalls.trans ⟨t.calls, s.ioctls + 1, rfl⟩⟩
      · rename_i hne
        rw [if_neg hne]
        obtain ⟨hretry, hcalls'⟩ := ih h₂
        exact ⟨hretry, hcalls.trans (State.Calls.trans ⟨t.calls, s.ioctls + 1, rfl⟩ hcalls')⟩

theorem findBlock_eq_ok {found : Nat} (h : findBlock package block s = .ok (found, s')) :
    package.lookup s.ioctls block = some (found, s'.ioctls) ∧ s.Calls s' := by
  obtain ⟨_, t, hfibmap, h₁⟩ := bind_eq_ok.mp h
  cases hfibmap
  unfold Package.lookup
  cases hq : package.fibmap s.ioctls block with
  | none =>
    rw [hq] at h₁
    exact absurd h₁ not_throw_eq_ok
  | some found₁ =>
    rw [hq] at h₁
    dsimp only at h₁ ⊢
    split at h₁
    · rename_i hzero
      rw [if_pos hzero]
      obtain ⟨hretry, hcalls⟩ := retryFibmap_eq_ok h₁
      exact ⟨hretry, State.Calls.trans ⟨s.calls, s.ioctls + 1, rfl⟩ hcalls⟩
    · rename_i hzero
      obtain ⟨rfl, rfl⟩ := pure_eq_ok.mp h₁
      rw [if_neg hzero]
      exact ⟨rfl, s.calls, s.ioctls + 1, rfl⟩

/-! ## The accesses -/

/-- A write of the log, by its offset. -/
def Access.asWrite : Access → Option (Nat × List UInt8)
  | .read _ _ => none
  | .write offset bytes => some (offset, bytes)

def Access.writes (accesses : List Access) : List (Nat × List UInt8) :=
  accesses.filterMap Access.asWrite

variable (package) in
/-- The writes are those of the first `n` blocks of the package, in order, each to its block on the
device (the last one with the rest of a buffer behind it), and each comes after its block was
read. -/
structure Package.WritesOut (m : Nat → Nat) (n : Nat) (accesses : List Access) : Prop where
  writes : List.Forall₂ (fun k w => w.1 = package.blksize * m k ∧ w.2.length = package.blksize ∧
    package.block k <+: w.2) (List.range n) (Access.writes accesses)
  afterRead : ∀ before offset bytes after, accesses = before ++ .write offset bytes :: after →
    ∃ k, k = (Access.writes before).length ∧
      .read (k * package.blksize) (package.block k).length ∈ before

theorem Package.WritesOut.nil : package.WritesOut m 0 [] where
  writes := .nil
  afterRead before offset bytes after h := by
    cases before <;> cases h

theorem writes_concat_read (accesses : List Access) (pos len : Nat) :
    Access.writes (accesses ++ [.read pos len]) = Access.writes accesses := by
  rw [Access.writes, List.filterMap_append]
  exact List.append_nil _

theorem writes_concat_write (accesses : List Access) (offset : Nat) (bytes : List UInt8) :
    Access.writes (accesses ++ [.write offset bytes]) =
    Access.writes accesses ++ [(offset, bytes)] := by
  rw [Access.writes, List.filterMap_append]
  rfl

theorem Package.WritesOut.read (h : package.WritesOut m n accesses) (pos len : Nat) :
    package.WritesOut m n (accesses ++ [.read pos len]) where
  writes := by
    rw [writes_concat_read]
    exact h.writes
  afterRead before offset bytes after heq := by
    rcases List.eq_nil_or_concat after with rfl | ⟨after, last, rfl⟩
    · have := (List.append_inj' heq rfl).2
      cases this
    · rw [List.concat_eq_append, ← List.cons_append, ← List.append_assoc] at heq
      exact h.afterRead before offset bytes after (List.append_inj' heq rfl).1

theorem Package.WritesOut.write (h : package.WritesOut m n accesses)
    (hread : .read (n * package.blksize) (package.block n).length ∈ accesses)
    (hlen : bytes.length = package.blksize) (hbytes : package.block n <+: bytes) :
    package.WritesOut m (n + 1) (accesses ++ [.write (package.blksize * m n) bytes]) where
  writes := by
    rw [writes_concat_write, List.range_succ]
    exact List.rel_append h.writes (.cons ⟨rfl, hlen, hbytes⟩ .nil)
  afterRead before offset bytes after heq := by
    rcases List.eq_nil_or_concat after with rfl | ⟨after, last, rfl⟩
    · obtain ⟨rfl, -⟩ := List.append_inj' heq rfl
      refine ⟨n, ?_, hread⟩
      rw [← h.writes.length_eq, List.length_range]
    · rw [List.concat_eq_append, ← List.cons_append, ← List.append_assoc] at heq
      exact h.afterRead before offset bytes after (List.append_inj' heq rfl).1

theorem Package.WritesOut.congr (h : package.WritesOut m n accesses) (hm : ∀ k < n, m k = p k) :
    package.WritesOut p n accesses where
  writes := by
    obtain ⟨hlen, hall⟩ := List.forall₂_iff_zip.mp h.writes
    refine List.forall₂_iff_zip.mpr ⟨hlen, fun {k w} hmem => ?_⟩
    rw [← hm k (List.mem_range.mp (List.of_mem_zip hmem).1)]
    exact hall hmem
  afterRead := h.afterRead

variable (package encrypted) in
/-- What the loops keep besides the window: the blocks before the head block were looked up in
order, and on an encrypted file system the log shows what was read and written. -/
structure Traced (start read : Nat) (s : State) : Prop where
  ioctls : s.ioctls = package.firstCall start s.headBlock
  found : ∀ k < s.headBlock, package.lookup (package.firstCall start k) k =
    some (package.found start k, package.firstCall start (k + 1))
  reads : encrypted = true →
    ∀ k < read, .read (k * package.blksize) (package.block k).length ∈ s.accesses
  writes : encrypted = true → package.WritesOut (package.found start) s.headBlock s.accesses

variable {start read : Nat}

theorem Traced.initial (hlog : s.blockLog = (start, [], [])) (hhead : s.headBlock = 0) :
    Traced package encrypted start 0 s where
  ioctls := by
    rw [hhead]
    exact congrArg Prod.fst hlog
  found k hk := absurd hk (by rw [hhead]; exact Nat.not_lt_zero k)
  reads _ k hk := absurd hk (Nat.not_lt_zero k)
  writes _ := by
    rw [hhead, show s.accesses = [] from congrArg (·.2.1) hlog]
    exact .nil

theorem Traced.lookup (ht : Traced package encrypted start read s) {found : Nat} {t : State}
    (h : findBlock package s.headBlock s = .ok (found, t)) :
    found = package.found start s.headBlock ∧ t.ioctls = package.firstCall start (s.headBlock + 1) ∧
      package.lookup (package.firstCall start s.headBlock) s.headBlock =
      some (found, t.ioctls) := by
  obtain ⟨hlookup, -⟩ := findBlock_eq_ok h
  rw [ht.ioctls] at hlookup
  rw [Package.found, Package.firstCall, hlookup]
  exact ⟨rfl, rfl, rfl⟩

theorem writeOutHead_ioctls {u : Unit} (h : writeOutHead package encrypted s = .ok (u, s')) :
    ∃ found t, findBlock package s.headBlock s = .ok (found, t) ∧ s'.ioctls = t.ioctls := by
  obtain ⟨_, _, hget, h₁⟩ := bind_eq_ok.mp h
  obtain ⟨rfl, rfl⟩ := get_eq_ok.mp hget
  obtain ⟨found, t, hfound, h₂⟩ := bind_eq_ok.mp h₁
  have hrest : Leaves State.ioctls (α := Unit) (do
      fits 32 (found + 1)
      modify fun s => { s with ranges := addBlockToRanges s.ranges found }
      onlyIf encrypted (saveHead package found)
      fits 32 (s.headBlock + 1)
      modify fun s =>
        { s with head := (s.head + 1) % WINDOW_SIZE, headBlock := s.headBlock + 1 }) := by
    refine (leaves_fits _ _).bind fun _ => .bind (leaves_modify ?_) fun _ => ?_
    · exact fun _ => rfl
    refine (leaves_ioctls_saveHead _).onlyIf.bind fun _ => (leaves_fits _ _).bind fun _ => ?_
    exact leaves_modify fun _ => rfl
  exact ⟨found, t, hfound, hrest _ _ _ h₂⟩

theorem Traced.writeOutHead {dev : BlockDevice} {u : Unit}
    (hw : Window package encrypted (package.found start) dev read s)
    (ht : Traced package encrypted start read s) (hlt : s.headBlock < read)
    (h : writeOutHead package encrypted s = .ok (u, s')) :
    Traced package encrypted start read s' := by
  obtain ⟨found, t, hfound, hioctls⟩ := writeOutHead_ioctls h
  obtain ⟨rfl, hnext, hlookup⟩ := ht.lookup hfound
  rw [hnext] at hlookup
  obtain ⟨-, -, calls, ioctls, rfl⟩ := writeOutHead_eq_ok
    (fun found t hf => ⟨(ht.lookup hf).1, (findBlock_eq_ok hf).2⟩) h
  refine ⟨hioctls.trans hnext, fun k hk => ?_, fun henc k hk => ?_, fun henc => ?_⟩
  · rcases Nat.lt_succ_iff_lt_or_eq.mp hk with hk | rfl
    · exact ht.found k hk
    · exact hlookup
  · cases henc
    exact List.mem_append_left _ (ht.reads rfl k hk)
  · cases henc
    -- the head buffer starts with the head block
    obtain ⟨hlen, hall, hin⟩ := hw.buffers rfl
    have hbuf : s.head < s.buffers.length := by
      rw [hlen, hw.head]
      exact Nat.mod_lt _ (by decide)
    have hmem : s.buffers.getD s.head [] ∈ s.buffers := by
      rw [List.getD_eq_getElem _ _ hbuf]
      exact List.getElem_mem hbuf
    have hbytes : package.block s.headBlock <+: s.buffers.getD s.head [] := by
      refine hin s.headBlock le_rfl hlt _ ?_
      rw [← hw.head, List.getD_eq_getElem _ _ hbuf, List.getElem?_eq_getElem hbuf]
      rfl
    exact (ht.writes rfl).write (ht.reads rfl _ hlt) (hall _ hmem) hbytes

theorem Traced.readNext {dev : BlockDevice} {u : Unit} (hdata : 0 < package.data.length)
    (hblk : 0 < package.blksize) (hw : Window package encrypted (package.found start) dev read s)
    (ht : Traced package encrypted start read s) (hlt : read < package.blocks)
    (h : readNext package encrypted s = .ok (u, s')) :
    Traced package encrypted start (read + 1) s' := by
  have hioctls := leaves_ioctls_readNext _ _ _ h
  obtain ⟨calls, ioctls, rfl⟩ := readNext_eq_ok h
  cases encrypted with
  | false => exact ⟨hioctls.trans ht.ioctls, ht.found, (nomatch ·), (nomatch ·)⟩
  | true =>
    have hinFile := (package.lt_blocks_iff hdata hblk).mp hlt
    have hpos : s.pos = read * package.blksize := by
      rw [hw.pos, if_pos rfl, Nat.min_eq_left hinFile.le]
    refine ⟨hioctls.trans ht.ioctls, ht.found, fun _ k hk => ?_, fun _ => (ht.writes rfl).read _ _⟩
    change _ ∈ s.accesses ++ [.read s.pos (min package.blksize (package.data.length - s.pos))]
    rcases Nat.lt_succ_iff_lt_or_eq.mp hk with hk | rfl
    · exact List.mem_append_left _ (ht.reads rfl k hk)
    · refine List.mem_append_right _ (List.mem_singleton.mpr ?_)
      rw [hpos, package.length_block]

theorem findsWhile_traced (hdata : 0 < package.data.length) (hblk : 0 < package.blksize)
    (dev : BlockDevice) (start : Nat) :
    package.FindsWhile encrypted (package.found start) dev (Traced package encrypted start) where
  found _ _ _ ht _ _ _ hf := ⟨(ht.lookup hf).1, (findBlock_eq_ok hf).2⟩
  head _ _ _ _ hw ht hlt h := ht.writeOutHead hw hlt h
  tail _ _ _ _ hw ht hlt h := ht.readNext hdata hblk hw hlt h

/-- **A run that returned 0** has looked up all blocks in order, its ranges are those that were
found, and on an encrypted file system it has written the blocks there. -/
theorem produceBlockMap_traced {blkDev : Text} (hdata : 0 < package.data.length)
    (hblk : 0 < package.blksize)
    (h : produceBlockMap package encrypted blkDev f2fs s = .ok ((), s')) :
    (∀ k < package.blocks, package.lookup (package.firstCall s.ioctls k) k =
      some (package.found s.ioctls k, package.firstCall s.ioctls (k + 1))) ∧
      expand s'.ranges = (List.range package.blocks).map (package.found s.ioctls) ∧
      (encrypted = true →
        package.WritesOut (package.found s.ioctls) package.blocks s'.accesses) := by
  obtain ⟨_, t₁, hopen, h₁⟩ := bind_eq_ok.mp h
  obtain ⟨_, t₂, hpackage, h₂⟩ := bind_eq_ok.mp h₁
  obtain ⟨_, t₃, hread, h₃⟩ := bind_eq_ok.mp h₂
  obtain ⟨_, t₄, hdrain, h₄⟩ := bind_eq_ok.mp h₃
  obtain ⟨_, t₅, hwrite, hinstall⟩ := bind_eq_ok.mp h₄
  have hlog := openPackage_blockLog hpackage
  rw [leaves_ioctls_of_blockLog (leaves_openMap blkDev) _ _ _ hopen] at hlog
  obtain ⟨hstart, -⟩ := openPackage_eq_ok (m := package.found s.ioctls) hpackage
  have hhead : t₂.headBlock = 0 := Nat.le_zero.mp hstart.le
  have hfuel : package.blocks ≤ 0 + package.data.length := by
    have := Nat.div_le_self (package.data.length - 1) package.blksize
    rw [Package.blocks]
    omega
  have hfinds : package.FindsWhile encrypted (package.found s.ioctls) t₁.device _ :=
    findsWhile_traced hdata hblk t₁.device s.ioctls
  obtain ⟨hwin, htraced, -⟩ :=
    readLoop_window hdata hblk hfinds hstart (.initial hlog hhead) hfuel hread
  obtain ⟨hend, htraced, hblocks, -⟩ := drainLoop_window hfinds hwin htraced hwin.lt.le hdrain
  have hsame : s'.blockLog = t₄.blockLog :=
    (leaves_installMap _ _ _ hinstall).trans (leaves_writeMap _ _ _ hwrite)
  have hranges : s'.ranges = t₄.ranges := congrArg (·.2.2) hsame
  have haccesses : s'.accesses = t₄.accesses := congrArg (·.2.1) hsame
  rw [hranges, haccesses, hend.ranges, expand_rangesOf, ← hblocks]
  exact ⟨htraced.found, rfl, htraced.writes⟩

/-! ## Which block is found -/

variable (package p) in
/-- `FIBMAP` gives the block of the device that a block of the package is in, or, any number of
times, 0. -/
structure Package.Maps : Prop where
  fibmap : ∀ call, ∀ k < package.blocks, ∀ found, package.fibmap call k = some found →
    found = p k ∨ found = 0
  ne_zero : ∀ k < package.blocks, p k ≠ 0
  injective : ∀ i < package.blocks, ∀ j < package.blocks, p i = p j → i = j

variable (package) in
/-- How many of the next calls for the first block give 0, one after the other. -/
def Package.zeros (call : Nat) : (limit : Nat) → Nat
  | 0 => 0
  | limit + 1 => if package.fibmap call 0 = some 0 then zeros (call + 1) limit + 1 else 0

theorem lookup_eq_retryLookup (call block : Nat) :
    package.lookup call block = package.retryLookup (FIBMAP_RETRY_LIMIT + 1) call block := by
  unfold Package.lookup
  rw [Package.retryLookup]
  cases package.fibmap call block with
  | none => rfl
  | some found =>
    dsimp only
    by_cases hzero : found = 0
    · rw [if_pos hzero, if_neg (not_not_intro hzero)]
    · rw [if_neg hzero, if_pos hzero]

theorem zero_lt_blocks : 0 < package.blocks := Nat.succ_pos _

theorem Package.Maps.retryLookup_zero {found next : Nat} (hm : package.Maps p)
    (h : package.retryLookup retries call 0 = some (found, next)) :
    found = p 0 ∧ next = call + package.zeros call retries + 1 := by
  induction retries generalizing call with
  | zero => cases h
  | succ retries ih =>
    rw [Package.retryLookup] at h
    rw [Package.zeros]
    split at h
    · cases h
    rename_i found₁ hq
    split at h
    · rename_i hne
      cases h
      rw [hq, if_neg fun h => hne (Option.some.inj h)]
      exact ⟨(hm.fibmap call 0 zero_lt_blocks _ hq).resolve_right hne, rfl⟩
    · rename_i hzero
      obtain rfl := Decidable.not_not.mp hzero
      obtain ⟨hfound, hnext⟩ := ih h
      rw [hq, if_pos rfl]
      exact ⟨hfound, by omega⟩

/-- **One block.** If the first call does not give 0 it is found; otherwise the first block is. -/
theorem Package.Maps.lookup {found next : Nat} (hm : package.Maps p) (hk : k < package.blocks)
    (h : package.lookup call k = some (found, next)) :
    (package.fibmap call k ≠ some 0 → found = p k ∧ next = call + 1) ∧
      (package.fibmap call k = some 0 → found = p 0) := by
  unfold Package.lookup at h
  split at h
  · cases h
  rename_i found₁ hq
  rw [hq]
  split at h
  · rename_i hzero
    subst found₁
    exact ⟨fun hne => absurd rfl hne, fun _ => (hm.retryLookup_zero h).1⟩
  · rename_i hne
    cases h
    exact ⟨fun _ => ⟨(hm.fibmap call k hk _ hq).resolve_right hne, rfl⟩, fun h =>
      absurd (Option.some.inj h) hne⟩

section
variable (hm : package.Maps p)
    (hall : ∀ k < package.blocks, package.lookup (package.firstCall start k) k =
  some (package.found start k, package.firstCall start (k + 1)))
include hm hall

theorem Package.Maps.found_zero : package.found start 0 = p 0 ∧
    package.firstCall start 1 = start + package.zeros start (FIBMAP_RETRY_LIMIT + 1) + 1 := by
  have h := hall 0 zero_lt_blocks
  rw [lookup_eq_retryLookup] at h
  exact hm.retryLookup_zero h

/-- As long as no block is asked for again, each block but the first takes one call. -/
theorem Package.Maps.firstCall_eq {k : Nat} (hk : k < package.blocks) (hpos : 0 < k)
    (h : ∀ j, 0 < j → j < k →
      package.fibmap (start + package.zeros start (FIBMAP_RETRY_LIMIT + 1) + j) j ≠ some 0) :
    package.firstCall start k = start + package.zeros start (FIBMAP_RETRY_LIMIT + 1) + k := by
  induction k with
  | zero => exact absurd hpos (Nat.lt_irrefl 0)
  | succ k ih =>
    rcases Nat.eq_zero_or_pos k with rfl | hkpos
    · exact (hm.found_zero hall).2
    · have hprev := ih (Nat.lt_of_succ_lt hk) hkpos fun j hj hlt => h j hj (Nat.lt_succ_of_lt hlt)
      have hlookup := (hm.lookup (Nat.lt_of_succ_lt hk) (hall k (Nat.lt_of_succ_lt hk))).1
      rw [hprev] at hlookup
      exact (hlookup (h k hkpos (Nat.lt_succ_self k))).2

/-- All blocks are right if and only if none but the first is asked for again. -/
theorem Package.Maps.found_eq_iff : (∀ k < package.blocks, package.found start k = p k) ↔
    ∀ k < package.blocks, 0 < k →
      package.fibmap (start + package.zeros start (FIBMAP_RETRY_LIMIT + 1) + k) k ≠ some 0 := by
  constructor
  · intro hfound k
    induction k using Nat.strong_induction_on with
    | h k ih =>
      intro hk hpos hzero
      have hcall := hm.firstCall_eq hall hk hpos fun j hj hlt => ih j hlt (Nat.lt_trans hlt hk) hj
      have hlookup := (hm.lookup hk (hall k hk)).2
      rw [hcall] at hlookup
      have hsame := hm.injective k hk 0 zero_lt_blocks ((hfound k hk).symm.trans (hlookup hzero))
      omega
  · intro h k hk
    rcases Nat.eq_zero_or_pos k with rfl | hpos
    · exact (hm.found_zero hall).1
    · have hcall := hm.firstCall_eq hall hk hpos fun j hj hlt => h j (Nat.lt_trans hlt hk) hj
      have hlookup := (hm.lookup hk (hall k hk)).1
      rw [hcall] at hlookup
      exact (hlookup (h k hk hpos)).1

end

/-- **The block window.** When `produce_block_map` returns 0, the ranges list the blocks of the
package, and on an encrypted file system exactly these are written, once each and after they were
read, if and only if for no block but the first the first `FIBMAP` call gives 0. -/
theorem produceBlockMap_right_iff {blkDev : Text} (hdata : 0 < package.data.length)
    (hblk : 0 < package.blksize) (hm : package.Maps p)
    (h : produceBlockMap package encrypted blkDev f2fs s = .ok ((), s')) :
    (expand s'.ranges = (List.range package.blocks).map p ∧
      (encrypted = true → package.WritesOut p package.blocks s'.accesses)) ↔
    ∀ k < package.blocks, 0 < k →
      package.fibmap (s.ioctls + package.zeros s.ioctls (FIBMAP_RETRY_LIMIT + 1) + k) k ≠
      some 0 := by
  obtain ⟨hall, hranges, hwrites⟩ := produceBlockMap_traced hdata hblk h
  rw [hranges, ← hm.found_eq_iff hall]
  constructor
  · rintro ⟨heq, -⟩ k hk
    exact List.map_inj_left.mp heq k (List.mem_range.mpr hk)
  · intro heq
    exact ⟨List.map_inj_left.mpr fun k hk => heq k (List.mem_range.mp hk), fun henc =>
      (hwrites henc).congr heq⟩

/-- `FIBMAP` gives 0 in one call, before the block is allocated. -/
def delayedPackage (call : Nat) : Package :=
  ⟨[1, 2, 3], 2, fun c k => if c = call then some 0 else some (k + 5), fun _ => true⟩

theorem delayedPackage_maps (call : Nat) : (delayedPackage call).Maps (· + 5) where
  fibmap _ k _ found h := by
    dsimp only [delayedPackage] at h
    split at h <;> cases h
    · exact .inr rfl
    · exact .inl rfl
  ne_zero _ _ := Nat.succ_ne_zero _
  injective _ _ _ _ h := Nat.add_right_cancel h

/-- A run on an encrypted file system, which has to return 0. -/
def delayedEnd (call : Nat) : State :=
  match produceBlockMap (delayedPackage call) true "/d".toList false (sampleState none) with
  | .ok r => r.2
  | .error _ => sampleState none

theorem produceBlockMap_delayed {call : Nat}
    (h : (produceBlockMap (delayedPackage call) true "/d".toList false (sampleState none)).isOk =
      true) : produceBlockMap (delayedPackage call) true "/d".toList false (sampleState none) =
      .ok ((), delayedEnd call) := by
  unfold delayedEnd
  cases hrun : produceBlockMap (delayedPackage call) true "/d".toList false (sampleState none) with
  | ok r => rfl
  | error e =>
    rw [hrun] at h
    cases h

/-- The first block is asked for twice. -/
theorem produceBlockMap_right_delayed : expand (delayedEnd 0).ranges = [5, 6] ∧
    (delayedPackage 0).WritesOut (· + 5) 2 (delayedEnd 0).accesses := by
  have hright := (produceBlockMap_right_iff (by decide) (by decide) (delayedPackage_maps 0)
    (produceBlockMap_delayed (by decide +kernel))).mpr (by decide +kernel)
  exact ⟨hright.1, hright.2 rfl⟩

/-- Block 1 is asked for twice: block 0 is taken for it, and it is written over. -/
theorem not_produceBlockMap_right :
    produceBlockMap (delayedPackage 1) true "/d".toList false (sampleState none) =
    .ok ((), delayedEnd 1) ∧
      ¬(expand (delayedEnd 1).ranges = (List.range (delayedPackage 1).blocks).map (· + 5) ∧
        (true = true →
        (delayedPackage 1).WritesOut (· + 5) (delayedPackage 1).blocks
        (delayedEnd 1).accesses)) := by
  refine ⟨produceBlockMap_delayed (by decide +kernel), fun h => ?_⟩
  have hranges : expand (delayedEnd 1).ranges = [5, 5] := by decide +kernel
  have := hranges.symm.trans h.1
  revert this
  decide

end BootableRecovery.Uncrypt
