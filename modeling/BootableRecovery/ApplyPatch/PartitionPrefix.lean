import BootableRecovery.ApplyPatch.Partition
import BootableRecovery.OtaUtil.RangeSet
import BootableRecovery.Verifier.VerifyFile

/-!
# The prefix of a partition

`LoadPartitionContents` of `applypatch/applypatch.cpp` as it reads and hashes: the device is read by
the differences of the sorted sizes into one buffer, and a copy of the SHA-1 context is finalised at
each size. If there is memory for the buffer, it gives the smallest listed prefix with its digest
(`loadPartitionContents_spec`), which is what `ApplyPatch.loadPartitionContents` says directly.
-/

namespace BootableRecovery.ApplyPatch.PartitionPrefix

variable (sha : HashApi)

/-! ## The code -/

/-- `struct FileContents`. -/
structure FileContents where
  data : List UInt8
  sha1 : List UInt8
  deriving DecidableEq

/-- The variables of the loop; `dev` is what has not been read of the device. -/
structure Reading where
  buffer : List UInt8
  bufferPtr : Nat
  bufferSize : Nat
  dev : List UInt8
  shaCtx : sha.Ctx

variable {sha}

/-- Enough additional bytes to get up to the next size. `ota_fread` stores what there is, so it must
have room for it. -/
def Reading.readUpTo (st : Reading sha) (currentSize : Nat) : Except Fault (Reading sha) :=
  let next := (currentSize + 2 ^ 64 - st.bufferSize) % 2 ^ 64
  let bytes := st.dev.take next
  if 0 < next then
    if st.buffer.length < st.bufferPtr + bytes.length then .error .crashed
    else if next ≠ bytes.length then .error .failed
    else .ok
      { buffer := overwriteAt st.buffer st.bufferPtr bytes
        bufferPtr := st.bufferPtr + bytes.length
        bufferSize := (st.bufferSize + bytes.length) % 2 ^ 64
        dev := st.dev.drop next
        shaCtx := sha.update st.shaCtx bytes }
  else .ok st

/-- The loop over the sorted pairs, up to a match. -/
def readPairs (st : Reading sha) : List (Nat × Text) → Except Fault (Reading sha)
  | [] => .error .failed
  | (currentSize, currentSha1) :: pairs => do
    let st ← st.readUpTo currentSize
    -- the copy of the context is finalised, and `st.shaCtx` goes on
    let shaSoFar := sha.final st.shaCtx
    match parseSha1 currentSha1 with
    | none => .error .failed
    | some parsedSha => if shaSoFar = parsedSha then return st else readPairs st pairs

variable (sha)

/-- `LoadPartitionContents`; `openDev` gives the content of the device under a path, if `ota_fopen`
opens it, and `memory` is the size of the largest vector that there is memory for. -/
def loadPartitionContents (memory : Nat) (openDev : Text → Option (List UInt8)) (filename : Text) :
    Except Fault FileContents :=
  match parseName filename with
  | none => .error .failed
  | some (partition, pairs) =>
    match openDev (cstr partition) with
    | none => .error .failed
    | some content =>
      let largest := ((pairs.getLast?).map Prod.fst).getD 0
      -- the buffer for the largest size is made before anything is read
      if ¬CanAllocate memory largest then .error .crashed
      else do
        let st ← readPairs ⟨List.replicate largest 0, 0, 0, content, sha.init⟩ pairs
        return ⟨st.buffer.takeD st.bufferSize 0, sha.final st.shaCtx⟩

/-! ## Names -/

/-- `EMMC:<path>:<size>:<sha1>:...` with some entries, whose sizes and digests can be read. -/
structure WellFormed (filename path : Text) (entries : List (Text × Text)) : Prop where
  pieces : filename.splitOn ':' = "EMMC".toList :: path :: entries.flatMap fun e => [e.1, e.2]
  entries_ne_nil : entries ≠ []
  size : ∀ e ∈ entries, ∃ n, parseUint e.1 = some n ∧ n ≠ 0
  digest : ∀ e ∈ entries, (parseSha1 e.2).isSome

/-- An entry lists the size `n`, and the prefix of this size has the digest of the entry. -/
def Matches (content : List UInt8) (e : Text × Text) (n : Nat) : Prop :=
  parseUint e.1 = some n ∧ n ≤ content.length ∧ parseSha1 e.2 = some (sha.digest (content.take n))

/-- There is memory for a buffer of each listed size. -/
def Allocatable (memory : Nat) (entries : List (Text × Text)) : Prop :=
  ∀ e ∈ entries, ∀ n, parseUint e.1 = some n → CanAllocate memory n

variable {sha} {filename path : Text} {entries : List (Text × Text)} {content : List UInt8}
variable {pairs : List (Nat × Text)} {p : Nat × Text} {largest memory n : Nat}

theorem parseUint_lt {s : Text} (h : parseUint s = some n) : n < 2 ^ 64 := by
  have hfilter : ∀ o : Option Nat, o.filter (· < 2 ^ 64) = some n → n < 2 ^ 64 := by
    intro o ho
    simpa using (Option.filter_eq_some_iff.mp ho).2
  unfold parseUint at h
  split at h
  · cases h
  · exact hfilter _ h
  · exact hfilter _ h

theorem parsePairs_entries (h : ∀ e ∈ entries, ∃ n, parseUint e.1 = some n ∧ n ≠ 0) :
    ∃ pairs, parsePairs (entries.flatMap fun e => [e.1, e.2]) = some pairs ∧
    pairs.length = entries.length ∧
      ∀ p, p ∈ pairs ↔ ∃ e ∈ entries, parseUint e.1 = some p.1 ∧ e.2 = p.2 := by
  induction entries with
  | nil => exact ⟨[], rfl, rfl, by simp⟩
  | cons e entries ih =>
    obtain ⟨n, hn, hne⟩ := h e List.mem_cons_self
    obtain ⟨pairs, hpairs, hlength, hmem⟩ := ih fun e' he' => h e' (List.mem_cons_of_mem e he')
    refine ⟨(n, e.2) :: pairs, ?_, by rw [List.length_cons, List.length_cons, hlength], ?_⟩
    · rw [List.flatMap_cons, List.cons_append, List.singleton_append, parsePairs, hn,
        Option.bind_eq_bind, Option.bind_some, if_neg hne, hpairs]
      rfl
    · intro p
      rw [List.mem_cons, hmem, List.exists_mem_cons_iff, hn]
      refine or_congr_left ⟨fun hp => by rw [hp]; exact ⟨rfl, rfl⟩, fun hp => ?_⟩
      exact Prod.ext (Option.some.inj hp.1).symm hp.2.symm

theorem PairLE.total (a b : Nat × Text) : PairLE a b ∨ PairLE b a := by
  rcases Nat.lt_trichotomy a.1 b.1 with hlt | heq | hgt
  · exact .inl (.inl hlt)
  · rcases le_total a.2 b.2 with hle | hge
    · exact .inl (.inr ⟨heq, hle⟩)
    · exact .inr (.inr ⟨heq.symm, hge⟩)
  · exact .inr (.inl hgt)

theorem PairLE.trans {a b c : Nat × Text} (hab : PairLE a b) (hbc : PairLE b c) : PairLE a c := by
  rcases hab with hab | ⟨hab, hab'⟩
  · rcases hbc with hbc | ⟨hbc, -⟩
    · exact .inl (hab.trans hbc)
    · exact .inl (hbc ▸ hab)
  · rcases hbc with hbc | ⟨hbc, hbc'⟩
    · exact .inl (hab ▸ hbc)
    · exact .inr ⟨hab.trans hbc, le_trans hab' hbc'⟩

instance : Std.Total PairLE := ⟨PairLE.total⟩

instance : IsTrans (Nat × Text) PairLE := ⟨fun _ _ _ => PairLE.trans⟩

/-- The pairs stand in the order of their sizes. -/
def Ordered (pairs : List (Nat × Text)) : Prop := pairs.Pairwise fun p q => p.1 ≤ q.1

theorem ordered_insertionSort (pairs : List (Nat × Text)) :
    Ordered (pairs.insertionSort PairLE) := by
  refine (List.pairwise_insertionSort PairLE pairs).imp fun h => ?_
  rcases h with h | ⟨h, -⟩
  · exact h.le
  · exact h.le

theorem parseName_of_wellFormed (h : WellFormed filename path entries) :
    ∃ pairs, parseName filename = some (path, pairs) ∧ Ordered pairs ∧
      ∀ p, p ∈ pairs ↔ ∃ e ∈ entries, parseUint e.1 = some p.1 ∧ e.2 = p.2 := by
  obtain ⟨pairs, hpairs, -, hmem⟩ := parsePairs_entries h.size
  refine ⟨pairs.insertionSort PairLE, ?_, ordered_insertionSort pairs, fun p => ?_⟩
  · have hlength : (entries.flatMap fun e => [e.1, e.2]).length = entries.length * 2 := by
      simp [List.length_flatMap]
    have hpos := List.length_pos_iff.mpr h.entries_ne_nil
    rw [parseName, h.pieces]
    dsimp only
    rw [if_neg ?_, hpairs]
    · rfl
    · rw [hlength]
      rintro (hshort | hodd | hkind)
      · omega
      · omega
      · exact hkind rfl
  · rw [List.mem_insertionSort, hmem]

/-! ## Reading -/

/-- What holds between two pairs: the prefix is in the buffer, and its pieces have gone into the
context. -/
structure Reading.Holds (st : Reading sha) (content : List UInt8) (largest : Nat) : Prop where
  length : st.buffer.length = largest
  ptr : st.bufferPtr = st.bufferSize
  le : st.bufferSize ≤ content.length
  bound : st.bufferSize ≤ largest
  buffer : st.buffer.take st.bufferSize = content.take st.bufferSize
  dev : st.dev = content.drop st.bufferSize
  ctx : ∃ pieces : List (List UInt8), st.shaCtx = pieces.foldl sha.update sha.init ∧
    pieces.flatten = content.take st.bufferSize

theorem Reading.Holds.final {st : Reading sha} (h : st.Holds content largest) :
    sha.final st.shaCtx = sha.digest (content.take st.bufferSize) := by
  obtain ⟨pieces, hctx, hpieces⟩ := h.ctx
  rw [hctx, sha.chunked, hpieces]

theorem holds_init (content : List UInt8) (largest : Nat) :
    (⟨List.replicate largest 0, 0, 0, content, sha.init⟩ : Reading sha).Holds content largest where
  length := List.length_replicate
  ptr := rfl
  le := Nat.zero_le _
  bound := Nat.zero_le _
  buffer := rfl
  dev := rfl
  ctx := ⟨[], rfl, rfl⟩

/-- The next size is reached, also by a difference of zero, or the partition is too short. -/
theorem readUpTo_spec {st : Reading sha} (h : st.Holds content largest) (hlow : st.bufferSize ≤ n)
    (hhigh : n ≤ largest) (hn : n < 2 ^ 64) :
    if n ≤ content.length then ∃ st' : Reading sha, st.readUpTo n = .ok st' ∧
    st'.Holds content largest ∧ st'.bufferSize = n
    else st.readUpTo n = .error .failed := by
  have hnext : (n + 2 ^ 64 - st.bufferSize) % 2 ^ 64 = n - st.bufferSize := by omega
  have hle := h.le
  have hread :
      (st.dev.take (n - st.bufferSize)).length =
      min (n - st.bufferSize) (content.length - st.bufferSize) := by
    rw [h.dev, List.length_take, List.length_drop]
  unfold Reading.readUpTo
  simp only [hnext, hread, h.length, h.ptr]
  split
  · rename_i hfits
    have hmin :
        min (n - st.bufferSize) (content.length - st.bufferSize) = n - st.bufferSize := by omega
    rw [hmin] at hread
    split
    · rw [if_neg (by omega), if_neg (by omega)]
      have hsize :
          (st.bufferSize + min (n - st.bufferSize) (content.length - st.bufferSize)) % 2 ^ 64 =
          n := by omega
      have hprefix :
          content.take st.bufferSize ++ st.dev.take (n - st.bufferSize) = content.take n := by
        rw [h.dev, ← List.take_add, Nat.add_sub_cancel' hlow]
      refine ⟨_, rfl, ⟨?_, ?_, ?_, ?_, ?_, ?_, ?_⟩, hsize⟩
      · dsimp only
        rw [length_overwriteAt (by rw [h.length, hread]; omega), h.length]
      · dsimp only
        omega
      · dsimp only
        omega
      · dsimp only
        omega
      · dsimp only
        have htake := @take_overwriteAt _ st.buffer (st.dev.take (n - st.bufferSize)) st.bufferSize
          (by rw [h.length]; exact h.bound)
        rw [hread, Nat.add_sub_cancel' hlow, h.buffer, hprefix] at htake
        rw [hsize, htake]
      · dsimp only
        rw [hsize, h.dev, List.drop_drop, Nat.add_sub_cancel' hlow]
      · obtain ⟨pieces, hctx, hpieces⟩ := h.ctx
        refine ⟨pieces ++ [st.dev.take (n - st.bufferSize)], ?_, ?_⟩
        · rw [List.foldl_append, hctx]
          rfl
        · dsimp only
          rw [hsize, List.flatten_append, List.flatten_singleton, hpieces, hprefix]
    · exact ⟨st, rfl, h, by omega⟩
  · rw [if_pos (by omega), if_neg (by omega), if_pos (by omega)]

theorem readPairs_spec {env : PatchEnv} (henv : env.sha1 = sha.digest) {st : Reading sha}
    (h : st.Holds content largest) (hordered : Ordered pairs)
    (hbounds : ∀ p ∈ pairs, st.bufferSize ≤ p.1 ∧ p.1 ≤ largest ∧ p.1 < 2 ^ 64) :
    match matchPairs env content pairs with
    | none => readPairs st pairs = .error .failed
    | some data => ∃ st' : Reading sha, readPairs st pairs = .ok st' ∧ st'.Holds content largest ∧
        data = content.take st'.bufferSize := by
  induction pairs generalizing st with
  | nil => rfl
  | cons p pairs ih =>
    obtain ⟨size, sha1⟩ := p
    obtain ⟨hlow, hhigh, hlt⟩ := hbounds _ List.mem_cons_self
    have hread := readUpTo_spec h hlow hhigh hlt
    rw [matchPairs, readPairs]
    by_cases hfits : size ≤ content.length
    · rw [if_pos hfits] at hread
      obtain ⟨st', hst', hholds, hsize⟩ := hread
      rw [if_neg (Nat.not_lt.mpr hfits), hst']
      cases hdigest : parseSha1 sha1 with
      | none => rfl
      | some digest =>
        have hfinal := hholds.final
        rw [hsize] at hfinal
        dsimp only [bind, Except.bind]
        rw [henv, hfinal]
        by_cases hmatch : sha.digest (content.take size) = digest
        · rw [if_pos hmatch, if_pos hmatch]
          exact ⟨st', rfl, hholds, by rw [hsize]⟩
        · rw [if_neg hmatch, if_neg hmatch]
          refine ih hholds (List.pairwise_cons.mp hordered).2 fun q hq => ?_
          obtain ⟨-, hq₁, hq₂⟩ := hbounds q (List.mem_cons_of_mem _ hq)
          exact ⟨hsize ▸ (List.pairwise_cons.mp hordered).1 q hq, hq₁, hq₂⟩
    · rw [if_neg hfits] at hread
      rw [if_pos (Nat.lt_of_not_le hfits), hread]
      rfl

/-! ## The smallest prefix -/

/-- What the direct search gives: the prefix of the first size, in the order of the sizes, that
matches. -/
theorem matchPairs_spec {env : PatchEnv} (hordered : Ordered pairs)
    (hdigests : ∀ p ∈ pairs, (parseSha1 p.2).isSome) : match matchPairs env content pairs with
    | none => ∀ p ∈ pairs, p.1 ≤ content.length → parseSha1 p.2 ≠ some (env.sha1 (content.take p.1))
    | some data =>
    ∃ p ∈ pairs, p.1 ≤ content.length ∧ parseSha1 p.2 = some (env.sha1 (content.take p.1)) ∧
        data = content.take p.1 ∧
        ∀ q ∈ pairs, q.1 ≤ content.length → parseSha1 q.2 = some (env.sha1 (content.take q.1)) →
        p.1 ≤ q.1 := by
  induction pairs with
  | nil => simp [matchPairs]
  | cons p pairs ih =>
    obtain ⟨size, sha1⟩ := p
    obtain ⟨hfirst, hordered'⟩ := List.pairwise_cons.mp hordered
    obtain ⟨digest, hdigest⟩ := Option.isSome_iff_exists.mp (hdigests _ List.mem_cons_self)
    have hrest := ih hordered' fun q hq => hdigests q (List.mem_cons_of_mem _ hq)
    rw [matchPairs]
    by_cases hshort : content.length < size
    · rw [if_pos hshort]
      intro q hq hfits
      -- the sizes that follow are not smaller
      have hle : size ≤ q.1 := by
        rcases List.mem_cons.mp hq with rfl | hq
        · exact Nat.le_refl _
        · exact hfirst q hq
      omega
    · rw [if_neg hshort, hdigest]
      dsimp only at hdigest ⊢
      by_cases hmatch : env.sha1 (content.take size) = digest
      · rw [if_pos hmatch]
        refine ⟨(size, sha1), List.mem_cons_self, Nat.not_lt.mp hshort,
          by rw [hmatch]; exact hdigest, rfl, ?_⟩
        intro q hq _ _
        rcases List.mem_cons.mp hq with rfl | hq
        · exact Nat.le_refl _
        · exact hfirst q hq
      · have hne : parseSha1 sha1 ≠ some (env.sha1 (content.take size)) := by
          rw [hdigest]
          exact fun h => hmatch (Option.some.inj h).symm
        rw [if_neg hmatch]
        cases hpairs : matchPairs env content pairs with
        | none =>
          rw [hpairs] at hrest
          intro q hq
          rcases List.mem_cons.mp hq with rfl | hq
          · exact fun _ => hne
          · exact hrest q hq
        | some data =>
          rw [hpairs] at hrest
          obtain ⟨p, hp, hfits, hpsha, hdata, hmin⟩ := hrest
          refine ⟨p, List.mem_cons_of_mem _ hp, hfits, hpsha, hdata, fun q hq hq₁ hq₂ => ?_⟩
          rcases List.mem_cons.mp hq with rfl | hq
          · exact absurd hq₂ hne
          · exact hmin q hq hq₁ hq₂

theorem le_getLast (hordered : Ordered pairs) (hp : p ∈ pairs) :
    p.1 ≤ ((pairs.getLast?).map Prod.fst).getD 0 := by
  obtain ⟨init, last, rfl⟩ := (List.eq_nil_or_concat pairs).resolve_left (List.ne_nil_of_mem hp)
  rw [List.concat_eq_append] at hordered hp ⊢
  rw [List.getLast?_concat, Option.map_some, Option.getD_some]
  rcases List.mem_append.mp hp with hp | hp
  · exact (List.pairwise_append.mp hordered).2.2 p hp last (List.mem_singleton_self last)
  · rw [List.mem_singleton.mp hp]

theorem getLast_mem (hne : pairs ≠ []) :
    ∃ p ∈ pairs, ((pairs.getLast?).map Prod.fst).getD 0 = p.1 :=
  ⟨pairs.getLast hne, List.getLast_mem hne, by rw [List.getLast?_eq_getLast_of_ne_nil hne]; rfl⟩

theorem canAllocate_largest_iff (hname : WellFormed filename path entries)
    (hordered : Ordered pairs)
    (hmem : ∀ p, p ∈ pairs ↔ ∃ e ∈ entries, parseUint e.1 = some p.1 ∧ e.2 = p.2) :
    CanAllocate memory (((pairs.getLast?).map Prod.fst).getD 0) ↔ Allocatable memory entries := by
  constructor
  · intro h e he n hn
    exact CanAllocate.of_le h (le_getLast hordered ((hmem (n, e.2)).mpr ⟨e, he, hn, rfl⟩))
  · intro h
    have hne : pairs ≠ [] := by
      obtain ⟨e, he⟩ := List.exists_mem_of_ne_nil entries hname.entries_ne_nil
      obtain ⟨n, hn, -⟩ := hname.size e he
      exact List.ne_nil_of_mem ((hmem (n, e.2)).mpr ⟨e, he, hn, rfl⟩)
    obtain ⟨p, hp, hlargest⟩ := getLast_mem hne
    obtain ⟨e, he, hsize, -⟩ := (hmem p).mp hp
    rw [hlargest]
    exact h e he p.1 hsize

theorem takeD_eq_take {l : List UInt8} {n : Nat} (h : n ≤ l.length) : l.takeD n 0 = l.take n := by
  induction n generalizing l with
  | zero => rfl
  | succ n ih =>
    cases l with
    | nil => exact absurd h (Nat.not_succ_le_zero n)
    | cons b l =>
      rw [List.takeD, List.take_succ_cons, List.tail_cons, ih (Nat.le_of_succ_le_succ h)]
      rfl

/-- Reading piece by piece gives what the direct search gives, with its digest. -/
theorem loadPartitionContents_eq {env : PatchEnv} (henv : env.sha1 = sha.digest)
    {openDev : Text → Option (List UInt8)} (hname : parseName filename = some (path, pairs))
    (hordered : Ordered pairs) (hbounds : ∀ p ∈ pairs, p.1 < 2 ^ 64)
    (hdev : openDev (cstr path) = some content) :
    loadPartitionContents sha memory openDev filename =
      if ¬CanAllocate memory (((pairs.getLast?).map Prod.fst).getD 0) then .error .crashed
      else match matchPairs env content pairs with
        | none => .error .failed
        | some data => .ok ⟨data, sha.digest data⟩ := by
  have hread :=
    readPairs_spec henv (holds_init content (((pairs.getLast?).map Prod.fst).getD 0)) hordered
    fun p hp => ⟨Nat.zero_le _, le_getLast hordered hp, hbounds p hp⟩
  rw [loadPartitionContents, hname]
  dsimp only
  rw [hdev]
  refine if_congr Iff.rfl rfl ?_
  cases hdata : matchPairs env content pairs with
  | none =>
    rw [hdata] at hread
    dsimp only at hread ⊢
    rw [hread]
    rfl
  | some data =>
    rw [hdata] at hread
    obtain ⟨st', hst', hholds, rfl⟩ := hread
    dsimp only
    rw [hst', ← hholds.final, ← hholds.buffer,
      ← takeD_eq_take (by rw [hholds.length]; exact hholds.bound)]
    rfl

/-- On a name without NUL, with memory for the buffer, it gives the data that `applypatch` is
modelled with. -/
theorem toOption_loadPartitionContents {env : PatchEnv} (henv : env.sha1 = sha.digest) {s : Storage}
    (hname : WellFormed filename path entries) (hpath : cstr path = path)
    (hmemory : Allocatable memory entries) :
    ((loadPartitionContents sha memory s.file filename).toOption).map FileContents.data =
      ApplyPatch.loadPartitionContents env filename s := by
  obtain ⟨pairs, hparse, hordered, hmem⟩ := parseName_of_wellFormed hname
  have hbounds : ∀ p ∈ pairs, p.1 < 2 ^ 64 := fun p hp => by
    obtain ⟨e, -, hsize, -⟩ := (hmem p).mp hp
    exact parseUint_lt hsize
  rw [ApplyPatch.loadPartitionContents, hparse, Option.bind_eq_bind, Option.bind_some]
  dsimp only
  cases hfile : s.file path with
  | none =>
    rw [loadPartitionContents, hparse]
    dsimp only
    rw [hpath, hfile]
    rfl
  | some content =>
    have hbuffer := (canAllocate_largest_iff hname hordered hmem).mpr hmemory
    rw [loadPartitionContents_eq henv hparse hordered hbounds (hpath.symm ▸ hfile),
      if_neg (not_not_intro hbuffer), Option.bind_eq_bind, Option.bind_some]
    cases matchPairs env content pairs with
    | none => rfl
    | some data => rfl

/-- If there is memory for the largest listed size, a listed prefix with its digest is found if
there is one; what is found is the smallest one. Otherwise the program ends. -/
theorem loadPartitionContents_spec (sha : HashApi) (memory : Nat)
    {openDev : Text → Option (List UInt8)}
    (hname : WellFormed filename path entries) (hdev : openDev (cstr path) = some content) :
    let loaded := loadPartitionContents sha memory openDev filename
    (loaded ≠ .error .crashed ↔ Allocatable memory entries) ∧
      (Allocatable memory entries →
        ((∃ file, loaded = .ok file) ↔ ∃ e ∈ entries, ∃ n, Matches sha content e n)) ∧
      ∀ file, loaded = .ok file →
        file.sha1 = sha.digest file.data ∧
        ∃ n, file.data = content.take n ∧ (∃ e ∈ entries, Matches sha content e n) ∧
          ∀ e ∈ entries, ∀ m, Matches sha content e m → n ≤ m := by
  intro loaded
  obtain ⟨pairs, hparse, hordered, hmem⟩ := parseName_of_wellFormed hname
  have hbounds : ∀ p ∈ pairs, p.1 < 2 ^ 64 := fun p hp => by
    obtain ⟨e, -, hsize, -⟩ := (hmem p).mp hp
    exact parseUint_lt hsize
  have hdigests : ∀ p ∈ pairs, (parseSha1 p.2).isSome := fun p hp => by
    obtain ⟨e, he, -, hsha⟩ := (hmem p).mp hp
    rw [← hsha]
    exact hname.digest e he
  have hmatches : ∀ n, (∃ e ∈ entries, Matches sha content e n) ↔
      ∃ p ∈ pairs, p.1 = n ∧ p.1 ≤ content.length ∧
      parseSha1 p.2 = some (sha.digest (content.take p.1)) := by
    intro n
    constructor
    · rintro ⟨e, he, hsize, hfits, hsha⟩
      exact ⟨(n, e.2), (hmem _).mpr ⟨e, he, hsize, rfl⟩, rfl, hfits, hsha⟩
    · rintro ⟨p, hp, rfl, hfits, hsha⟩
      obtain ⟨e, he, hsize, hdigest⟩ := (hmem p).mp hp
      exact ⟨e, he, hsize, hfits, hdigest ▸ hsha⟩
  have hsearch :=
    @matchPairs_spec content pairs ⟨sampleLib, sha.digest, fun _ => true⟩ hordered hdigests
  have hbuffer := @canAllocate_largest_iff filename path entries pairs memory hname hordered hmem
  have hloaded : loaded = _ :=
    loadPartitionContents_eq (rfl : (⟨sampleLib, sha.digest, fun _ => true⟩ : PatchEnv).sha1 = _)
    hparse hordered hbounds hdev
  rw [hloaded, ← hbuffer]
  by_cases hmemory : CanAllocate memory (((pairs.getLast?).map Prod.fst).getD 0)
  swap
  · rw [if_pos hmemory]
    refine ⟨iff_of_false (not_not_intro rfl) hmemory, fun h => absurd h hmemory, fun file hfile =>
      ?_⟩
    cases hfile
  rw [if_neg (not_not_intro hmemory)]
  simp only [hmemory, true_imp_iff, iff_true]
  cases hdata : matchPairs ⟨sampleLib, sha.digest, fun _ => true⟩ content pairs with
  | none =>
    rw [hdata] at hsearch
    refine ⟨by simp, ⟨?_, ?_⟩, ?_⟩
    · rintro ⟨file, hfile⟩
      cases hfile
    · rintro ⟨e, he, n, hn⟩
      obtain ⟨p, hp, -, hfits, hsha⟩ := (hmatches n).mp ⟨e, he, hn⟩
      exact absurd hsha (hsearch p hp hfits)
    · intro file hfile
      cases hfile
  | some data =>
    rw [hdata] at hsearch
    obtain ⟨p, hp, hfits, hsha, rfl, hmin⟩ := hsearch
    have hfound : ∃ e ∈ entries, Matches sha content e p.1 :=
      (hmatches p.1).mpr ⟨p, hp, rfl, hfits, hsha⟩
    refine ⟨by simp, ⟨fun _ => ?_, fun _ => ⟨_, rfl⟩⟩, ?_⟩
    · obtain ⟨e, he, hmatch⟩ := hfound
      exact ⟨e, he, p.1, hmatch⟩
    · intro file hfile
      cases hfile
      refine ⟨rfl, p.1, rfl, hfound, fun e he m hm => ?_⟩
      obtain ⟨q, hq, rfl, hq₁, hq₂⟩ := (hmatches m).mp ⟨e, he, hm⟩
      exact hmin q hq hq₁ hq₂

/-- A hash whose context is what it has been fed. -/
def sampleHash : HashApi where
  Ctx := List UInt8
  init := []
  update := fun ctx bytes => ctx ++ bytes
  final := sampleSha1
  digest := sampleSha1
  chunked := fun pieces => by
    have hfold : ∀ ctx : List UInt8, pieces.foldl (fun ctx bytes => ctx ++ bytes) ctx =
        ctx ++ pieces.flatten := by
      induction pieces with
      | nil => simp
      | cons piece pieces ih => simp [ih]
    rw [hfold, List.nil_append]

/-- The sizes 2, 1 and 1 again, of which both the first and the last match. -/
theorem loadPartitionContents_spec_repeated :
    let content : List UInt8 := [0x61, 0x62, 0x7a]
    let entries :=
      [(['2'], hexText (sampleSha1 [0x61, 0x62])), (['1'], hexText (sampleSha1 [0x63])),
        (['1'], hexText (sampleSha1 [0x61]))]
    let filename := sampleName [[0x61, 0x62], [0x63], [0x61]]
    let loaded := loadPartitionContents sampleHash (2 ^ 30) (fun _ => some content) filename
    (loaded ≠ .error .crashed ↔ Allocatable (2 ^ 30) entries) ∧
      (Allocatable (2 ^ 30) entries →
        ((∃ file, loaded = .ok file) ↔ ∃ e ∈ entries, ∃ n, Matches sampleHash content e n)) ∧
      ∀ file, loaded = .ok file →
        file.sha1 = sampleSha1 file.data ∧
        ∃ n, file.data = content.take n ∧ (∃ e ∈ entries, Matches sampleHash content e n) ∧
          ∀ e ∈ entries, ∀ m, Matches sampleHash content e m → n ≤ m := by
  refine loadPartitionContents_spec sampleHash (2 ^ 30)
    (⟨by decide +kernel, by decide, ?_, ?_⟩ : WellFormed _ ['p'] _) rfl
  · intro e he
    simp only [List.mem_cons, List.not_mem_nil, or_false] at he
    rcases he with rfl | rfl | rfl
    · exact ⟨2, by decide +kernel, by decide⟩
    · exact ⟨1, by decide +kernel, by decide⟩
    · exact ⟨1, by decide +kernel, by decide⟩
  · decide +kernel

/-- A name that lists one byte, and a size for which no vector can be made. -/
def hugeEntries : List (Text × Text) :=
  [(['1'], hexText (sampleSha1 [0x61])),
    ("9223372036854775808".toList, hexText (sampleSha1 [0x61]))]

def hugeName : Text :=
  [':'].intercalate ("EMMC".toList :: ['p'] :: hugeEntries.flatMap fun e => [e.1, e.2])

/-- The first byte has its digest, and the program ends before it is read. -/
theorem not_loadPartitionContents_spec_huge :
    ¬∀ (content : List UInt8) (entries : List (Text × Text)) (filename path : Text) (memory : Nat),
      WellFormed filename path entries →
      ((∃ file, loadPartitionContents sampleHash memory (fun _ => some content) filename =
        .ok file) ↔ ∃ e ∈ entries, ∃ n, Matches sampleHash content e n) := by
  intro h
  have hname : WellFormed hugeName ['p'] hugeEntries := by
    refine ⟨by decide +kernel, by decide, ?_, by decide +kernel⟩
    intro e he
    simp only [hugeEntries, List.mem_cons, List.not_mem_nil, or_false] at he
    rcases he with rfl | rfl
    · exact ⟨1, by decide +kernel, by decide⟩
    · exact ⟨2 ^ 63, by decide +kernel, by decide⟩
  obtain ⟨file, hfile⟩ := (h [0x61] hugeEntries hugeName ['p'] (2 ^ 64) hname).mpr
    ⟨_, List.mem_cons_self, 1, by decide +kernel, by decide, by decide +kernel⟩
  have hcrashed : loadPartitionContents sampleHash (2 ^ 64) (fun _ => some [0x61]) hugeName =
      .error .crashed := by
    decide +kernel
  rw [hcrashed] at hfile
  cases hfile

end BootableRecovery.ApplyPatch.PartitionPrefix
