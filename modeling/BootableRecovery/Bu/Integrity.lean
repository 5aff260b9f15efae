import BootableRecovery.Bu.Restore
import Mathlib.Data.UInt

/-!
# What a restore has checked

A stream that is restored with the result 0 is a sequence of accepted entries, up to the mark at its
end. Nothing in that needs an EOD: the check of `verify_eod` covers the stream only if an EOD with a
SOD before it comes after the last partition. The archives of `do_backup` are like that.
-/

namespace BootableRecovery.Bu

variable {hashes : Hashes} {lib : Libtar} {dev : Device}

/-! ## Streams as sequences of entries -/

/-- What an entry is for, with what is taken from it. -/
inductive EntryKind
  | sod (hashName : Text)
  | eod (eodbuf : Text)
  | partition (name : Text)

/-- An entry of a stream: the blocks of its header and contents. -/
structure Entry where
  blocks : List Block
  kind : EntryKind

/-- The hash in force and the bytes it covers, from the first SOD on. -/
abbrev Covered := Option (HashKind × List UInt8)

/-- The coverage after some more blocks. -/
def Covered.add (c : Covered) (blocks : List Block) : Covered :=
  c.map fun (k, b) => (k, b ++ bytesOf blocks)

/-- The coverage after an entry. -/
def Covered.entry (c : Covered) (e : Entry) : Covered :=
  match e.kind with
  | .sod hashName => some (kindOf hashName, ((c.add e.blocks).map Prod.snd).getD [])
  | _ => c.add e.blocks

/-- An EOD that `verify_eod` accepts. -/
def Covered.Accepts (hashes : Hashes) (c : Covered) (eodbuf : Text) : Prop :=
  reportedDatalen eodbuf = (c.getD (.md5, [])).2.length % 2 ^ 64 ∧
    hexdigest (hashes.digest (c.getD (.md5, [])).1 (c.getD (.md5, [])).2) <+:
      (hashValue eodbuf).take HASH_MAX_STRING_LENGTH

variable (hashes lib dev) in
/-- The blocks are the given entries, each accepted, up to an end of the archive. The entries follow
each other without a gap, except that the contents of an entry without volume count as entries. -/
inductive Reads : Covered → (parts : List Text) → List Block → List Entry → Prop
  | eof (h : lib.thRead blocks = (n, .eof)) : Reads c parts blocks []
  | sod (h : lib.thRead blocks = (n, .entry header)) (hname : lib.pathname header = "SOD".toList)
    (hcontents : lib.extractFileContents header (blocks.drop n) = (m, some sodbuf))
    (hsod : verifySod dev parts sodbuf = some (some (hashName, parts')))
    (he : e = ⟨blocks.take n ++ (blocks.drop n).take m, .sod hashName⟩)
    (hrest : Reads (c.entry e) parts' ((blocks.drop n).drop m) es) : Reads c parts blocks (e :: es)
  | eod (h : lib.thRead blocks = (n, .entry header)) (hname : lib.pathname header = "EOD".toList)
    (hcontents : lib.extractFileContents header (blocks.drop n) = (m, some eodbuf))
    (hmatches : c.Accepts hashes eodbuf)
    (he : e = ⟨blocks.take n ++ (blocks.drop n).take m, .eod eodbuf⟩)
    (hrest : Reads (c.entry e) parts ((blocks.drop n).drop m) es) : Reads c parts blocks (e :: es)
  | partition (h : lib.thRead blocks = (n, .entry header)) (hsod : lib.pathname header ≠
    "SOD".toList)
    (heod : lib.pathname header ≠ "EOD".toList)
    (hvolume : dev.volumeForMountPoint (lib.pathname header) = some blkDevice)
    (hpart : lib.pathname header ∈ parts)
    (hextract : lib.extractFile header blkDevice (blocks.drop n) = (m, 0))
    (he : e = ⟨blocks.take n ++ (blocks.drop n).take m, .partition (lib.pathname header)⟩)
    (hrest : Reads (c.entry e) parts ((blocks.drop n).drop m) es) : Reads c parts blocks (e :: es)
  | unknown (h : lib.thRead blocks = (n, .entry header)) (hsod : lib.pathname header ≠ "SOD".toList)
    (heod : lib.pathname header ≠ "EOD".toList)
    (hvolume : dev.volumeForMountPoint (lib.pathname header) = none)
    (he : e = ⟨blocks.take n, .partition (lib.pathname header)⟩)
    (hrest : Reads (c.entry e) parts (blocks.drop n) es) : Reads c parts blocks (e :: es)

/-- What is needed of `th_read` for the loop to end: it reads a block for each entry it finds. -/
def Libtar.Progresses (lib : Libtar) : Prop :=
  ∀ blocks n header, lib.thRead blocks = (n, .entry header) → 0 < n ∧ blocks ≠ []

/-! ## The running hash -/

/-- The globals hold the hash of the bytes that are covered. -/
structure Refines (s : HashState hashes) (c : Covered) : Prop where
  hashName : s.hashName.map kindOf = c.map Prod.fst
  datalen : s.hashDatalen = (c.getD (.md5, [])).2.length % 2 ^ 64
  pieces : ∃ pieces : List (List UInt8), pieces.flatten = (c.getD (.md5, [])).2 ∧
    s.shaCtx = pieces.foldl hashes.sha1.update hashes.sha1.init ∧
    s.md5Ctx = pieces.foldl hashes.md5.update hashes.md5.init

theorem refines_created : Refines (HashState.created : HashState hashes) none :=
  ⟨rfl, rfl, [], rfl, rfl, rfl⟩

theorem Refines.block {s : HashState hashes} {c : Covered} (h : Refines s c) (b : Block) :
    Refines (s.hash b.toList) (c.add [b]) := by
  obtain ⟨hname, hlen, pieces, hpieces, hsha, hmd5⟩ := h
  unfold HashState.hash
  cases c with
  | none =>
    have hnone : s.hashName = none := by simpa using hname
    rw [hnone, if_neg (by simp)]
    exact ⟨hname, hlen, pieces, hpieces, hsha, hmd5⟩
  | some kb =>
    obtain ⟨k, bytes⟩ := kb
    obtain ⟨name, hsome⟩ : ∃ name, s.hashName = some name := by
      cases hn : s.hashName with
      | none => simp [hn] at hname
      | some name => exact ⟨name, rfl⟩
    rw [if_pos (by simp [hsome])]
    refine ⟨hname, ?_, pieces ++ [b.toList], ?_, ?_, ?_⟩
    · simp only [Covered.add, Option.map_some, Option.getD_some] at hlen ⊢
      rw [hlen, List.length_append, bytesOf]
      simp
    · simp only [Covered.add, Option.map_some, Option.getD_some] at hpieces ⊢
      simp [hpieces, bytesOf]
    · simp [hsha]
    · simp [hmd5]

theorem Covered.add_nil (c : Covered) : c.add [] = c := by
  cases c <;> simp [Covered.add, bytesOf]

theorem Covered.add_append (c : Covered) (a b : List Block) : c.add (a ++ b) = (c.add a).add b := by
  cases c <;> simp [Covered.add, bytesOf]

theorem Refines.read {s : HashState hashes} {c : Covered} (h : Refines s c) (blocks : List Block) :
    Refines (blocks.foldl tarCbRead s) (c.add blocks) := by
  induction blocks generalizing s c with
  | nil => rwa [Covered.add_nil]
  | cons b blocks ih =>
    rw [← List.singleton_append, Covered.add_append]
    exact ih (h.block b)

theorem Refines.final {s : HashState hashes} {c : Covered} (h : Refines s c) (kind : HashKind) :
    s.final kind = hashes.digest kind (c.getD (.md5, [])).2 := by
  obtain ⟨pieces, hpieces, hsha, hmd5⟩ := h.pieces
  rw [← hpieces]
  cases kind with
  | sha1 => rw [HashState.final, hsha, hashes.sha1.chunked, Hashes.digest]
  | md5 => rw [HashState.final, hmd5, hashes.md5.chunked, Hashes.digest]

theorem Refines.verifyEod {s : HashState hashes} {c : Covered} (h : Refines s c) (eodbuf : Text) :
    verifyEod s eodbuf = true ↔ c.Accepts hashes eodbuf := by
  have hkind : (s.hashName.map kindOf).getD .md5 = (c.getD (.md5, [])).1 := by
    rw [h.hashName]
    cases c <;> rfl
  rw [Bu.verifyEod, hkind, h.final, h.datalen, decide_eq_true_iff]
  rfl

theorem Refines.sod {s : HashState hashes} {c : Covered} (h : Refines s c) (hashName : Text) :
    Refines { s with hashName := some hashName }
    (some (kindOf hashName, (c.map Prod.snd).getD [])) := by
  have hbytes : (c.map Prod.snd).getD [] = (c.getD (.md5, [])).2 := by cases c <;> rfl
  exact ⟨rfl, hbytes ▸ h.datalen, hbytes ▸ h.pieces⟩

/-! ## The loop -/

theorem Refines.entry {s : HashState hashes} {c : Covered} (h : Refines s c) (a b : List Block) :
    Refines (b.foldl tarCbRead (a.foldl tarCbRead s)) (c.add (a ++ b)) := by
  rw [Covered.add_append]
  exact (h.read a).read b

theorem length_drop_drop_lt {blocks : List Block} (h : 0 < n ∧ blocks ≠ [])
    (hlt : blocks.length < fuel + 1) (m : Nat) : ((blocks.drop n).drop m).length < fuel := by
  have := List.length_pos_iff.mpr h.2
  rw [List.length_drop, List.length_drop]
  omega

theorem Reads.restoreLoop (hprog : lib.Progresses) {c : Covered} {parts : List Text}
    {blocks : List Block}
    {es : List Entry} (h : Reads hashes lib dev c parts blocks es) {fuel : Nat}
    {s : HashState hashes}
    (hs : Refines s c) (hfuel : blocks.length < fuel) :
    restoreLoop lib dev fuel s parts blocks = some 0 := by
  induction h generalizing fuel s with
  | eof h =>
    obtain ⟨fuel, rfl⟩ := Nat.exists_eq_succ_of_ne_zero (Nat.ne_of_gt (Nat.zero_lt_of_lt hfuel))
    simp only [Bu.restoreLoop, h]
  | sod h hname hcontents hsod he hrest ih =>
    obtain ⟨fuel, rfl⟩ := Nat.exists_eq_succ_of_ne_zero (Nat.ne_of_gt (Nat.zero_lt_of_lt hfuel))
    subst he
    simp only [Bu.restoreLoop, h, hcontents, hname, if_true, hsod]
    exact ih ((hs.entry _ _).sod _) (length_drop_drop_lt (hprog _ _ _ h) hfuel _)
  | eod h hname hcontents hmatches he hrest ih =>
    obtain ⟨fuel, rfl⟩ := Nat.exists_eq_succ_of_ne_zero (Nat.ne_of_gt (Nat.zero_lt_of_lt hfuel))
    subst he
    have hne : ¬ "EOD".toList = "SOD".toList := by decide
    simp only [Bu.restoreLoop, h, hcontents, hname, hne, if_false, if_true,
      (hs.verifyEod _).mpr hmatches]
    exact ih (hs.entry _ _) (length_drop_drop_lt (hprog _ _ _ h) hfuel _)
  | partition h hsod heod hvolume hpart hextract he hrest ih =>
    obtain ⟨fuel, rfl⟩ := Nat.exists_eq_succ_of_ne_zero (Nat.ne_of_gt (Nat.zero_lt_of_lt hfuel))
    subst he
    simp only [Bu.restoreLoop, h, hsod, heod, if_false, hvolume, hpart, not_true, hextract, if_true]
    exact ih (hs.entry _ _) (length_drop_drop_lt (hprog _ _ _ h) hfuel _)
  | unknown h hsod heod hvolume he hrest ih =>
    obtain ⟨fuel, rfl⟩ := Nat.exists_eq_succ_of_ne_zero (Nat.ne_of_gt (Nat.zero_lt_of_lt hfuel))
    subst he
    simp only [Bu.restoreLoop, h, hsod, heod, if_false, hvolume]
    exact ih (hs.read _) (length_drop_drop_lt (hprog _ _ _ h) hfuel 0)

theorem Reads.unique {c : Covered} {parts : List Text} {blocks : List Block} {es es' : List Entry}
    (h : Reads hashes lib dev c parts blocks es) (h' : Reads hashes lib dev c parts blocks es') :
    es = es' := by
  have hnames : ¬ "EOD".toList = "SOD".toList := by decide
  induction h generalizing es' with
  | eof h =>
    cases h' with
    | eof => rfl
    | _ => simp_all
  | sod h hname hcontents hsod he hrest ih =>
    cases h' with
    | sod h₂ hname₂ hcontents₂ hsod₂ he₂ hrest₂ =>
      cases h.symm.trans h₂
      cases hcontents.symm.trans hcontents₂
      cases hsod.symm.trans hsod₂
      cases he.trans he₂.symm
      rw [ih hrest₂]
    | _ => simp_all
  | eod h hname hcontents hmatches he hrest ih =>
    cases h' with
    | eod h₂ hname₂ hcontents₂ hmatches₂ he₂ hrest₂ =>
      cases h.symm.trans h₂
      cases hcontents.symm.trans hcontents₂
      cases he.trans he₂.symm
      rw [ih hrest₂]
    | _ => simp_all
  | partition h hsod heod hvolume hpart hextract he hrest ih =>
    cases h' with
    | partition h₂ hsod₂ heod₂ hvolume₂ hpart₂ hextract₂ he₂ hrest₂ =>
      cases h.symm.trans h₂
      cases hvolume.symm.trans hvolume₂
      cases hextract.symm.trans hextract₂
      cases he.trans he₂.symm
      rw [ih hrest₂]
    | _ => simp_all
  | unknown h hsod heod hvolume he hrest ih =>
    cases h' with
    | unknown h₂ hsod₂ heod₂ hvolume₂ he₂ hrest₂ =>
      cases h.symm.trans h₂
      cases he.trans he₂.symm
      rw [ih hrest₂]
    | _ => simp_all

theorem Reads.accepts {c : Covered} {parts : List Text} {blocks : List Block}
    {es before after : List Entry}
    (h : Reads hashes lib dev c parts blocks es) (hes : es = before ++ ⟨b, .eod eodbuf⟩ :: after) :
    (before.foldl Covered.entry c).Accepts hashes eodbuf := by
  induction h generalizing before with
  | eof h => simp at hes
  | sod h hname hcontents hsod he hrest ih =>
    subst he
    cases before with
    | nil => simp at hes
    | cons e before =>
      cases hes
      exact ih rfl
  | eod h hname hcontents hmatches he hrest ih =>
    subst he
    cases before with
    | nil =>
      cases hes
      exact hmatches
    | cons e before =>
      cases hes
      exact ih rfl
  | partition h hsod heod hvolume hpart hextract he hrest ih =>
    subst he
    cases before with
    | nil => simp at hes
    | cons e before =>
      cases hes
      exact ih rfl
  | unknown h hsod heod hvolume he hrest ih =>
    subst he
    cases before with
    | nil => simp at hes
    | cons e before =>
      cases hes
      exact ih rfl

/-! ## EOD after the last partition -/

def Entry.isSod (e : Entry) : Bool := match e.kind with
  | .sod _ => true
  | _ => false

def Entry.isPartition (e : Entry) : Bool := match e.kind with
  | .partition _ => true
  | _ => false

/-- The hash in force after some entries. -/
def hashKind (k : HashKind) (es : List Entry) : HashKind :=
  es.foldl (fun k e => match e.kind with
    | .sod hashName => kindOf hashName
    | _ => k) k

/-- The number of characters of a hash value. -/
def HashKind.length : HashKind → Nat
  | .sha1 => 40
  | .md5 => 32

theorem foldl_entry_some (k : HashKind) (b : List UInt8) (es : List Entry) :
    es.foldl Covered.entry (some (k, b)) =
      some (hashKind k es, b ++ bytesOf (es.flatMap Entry.blocks)) := by
  induction es generalizing k b with
  | nil => simp [hashKind, bytesOf]
  | cons e es ih =>
    obtain ⟨blocks, kind⟩ := e
    rw [List.foldl_cons, hashKind, List.foldl_cons, ← hashKind, List.flatMap_cons]
    cases kind with
    | sod hashName =>
      refine (ih _ _).trans ?_
      simp [bytesOf, Covered.add]
    | eod eodbuf =>
      refine (ih _ _).trans ?_
      simp [bytesOf]
    | partition name =>
      refine (ih _ _).trans ?_
      simp [bytesOf]

theorem foldl_entry_none {es : List Entry} (h : ∀ e ∈ es, e.isSod = false) :
    es.foldl Covered.entry none = none := by
  induction es with
  | nil => rfl
  | cons e es ih =>
    rw [List.forall_mem_cons] at h
    obtain ⟨blocks, kind⟩ := e
    cases kind with
    | sod hashName => exact absurd h.1 (by simp [Entry.isSod])
    | eod eodbuf => exact ih h.2
    | partition name => exact ih h.2

/-- An EOD with a SOD before it and no partition after it. -/
def Closing (es : List Entry) (kind : HashKind) (between : List Entry) (eodbuf : Text) : Prop :=
  ∃ first sodBlocks hashName eodBlocks after,
    es = first ++ ⟨sodBlocks, .sod hashName⟩ :: (between ++ ⟨eodBlocks, .eod eodbuf⟩ :: after) ∧
      (∀ e ∈ first, e.isSod = false) ∧ (∀ e ∈ after, e.isPartition = false) ∧
      kind = hashKind (kindOf hashName) between

/-- There is such an EOD, and its hash value has no more characters than a digest. -/
def Ordered (es : List Entry) : Prop :=
  ∃ kind between eodbuf, Closing es kind between eodbuf ∧ (hashValue eodbuf).length ≤ kind.length

theorem Closing.accepts {es between : List Entry} {blocks : List Block}
    (h : Closing es kind between eodbuf) (hreads : Reads hashes lib dev none [] blocks es) :
    Covered.Accepts hashes (some (kind, bytesOf (between.flatMap Entry.blocks))) eodbuf := by
  obtain ⟨first, sodBlocks, hashName, eodBlocks, after, rfl, hfirst, -, rfl⟩ := h
  have haccepts :=
    hreads.accepts (List.append_assoc first (⟨sodBlocks, .sod hashName⟩ :: between) _).symm
  rw [List.foldl_append, foldl_entry_none hfirst, List.foldl_cons] at haccepts
  have hsod : Covered.entry none ⟨sodBlocks, .sod hashName⟩ = some (kindOf hashName, []) := rfl
  rwa [hsod, foldl_entry_some, List.nil_append] at haccepts

theorem length_bytesOf (blocks : List Block) : (bytesOf blocks).length = 512 * blocks.length := by
  induction blocks with
  | nil => rfl
  | cons b blocks ih =>
    rw [bytesOf, List.flatMap_cons, List.length_append, ← bytesOf, ih, b.toList_length,
      List.length_cons]
    omega

theorem strtoul_toText {n : Nat} (h : n < 2 ^ 64) : strtoul (toText n) = n := by
  rcases Nat.eq_zero_or_pos n with rfl | hpos
  · decide
  · obtain ⟨c, s, hs, hc⟩ := head_toDigits (by decide : 1 < 10) (by decide) hpos
    have hdigit : c.isDigit := isDigit_toDigits (hs ▸ List.mem_cons_self)
    have hne {d : Char} (hd : d.isDigit = false) : c ≠ d := fun heq => by simp [heq, hd] at hdigit
    have hspace : isSpace c = false := not_isSpace_of_isDigit hdigit
    obtain ⟨ds, hds, hfold⟩ := mapM_digitValue_toDigits (by decide : 1 < 10) (by decide) n
    obtain ⟨hmap, hall⟩ := filterMap_of_mapM hds
    rw [hs] at hmap hall
    have htext : toText (n : Int) = c :: s := hs
    rw [strtoul, htext, List.dropWhile_cons_of_neg (by simp [hspace]),
      signOf_cons ⟨hne (by decide), hne (by decide)⟩]
    dsimp only
    rw [strtoulBase_cons hc]
    dsimp only
    rw [List.takeWhile_eq_self_iff.mpr hall, hmap, hfold, if_neg (Nat.not_le.mpr h),
      if_neg (by simp)]

/-- What the EOD reports, for the covered bytes. -/
def reportText (hashes : Hashes) (kind : HashKind) (bytes : List UInt8) : Text :=
  line "hash.datalen".toList (toText (bytes.length % 2 ^ 64 : Nat)) ++
    line "hash.value".toList (hexdigest (hashes.digest kind bytes))

/-- A text that libtar reads as it was written. -/
def Libtar.WritesFile (lib : Libtar) (name text : Text) : Prop :=
  ∀ rest, ∃ n m header, lib.thRead (lib.appendFileContents name text ++ rest) = (n, .entry header) ∧
    lib.pathname header = name ∧
    lib.extractFileContents header ((lib.appendFileContents name text ++ rest).drop n) =
    (m, some text) ∧ ((lib.appendFileContents name text ++ rest).drop n).drop m = rest

/-- A name that `verify_sod` can read from a line. -/
structure IsPlain (name : Text) : Prop where
  newline : '\n' ∉ name
  equals : '=' ∉ name
  dot : '.' ∉ name

/-- A list of partitions that `part_add` has made. -/
structure IsParts (dev : Device) (parts : List Text) : Prop where
  nodup : parts.Nodup
  length_le : parts.length ≤ MAX_PART
  volume : ∀ part ∈ parts, (dev.volumeForMountPoint part).isSome

theorem partAdd_eq_true {parts : List Text} (h : (partAdd dev parts name).1 = true) :
    (dev.volumeForMountPoint name).isSome ∧ name ∉ parts ∧ parts.length < MAX_PART ∧
      (partAdd dev parts name).2 = parts ++ [name] := by
  unfold partAdd at h ⊢
  split at h
  · cases h
  · rename_i hvolume
    split at h
    · cases h
    · rename_i hmem
      split at h
      · cases h
      · rename_i hlen
        rw [if_neg hvolume, if_neg hmem, if_neg hlen]
        exact ⟨by simpa [Option.isSome_iff_ne_none] using hvolume, hmem, Nat.lt_of_not_le hlen, rfl⟩

theorem IsParts.concat {parts : List Text} (h : IsParts dev parts)
    (hadd : (partAdd dev parts name).1 = true) : IsParts dev (parts ++ [name]) := by
  obtain ⟨hvolume, hmem, hlen, -⟩ := partAdd_eq_true hadd
  refine ⟨?_, ?_, ?_⟩
  · rw [List.nodup_append]
    refine ⟨h.nodup, List.nodup_singleton _, ?_⟩
    rintro a ha _ hb rfl
    exact hmem (List.mem_singleton.mp hb ▸ ha)
  · rw [List.length_append, List.length_singleton]
    omega
  · intro part hpart
    rcases List.mem_append.mp hpart with hpart | hpart
    · exact h.volume part hpart
    · rw [List.mem_singleton.mp hpart]
      exact hvolume

/-- The partitions are named as lines can name them, and there is room for them. -/
structure Sod.Named (s : Sod) : Prop where
  length_le : s.parts.length ≤ MAX_PART
  plain : ∀ part ∈ s.parts, IsPlain part

theorem Sod.Named.line {s s' : Sod} (h : s.Named) {f : Text × Text} (hf : '\n' ∉ f.1 ∧ '=' ∉ f.1)
    (hline : verifySodLine dev s f = some s') : s'.Named := by
  obtain ⟨key, val⟩ := f
  -- the texts do not matter
  have hset : ∀ s₁ : Sod, s₁.parts = s.parts → s₁.Named :=
    fun s₁ heq => ⟨heq ▸ h.length_le, heq ▸ h.plain⟩
  rw [verifySodLine] at hline
  dsimp only at hline
  generalize hs₁ : (if key = "ro.product.device".toList then _ else _ : Sod) = s₁ at hline
  have hparts : s₁.parts = s.parts := by
    rw [← hs₁]
    split <;> split <;> rfl
  split at hline
  · split at hline
    · cases hline
    · cases hline
      rw [hparts]
      unfold partAdd
      split
      · exact hset _ rfl
      · split
        · exact hset _ rfl
        · split
          · exact hset _ rfl
          · rename_i hroom
            have hname : IsPlain ((key.drop 3).takeWhile (· ≠ '.')) := by
              have hsub :=
                (List.takeWhile_sublist (· ≠ '.') (l := key.drop 3)).trans (List.drop_sublist 3 key)
              exact ⟨fun hmem => hf.1 (hsub.subset hmem), fun hmem => hf.2 (hsub.subset hmem),
                fun hmem => absurd (List.mem_takeWhile_imp hmem) (by decide)⟩
            refine ⟨?_, fun part hpart => ?_⟩
            · dsimp only
              rw [List.length_append, List.length_singleton]
              omega
            · rcases List.mem_append.mp hpart with hpart | hpart
              · exact h.plain part hpart
              · rw [List.mem_singleton.mp hpart]
                exact hname
  · cases hline
    exact hset _ hparts

theorem Sod.Named.lines {s s' : Sod} (h : s.Named) {fs : List (Text × Text)}
    (hfs : ∀ f ∈ fs, '\n' ∉ f.1 ∧ '=' ∉ f.1) (hlines : fs.foldlM (verifySodLine dev) s = some s') :
    s'.Named := by
  induction fs generalizing s with
  | nil =>
    cases hlines
    exact h
  | cons f fs ih =>
    rw [List.foldlM_cons] at hlines
    obtain ⟨s₁, hfirst, hrest⟩ := Option.bind_eq_some_iff.mp hlines
    rw [List.forall_mem_cons] at hfs
    exact ih (h.line hfs.1 hfirst) hfs.2 hrest

namespace Sample

def padded (l : List UInt8) : Block := ⟨(l ++ List.replicate 512 0).take 512, by
  rw [List.length_take, List.length_append, List.length_replicate]
  omega⟩

def toBytes (t : Text) : List UInt8 := t.map fun c => UInt8.ofNat c.toNat

def ofBytes (l : List UInt8) : Text := l.map fun b => Char.ofNat b.toNat

/-- The header of a file: the name from offset 0 and the size in octal digits from offset 124 on. -/
def headerBlock (name : Text) (size : Nat) : Block :=
  padded ((toBytes name ++ List.replicate 124 0).take 124 ++
    (List.range 11).reverse.map fun i => UInt8.ofNat (48 + size / 8 ^ i % 8))

def headerOf (b : Block) : Text × Nat :=
  (ofBytes ((b.toList.take 100).takeWhile (· ≠ 0)),
    ((b.toList.drop 124).take 11).foldl (fun n d => n * 8 + (d.toNat - 48)) 0)

def blocksFor (size : Nat) : Nat := (size + 511) / 512

def contentBlocks (l : List UInt8) : List Block :=
  (List.range (blocksFor l.length)).map fun i => padded ((l.drop (512 * i)).take 512)

def isZero (b : Block) : Bool := b.toList.head? = some 0

/-- libtar, for names of up to 100 bytes. -/
def tar : Libtar where
  Header := Text × Nat
  thRead
    | [] => (0, .eof)
    | b :: bs =>
      if isZero b then
        match bs with
        | [] => (1, .eof)
        | b' :: _ => if isZero b' then (2, .eof) else (2, .entry (headerOf b'))
      else (1, .entry (headerOf b))
  pathname := Prod.fst
  extractFileContents h bs :=
    let n := blocksFor h.2
    if 1270 < h.2 then (0, none)
    else if (bs.take n).length < n then (n, none)
    else (n, some (cstr (ofBytes ((bytesOf (bs.take n)).take h.2))))
  extractFile h _ bs :=
    let n := blocksFor h.2
    if (bs.take n).length < n then (n, -1) else (n, 0)
  appendFileContents name text := headerBlock name text.length :: contentBlocks (toBytes text)
  appendDeviceContents name contents := headerBlock name contents.length :: contentBlocks contents
  appendEof := [padded [], padded []]

theorem length_contentBlocks (l : List UInt8) : (contentBlocks l).length = blocksFor l.length := by
  simp [contentBlocks]

theorem tar_writesFile {name text : Text} (hzero : isZero (headerBlock name text.length) = false)
    (hheader : headerOf (headerBlock name text.length) = (name, text.length))
    (hlen : text.length ≤ 1270)
    (hcontents : cstr (ofBytes ((bytesOf (contentBlocks (toBytes text))).take text.length)) =
      text) : tar.WritesFile name text := by
  intro rest
  have hblocks : (contentBlocks (toBytes text)).length = blocksFor text.length := by
    rw [length_contentBlocks, toBytes, List.length_map]
  have htake : (contentBlocks (toBytes text) ++ rest).take (blocksFor text.length) =
      contentBlocks (toBytes text) := List.take_left' hblocks
  refine ⟨1, blocksFor text.length, (name, text.length), ?_, rfl, ?_, ?_⟩
  · simp [tar, hzero, hheader]
  · change (tar.extractFileContents (name, text.length) (contentBlocks (toBytes text) ++ rest)) = _
    simp only [tar]
    rw [if_neg (Nat.not_lt.mpr hlen), htake, if_neg (by omega), hcontents]
  · change (contentBlocks (toBytes text) ++ rest).drop (blocksFor text.length) = rest
    exact List.drop_left' hblocks

theorem foldl_append_eq_flatten (init : List UInt8) (pieces : List (List UInt8)) :
    pieces.foldl (· ++ ·) init = init ++ pieces.flatten := by
  induction pieces generalizing init with
  | nil => simp
  | cons p pieces ih => rw [List.foldl_cons, ih, List.flatten_cons, List.append_assoc]

/-- The sum of the bytes, in `n` bytes. -/
def sum (n : Nat) : HashApi where
  Ctx := List UInt8
  init := []
  update := (· ++ ·)
  final m := List.replicate n m.sum
  digest m := List.replicate n m.sum
  chunked pieces := by rw [foldl_append_eq_flatten, List.nil_append]

def sums : Hashes where
  sha1 := sum 20
  md5 := sum 16
  length_sha1 _ := List.length_replicate
  length_md5 _ := List.length_replicate

/-- A device with the one volume `boot`. -/
def device : Device where
  volumeForMountPoint name := if name = ['b', 'o', 'o', 't'] then some ['b'] else none
  contents _ := [1, 2, 3]
  product := ['x']
  product_lt := by decide
  newline_notMem_product := by decide

def md5 : Text := ['m', 'd', '5']

def boot : Text := ['b', 'o', 'o', 't']

theorem sod_written : tar.WritesFile "SOD".toList (sodText device md5 [boot]) :=
  tar_writesFile (by decide +kernel) (by decide +kernel) (by decide +kernel) (by decide +kernel)

theorem partsOf_boot : partsOf device [boot] [] = some [boot] := by decide

theorem volume_boot : device.volumeForMountPoint boot = some ['b'] := by decide

end Sample

end BootableRecovery.Bu
