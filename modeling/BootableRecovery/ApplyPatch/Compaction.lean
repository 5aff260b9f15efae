import BootableRecovery.ApplyPatch.ImageMode

/-!
# Merging chunks in place

`Image::MergeAdjacentNormalChunks` compacts the vector of chunks in place, with a cursor to read and
one to write. A chunk that has been moved from is `none`: its content is not specified, and a read
of it would make the result `none`. The result is that of `mergeAdjacentNormalChunks`, which keeps
the order and the bytes; in image mode both lists are merged in the same places.
-/

namespace BootableRecovery.ApplyPatch

namespace Image

/-- The chunk in a slot of the vector. -/
def slot (chunks : List (Option ImageChunk)) (i : Nat) : Option ImageChunk := (chunks[i]?).join

/-- The inner loop: chunk `cur` is extended by the chunks from `toCheck` on. -/
def extend (chunks : List (Option ImageChunk)) (cur : Nat) :
    (fuel : Nat) → (toCheck : Nat) → Option (List (Option ImageChunk) × Nat)
  | 0, _ => none
  | fuel + 1, toCheck =>
    if toCheck < chunks.length then do
      let c ← slot chunks cur
      let d ← slot chunks toCheck
      if c.isAdjacentNormal d then
        extend (chunks.set cur (some (c.mergeAdjacentNormal d))) cur fuel (toCheck + 1)
      else some (chunks, toCheck)
    else some (chunks, toCheck)

/-- The outer loop. -/
def compact : (fuel : Nat) → List (Option ImageChunk) → (mergedLast cur : Nat) →
    Option (List (Option ImageChunk))
  | 0, _, _, _ => none
  | fuel + 1, chunks, mergedLast, cur =>
    if cur < chunks.length then do
      let (chunks, toCheck) ← extend chunks cur chunks.length (cur + 1)
      let chunks := if mergedLast ≠ cur then
          (chunks.set mergedLast (slot chunks cur)).set cur none
        else chunks
      compact fuel chunks (mergedLast + 1) toCheck
    else some (if mergedLast < chunks.length then chunks.take mergedLast else chunks)

/-- `MergeAdjacentNormalChunks`; each round of a loop passes at least one chunk. -/
def mergeAdjacentNormalChunks (chunks : List ImageChunk) : Option (List ImageChunk) := do
  let merged ← compact (chunks.length + 1) (chunks.map some) 0 0
  merged.mapM id

/-! ## The cursors -/

/-- The chunk extended by the adjacent ones, and the chunks after them. -/
def absorb (c : ImageChunk) : List ImageChunk → ImageChunk × List ImageChunk
  | [] => (c, [])
  | d :: cs => if c.isAdjacentNormal d then absorb (c.mergeAdjacentNormal d) cs else (c, d :: cs)

variable {c : ImageChunk} {cs merged : List ImageChunk} {fuel : Nat}

theorem exists_absorbed (c : ImageChunk) (cs : List ImageChunk) :
    ∃ absorbed, cs = absorbed ++ (absorb c cs).2 := by
  induction cs generalizing c with
  | nil => exact ⟨[], rfl⟩
  | cons d cs ih =>
    rw [absorb]
    split
    · obtain ⟨absorbed, h⟩ := ih (c.mergeAdjacentNormal d)
      exact ⟨d :: absorbed, congrArg (d :: ·) h⟩
    · exact ⟨[], rfl⟩

theorem mergeFrom_eq (c : ImageChunk) (cs : List ImageChunk) :
    mergeFrom c cs = (absorb c cs).1 :: ApplyPatch.mergeAdjacentNormalChunks (absorb c cs).2 := by
  induction cs generalizing c with
  | nil => rfl
  | cons d cs ih =>
    rw [mergeFrom, absorb]
    split
    · exact ih _
    · rfl

theorem slot_append (before : List (Option ImageChunk)) (x : Option ImageChunk)
    (after : List (Option ImageChunk)) : slot (before ++ x :: after) before.length = x := by
  rw [slot, List.getElem?_append_right (Nat.le_refl _), Nat.sub_self, List.getElem?_cons_zero]
  rfl

theorem set_append (before : List (Option ImageChunk)) (x y : Option ImageChunk)
    (after : List (Option ImageChunk)) :
    (before ++ x :: after).set before.length y = before ++ y :: after := by
  rw [List.set_append_right _ _ (Nat.le_refl _), Nat.sub_self, List.set_cons_zero]

theorem extend_spec (before : List (Option ImageChunk)) (c : ImageChunk) (cs : List ImageChunk)
    (between : List (Option ImageChunk)) (hfuel : cs.length < fuel) :
    ∃ n, extend (before ++ some c :: (between ++ cs.map some)) before.length fuel
          (before.length + 1 + between.length) =
        some (before ++ some (absorb c cs).1 :: (between ++ cs.map some),
          before.length + 1 + between.length + n) ∧
      n + (absorb c cs).2.length = cs.length := by
  induction cs generalizing c between fuel with
  | nil =>
    obtain ⟨fuel, rfl⟩ := Nat.exists_eq_add_of_lt hfuel
    refine ⟨0, ?_, rfl⟩
    rw [extend, if_neg]
    · rfl
    · simp only [List.map_nil, List.append_nil, List.length_append, List.length_cons]
      omega
  | cons d cs ih =>
    obtain ⟨fuel, rfl⟩ := Nat.exists_eq_add_of_lt hfuel
    have hlength : (before ++ some c :: between).length = before.length + 1 + between.length := by
      simp only [List.length_append, List.length_cons]
      omega
    have hsplit : before ++ some c :: (between ++ some d :: cs.map some) =
        (before ++ some c :: between) ++ some d :: cs.map some := by
      rw [List.append_assoc, List.cons_append]
    have hd : slot (before ++ some c :: (between ++ some d :: cs.map some))
        (before.length + 1 + between.length) = some d := by
      rw [hsplit, ← hlength, slot_append]
    rw [List.map_cons, extend, if_pos (by
      simp only [List.length_append, List.length_cons]
      omega), slot_append, hd]
    dsimp only [Option.bind_eq_bind, Option.bind_some]
    rw [set_append, absorb]
    split
    · -- `d` is absorbed, and stands between the cursors from now on
      obtain ⟨n, hn, hlen⟩ := ih (c.mergeAdjacentNormal d) (between ++ [some d])
        (show cs.length < (d :: cs).length + fuel by rw [List.length_cons]; omega)
      rw [List.length_append, List.length_singleton, List.append_assoc, List.singleton_append,
        ← Nat.add_assoc] at hn
      refine ⟨n + 1, ?_, ?_⟩
      · rw [hn]
        congr 2
        omega
      · rw [List.length_cons]
        omega
    · exact ⟨0, rfl, Nat.zero_add _⟩

/-- The outer loop, with the chunks that are merged already in front of the first cursor. -/
theorem compact_spec (merged : List ImageChunk) (between : List (Option ImageChunk))
    (cs : List ImageChunk) (hfuel : cs.length < fuel) :
    compact fuel (merged.map some ++ (between ++ cs.map some)) merged.length
        (merged.length + between.length) =
      some ((merged ++ ApplyPatch.mergeAdjacentNormalChunks cs).map some) := by
  induction fuel generalizing merged between cs with
  | zero => exact absurd hfuel (Nat.not_lt_zero _)
  | succ fuel ih =>
    have hall : (merged.map some ++ (between ++ cs.map some)).length =
        merged.length + between.length + cs.length := by
      simp only [List.length_append, List.length_map]
      omega
    rw [compact, hall]
    cases cs with
    | nil =>
      rw [if_neg (by simp), List.map_nil, List.append_nil, ApplyPatch.mergeAdjacentNormalChunks,
        List.append_nil]
      split
      · rw [List.take_left' (List.length_map _)]
      · rename_i hlast
        have hbetween : between = [] := by
          rw [← List.length_eq_zero_iff]
          omega
        rw [hbetween, List.append_nil]
    | cons c cs =>
      rw [if_pos (by rw [List.length_cons]; omega)]
      have hbefore : (merged.map some ++ between).length = merged.length + between.length := by
        rw [List.length_append, List.length_map]
      obtain ⟨n, hn, hlen⟩ := extend_spec (merged.map some ++ between) c cs []
        (show cs.length < merged.length + between.length + (c :: cs).length by
          rw [List.length_cons]
          omega)
      rw [List.nil_append, List.length_nil, Nat.add_zero, hbefore, List.append_assoc] at hn
      rw [List.map_cons, hn]
      dsimp only [Option.bind_eq_bind, Option.bind_some]
      obtain ⟨absorbed, habsorbed⟩ := exists_absorbed c cs
      have hcount : absorbed.length = n := by
        have := congrArg List.length habsorbed
        rw [List.length_append] at this
        omega
      have hmerge : ApplyPatch.mergeAdjacentNormalChunks (c :: cs) =
          (absorb c cs).1 :: ApplyPatch.mergeAdjacentNormalChunks (absorb c cs).2 :=
          mergeFrom_eq c cs
      have hfuel' : (absorb c cs).2.length < fuel := by
        rw [List.length_cons] at hfuel
        omega
      rw [hmerge]
      generalize absorb c cs = a at *
      -- what is left to show of the vector at the end of the round
      have hround : ∀ (chunks between' : List (Option ImageChunk)),
          chunks = (merged ++ [a.1]).map some ++ (between' ++ a.2.map some) →
          between'.length = between.length + n →
          compact fuel chunks (merged.length + 1) (merged.length + between.length + 1 + n) =
            some ((merged ++ a.1 :: ApplyPatch.mergeAdjacentNormalChunks a.2).map some) := by
        rintro _ between' rfl hlength
        have hnext := ih (merged ++ [a.1]) between' a.2 hfuel'
        rw [List.length_append, List.length_singleton, hlength, List.append_assoc,
          List.singleton_append] at hnext
        rw [← hnext]
        congr 1
        omega
      cases between with
      | nil =>
        -- the cursors are at one chunk, which stays where it is
        rw [if_neg (by simp)]
        refine hround _ (absorbed.map some) ?_ ?_
        · rw [habsorbed, List.map_append, List.map_append]
          simp
        · rw [List.length_map, hcount, List.length_nil, Nat.zero_add]
      | cons x between =>
        -- the chunk is moved to the first cursor, over one that has been passed
        rw [if_pos (by simp)]
        refine hround _ (between ++ none :: absorbed.map some) ?_ ?_
        · have hslot : slot (merged.map some ++ (x :: between ++ some a.1 :: cs.map some))
              (merged.length + (x :: between).length) = some a.1 := by
            rw [← hbefore, ← List.append_assoc, slot_append]
          have hfirst : (merged.map some ++ (x :: between ++ some a.1 :: cs.map some)).set
              merged.length (some a.1) =
              ((merged ++ [a.1]).map some ++ between) ++ some a.1 :: cs.map some := by
            have hset := set_append (merged.map some) x (some a.1)
              (between ++ some a.1 :: cs.map some)
            rw [List.length_map] at hset
            rw [List.cons_append, hset]
            simp
          have hlength : ((merged ++ [a.1]).map some ++ between).length =
              merged.length + (x :: between).length := by
            simp only [List.length_append, List.length_map, List.length_cons, List.length_nil]
            omega
          rw [List.append_assoc, hslot, hfirst, ← hlength, set_append, habsorbed, List.map_append]
          simp
        · simp only [List.length_append, List.length_cons, List.length_map, hcount]
          omega

theorem mergeAdjacentNormalChunks_eq (chunks : List ImageChunk) :
    mergeAdjacentNormalChunks chunks = some (ApplyPatch.mergeAdjacentNormalChunks chunks) := by
  have h := compact_spec [] [] chunks (Nat.lt_succ_self _)
  have hall : ∀ l : List ImageChunk, (l.map some).mapM id = some l := by
    intro l
    induction l with
    | nil => rfl
    | cons c l ih =>
      rw [List.map_cons, List.mapM_cons, ih]
      rfl
  rw [mergeAdjacentNormalChunks]
  show (compact (chunks.length + 1) (chunks.map some) 0 0).bind _ = _
  rw [show compact (chunks.length + 1) (chunks.map some) 0 0 = _ from h]
  exact hall _

end Image

/-! ## Order and bytes -/

/-- The chunk `m` stands for the chunks `g`, which are more than one only if they are normal. -/
structure StandsFor (g : List ImageChunk) (m : ImageChunk) : Prop where
  head : ∃ c cs, g = c :: cs ∧ m = { c with rawDataLen := m.rawDataLen } ∧ (cs = [] → m = c) ∧
    (cs ≠ [] → ∀ d ∈ g, d.type = .normal)
  bytes : m.raw = (g.map ImageChunk.raw).flatten

section
variable {file : List UInt8} {c d : ImageChunk} {cs g : List ImageChunk}

theorem raw_mergeAdjacentNormal (hfile : d.file = c.file) (hadj : c.isAdjacentNormal d = true) :
    (c.mergeAdjacentNormal d).raw = c.raw ++ d.raw := by
  simp only [ImageChunk.isAdjacentNormal, Bool.and_eq_true, decide_eq_true_eq] at hadj
  rw [ImageChunk.raw, ImageChunk.raw, ImageChunk.raw, ImageChunk.mergeAdjacentNormal, hfile, hadj.2]
  dsimp only
  rw [List.take_add, List.drop_drop]

/-- The groups that the chunks after the merge stand for, one after the other the chunks before
it. -/
theorem exists_groups_mergeFrom (hg : StandsFor g c) (hc : c.file = file)
    (hcs : ∀ d ∈ cs, d.file = file) :
    ∃ groups, groups.flatten = g ++ cs ∧ List.Forall₂ StandsFor groups (mergeFrom c cs) := by
  induction cs generalizing c g with
  | nil => exact ⟨[g], by simp, .cons hg .nil⟩
  | cons d cs ih =>
    rw [List.forall_mem_cons] at hcs
    rw [mergeFrom]
    split
    · rename_i hadj
      have hmerged : StandsFor (g ++ [d]) (c.mergeAdjacentNormal d) := by
        obtain ⟨⟨e, es, hge, hce, hone, hmore⟩, hbytes⟩ := hg
        have hnormal := hadj
        simp only [ImageChunk.isAdjacentNormal, Bool.and_eq_true, decide_eq_true_eq] at hnormal
        refine ⟨⟨e, es ++ [d], by rw [hge, List.cons_append], ?_, fun h => ?_, fun _ x hx => ?_⟩,
          ?_⟩
        · rw [ImageChunk.mergeAdjacentNormal, hce]
        · exact absurd h (by simp)
        · rcases List.mem_append.mp hx with hx | hx
          · by_cases hes : es = []
            · rw [hge, hes, List.mem_singleton] at hx
              rw [hx, ← hone hes]
              exact hnormal.1.1
            · exact hmore hes x hx
          · rw [List.mem_singleton.mp hx]
            exact hnormal.1.2
        · rw [raw_mergeAdjacentNormal (hcs.1.trans hc.symm) hadj, hbytes, List.map_append,
            List.flatten_append, List.map_singleton, List.flatten_singleton]
      obtain ⟨groups, hflat, hgroups⟩ := ih hmerged hc hcs.2
      exact ⟨groups, by rw [hflat, List.append_assoc, List.singleton_append], hgroups⟩
    · have hself : StandsFor [d] d :=
        ⟨⟨d, [], rfl, rfl, fun _ => rfl, fun h => absurd rfl h⟩, by simp⟩
      obtain ⟨groups, hflat, hgroups⟩ := ih hself hcs.1 hcs.2
      exact ⟨g :: groups, by rw [List.flatten_cons, hflat, List.singleton_append], .cons hg hgroups⟩

theorem exists_groups (hcs : ∀ d ∈ cs, d.file = file) :
    ∃ groups, groups.flatten = cs ∧
    List.Forall₂ StandsFor groups (mergeAdjacentNormalChunks cs) := by
  cases cs with
  | nil => exact ⟨[], rfl, .nil⟩
  | cons c cs =>
    rw [List.forall_mem_cons] at hcs
    have hself : StandsFor [c] c :=
      ⟨⟨c, [], rfl, rfl, fun _ => rfl, fun h => absurd rfl h⟩, by simp⟩
    exact exists_groups_mergeFrom hself hcs.1 hcs.2

theorem flatten_raw_of_standsFor {groups : List (List ImageChunk)} {ms : List ImageChunk}
    (h : List.Forall₂ StandsFor groups ms) :
    (ms.map ImageChunk.raw).flatten = (groups.flatten.map ImageChunk.raw).flatten := by
  induction h with
  | nil => rfl
  | cons h _ ih => rw [List.map_cons, List.flatten_cons, List.flatten_cons, List.map_append,
      List.flatten_append, h.bytes, ih]

end

/-! ## Both images of image mode -/

namespace ImageMode

variable {lib : Lib} {file : List UInt8} {lo hi : Nat} {tgt src : ImageChunk}

/-- Not both chunks are normal. -/
def Separate (c d : ImageChunk) : Prop := ¬(c.type = .normal ∧ d.type = .normal)

theorem head_mergeFrom (c : ImageChunk) (cs : List ImageChunk) :
    ∃ n rest, mergeFrom c cs = { c with rawDataLen := n } :: rest := by
  induction cs generalizing c with
  | nil => exact ⟨c.rawDataLen, [], rfl⟩
  | cons d cs ih =>
    rw [mergeFrom]
    split
    · exact ih (c.mergeAdjacentNormal d)
    · exact ⟨c.rawDataLen, _, rfl⟩

/-- Where there is no gap, no two normal chunks are left next to each other. -/
theorem isChain_mergeFrom {c : ImageChunk} {cs : List ImageChunk} (h : Tiles file lo (c :: cs) hi) :
    (mergeFrom c cs).IsChain Separate := by
  induction cs generalizing c lo with
  | nil => exact .singleton _
  | cons d cs ih =>
    rw [mergeFrom]
    split
    · exact ih h.merge_head
    · rename_i hadj
      rw [h.isAdjacentNormal] at hadj
      have hrest := ih h.2.2
      obtain ⟨n, rest, heq⟩ := head_mergeFrom d cs
      rw [heq] at hrest ⊢
      refine .cons_cons ?_ hrest
      simpa [Separate] using hadj

theorem isChain_mergeAdjacentNormalChunks {cs : List ImageChunk} (h : Tiles file lo cs hi) :
    (mergeAdjacentNormalChunks cs).IsChain Separate := by
  cases cs with
  | nil => exact .nil
  | cons c cs => exact isChain_mergeFrom h

/-- The chunk has not been moved in the file. -/
def SamePlace (c c' : ImageChunk) : Prop :=
  c'.file = c.file ∧ c'.start = c.start ∧ c'.rawDataLen = c.rawDataLen

theorem samePlace_change (c : ImageChunk) : SamePlace c c.changeDeflateChunkToNormal := by
  rw [ImageChunk.changeDeflateChunkToNormal]
  split <;> exact ⟨rfl, rfl, rfl⟩

theorem samePlace_reconstruct {c c' : ImageChunk} (h : c.reconstructDeflateChunk lib = some c') :
    SamePlace c c' ∧ c'.type = c.type := by
  rw [ImageChunk.reconstructDeflateChunk] at h
  split at h
  · cases h
  · split at h
    · cases h
      exact ⟨⟨rfl, rfl, rfl⟩, rfl⟩
    · split at h
      · cases h
        exact ⟨⟨rfl, rfl, rfl⟩, rfl⟩
      · cases h

/-- A round of the loop keeps the places, and changes both types or none. -/
theorem processChunks_places {p' : ImageChunk × ImageChunk} (htype : tgt.type = src.type)
    (h : processChunks lib tgt src = .ok p') :
    SamePlace tgt p'.1 ∧ SamePlace src p'.2 ∧ p'.1.type = p'.2.type := by
  have hsame : ∀ c : ImageChunk, SamePlace c c := fun _ => ⟨rfl, rfl, rfl⟩
  have hchanged : tgt.changeDeflateChunkToNormal.type = src.changeDeflateChunkToNormal.type := by
    simp only [ImageChunk.changeDeflateChunkToNormal, htype]
    split
    · rfl
    · exact htype
  rw [processChunks] at h
  split at h
  · cases h
    exact ⟨hsame _, hsame _, htype⟩
  · obtain ⟨b, -, h⟩ := bind_eq_ok.mp h
    split at h
    · cases h
      exact ⟨samePlace_change _, samePlace_change _, hchanged⟩
    · split at h
      · rename_i tgt' hrec
        cases h
        obtain ⟨hplace, heq⟩ := samePlace_reconstruct hrec
        exact ⟨hplace, hsame _, heq.trans htype⟩
      · cases h
        exact ⟨samePlace_change _, samePlace_change _, hchanged⟩

/-- The last test of `CheckAndProcessChunks` fails, after the others have been passed. -/
def WentAwry (lib : Lib) (tgt src : List ImageChunk) : Prop :=
  ∃ pairs, (mergeAdjacentNormalChunks tgt).length = (mergeAdjacentNormalChunks src).length ∧
    (∀ p ∈ (mergeAdjacentNormalChunks tgt).zip (mergeAdjacentNormalChunks src), p.1.type =
      p.2.type) ∧
    ((mergeAdjacentNormalChunks tgt).zip (mergeAdjacentNormalChunks src)).mapM
      (fun c => processChunks lib c.1 c.2) = .ok pairs ∧
    (mergeAdjacentNormalChunks (pairs.map Prod.fst)).length ≠
      (mergeAdjacentNormalChunks (pairs.map Prod.snd)).length

/-- Two chunk lists with the same structure, each with the bytes of its file. -/
structure Parallel (tgtFile srcFile : List UInt8) (tgt src : List ImageChunk) : Prop where
  types : List.Forall₂ (fun c d : ImageChunk => c.type = d.type) tgt src
  separate : tgt.IsChain Separate ∧ src.IsChain Separate
  bytes : (tgt.map ImageChunk.raw).flatten = tgtFile ∧ (src.map ImageChunk.raw).flatten = srcFile

section
variable {tgtFile srcFile : List UInt8} {tgt src : List ImageChunk}
  {pairs : List (ImageChunk × ImageChunk)}

theorem places_of_mapM (htgt : Tiles tgtFile 0 tgt tgtFile.length)
    (hsrc : Tiles srcFile 0 src srcFile.length) (hlen : tgt.length = src.length)
    (htypes : ∀ p ∈ tgt.zip src, p.1.type = p.2.type)
    (h : (tgt.zip src).mapM (fun c => processChunks lib c.1 c.2) = .ok pairs) :
    Tiles tgtFile 0 (pairs.map Prod.fst) tgtFile.length ∧
      Tiles srcFile 0 (pairs.map Prod.snd) srcFile.length ∧ ∀ p ∈ pairs, p.1.type = p.2.type := by
  have hplaces : List.Forall₂ (fun p p' : ImageChunk × ImageChunk =>
      SamePlace p.1 p'.1 ∧ SamePlace p.2 p'.2 ∧ p'.1.type = p'.2.type) (tgt.zip src) pairs := by
    apply ((List.forall₂_and_left _ _).mpr ⟨htypes, forall₂_of_mapM h⟩).imp
    intro p p' hp
    exact processChunks_places hp.1 hp.2
  refine ⟨?_, ?_, ?_⟩
  · apply htgt.congr
    have hfst : List.Forall₂ SamePlace ((tgt.zip src).map Prod.fst) (pairs.map Prod.fst) := by
      rw [List.forall₂_map_left_iff, List.forall₂_map_right_iff]
      exact hplaces.imp fun _ _ hp => hp.1
    rwa [List.map_fst_zip (Nat.le_of_eq hlen)] at hfst
  · apply hsrc.congr
    have hsnd : List.Forall₂ SamePlace ((tgt.zip src).map Prod.snd) (pairs.map Prod.snd) := by
      rw [List.forall₂_map_left_iff, List.forall₂_map_right_iff]
      exact hplaces.imp fun _ _ hp => hp.2.1
    rwa [List.map_snd_zip (Nat.le_of_eq hlen.symm)] at hsnd
  · exact (forall_mem_iff_of_forall₂ (P := fun _ => True) hplaces fun _ _ _ hp =>
      ⟨fun _ => hp.2.2, fun _ => trivial⟩).mp fun _ _ => trivial

theorem parallel_of_places (htgt : Tiles tgtFile 0 (pairs.map Prod.fst) tgtFile.length)
    (hsrc : Tiles srcFile 0 (pairs.map Prod.snd) srcFile.length)
    (htypes : ∀ p ∈ pairs, p.1.type = p.2.type) :
    Parallel tgtFile srcFile (mergeAdjacentNormalChunks (pairs.map Prod.fst))
      (mergeAdjacentNormalChunks (pairs.map Prod.snd)) := by
  obtain ⟨hfst, hsnd⟩ := map_mergePairs htgt hsrc htypes
  refine ⟨?_, ⟨isChain_mergeAdjacentNormalChunks htgt, isChain_mergeAdjacentNormalChunks hsrc⟩,
    ?_, ?_⟩
  · rw [← hfst, ← hsnd, List.forall₂_map_left_iff, List.forall₂_map_right_iff, List.forall₂_same]
    exact forall_mem_mergePairs (fun p q hp hq _ _ => hp) htypes
  · rw [htgt.mergeAdjacentNormalChunks.flatten_raw]
    simp
  · rw [hsrc.mergeAdjacentNormalChunks.flatten_raw]
    simp

end

/-- Merging in place keeps the order and the bytes of any chunks of a file. In image mode, the lists
that `CheckAndProcessChunks` gives are parallel, and its last test never fails. -/
theorem checkAndProcessChunks_parallel (lib : Lib) :
    (∀ cs : List ImageChunk,
      Image.mergeAdjacentNormalChunks cs = some (mergeAdjacentNormalChunks cs) ∧
      ∀ file, (∀ c ∈ cs, c.file = file) → ∃ groups, groups.flatten = cs ∧
        List.Forall₂ StandsFor groups (mergeAdjacentNormalChunks cs) ∧
        ((mergeAdjacentNormalChunks cs).map ImageChunk.raw).flatten =
          (cs.map ImageChunk.raw).flatten) ∧
    ∀ (tgtFile srcFile : List UInt8) (tgt src : List ImageChunk),
      Tiles tgtFile 0 tgt tgtFile.length → Tiles srcFile 0 src srcFile.length →
      ¬WentAwry lib tgt src ∧ ∀ tgt' src', checkAndProcessChunks lib tgt src = .ok (tgt', src') →
        Parallel tgtFile srcFile tgt' src' := by
  refine ⟨fun cs => ⟨Image.mergeAdjacentNormalChunks_eq cs, fun file hcs => ?_⟩, ?_⟩
  · obtain ⟨groups, hflat, hgroups⟩ := exists_groups hcs
    exact ⟨groups, hflat, hgroups, by rw [flatten_raw_of_standsFor hgroups, hflat]⟩
  intro tgtFile srcFile tgt src htgt hsrc
  replace htgt := htgt.mergeAdjacentNormalChunks
  replace hsrc := hsrc.mergeAdjacentNormalChunks
  constructor
  · rintro ⟨pairs, hlen, htypes, hpairs, hawry⟩
    obtain ⟨htgt', hsrc', htypes'⟩ := places_of_mapM htgt hsrc hlen htypes hpairs
    exact hawry (parallel_of_places htgt' hsrc' htypes').types.length_eq
  · intro tgt' src' h
    obtain ⟨pairs, hpairs, hlen, htypes, rfl, rfl⟩ := checkAndProcessChunks_eq_ok h
    obtain ⟨htgt', hsrc', htypes'⟩ := places_of_mapM htgt hsrc hlen htypes hpairs
    exact parallel_of_places htgt' hsrc' htypes'

/-- The chunks of two gzip members, each with a stream of three bytes for one letter. -/
def twoMembers (file : List UInt8) (first second : UInt8) : List ImageChunk :=
  [{ type := .normal, start := 0, file, rawDataLen := 10 },
    { type := .deflate, start := 10, file, rawDataLen := 3, uncompressedData := [first] },
    { type := .normal, start := 13, file, rawDataLen := 8 },
    { type := .normal, start := 21, file, rawDataLen := 10 },
    { type := .deflate, start := 31, file, rawDataLen := 3, uncompressedData := [second] },
    { type := .normal, start := 34, file, rawDataLen := 8 }]

/-- The chunks after the first stream was turned to a normal chunk. -/
def lastMember (file : List UInt8) (letter : UInt8) : List ImageChunk :=
  [{ type := .normal, start := 0, file, rawDataLen := 31 },
    { type := .deflate, start := 31, file, rawDataLen := 3, uncompressedData := [letter] },
    { type := .normal, start := 34, file, rawDataLen := 8 }]

/-- Two images whose first members are the same: their streams become normal chunks and are merged
with what is before and after them. -/
theorem checkAndProcessChunks_parallel_gzip :
    twoMembers (gzipA ++ gzipB) 0x61 0x62 = initializeImage sampleLib (gzipA ++ gzipB) ∧
    twoMembers (gzipA ++ gzipA) 0x61 0x61 = initializeImage sampleLib (gzipA ++ gzipA) ∧
    ¬WentAwry sampleLib (twoMembers (gzipA ++ gzipB) 0x61 0x62)
    (twoMembers (gzipA ++ gzipA) 0x61 0x61) ∧
    Parallel (gzipA ++ gzipB) (gzipA ++ gzipA) (lastMember (gzipA ++ gzipB) 0x62)
      (lastMember (gzipA ++ gzipA) 0x61) := by
  have hrun : checkAndProcessChunks sampleLib (twoMembers (gzipA ++ gzipB) 0x61 0x62)
      (twoMembers (gzipA ++ gzipA) 0x61 0x61) =
        .ok (lastMember (gzipA ++ gzipB) 0x62, lastMember (gzipA ++ gzipA) 0x61) := by
        decide +kernel
  have htiles : ∀ file first second, file.length = 42 →
      Tiles file 0 (twoMembers file first second) file.length := fun file _ _ hlen =>
    ⟨rfl, rfl, rfl, rfl, rfl, rfl, rfl, rfl, rfl, rfl, rfl, rfl, hlen.symm⟩
  obtain ⟨hawry, hparallel⟩ :=
    (checkAndProcessChunks_parallel sampleLib).2 (gzipA ++ gzipB) (gzipA ++ gzipA)
    _ _ (htiles _ 0x61 0x62 (by decide)) (htiles _ 0x61 0x61 (by decide))
  exact ⟨by decide +kernel, by decide +kernel, hawry, hparallel _ _ hrun⟩

end ImageMode

end BootableRecovery.ApplyPatch
