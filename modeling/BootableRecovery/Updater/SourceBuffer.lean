import BootableRecovery.Updater.TransferList
import BootableRecovery.Updater.Independence

/-!
# The buffer of a source

`LoadSourceBlocks` reads the source ranges to the start of a buffer that it shares with all other
commands, moves their blocks to the locations of the list, and puts the blocks of the stashes
between them. Where the parts tile the buffer, nothing of its earlier content is left
(`wp_loadSourceBlocks_gathers`).
-/

namespace BootableRecovery.BlockImg

open Scatter (Increasing Decreasing blocksOf_reverse)

/-! ## Moving ranges -/

section
variable {α : Type} {rs : List Range} {dest source : List α} {locs : RangeSet}

/-- The loop of `MoveRange` from another buffer, for ranges from the last to the first that do not
share positions. -/
theorem moveLoop_placed (hrs : ∀ r ∈ rs, r.1 < r.2)
    (hnodup : (rs.reverse.flatMap Range.toList).Nodup)
    (hsource : BootableRecovery.blocksOf rs ≤ source.length) (hdest : ∀ r ∈ rs, r.2 ≤ dest.length) :
    ∃ result, moveLoop (fun _ => source) rs (BootableRecovery.blocksOf rs) dest = some result ∧
      result.length = dest.length ∧
      Placed result (rs.reverse.flatMap Range.toList) (source.take (BootableRecovery.blocksOf rs)) ∧
      ∀ i, i ∉ rs.reverse.flatMap Range.toList → result[i]? = dest[i]? := by
  induction rs generalizing dest with
  | nil => exact ⟨dest, rfl, rfl, rfl, fun _ _ => rfl⟩
  | cons r rs ih =>
    have hr := hrs r List.mem_cons_self
    have hlast := hdest r List.mem_cons_self
    have hblocks : BootableRecovery.blocksOf (r :: rs) = r.2 - r.1 + BootableRecovery.blocksOf rs :=
      BootableRecovery.blocksOf_cons r rs
    rw [Scatter.positions_cons] at hnodup ⊢
    obtain ⟨hnodup, -, hdis⟩ := List.nodup_append.mp hnodup
    have hstart :
        BootableRecovery.blocksOf (r :: rs) - (r.2 - r.1) = BootableRecovery.blocksOf rs := by omega
    -- the blocks of this range
    generalize hmoved : (source.drop (BootableRecovery.blocksOf rs)).take (r.2 - r.1) = moved
    have hlen : moved.length = r.2 - r.1 := by
      rw [← hmoved, List.length_take, List.length_drop]
      omega
    have hfits : r.1 + moved.length ≤ dest.length := by omega
    have hdest' : (overwriteAt dest r.1 moved).length = dest.length := length_overwriteAt hfits
    obtain ⟨result, hresult, hlength, hplaced, hkept⟩ := @ih (overwriteAt dest r.1 moved)
      (fun r' hr' => hrs r' (List.mem_cons_of_mem r hr')) hnodup (by omega)
      (fun r' hr' => by rw [hdest']; exact hdest r' (List.mem_cons_of_mem r hr'))
    refine ⟨result, ?_, hlength.trans hdest', ?_, fun i hi => ?_⟩
    · rw [moveLoop, if_pos ⟨hsource, hlast⟩, hstart, hmoved]
      exact hresult
    · have htake : source.take (BootableRecovery.blocksOf (r :: rs)) =
          source.take (BootableRecovery.blocksOf rs) ++ moved := by
        rw [hblocks, Nat.add_comm, List.take_add, hmoved]
      rw [Placed, htake, List.map_append, List.map_append, ← hplaced]
      refine congrArg _
        ((@placed_iff _ result _ _).mpr ⟨by rw [Range.length_toList, hlen], fun k i hk => ?_⟩)
      have hi : i ∈ Range.toList r := List.mem_of_getElem? hk
      have hlt := (List.getElem?_eq_some_iff.mp hk).1
      have hnot : i ∉ rs.reverse.flatMap Range.toList := fun h => hdis i h i hi rfl
      rw [Range.length_toList] at hlt
      rw [Range.toList, List.getElem?_range' hlt, Nat.one_mul] at hk
      cases hk
      rw [hkept _ hnot, getElem?_overwriteAt hfits, if_pos (by omega), Nat.add_sub_cancel_left]
    · rw [List.mem_append, not_or, Range.mem_toList] at hi
      rw [hkept i hi.1, getElem?_overwriteAt hfits, if_neg (by omega)]

theorem RangeSet.le_length_of_toList (h : ∀ i ∈ locs.toList, i < n) :
    ∀ r ∈ locs.ranges, r.2 ≤ n := by
  intro r hr
  have hpos := locs.nonempty r hr
  have := h (r.2 - 1) (RangeSet.mem_toList.mpr ⟨r, hr, by omega, by omega⟩)
  omega

theorem moveRange_placed (hnodup : locs.toList.Nodup) (hsource : locs.blocks ≤ source.length)
    (hdest : ∀ i ∈ locs.toList, i < dest.length) :
    ∃ result, moveRange dest locs source = some result ∧ result.length = dest.length ∧
      Placed result locs.toList (source.take locs.blocks) ∧ ∀ i ∉ locs.toList, result[i]? =
      dest[i]? := by
  have hblocks : locs.blocks = BootableRecovery.blocksOf locs.ranges.reverse :=
    (blocksOf_reverse _).symm
  have hlast := RangeSet.le_length_of_toList hdest
  have := @moveLoop_placed _ locs.ranges.reverse dest source
    (fun r hr => locs.nonempty r (List.mem_reverse.mp hr)) (by rwa [List.reverse_reverse])
    (by rwa [← hblocks]) fun r hr => hlast r (List.mem_reverse.mp hr)
  rwa [List.reverse_reverse, ← hblocks] at this

end

theorem moveRangeInPlace_eq {locs : RangeSet} (hlocs : Increasing locs.ranges) {buffer : List Block}
    (hlast : ∀ r ∈ locs.ranges, r.2 ≤ buffer.length) :
    moveRangeInPlace buffer locs = moveRange buffer locs buffer := by
  have hrs := hlocs.decreasing
  have hblocks : locs.blocks = BootableRecovery.blocksOf locs.ranges.reverse :=
    (blocksOf_reverse _).symm
  have hnonempty : ∀ r ∈ locs.ranges.reverse, r.1 < r.2 := hrs.2
  have hbytes : ∀ r ∈ locs.ranges.reverse, r.2 * BLOCKSIZE ≤ (Scatter.bytesOf buffer).length := by
    intro r hr
    rw [Scatter.length_bytesOf]
    exact Nat.mul_le_mul_right _ (hlast r (List.mem_reverse.mp hr))
  have heq := Scatter.moveLoop_id hrs rfl hbytes fun _ _ => rfl
  rw [Scatter.moveLoop_bytesOf (fun _ => rfl) hnonempty,
    Scatter.moveLoop_bytesOf (fun _ => rfl) hnonempty, ← hblocks] at heq
  exact Option.map_injective (fun _ _ h => flatMap_bytes_inj h) heq

/-! ## Loading a stash -/

theorem Placed.agree {α : Type} {buffer content blocks : List α} {positions : List Nat}
    (h : Placed buffer positions blocks) (h' : Placed content positions blocks) {i : Nat}
    (hi : i ∈ positions) : buffer[i]? = content[i]? :=
  List.map_inj_left.mp (h.trans h'.symm) i hi

theorem parseRanges_eq {env : Env} {s : Text} {rs : RangeSet} (h : validRanges s = some rs) :
    parseRanges env s = pure rs := by
  obtain ⟨hvalid, rfl⟩ := validRanges_eq_some h
  rw [parseRanges, if_pos hvalid]

/-- Loading the stash `id` gives these blocks: a verification reads them from the source ranges of
the stash. -/
def Offers (env : Env) (p : CommandParameters) (d : Disk) (id : Text) (blocks : List Block) :
    Prop :=
  env.sha1 blocks = id ∧
    match if p.canwrite then none else p.stashMap.lookup id with
    | some src => env.Within src ∧ d.read src = blocks
    | none => ∃ f, d.stashFile id = some f ∧ f.tail.val = 0 ∧ f.blocks = blocks

variable {env : Env} {τ : Type} {Mo : Monitor (Disk.apply env) τ} {C : τ → Prop}
    {p : CommandParameters} {t : τ}
variable {S : Image} {s : Source} {content : List Block}

theorem wp_loadStash_offers {id : Text} {blocks buffer : List Block} {verify printnoent : Bool}
    {Q : Option ((Bool × List Block) × CommandParameters) → τ → Prop} (hf : p.faults = [])
    (h : Offers env p (Mo.view t) id blocks)
    (hQ : Q (some ((true, blocks ++ buffer.drop blocks.length), p)) t) :
    wp Mo C (loadStash env id verify buffer printnoent) Q p t := by
  obtain ⟨hsha, h⟩ := h
  simp only [loadStash, wp_bind, wp_get, wpThen_some]
  cases hsrc : if p.canwrite then none else p.stashMap.lookup id with
  | some src =>
    rw [hsrc] at h
    obtain ⟨hwithin, rfl⟩ := h
    refine wp_loadStashFromSource (fun p' hp _ _ => ?_) (fun hbad p' buffer' hp => ?_) fun hbad _ =>
      absurd hsha hbad
    · rw [hp.eq hf]
      rwa [Disk.length_read] at hQ
    · exact absurd hsha (hbad hf hwithin)
  | none =>
    rw [hsrc] at h
    obtain ⟨f, hfile, htail, rfl⟩ := h
    refine wp_loadStashFile (getStashFileName_of_sha1 hsha) (fun p' f' hp hf' _ _ => ?_)
      (fun hbad => ?_) (fun f' hf' _ _ hbad => ?_)
      fun f' _ hf' _ hbad => ?_
    · rw [hfile] at hf'
      cases hf'
      rwa [hp.eq hf]
    · rcases hbad hf f hfile with h | ⟨-, h⟩
      · exact absurd htail h
      · exact absurd hsha h
    · rw [hfile] at hf'
      cases hf'
      exact absurd hsha hbad
    · rw [hfile] at hf'
      cases hf'
      exact absurd hsha hbad

theorem wp_loadStashes_placed (content : List Block) {tokens : List Text}
    {stashes : List (Text × RangeSet)}
    {Q : Option (Bool × CommandParameters) → τ → Prop} (hf : p.faults = [])
    (htok : tokens.mapM stashToken = some stashes)
    (hoffers : ∀ x ∈ stashes, ∃ blocks, Offers env p (Mo.view t) x.1 blocks ∧
      Placed content x.2.toList blocks) (hnodup : (stashes.flatMap fun x => x.2.toList).Nodup)
    (hlt : ∀ i ∈ stashes.flatMap fun x => x.2.toList, i < p.buffer.length)
    (hQ : ∀ buffer : List Block, buffer.length = p.buffer.length →
      (∀ i ∈ stashes.flatMap fun x => x.2.toList, buffer[i]? = content[i]?) →
      (∀ i ∉ stashes.flatMap fun x => x.2.toList, buffer[i]? = p.buffer[i]?) →
      Q (some (true, { p with buffer })) t) :
    wp Mo C (loadStashes env tokens) Q p t := by
  induction tokens generalizing stashes p with
  | nil =>
    cases htok
    rw [loadStashes, wp_pure]
    exact hQ p.buffer rfl (by simp) fun _ _ => rfl
  | cons token tokens ih =>
    rw [List.mapM_cons] at htok
    obtain ⟨⟨id, locs⟩, htoken, htok⟩ := Option.bind_eq_some_iff.mp htok
    obtain ⟨rest, hrest, htok⟩ := Option.bind_eq_some_iff.mp htok
    cases htok
    obtain ⟨⟨blocks, hoffer, hplaced⟩, hoffers⟩ := List.forall_mem_cons.mp hoffers
    rw [List.flatMap_cons] at hnodup hlt hQ
    obtain ⟨hlocs, hnodup, hdis⟩ := List.nodup_append.mp hnodup
    -- the token
    rw [stashToken] at htoken
    split at htoken
    · rename_i id' text hsplit
      obtain ⟨locs', hlocs', heq⟩ := Option.map_eq_some_iff.mp htoken
      cases heq
      rw [loadStashes, hsplit]
      simp only [wp_bind]
      refine wp_loadStash_offers hf hoffer ?_
      have hlength : locs.blocks = blocks.length :=
        (RangeSet.length_toList locs) ▸ hplaced.length_eq
      obtain ⟨result, hmove, hresult, hmoved, hkept⟩ :=
        @moveRange_placed _ p.buffer blocks locs hlocs
        hlength.le fun i hi => hlt i (List.mem_append_left _ hi)
      rw [hlength, List.take_length] at hmoved
      simp only [List.drop_nil, List.append_nil, wpThen_some, if_true, wp_bind,
        parseRanges_eq hlocs', wp_pure, wp_get, hmove, expect, wp_modify]
      refine ih hf hrest hoffers hnodup (fun i hi => ?_) fun buffer hlen hagree hframe => ?_
      · rw [hresult]
        exact hlt i (List.mem_append_right _ hi)
      · refine hQ buffer (hlen.trans hresult) (fun i hi => ?_) fun i hi => ?_
        · by_cases hmem : i ∈ rest.flatMap fun x => x.2.toList
          · exact hagree i hmem
          · rw [hframe i hmem]
            exact hmoved.agree hplaced ((List.mem_append.mp hi).resolve_right hmem)
        · rw [List.mem_append, not_or] at hi
          rw [hframe i hi.2]
          exact hkept i hi.1
    · cases htoken

/-! ## The source -/

theorem wp_loadSourceRanges_placed {tgt : RangeSet} {count src : Text} {tokens : List Text}
    {Q : Option (Option (Bool × List Text) × CommandParameters) → τ → Prop} (hf : p.faults = [])
    (hdecode : Source.decode count src tokens = some s) (hgathers : s.Gathers env S content)
    (hwithin : ∀ ranges, s.ranges = some ranges → env.Within ranges)
    (hbuffer : s.count ≤ p.buffer.length)
    (hQ : ∀ (buffer : List Block) rest, rest.mapM stashToken = some s.stashes →
      buffer.length = p.buffer.length →
      ((∀ ranges, s.ranges = some ranges → (Mo.view t).read ranges = S.read ranges) →
        ∀ i ∈ s.positions, buffer[i]? = content[i]?) →
      Q (some (some ((s.ranges.map fun ranges => ranges.overlaps tgt).getD false, rest),
        { p with buffer })) t) :
    wp Mo C (loadSourceRanges env tgt src tokens) Q p t := by
  obtain ⟨n, hn, hdecode⟩ := Option.bind_eq_some_iff.mp hdecode
  have hin : ∀ i ∈ s.positions, i < s.count := fun i hi =>
    List.mem_range.mp (hgathers.tiles.subset (List.mem_append_left _ hi))
  have hnodup : s.positions.Nodup :=
    (List.nodup_append.mp (hgathers.tiles.nodup_iff.mpr List.nodup_range)).1
  have hpositions : s.positions.length ≤ s.count := by
    have := hgathers.tiles.length_eq
    rw [List.length_append, List.length_range] at this
    omega
  rw [loadSourceRanges]
  by_cases hdash : src = ['-']
  · rw [if_pos hdash] at hdecode ⊢
    obtain ⟨stashes, hstashes, hdecode⟩ := Option.bind_eq_some_iff.mp hdecode
    cases hdecode
    rw [wp_pure]
    exact hQ p.buffer tokens hstashes rfl fun _ i hi => by cases hi
  · rw [if_neg hdash] at hdecode ⊢
    obtain ⟨ranges, hranges, hdecode⟩ := Option.bind_eq_some_iff.mp hdecode
    -- the source is read to the start of the buffer
    have hread : s.ranges = some ranges → wp Mo C (readBlocks env ranges p.buffer)
        (fun r t' => r = some ((true, (Mo.view t).read ranges ++ p.buffer.drop ranges.blocks), p) ∧
          t = t') p t := by
      intro hs
      have hblocks : ranges.blocks ≤ p.buffer.length := by
        have := (hgathers.ranges ranges hs).length_eq
        rw [Image.length_read] at this
        omega
      refine wp_readBlocks (fun p' hp _ _ => ?_) (fun hbad => absurd (hwithin ranges hs) (hbad hf))
        fun h => ?_
      · rw [hp.eq hf]
        exact ⟨rfl, rfl⟩
      · omega
    have hlen : s.ranges = some ranges →
        ((Mo.view t).read ranges ++ p.buffer.drop ranges.blocks).length = p.buffer.length := by
      intro hs
      have := (hgathers.ranges ranges hs).length_eq
      rw [Image.length_read] at this
      rw [List.length_append, Disk.length_read, List.length_drop]
      omega
    simp only [wp_bind, parseRanges_eq hranges, wp_pure, wpThen_some, wp_get]
    cases tokens with
    | nil =>
      cases hdecode
      refine wp_mono (hread rfl) ?_
      rintro _ _ ⟨rfl, rfl⟩
      simp only [wpThen_some, wp_bind, wp_modify, Bool.not_true, Bool.false_eq_true,
        if_false, wp_pure]
      refine hQ _ [] rfl (hlen rfl) fun hsame i hi => ?_
      refine Placed.agree ?_ (hgathers.ranges ranges rfl) hi
      rw [← hsame ranges rfl]
      refine placed_iff.mpr ⟨by simp [Source.positions], fun k i hk => ?_⟩
      obtain ⟨hlt, rfl⟩ := List.getElem?_eq_some_iff.mp hk
      rw [Source.positions, List.length_range] at hlt
      simp only [Source.positions, List.getElem_range]
      rw [List.getElem?_append_left (by simpa using hlt)]
    | cons locs tokens =>
      obtain ⟨locs', hlocs, hdecode⟩ := Option.bind_eq_some_iff.mp hdecode
      obtain ⟨stashes, hstashes, hdecode⟩ := Option.bind_eq_some_iff.mp hdecode
      cases hdecode
      refine wp_mono (hread rfl) ?_
      rintro _ _ ⟨rfl, rfl⟩
      have hplaced := hgathers.ranges ranges rfl
      have hblocks : locs'.blocks = ranges.blocks := by
        have := hplaced.length_eq
        rwa [Source.positions, RangeSet.length_toList, Image.length_read] at this
      have hlt :
          ∀ i ∈ locs'.toList,
          i < ((Mo.view t).read ranges ++ p.buffer.drop ranges.blocks).length := by
        intro i hi
        rw [hlen rfl]
        exact (hin i hi).trans_le hbuffer
      obtain ⟨result, hmove, hresult, hmoved, -⟩ := @moveRange_placed _ _
        ((Mo.view t).read ranges ++ p.buffer.drop ranges.blocks) locs' hnodup
        (by
          rw [hlen rfl]
          refine (hblocks.trans_le ?_).trans hbuffer
          rw [← Image.length_read S, ← hplaced.length_eq]
          exact hpositions) hlt
      rw [← moveRangeInPlace_eq (hgathers.increasing locs' rfl) (RangeSet.le_length_of_toList hlt)]
        at hmove
      rw [hblocks, List.take_left' (Disk.length_read _ _)] at hmoved
      simp only [wpThen_some, wp_bind, wp_modify, Bool.not_true, Bool.false_eq_true, if_false,
        parseRanges_eq hlocs, wp_pure, wp_get, hmove, expect]
      refine hQ result tokens hstashes (hresult.trans (hlen rfl)) fun hsame i hi => ?_
      rw [hsame ranges rfl] at hmoved
      exact hmoved.agree hplaced hi

/-- `LoadSourceBlocks`: if the source ranges are as in the image, the buffer starts with the
source. -/
theorem wp_loadSourceBlocks_gathers {tgt : RangeSet} {count src : Text} {tokens : List Text}
    {Q : Option (Option (Nat × Bool) × CommandParameters) → τ → Prop}
    (hinj : Function.Injective env.sha1) (hf : p.faults = [])
    (hdecode : Source.decode count src tokens = some s) (hgathers : s.Gathers env S content)
    (hwithin : ∀ ranges, s.ranges = some ranges → env.Within ranges)
    (hoffers : ∀ x ∈ s.stashes, ∃ blocks, Offers env p (Mo.view t) x.1 blocks)
    (hQ : ∀ buffer : List Block, s.count ≤ buffer.length →
      ((∀ ranges, s.ranges = some ranges → (Mo.view t).read ranges = S.read ranges) →
        buffer.take s.count = content) →
      Q (some (some (s.count, (s.ranges.map fun ranges => ranges.overlaps tgt).getD false),
        { p with buffer })) t) :
    wp Mo C (loadSourceBlocks env tgt count src tokens) Q p t := by
  have hcount : parseUint count = some s.count := by
    obtain ⟨n, hn, hrest⟩ := Option.bind_eq_some_iff.mp hdecode
    split at hrest
    · obtain ⟨_, _, hrest⟩ := Option.bind_eq_some_iff.mp hrest
      cases hrest
      exact hn
    · obtain ⟨_, _, hrest⟩ := Option.bind_eq_some_iff.mp hrest
      cases tokens with
      | nil =>
        cases hrest
        exact hn
      | cons =>
        obtain ⟨_, _, hrest⟩ := Option.bind_eq_some_iff.mp hrest
        obtain ⟨_, _, hrest⟩ := Option.bind_eq_some_iff.mp hrest
        cases hrest
        exact hn
  have hin : ∀ i ∈ s.positions ++ s.stashes.flatMap fun x => x.2.toList, i < s.count := fun i hi =>
    List.mem_range.mp (hgathers.tiles.subset hi)
  obtain ⟨-, hnodup, hdis⟩ := List.nodup_append.mp (hgathers.tiles.nodup_iff.mpr List.nodup_range)
  rw [loadSourceBlocks, hcount]
  simp only [hgathers.wrapBlocks_count, wp_bind, wp_modify, wpThen_some]
  have hallocate : s.count ≤ (allocate s.count p.buffer).length := by
    rw [length_allocate]
    exact Nat.le_max_left _ _
  refine wp_loadSourceRanges_placed (p := { p with buffer := allocate s.count p.buffer }) hf hdecode
    hgathers hwithin
    hallocate fun buffer rest hrest hlen hranges => ?_
  have hlen' : s.count ≤ buffer.length := hallocate.trans_eq hlen.symm
  simp only [wpThen_some, wp_bind]
  refine wp_loadStashes_placed (p := { p with buffer }) content hf hrest (fun x hx => ?_) hnodup
    (fun i hi => (hin i (List.mem_append_right _ hi)).trans_le hlen')
      fun buffer' hlen₂ hstashes hkept => ?_
  · obtain ⟨blocks, hoffer⟩ := hoffers x hx
    obtain ⟨blocks', hsha, hplaced⟩ := hgathers.stashes x hx
    cases hinj (hoffer.1.trans hsha.symm)
    exact ⟨blocks, hoffer, hplaced⟩
  · simp only [wpThen_some, if_true, wp_pure]
    refine hQ buffer' (hlen'.trans_eq hlen₂.symm) fun hsame => ?_
    -- every position of the buffer belongs to one of the parts
    refine List.ext_getElem? fun i => ?_
    rcases Nat.lt_or_ge i s.count with hi | hi
    · rw [List.getElem?_take_of_lt hi]
      by_cases hmem : i ∈ s.stashes.flatMap fun x => x.2.toList
      · exact hstashes i hmem
      · rw [hkept i hmem]
        refine hranges hsame i ?_
        have hpart := hgathers.tiles.mem_iff.mpr (List.mem_range.mpr hi)
        exact (List.mem_append.mp hpart).resolve_right hmem
    · have hlength := hgathers.count
      rw [List.getElem?_eq_none (by rw [List.length_take]; omega), List.getElem?_eq_none (by omega)]

end BootableRecovery.BlockImg
