import BootableRecovery.OtaUtil.RangeSet
import Mathlib.Algebra.Order.BigOperators.Group.List

/-!
# The text of a set of ranges

`RangeSet::Parse` accepts exactly the lists of numbers that `Describes` states, and `ToString`
writes one of them. A rejected text gives the empty set. What follows a NUL in a piece is not looked
at.
-/

namespace BootableRecovery

namespace RangeSet

variable {rs rs' : RangeSet} {s : Text} {pairs : List Range}

/-- The bounds of ranges, in order. -/
def boundsOf (pairs : List Range) : List Nat := pairs.flatMap fun r => [r.1, r.2]

/-- The text is a list of numbers with commas between them: the number of bounds and then the bounds
of the ranges, at least one of them. A number is read up to a NUL in its piece. -/
structure Describes (s : Text) (pairs : List Range) : Prop where
  numbers : (s.splitOn ',').mapM parseBound = some (pairs.length * 2 :: boundsOf pairs)
  nonempty : pairs ≠ []
  increasing : ∀ r ∈ pairs, r.1 < r.2

theorem le_of_parseBound {n : Nat} (h : parseBound s = some n) : n ≤ INT_MAX := by
  rw [parseBound, Option.filter_eq_some_iff, decide_eq_true_eq] at h
  exact h.2

theorem length_boundsOf (pairs : List Range) : (boundsOf pairs).length = pairs.length * 2 := by
  induction pairs with
  | nil => rfl
  | cons r pairs ih =>
    rw [boundsOf, List.flatMap_cons, List.length_append, ← boundsOf, ih, List.length_cons]
    simp only [List.length_cons, List.length_nil]
    omega

/-! ## The pairs -/

theorem boundsOf_cons (r : Range) (pairs : List Range) :
    boundsOf (r :: pairs) = r.1 :: r.2 :: boundsOf pairs := rfl

theorem length_mapM {bounds : List Text} {ns : List Nat} (h : bounds.mapM parseBound = some ns) :
    ns.length = bounds.length := by
  induction bounds generalizing ns with
  | nil =>
    cases h
    rfl
  | cons a bounds ih =>
    rw [List.mapM_cons] at h
    obtain ⟨n, -, h⟩ := Option.bind_eq_some_iff.mp h
    obtain ⟨ns, hns, h⟩ := Option.bind_eq_some_iff.mp h
    cases h
    rw [List.length_cons, List.length_cons, ih hns]

theorem mapM_of_parsePairs {bounds : List Text} (h : parsePairs bounds = some pairs) :
    bounds.mapM parseBound = some (boundsOf pairs) := by
  induction bounds using parsePairs.induct generalizing pairs with
  | case1 =>
    cases h
    rfl
  | case2 a => cases h
  | case3 a b rest ih =>
    rw [parsePairs] at h
    obtain ⟨first, hfirst, h⟩ := Option.bind_eq_some_iff.mp h
    obtain ⟨second, hsecond, h⟩ := Option.bind_eq_some_iff.mp h
    obtain ⟨pairs, hpairs, h⟩ := Option.bind_eq_some_iff.mp h
    cases h
    rw [List.mapM_cons, List.mapM_cons, hfirst, hsecond, ih hpairs]
    rfl

theorem parsePairs_of_mapM {bounds : List Text}
    (h : bounds.mapM parseBound = some (boundsOf pairs)) : parsePairs bounds = some pairs := by
  induction pairs generalizing bounds with
  | nil =>
    have hlength := length_mapM h
    rw [List.length_eq_zero_iff.mp hlength.symm]
    rfl
  | cons r pairs ih =>
    rw [boundsOf_cons] at h
    match bounds, h with
    | [], h => cases h
    | [a], h =>
      have hlength := length_mapM h
      simp only [List.length_cons, List.length_nil] at hlength
      omega
    | a :: b :: rest, h =>
      rw [List.mapM_cons, List.mapM_cons] at h
      obtain ⟨first, hfirst, h⟩ := Option.bind_eq_some_iff.mp h
      obtain ⟨ns, hns, h⟩ := Option.bind_eq_some_iff.mp h
      obtain ⟨second, hsecond, hns⟩ := Option.bind_eq_some_iff.mp hns
      obtain ⟨ms, hms, hns⟩ := Option.bind_eq_some_iff.mp hns
      cases hns
      cases h
      rw [parsePairs, hfirst, hsecond, ih hms]
      rfl

theorem pushBack_eq_some {r : Range} (h : rs.pushBack r = some rs') :
    rs'.ranges = rs.ranges ++ [r] ∧ r.1 < r.2 := by
  rw [pushBack] at h
  split at h
  · rename_i hlt
    split at h
    · cases h
    · cases h
      exact ⟨rfl, hlt⟩
  · cases h

theorem pushBack_of_lt (rs : RangeSet) {r : Range} (hr : r.1 < r.2)
    (hsize : rs.blocks + (r.2 - r.1) < SIZE_MAX) :
    ∃ rs', rs.pushBack r = some rs' ∧ rs'.ranges = rs.ranges ++ [r] := by
  rw [pushBack, dif_pos hr, if_neg (by omega)]
  exact ⟨_, rfl, rfl⟩

theorem blocks_eq_add {r : Range} (h : rs'.ranges = rs.ranges ++ [r]) :
    rs'.blocks = rs.blocks + (r.2 - r.1) := by
  rw [blocks, h, List.map_append, List.sum_append, List.map_singleton, List.sum_singleton]
  rfl

theorem of_foldlM_pushBack (h : pairs.foldlM pushBack rs = some rs') :
    rs'.ranges = rs.ranges ++ pairs ∧ ∀ r ∈ pairs, r.1 < r.2 := by
  induction pairs generalizing rs with
  | nil =>
    cases h
    exact ⟨(List.append_nil _).symm, List.forall_mem_nil _⟩
  | cons r pairs ih =>
    rw [List.foldlM_cons] at h
    obtain ⟨next, hnext, h⟩ := Option.bind_eq_some_iff.mp h
    obtain ⟨hranges, hr⟩ := pushBack_eq_some hnext
    obtain ⟨hrest, hpairs⟩ := ih h
    rw [hrest, hranges, List.append_assoc]
    exact ⟨rfl, List.forall_mem_cons.mpr ⟨hr, hpairs⟩⟩

theorem foldlM_pushBack (rs : RangeSet) (hpairs : ∀ r ∈ pairs, r.1 < r.2)
    (hsize : rs.blocks + (pairs.map fun r => r.2 - r.1).sum < SIZE_MAX) :
    ∃ rs', pairs.foldlM pushBack rs = some rs' ∧ rs'.ranges = rs.ranges ++ pairs := by
  induction pairs generalizing rs with
  | nil => exact ⟨rs, rfl, (List.append_nil _).symm⟩
  | cons r pairs ih =>
    rw [List.forall_mem_cons] at hpairs
    rw [List.map_cons, List.sum_cons] at hsize
    obtain ⟨next, hnext, hranges⟩ := pushBack_of_lt rs hpairs.1 (by omega)
    have hblocks := blocks_eq_add hranges
    obtain ⟨rs', hrs', hrest⟩ := ih next hpairs.2 (by omega)
    refine ⟨rs', ?_, by rw [hrest, hranges, List.append_assoc]; rfl⟩
    rw [List.foldlM_cons, hnext]
    exact hrs'

theorem ext_ranges (h : rs.ranges = rs'.ranges) : rs = rs' := by
  cases rs
  cases rs'
  cases h
  rfl

theorem ranges_ofPairs (hpairs : ∀ r ∈ pairs, r.1 < r.2)
    (hsize : (pairs.map fun r => r.2 - r.1).sum < SIZE_MAX) : (ofPairs pairs).ranges = pairs := by
  obtain ⟨rs', hrs', hranges⟩ := foldlM_pushBack empty hpairs
    (by rw [show empty.blocks = 0 from rfl, Nat.zero_add]; exact hsize)
  rw [ofPairs, hrs']
  exact hranges

theorem ofPairs_cases (pairs : List Range) : ofPairs pairs = empty ∨
    (ofPairs pairs).ranges = pairs ∧ ∀ r ∈ pairs, r.1 < r.2 := by
  rw [ofPairs]
  rcases h : pairs.foldlM pushBack empty with _ | rs'
  · exact .inl rfl
  · exact .inr (of_foldlM_pushBack h)

/-! ## The accepted texts -/

theorem sum_le (hmax : ∀ r ∈ pairs, r.2 ≤ INT_MAX) :
    (pairs.map fun r => r.2 - r.1).sum ≤ pairs.length * INT_MAX := by
  have := List.sum_le_card_nsmul (pairs.map fun r => r.2 - r.1) INT_MAX (by
    intro n hn
    obtain ⟨r, hr, rfl⟩ := List.mem_map.mp hn
    exact Nat.le_trans (Nat.sub_le ..) (hmax r hr))
  rwa [List.length_map] at this

theorem le_of_mapM {bounds : List Text} {ns : List Nat} (h : bounds.mapM parseBound = some ns) :
    ∀ n ∈ ns, n ≤ INT_MAX := by
  induction bounds generalizing ns with
  | nil =>
    cases h
    exact List.forall_mem_nil _
  | cons a bounds ih =>
    rw [List.mapM_cons] at h
    obtain ⟨n, hn, h⟩ := Option.bind_eq_some_iff.mp h
    obtain ⟨ns, hns, h⟩ := Option.bind_eq_some_iff.mp h
    cases h
    exact List.forall_mem_cons.mpr ⟨le_of_parseBound hn, ih hns⟩

/-- `Parse` of an accepted text. The limits on the numbers rule an overflow of the size out. -/
theorem Describes.ranges_parse (h : Describes s pairs) : (parse s).ranges = pairs := by
  obtain ⟨hnumbers, hne, hpairs⟩ := h
  rw [parse]
  rcases hs : s.splitOn ',' with _ | ⟨count, bounds⟩
  · exact absurd hs (List.splitOn_ne_nil ',' s)
  · rw [hs, List.mapM_cons] at hnumbers
    obtain ⟨num, hcount, h⟩ := Option.bind_eq_some_iff.mp hnumbers
    obtain ⟨ns, hbounds, h⟩ := Option.bind_eq_some_iff.mp h
    cases h
    have hlength := length_mapM hbounds
    rw [length_boundsOf] at hlength
    have hpos := List.length_pos_iff.mpr hne
    have hmax : ∀ r ∈ pairs, r.2 ≤ INT_MAX := fun r hr =>
      le_of_mapM hbounds r.2 (List.mem_flatMap.mpr ⟨r, hr, by simp⟩)
    have hsize : (pairs.map fun r => r.2 - r.1).sum < SIZE_MAX := by
      have hsum := sum_le hmax
      have hcount' := le_of_parseBound hcount
      have hmul := Nat.mul_le_mul_right INT_MAX hcount'
      have : INT_MAX * INT_MAX < SIZE_MAX := by decide
      have : pairs.length * INT_MAX ≤ pairs.length * 2 * INT_MAX :=
        Nat.mul_le_mul_right _ (Nat.le_mul_of_pos_right _ (by decide))
      omega
    dsimp only
    rw [if_neg (by omega), hcount]
    dsimp only
    rw [if_neg (by omega), parsePairs_of_mapM hbounds]
    exact ranges_ofPairs hpairs hsize

theorem describes_of_isValid (h : (parse s).isValid = true) : Describes s (parse s).ranges := by
  have hempty : empty.isValid = false := rfl
  rcases hs : s.splitOn ',' with _ | ⟨count, bounds⟩
  · exact absurd hs (List.splitOn_ne_nil ',' s)
  · rw [parse, hs] at h ⊢
    dsimp only at h ⊢
    split at h
    · rw [hempty] at h
      cases h
    · rename_i hlong
      rw [if_neg hlong]
      rcases hcount : parseBound count with _ | num
      · rw [hcount, hempty] at h
        cases h
      · rw [hcount] at h
        dsimp only at h ⊢
        split at h
        · rw [hempty] at h
          cases h
        · rename_i hnum
          rw [if_neg hnum]
          rcases hbounds : parsePairs bounds with _ | pairs
          · rw [hbounds, Option.map_none, Option.getD_none, hempty] at h
            cases h
          · rw [hbounds, Option.map_some, Option.getD_some] at h
            rw [Option.map_some, Option.getD_some]
            rcases ofPairs_cases pairs with hp | ⟨hranges, hpairs⟩
            · rw [hp, hempty] at h
              cases h
            · have hmapM := mapM_of_parsePairs hbounds
              have hlength := length_mapM hmapM
              rw [length_boundsOf] at hlength
              have heq : num = pairs.length * 2 := by omega
              rw [hranges]
              refine ⟨?_, ?_, hpairs⟩
              · rw [hs, List.mapM_cons, hcount, hmapM, heq]
                rfl
              · intro hnil
                rw [hnil] at hlength
                simp only [List.length_nil] at hlength
                omega

/-! ## The printed text -/

theorem parseBound_toDigits {n : Nat} (h : n ≤ INT_MAX) :
    parseBound (Nat.toDigits 10 n) = some n := by
  have hlt : n < 2 ^ 64 := Nat.lt_of_le_of_lt h (by decide)
  rw [parseBound, parseUint_toDigits hlt, Option.filter_some, if_pos (by simpa using h)]

theorem comma_not_mem_toDigits (n : Nat) : ',' ∉ Nat.toDigits 10 n := fun h =>
  absurd (isDigit_toDigits h) (by decide)

theorem splitOn_printed (first : Text) (hfirst : ',' ∉ first) (ns : List Nat) :
    (first ++ ns.flatMap fun n => ',' :: Nat.toDigits 10 n).splitOn ',' =
      first :: ns.map (Nat.toDigits 10) := by
  induction ns generalizing first with
  | nil => rw [List.flatMap_nil, List.append_nil, List.splitOn_eq_singleton hfirst, List.map_nil]
  | cons n ns ih =>
    rw [List.flatMap_cons, List.cons_append, List.splitOn_append_cons_self_of_not_mem hfirst,
      ih _ (comma_not_mem_toDigits n), List.map_cons]

theorem toString_eq (hne : rs.ranges ≠ []) :
    rs.toString = Nat.toDigits 10 (rs.ranges.length * 2) ++
      (boundsOf rs.ranges).flatMap fun n => ',' :: Nat.toDigits 10 n := by
  rw [toString, if_neg hne, boundsOf, List.flatMap_assoc]
  simp

theorem mapM_toDigits {ns : List Nat} (h : ∀ n ∈ ns, n ≤ INT_MAX) :
    (ns.map (Nat.toDigits 10)).mapM parseBound = some ns := by
  induction ns with
  | nil => rfl
  | cons n ns ih =>
    rw [List.forall_mem_cons] at h
    rw [List.map_cons, List.mapM_cons, parseBound_toDigits h.1, ih h.2]
    rfl

theorem describes_toString (hne : rs.ranges ≠ [])
    (hmax : ∀ r ∈ rs.ranges, r.1 ≤ INT_MAX ∧ r.2 ≤ INT_MAX) (hlength : rs.ranges.length < 2 ^ 30) :
    Describes rs.toString rs.ranges := by
  refine ⟨?_, hne, rs.nonempty⟩
  have hcount : rs.ranges.length * 2 ≤ INT_MAX := by
    have : INT_MAX = 2 ^ 31 - 1 := rfl
    omega
  have hbounds : ∀ n ∈ boundsOf rs.ranges, n ≤ INT_MAX := by
    intro n hn
    obtain ⟨r, hr, hn⟩ := List.mem_flatMap.mp hn
    rcases List.mem_cons.mp hn with rfl | hn
    · exact (hmax r hr).1
    · rw [List.mem_singleton.mp hn]
      exact (hmax r hr).2
  rw [toString_eq hne, splitOn_printed _ (comma_not_mem_toDigits _), List.mapM_cons,
    parseBound_toDigits hcount, mapM_toDigits hbounds]
  rfl

/-- The text format: what is printed is read back, the accepted texts are those that describe
ranges, and every other text gives the set without ranges and blocks. -/
theorem parse_spec :
    (∀ rs : RangeSet, rs.ranges ≠ [] → (∀ r ∈ rs.ranges, r.1 ≤ INT_MAX ∧ r.2 ≤ INT_MAX) →
      rs.ranges.length < 2 ^ 30 → parse rs.toString = rs) ∧
    ∀ s : Text, ((parse s).isValid = true ↔ ∃ pairs, Describes s pairs) ∧
      (∀ pairs, Describes s pairs → (parse s).ranges = pairs) ∧
      ((¬∃ pairs, Describes s pairs) → parse s = empty ∧ (parse s).blocks = 0) := by
  have hiff : ∀ s : Text, (parse s).isValid = true ↔ ∃ pairs, Describes s pairs := by
    intro s
    refine ⟨fun h => ⟨_, describes_of_isValid h⟩, fun ⟨pairs, h⟩ => ?_⟩
    have hne := h.nonempty
    rw [← h.ranges_parse] at hne
    simpa [isValid] using hne
  refine ⟨fun rs hne hmax hlength => ?_, fun s =>
    ⟨hiff s, fun pairs h => h.ranges_parse, fun h => ?_⟩⟩
  · exact ext_ranges (describes_toString hne hmax hlength).ranges_parse
  · have hnil : parse s = empty := by
      have hinvalid := mt (hiff s).mp h
      apply ext_ranges
      rw [show empty.ranges = [] from rfl]
      simpa [isValid] using hinvalid
    rw [hnil]
    exact ⟨rfl, rfl⟩

/-- The text of the blocks 15 to 19 and 1 to 9, which are not in ascending order. -/
theorem parse_spec_unordered :
    parse (ofPairs [(15, 20), (1, 10)]).toString = ofPairs [(15, 20), (1, 10)] :=
  parse_spec.1 _ (by decide) (by decide) (by decide)

/-- The second piece is no number as a whole, and the range 1 to 4 is read. -/
theorem not_parse_spec_whole : ¬∀ s : Text, (parse s).isValid = true ↔
    ∃ pairs, Describes s pairs ∧ ∀ piece ∈ s.splitOn ',', '\x00' ∉ piece := by
  intro h
  obtain ⟨_, -, hwhole⟩ := (h ['2', ',', '1', '\x00', 'x', ',', '5']).mp (by decide)
  exact hwhole ['1', '\x00', 'x'] (by decide) (by decide)

end RangeSet

end BootableRecovery
