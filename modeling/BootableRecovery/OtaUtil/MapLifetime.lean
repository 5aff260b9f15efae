import BootableRecovery.OtaUtil.SysUtil
import BootableRecovery.Theory.Regions

/-!
# The lifetime of a mapping

A `MemMapping` of `otautil/SysUtil.cpp` from its constructor to its destructor: what the calls of
`MapFile` map and unmap, with any files and any failures of the system calls. The destructor unmaps
what `ranges_` lists. A call overwrites `ranges_`, and `MapBlockFile` leaves the pieces in it that
it mapped before a later range failed, although it has unmapped them. So all is released, and
released once, exactly if each call is made while `ranges_` is empty and none fails behind its first
range (`lifetime_released_iff`).
-/

namespace BootableRecovery.MapLifetime

/-! ## The object -/

/-- `MemMapping`, and the number of regions that were mapped so far, which is the number of the next
one. `addr` is the start of a region; neither it nor `length` is initialized. -/
structure Mapping where
  ranges : List Piece
  addr : Option Nat
  length : Option Nat
  regions : Nat
  deriving DecidableEq

/-- The constructor. -/
def Mapping.new : Mapping := ⟨[], none, none, 0⟩

/-- A call of `MapFile`: the name, and what the system answers. The content is that of the block
map; a single file is opened, and `mmap i` is the answer to the call `i` of `mmap`. -/
structure Call where
  fn : Text
  content : Option Text
  opened : Bool
  fstat : Option Nat
  mmap : Nat → Bool

/-- What a call returned, what it mapped and unmapped, and the object behind it. -/
structure Outcome where
  result : Bool
  events : List RegionEvent
  mapping : Mapping

variable (m : Mapping) (call : Call)

def Mapping.refuse : Outcome := ⟨false, [], m⟩

/-- `MapFD`. No region is empty. -/
def Mapping.mapFD : Outcome :=
  match call.fstat with
  | none => m.refuse
  | some size =>
    if size = 0 ∨ call.mmap 0 = false then m.refuse
    else ⟨true, [.map m.regions size],
      ⟨[⟨m.regions, 0, size⟩], some m.regions, some size, m.regions + 1⟩⟩

/-- A block map whose numbers were checked. -/
structure BlockMap where
  blockDev : Text
  size : Nat
  blksize : Nat
  ranges : List Text
  deriving DecidableEq

def BlockMap.blocks (b : BlockMap) : Nat := (b.size + 2 ^ 64 - 1) % 2 ^ 64 / b.blksize + 1

/-- The size of the region that is reserved. -/
def BlockMap.reserved (b : BlockMap) : Nat := b.blocks * b.blksize

/-- The checks of `MapBlockFile` before the reservation. -/
def parseBlockMap (content : Text) : Option BlockMap :=
  match (trim content).splitOn '\n' with
  | blockDev :: sizes :: count :: ranges => do
    if ranges = [] then none
    else
      let (size, blksize) ← scanSizes sizes
      let (rangeCount, _) ← scanSize count
      let b := BlockMap.mk blockDev size blksize ranges
      if size = 0 ∨ blksize = 0 ∨ b.blocks > SIZE_MAX / blksize ∨ rangeCount = 0 ∨
          ranges.length ≠ rangeCount then none
      else return b
  | _ => none

/-- The loop over the ranges: whether all of them were mapped and fill the reservation, and the
pieces that were recorded. -/
def mapRanges (blksize region : Nat) : List Text → (i offset remainingSize : Nat) →
    Bool × List Piece
  | [], _, _, remainingSize => (remainingSize = 0, [])
  | line :: lines, i, offset, remainingSize =>
    match scanSizes line with
    | none => (false, [])
    | some (start, stop) =>
      let rangeSize := (stop - start) * blksize
      if stop ≤ start ∨ stop - start > SIZE_MAX / blksize ∨
        rangeSize > remainingSize then (false, [])
      else if call.mmap (i + 1) = false then (false, [])
      else
        let (success, pieces) :=
          mapRanges blksize region lines (i + 1) (offset + rangeSize) (remainingSize - rangeSize)
        (success, ⟨region, offset, rangeSize⟩ :: pieces)

def Mapping.mapBlockFile : Outcome :=
  match call.content.bind parseBlockMap with
  | none => m.refuse
  | some b =>
    let whole : Piece := ⟨m.regions, 0, b.reserved⟩
    if call.mmap 0 = false then m.refuse
    else if call.opened = false then
      ⟨false, [.map m.regions b.reserved, .unmap whole], { m with regions := m.regions + 1 }⟩
    else
      let (success, pieces) := mapRanges call b.blksize m.regions b.ranges 0 0 b.reserved
      let events := .map m.regions b.reserved :: pieces.map .overlay
      if success then ⟨true, events, ⟨pieces, some m.regions, some b.size, m.regions + 1⟩⟩
      else ⟨false, events ++ [.unmap whole], { m with ranges := pieces, regions := m.regions + 1 }⟩

def Mapping.mapFile : Outcome :=
  match call.fn with
  | [] => m.refuse
  | '@' :: _ => m.mapBlockFile call
  | _ => if call.opened = false then m.refuse else m.mapFD call

/-- `~MemMapping`. -/
def Mapping.destroy : List RegionEvent := m.ranges.map .unmap

/-- What is mapped and unmapped from an object on, with some calls and the destructor behind
them. -/
def Mapping.lifetime : Mapping → List Call → List RegionEvent
  | m, [] => m.destroy
  | m, call :: calls => (m.mapFile call).events ++ (m.mapFile call).mapping.lifetime calls

/-- Behind each call that returns false, `ranges_` is empty. -/
def Mapping.FailuresOwnNothing : Mapping → List Call → Prop
  | _, [] => True
  | m, call :: calls => ((m.mapFile call).result = false → (m.mapFile call).mapping.ranges = []) ∧
    (m.mapFile call).mapping.FailuresOwnNothing calls

/-! ## The condition -/

/-- The first range of a block map is mapped. -/
def FirstMapped (b : BlockMap) : Prop :=
  ∃ start stop, b.ranges.head?.bind scanSizes = some (start, stop) ∧ start < stop ∧
    (stop - start) * b.blksize ≤ b.reserved ∧ call.mmap 1 = true

/-- All ranges are mapped, and they fill the reservation. -/
def AllMapped (b : BlockMap) : Prop :=
  ∃ ranges : List (Nat × Nat), b.ranges.map scanSizes = ranges.map some ∧
  (∀ r ∈ ranges, r.1 < r.2) ∧
    (ranges.map fun r => (r.2 - r.1) * b.blksize).sum = b.reserved ∧
    ∀ i < ranges.length, call.mmap (i + 1) = true

/-- The call is for a block map whose ranges are mapped up to one behind the first. -/
def BreaksOff : Prop :=
  ∃ b, call.fn.head? = some '@' ∧ call.content.bind parseBlockMap = some b ∧ call.mmap 0 = true ∧
    call.opened = true ∧ FirstMapped call b ∧ ¬AllMapped call b

/-- Each call is made while `ranges_` is empty, and none breaks off behind its first range. -/
def Mapping.CleanCalls : Mapping → List Call → Prop
  | _, [] => True
  | m, call :: calls => m.ranges = [] ∧ ¬BreaksOff call ∧ (m.mapFile call).mapping.CleanCalls calls

section
variable {m : Mapping} {call : Call} {blksize region i offset remainingSize : Nat}
    {lines : List Text}

/-! ## The loop over the ranges -/

theorem mapRanges_adjacent (hblksize : 0 < blksize) :
    ∃ stop, Adjacent region offset (mapRanges call blksize region lines i offset remainingSize).2
    stop ∧
      stop ≤ offset + remainingSize ∧
      ((mapRanges call blksize region lines i offset remainingSize).1 = true →
        stop = offset + remainingSize) := by
  induction lines generalizing i offset remainingSize with
  | nil => exact ⟨offset, .nil, Nat.le_add_right _ _, fun h => by simp [mapRanges] at h; omega⟩
  | cons line lines ih =>
    have hstopped : ∃ stop, Adjacent region offset [] stop ∧ stop ≤ offset + remainingSize ∧
        (false = true → stop = offset + remainingSize) :=
      ⟨offset, .nil, Nat.le_add_right _ _, by intro h; cases h⟩
    rw [mapRanges]
    split
    · exact hstopped
    · rename_i start stop _
      dsimp only
      split
      · exact hstopped
      · rename_i hvalid
        split
        · exact hstopped
        · have hpos : 0 < (stop - start) * blksize := Nat.mul_pos (by omega) hblksize
          obtain ⟨last, hadjacent, hle, hdone⟩ :=
            @ih (i + 1) (offset + (stop - start) * blksize)
            (remainingSize - (stop - start) * blksize)
          refine ⟨last, .cons hpos hadjacent, by omega, fun h => ?_⟩
          have := hdone h
          omega

/-- The line gives a range that fits and is mapped. -/
def Maps (call : Call) (blksize i remainingSize : Nat) (line : Text) (start stop : Nat) : Prop :=
  scanSizes line = some (start, stop) ∧ start < stop ∧ (stop - start) * blksize ≤ remainingSize ∧
    call.mmap (i + 1) = true

theorem mapRanges_cons_of_maps {line : Text} {start stop : Nat} (hblksize : 0 < blksize)
    (hremaining : remainingSize ≤ SIZE_MAX)
    (h : Maps call blksize i remainingSize line start stop) :
    mapRanges call blksize region (line :: lines) i offset remainingSize =
      let r := mapRanges call blksize region lines (i + 1) (offset + (stop - start) * blksize)
        (remainingSize - (stop - start) * blksize)
      (r.1, ⟨region, offset, (stop - start) * blksize⟩ :: r.2) := by
  obtain ⟨hscan, hlt, hle, hmap⟩ := h
  have hdiv : stop - start ≤ SIZE_MAX / blksize :=
    (Nat.le_div_iff_mul_le hblksize).mpr (Nat.le_trans hle hremaining)
  rw [mapRanges, hscan]
  dsimp only
  rw [if_neg (by omega), if_neg (by simp [hmap])]

theorem mapRanges_cons_of_not_maps {line : Text}
    (h : ∀ start stop, ¬Maps call blksize i remainingSize line start stop) :
    mapRanges call blksize region (line :: lines) i offset remainingSize = (false, []) := by
  rw [mapRanges]
  split
  · rfl
  · rename_i start stop hscan
    dsimp only
    split
    · rfl
    · split
      · rfl
      · rename_i hvalid hmap
        exact absurd ⟨hscan, by omega, by omega, by simpa using hmap⟩ (h start stop)

theorem mapRanges_snd_ne_nil (hblksize : 0 < blksize) (hremaining : remainingSize ≤ SIZE_MAX) :
    (mapRanges call blksize region lines i offset remainingSize).2 ≠ [] ↔
      ∃ start stop, lines.head?.bind scanSizes = some (start, stop) ∧ start < stop ∧
        (stop - start) * blksize ≤ remainingSize ∧ call.mmap (i + 1) = true := by
  cases lines with
  | nil => simp [mapRanges]
  | cons line lines =>
    by_cases hmaps : ∃ start stop, Maps call blksize i remainingSize line start stop
    · obtain ⟨start, stop, h⟩ := hmaps
      rw [mapRanges_cons_of_maps hblksize hremaining h]
      exact iff_of_true (List.cons_ne_nil _ _) ⟨start, stop, h⟩
    · rw [mapRanges_cons_of_not_maps fun start stop h => hmaps ⟨start, stop, h⟩]
      exact iff_of_false (fun h => h rfl) hmaps

theorem mapRanges_fst_iff (hblksize : 0 < blksize) (hremaining : remainingSize ≤ SIZE_MAX) :
    (mapRanges call blksize region lines i offset remainingSize).1 = true ↔
      ∃ ranges : List (Nat × Nat), lines.map scanSizes = ranges.map some ∧
      (∀ r ∈ ranges, r.1 < r.2) ∧
        (ranges.map fun r => (r.2 - r.1) * blksize).sum = remainingSize ∧
        ∀ j < ranges.length, call.mmap (i + j + 1) = true := by
  induction lines generalizing i offset remainingSize with
  | nil =>
    simp only [mapRanges, decide_eq_true_eq, List.map_nil]
    constructor
    · rintro rfl
      exact ⟨[], rfl, by simp, rfl, by simp⟩
    · rintro ⟨ranges, hscan, -, hsum, -⟩
      rw [List.map_eq_nil_iff.mp hscan.symm] at hsum
      exact hsum.symm
  | cons line lines ih =>
    constructor
    · intro hfst
      obtain ⟨start, stop, h⟩ :
          ∃ start stop, Maps call blksize i remainingSize line start stop := by
        by_contra hno
        rw [mapRanges_cons_of_not_maps fun start stop h => hno ⟨start, stop, h⟩] at hfst
        cases hfst
      rw [mapRanges_cons_of_maps hblksize hremaining h] at hfst
      obtain ⟨ranges, hranges, hordered, hsum, hmaps⟩ := (ih (by omega)).mp hfst
      refine ⟨(start, stop) :: ranges, ?_, List.forall_mem_cons.mpr ⟨h.2.1, hordered⟩, ?_, ?_⟩
      · rw [List.map_cons, List.map_cons, h.1, hranges]
      · rw [List.map_cons, List.sum_cons, hsum]
        exact Nat.add_sub_cancel' h.2.2.1
      · intro j hj
        cases j with
        | zero => exact h.2.2.2
        | succ j =>
          have hnext := hmaps j (Nat.lt_of_succ_lt_succ hj)
          rwa [Nat.add_right_comm i 1 j] at hnext
    · rintro ⟨ranges, hranges, hordered, hsum, hmaps⟩
      cases ranges with
      | nil => cases hranges
      | cons r ranges =>
        obtain ⟨start, stop⟩ := r
        rw [List.map_cons, List.map_cons, List.cons.injEq] at hranges
        rw [List.map_cons, List.sum_cons] at hsum
        rw [List.forall_mem_cons] at hordered
        have hle : (stop - start) * blksize ≤ remainingSize := hsum ▸ Nat.le_add_right _ _
        have h : Maps call blksize i remainingSize line start stop :=
          ⟨hranges.1, hordered.1, hle, hmaps 0 (Nat.zero_lt_succ _)⟩
        rw [mapRanges_cons_of_maps hblksize hremaining h]
        refine (ih (by omega)).mpr ⟨ranges, hranges.2, hordered.2, ?_, fun j hj => ?_⟩
        · rw [← hsum, Nat.add_sub_cancel_left]
        · have hnext := hmaps (j + 1) (Nat.succ_lt_succ hj)
          rwa [← Nat.add_assoc, Nat.add_right_comm i j 1] at hnext

/-! ## What a call can do -/

/-- The outcomes of a call: nothing is mapped; the reservation is given back; some pieces of it were
recorded before it was given back; or a region is mapped, with the pieces that make it up. -/
inductive Stepped (m : Mapping) : Outcome → Prop
  | refused : Stepped m ⟨false, [], m⟩
  | unopened : Stepped m ⟨false, [.map m.regions size, .unmap ⟨m.regions, 0, size⟩],
      { m with regions := m.regions + 1 }⟩
  | failed : Adjacent m.regions 0 pieces stop → stop ≤ size →
    Stepped m ⟨false, .map m.regions size :: (pieces.map .overlay ++ [.unmap ⟨m.regions, 0, size⟩]),
      { m with ranges := pieces, regions := m.regions + 1 }⟩
  | mapped : Adjacent m.regions 0 pieces size → overlaid ⊆ pieces →
    Stepped m ⟨true, .map m.regions size :: overlaid.map .overlay,
      ⟨pieces, addr, length, m.regions + 1⟩⟩

theorem parseBlockMap_valid {content : Text} {b : BlockMap} (hb : parseBlockMap content = some b) :
    0 < b.blksize ∧ b.reserved ≤ SIZE_MAX := by
  unfold parseBlockMap at hb
  split at hb
  · split at hb
    · cases hb
    · simp only [Option.bind_eq_bind, Option.bind_eq_some_iff] at hb
      obtain ⟨⟨size, blksize⟩, -, ⟨rangeCount, _⟩, -, hb⟩ := hb
      split at hb
      · cases hb
      · rename_i hvalid
        cases hb
        have hpos : 0 < blksize := by omega
        have hblocks := Nat.le_of_not_lt fun h => hvalid (.inr (.inr (.inl h)))
        exact ⟨hpos, (Nat.le_div_iff_mul_le hpos).mp hblocks⟩
  · cases hb

theorem stepped_mapFD : Stepped m (m.mapFD call) := by
  unfold Mapping.mapFD
  split
  · exact .refused
  · split
    · exact .refused
    · rename_i size _ h
      have hadjacent : Adjacent m.regions 0 [⟨m.regions, 0, size⟩] size := by
        have hnil : Adjacent m.regions (0 + size) [] size := (Nat.zero_add size).symm ▸ .nil
        exact .cons (by omega) hnil
      exact .mapped hadjacent (List.nil_subset _)

theorem stepped_mapBlockFile : Stepped m (m.mapBlockFile call) := by
  unfold Mapping.mapBlockFile
  split
  · exact .refused
  · rename_i b hb
    obtain ⟨content, -, hparse⟩ := Option.bind_eq_some_iff.mp hb
    obtain ⟨hblksize, -⟩ := parseBlockMap_valid hparse
    obtain ⟨stop, hadjacent, hle, hdone⟩ :=
      @mapRanges_adjacent call b.blksize m.regions 0 0 b.reserved b.ranges hblksize
    rw [Nat.zero_add] at hle hdone
    generalize mapRanges call b.blksize m.regions b.ranges 0 0 b.reserved = r at hadjacent hdone ⊢
    obtain ⟨success, pieces⟩ := r
    dsimp only
    split
    · exact .refused
    · split
      · exact .unopened
      · split
        · rename_i hsuccess
          exact .mapped (hdone hsuccess ▸ hadjacent) (List.Subset.refl _)
        · exact .failed hadjacent hle

theorem stepped_mapFile (m : Mapping) (call : Call) : Stepped m (m.mapFile call) := by
  unfold Mapping.mapFile
  split
  · exact .refused
  · exact stepped_mapBlockFile
  · split
    · exact .refused
    · exact stepped_mapFD

/-- A call with nothing mapped before it fails and leaves pieces behind exactly if it breaks off. -/
theorem breaksOff_iff (hm : m.ranges = []) :
    (m.mapFile call).result = false ∧ (m.mapFile call).mapping.ranges ≠ [] ↔ BreaksOff call := by
  have hrefuse : ¬(m.refuse.result = false ∧ m.refuse.mapping.ranges ≠ []) := fun h => h.2 hm
  unfold Mapping.mapFile BreaksOff
  split
  · rename_i hfn
    refine iff_of_false hrefuse ?_
    rintro ⟨b, hhead, -⟩
    rw [hfn] at hhead
    cases hhead
  · rename_i name hfn
    rw [hfn, List.head?_cons]
    unfold Mapping.mapBlockFile
    cases hb : call.content.bind parseBlockMap with
    | none => exact iff_of_false hrefuse (by simp)
    | some b =>
      obtain ⟨content, -, hparse⟩ := Option.bind_eq_some_iff.mp hb
      obtain ⟨hblksize, hle⟩ := parseBlockMap_valid hparse
      have hfirst : (mapRanges call b.blksize m.regions b.ranges 0 0 b.reserved).2 ≠ [] ↔
          FirstMapped call b :=
        mapRanges_snd_ne_nil hblksize hle
      have hall : (mapRanges call b.blksize m.regions b.ranges 0 0 b.reserved).1 = true ↔
          AllMapped call b := by
        rw [mapRanges_fst_iff hblksize hle, AllMapped]
        simp only [Nat.zero_add]
      simp only [true_and, Option.some.injEq, exists_eq_left']
      rw [← hfirst, ← hall]
      generalize mapRanges call b.blksize m.regions b.ranges 0 0 b.reserved = r
      obtain ⟨success, pieces⟩ := r
      dsimp only
      split
      · rename_i hreserve
        exact iff_of_false hrefuse (by simp [hreserve])
      · rename_i hreserve
        split
        · rename_i hopened
          exact iff_of_false (fun h => h.2 hm) (by simp [hopened])
        · rename_i hopened
          rw [Bool.not_eq_false] at hreserve hopened
          cases success <;> simp [hreserve, hopened]
  · rename_i hempty hblock
    refine iff_of_false ?_ ?_
    · split
      · exact hrefuse
      · unfold Mapping.mapFD
        split
        · exact hrefuse
        · split
          · exact hrefuse
          · exact fun h => by cases h.1
    · rintro ⟨b, hhead, -⟩
      obtain ⟨name, hfn⟩ := List.head?_eq_some_iff.mp hhead
      exact hblock name hfn

/-! ## Lifetimes -/

/-- Every later event that unmaps something is about a region from `n` on. -/
theorem unmap_mem_lifetime {n : Nat} {calls : List Call} {piece : Piece}
    (hranges : ∀ p ∈ m.ranges, n ≤ Piece.region p) (hregions : n ≤ m.regions)
    (h : .unmap piece ∈ m.lifetime calls) : n ≤ piece.region := by
  induction calls generalizing m with
  | nil =>
    obtain ⟨p, hp, heq⟩ := List.mem_map.mp h
    cases heq
    exact hranges piece hp
  | cons call calls ih =>
    rw [Mapping.lifetime] at h
    have hstep := stepped_mapFile m call
    generalize m.mapFile call = outcome at h hstep
    cases hstep with
    | refused => exact ih hranges hregions h
    | unopened =>
      simp only [List.cons_append, List.nil_append, List.mem_cons, reduceCtorEq,
        RegionEvent.unmap.injEq, false_or] at h
      rcases h with rfl | h
      · exact hregions
      · exact ih (m := { m with regions := m.regions + 1 }) hranges (Nat.le_succ_of_le hregions) h
    | failed hadjacent hle =>
      simp only [List.cons_append, List.append_assoc, List.mem_cons, List.mem_append, List.mem_map,
        List.nil_append, reduceCtorEq, RegionEvent.unmap.injEq, and_false, exists_false,
        false_or] at h
      rcases h with rfl | h
      · exact hregions
      · refine ih (fun p hp => ?_) (Nat.le_succ_of_le hregions) h
        rw [(hadjacent.of_mem hp).1]
        exact hregions
    | mapped hadjacent hsub =>
      simp only [List.cons_append, List.mem_cons, List.mem_append, List.mem_map, reduceCtorEq,
        and_false, exists_false, false_or] at h
      refine ih (fun p hp => ?_) (Nat.le_succ_of_le hregions) h
      rw [(hadjacent.of_mem hp).1]
      exact hregions

/-- What the object owns: its pieces are of regions mapped before, and they are what is mapped. -/
structure Owned (m : Mapping) (live : Set (Nat × Nat)) : Prop where
  lt : ∀ p ∈ m.ranges, Piece.region p < m.regions ∧ 0 < Piece.length p
  sub : ∀ p ∈ m.ranges, Piece.bytes p ⊆ live
  released : AllReleased m.destroy live

theorem Owned.of_nil (hm : m.ranges = []) : Owned m ∅ := by
  refine ⟨?_, ?_, ?_⟩
  · simp [hm]
  · simp [hm]
  · rw [Mapping.destroy, hm]
    rfl

theorem Owned.eq_empty {live : Set (Nat × Nat)} (h : Owned m live) (hm : m.ranges = []) :
    live = ∅ := by
  have hreleased := h.released
  rw [Mapping.destroy, hm] at hreleased
  exact hreleased

/-- A region stays mapped if `ranges_` is overwritten while it lists pieces of it. -/
theorem Owned.not_released {live : Set (Nat × Nat)} {events : List RegionEvent} {m' : Mapping}
    {calls : List Call}
    (h : Owned m live) (hm : m.ranges ≠ [])
    (hevents : ∀ piece, .unmap piece ∈ events → m.regions ≤ piece.region)
    (hranges : ∀ p ∈ m'.ranges, m.regions ≤ Piece.region p) (hregions : m.regions ≤ m'.regions) :
    ¬AllReleased (events ++ m'.lifetime calls) live := by
  intro hreleased
  obtain ⟨p, hp⟩ := List.exists_mem_of_ne_nil _ hm
  obtain ⟨hlt, hpos⟩ := h.lt p hp
  have hx : (p.region, p.offset) ∈ live := h.sub p hp ⟨rfl, Nat.le_refl _, by omega⟩
  obtain ⟨piece, hmem, hbyte⟩ := hreleased.unmap_mem hx
  have hle : m.regions ≤ piece.region := by
    rcases List.mem_append.mp hmem with hmem | hmem
    · exact hevents piece hmem
    · exact unmap_mem_lifetime hranges hregions hmem
  have hregion : p.region = piece.region := hbyte.1
  omega

/-- From any object that owns what is mapped: everything is released once and failures own nothing,
exactly if the calls are clean. -/
theorem released_iff {calls : List Call} {live : Set (Nat × Nat)} (h : Owned m live) :
    m.FailuresOwnNothing calls ∧ AllReleased (m.lifetime calls) live ↔ m.CleanCalls calls := by
  induction calls generalizing m live with
  | nil => exact iff_of_true ⟨trivial, h.released⟩ trivial
  | cons call calls ih =>
    have hstep := stepped_mapFile m call
    have hbreaks := @breaksOff_iff m call
    rw [Mapping.FailuresOwnNothing, Mapping.lifetime, Mapping.CleanCalls]
    generalize m.mapFile call = outcome at hstep hbreaks ⊢
    by_cases hm : m.ranges = []
    · have hlive := h.eq_empty hm
      subst hlive
      rw [← hbreaks hm]
      have hgiven :
          ∀ size, (∅ ∪ (Piece.mk m.regions 0 size).bytes) \ (Piece.mk m.regions 0 size).bytes =
          ∅ := by
        intro size
        rw [Set.empty_union, Set.sdiff_self]
      cases hstep with
      | refused =>
        have hrest := ih h
        simpa [hm] using hrest
      | unopened =>
        have hrest := ih (m := { m with regions := m.regions + 1 }) (.of_nil hm)
        simpa [hm, AllReleased, hgiven] using hrest
      | @failed pieces _ size hadjacent hle =>
        by_cases hpieces : pieces = []
        · subst hpieces
          have hrest := ih (m := { m with ranges := [], regions := m.regions + 1 }) (.of_nil rfl)
          simpa [hm, AllReleased, hgiven] using hrest
        · exact iff_of_false (fun h => hpieces (h.1.1 rfl)) fun h => h.2.1 ⟨rfl, hpieces⟩
      | @mapped pieces size overlaid addr length hadjacent hsub =>
        have howned :
            Owned ⟨pieces, addr, length, m.regions + 1⟩ (Piece.mk m.regions 0 size).bytes := by
          refine ⟨fun p hp => ?_, fun p hp => ?_, hadjacent.allReleased⟩
          · obtain ⟨hregion, hpos, -⟩ := hadjacent.of_mem hp
            exact ⟨by rw [hregion]; exact Nat.lt_succ_self _, hpos⟩
          · exact hadjacent.bytes_sub hp
        have hoverlay :
            ∀ {es}, AllReleased (overlaid.map .overlay ++ es) (Piece.mk m.regions 0 size).bytes ↔
            AllReleased es (Piece.mk m.regions 0 size).bytes :=
          allReleased_overlay_append fun p hp => hadjacent.bytes_sub (hsub hp)
        have hrest := ih howned
        simpa [hm, AllReleased, hoverlay] using hrest
    · refine iff_of_false ?_ fun hclean => hm hclean.1
      rintro ⟨⟨hfailed, -⟩, hreleased⟩
      cases hstep with
      | refused => exact hm (hfailed rfl)
      | unopened => exact hm (hfailed rfl)
      | failed hadjacent hle =>
        refine h.not_released hm ?_ (fun p hp => ?_) (Nat.le_succ _) hreleased
        · simp
        · exact Nat.le_of_eq (hadjacent.of_mem hp).1.symm
      | mapped hadjacent hsub =>
        refine h.not_released hm ?_ (fun p hp => ?_) (Nat.le_succ _) hreleased
        · simp
        · exact Nat.le_of_eq (hadjacent.of_mem hp).1.symm

/-- Failures leave nothing behind and every region is unmapped exactly once, in the lifetime of an
object with any calls, exactly if each call is made while `ranges_` is empty and none breaks off
behind its first range. -/
theorem lifetime_released_iff (calls : List Call) :
    Mapping.new.FailuresOwnNothing calls ∧ AllReleased (Mapping.new.lifetime calls) ∅ ↔
      Mapping.new.CleanCalls calls :=
  released_iff (.of_nil rfl)

end

/-- The second of two ranges is empty. -/
def brokenOff : Call :=
  ⟨"@/block.map".toList, some "/dev/block\n8192 4096\n2\n0 1\n5 5\n".toList, true, none, fun _ =>
    true⟩

/-- Its first range stays in `ranges_`, and the destructor unmaps it again. -/
theorem not_lifetime_released :
    ¬Mapping.new.FailuresOwnNothing [brokenOff] ∧
    ¬AllReleased (Mapping.new.lifetime [brokenOff]) ∅ := by
  have hcall : (Mapping.new.mapFile brokenOff).result = false ∧
      (Mapping.new.mapFile brokenOff).mapping.ranges = [⟨0, 0, 4096⟩] ∧
      (Mapping.new.mapFile brokenOff).events =
      [.map 0 8192, .overlay ⟨0, 0, 4096⟩, .unmap ⟨0, 0, 8192⟩] := by
    decide +kernel
  obtain ⟨hresult, hranges, hevents⟩ := hcall
  constructor
  · rintro ⟨howns, -⟩
    rw [howns hresult] at hranges
    cases hranges
  · simp only [Mapping.lifetime, Mapping.destroy, hevents, hranges]
    rintro ⟨-, -, hagain, -⟩
    exact (hagain (a := (0, 0)) ⟨rfl, Nat.le_refl _, by decide⟩).2 ⟨rfl, Nat.le_refl _, by decide⟩

end BootableRecovery.MapLifetime
