import BootableRecovery.LibBase.Strings
import BootableRecovery.OtaUtil.RangeSet
import BootableRecovery.Theory.BlockDevice

/-!
# Mapping the blocks of a map file

`MemMapping::MapBlockFile` of `otautil/SysUtil.cpp`.
-/

namespace BootableRecovery

/-- The conversion `%zu` of `sscanf`: the number, and the rest of the text. -/
def scanSize (s : Text) : Option (Nat × Text) :=
  let s := s.dropWhile isSpace
  let (negative, t) := match s with
    | '-' :: t => (true, t)
    | '+' :: t => (false, t)
    | t => (false, t)
  match digitsValue 10 (t.takeWhile Char.isDigit) with
  | none => none
  | some n =>
    let value := if n > SIZE_MAX then SIZE_MAX else if negative then (2 ^ 64 - n) % 2 ^ 64 else n
    some (value, t.dropWhile Char.isDigit)

/-- `sscanf` with `%zu %zu`. -/
def scanSizes (s : Text) : Option (Nat × Nat) := do
  let (a, rest) ← scanSize s
  let (b, _) ← scanSize rest
  return (a, b)

/-- The system: the page size, whether address space can be reserved, and the block devices. -/
structure Mmap where
  pageSize : Nat
  reserve : (size : Nat) → Bool
  openDevice : Text → Option BlockDevice

/-- What `MapBlockFile` leaves: the mapped bytes and the length. -/
structure MemMapping where
  bytes : List UInt8
  length : Nat

/-- The loop over the ranges. A range is mapped at offset `next` of the reserved space, where both
addresses have to be those of a page. -/
def mapRanges (mmap : Mmap) (dev : BlockDevice) (blksize : Nat) :
    List Text → (next remainingSize : Nat) → Option (List UInt8)
  | [], _, remainingSize => if remainingSize ≠ 0 then none else some []
  | line :: lines, next, remainingSize =>
    match scanSizes line with
    | none => none
    | some (start, stop) =>
      let rangeSize := (stop - start) * blksize
      if stop ≤ start ∨ stop - start > SIZE_MAX / blksize ∨ rangeSize > remainingSize then none
      else if next % mmap.pageSize ≠ 0 ∨ start * blksize % 2 ^ 64 % mmap.pageSize ≠ 0 then none
      else (mapRanges mmap dev blksize lines (next + rangeSize) (remainingSize - rangeSize)).map
        fun bytes =>
        dev.read (start * blksize % 2 ^ 64) rangeSize ++ bytes

/-- `MapBlockFile` for the content of a map file. -/
def mapBlockFile (mmap : Mmap) (content : Text) : Option MemMapping :=
  match (trim content).splitOn '\n' with
  | blockDev :: sizes :: count :: ranges => do
    if ranges = [] then none
    else
      let (size, blksize) ← scanSizes sizes
      let (rangeCount, _) ← scanSize count
      let blocks := (size + 2 ^ 64 - 1) % 2 ^ 64 / blksize + 1
      if size = 0 ∨ blksize = 0 ∨ blocks > SIZE_MAX / blksize ∨ rangeCount = 0 ∨
          ranges.length ≠ rangeCount then none
      else if !mmap.reserve (blocks * blksize) then none
      else
        let dev ← mmap.openDevice blockDev
        let bytes ← mapRanges mmap dev blksize ranges 0 (blocks * blksize)
        return ⟨bytes, size⟩
  | _ => none

/-! ## Numbers that were printed -/

theorem scanSize_toText {n : Nat} (h : n ≤ SIZE_MAX) {rest : Text}
    (hrest : ∀ c ∈ rest.head?, c.isDigit = false) :
    scanSize (toText n ++ rest) = some (n, rest) := by
  change scanSize (Nat.toDigits 10 n ++ rest) = _
  obtain ⟨c, t, hs⟩ := List.exists_cons_of_ne_nil (Nat.toDigits_ne_nil (b := 10) (n := n))
  have hall : ∀ c ∈ Nat.toDigits 10 n, c.isDigit = true := fun c hc => isDigit_toDigits hc
  have hc : c.isDigit = true := hall c (hs ▸ List.mem_cons_self)
  have hsign : ∀ d, d.isDigit = false → c ≠ d := fun d hd heq => by
    rw [heq, hd] at hc
    cases hc
  have hspace : (Nat.toDigits 10 n ++ rest).dropWhile isSpace = Nat.toDigits 10 n ++ rest := by
    rw [hs, List.cons_append, List.dropWhile_cons_of_neg (by simp [not_isSpace_of_isDigit hc])]
  have htake := takeWhile_append_stop hall hrest
  have hdrop := dropWhile_append_stop hall hrest
  rw [scanSize, hspace]
  split
  · rename_i negative t' heq
    have hpair : negative = false ∧ t' = Nat.toDigits 10 n ++ rest := by
      rw [hs, List.cons_append] at heq ⊢
      split at heq
      · rename_i hmatch
        exact absurd (List.cons.inj hmatch).1 (hsign '-' (by decide))
      · rename_i hmatch
        exact absurd (List.cons.inj hmatch).1 (hsign '+' (by decide))
      · cases heq
        exact ⟨rfl, rfl⟩
    rw [hpair.1, hpair.2, htake, hdrop, digitsValue_toDigits]
    simp [Nat.not_lt.mpr h]

theorem scanSizes_toText {a b : Nat} (ha : a ≤ SIZE_MAX) (hb : b ≤ SIZE_MAX) :
    scanSizes (toText a ++ ' ' :: toText b) = some (a, b) := by
  rw [scanSizes, scanSize_toText ha (by simp)]
  have hspace : scanSize (' ' :: toText b) = scanSize (toText b ++ []) := by
    rw [List.append_nil, scanSize, List.dropWhile_cons_of_pos (by decide), scanSize]
  have hb' := @scanSize_toText b hb [] (by simp)
  change (do let p ← scanSize (' ' :: toText b); some (a, p.1)) = _
  rw [hspace, hb']
  rfl

/-! ## Lines of a file -/

section
variable {c d : Char} {first last : Text} {lines : List Text} {rest : Text}

theorem flatMap_lines (c d : Char) (first last : Text) (lines : List Text) :
    ((c :: first) :: (lines ++ [last ++ [d]])).flatMap (· ++ ['\n']) =
      c :: (first ++ '\n' :: lines.flatMap (· ++ ['\n']) ++ last) ++ d :: ['\n'] := by
  simp [List.flatMap_append]

theorem splitOn_trim_lines (hc : isSpace c = false) (hd : isSpace d = false)
    (hlines : ∀ l ∈ (c :: first) :: (lines ++ [last ++ [d]]), '\n' ∉ l)
    (hrest : ∀ c ∈ rest, isSpace c = true) :
    (trim (((c :: first) :: (lines ++ [last ++ [d]])).flatMap (· ++ ['\n']) ++ rest)).splitOn '\n' =
      (c :: first) :: (lines ++ [last ++ [d]]) := by
  have hwhite : ∀ c ∈ '\n' :: rest, isSpace c = true := List.forall_mem_cons.mpr ⟨by decide, hrest⟩
  have htrim :=
    trim_append_of_isSpace (s := first ++ '\n' :: lines.flatMap (· ++ ['\n']) ++ last) hc hd hwhite
  have hdrop := dropLast_lines (List.cons_ne_nil _ _) hlines
  rw [flatMap_lines] at hdrop ⊢
  have htail : [d, '\n'] ++ rest = d :: '\n' :: rest := rfl
  rw [List.append_assoc, htail, htrim]
  rwa [List.dropLast_append_of_ne_nil (List.cons_ne_nil _ _)] at hdrop

/-- Lines and something else behind them: there is at least one more line. -/
theorem splitOn_trim_lines_append (hc : isSpace c = false)
    (hlines : ∀ l ∈ (c :: first) :: (lines ++ [last ++ [d]]), '\n' ∉ l)
    (hrest : ∃ c ∈ rest, isSpace c = false) : ∃ more, more ≠ [] ∧
      (trim (((c :: first) :: (lines ++ [last ++ [d]])).flatMap (· ++ ['\n']) ++ rest)).splitOn
      '\n' =
        (c :: first) :: (lines ++ [last ++ [d]]) ++ more := by
  refine ⟨(rest.rdropWhile isSpace).splitOn '\n', List.splitOn_ne_nil _ _, ?_⟩
  rw [← splitOn_lines_append hlines, flatMap_lines, List.cons_append, trim_cons_append hc hrest]

end

end BootableRecovery
