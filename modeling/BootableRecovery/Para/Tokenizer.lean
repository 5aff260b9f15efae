import BootableRecovery.Para.EnvBlock
import Mathlib.Data.Vector.Basic

/-!
# The tokenizer of `ReadFromStream`

The loop of `ReadFromStream` with the positions and lengths it computes, as `std::string` has them:
what is not found is at `npos`, and a difference of positions wraps around. On the positions the
loop ends for every block; its pieces lie inside of the block exactly if the block ends with a NUL.
-/

namespace BootableRecovery.Para

/-! ## Searching -/

/-- `std::string::npos`. -/
def npos : Nat := 2 ^ 64 - 1

/-- The first position from `pos` on whose character has a property. -/
def findFrom (p : UInt8 → Bool) (s : List UInt8) (pos : Nat) : Nat :=
  if pos + (s.drop pos).findIdx p < s.length then pos + (s.drop pos).findIdx p else npos

/-- `std::string::find_first_not_of`. -/
def findFirstNotOf (s : List UInt8) (c : UInt8) (pos : Nat) : Nat :=
  findFrom (fun b => !decide (b = c)) s pos

/-- `std::string::find`. -/
def find (s : List UInt8) (c : UInt8) (pos : Nat) : Nat := findFrom (fun b => !decide (b ≠ c)) s pos

theorem findFrom_eq_npos_iff {s : List UInt8} (hlen : s.length ≤ npos) (p : UInt8 → Bool) :
    findFrom (fun b => !p b) s pos = npos ↔ (s.drop pos).dropWhile p = [] := by
  rw [findFrom, List.dropWhile_eq_drop_findIdx_not, List.drop_eq_nil_iff, List.length_drop]
  split <;> omega

theorem findFrom_of_ne_npos {s : List UInt8} {p : UInt8 → Bool}
    (h : findFrom (fun b => !p b) s pos ≠ npos) :
    pos ≤ findFrom (fun b => !p b) s pos ∧ findFrom (fun b => !p b) s pos < s.length ∧
      s.drop (findFrom (fun b => !p b) s pos) = (s.drop pos).dropWhile p := by
  rw [findFrom] at h ⊢
  split at h
  · rename_i hlt
    rw [if_pos hlt, List.dropWhile_eq_drop_findIdx_not, List.drop_drop]
    exact ⟨by omega, hlt, rfl⟩
  · exact absurd rfl h

/-! ## The loop -/

/-- A part of a string: where it starts, and the length with which it is taken. -/
structure Span where
  start : Nat
  len : Nat

def Span.Inside (s : Span) (block : List UInt8) : Prop := s.start + s.len ≤ block.length

instance : Decidable (Span.Inside s block) := inferInstanceAs (Decidable (_ ≤ _))

def Span.bytes (s : Span) (block : List UInt8) : List UInt8 := (block.drop s.start).take s.len

/-- One turn of the loop of `ReadFromStream` from the position `end`: the `variable_block` and the
next `end`, or nothing if the loop ends. The length is a difference in `size_t`. -/
def turn (block : List UInt8) (pos : Nat) : Option (Span × Nat) :=
  let start := findFirstNotOf block ParaEnvNullChar pos
  if start = npos then none
  else
    let pos := find block ParaEnvNullChar start
    some (⟨start, (pos + 2 ^ 64 - start) % 2 ^ 64⟩, pos)

/-- The loop, with each `variable_block` that it builds; no result if it does not end. For a length
in the upper half of the address range the constructor of `std::string` throws. -/
def tokenizer (block : List UInt8) : (fuel : Nat) → (pos : Nat) → Option (List Span)
  | 0, _ => none
  | fuel + 1, pos =>
    match turn block pos with
    | none => some []
    | some (s, pos) => if 2 ^ 63 ≤ s.len then some [s] else (tokenizer block fuel pos).map (s :: ·)

/-- The substrings that are built for a `variable_block`: itself, and its name and value if it has a
`=`. -/
def Span.substrings (block : List UInt8) (s : Span) : List Span :=
  let mid := find (s.bytes block) equalsSign 0
  if mid = npos then [s] else [s, ⟨s.start, mid⟩, ⟨s.start + (mid + 1), s.len - (mid + 1)⟩]

/-! ## One turn -/

theorem dropWhile_ne_null_eq_nil_iff {l : List UInt8} :
    l.dropWhile (· ≠ ParaEnvNullChar) = [] ↔ ParaEnvNullChar ∉ l := by
  rw [List.dropWhile_eq_nil_iff]
  refine ⟨fun h hmem => by simpa using h _ hmem, fun h b hb => ?_⟩
  simpa using fun heq : b = ParaEnvNullChar => h (heq ▸ hb)

/-- The three ways of a turn: only NULs follow, no NUL follows the piece, or the piece ends before a
NUL. -/
inductive Turned (block : List UInt8) (pos : Nat) (rest : List UInt8) : Option (Span × Nat) → Prop
  | done : rest = [] → Turned block pos rest none
  | open (s : Span) : rest ≠ [] → ParaEnvNullChar ∉ rest → 2 ^ 63 ≤ s.len →
    Turned block pos rest (some (s, npos))
  | closed (s : Span) : rest ≠ [] → ParaEnvNullChar ∈ rest → pos < s.start + s.len →
      s.start + s.len < block.length → s.bytes block = rest.takeWhile (· ≠ ParaEnvNullChar) →
      block.drop (s.start + s.len) = rest.dropWhile (· ≠ ParaEnvNullChar) →
      Turned block pos rest (some (s, s.start + s.len))

theorem takeWhile_ne_null_ne_nil {l : List UInt8} (hne : l.dropWhile (· = ParaEnvNullChar) ≠ []) :
    (l.dropWhile (· = ParaEnvNullChar)).takeWhile (· ≠ ParaEnvNullChar) ≠ [] := by
  have hhead := List.head_dropWhile_not (· = ParaEnvNullChar) hne
  rw [← List.cons_head_tail hne, List.takeWhile_cons_of_pos (by simpa using hhead)]
  exact List.cons_ne_nil _ _

theorem turned {block : List UInt8} (hlen : block.length < 2 ^ 63) (pos : Nat) :
    Turned block pos ((block.drop pos).dropWhile (· = ParaEnvNullChar)) (turn block pos) := by
  have hnpos : npos = 2 ^ 64 - 1 := rfl
  have hle : block.length ≤ npos := by omega
  rcases Decidable.em (findFirstNotOf block ParaEnvNullChar pos = npos) with hstart | hstart
  · rw [turn, if_pos hstart]
    exact .done ((findFrom_eq_npos_iff hle _).mp hstart)
  have hne := mt (findFrom_eq_npos_iff hle _).mpr hstart
  obtain ⟨hpos, hlt, hdrop⟩ := findFrom_of_ne_npos hstart
  have hpiece := takeWhile_ne_null_ne_nil hne
  rw [turn, if_neg hstart, findFirstNotOf]
  rw [← hdrop] at hne hpiece ⊢
  generalize findFrom _ block pos = start at hne hpiece hpos hlt ⊢
  dsimp only
  rcases Decidable.em (find block ParaEnvNullChar start = npos) with hend | hend
  · have hnull := dropWhile_ne_null_eq_nil_iff.mp ((findFrom_eq_npos_iff hle _).mp hend)
    rw [hend]
    refine .open _ hne hnull ?_
    show 2 ^ 63 ≤ (npos + 2 ^ 64 - start) % 2 ^ 64
    omega
  · have hnull :=
      mt (fun h => (findFrom_eq_npos_iff hle _).mpr (dropWhile_ne_null_eq_nil_iff.mpr h)) hend
    obtain ⟨hle', hlt', hdrop'⟩ := findFrom_of_ne_npos hend
    rw [find]
    generalize findFrom _ block start = e at hle' hlt' hdrop' ⊢
    have hsub : (e + 2 ^ 64 - start) % 2 ^ 64 = e - start := by omega
    have hsplit : block.drop e = (block.drop start).drop (e - start) := by
      rw [List.drop_drop, Nat.add_sub_cancel' hle']
    have hbytes :
        (block.drop start).take (e - start) =
        (block.drop start).takeWhile (· ≠ ParaEnvNullChar) := by
      refine @List.append_cancel_right _ _ (block.drop e) _ ?_
      conv_lhs => rw [hsplit, List.take_append_drop]
      rw [hdrop', List.takeWhile_append_dropWhile]
    have hend' : start + (e - start) = e := Nat.add_sub_cancel' hle'
    have hlen' : start < e := by
      refine Nat.lt_of_le_of_ne hle' fun heq => hpiece ?_
      rw [← hbytes, heq, Nat.sub_self, List.take_zero]
    rw [hsub]
    have := @Turned.closed block pos _ ⟨start, e - start⟩ hne (Decidable.not_not.mp hnull)
      (show pos < start + (e - start) by omega) (show start + (e - start) < block.length by
        omega) hbytes
      (by rw [hend']; exact hdrop')
    rwa [hend'] at this

/-! ## All turns -/

theorem endsWithNull_dropWhile_iff {l : List UInt8} {p : UInt8 → Bool} (hne : l.dropWhile p ≠ []) :
    EndsWithNull (l.dropWhile p) ↔ EndsWithNull l := by
  have hlast : l.getLast? = (l.dropWhile p).getLast? := by
    conv_lhs =>
      rw [← List.takeWhile_append_dropWhile (p := p) (l := l), List.getLast?_append_of_ne_nil _ hne]
  rw [EndsWithNull, EndsWithNull, hlast]

theorem endsWithNull_of_dropWhile_eq_nil {l : List UInt8}
    (h : l.dropWhile (· = ParaEnvNullChar) = []) : EndsWithNull l := by
  intro b hb
  simpa using List.dropWhile_eq_nil_iff.mp h b (List.mem_of_getLast? hb)

theorem not_endsWithNull_of_not_mem {l : List UInt8} (hne : l ≠ []) (h : ParaEnvNullChar ∉ l) :
    ¬EndsWithNull l := by
  intro hend
  rw [← hend _ (List.getLast?_eq_some_getLast hne)] at h
  exact h (List.getLast_mem hne)

section
variable {block : List UInt8} (hlen : block.length < 2 ^ 63)
include hlen

theorem not_inside_of_le_len {s : Span} (h : 2 ^ 63 ≤ s.len) : ¬s.Inside block := by
  rw [Span.Inside]
  omega

/-- The loop ends, and its pieces lie inside of the block exactly if what it had to read ends with a
NUL. -/
theorem exists_tokenizer (hfuel : block.length - pos < fuel) :
    ∃ spans, tokenizer block fuel pos = some spans ∧
      ((∀ s ∈ spans, s.Inside block) ↔ EndsWithNull (block.drop pos)) := by
  induction fuel generalizing pos with
  | zero => exact absurd hfuel (Nat.not_lt_zero _)
  | succ fuel ih =>
    have hturned := turned hlen pos
    rw [tokenizer]
    generalize turn block pos = r at hturned ⊢
    cases hturned with
    | done hrest => exact ⟨[], rfl, iff_of_true (by simp) (endsWithNull_of_dropWhile_eq_nil hrest)⟩
    | «open» s hne hnull hs =>
      refine ⟨[s], if_pos hs,
        iff_of_false (fun h => not_inside_of_le_len hlen hs (h s (by simp))) ?_⟩
      rw [← endsWithNull_dropWhile_iff hne]
      exact not_endsWithNull_of_not_mem hne hnull
    | closed s hne hnull hpos hlt hbytes hdrop =>
      obtain ⟨spans, hspans, hiff⟩ := @ih (s.start + s.len) (by omega)
      have hinside : s.Inside block := Nat.le_of_lt hlt
      have hrest := mt dropWhile_ne_null_eq_nil_iff.mp (not_not_intro hnull)
      refine ⟨s :: spans, ?_, ?_⟩
      · dsimp only
        rw [if_neg (by omega), hspans]
        rfl
      · rw [List.forall_mem_cons, and_iff_right hinside, hiff, hdrop,
          endsWithNull_dropWhile_iff hrest, endsWithNull_dropWhile_iff hne]

/-- The loop of `ReadFromStream` on the positions and on what is left of the block. -/
theorem readVariables_eq_tokenizer (h : tokenizer block fuel pos = some spans) (vars : Variables) :
    readVariables fuel (block.drop pos) vars =
      if ∀ s ∈ spans, s.Inside block then
        some (((spans.map (Span.bytes · block)).filterMap variableOf).foldl insertVariable vars)
      else none := by
  induction fuel generalizing pos spans vars with
  | zero => cases h
  | succ fuel ih =>
    have hturned := turned hlen pos
    rw [tokenizer] at h
    rw [readVariables]
    dsimp only
    generalize (block.drop pos).dropWhile (· = ParaEnvNullChar) = rest at hturned ⊢
    generalize turn block pos = r at hturned h
    cases hturned with
    | done hrest =>
      cases h
      rw [if_pos hrest, if_pos (by simp)]
      rfl
    | «open» s hne hnull hs =>
      dsimp only at h
      rw [if_pos hs] at h
      cases h
      have hout : ¬∀ t ∈ [s], t.Inside block :=
        fun h => not_inside_of_le_len hlen hs (h s (by simp))
      rw [if_neg hne, if_pos hnull, if_neg hout]
    | closed s hne hnull hpos hlt hbytes hdrop =>
      dsimp only at h
      rw [if_neg (by omega), Option.map_eq_some_iff] at h
      obtain ⟨spans, hspans, rfl⟩ := h
      have hinside : s.Inside block := Nat.le_of_lt hlt
      rw [if_neg hne, if_neg (not_not_intro hnull), ← hdrop, ih hspans]
      simp only [List.forall_mem_cons, hinside, true_and, List.map_cons, List.filterMap_cons,
        hbytes]
      cases variableOf (rest.takeWhile (· ≠ ParaEnvNullChar)) with
      | none => rfl
      | some x => rfl

end

/-! ## The block -/

/-- The bytes of a block. -/
abbrev EnvBlock := List.Vector UInt8 ParaEnvBlockSize

/-- The first signature of a block. -/
def Signed (block : List UInt8) : Prop :=
  (block.drop ParaEnvBlockSig1Pos).take signature.length = signature

theorem Span.Inside.substrings {s : Span} (h : s.Inside block) :
    ∀ t ∈ s.substrings block, t.Inside block := by
  have hbytes : (s.bytes block).length ≤ s.len := by
    rw [Span.bytes, List.length_take]
    exact Nat.min_le_left _ _
  rw [Span.substrings]
  split
  · simpa using h
  · rename_i hmid
    obtain ⟨-, hlt, -⟩ := findFrom_of_ne_npos hmid
    rw [← find] at hlt
    rw [Span.Inside] at h
    simp only [List.mem_cons, List.not_mem_nil, or_false]
    rintro t (rfl | rfl | rfl)
    · exact h
    · show s.start + find _ _ _ ≤ _
      omega
    · show s.start + (find _ _ _ + 1) + (s.len - (find _ _ _ + 1)) ≤ _
      omega

theorem Span.mem_substrings (s : Span) (block : List UInt8) : s ∈ s.substrings block := by
  rw [Span.substrings]
  split <;> exact List.mem_cons_self

/-- If `ReadFromStream` comes to the loop, it ends within as many turns as the block has bytes, and
every substring that it builds lies inside of the block. -/
def TokenizerTotal (block : List UInt8) : Prop :=
  Signed block → ∃ spans, tokenizer block block.length signature.length = some spans ∧
    ∀ s ∈ spans, ∀ t ∈ s.substrings block, t.Inside block

theorem endsWithNull_block (block : EnvBlock) :
    EndsWithNull (block.toList.drop signature.length) ↔
    block.toList.getLast? = some ParaEnvNullChar := by
  have hlen : block.toList.length = 0x4000 := block.toList_length
  have hne : block.toList ≠ [] := by
    rw [← List.length_pos_iff, hlen]
    decide
  have hlast : (block.toList.drop signature.length).getLast? = block.toList.getLast? := by
    rw [List.getLast?_drop, if_neg]
    rw [hlen]
    decide
  rw [EndsWithNull, hlast, List.getLast?_eq_some_getLast hne]
  simp

/-- The loop does so for every block but those that start with the signature and do not end with a
NUL. -/
theorem tokenizerTotal_iff (block : EnvBlock) :
    TokenizerTotal block.toList ↔
    (Signed block.toList → block.toList.getLast? = some ParaEnvNullChar) := by
  have hlen : block.toList.length = 0x4000 := block.toList_length
  obtain ⟨spans, hspans, hiff⟩ := @exists_tokenizer block.toList (by omega) signature.length
    block.toList.length (by rw [hlen]; decide)
  rw [← endsWithNull_block, ← hiff]
  refine forall_congr' fun _ => ⟨?_, fun h => ⟨spans, hspans, fun s hs => (h s hs).substrings⟩⟩
  rintro ⟨_, hspans', h⟩ s hs
  cases hspans.symm.trans hspans'
  exact h s hs s (s.mem_substrings _)

/-- NULs up to the last byte. -/
def unterminated : EnvBlock :=
  ⟨signature ++ List.replicate 0x3ff9 ParaEnvNullChar ++ [1], by
    rw [List.length_append, List.length_append, List.length_replicate]
    rfl⟩

theorem not_tokenizerTotal : ¬∀ block : EnvBlock, TokenizerTotal block.toList := by
  intro h
  have hsigned : Signed unterminated.toList := by
    rw [Signed, ParaEnvBlockSig1Pos, List.drop_zero, unterminated, List.Vector.toList_mk,
      List.append_assoc, List.take_left]
  have hlast := (tokenizerTotal_iff _).mp (h unterminated) hsigned
  rw [unterminated, List.Vector.toList_mk, List.getLast?_concat] at hlast
  exact absurd hlast (by decide)

end BootableRecovery.Para
