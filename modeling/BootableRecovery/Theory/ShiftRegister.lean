import Mathlib.Data.List.Range
import Mathlib.Logic.Function.Iterate

/-!
# Shift registers with feedback

A register of `w` bits that is shifted towards its lowest bit, with a feedback polynomial that is
added where a bit leaves it. The shift is linear, so that several of them at once are a shift and
one addition that depends on the bits that leave (`shift_iterate_split`): what a table can hold.
-/

namespace BootableRecovery.ShiftRegister

variable {w k n : Nat} (poly : BitVec w)

/-- One shift. -/
def shift (r : BitVec w) : BitVec w := if r.getLsbD 0 then (r >>> 1) ^^^ poly else r >>> 1

/-- A bit of the input is added to the lowest bit, and the register is shifted. -/
def feed (r : BitVec w) (b : Bool) : BitVec w := shift poly (r ^^^ (BitVec.ofBool b).setWidth w)

/-- The bits of a word, the lowest first. -/
def bits (x : BitVec k) : List Bool := (List.range k).map x.getLsbD

theorem shift_xor (r s : BitVec w) : shift poly (r ^^^ s) = shift poly r ^^^ shift poly s := by
  simp only [shift, BitVec.getLsbD_xor, BitVec.ushiftRight_xor_distrib]
  have hcancel (a b : BitVec w) : a ^^^ poly ^^^ (b ^^^ poly) = a ^^^ b := by
    rw [BitVec.xor_assoc, BitVec.xor_comm b poly, ← BitVec.xor_assoc poly poly b, BitVec.xor_self,
      BitVec.zero_xor]
  cases r.getLsbD 0 <;> cases s.getLsbD 0
  · rfl
  · exact BitVec.xor_assoc ..
  · show (r >>> 1 ^^^ s >>> 1) ^^^ poly = (r >>> 1 ^^^ poly) ^^^ s >>> 1
    rw [BitVec.xor_assoc, BitVec.xor_comm (s >>> 1), BitVec.xor_assoc]
  · exact (hcancel ..).symm

theorem shift_iterate_xor (n : Nat) (r s : BitVec w) :
    (shift poly)^[n] (r ^^^ s) = (shift poly)^[n] r ^^^ (shift poly)^[n] s := by
  induction n generalizing r s with
  | zero => rfl
  | succ n ih =>
    rw [Function.iterate_succ_apply, Function.iterate_succ_apply, Function.iterate_succ_apply,
      shift_xor, ih]

theorem shift_iterate_of_clear {r : BitVec w} (h : ∀ i < n, r.getLsbD i = false) :
    (shift poly)^[n] r = r >>> n := by
  induction n with
  | zero => rw [Function.iterate_zero_apply, BitVec.ushiftRight_zero]
  | succ n ih =>
    have hlow : (r >>> n).getLsbD 0 = false := by
      rw [BitVec.getLsbD_ushiftRight]
      exact h n (Nat.lt_succ_self n)
    rw [Function.iterate_succ_apply', ih fun i hi => h i (Nat.lt_succ_of_lt hi), shift, hlow,
      BitVec.shiftRight_add]
    rfl

/-- The low `k` bits of a register. -/
def low (k : Nat) (r : BitVec w) : BitVec w := (r.setWidth k).setWidth w

theorem getLsbD_low (r : BitVec w) (i : Nat) :
    (low k r).getLsbD i = (decide (i < k) && r.getLsbD i) := by
  rw [low, BitVec.getLsbD_setWidth, BitVec.getLsbD_setWidth]
  by_cases hi : i < w
  · simp [hi]
  · simp [hi, BitVec.getLsbD_of_ge r i (Nat.le_of_not_lt hi)]

/-- `k` shifts move the register down, and add what `k` shifts make of the low bits. -/
theorem shift_iterate_split (k : Nat) (r : BitVec w) :
    (shift poly)^[k] r = (r >>> k) ^^^ (shift poly)^[k] (low k r) := by
  have hsplit : r = (r ^^^ low k r) ^^^ low k r := by
    rw [BitVec.xor_assoc, BitVec.xor_self, BitVec.xor_zero]
  have hclear : ∀ i < k, (r ^^^ low k r).getLsbD i = false := by
    intro i hi
    rw [BitVec.getLsbD_xor, getLsbD_low, decide_eq_true hi, Bool.true_and, Bool.xor_self]
  have hdown : (r ^^^ low k r) >>> k = r >>> k := by
    apply BitVec.eq_of_getLsbD_eq
    intro i _
    rw [BitVec.getLsbD_ushiftRight, BitVec.getLsbD_ushiftRight, BitVec.getLsbD_xor, getLsbD_low,
      decide_eq_false (by omega), Bool.false_and, Bool.xor_false]
  calc (shift poly)^[k] r
      = (shift poly)^[k] ((r ^^^ low k r) ^^^ low k r) := by rw [← hsplit]
    _ = (shift poly)^[k] (r ^^^ low k r) ^^^ (shift poly)^[k] (low k r) := shift_iterate_xor ..
    _ = (r >>> k) ^^^ (shift poly)^[k] (low k r) := by
      rw [shift_iterate_of_clear poly hclear, hdown]

theorem low_succ (X : BitVec w) (h : n < w) :
    low (n + 1) X = low n X ^^^ (BitVec.ofBool (X.getLsbD n)).setWidth w <<< n := by
  apply BitVec.eq_of_getLsbD_eq
  intro i hi
  rw [BitVec.getLsbD_xor, getLsbD_low, getLsbD_low, BitVec.getLsbD_shiftLeft,
    BitVec.getLsbD_setWidth]
  rcases Nat.lt_trichotomy i n with hlt | rfl | hgt
  · simp [hlt, Nat.lt_succ_of_lt hlt]
  · simp [hi, Nat.zero_lt_of_lt hi]
  · have hne : i - n ≠ 0 := by omega
    simp [Nat.not_lt_of_gt hgt, hne, show ¬i < n + 1 by omega]

/-- A bit at the bottom of the register is what `n` shifts make of it at place `n`. -/
theorem shift_iterate_shiftLeft (b : Bool) (h : n < w) :
    (shift poly)^[n] ((BitVec.ofBool b).setWidth w <<< n) = (BitVec.ofBool b).setWidth w := by
  rw [shift_iterate_of_clear poly fun i hi => by simp [BitVec.getLsbD_shiftLeft, hi]]
  apply BitVec.eq_of_getLsbD_eq
  intro i hi
  rw [BitVec.getLsbD_ushiftRight, BitVec.getLsbD_shiftLeft]
  rcases Nat.eq_zero_or_pos i with rfl | hpos
  · simp [h]
  · have hne : i ≠ 0 := Nat.ne_of_gt hpos
    simp [BitVec.getLsbD_setWidth, hne]

theorem foldl_feed_range (r : BitVec w) (x : BitVec k) (hn : n ≤ k) (hk : k ≤ w) :
    ((List.range n).map x.getLsbD).foldl (feed poly) r =
    (shift poly)^[n] (r ^^^ low n (x.setWidth w)) := by
  induction n with
  | zero =>
    have hzero : low 0 (x.setWidth w) = 0#w := by
      apply BitVec.eq_of_getLsbD_eq
      intro i _
      rw [getLsbD_low, decide_eq_false (Nat.not_lt_zero i), Bool.false_and, BitVec.getLsbD_zero]
    rw [hzero, BitVec.xor_zero]
    rfl
  | succ n ih =>
    have hlt : n < w := by omega
    have hbit : (x.setWidth w).getLsbD n = x.getLsbD n := by simp [hlt]
    rw [List.range_succ, List.map_append, List.foldl_append, ih (by omega), low_succ _ hlt, hbit,
      Function.iterate_succ_apply', ← BitVec.xor_assoc, shift_iterate_xor poly n (r ^^^ _),
      shift_iterate_shiftLeft poly _ hlt]
    rfl

/-- Feeding the bits of a word one by one: the word is added as a whole, and the register shifted as
often as it has bits. -/
theorem foldl_feed_bits (r : BitVec w) (x : BitVec k) (hk : k ≤ w) :
    (bits x).foldl (feed poly) r = (shift poly)^[k] (r ^^^ x.setWidth w) := by
  have hlow : low k (x.setWidth w) = x.setWidth w := by
    rw [low, BitVec.setWidth_setWidth_of_le x hk, BitVec.setWidth_eq]
  rw [bits, foldl_feed_range poly r x (Nat.le_refl k) hk, hlow]

/-- The same with a table: the register moves down by the length of the word, and what is added
depends on the low bits of the sum only. -/
theorem foldl_feed_bits_eq_table (r : BitVec w) (x : BitVec k) (hk : k ≤ w) :
    (bits x).foldl (feed poly) r = (r >>> k) ^^^ (shift poly)^[k] (low k (r ^^^ x.setWidth w)) := by
  have hdown : x.setWidth w >>> k = 0#w := by
    apply BitVec.eq_of_getLsbD_eq
    intro i _
    rw [BitVec.getLsbD_ushiftRight, BitVec.getLsbD_setWidth,
      BitVec.getLsbD_of_ge x _ (Nat.le_add_right k i), Bool.and_false, BitVec.getLsbD_zero]
  rw [foldl_feed_bits poly r x hk, shift_iterate_split, BitVec.ushiftRight_xor_distrib, hdown,
    BitVec.xor_zero]

end BootableRecovery.ShiftRegister
