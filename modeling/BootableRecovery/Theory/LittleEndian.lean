import Mathlib.Data.Nat.Digits.Defs

/-!
# Little-endian numbers

The bytes of a number, the lowest first, and the number that some bytes stand for, unsigned and in
two's complement.
-/

namespace BootableRecovery

theorem ofDigits_range (b n k : Nat) :
    Nat.ofDigits b ((List.range k).map fun i => n / b ^ i % b) = n % b ^ k := by
  induction k with
  | zero => simp [Nat.mod_one]
  | succ k ih =>
    rw [List.range_succ, List.map_append, Nat.ofDigits_append, ih, Nat.mod_pow_succ]
    simp

/-- The `k` low bytes of a number. -/
def leBytes (k n : Nat) : List UInt8 := (List.range k).map fun i => UInt8.ofNat (n / 256 ^ i % 256)

/-- The number that some bytes stand for. -/
def leNat (l : List UInt8) : Nat := Nat.ofDigits 256 (l.map UInt8.toNat)

/-- The number that four bytes stand for in two's complement. -/
def leInt32 (l : List UInt8) : Int := (leNat l : Int).bmod (2 ^ 32)

/-- The four bytes of an `int32_t`. -/
def int32Bytes (n : Int) : List UInt8 := leBytes 4 (n % 2 ^ 32).toNat

@[simp] theorem length_leBytes (k n : Nat) : (leBytes k n).length = k := by simp [leBytes]

@[simp] theorem length_int32Bytes (n : Int) : (int32Bytes n).length = 4 := by simp [int32Bytes]

theorem leNat_leBytes (k n : Nat) : leNat (leBytes k n) = n % 256 ^ k := by
  have hmap : (leBytes k n).map UInt8.toNat = (List.range k).map fun i => n / 256 ^ i % 256 := by
    simp only [leBytes, List.map_map]
    refine List.map_congr_left fun i _ => ?_
    simp
  rw [leNat, hmap, ofDigits_range]

theorem leNat_leBytes_of_lt {k n : Nat} (h : n < 256 ^ k) : leNat (leBytes k n) = n := by
  rw [leNat_leBytes, Nat.mod_eq_of_lt h]

theorem leNat_lt (l : List UInt8) : leNat l < 256 ^ l.length := by
  rw [leNat, ← List.length_map UInt8.toNat]
  apply Nat.ofDigits_lt_base_pow_length (by decide)
  intro d hd
  obtain ⟨b, -, rfl⟩ := List.mem_map.mp hd
  exact b.toNat_lt

theorem leInt32_int32Bytes {n : Int} (h₁ : -2 ^ 31 ≤ n) (h₂ : n < 2 ^ 31) :
    leInt32 (int32Bytes n) = n := by
  have hpos : 0 ≤ n % 2 ^ 32 := by omega
  have hlt : (n % 2 ^ 32).toNat < 256 ^ 4 := by omega
  have hmod : (n % 2 ^ 32).bmod (2 ^ 32) = n.bmod (2 ^ 32) := by
    have hcast : ((2 ^ 32 : Nat) : Int) = 2 ^ 32 := by norm_num
    rw [← hcast, Int.emod_bmod]
  have hself : n.bmod (2 ^ 32) = n := Int.bmod_eq_of_le (by omega) (by omega)
  unfold leInt32 int32Bytes
  rw [leNat_leBytes_of_lt hlt, Int.toNat_of_nonneg hpos, hmod, hself]

end BootableRecovery
