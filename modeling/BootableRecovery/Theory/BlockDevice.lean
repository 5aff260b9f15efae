import Mathlib.Data.List.GetD

/-!
# Block devices

The bytes of a device by their addresses, with reading and writing at an offset. A region of a
device that was written piece by piece is read back as the concatenation of the pieces (`read_add`,
`read_write_self`, `read_write_of_disjoint`).
-/

namespace BootableRecovery

/-- The bytes of a block device. -/
abbrev BlockDevice := Nat → UInt8

namespace BlockDevice

/-- The bytes at an offset. -/
def read (dev : BlockDevice) (offset len : Nat) : List UInt8 :=
  (List.range len).map fun i => dev (offset + i)

/-- The device after some bytes were written at an offset. -/
def write (dev : BlockDevice) (offset : Nat) (bytes : List UInt8) : BlockDevice :=
  fun i => if offset ≤ i ∧ i < offset + bytes.length then bytes.getD (i - offset) 0 else dev i

variable {dev : BlockDevice}

@[simp] theorem length_read : (dev.read offset len).length = len := by simp [read]

@[simp] theorem read_zero : dev.read offset 0 = [] := rfl

theorem read_add (dev : BlockDevice) (offset m n : Nat) :
    dev.read offset (m + n) = dev.read offset m ++ dev.read (offset + m) n := by
  simp [read, List.range_add, Nat.add_assoc, Function.comp_def]

theorem mem_read : b ∈ dev.read offset len ↔ ∃ i, offset ≤ i ∧ i < offset + len ∧ dev i = b := by
  simp only [read, List.mem_map, List.mem_range]
  constructor
  · rintro ⟨i, hi, rfl⟩
    exact ⟨offset + i, by omega, by omega, rfl⟩
  · rintro ⟨i, h₁, h₂, rfl⟩
    exact ⟨i - offset, by omega, by rw [Nat.add_sub_cancel' h₁]⟩

theorem read_congr {dev dev' : BlockDevice}
    (h : ∀ i, offset ≤ i → i < offset + len → dev i = dev' i) :
    dev.read offset len = dev'.read offset len := by
  apply List.map_congr_left
  intro i hi
  rw [List.mem_range] at hi
  exact h _ (by omega) (by omega)

theorem write_of_lt (h : i < offset) : dev.write offset bytes i = dev i :=
  if_neg fun hi => absurd hi.1 (Nat.not_le.mpr h)

theorem write_of_le (h : offset + bytes.length ≤ i) : dev.write offset bytes i = dev i :=
  if_neg fun hi => absurd hi.2 (Nat.not_lt.mpr h)

@[simp] theorem write_nil (dev : BlockDevice) (offset : Nat) : dev.write offset [] = dev := by
  funext i
  rcases Nat.lt_or_ge i offset with h | h
  · exact write_of_lt h
  · exact write_of_le h

theorem write_append (dev : BlockDevice) (offset : Nat) (a b : List UInt8) :
    dev.write offset (a ++ b) = (dev.write offset a).write (offset + a.length) b := by
  funext i
  rcases Nat.lt_or_ge i (offset + a.length) with h | h
  · rw [write_of_lt h]
    rcases Nat.lt_or_ge i offset with h' | h'
    · rw [write_of_lt h', write_of_lt h']
    · rw [write, if_pos ⟨h', by rw [List.length_append]; omega⟩, write, if_pos ⟨h', h⟩,
        List.getD_append _ _ _ _ (by omega)]
  · rcases Nat.lt_or_ge i (offset + a.length + b.length) with h' | h'
    · rw [write, if_pos ⟨by omega, by rw [List.length_append]; omega⟩, write, if_pos ⟨h, h'⟩,
        List.getD_append_right _ _ _ _ (by omega), Nat.sub_sub]
    · rw [write_of_le (by rw [List.length_append]; omega), write_of_le h', write_of_le h]

theorem read_write_self (h : bytes.length = len) :
    (dev.write offset bytes).read offset len = bytes := by
  subst h
  apply List.ext_getElem (by simp)
  intro i _ hi
  simp [read, write, hi]

theorem read_write_of_disjoint (h : start + len ≤ offset ∨ offset + bytes.length ≤ start) :
    (dev.write offset bytes).read start len = dev.read start len := by
  apply read_congr
  intro i h₁ h₂
  rcases h with h | h
  · exact write_of_lt (by omega)
  · exact write_of_le (by omega)

end BlockDevice

end BootableRecovery
