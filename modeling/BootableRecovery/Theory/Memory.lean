import Mathlib.Data.List.Basic

/-!
# Bounded memory

A pointer-level view of a byte buffer. `Memory` gives the byte at an address, or `none` at an
address that does not belong to the buffer, so that a program which reads through it in the
`Option` monad ends in `none` exactly when it reads outside. `Holds mem p l` says that the bytes `l`
stand at `p`; it is what relates a program over addresses to a function on byte strings.
-/

namespace BootableRecovery

/-- The byte at each address, `none` outside the buffer. -/
abbrev Memory (α : Type) := Nat → Option α

namespace Memory

variable {α : Type}

/-- The buffer that holds `l` at the addresses `0, …, l.length - 1`. -/
def ofList (l : List α) : Memory α := fun i => l[i]?

/-- The `n` cells from address `p` on. -/
def read (mem : Memory α) (p : Nat) : Nat → Option (List α)
  | 0 => some []
  | n + 1 => do
    let b ← mem p
    let bs ← read mem (p + 1) n
    return b :: bs

/-- The cells `l` stand in `mem` from address `p` on. -/
def Holds (mem : Memory α) (p : Nat) (l : List α) : Prop :=
  ∀ i (h : i < l.length), mem (p + i) = some l[i]

theorem Holds.head {mem : Memory α} (h : mem.Holds p (b :: l)) : mem p = some b :=
  h 0 (Nat.zero_lt_succ _)

theorem Holds.tail {mem : Memory α} (h : mem.Holds p (b :: l)) : mem.Holds (p + 1) l := by
  intro i hi
  have := h (i + 1) (by simpa using hi)
  rwa [show p + (i + 1) = p + 1 + i by omega] at this

theorem Holds.drop {mem : Memory α} (h : mem.Holds p l) (n : Nat) :
    mem.Holds (p + n) (l.drop n) := by
  intro i hi
  have := h (n + i) (by rw [List.length_drop] at hi; omega)
  rw [List.getElem_drop, ← this, Nat.add_assoc]

theorem Holds.take {mem : Memory α} (h : mem.Holds p l) (n : Nat) : mem.Holds p (l.take n) := by
  intro i hi
  rw [List.getElem_take]
  exact h i (by rw [List.length_take] at hi; omega)

theorem holds_ofList (l : List α) : (ofList l).Holds 0 l := by
  intro i hi
  simp [ofList, hi]

theorem Holds.read {mem : Memory α} {p : Nat} {l : List α} (h : mem.Holds p l) :
    mem.read p l.length = some l := by
  induction l generalizing p with
  | nil => rfl
  | cons b l ih => simp [Memory.read, h.head, ih h.tail]

theorem Holds.read_take {mem : Memory α} (h : mem.Holds p l) (hn : n ≤ l.length) :
    mem.read p n = some (l.take n) := by
  have := (h.take n).read
  rwa [List.length_take, Nat.min_eq_left hn] at this

theorem Holds.slice {mem : Memory α} (h : mem.Holds 0 l) (p n : Nat) :
    mem.Holds p ((l.drop p).take n) := by
  simpa using (h.drop p).take n

end Memory

end BootableRecovery
