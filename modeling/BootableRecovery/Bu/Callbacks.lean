import BootableRecovery.Bu.Restore

/-!
# The callbacks and what the system answers

`tar_cb_write` of `bu.cpp` with the answers of `write` (of `gzwrite`, if the stream is compressed),
the partitions with their sizes, and `update_progress`, which divides by the size that is used.
-/

namespace BootableRecovery.Bu

/-! ## Progress -/

structure PartSpec where
  name : Text
  size : Nat
  used : Nat
  off : Nat
  deriving DecidableEq

def partSet (part : PartSpec) : PartSpec := { part with off := 0 }

/-- `update_progress` for the current partition, without the message: no result where it divides by
0. -/
def updateProgress (curpart : Option PartSpec) (off : Nat) : Option (Option PartSpec) :=
  match curpart with
  | none => some none
  | some part =>
    if part.used = 0 then none else some (some { part with off := (part.off + off) % 2 ^ 64 })

/-- Nothing is divided by 0 for this partition. -/
def Countable (curpart : Option PartSpec) : Prop := ∀ part ∈ curpart, part.used ≠ 0

/-- The current partition as `update_progress` leaves it is the same but for `off`. -/
theorem countable_of_updateProgress {curpart curpart' : Option PartSpec}
    (h : updateProgress curpart off = some curpart') : Countable curpart ∧ Countable curpart' := by
  cases curpart with
  | none =>
    cases h
    exact ⟨nofun, nofun⟩
  | some part =>
    rw [updateProgress] at h
    split at h
    · cases h
    · rename_i hne
      cases h
      constructor
      · rintro _ ⟨⟩
        exact hne
      · rintro _ ⟨⟩
        exact hne

theorem updateProgress_isSome {curpart : Option PartSpec} : (updateProgress curpart off).isSome ↔
    Countable curpart := by
  cases curpart with
  | none => exact iff_of_true rfl nofun
  | some part =>
    rw [updateProgress]
    split
    · rename_i h
      exact iff_of_false (by simp) fun hc => hc part rfl h
    · rename_i h
      refine iff_of_true rfl ?_
      rintro _ ⟨⟩
      exact h

/-! ## Writing -/

/-- What the calls of `write` for one buffer return: how many bytes they take, or nothing for an
error. -/
abbrev WriteAnswers := Nat → Option Nat

/-- The loop of `tar_cb_write` from its `i`-th call on, for `len` bytes that are left: how many
bytes were taken in the end, and whether the last call failed. -/
def writeLoop (answers : WriteAnswers) : (fuel i len written : Nat) → Nat × Bool
  | 0, _, _, written => (written, false)
  | fuel + 1, i, len, written =>
    if len = 0 then (written, false)
    else
      match answers i with
      | none => (written, true)
      | some n =>
        if n = 0 then (written, false)
        else writeLoop answers fuel (i + 1) (len - n) (written + min n len)

/-- How many bytes of a block are taken. -/
def taken (answers : WriteAnswers) : Nat := (writeLoop answers 512 0 512 0).1

/-- The last call for a block fails. -/
def failed (answers : WriteAnswers) : Bool := (writeLoop answers 512 0 512 0).2

/-- The globals that the callbacks use. -/
structure Globals (hashes : Hashes) where
  hash : HashState hashes
  curpart : Option PartSpec

variable {hashes : Hashes}

/-- `tar_cb_write` for a block: the bytes that were taken and the globals; no result where it
divides by 0. -/
def writeBlock (answers : WriteAnswers) (g : Globals hashes) (block : Block) :
    Option (List UInt8 × Globals hashes) :=
  let hash := tarCbWrite g.hash block
  let sent := block.toList.take (taken answers)
  if failed answers then some (sent, { g with hash })
  else (updateProgress g.curpart (taken answers)).map fun curpart => (sent, { hash, curpart })

/-- The blocks that libtar hands to the callback, with the answers for each: what was taken of each,
and the globals. -/
def writeBlocks (answers : Nat → WriteAnswers) : (j : Nat) → List Block → Globals hashes →
    Option (List (List UInt8) × Globals hashes)
  | _, [], g => some ([], g)
  | j, block :: blocks, g => do
    let (sent, g) ← writeBlock (answers j) g block
    let (rest, g) ← writeBlocks answers (j + 1) blocks g
    return (sent :: rest, g)

/-- What is taken of some blocks. -/
def delivered (answers : Nat → WriteAnswers) : (j : Nat) → List Block → List (List UInt8)
  | _, [] => []
  | j, block :: blocks => block.toList.take (taken (answers j)) :: delivered answers (j + 1) blocks

/-- No block divides by 0: the partition has a size, or every write fails. -/
def Survives (curpart : Option PartSpec) (answers : Nat → WriteAnswers) (j n : Nat) : Prop :=
  Countable curpart ∨ ∀ i < n, failed (answers (j + i))

theorem writeBlock_eq_some {answers : WriteAnswers} {g g' : Globals hashes} {block : Block}
    {sent : List UInt8}
    (h : writeBlock answers g block = some (sent, g')) :
    sent = block.toList.take (taken answers) ∧ g'.hash = tarCbWrite g.hash block ∧
      (Countable g'.curpart ↔ Countable g.curpart) := by
  rw [writeBlock] at h
  split at h
  · cases h
    exact ⟨rfl, rfl, Iff.rfl⟩
  · obtain ⟨curpart, hcur, heq⟩ := Option.map_eq_some_iff.mp h
    cases heq
    obtain ⟨h₁, h₂⟩ := countable_of_updateProgress hcur
    exact ⟨rfl, rfl, iff_of_true h₂ h₁⟩

theorem writeBlock_isSome {answers : WriteAnswers} {g : Globals hashes} {block : Block} :
    (writeBlock answers g block).isSome ↔ Countable g.curpart ∨ failed answers := by
  rw [writeBlock]
  split
  · rename_i h
    exact iff_of_true rfl (.inr h)
  · rename_i h
    rw [Option.isSome_map, updateProgress_isSome, or_iff_left h]

/-- What is sent and hashed: the hash covers each block that is handed over, whatever is taken of
it. -/
theorem writeBlocks_eq_some {answers : Nat → WriteAnswers} {blocks : List Block}
    {g g' : Globals hashes}
    {sent : List (List UInt8)} (h : writeBlocks answers j blocks g = some (sent, g')) :
    sent = delivered answers j blocks ∧ g'.hash = blocks.foldl tarCbWrite g.hash ∧
      (Countable g'.curpart ↔ Countable g.curpart) := by
  induction blocks generalizing j g sent with
  | nil =>
    cases h
    exact ⟨rfl, rfl, Iff.rfl⟩
  | cons block blocks ih =>
    obtain ⟨⟨first, g₁⟩, hfirst, h⟩ := Option.bind_eq_some_iff.mp h
    obtain ⟨⟨rest, g₂⟩, hrest, h⟩ := Option.bind_eq_some_iff.mp h
    cases h
    obtain ⟨hsent, hhash, hcur⟩ := writeBlock_eq_some hfirst
    obtain ⟨hsent', hhash', hcur'⟩ := ih hrest
    refine ⟨?_, ?_, hcur'.trans hcur⟩
    · rw [hsent, hsent', delivered]
    · rw [hhash', hhash, List.foldl_cons]

theorem survives_succ {curpart : Option PartSpec} {answers : Nat → WriteAnswers} :
    Survives curpart answers j (n + 1) ↔
      (Countable curpart ∨ failed (answers j)) ∧ Survives curpart answers (j + 1) n := by
  rw [Survives, Survives, Nat.forall_lt_succ_left, Nat.add_zero, or_and_left]
  simp only [Nat.add_assoc, Nat.add_comm 1]

theorem writeBlocks_isSome {answers : Nat → WriteAnswers} {blocks : List Block}
    {g : Globals hashes} :
    (writeBlocks answers j blocks g).isSome ↔ Survives g.curpart answers j blocks.length := by
  induction blocks generalizing j g with
  | nil => exact iff_of_true rfl (.inr nofun)
  | cons block blocks ih =>
    rw [List.length_cons, survives_succ, ← @writeBlock_isSome _ _ g block, writeBlocks]
    cases hfirst : writeBlock (answers j) g block with
    | none => simp
    | some r =>
      obtain ⟨first, g₁⟩ := r
      obtain ⟨-, -, hcur⟩ := writeBlock_eq_some hfirst
      have hsurvives : Survives g₁.curpart answers (j + 1) blocks.length ↔
          Survives g.curpart answers (j + 1) blocks.length := or_congr_left hcur
      rw [← hsurvives, ← ih]
      cases hrest : writeBlocks answers (j + 1) blocks g₁ <;> simp [hrest]

/-! ## Blocks that are taken whole -/

/-- Some calls of `write` for a block take at least one byte each, and 512 bytes together. -/
def TakesAll (answers : WriteAnswers) : Prop :=
  ∃ k, (∀ i < k, ∃ n, 0 < n ∧ answers i = some n) ∧
  512 ≤ ((List.range k).map fun i => (answers i).getD 0).sum

theorem writeLoop_le (answers : WriteAnswers) :
    ∀ fuel i len written, (writeLoop answers fuel i len written).1 ≤ written + len := by
  intro fuel
  induction fuel with
  | zero => exact fun _ _ _ => Nat.le_add_right ..
  | succ fuel ih =>
    intro i len written
    rw [writeLoop]
    split
    · exact Nat.le_add_right ..
    · split
      · exact Nat.le_add_right ..
      · split
        · exact Nat.le_add_right ..
        · rename_i n _ _
          exact (ih (i + 1) (len - n) (written + min n len)).trans (by omega)

theorem writeLoop_eq_iff (answers : WriteAnswers) : ∀ fuel i len written, len ≤ fuel →
    ((writeLoop answers fuel i len written).1 = written + len ↔
      ∃ k, (∀ j < k, ∃ n, 0 < n ∧ answers (i + j) = some n) ∧
        len ≤ ((List.range k).map fun j => (answers (i + j)).getD 0).sum) := by
  intro fuel
  induction fuel with
  | zero =>
    intro i len written hlen
    rw [Nat.le_zero.mp hlen]
    exact iff_of_true rfl ⟨0, fun j hj => absurd hj (Nat.not_lt_zero j), Nat.zero_le _⟩
  | succ fuel ih =>
    intro i len written hlen
    rw [writeLoop]
    split
    · rename_i hzero
      rw [hzero]
      exact iff_of_true rfl ⟨0, fun j hj => absurd hj (Nat.not_lt_zero j), Nat.zero_le _⟩
    · rename_i hpos
      -- the first of the calls that are needed
      have hfirst (hno : ¬∃ n, 0 < n ∧ answers i = some n) :
          ¬∃ k, (∀ j < k, ∃ n, 0 < n ∧ answers (i + j) = some n) ∧
          len ≤ ((List.range k).map fun j => (answers (i + j)).getD 0).sum := by
        rintro ⟨k, hall, hsum⟩
        cases k with
        | zero => exact hpos (Nat.le_zero.mp hsum)
        | succ k => exact hno (hall 0 (Nat.succ_pos k))
      split
      · rename_i hnone
        refine iff_of_false (fun h => hpos (Nat.left_eq_add.mp h)) (hfirst ?_)
        rintro ⟨n, -, hsome⟩
        rw [hnone] at hsome
        cases hsome
      · rename_i n hsome
        split
        · rename_i hzero
          refine iff_of_false (fun h => hpos (Nat.left_eq_add.mp h)) (hfirst ?_)
          rintro ⟨m, hm, hsome'⟩
          cases hsome.symm.trans hsome'
          exact Nat.ne_of_gt hm hzero
        · rename_i hn
          have hsplit : written + len = written + min n len + (len - n) := by omega
          rw [hsplit, ih _ _ _ (by omega)]
          constructor
          · rintro ⟨k, hall, hsum⟩
            refine ⟨k + 1, fun j hj => ?_, ?_⟩
            · cases j with
              | zero => exact ⟨n, Nat.pos_of_ne_zero hn, hsome⟩
              | succ j =>
                have := hall j (Nat.lt_of_succ_lt_succ hj)
                rwa [Nat.add_assoc, Nat.add_comm 1] at this
            · rw [List.range_succ_eq_map, List.map_cons, List.map_map, List.sum_cons,
                Nat.add_zero, hsome, Option.getD_some]
              have hshift : (fun j => (answers (i + 1 + j)).getD 0) =
                  (fun j => (answers (i + j)).getD 0) ∘ Nat.succ := by
                funext j
                rw [Function.comp, Nat.add_assoc, Nat.add_comm 1]
              rw [hshift] at hsum
              omega
          · rintro ⟨k, hall, hsum⟩
            cases k with
            | zero => exact absurd (Nat.le_zero.mp hsum) hpos
            | succ k =>
              refine ⟨k, fun j hj => ?_, ?_⟩
              · have := hall (j + 1) (Nat.succ_lt_succ hj)
                rwa [Nat.add_comm j, ← Nat.add_assoc] at this
              · rw [List.range_succ_eq_map, List.map_cons, List.map_map, List.sum_cons,
                  Nat.add_zero, hsome, Option.getD_some] at hsum
                have hshift : (fun j => (answers (i + 1 + j)).getD 0) =
                    (fun j => (answers (i + j)).getD 0) ∘ Nat.succ := by
                  funext j
                  rw [Function.comp, Nat.add_assoc, Nat.add_comm 1]
                rw [hshift]
                omega

theorem taken_eq_iff {answers : WriteAnswers} : taken answers = 512 ↔ TakesAll answers := by
  have h := writeLoop_eq_iff answers 512 0 512 0 le_rfl
  simp only [Nat.zero_add] at h
  exact h

theorem length_delivered (answers : Nat → WriteAnswers) (j : Nat) (blocks : List Block) :
    (delivered answers j blocks).length = blocks.length := by
  induction blocks generalizing j with
  | nil => rfl
  | cons block blocks ih => rw [delivered, List.length_cons, List.length_cons, ih]

/-- What is taken are the given blocks, if these are handed over and taken whole. -/
theorem delivered_eq_iff {answers : Nat → WriteAnswers} {blocks blocks' : List Block} :
    delivered answers j blocks' = blocks.map List.Vector.toList ↔
      blocks' = blocks ∧ ∀ i < blocks.length, TakesAll (answers (j + i)) := by
  induction blocks' generalizing j blocks with
  | nil =>
    cases blocks with
    | nil => exact iff_of_true rfl ⟨rfl, fun i hi => absurd hi (Nat.not_lt_zero i)⟩
    | cons block blocks => exact iff_of_false (by simp [delivered]) (by simp)
  | cons block' blocks' ih =>
    cases blocks with
    | nil => exact iff_of_false (by simp [delivered]) (by simp)
    | cons block blocks =>
      have hlen' := block'.toList_length
      have hblock : block'.toList.take (taken (answers j)) = block.toList ↔
          block' = block ∧ TakesAll (answers j) := by
        rw [← taken_eq_iff]
        constructor
        · intro h
          have hlen := congrArg List.length h
          rw [List.length_take, block'.toList_length, block.toList_length] at hlen
          have hle : taken (answers j) ≤ 0 + 512 := writeLoop_le (answers j) 512 0 512 0
          have hall : taken (answers j) = 512 := by omega
          rw [hall, List.take_of_length_le hlen'.le] at h
          exact ⟨List.Vector.toList_injective h, hall⟩
        · rintro ⟨rfl, hall⟩
          rw [hall, List.take_of_length_le hlen'.le]
      rw [delivered, List.map_cons, List.cons.injEq, hblock, ih, List.cons.injEq, List.length_cons,
        Nat.forall_lt_succ_left, Nat.add_zero]
      simp only [Nat.add_assoc, Nat.add_comm 1]
      tauto

end BootableRecovery.Bu
