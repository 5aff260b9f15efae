import BootableRecovery.BootControl.IndexSafety

/-!
# What the calls of the boot control module change

The three calls that write the control block, in any order and on any stored block: what each of
them changes and what it keeps, and that a slot that was made unbootable stays so until it is made
active or marked successful (`writes_right`).
-/

namespace BootableRecovery.BootControl

/-! ## What is stored -/

/-- The block with its CRC, as it is stored. -/
def BootloaderControl.withCrc (c : BootloaderControl) : BootloaderControl :=
  { c with crc32Le := (decode (BootControl.withCrc c.encode)).crc32Le }

theorem getD_withCrc (b : CharArray 32) {i : Nat} (h : i < 28) :
    (withCrc b).toList.getD i '\x00' = b.toList.getD i '\x00' := by
  have hlen : (b.toList.take 28).length = 28 := by
    rw [List.length_take, List.Vector.toList_length]
    rfl
  show (b.toList.take 28 ++ _).getD i '\x00' = _
  rw [List.getD_eq_getElem?_getD, List.getElem?_append_left (by omega), List.getElem?_take_of_lt h,
    ← List.getD_eq_getElem?_getD]

theorem bytesAt_withCrc (b : CharArray 32) {offset n : Nat} (h : offset + n ≤ 28) :
    BootloaderControl.bytesAt (withCrc b).toList offset n =
    BootloaderControl.bytesAt b.toList offset n := by
  funext i
  rw [BootloaderControl.bytesAt, getD_withCrc b (by omega)]
  rfl

theorem decode_withCrc (c : BootloaderControl) :
    BootloaderControl.decode (withCrc c.encode) = c.withCrc := by
  have hslots (i : Fin kMaxNumSlots) : 12 + 2 * i.val + 2 ≤ 28 := by
    have : i.val < 4 := i.isLt
    omega
  have hfields (b : CharArray 32) : BootloaderControl.decode (withCrc b) =
      { BootloaderControl.decode b with crc32Le := (BootloaderControl.decode (withCrc b)).crc32Le }
      := by
    simp only [BootloaderControl.decode, bytesAt_withCrc b (by decide : 0 + 4 ≤ 28),
      bytesAt_withCrc b (by decide : 4 + 4 ≤ 28), bytesAt_withCrc b (by decide : 8 + 1 ≤ 28),
      bytesAt_withCrc b (by decide : 9 + 1 ≤ 28), bytesAt_withCrc b (by decide : 10 + 2 ≤ 28),
      bytesAt_withCrc b (by decide : 20 + 8 ≤ 28), bytesAt_withCrc b (hslots _)]
  rw [hfields, BootloaderControl.decode_encode]
  rfl

/-- The CRC of the block on the partition is valid. -/
def CrcValid (s : State) : Prop :=
  ∃ block, loadBootloaderControl s.misc true = some block ∧ withCrc block = block

theorem withCrc_idem (b : CharArray 32) : withCrc (withCrc b) = withCrc b := by
  have htake : (withCrc b).toList.take 28 = b.toList.take 28 := by
    have hlen : (b.toList.take 28).length = 28 := by
      rw [List.length_take, List.Vector.toList_length]
      rfl
    exact List.take_left' hlen
  apply Subtype.ext
  show (withCrc b).toList.take 28 ++ (List.range 4).map _ = b.toList.take 28 ++ (List.range 4).map _
  rw [htake]

theorem load_updateAndSave {misc misc' : Misc} {buffer : CharArray 32} {written : Option Nat}
    (h : updateAndSaveBootloaderControl misc buffer written = (true, misc')) :
    loadBootloaderControl misc' true = some (withCrc buffer) := by
  obtain ⟨rfl, hle⟩ := Misc.writeMiscPartition_eq_true h
  have hself := Misc.put_self hle
  rw [List.Vector.toList_length] at hself
  have hlen :
      (((misc.put kBootloaderControlOffset (withCrc buffer).toList).content.drop
        kBootloaderControlOffset).take 32).length = 32 := by
    rw [hself, List.Vector.toList_length]
  unfold loadBootloaderControl
  rw [dif_pos ⟨rfl, hlen⟩]
  exact congrArg some (Subtype.ext hself)

/-- What a call that was successful has changed, and that it is on the partition. -/
theorem update_eq_some {s s' : State} {read : Bool} {written : Option Nat}
    {change : BootloaderControl → Option BootloaderControl}
    (h : s.update read written change = some (.code 0, s')) :
    ∃ c c', s.load true = some c ∧ change c = some c' ∧ s'.load true = some c'.withCrc ∧
    CrcValid s' ∧
      s'.module = s.module := by
  have hdev := device_of_loadBootloaderControl h
  unfold State.update at h
  cases hload : s.load read with
  | none =>
    rw [loadBootloaderControl_of_none hdev hload] at h
    cases h
  | some c =>
    rw [loadBootloaderControl_of_some hload] at h
    obtain ⟨c', hc', heq⟩ := Option.map_eq_some_iff.mp h
    obtain ⟨hcode, rfl⟩ := Prod.mk.inj heq
    have hok : (updateAndSaveBootloaderControl s.misc c'.encode written).1 = true := by
      by_contra hnot
      rw [Bool.not_eq_true] at hnot
      simp [State.save, hnot] at hcode
    have hblock :
        loadBootloaderControl (s.save c' written).2.misc true = some (withCrc c'.encode) :=
      load_updateAndSave (Prod.ext hok rfl)
    unfold State.load at hload
    split at hload
    · cases hload
    · rename_i hdev
      have hread : read = true := by
        by_contra hnot
        rw [loadBootloaderControl, dif_neg fun h => hnot h.1] at hload
        cases hload
      refine ⟨c, c', ?_, hc', ?_, ⟨_, hblock, withCrc_idem _⟩, rfl⟩
      · rw [State.load, if_neg hdev, ← hread]
        exact hload
      · have hdev' : ¬(s.save c' written).2.module.miscDevice.isNone := hdev
        rw [State.load, if_neg hdev', hblock, Option.map_some, decode_withCrc]

/-! ## The changes -/

/-- The header, and all that is reserved. -/
structure SameHeader (c c' : BootloaderControl) : Prop where
  slotSuffix : c'.slotSuffix = c.slotSuffix
  magic : c'.magic = c.magic
  version : c'.version = c.version
  nbSlot : c'.nbSlot = c.nbSlot
  recoveryTriesRemaining : c'.recoveryTriesRemaining = c.recoveryTriesRemaining
  padding : c'.padding = c.padding
  reserved0 : c'.reserved0 = c.reserved0
  reserved1 : c'.reserved1 = c.reserved1

theorem SameHeader.refl (c : BootloaderControl) : SameHeader c c :=
  ⟨rfl, rfl, rfl, rfl, rfl, rfl, rfl, rfl⟩

theorem SameHeader.modify {c c' : BootloaderControl} (h : SameHeader c c') (k : Fin kMaxNumSlots)
    (f : SlotMetadata → SlotMetadata) : SameHeader c (c'.modify k f) :=
  ⟨h.1, h.2, h.3, h.4, h.5, h.6, h.7, h.8⟩

theorem SameHeader.withCrc {c c' : BootloaderControl} (h : SameHeader c c') :
    SameHeader c c'.withCrc :=
  ⟨h.1, h.2, h.3, h.4, h.5, h.6, h.7, h.8⟩

/-- The priority of a slot that another one is made active over. -/
def lowered (p : BitVec 4) : BitVec 4 := if p ≥ 15 then 14 else p

theorem lowered_lt (p : BitVec 4) : lowered p < 15 := by decide +revert

theorem lowered_mono {p q : BitVec 4} (h : p ≤ q) : lowered p ≤ lowered q := by decide +revert

theorem slotInfo_modify (c : BootloaderControl) (k : Fin kMaxNumSlots)
    (f : SlotMetadata → SlotMetadata) (i : Fin kMaxNumSlots) :
    (c.modify k f).slotInfo i = if i = k then f (c.slotInfo k) else c.slotInfo i :=
  Function.update_apply _ _ _ i

theorem lowered_idem (p : BitVec 4) : lowered (lowered p) = lowered p := by decide +revert

/-- A slot with a lower priority than 15. -/
def SlotMetadata.lower (m : SlotMetadata) : SlotMetadata :=
  { m with priority := lowered m.priority }

theorem SlotMetadata.lower_lower (m : SlotMetadata) : m.lower.lower = m.lower := by
  simp [lower, lowered_idem]

theorem SlotMetadata.lower_of_lt {m : SlotMetadata} (h : ¬m.priority ≥ 15) : m.lower = m := by
  rw [lower, lowered, if_neg h]

theorem SlotMetadata.lower_of_ge {m : SlotMetadata} (h : m.priority ≥ 15) :
    m.lower = { m with priority := 14 } := by
  rw [lower, lowered, if_pos h]

theorem lowerOthers_eq_some {slot : Nat} {is : List Nat} {c c' : BootloaderControl}
    (h : lowerOthers slot is c = some c') :
    SameHeader c c' ∧ ∀ i : Fin kMaxNumSlots, c'.slotInfo i =
      if i.val ∈ is ∧ i.val ≠ slot then (c.slotInfo i).lower else c.slotInfo i := by
  induction is generalizing c with
  | nil =>
    cases h
    exact ⟨.refl _, fun i => by rw [if_neg (by simp)]⟩
  | cons j is ih =>
    rw [lowerOthers] at h
    by_cases hj : j = slot
    · rw [if_pos hj] at h
      obtain ⟨hheader, hslots⟩ := ih h
      refine ⟨hheader, fun i => ?_⟩
      rw [hslots i]
      congr 1
      simp only [List.mem_cons, eq_iff_iff]
      constructor
      · exact fun h => ⟨.inr h.1, h.2⟩
      · exact fun h => ⟨h.1.resolve_left fun heq => h.2 (heq.trans hj), h.2⟩
    · rw [if_neg hj] at h
      unfold index at h
      split at h
      · cases h
      · rename_i k hk
        obtain rfl : j = k.val := by
          split at hk <;> cases hk
          rfl
        obtain ⟨hheader, hslots⟩ := ih h
        have hstep (i : Fin kMaxNumSlots) :
            (if (c.slotInfo k).priority ≥ 15 then c.modify k fun m => { m with priority := 14 }
              else c).slotInfo i = if i = k then (c.slotInfo i).lower else c.slotInfo i := by
          by_cases hp : (c.slotInfo k).priority ≥ 15
          · rw [if_pos hp, slotInfo_modify]
            by_cases hi : i = k
            · rw [if_pos hi, if_pos hi, hi, SlotMetadata.lower_of_ge hp]
            · rw [if_neg hi, if_neg hi]
          · rw [if_neg hp]
            by_cases hi : i = k
            · rw [if_pos hi, hi, SlotMetadata.lower_of_lt hp]
            · rw [if_neg hi]
        constructor
        · by_cases hp : (c.slotInfo k).priority ≥ 15
          · rw [if_pos hp] at hheader
            exact ⟨hheader.1, hheader.2, hheader.3, hheader.4, hheader.5, hheader.6, hheader.7,
              hheader.8⟩
          · rwa [if_neg hp] at hheader
        · intro i
          rw [hslots i, hstep i]
          by_cases hi : i = k
          · subst hi
            rw [if_pos rfl, SlotMetadata.lower_lower, ite_self, if_pos ⟨List.mem_cons_self, hj⟩]
          · have hval : i.val ≠ k.val := fun heq => hi (Fin.ext heq)
            rw [if_neg hi]
            simp only [List.mem_cons, hval, false_or]

/-! ## The calls -/

/-- The fields of a slot other than its priority. -/
structure SamePriorityApart (m m' : SlotMetadata) : Prop where
  triesRemaining : m'.triesRemaining = m.triesRemaining
  successfulBoot : m'.successfulBoot = m.successfulBoot
  verityCorrupted : m'.verityCorrupted = m.verityCorrupted
  reserved : m'.reserved = m.reserved

/-- `markBootSuccessful` names two fields of the current slot. -/
structure Marked (currentSlot : Nat) (c c' : BootloaderControl) : Prop where
  header : SameHeader c c'
  current : ∀ i, i.val = currentSlot →
    c'.slotInfo i = { c.slotInfo i with successfulBoot := 1, triesRemaining := 1 }
  others : ∀ i, i.val ≠ currentSlot → c'.slotInfo i = c.slotInfo i

/-- `setActiveBootSlot` makes a slot the one with the highest priority of all, and names its tries,
its mark of a corruption unless it is the current slot, and the priorities of the others. -/
structure Activated (m : Module) (slot : Nat) (c c' : BootloaderControl) : Prop where
  header : SameHeader c c'
  highest : ∀ i k, k.val = slot → i.val < m.numSlots → i.val ≠ slot →
    (c'.slotInfo i).priority < (c'.slotInfo k).priority
  tries : ∀ k, k.val = slot → 0 < (c'.slotInfo k).triesRemaining
  order : ∀ i j, i.val < m.numSlots → j.val < m.numSlots → i.val ≠ slot → j.val ≠ slot →
    (c.slotInfo i).priority ≤ (c.slotInfo j).priority →
    (c'.slotInfo i).priority ≤ (c'.slotInfo j).priority
  active : ∀ k, k.val = slot → (c'.slotInfo k).successfulBoot = (c.slotInfo k).successfulBoot ∧
    (c'.slotInfo k).reserved = (c.slotInfo k).reserved ∧
    (slot = m.currentSlot → (c'.slotInfo k).verityCorrupted = (c.slotInfo k).verityCorrupted)
  others : ∀ i, i.val ≠ slot → SamePriorityApart (c.slotInfo i) (c'.slotInfo i) ∧
    (m.numSlots ≤ i.val → c'.slotInfo i = c.slotInfo i)

/-- `setSlotAsUnbootable` names two fields of the slot. -/
structure MadeUnbootable (slot : Nat) (c c' : BootloaderControl) : Prop where
  header : SameHeader c c'
  unbootable :
    ∀ k, k.val = slot →
    c'.slotInfo k = { c.slotInfo k with successfulBoot := 0, triesRemaining := 0 }
  others : ∀ i, i.val ≠ slot → c'.slotInfo i = c.slotInfo i

/-- What a call that writes the block changes in it. -/
def Changes (m : Module) : Call → BootloaderControl → BootloaderControl → Prop
  | .markBootSuccessful _ _ => Marked m.currentSlot
  | .setActiveBootSlot slot _ _ => Activated m slot
  | .setSlotAsUnbootable slot _ _ => MadeUnbootable slot
  | _ => fun _ _ => False

theorem index_eq_some {i : Nat} {k : Fin kMaxNumSlots} (h : index i = some k) : k.val = i := by
  unfold index at h
  split at h <;> cases h
  rfl

theorem slotInfo_withCrc (c : BootloaderControl) : c.withCrc.slotInfo = c.slotInfo := rfl

theorem marked_withCrc {currentSlot : Nat} {k : Fin kMaxNumSlots} (hk : k.val = currentSlot)
    (c : BootloaderControl) : Marked currentSlot c (markSuccessful k c).withCrc where
  header := ((SameHeader.refl c).modify k _).withCrc
  current i hi := by
    have hik : i = k := Fin.ext (hi.trans hk.symm)
    rw [hik, slotInfo_withCrc, markSuccessful, slotInfo_modify, if_pos rfl]
  others i hi := by
    have hne : i ≠ k := fun heq => hi (heq ▸ hk)
    rw [slotInfo_withCrc, markSuccessful, slotInfo_modify, if_neg hne]

theorem madeUnbootable_withCrc {slot : Nat} {k : Fin kMaxNumSlots} (hk : k.val = slot)
    (c : BootloaderControl) : MadeUnbootable slot c (makeUnbootable k c).withCrc where
  header := ((SameHeader.refl c).modify k _).withCrc
  unbootable i hi := by
    have hik : i = k := Fin.ext (hi.trans hk.symm)
    rw [hik, slotInfo_withCrc, makeUnbootable, slotInfo_modify, if_pos rfl]
  others i hi := by
    have hne : i ≠ k := fun heq => hi (heq ▸ hk)
    rw [slotInfo_withCrc, makeUnbootable, slotInfo_modify, if_neg hne]

theorem activated_withCrc {m : Module} {slot : Nat} {k : Fin kMaxNumSlots} (hk : k.val = slot)
    {c d : BootloaderControl} (hd : lowerOthers slot (List.range m.numSlots) c = some d) :
    Activated m slot c (activate m.currentSlot k d).withCrc := by
  obtain ⟨hheader, hslots⟩ := lowerOthers_eq_some hd
  have hself (i : Fin kMaxNumSlots) (hi : i.val = slot) :
      (activate m.currentSlot k d).withCrc.slotInfo i = { c.slotInfo i with
        priority := 15
        triesRemaining := 6
        verityCorrupted :=
          if slot ≠ m.currentSlot then 0 else (c.slotInfo i).verityCorrupted } := by
    have hik : i = k := Fin.ext (hi.trans hk.symm)
    have hkeep : d.slotInfo k = c.slotInfo k := by rw [hslots k, if_neg fun h => h.2 hk]
    rw [hik, ← hk, ← hkeep, slotInfo_withCrc, activate, slotInfo_modify, if_pos rfl]
  have hother (i : Fin kMaxNumSlots) (hi : i.val ≠ slot) :
      (activate m.currentSlot k d).withCrc.slotInfo i = if i.val < m.numSlots
      then (c.slotInfo i).lower else c.slotInfo i := by
    have hne : i ≠ k := fun heq => hi (heq ▸ hk)
    rw [slotInfo_withCrc, activate, slotInfo_modify, if_neg hne, hslots i]
    simp only [List.mem_range, hi, ne_eq, not_false_eq_true, and_true]
  refine ⟨(hheader.modify k _).withCrc, ?_, ?_, ?_, ?_, ?_⟩
  · intro i k' hk' hi hne
    rw [hother i hne, hself k' hk', if_pos hi]
    exact lowered_lt _
  · intro k' hk'
    rw [hself k' hk']
    exact (by decide : (0 : BitVec 3) < 6)
  · intro i j hi hj hine hjne hle
    rw [hother i hine, hother j hjne, if_pos hi, if_pos hj]
    exact lowered_mono hle
  · intro k' hk'
    rw [hself k' hk']
    exact ⟨rfl, rfl, fun heq => if_neg (not_not.mpr heq)⟩
  · intro i hi
    rw [hother i hi]
    constructor
    · split <;> exact ⟨rfl, rfl, rfl, rfl⟩
    · exact fun hge => if_neg (Nat.not_lt.mpr hge)

/-! ## Runs -/

/-- The calls that write the block. -/
def Writes : Call → Prop
  | .markBootSuccessful _ _ | .setActiveBootSlot _ _ _ | .setSlotAsUnbootable _ _ _ => True
  | _ => False

/-- A run of such calls that all are successful. -/
inductive Run : State → List Call → State → Prop
  | nil : Run s [] s
  | cons : Writes call → step s call = some (.code 0, s') → Run s' calls s'' →
    Run s (call :: calls) s''

theorem step_eq_some {s s' : State} {call : Call} (hwrites : Writes call)
    (h : step s call = some (.code 0, s')) : ∃ c c', s.load true = some c ∧ s'.load true = some c' ∧
    Changes s.module call c c' ∧ CrcValid s' ∧
      s'.module = s.module ∧ ∀ slot read written,
        call = .setActiveBootSlot slot read written ∨
        call = .setSlotAsUnbootable slot read written → s.invalid slot = false := by
  cases call with
  | markBootSuccessful read written =>
    obtain ⟨c, c', hload, hc', hload', hcrc, hmod⟩ := update_eq_some h
    obtain ⟨k, hk, rfl⟩ := Option.map_eq_some_iff.mp hc'
    exact ⟨c, _, hload, hload', marked_withCrc (index_eq_some hk) c, hcrc, hmod, by simp⟩
  | setActiveBootSlot slot read written =>
    rw [step] at h
    split at h
    · cases h
    · rename_i hvalid
      obtain ⟨c, c', hload, hc', hload', hcrc, hmod⟩ := update_eq_some h
      obtain ⟨d, hd, hc'⟩ := Option.bind_eq_some_iff.mp hc'
      obtain ⟨k, hk, rfl⟩ := Option.map_eq_some_iff.mp hc'
      refine ⟨c, _, hload, hload', activated_withCrc (index_eq_some hk) hd, hcrc, hmod, ?_⟩
      rintro slot' read' written' (heq | heq) <;> cases heq
      simpa using hvalid
  | setSlotAsUnbootable slot read written =>
    rw [step] at h
    split at h
    · cases h
    · rename_i hvalid
      obtain ⟨c, c', hload, hc', hload', hcrc, hmod⟩ := update_eq_some h
      obtain ⟨k, hk, rfl⟩ := Option.map_eq_some_iff.mp hc'
      refine ⟨c, _, hload, hload', madeUnbootable_withCrc (index_eq_some hk) c, hcrc, hmod, ?_⟩
      rintro slot' read' written' (heq | heq) <;> cases heq
      simpa using hvalid
  | _ => exact hwrites.elim

/-- The call makes the slot active, or marks it successful. -/
def Revives (m : Module) (slot : Nat) : Call → Prop
  | .setActiveBootSlot slot' _ _ => slot' = slot
  | .markBootSuccessful _ _ => m.currentSlot = slot
  | _ => False

/-- The slot is not bootable, and both calls say so. -/
structure Unbootable (s : State) (slot : Nat) : Prop where
  isSlotBootable : step s (.isSlotBootable slot true) = some (.code 0, s)
  isSlotMarkedSuccessful : step s (.isSlotMarkedSuccessful slot true) = some (.code 0, s)

/-- A slot without tries and without the mark of success, as it is stored. -/
structure Dead (s : State) (slot : Nat) : Prop where
  valid : s.invalid slot = false
  stored : ∃ c, s.load true = some c ∧ ∀ k, k.val = slot →
    (c.slotInfo k).successfulBoot = 0 ∧ (c.slotInfo k).triesRemaining = 0

theorem Dead.unbootable {s : State} {slot : Nat} (h : Dead s slot) : Unbootable s slot := by
  obtain ⟨hvalid, c, hload, hslot⟩ := h
  have hlt : slot < kMaxNumSlots := by
    have := hvalid
    simp only [State.invalid, Bool.or_eq_false_iff, decide_eq_false_iff_not, not_le,
      ge_iff_le] at this
    exact this.1
  have hindex : index slot = some ⟨slot, hlt⟩ := dif_pos hlt
  obtain ⟨hsucc, htries⟩ := hslot ⟨slot, hlt⟩ rfl
  constructor
  · rw [step, hvalid, loadBootloaderControl_of_some hload, hindex]
    simp [htries]
  · rw [step, hvalid, loadBootloaderControl_of_some hload, hindex]
    simp [hsucc]

/-- Only the calls that revive a slot that is not bootable make it bootable. -/
theorem Dead.step {s s' : State} {slot : Nat} {call : Call} (h : Dead s slot)
    (hwrites : Writes call) (hstep : step s call = some (.code 0, s'))
    (hnot : ¬Revives s.module slot call) : Dead s' slot := by
  obtain ⟨c, c', hload, hload', hchanges, -, hmod, -⟩ := step_eq_some hwrites hstep
  obtain ⟨hvalid, d, hd, hslot⟩ := h
  cases hload.symm.trans hd
  refine ⟨by rw [State.invalid, hmod]; exact hvalid, c', hload', fun k hk => ?_⟩
  cases call with
  | markBootSuccessful =>
    rw [hchanges.others k fun heq => hnot (heq.symm.trans hk)]
    exact hslot k hk
  | setActiveBootSlot slot' =>
    obtain ⟨hsame, -⟩ := hchanges.others k fun heq => hnot (heq.symm.trans hk)
    rw [hsame.successfulBoot, hsame.triesRemaining]
    exact hslot k hk
  | setSlotAsUnbootable slot' =>
    by_cases heq : k.val = slot'
    · rw [hchanges.unbootable k heq]
      exact ⟨rfl, rfl⟩
    · rw [hchanges.others k heq]
      exact hslot k hk
  | _ => exact hwrites.elim

theorem Dead.run {s s' : State} {slot : Nat} {calls : List Call} (h : Dead s slot)
    (hrun : Run s calls s') (hnot : ∀ call ∈ calls, ¬Revives s.module slot call) :
    Dead s' slot := by
  induction hrun with
  | nil => exact h
  | cons hwrites hstep _ ih =>
    obtain ⟨hcall, hcalls⟩ := List.forall_mem_cons.mp hnot
    obtain ⟨-, -, -, -, -, -, hmod, -⟩ := step_eq_some hwrites hstep
    exact ih (h.step hwrites hstep hcall) (by rwa [hmod])

theorem Run.module {s s' : State} {calls : List Call} (h : Run s calls s') :
    s'.module = s.module := by
  induction h with
  | nil => rfl
  | cons hwrites hstep _ ih =>
    obtain ⟨-, -, -, -, -, -, hmod, -⟩ := step_eq_some hwrites hstep
    exact ih.trans hmod

/-- In any run of successful writes, on any stored block: after each call the CRC is valid, the call
has changed what it names and nothing else, and a slot that it has made unbootable stays so until it
is revived. -/
theorem writes_right {s s' s'' : State} {before : List Call} {call : Call}
    (hbefore : Run s before s') (hwrites : Writes call)
    (hstep : step s' call = some (.code 0, s'')) : CrcValid s'' ∧
      (∃ c c', s'.load true = some c ∧ s''.load true = some c' ∧ Changes s.module call c c') ∧
      ∀ slot read written, call = .setSlotAsUnbootable slot read written →
      ∀ after t, Run s'' after t →
        (∀ call ∈ after, ¬Revives s.module slot call) → Unbootable t slot := by
  obtain ⟨c, c', hload, hload', hchanges, hcrc, hmod, hvalid⟩ := step_eq_some hwrites hstep
  have hsame := hbefore.module
  refine ⟨hcrc, ⟨c, c', hload, hload', hsame ▸ hchanges⟩, ?_⟩
  rintro slot read written rfl after t hafter hnot
  have hdead : Dead s'' slot := by
    refine ⟨?_, c', hload', fun k hk => ?_⟩
    · rw [State.invalid, hmod]
      exact hvalid slot read written (.inr rfl)
    · rw [hchanges.unbootable k hk]
      exact ⟨rfl, rfl⟩
  exact (hdead.run hafter (by rwa [hmod, hsame])).unbootable

/-- A call is successful if it can change any block, and the device can be read and written. -/
theorem update_ok {s : State} {f : BootloaderControl → Option BootloaderControl}
    (hdev : s.module.miscDevice ≠ none) (hlen : 2080 ≤ s.misc.content.length)
    (hf : ∀ c, (f c).isSome) : ∃ s', s.update true none f = some (.code 0, s') ∧
    s'.module = s.module ∧
      s'.misc.content.length = s.misc.content.length := by
  have hsome : (loadBootloaderControl s.misc true).isSome :=
    loadBootloaderControl_isSome.mpr ⟨rfl, hlen⟩
  obtain ⟨block, hblock⟩ := Option.isSome_iff_exists.mp hsome
  have hload : s.load true = some (.decode block) := by
    rw [State.load, if_neg (by simpa using hdev), hblock, Option.map_some]
  obtain ⟨c, hc⟩ := Option.isSome_iff_exists.mp (hf (.decode block))
  have hok : (updateAndSaveBootloaderControl s.misc c.encode none).1 = true := by
    rw [updateAndSaveBootloaderControl, Misc.writeMiscPartition, decide_eq_true_iff,
      List.Vector.toList_length]
    exact hlen
  refine ⟨(s.save c none).2, ?_, rfl, Misc.length_put _ _ _⟩
  rw [State.update, loadBootloaderControl_of_some hload, hc, Option.map_some, State.save,
    if_pos hok]

/-- Two slots, with the first as the current one, and the block that `BootControl_init` writes for
them. -/
def twoSlots : State where
  module := ⟨true, some "/dev/block/misc".toList, 2, 0⟩
  misc :=
    { content := List.replicate 2048 '\x00' ++
        (withCrc (initDefaultBootloaderControl 0 (fun path => if path = "/dev/block/boot_a".toList ∨
          path = "/dev/block/boot_b".toList then .found
          else .noEntry) "/dev/block/misc".toList).encode).toList
      offset := 0 }

/-- The second slot is made active and unbootable, and the first one is then marked successful. -/
theorem writes_right_twoSlots : ∃ s s' t, Run twoSlots [.setActiveBootSlot 1 true none] s ∧
    step s (.setSlotAsUnbootable 1 true none) = some (.code 0, s') ∧
    Run s' [.markBootSuccessful true none] t ∧ CrcValid s' ∧ Unbootable t 1 := by
  have hlen : twoSlots.misc.content.length = 2080 := by
    rw [twoSlots, List.length_append, List.length_replicate, List.Vector.toList_length]
  have hdev : twoSlots.module.miscDevice ≠ none := Option.some_ne_none _
  obtain ⟨s, hactive, hmod, hlen₁⟩ :=
    update_ok (f := twoSlots.module.setActive 1) hdev hlen.ge fun c =>
    (setActive_isSome (by decide) c).mpr (by decide)
  obtain ⟨s', hunbootable, hmod', hlen₂⟩ := update_ok (s := s) (f := fun c =>
    (index 1).map fun k => makeUnbootable k c) (hmod ▸ hdev) (by omega) fun _ => rfl
  have hcurrent : s'.module.currentSlot = 0 := by
    rw [hmod', hmod]
    rfl
  obtain ⟨t, hmark, -, -⟩ := update_ok (s := s') (f := fun c =>
    (index s'.module.currentSlot).map fun k => markSuccessful k c) (by rw [hmod', hmod]; exact hdev)
    (by rw [hlen₂, hlen₁, hlen]) fun c => by rw [hcurrent, Option.isSome_map, index_isSome]; decide
  have hbefore : Run twoSlots [.setActiveBootSlot 1 true none] s := by
    refine .cons trivial ?_ .nil
    rw [step, if_neg (by rw [State.invalid]; decide)]
    exact hactive
  have hvalid : ¬s.invalid 1 := by
    rw [State.invalid, hmod]
    decide
  have hstep : step s (.setSlotAsUnbootable 1 true none) = some (.code 0, s') := by
    rw [step, if_neg hvalid]
    exact hunbootable
  have hafter : Run s' [.markBootSuccessful true none] t := .cons trivial hmark .nil
  obtain ⟨hcrc, -, hun⟩ := writes_right hbefore (by trivial) hstep
  refine ⟨s, s', t, hbefore, hstep, hafter, hcrc, hun 1 true none rfl _ t hafter fun call hcall =>
    ?_⟩
  rw [List.mem_singleton.mp hcall]
  exact Nat.zero_ne_one

end BootableRecovery.BootControl
