import BootableRecovery.BootControl.Control

/-!
# Accesses to the slots

Which calls of the boot control module keep to the four elements of `slot_info`, and refuse what
they cannot do. `markBootSuccessful` uses the current slot without a look at it, which is `-1` where
the property does not name a slot, and the device of the module, which is a null pointer where the
initialization failed; `setActiveBootSlot` goes through as many slots as the block on the disk says.
The other calls check what they are given (`calls_right_iff`).
-/

namespace BootableRecovery.BootControl

/-! ## What a call has to do -/

/-- What a call returns that does nothing. -/
def refusal : Call → Reply
  | .getSuffix _ => .suffix none
  | _ => .code (-1)

/-- A call that cannot be served: there is no such slot, the current slot is not known, the block
cannot be read, or the device not be written. -/
def Unservable (s : State) : Call → Prop
  | .markBootSuccessful read written =>
    kMaxNumSlots ≤ s.module.currentSlot ∨ s.load read = none ∨ written = some 0
  | .setActiveBootSlot slot read written | .setSlotAsUnbootable slot read written =>
    s.invalid slot ∨ s.load read = none ∨ written = some 0
  | .isSlotBootable slot read | .isSlotMarkedSuccessful slot read =>
    s.invalid slot ∨ s.load read = none
  | .getSuffix slot => s.invalid slot
  | .init _ | .getNumberSlots | .getCurrentSlot => False

/-- A write of the call is cut short. -/
def WriteFails : Call → Prop
  | .markBootSuccessful _ written | .setActiveBootSlot _ _ written
  | .setSlotAsUnbootable _ _ written =>
    written ≠ none
  | _ => False

/-- A call that is right: it returns, and accesses the elements of `slot_info` only; if it cannot be
served it returns so, and nothing changes; it returns so as well if its write fails. -/
structure Right (s : State) (call : Call) : Prop where
  inBounds : ∃ r, step s call = some r
  refused : Unservable s call → step s call = some (refusal call, s)
  failed : WriteFails call → ∀ r s', step s call = some (r, s') → r = refusal call

/-- The code is right where the index that it does not check is one, and the device that it opens
has been found. -/
def Checked (s : State) : Call → Prop
  | .markBootSuccessful read _ =>
    s.module.miscDevice ≠ none ∧ (s.load read = none ∨ s.module.currentSlot < kMaxNumSlots)
  | .setActiveBootSlot slot read _ =>
    s.invalid slot ∨ s.load read = none ∨ s.module.numSlots ≤ kMaxNumSlots
  | _ => True

/-- What holds of each call of a run, as long as the calls have results. -/
def Along (P : State → Call → Prop) : State → List Call → Prop
  | _, [] => True
  | s, call :: calls => P s call ∧ ∀ r s', step s call = some (r, s') → Along P s' calls

theorem Along.congr {I : State → Prop} {P Q : State → Call → Prop}
    (hstep : ∀ s call r s', I s → step s call = some (r, s') → I s')
    (h : ∀ s call, I s → (P s call ↔ Q s call)) {s : State} (hs : I s) (calls : List Call) :
    Along P s calls ↔ Along Q s calls := by
  induction calls generalizing s with
  | nil => exact Iff.rfl
  | cons call calls ih =>
    exact and_congr (h s call hs) (forall₃_congr fun r s' hr => ih (hstep s call r s' hs hr))

/-- As long as the device of the module has not been found, it has no slots. -/
def Known (s : State) : Prop := s.module.miscDevice = none → s.module.numSlots = 0

/-! ## One call -/

theorem index_isSome {i : Nat} : (index i).isSome ↔ i < kMaxNumSlots := by
  unfold index
  split <;> simp [*]

theorem index_of_lt {i : Nat} (h : i < kMaxNumSlots) : index i = some ⟨i, h⟩ := dif_pos h

theorem lt_of_valid {s : State} {slot : Nat} (h : s.invalid slot = false) :
    slot < kMaxNumSlots ∧ slot < s.module.numSlots := by
  simpa [State.invalid] using h

theorem lowerOthers_isSome {slot : Nat} {is : List Nat} {c : BootloaderControl} :
    (lowerOthers slot is c).isSome ↔ ∀ i ∈ is, i ≠ slot → i < kMaxNumSlots := by
  induction is generalizing c with
  | nil => simp [lowerOthers]
  | cons i is ih =>
    rw [List.forall_mem_cons, lowerOthers]
    by_cases hi : i = slot
    · rw [if_pos hi, ih]
      simp [hi]
    · rw [if_neg hi]
      by_cases hlt : i < kMaxNumSlots
      · rw [index_of_lt hlt]
        simp only [ih, hi, hlt, ne_eq, not_false_eq_true, forall_const, true_and]
      · have hnone : index i = none := by
          rw [← Option.not_isSome_iff_eq_none, index_isSome]
          exact hlt
        rw [hnone]
        simp [hi, hlt]

theorem save_some_zero (s : State) (c : BootloaderControl) : s.save c (some 0) = (-1, s) := by
  have hput : s.misc.put kBootloaderControlOffset [] = s.misc := by
    simp [Misc.put]
  show ((-1 : Int), { s with misc := s.misc.put kBootloaderControlOffset [] }) = (-1, s)
  rw [hput]

theorem Known.device {s : State} (h : Known s) {slot : Nat} (hvalid : s.invalid slot = false) :
    s.module.miscDevice ≠ none := by
  intro hnone
  have hlt := (lt_of_valid hvalid).2
  rw [h hnone] at hlt
  exact Nat.not_lt_zero _ hlt

/-- A call that changes the block, and that it can change as far as the block can be read. -/
theorem right_of_update {s : State} {call : Call} {read : Bool} {written : Option Nat}
    {change : BootloaderControl → Option BootloaderControl}
    (hstep : step s call = s.update read written change) (hdev : s.module.miscDevice ≠ none)
    (hcode : refusal call = .code (-1))
    (hserve : Unservable s call → s.load read = none ∨ written = some 0)
    (hfail : WriteFails call → written ≠ none) (h : s.load read = none ∨ ∀ c, (change c).isSome) :
    Right s call := by
  cases hload : s.load read with
  | none =>
    have hnone : step s call = some (.code (-1), s) := by
      rw [hstep, State.update, loadBootloaderControl_of_none hdev hload]
    refine ⟨⟨_, hnone⟩, fun _ => hcode ▸ hnone, fun _ r s' heq => ?_⟩
    cases hnone.symm.trans heq
    exact hcode.symm
  | some c =>
    obtain ⟨c', hc'⟩ := Option.isSome_iff_exists.mp (h.resolve_left (by simp [hload]) c)
    have hsome : step s call = some (.code (s.save c' written).1, (s.save c' written).2) := by
      rw [hstep, State.update, loadBootloaderControl_of_some hload, hc', Option.map_some]
    refine ⟨⟨_, hsome⟩, fun hun => ?_, fun hw r s' heq => ?_⟩
    · rw [hsome, (hserve hun).resolve_left (by simp [hload]), save_some_zero, hcode]
    · obtain ⟨n, rfl⟩ := Option.ne_none_iff_exists'.mp (hfail hw)
      cases hsome.symm.trans heq
      exact hcode.symm

/-- The loop of `setActiveBootSlot` goes through the numbers below `numSlots`. -/
theorem setActive_isSome {m : Module} {slot : Nat} (hslot : slot < kMaxNumSlots)
    (c : BootloaderControl) : (m.setActive slot c).isSome ↔ m.numSlots ≤ kMaxNumSlots := by
  have hlower : (lowerOthers slot (List.range m.numSlots) c).isSome ↔
      m.numSlots ≤ kMaxNumSlots := by
    rw [lowerOthers_isSome]
    constructor
    · intro h
      by_contra hnot
      exact absurd (h kMaxNumSlots (List.mem_range.mpr (by omega)) (by omega)) (lt_irrefl _)
    · exact fun h i hi _ => (List.mem_range.mp hi).trans_le h
  rw [← hlower, Module.setActive, index_of_lt hslot]
  cases lowerOthers slot (List.range m.numSlots) c <;> rfl

theorem right_of_refused {s : State} {call : Call} (h : step s call = some (refusal call, s)) :
    Right s call :=
  ⟨⟨_, h⟩, fun _ => h, fun _ r s' heq => by cases h.symm.trans heq; rfl⟩

theorem right_iff (s : State) (call : Call) (hs : Known s) : Right s call ↔ Checked s call := by
  cases call with
  | init | getNumberSlots | getCurrentSlot =>
    exact ⟨fun _ => trivial, fun _ => ⟨⟨_, rfl⟩, False.elim, False.elim⟩⟩
  | getSuffix slot =>
    refine ⟨fun _ => trivial, fun _ => ⟨⟨_, rfl⟩, fun h => ?_, False.elim⟩⟩
    have hinvalid : s.invalid slot = true := h
    simp [step, refusal, hinvalid]
  | isSlotBootable slot read | isSlotMarkedSuccessful slot read =>
    refine ⟨fun _ => trivial, fun _ => ?_⟩
    cases hinvalid : s.invalid slot with
    | true =>
      refine right_of_refused ?_
      rw [step, if_pos hinvalid]
      rfl
    | false =>
      cases hload : s.load read with
      | none =>
        refine right_of_refused ?_
        rw [step, loadBootloaderControl_of_none (hs.device hinvalid) hload, ite_self]
        rfl
      | some c =>
        refine ⟨Option.isSome_iff_exists.mp ?_, fun h => ?_, False.elim⟩
        · rw [step, hinvalid, loadBootloaderControl_of_some hload,
            index_of_lt (lt_of_valid hinvalid).1]
          rfl
        · obtain h | h := h
          · cases hinvalid.symm.trans h
          · cases hload.symm.trans h
  | setSlotAsUnbootable slot read written =>
    refine ⟨fun _ => trivial, fun _ => ?_⟩
    cases hinvalid : s.invalid slot with
    | true =>
      refine right_of_refused ?_
      rw [step, if_pos hinvalid]
      rfl
    | false =>
      have hlt := (lt_of_valid hinvalid).1
      have hstep : step s (.setSlotAsUnbootable slot read written) =
          s.update read written fun c => (index slot).map fun k => makeUnbootable k c := by
        rw [step, hinvalid]
        rfl
      refine right_of_update hstep (hs.device hinvalid) rfl
        (fun h => h.resolve_left (by simp [hinvalid])) id
        (.inr fun c => ?_)
      rw [index_of_lt hlt]
      rfl
  | markBootSuccessful read written =>
    constructor
    · rintro ⟨⟨r, hr⟩, -, -⟩
      refine ⟨device_of_loadBootloaderControl hr, ?_⟩
      by_contra hnot
      obtain ⟨hload, hlt⟩ := not_or.mp hnot
      obtain ⟨c, hc⟩ := Option.ne_none_iff_exists'.mp hload
      have hnone : index s.module.currentSlot = none := by
        rw [← Option.not_isSome_iff_eq_none, index_isSome]
        exact hlt
      rw [step, State.update, loadBootloaderControl_of_some hc, hnone] at hr
      cases hr
    · rintro ⟨hdev, hchecked⟩
      by_cases hload : s.load read = none
      · exact right_of_update rfl hdev rfl (fun _ => .inl hload) id (.inl hload)
      · have hlt := hchecked.resolve_left hload
        refine right_of_update rfl hdev rfl (fun h => h.resolve_left (Nat.not_le.mpr hlt)) id
          (.inr fun c => ?_)
        rw [index_of_lt hlt]
        rfl
  | setActiveBootSlot slot read written =>
    cases hinvalid : s.invalid slot with
    | true =>
      refine ⟨fun _ => .inl hinvalid, fun _ => right_of_refused ?_⟩
      rw [step, if_pos hinvalid]
      rfl
    | false =>
      have hlt := (lt_of_valid hinvalid).1
      have hstep :
          step s (.setActiveBootSlot slot read written) =
          s.update read written (s.module.setActive slot) := by
        rw [step, hinvalid]
        rfl
      constructor
      · rintro ⟨⟨r, hr⟩, -, -⟩
        cases hload : s.load read with
        | none => exact .inr (.inl hload)
        | some c =>
          refine .inr (.inr ((setActive_isSome hlt c).mp ?_))
          rw [hstep, State.update, loadBootloaderControl_of_some hload] at hr
          obtain ⟨c', hc', -⟩ := Option.map_eq_some_iff.mp hr
          exact Option.isSome_of_mem hc'
      · intro hchecked
        refine right_of_update hstep (hs.device hinvalid) rfl
          (fun h => h.resolve_left (by simp [hinvalid])) id ?_
        exact (hchecked.resolve_left (by simp [hinvalid])).imp_right fun hle c =>
          (setActive_isSome hlt c).mpr hle

/-! ## Runs -/

theorem known_start (misc : Misc) : Known ⟨.start, misc⟩ := fun _ => rfl

theorem Known.lazyInitialization {s : State} (h : Known s) (sys : System) :
    Known (lazyInitialization sys s) := by
  unfold BootControl.lazyInitialization
  split
  · exact h
  · dsimp only
    split
    · exact h
    · split
      · exact h
      · split
        · exact fun hnone => by cases hnone
        · exact fun hnone => by cases hnone

/-- A call with the block keeps the module if what it does with the block does. -/
theorem module_loadBootloaderControl {s s' : State} {read : Bool}
    {use : BootloaderControl → Option (Reply × State)}
    (huse : ∀ c, use c = some (r, s') → s'.module = s.module)
    (h : s.loadBootloaderControl read use = some (r, s')) : s'.module = s.module := by
  have hdev := device_of_loadBootloaderControl h
  cases hload : s.load read with
  | none =>
    rw [loadBootloaderControl_of_none hdev hload] at h
    cases h
    rfl
  | some c =>
    rw [loadBootloaderControl_of_some hload] at h
    exact huse c h

theorem module_update {s s' : State} {read : Bool} {written : Option Nat}
    {change : BootloaderControl → Option BootloaderControl}
    (h : s.update read written change = some (r, s')) : s'.module = s.module := by
  refine module_loadBootloaderControl (fun c hc => ?_) h
  obtain ⟨c', -, heq⟩ := Option.map_eq_some_iff.mp hc
  cases heq
  rfl

theorem Known.step {s s' : State} (h : Known s) {call : Call} (hs : step s call = some (r, s')) :
    Known s' := by
  have hmodule : s'.module = s.module → Known s' := fun hm => by rwa [Known, hm]
  cases call with
  | init sys =>
    cases hs
    exact h.lazyInitialization sys
  | getNumberSlots | getCurrentSlot | getSuffix =>
    cases hs
    exact h
  | markBootSuccessful => exact hmodule (module_update hs)
  | setActiveBootSlot | setSlotAsUnbootable =>
    rw [BootControl.step] at hs
    split at hs
    · cases hs
      exact h
    · exact hmodule (module_update hs)
  | isSlotBootable | isSlotMarkedSuccessful =>
    rw [BootControl.step] at hs
    split at hs
    · cases hs
      exact h
    · refine hmodule (module_loadBootloaderControl (fun c hc => ?_) hs)
      obtain ⟨k, -, heq⟩ := Option.map_eq_some_iff.mp hc
      cases heq
      rfl

/-- From the first call of `BootControl_init` on, for any partition and any system: all calls of a
run are right if and only if the indices that are not checked are those of slots, and
`markBootSuccessful` has a device. -/
theorem calls_right_iff (misc : Misc) (sys : System) (calls : List Call) :
    Along Right ⟨.start, misc⟩ (.init sys :: calls) ↔
    Along Checked ⟨.start, misc⟩ (.init sys :: calls) :=
  Along.congr (fun _ _ _ _ h hs => h.step hs) right_iff (known_start misc) _

theorem length_updateAndSave (misc : Misc) (buffer : CharArray 32) (written : Option Nat) :
    (updateAndSaveBootloaderControl misc buffer written).2.content.length =
    misc.content.length := by
  unfold updateAndSaveBootloaderControl Misc.writeMiscPartition
  cases written <;> exact Misc.length_put _ _ _

theorem lazyInitialization_start {sys : System} {misc : Misc} (hdev : sys.blkDevice ≠ [])
    (hload : (loadBootloaderControl misc sys.read).isSome) :
    (lazyInitialization sys ⟨.start, misc⟩).module.miscDevice = some sys.blkDevice ∧
      (lazyInitialization sys ⟨.start, misc⟩).module.currentSlot =
      slotSuffixToIndex sys.slotSuffix ∧
      (lazyInitialization sys ⟨.start, misc⟩).misc.content.length = misc.content.length := by
  obtain ⟨block, hblock⟩ := Option.isSome_iff_exists.mp hload
  simp only [lazyInitialization, Module.start, Bool.false_eq_true, if_false, if_neg hdev, hblock]
  split
  · exact ⟨rfl, rfl, rfl⟩
  · exact ⟨rfl, rfl, length_updateAndSave _ _ _⟩

/-- A system without the property. -/
def unsetSystem : System := ⟨[], "/dev/block/misc".toList, fun _ => .noEntry, true, none⟩

def zeroMisc : Misc := ⟨List.replicate 4096 '\x00', 0⟩

/-- Where the property is not set, `markBootSuccessful` accesses an element that is not there. -/
theorem not_calls_right :
    ¬∀ (misc : Misc) (sys : System) (calls : List Call),
    Along Right ⟨.start, misc⟩ (.init sys :: calls) := by
  intro h
  have hright := ((h zeroMisc unsetSystem [.markBootSuccessful true none]).2 _ _ rfl).1
  have hlen : zeroMisc.content.length = 4096 := List.length_replicate
  obtain ⟨hdev, hslot, hmisc⟩ := @lazyInitialization_start unsetSystem zeroMisc (by decide)
    (loadBootloaderControl_isSome.mpr ⟨rfl, by omega⟩)
  obtain ⟨-, hload | hlt⟩ :=
    (right_iff _ _ ((known_start zeroMisc).lazyInitialization unsetSystem)).mp hright
  · rw [State.load, hdev, if_neg (by simp), Option.map_eq_none_iff] at hload
    have hsome :
        (loadBootloaderControl (lazyInitialization unsetSystem ⟨.start, zeroMisc⟩).misc
          true).isSome :=
      loadBootloaderControl_isSome.mpr ⟨rfl, by omega⟩
    rw [hload] at hsome
    cases hsome
  · rw [hslot] at hlt
    exact absurd hlt (by decide)

end BootableRecovery.BootControl
