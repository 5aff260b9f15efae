import BootableRecovery.BootloaderMessage.MiscLayout
import Mathlib.Data.Fin.Tuple.Basic
import Mathlib.Data.Fintype.Basic
import Mathlib.Tactic.FinCases

/-!
# The boot control module

`boot_control/boot_control.cpp`: the A/B control block on the misc partition with its packed fields,
the state of the module, and the calls that the system makes. An access to `slot_info` outside of
its four elements has no result, and neither has the message that streams a null pointer.
-/

namespace BootableRecovery.BootControl

/-! ## The control block -/

abbrev Byte := BitVec 8

structure SlotMetadata where
  priority : BitVec 4
  triesRemaining : BitVec 3
  successfulBoot : BitVec 1
  verityCorrupted : BitVec 1
  reserved : BitVec 7
  deriving DecidableEq

abbrev kMaxNumSlots : Nat := 4

/-- `bootloader_control`. The two bits of its byte 9 that no field has are in `padding`. -/
structure BootloaderControl where
  slotSuffix : Fin 4 → Byte
  magic : Fin 4 → Byte
  version : Byte
  nbSlot : BitVec 3
  recoveryTriesRemaining : BitVec 3
  padding : BitVec 2
  reserved0 : Fin 2 → Byte
  slotInfo : Fin kMaxNumSlots → SlotMetadata
  reserved1 : Fin 8 → Byte
  crc32Le : Fin 4 → Byte

/-- The two bytes of a `slot_metadata`, the first field in the lowest bits. -/
def SlotMetadata.bytes (m : SlotMetadata) : List Byte :=
  [m.successfulBoot ++ m.triesRemaining ++ m.priority, m.reserved ++ m.verityCorrupted]

def SlotMetadata.ofBytes (a b : Byte) : SlotMetadata where
  priority := a.extractLsb' 0 4
  triesRemaining := a.extractLsb' 4 3
  successfulBoot := a.extractLsb' 7 1
  verityCorrupted := b.extractLsb' 0 1
  reserved := b.extractLsb' 1 7

theorem SlotMetadata.ofBytes_bytes (m : SlotMetadata) :
    SlotMetadata.ofBytes (m.successfulBoot ++ m.triesRemaining ++ m.priority)
    (m.reserved ++ m.verityCorrupted) = m := by
  obtain ⟨p, t, s, v, r⟩ := m
  rw [ofBytes, mk.injEq]
  refine ⟨?_, ?_, ?_, ?_, ?_⟩
  · rw [BitVec.extractLsb'_append_eq_of_add_le le_rfl, BitVec.extractLsb'_eq_self]
  · rw [BitVec.extractLsb'_append_eq_of_le le_rfl, BitVec.extractLsb'_append_eq_of_add_le le_rfl,
      BitVec.extractLsb'_eq_self]
  · rw [BitVec.extractLsb'_append_eq_of_le (by decide), BitVec.extractLsb'_append_eq_of_le le_rfl,
      BitVec.extractLsb'_eq_self]
  · rw [BitVec.extractLsb'_append_eq_of_add_le le_rfl, BitVec.extractLsb'_eq_self]
  · rw [BitVec.extractLsb'_append_eq_of_le le_rfl, BitVec.extractLsb'_eq_self]

/-- A byte of the partition. -/
def byteOf (c : Char) : Byte := BitVec.ofNat 8 c.toNat

def charOf (b : Byte) : Char := Char.ofNat b.toNat

theorem byteOf_charOf (b : Byte) : byteOf (charOf b) = b := by
  have hvalid : b.toNat.isValidChar := .inl (by have := b.isLt; omega)
  have htoNat : (Char.ofNat b.toNat).toNat = b.toNat := by
    rw [Char.ofNat, dif_pos hvalid]
    rfl
  rw [byteOf, charOf, htoNat, BitVec.ofNat_toNat, BitVec.setWidth_eq]

namespace BootloaderControl

/-- The bytes of a field at an offset. -/
def bytesAt (block : List Char) (offset n : Nat) (i : Fin n) : Byte :=
  byteOf (block.getD (offset + i) '\x00')

/-- The fields in the 32 bytes of a block. -/
def decode (block : CharArray 32) : BootloaderControl where
  slotSuffix := bytesAt block.toList 0 4
  magic := bytesAt block.toList 4 4
  version := bytesAt block.toList 8 1 0
  nbSlot := (bytesAt block.toList 9 1 0).extractLsb' 0 3
  recoveryTriesRemaining := (bytesAt block.toList 9 1 0).extractLsb' 3 3
  padding := (bytesAt block.toList 9 1 0).extractLsb' 6 2
  reserved0 := bytesAt block.toList 10 2
  slotInfo i :=
    .ofBytes (bytesAt block.toList (12 + 2 * i) 2 0) (bytesAt block.toList (12 + 2 * i) 2 1)
  reserved1 := bytesAt block.toList 20 8
  crc32Le := bytesAt block.toList 28 4

/-- The bytes of a block with these fields. -/
def bytes (c : BootloaderControl) : List Byte :=
  List.ofFn c.slotSuffix ++ List.ofFn c.magic ++
    [c.version, c.padding ++ c.recoveryTriesRemaining ++ c.nbSlot] ++ List.ofFn c.reserved0 ++
    (List.ofFn c.slotInfo).flatMap SlotMetadata.bytes ++ List.ofFn c.reserved1 ++
    List.ofFn c.crc32Le

theorem length_bytes (c : BootloaderControl) : c.bytes.length = 32 := by
  simp [bytes, SlotMetadata.bytes]

def encode (c : BootloaderControl) : CharArray 32 :=
  ⟨c.bytes.map charOf, by rw [List.length_map, length_bytes]⟩

theorem bytesAt_encode (c : BootloaderControl) {offset n : Nat} (i : Fin n) (h : offset + i < 32) :
    bytesAt c.encode.toList offset n i =
    c.bytes.get ⟨offset + i, by rw [length_bytes]; exact h⟩ := by
  have hlt : offset + i < (c.bytes.map charOf).length := by rwa [List.length_map, length_bytes]
  show byteOf ((c.bytes.map charOf).getD (offset + i) '\x00') = _
  rw [List.getD_eq_getElem?_getD, List.getElem?_eq_getElem hlt, Option.getD_some, List.getElem_map,
    byteOf_charOf, List.get_eq_getElem]

theorem decode_encode (c : BootloaderControl) : decode c.encode = c := by
  obtain ⟨suffix, magic, version, nb, tries, padding, res0, slots, res1, crc⟩ := c
  simp only [decode, mk.injEq]
  refine ⟨?_, ?_, ?_, ?_, ?_, ?_, ?_, ?_, ?_, ?_⟩
  · funext i
    rw [bytesAt_encode _ _ (by omega)]
    fin_cases i <;> rfl
  · funext i
    rw [bytesAt_encode _ _ (by omega)]
    fin_cases i <;> rfl
  · exact bytesAt_encode _ 0 (by decide)
  · rw [bytesAt_encode _ _ (by decide)]
    exact (BitVec.extractLsb'_append_eq_of_add_le le_rfl).trans BitVec.extractLsb'_eq_self
  · rw [bytesAt_encode _ _ (by decide)]
    show BitVec.extractLsb' 3 3 (padding ++ tries ++ nb) = tries
    rw [BitVec.extractLsb'_append_eq_of_le le_rfl]
    exact (BitVec.extractLsb'_append_eq_of_add_le le_rfl).trans BitVec.extractLsb'_eq_self
  · rw [bytesAt_encode _ _ (by decide)]
    show BitVec.extractLsb' 6 2 (padding ++ tries ++ nb) = padding
    rw [BitVec.extractLsb'_append_eq_of_le (by decide), BitVec.extractLsb'_append_eq_of_le le_rfl]
    exact BitVec.extractLsb'_eq_self
  · funext i
    rw [bytesAt_encode _ _ (by omega)]
    fin_cases i <;> rfl
  · funext i
    rw [bytesAt_encode _ _ (by decide +revert), bytesAt_encode _ _ (by decide +revert)]
    fin_cases i <;> exact SlotMetadata.ofBytes_bytes _
  · funext i
    rw [bytesAt_encode _ _ (by omega)]
    fin_cases i <;> rfl
  · funext i
    rw [bytesAt_encode _ _ (by omega)]
    fin_cases i <;> rfl

end BootloaderControl

/-! ## The module -/

/-- `boot_control_private_t`. -/
structure Module where
  initialized : Bool
  miscDevice : Option Text
  numSlots : Nat
  currentSlot : Nat

/-- The module as it is loaded. -/
def Module.start : Module := ⟨false, none, 0, 0⟩

/-- The module and the partition. -/
structure State where
  module : Module
  misc : Misc

/-- What `stat` says of a path. -/
inductive Stat
  | found | noEntry | failed
  deriving DecidableEq

/-- The system at a call of `BootControl_init`: the property `ro.boot.slot_suffix`, which is empty
if it is not set, the path of the misc device, which is empty if it is not found, `stat`, and what
the calls on the device do. -/
structure System where
  slotSuffix : Text
  blkDevice : Text
  stat : Text → Stat
  read : Bool
  written : Option Nat

def kSlotSuffixes (slot : Fin kMaxNumSlots) : Text := ['_', Char.ofNat ('a'.toNat + slot)]

/-- `SlotSuffixToIndex`, as it is stored in an `unsigned int`. -/
def slotSuffixToIndex (suffix : Text) : Nat :=
  match (List.finRange kMaxNumSlots).find? fun slot => kSlotSuffixes slot = cstr suffix with
  | some slot => slot
  | none => 2 ^ 32 - 1

/-- The loop of `InitDefaultBootloaderControl` that looks for boot partitions: the last slot that
has one and the first that has none. -/
def findSlots (stat : Text → Stat) (basePath : Text) :
    Option (Fin kMaxNumSlots) × Option (Fin kMaxNumSlots) :=
  (List.finRange kMaxNumSlots).foldl (fun r slot =>
    match stat (basePath ++ kSlotSuffixes slot) with
    | .found => (some slot, r.2)
    | .noEntry => (r.1, if r.2.isNone then some slot else r.2)
    | .failed => r) (none, none)

/-- The number of slots that `InitDefaultBootloaderControl` finds. -/
def countSlots (stat : Text → Stat) (miscDevice : Text) : Nat :=
  if '/' ∉ miscDevice then kMaxNumSlots
  else
    let dir := miscDevice.rdropWhile (· ≠ '/')
    match findSlots stat (dir ++ "boot".toList) with
    | (some last, some missing) => if last.val + 1 = missing.val then last + 1 else kMaxNumSlots
    | (some last, none) => if last.val + 1 = kMaxNumSlots then last + 1 else kMaxNumSlots
    | (none, _) => kMaxNumSlots

/-- `InitDefaultBootloaderControl`, with the CRC left to what is written. -/
def initDefaultBootloaderControl (currentSlot : Nat) (stat : Text → Stat) (miscDevice : Text) :
    BootloaderControl :=
  let nbSlot := countSlots stat miscDevice
  { slotSuffix := fun i => if h : currentSlot < kMaxNumSlots then
      byteOf ((kSlotSuffixes ⟨currentSlot, h⟩).getD i '\x00') else 0
    magic := fun i => BitVec.ofNat 8 (0x42414342 / 256 ^ i.val)
    version := 1
    nbSlot := BitVec.ofNat 3 nbSlot
    recoveryTriesRemaining := 0
    padding := 0
    reserved0 := fun _ => 0
    slotInfo := fun slot =>
      { priority := if slot < nbSlot then 7 else 0
        triesRemaining := if slot < nbSlot then 7 else 0
        successfulBoot := if currentSlot = slot then 1 else 0
        verityCorrupted := 0
        reserved := 0 }
    reserved1 := fun _ => 0
    crc32Le := fun _ => 0 }

/-- The block that `LoadBootloaderControl` reads, where `read` says that the device can be read. -/
def State.load (s : State) (read : Bool) : Option BootloaderControl :=
  if s.module.miscDevice.isNone then none
  else (loadBootloaderControl s.misc read).map BootloaderControl.decode

theorem loadBootloaderControl_isSome {misc : Misc} {read : Bool} :
    (loadBootloaderControl misc read).isSome ↔ read ∧ 2080 ≤ misc.content.length := by
  have hlen : ((misc.content.drop kBootloaderControlOffset).take 32).length = 32 ↔
      2080 ≤ misc.content.length := by
    rw [List.length_take, List.length_drop, kBootloaderControlOffset]
    omega
  rw [← hlen]
  unfold loadBootloaderControl
  dsimp only
  split
  · rename_i h
    exact iff_of_true rfl h
  · rename_i h
    exact iff_of_false Bool.false_ne_true h

/-- `UpdateAndSaveBootloaderControl`, where `written` is the number of bytes that reach the device
before a system call fails: the result of a call that ends with it. -/
def State.save (s : State) (bootctrl : BootloaderControl) (written : Option Nat) : Int × State :=
  let r := updateAndSaveBootloaderControl s.misc bootctrl.encode written
  (if r.1 then 0 else -1, { s with misc := r.2 })

/-- `BootControl_lazyInitialization`. -/
def lazyInitialization (sys : System) (s : State) : State :=
  if s.module.initialized then s
  else
    let currentSlot := slotSuffixToIndex sys.slotSuffix
    let s := { s with module.currentSlot := currentSlot }
    if sys.blkDevice = [] then s
    else
      match loadBootloaderControl s.misc sys.read with
      | none => s
      | some block =>
        if withCrc block = block then
          { s with module :=
            ⟨true, some sys.blkDevice, (BootloaderControl.decode block).nbSlot.toNat, currentSlot⟩ }
        else
          let bootctrl := initDefaultBootloaderControl currentSlot sys.stat sys.blkDevice
          { module := ⟨true, some sys.blkDevice, bootctrl.nbSlot.toNat, currentSlot⟩
            misc := (updateAndSaveBootloaderControl s.misc bootctrl.encode sys.written).2 }

/-! ## The calls -/

/-- The element `i` of an array of `kMaxNumSlots` elements. -/
def index (i : Nat) : Option (Fin kMaxNumSlots) :=
  if h : i < kMaxNumSlots then some ⟨i, h⟩ else none

/-- A call of the module. `slot` is the argument, `read` and `written` are as above. -/
inductive Call
  | init (sys : System)
  | getNumberSlots
  | getCurrentSlot
  | markBootSuccessful (read : Bool) (written : Option Nat)
  | setActiveBootSlot (slot : Nat) (read : Bool) (written : Option Nat)
  | setSlotAsUnbootable (slot : Nat) (read : Bool) (written : Option Nat)
  | isSlotBootable (slot : Nat) (read : Bool)
  | getSuffix (slot : Nat)
  | isSlotMarkedSuccessful (slot : Nat) (read : Bool)

/-- What a call returns. -/
inductive Reply
  | done
  | number (n : Nat)
  | code (r : Int)
  | suffix (s : Option Text)
  deriving DecidableEq

/-- A change of one element of `slot_info`. -/
def BootloaderControl.modify (c : BootloaderControl) (k : Fin kMaxNumSlots)
    (f : SlotMetadata → SlotMetadata) : BootloaderControl :=
  { c with slotInfo := Function.update c.slotInfo k (f (c.slotInfo k)) }

/-- The loop of `BootControl_setActiveBootSlot`, over the slots `is`. -/
def lowerOthers (slot : Nat) : (is : List Nat) → BootloaderControl → Option BootloaderControl
  | [], c => some c
  | i :: is, c =>
    if i = slot then lowerOthers slot is c
    else
      match index i with
      | none => none
      | some k =>
        lowerOthers slot is <|
          if (c.slotInfo k).priority ≥ 15 then c.modify k fun m => { m with priority := 14 } else c

/-- The changes of `BootControl_markBootSuccessful`. -/
def markSuccessful (k : Fin kMaxNumSlots) (c : BootloaderControl) : BootloaderControl :=
  c.modify k fun m => { m with successfulBoot := 1, triesRemaining := 1 }

/-- The changes of `BootControl_setActiveBootSlot` to the slot itself. -/
def activate (currentSlot : Nat) (k : Fin kMaxNumSlots) (c : BootloaderControl) :
    BootloaderControl :=
  c.modify k fun m =>
    { m with
      priority := 15
      triesRemaining := 6
      verityCorrupted := if k.val ≠ currentSlot then 0 else m.verityCorrupted }

/-- All changes of `BootControl_setActiveBootSlot`. -/
def Module.setActive (m : Module) (slot : Nat) (bootctrl : BootloaderControl) :
    Option BootloaderControl :=
  (lowerOthers slot (List.range m.numSlots) bootctrl).bind fun bootctrl =>
  (index slot).map fun k => activate m.currentSlot k bootctrl

/-- The changes of `BootControl_setSlotAsUnbootable`. -/
def makeUnbootable (k : Fin kMaxNumSlots) (c : BootloaderControl) : BootloaderControl :=
  c.modify k fun m => { m with successfulBoot := 0, triesRemaining := 0 }

/-- The number of a slot that is an argument is checked. -/
def State.invalid (s : State) (slot : Nat) : Bool := slot ≥ kMaxNumSlots || slot ≥ s.module.numSlots

/-- `LoadBootloaderControl` in a call, which returns if it fails and goes on with the block
otherwise. As long as no device has been found, `misc_device` is a null pointer: `open` fails, and
the message about that streams it. -/
def State.loadBootloaderControl (s : State) (read : Bool)
    (use : BootloaderControl → Option (Reply × State)) : Option (Reply × State) :=
  if s.module.miscDevice.isNone then none
  else
    match s.load read with
    | none => some (.code (-1), s)
    | some bootctrl => use bootctrl

theorem loadBootloaderControl_of_none {s : State} {read : Bool}
    {use : BootloaderControl → Option (Reply × State)}
    (hdev : s.module.miscDevice ≠ none) (hload : s.load read = none) :
    s.loadBootloaderControl read use = some (.code (-1), s) := by
  rw [State.loadBootloaderControl, if_neg (by simpa using hdev), hload]

theorem loadBootloaderControl_of_some {s : State} {read : Bool} {c : BootloaderControl}
    {use : BootloaderControl → Option (Reply × State)} (hload : s.load read = some c) :
    s.loadBootloaderControl read use = use c := by
  have hdev : ¬s.module.miscDevice.isNone = true := by
    intro hnone
    rw [State.load, if_pos hnone] at hload
    cases hload
  rw [State.loadBootloaderControl, if_neg hdev, hload]

theorem device_of_loadBootloaderControl {s : State} {read : Bool}
    {use : BootloaderControl → Option (Reply × State)}
    {r : Reply × State} (h : s.loadBootloaderControl read use = some r) :
    s.module.miscDevice ≠ none := by
  intro hnone
  rw [State.loadBootloaderControl, if_pos (by simp [hnone])] at h
  cases h

/-- The call stores a changed block. -/
def State.update (s : State) (read : Bool) (written : Option Nat)
    (change : BootloaderControl → Option BootloaderControl) : Option (Reply × State) :=
  s.loadBootloaderControl read fun bootctrl =>
    (change bootctrl).map fun bootctrl =>
      (.code (s.save bootctrl written).1, (s.save bootctrl written).2)

/-- A call, with what it returns and the state behind it; no result if it accesses `slot_info`
outside of its elements, or streams a null pointer. -/
def step (s : State) : Call → Option (Reply × State)
  | .init sys => some (.done, lazyInitialization sys s)
  | .getNumberSlots => some (.number s.module.numSlots, s)
  | .getCurrentSlot => some (.number s.module.currentSlot, s)
  | .markBootSuccessful read written =>
    s.update read written fun bootctrl => (index s.module.currentSlot).map fun k =>
      markSuccessful k bootctrl
  | .setActiveBootSlot slot read written =>
    if s.invalid slot then some (.code (-1), s)
    else s.update read written (s.module.setActive slot)
  | .setSlotAsUnbootable slot read written =>
    if s.invalid slot then some (.code (-1), s)
    else s.update read written fun bootctrl => (index slot).map fun k => makeUnbootable k bootctrl
  | .isSlotBootable slot read =>
    if s.invalid slot then some (.code (-1), s)
    else s.loadBootloaderControl read fun bootctrl =>
      (index slot).map fun k => (.code (bootctrl.slotInfo k).triesRemaining.toNat, s)
  | .getSuffix slot =>
    some (.suffix (if s.invalid slot then none else (index slot).map kSlotSuffixes), s)
  | .isSlotMarkedSuccessful slot read =>
    if s.invalid slot then some (.code (-1), s)
    else s.loadBootloaderControl read fun bootctrl => (index slot).map fun k =>
        (.code (if (bootctrl.slotInfo k).successfulBoot ≠ 0 ∧
          (bootctrl.slotInfo k).triesRemaining ≠ 0 then 1 else 0), s)

end BootableRecovery.BootControl
