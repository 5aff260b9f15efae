import BootableRecovery.BootloaderMessage.Message
import Mathlib.Logic.Function.Iterate

/-!
# Who writes where on the misc partition

The bootloader message is at an offset that a board may configure, the wipe package 16K after it,
and the A/B control block of `boot_control/boot_control.cpp` at a fixed offset.
`clear_bootloader_message` clears the start of the partition if the configured offset is less than
the size of a message.
-/

namespace BootableRecovery

namespace Misc

def clearBootloaderMessage (misc : Misc) (written : Option Nat) : Bool × Misc :=
  if misc.offset < 2048 then misc.writeMiscPartition BootloaderMessage.zero.bytes 0 written
  else misc.writeBootloaderMessage .zero written

def writeWipePackage (misc : Misc) (packageData : List Char) (written : Option Nat) : Bool × Misc :=
  misc.writeMiscPartition packageData (16 * 1024 + misc.offset) written

end Misc

namespace BootControl

/-- The offset of `slot_suffix` in `bootloader_message_ab`. -/
def kBootloaderControlOffset : Nat := 2048

/-- An entry of the table of `CRC32`. -/
def crcTable (i : UInt32) : UInt32 :=
  (fun crc : UInt32 => (crc >>> 1) ^^^ (0xEDB88320 &&& (0 - (crc &&& 1))))^[8] i

def crc32 (buf : List Char) : UInt32 :=
  ~~~ buf.foldl (fun ret c => (ret >>> 8) ^^^ crcTable ((ret ^^^ UInt32.ofNat c.toNat) &&& 0xFF))
  0xFFFFFFFF

example : crc32 ['1', '2', '3', '4', '5', '6', '7', '8', '9'] = 0xCBF43926 := by decide +kernel

/-- A `bootloader_control` with the CRC of its first 28 bytes, in little-endian order. -/
def withCrc (buffer : CharArray 32) : CharArray 32 :=
  let crc := (crc32 (buffer.toList.take 28)).toNat
  ⟨buffer.toList.take 28 ++ (List.range 4).map fun i => Char.ofNat (crc / 256 ^ i % 256), by simp⟩

/-- `LoadBootloaderControl`, where `ok` says that the device can be read. -/
def loadBootloaderControl (misc : Misc) (ok : Bool) : Option (CharArray 32) :=
  let b := (misc.content.drop kBootloaderControlOffset).take 32
  if h : ok ∧ b.length = 32 then some ⟨b, h.2⟩ else none

/-- `UpdateAndSaveBootloaderControl`, with which every function of the module writes. -/
def updateAndSaveBootloaderControl (misc : Misc) (buffer : CharArray 32) (written : Option Nat) :
    Bool × Misc :=
  misc.writeMiscPartition (withCrc buffer).toList kBootloaderControlOffset written

end BootControl

/-! ## Regions of the partition -/

namespace Misc

theorem getElem?_put (misc : Misc) (offset : Nat) (data : List Char) (i : Nat) :
    (misc.put offset data).content[i]? =
      if offset ≤ i ∧ i < offset + data.length ∧ i < misc.content.length then data[i - offset]?
      else misc.content[i]? := by
  rw [put, List.getElem?_take]
  rcases Nat.lt_or_ge i misc.content.length with hlt | hge
  · rw [if_pos hlt]
    have hmin : (misc.content.take offset).length = min offset misc.content.length :=
      List.length_take
    rcases Nat.lt_or_ge i offset with h | h
    · rw [if_neg (by omega), List.append_assoc, List.getElem?_append_left (by omega),
        List.getElem?_take_of_lt h]
    · rw [List.append_assoc, List.getElem?_append_right (by omega), hmin]
      rcases Nat.lt_or_ge i (offset + data.length) with h' | h'
      · rw [if_pos ⟨h, h', hlt⟩, List.getElem?_append_left (by omega)]
        congr 1
        omega
      · rw [if_neg (by omega), List.getElem?_append_right (by omega), List.getElem?_drop]
        congr 1
        omega
  · rw [if_neg (Nat.not_lt.mpr hge), if_neg (by omega), List.getElem?_eq_none hge]

/-- The bytes of a region. -/
def region (misc : Misc) (start len : Nat) : List Char := (misc.content.drop start).take len

theorem region_put_of_disjoint {misc : Misc} {offset start len : Nat} {data : List Char}
    (h : start + len ≤ offset ∨ offset + data.length ≤ start) :
    (misc.put offset data).region start len = misc.region start len := by
  apply List.ext_getElem?
  intro i
  rw [region, region, List.getElem?_take, List.getElem?_take, List.getElem?_drop,
    List.getElem?_drop]
  rcases Nat.lt_or_ge i len with hi | hi
  · rw [if_pos hi, if_pos hi, getElem?_put, if_neg (by omega)]
  · rw [if_neg (Nat.not_lt.mpr hi), if_neg (Nat.not_lt.mpr hi)]

theorem region_writeMiscPartition {misc : Misc} {offset start len : Nat} {data : List Char}
    (h : start + len ≤ offset ∨ offset + data.length ≤ start) (written : Option Nat) :
    (misc.writeMiscPartition data offset written).2.region start len = misc.region start len := by
  unfold writeMiscPartition
  split
  · apply region_put_of_disjoint
    rw [List.length_take]
    omega
  · exact region_put_of_disjoint h

theorem bytes_zero : BootloaderMessage.zero.bytes = List.replicate 2048 '\x00' := by
  have hzero : ∀ n c, c ∈ (CharArray.zero n).toList → c = '\x00' :=
    fun _ _ => List.eq_of_mem_replicate
  apply List.eq_replicate_iff.mpr
  refine ⟨BootloaderMessage.length_bytes _, ?_⟩
  intro c hc
  simp only [BootloaderMessage.bytes, BootloaderMessage.zero, List.mem_append] at hc
  rcases hc with hc | hc | hc | hc | hc <;> exact hzero _ c hc

/-! ## The layout -/

/-- What the functions have to keep if the message is at an offset: a cleared message is read as
zeros, and neither of message, wipe package and control block is written to another's place. -/
structure LayoutKept (offset : Nat) : Prop where
  clear_read : ∀ (misc misc' : Misc) (written : Option Nat), misc.offset = offset →
    misc.clearBootloaderMessage written = (true, misc') →
    misc'.readBootloaderMessage true = some .zero
  write_control :
    ∀ (misc : Misc) (boot : BootloaderMessage) (written : Option Nat), misc.offset = offset →
    (misc.writeBootloaderMessage boot written).2.region BootControl.kBootloaderControlOffset 32 =
      misc.region BootControl.kBootloaderControlOffset 32
  clear_control : ∀ (misc : Misc) (written : Option Nat), misc.offset = offset →
    (misc.clearBootloaderMessage written).2.region BootControl.kBootloaderControlOffset 32 =
      misc.region BootControl.kBootloaderControlOffset 32
  wipe_control :
    ∀ (misc : Misc) (packageData : List Char) (written : Option Nat), misc.offset = offset →
    (misc.writeWipePackage packageData written).2.region BootControl.kBootloaderControlOffset 32 =
      misc.region BootControl.kBootloaderControlOffset 32
  control_message :
    ∀ (misc : Misc) (buffer : CharArray 32) (written : Option Nat), misc.offset = offset →
    (BootControl.updateAndSaveBootloaderControl misc buffer written).2.region offset 2048 =
      misc.region offset 2048

theorem not_write_control {offset : Nat} (hpos : 0 < offset) (hlt : offset < 2080) :
    ∃ (misc : Misc) (boot : BootloaderMessage), misc.offset = offset ∧
      (misc.writeBootloaderMessage boot none).2.region BootControl.kBootloaderControlOffset 32 ≠
        misc.region BootControl.kBootloaderControlOffset 32 := by
  refine ⟨⟨List.replicate 8192 'x', offset⟩, .zero, rfl, ?_⟩
  intro h
  -- the first byte that both ranges have
  have hi := congrArg (·[max offset 2048 - 2048]?) h
  simp only [region, List.getElem?_take, List.getElem?_drop, writeBootloaderMessage,
    writeMiscPartition, BootControl.kBootloaderControlOffset, getElem?_put,
    BootloaderMessage.length_bytes, List.length_replicate] at hi
  have hmax : 2048 + (max offset 2048 - 2048) = max offset 2048 := by omega
  rw [if_pos (by omega), if_pos (by omega), hmax, if_pos (by omega), bytes_zero,
    List.getElem?_replicate, if_pos (by omega), List.getElem?_replicate, if_pos (by omega)] at hi
  exact absurd hi (by decide)

/-- The functions keep to their places exactly if the message is at the start of the partition or
after the control block. -/
theorem layoutKept_iff (offset : Nat) : LayoutKept offset ↔ offset = 0 ∨ 2080 ≤ offset := by
  constructor
  · intro h
    by_contra hne
    obtain ⟨misc, boot, hoff, hw⟩ := @not_write_control offset (by omega) (by omega)
    exact hw (h.write_control misc boot none hoff)
  intro h
  have hcontrol : BootControl.kBootloaderControlOffset = 2048 := rfl
  have hwrite :
      ∀ (misc : Misc) (boot : BootloaderMessage) (written : Option Nat), misc.offset = offset →
      (misc.writeBootloaderMessage boot written).2.region BootControl.kBootloaderControlOffset 32 =
        misc.region BootControl.kBootloaderControlOffset 32 := by
    intro misc boot written hoff
    apply region_writeMiscPartition
    rw [BootloaderMessage.length_bytes]
    omega
  constructor
  case clear_read =>
    intro misc misc' written hoff hclear
    rw [clearBootloaderMessage] at hclear
    rcases h with rfl | h
    · have hread : misc.writeBootloaderMessage .zero written = (true, misc') := by
        rw [writeBootloaderMessage, hoff]
        rwa [if_pos (by omega)] at hclear
      exact read_write hread
    · rw [if_neg (by omega)] at hclear
      exact read_write hclear
  case write_control => exact hwrite
  case clear_control =>
    intro misc written hoff
    rw [clearBootloaderMessage]
    split
    · apply region_writeMiscPartition
      rw [BootloaderMessage.length_bytes]
      omega
    · exact hwrite misc .zero written hoff
  case wipe_control =>
    intro misc packageData written hoff
    apply region_writeMiscPartition
    omega
  case control_message =>
    intro misc buffer written hoff
    apply region_writeMiscPartition
    rw [List.Vector.toList_length]
    omega

/-- A message 64 bytes into the partition reaches over the control block. -/
theorem not_layoutKept : ¬ LayoutKept 64 := by
  intro h
  obtain ⟨misc, boot, hoff, hw⟩ := @not_write_control 64 (by decide) (by decide)
  exact hw (h.write_control misc boot none hoff)

end Misc

end BootableRecovery
