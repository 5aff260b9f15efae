import BootableRecovery.LibBase.Strings
import Mathlib.Data.Vector.Basic

/-!
# The bootloader message

`bootloader_message` of `bootloader_message/bootloader_message.h`, with the functions of
`bootloader_message.cpp` that read and update it on the misc partition. A field is a `char` array of
a fixed size; the functions of the C library that fill one are defined here.
-/

namespace BootableRecovery

/-- A `char` array of `n` bytes. -/
abbrev CharArray (n : Nat) := List.Vector Char n

namespace CharArray

/-- `memset(…, 0, …)`. -/
def zero (n : Nat) : CharArray n := List.Vector.replicate n '\x00'

/-- The bytes after `strlcpy(dst, src, n)`, where `dst` has `n` bytes. -/
def copied (dst : List Char) (src : Text) : List Char :=
  if dst = [] then []
  else (cstr src).take (dst.length - 1) ++
    '\x00' :: dst.drop (((cstr src).take (dst.length - 1)).length + 1)

@[simp] theorem length_copied (dst : List Char) (src : Text) :
    (copied dst src).length = dst.length := by
  unfold copied
  split
  · simp [*]
  · rename_i h
    have := List.length_pos_iff.mpr h
    simp only [List.length_append, List.length_take, List.length_cons, List.length_drop]
    omega

/-- `strlcpy` into the whole array. -/
def strlcpy (dst : CharArray n) (src : Text) : CharArray n :=
  ⟨copied dst.toList src, by simp⟩

/-- `strlcat` to the whole array: nothing happens if the array has no NUL. -/
def strlcat (dst : CharArray n) (src : Text) : CharArray n :=
  let d := cstr dst.toList
  ⟨d ++ copied (dst.toList.drop d.length) src, by
    have hd : d.length ≤ dst.toList.length := (List.takeWhile_sublist _).length_le
    have hn : dst.toList.length = n := dst.toList_length
    rw [List.length_append, length_copied, List.length_drop]
    omega⟩

/-- The array that holds as much of a text as fits, filled up with NULs. -/
def holding (n : Nat) (t : Text) : List Char :=
  t.take (n - 1) ++ List.replicate (n - (t.take (n - 1)).length) '\x00'

theorem cstr_holding {t : Text} (h : '\x00' ∉ t) (n : Nat) :
    cstr (holding n t) = t.take (n - 1) :=
  cstr_append_zeros (fun hm => h (List.mem_of_mem_take hm)) _

theorem strlcat_holding {dst : CharArray n} {t s : Text} (hn : 0 < n) (ht : '\x00' ∉ t)
    (hs : '\x00' ∉ s) (h : dst.toList = holding n t) :
    (strlcat dst s).toList = holding n (t ++ s) := by
  have hlen : (t.take (n - 1)).length ≤ n - 1 := by
    rw [List.length_take]
    omega
  have hdrop : (holding n t).drop (t.take (n - 1)).length =
      List.replicate (n - (t.take (n - 1)).length) '\x00' := by
    rw [holding, List.drop_left]
  have hne : List.replicate (n - (t.take (n - 1)).length) '\x00' ≠ [] := by
    rw [Ne, List.replicate_eq_nil_iff]
    omega
  have hroom : n - (t.take (n - 1)).length - 1 = n - 1 - t.length := by
    rw [List.length_take]
    omega
  change cstr dst.toList ++ copied (dst.toList.drop (cstr dst.toList).length) s = _
  rw [h, cstr_holding ht, hdrop, copied, if_neg hne, cstr_eq_self hs, List.length_replicate,
    List.drop_replicate, ← List.replicate_succ, hroom]
  rw [holding, List.take_append, ← List.append_assoc]
  congr 2
  rw [List.length_append, List.length_take, List.length_take]
  omega

theorem strlcpy_zero (hn : 0 < n) {s : Text} (hs : '\x00' ∉ s) :
    (strlcpy (zero n) s).toList = holding n s := by
  have hz : (zero n).toList = List.replicate n '\x00' := rfl
  have hne : List.replicate n '\x00' ≠ [] := by
    rw [Ne, List.replicate_eq_nil_iff]
    omega
  change copied (zero n).toList s = _
  rw [hz, copied, if_neg hne, cstr_eq_self hs, List.length_replicate, List.drop_replicate,
    ← List.replicate_succ, holding]
  congr 2
  rw [List.length_take]
  omega

end CharArray

/-! ## The message on the misc partition -/

structure BootloaderMessage where
  command : CharArray 32
  status : CharArray 32
  recovery : CharArray 768
  stage : CharArray 32
  reserved : CharArray 1184

namespace BootloaderMessage

/-- `bootloader_message boot = {}`. -/
def zero : BootloaderMessage where
  command := .zero _
  status := .zero _
  recovery := .zero _
  stage := .zero _
  reserved := .zero _

/-- The bytes of the structure. -/
def bytes (boot : BootloaderMessage) : List Char :=
  boot.command.toList ++ (boot.status.toList ++ (boot.recovery.toList ++
    (boot.stage.toList ++ boot.reserved.toList)))

/-- The structure in 2048 bytes. -/
def ofBytes (b : List Char) (h : b.length = 2048) : BootloaderMessage where
  command := ⟨b.take 32, by simp [h]⟩
  status := ⟨(b.drop 32).take 32, by simp [h]⟩
  recovery := ⟨(b.drop 64).take 768, by simp [h]⟩
  stage := ⟨(b.drop 832).take 32, by simp [h]⟩
  reserved := ⟨(b.drop 864).take 1184, by simp [h]⟩

@[simp] theorem length_bytes (boot : BootloaderMessage) : boot.bytes.length = 2048 := by
  simp [bytes]

@[simp] theorem ofBytes_bytes (boot : BootloaderMessage) :
    ofBytes boot.bytes boot.length_bytes = boot := by
  obtain ⟨⟨c, hc⟩, ⟨s, hs⟩, ⟨r, hr⟩, ⟨g, hg⟩, ⟨v, hv⟩⟩ := boot
  unfold ofBytes
  congr 1 <;> apply Subtype.ext <;>
    simp [bytes, List.Vector.toList, List.drop_append, List.drop_eq_nil_of_le,
      List.take_of_length_le, hc, hs, hr, hg, hv]

/-- One line for each option, in `update_bootloader_message_in_struct`. -/
def appendOption (recovery : CharArray 768) (s : Text) : CharArray 768 :=
  let recovery := recovery.strlcat s
  if s.getLast? ≠ some '\n' then recovery.strlcat ['\n'] else recovery

/-- `update_bootloader_message_in_struct`. -/
def updateInStruct (boot : BootloaderMessage) (options : List Text) : BootloaderMessage :=
  { boot with
    command := (CharArray.zero 32).strlcpy "boot-recovery".toList
    recovery := options.foldl appendOption ((CharArray.zero 768).strlcpy "recovery\n".toList) }

/-- What the recovery field is to hold for these options. -/
def encode (options : List Text) : Text :=
  "recovery\n".toList ++ options.flatMap (· ++ ['\n'])

end BootloaderMessage

/-- The misc partition: its bytes, and the offset `BOARD_RECOVERY_BLDRMSG_OFFSET` of the message. -/
structure Misc where
  content : List Char
  offset : Nat

namespace Misc

/-- `read_bootloader_message`, where `ok` says that the device is found and can be read. -/
def readBootloaderMessage (misc : Misc) (ok : Bool) : Option BootloaderMessage :=
  let b := (misc.content.drop misc.offset).take 2048
  if h : ok ∧ b.length = 2048 then some (.ofBytes b h.2) else none

/-- The partition after some bytes were written at an offset, as far as they fit on it. -/
def put (misc : Misc) (offset : Nat) (data : List Char) : Misc := { misc with
  content := (misc.content.take offset ++ data ++ misc.content.drop (offset + data.length)).take
    misc.content.length }

/-- `write_misc_partition`: whether it succeeded, and the partition after it. `written` is the
number of bytes that reach the device before a system call fails, `none` if none fails. -/
def writeMiscPartition (misc : Misc) (data : List Char) (offset : Nat) (written : Option Nat) :
    Bool × Misc :=
  match written with
  | some n => (false, misc.put offset (data.take n))
  | none => (decide (offset + data.length ≤ misc.content.length), misc.put offset data)

def writeBootloaderMessage (misc : Misc) (boot : BootloaderMessage) (written : Option Nat) :
    Bool × Misc :=
  misc.writeMiscPartition boot.bytes misc.offset written

def updateBootloaderMessage (misc : Misc) (options : List Text) (readOk : Bool)
    (written : Option Nat) : Bool × Misc :=
  match misc.readBootloaderMessage readOk with
  | none => (false, misc)
  | some boot => misc.writeBootloaderMessage (boot.updateInStruct options) written

@[simp] theorem put_offset (misc : Misc) (offset : Nat) (data : List Char) :
    (misc.put offset data).offset = misc.offset := rfl

@[simp] theorem length_put (misc : Misc) (offset : Nat) (data : List Char) :
    (misc.put offset data).content.length = misc.content.length := by
  simp only [put, List.length_take, List.length_append, List.length_drop]
  omega

theorem put_self {misc : Misc} {offset : Nat} {data : List Char}
    (h : offset + data.length ≤ misc.content.length) :
    ((misc.put offset data).content.drop offset).take data.length = data := by
  have hlen : (misc.content.take offset).length = offset := by
    rw [List.length_take]
    omega
  have hfits :
      (misc.content.take offset ++ data ++ misc.content.drop (offset + data.length)).length =
      misc.content.length := by
    simp only [List.length_append, List.length_take, List.length_drop]
    omega
  rw [put, List.take_of_length_le (Nat.le_of_eq hfits), List.append_assoc, List.drop_left' hlen,
    List.take_left]

theorem writeMiscPartition_eq_true {misc misc' : Misc} {offset : Nat}
    (h : misc.writeMiscPartition data offset written = (true, misc')) :
    misc' = misc.put offset data ∧ offset + data.length ≤ misc.content.length := by
  unfold writeMiscPartition at h
  split at h
  · simp at h
  · rw [Prod.mk.injEq, decide_eq_true_iff] at h
    exact ⟨h.2.symm, h.1⟩

theorem read_write {misc misc' : Misc}
    (h : misc.writeBootloaderMessage boot written = (true, misc')) :
    misc'.readBootloaderMessage true = some boot := by
  obtain ⟨rfl, hle⟩ := writeMiscPartition_eq_true h
  have hget := put_self hle
  rw [BootloaderMessage.length_bytes] at hget
  simp [readBootloaderMessage, hget]

end Misc

namespace BootloaderMessage

/-- The recovery field after an update: the lines of the options, cut where the field is full. -/
theorem recovery_updateInStruct (boot : BootloaderMessage) {options : List Text}
    (hnul : ∀ s ∈ options, '\x00' ∉ s) (hline : ∀ s ∈ options, '\n' ∉ s) :
    (boot.updateInStruct options).recovery.toList = CharArray.holding 768 (encode options) := by
  -- over the options, with the text that the field holds so far
  have key : ∀ (recovery : CharArray 768) (t : Text), '\x00' ∉ t →
      recovery.toList = CharArray.holding 768 t →
      (options.foldl appendOption recovery).toList =
        CharArray.holding 768 (t ++ options.flatMap (· ++ ['\n'])) := by
    induction options with
    | nil => intro recovery t _ h; simpa using h
    | cons s options ih =>
      intro recovery t ht h
      have hs := hnul s List.mem_cons_self
      have hlast : s.getLast? ≠ some '\n' := fun hl =>
        hline s List.mem_cons_self (List.mem_of_getLast? hl)
      have hts : '\x00' ∉ t ++ s := by simp [ht, hs]
      have h' : (appendOption recovery s).toList = CharArray.holding 768 (t ++ s ++ ['\n']) := by
        simp only [appendOption, hlast, ne_eq, not_false_eq_true, if_true]
        exact CharArray.strlcat_holding (by decide) hts (by decide)
          (CharArray.strlcat_holding (by decide) ht hs h)
      rw [List.foldl_cons, ih (fun s hs => hnul s (List.mem_cons_of_mem _ hs))
        (fun s hs => hline s (List.mem_cons_of_mem _ hs)) _ _ (by simp [ht, hs]) h']
      simp
  exact key _ _ (by decide) (CharArray.strlcpy_zero (by decide) (by decide))

end BootloaderMessage

end BootableRecovery
