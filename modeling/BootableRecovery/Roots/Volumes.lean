import BootableRecovery.LibBase.Strings

/-!
# Volumes and mounts

The volumes of `roots.cpp`, how they are found for a path, and how they are unmounted with
`mounts.cpp`. A mount point may have several mounts on it, of which the last one is on top.
-/

namespace BootableRecovery.Roots

/-- `struct fstab_rec`; `voldmanaged` is what `fs_mgr_is_voldmanaged` says of it. -/
structure Volume where
  blkDevice : Text
  mountPoint : Text
  fsType : Text
  length : Int
  keyLoc : Option Text
  label : Option Text
  voldmanaged : Bool
  logicalBlkSize : Nat
  eraseBlkSize : Nat
  length_ge : -2 ^ 63 ≤ length
  length_lt : length < 2 ^ 63
  deriving DecidableEq

structure MountedVolume where
  device : Text
  mountPoint : Text
  filesystem : Text
  flags : Text
  deriving DecidableEq

/-- What `fstat` and `get_block_device_size` say of a file. -/
inductive FileStat
  | regular (size : Fin (2 ^ 63))
  | block (size : Fin (2 ^ 64))
  | other
  | fails

def FileStat.size : FileStat → Nat
  | .regular size => size
  | .block size => size
  | _ => 0

/-- The state of the device and the outcome of the system calls. `entries` are the volumes for which
`fs_mgr_get_entry_for_mount_point` and `_after` look: those with exactly this mount point, one after
the other. `mounts` is the mount table, `procMounts` whether it can be read, and `unmounts` whether
a mount point that is in it can be unmounted. `wipes` says whether `wipe_block_device` changes
anything in a file that `get_file_size` measures. -/
structure World where
  fstab : List Volume
  entries : Text → List Volume
  exact : ∀ path, ∀ v ∈ entries path, v ∈ fstab ∧ v.mountPoint = path
  detectedFsType : Text → Option Text
  mounts : List MountedVolume
  procMounts : Bool
  unmounts : (detach : Bool) → Text → Bool
  opensRead : Text → Bool
  opensWrite : Text → Bool
  stat : Text → FileStat
  wipes : Text → Bool
  exec : List Text → Nat
  cryptFooterOffset : Fin (2 ^ 63)

namespace World

variable (w : World)

def getEntryForMountPointDetectFs (path : Text) : Option Volume :=
  match w.entries path with
  | [] => none
  | rec :: recs =>
    if rec.fsType = "ext4".toList ∨ rec.fsType = "f2fs".toList ∨ rec.fsType = "vfat".toList then
      match w.detectedFsType rec.blkDevice with
      | none => some rec
      | some detected => some (((rec :: recs).find? fun v => v.fsType = detected).getD rec)
    else some rec

/-- The path without its last part: `substr(0, slash)`, or `/`. -/
def parent (str : Text) : Text :=
  match ((str.reverse.dropWhile (· ≠ '/')).drop 1).reverse with
  | [] => ['/']
  | dir => dir

/-- The loop of `volume_for_path`. -/
def volumeFrom : (fuel : Nat) → Text → Option Volume
  | 0, _ => none
  | fuel + 1, str =>
    match w.getEntryForMountPointDetectFs str with
    | some v => some v
    | none => if str = ['/'] ∨ '/' ∉ str then none else volumeFrom fuel (parent str)

def volumeForPath (path : Text) : Option Volume :=
  if path = [] then none else w.volumeFrom (path.length + 1) path

def volumeForLabel (label : Text) : Option Volume := w.fstab.find? fun v => v.label = some label

/-- The volume that `ensure_path_unmounted` unmounts: below `/storage/` it has the next part of the
path as its label. -/
def volumeToUnmount (path : Text) : Option Volume :=
  if "/storage/".toList <+: path then w.volumeForLabel ((path.drop 9).takeWhile (· ≠ '/'))
  else w.volumeForPath path

/-- `umount2`: the topmost mount is removed, or there is none, or it fails. -/
def umount (detach : Bool) (mountPoint : Text) : Int × List MountedVolume :=
  if (∃ m ∈ w.mounts, m.mountPoint = mountPoint) ∧ w.unmounts detach mountPoint = true then
    (0, (w.mounts.reverse.eraseP fun m => m.mountPoint = mountPoint).reverse)
  else (-1, w.mounts)

/-- `ensure_volume_unmounted`, with `unmount_mounted_volume`: the code, and the mount table after
it. -/
def ensureVolumeUnmounted (v : Option Volume) (detach : Bool) : Int × List MountedVolume :=
  match v with
  | none => (-1, w.mounts)
  | some v =>
    if v.fsType = "ramdisk".toList then (-1, w.mounts)
    else if w.procMounts = false then (-1, w.mounts)
    else
      match w.mounts.find? fun m => m.mountPoint = v.mountPoint with
      | none => (0, w.mounts)
      | some mv => w.umount detach mv.mountPoint

def ensurePathUnmounted (path : Text) (detach : Bool) : Int × List MountedVolume :=
  w.ensureVolumeUnmounted (w.volumeToUnmount path) detach

end World

end BootableRecovery.Roots
