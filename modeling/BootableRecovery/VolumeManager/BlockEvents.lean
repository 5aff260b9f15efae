import BootableRecovery.LibBase.Strings
import Mathlib.Data.List.Flatten
import Mathlib.Data.List.Nodup

/-!
# Disks and block events

`VolumeManager::handleBlockEvent` with `Disk` and `DiskPartition` of `volume_manager`: which disks
there are and which public volumes they have, after the uevents for disks in any order. A volume is
found by its id, which is made of its device number.

What the system answers while an event is handled (`fnmatch`, sysfs, `sgdisk`) is arbitrary.
-/

namespace BootableRecovery.VolumeManager

/-- `dev_t`, as its major and minor number. -/
structure Dev where
  major : Nat
  minor : Nat
  deriving DecidableEq

/-- `makedev` of two `int`s. -/
def makedev (major minor : Int) : Dev := ⟨(major % 2 ^ 32).toNat, (minor % 2 ^ 32).toNat⟩

/-- The id of a public volume. -/
def volumeId (device : Dev) : Text :=
  "public:".toList ++ toText device.major ++ '_' :: toText device.minor

/-! ## Partition tables -/

/-- The type of a partition table, as `sgdisk` gives it. -/
inductive PartitionTable
  | MBR
  | GPT
  | other
  deriving DecidableEq

/-- `Table` of `Disk.cpp`. -/
inductive Table
  | kUnknown
  | kMbr
  | kGpt
  deriving DecidableEq

/-- A partition, as `sgdisk` gives it. -/
structure Partition where
  num : Int
  type : Text
  guid : Text

/-- What the system answers while the partitions of a disk are read: whether this is the emulator,
the parameters of the loop and of the mmc driver (`errno` where they cannot be read), and the
partition table (`none` if `sgdisk` fails). -/
structure Answers where
  emulator : Bool
  loopMaxPart : Except Nat Text
  mmcMinors : Except Nat Text
  sgdisk : Option (PartitionTable × List Partition)

/-- `kMajorBlockScsiA` to `kMajorBlockScsiP`. -/
def scsiMajors : List Nat := [8, 65, 66, 67, 68, 69, 70, 71, 128, 129, 130, 131, 132, 133, 134, 135]

def isVirtioBlkDevice (a : Answers) (major : Nat) : Bool := a.emulator && 240 ≤ major && major ≤ 254

/-- `Disk::getMaxMinors`. -/
def getMaxMinors (a : Answers) (major : Nat) : Int :=
  if major = 7 then match a.loopMaxPart with
    | .ok tmp => atoi tmp
    | .error errno => -errno
  else if major ∈ scsiMajors then 15
  else if major = 179 then match a.mmcMinors with
    | .ok tmp => atoi tmp
    | .error errno => -errno
  else if isVirtioBlkDevice a major then 15
  -- ENOTSUP
  else -95

/-- The table type: the case of GPT falls through to the default. -/
def tableOf : PartitionTable → Table
  | .MBR => .kMbr
  | .GPT => .kUnknown
  | .other => .kUnknown

/-- The MBR partition types and the GPT partition types for which there is a volume. -/
def hasVolume (table : Table) (part : Partition) : Bool :=
  match table with
  | .kMbr => [0x06, 0x07, 0x0b, 0x0c, 0x0e, 0x83].contains (strtol 16 part.type)
  | .kGpt =>
    ["EBD0A0A2-B9E5-4433-87C0-68B6B72699C7", "0FC63DAF-8483-4772-8E79-3D69D8477DE4"].any fun guid =>
      guid.toList.map Char.toLower = part.guid.map Char.toLower
  | .kUnknown => false

/-! ## Disks -/

/-- A disk: its device, the partition number if it is a `DiskPartition`, and the devices of its
volumes. -/
structure Disk where
  device : Dev
  partNum : Option Int
  volumes : List Dev
  deriving DecidableEq

/-- The device of a partition. -/
def Dev.partition (device : Dev) (num : Int) : Dev := makedev device.major (device.minor + num)

/-- `Disk::getMaxMinors` as the `int8_t` in which `Disk::readPartitions` keeps it. -/
def maxMinors (a : Answers) (device : Dev) : Int := (getMaxMinors a device.major).bmod 256

/-- The partitions for which `Disk::readPartitions` makes a volume. -/
def acceptedPartitions (a : Answers) (device : Dev) (type : PartitionTable)
    (partitions : List Partition) : List Partition :=
  partitions.filter fun part => 0 < part.num ∧ part.num ≤ maxMinors a device ∧
  hasVolume (tableOf type) part

/-- The whole device gets a volume if the table is unknown or has no partitions: `readMetadata`
returns `OK` whatever `blkid` answers. -/
def triesDevice (type : PartitionTable) (partitions : List Partition) : Bool :=
  tableOf type = .kUnknown || partitions.isEmpty

/-- `Disk::readPartitions`. -/
def Disk.readPartitions (a : Answers) (disk : Disk) : Disk :=
  if maxMinors a disk.device < 0 then disk
  else match a.sgdisk with
    | none => { disk with volumes := [] }
    | some (type, partitions) => { disk with
        volumes :=
          (acceptedPartitions a disk.device type partitions).map (fun part =>
            disk.device.partition part.num) ++ if triesDevice type partitions then [disk.device]
              else [] }

/-- `Disk::create` and `DiskPartition::create`. -/
def Disk.create (a : Answers) (disk : Disk) : Disk :=
  match disk.partNum with
  | none => disk.readPartitions a
  | some num => { disk with volumes := disk.volumes ++ [disk.device.partition num] }

/-! ## Events -/

/-- `VolumeManager::DiskSource`. -/
structure DiskSource where
  sysPattern : Text
  partNum : Int

/-- `NetlinkEvent::Action`. -/
inductive Action
  | kAdd
  | kChange
  | kRemove
  | other
  deriving DecidableEq

/-- A block event, with what the system answers for the disk at each position of the list. -/
structure BlockEvent where
  devType : Text
  action : Action
  devPath : Text
  major : Int
  minor : Int
  answers : Nat → Answers

def BlockEvent.device (evt : BlockEvent) : Dev := makedev evt.major evt.minor

/-- The event is about a disk. -/
def BlockEvent.isDisk (evt : BlockEvent) : Bool := evt.devType = "disk".toList

variable (fnmatch : (pattern path : Text) → Bool) (sources : List DiskSource)

/-- The first source that matches the device path. -/
def findSource (evt : BlockEvent) : Option DiskSource :=
  sources.find? fun source => fnmatch source.sysPattern evt.devPath

/-- The disk that is made for a source. -/
def newDisk (evt : BlockEvent) (source : DiskSource) : Disk :=
  Disk.create (evt.answers 0) ⟨evt.device, if source.partNum = -1 then none
    else some source.partNum, []⟩

/-- `VolumeManager::handleBlockEvent`. -/
def handleBlockEvent (mDisks : List Disk) (evt : BlockEvent) : List Disk :=
  if evt.isDisk then
    match evt.action with
    | .kAdd => match findSource fnmatch sources evt with
      | some source => mDisks ++ [newDisk evt source]
      | none => mDisks
    | .kChange => mDisks.mapIdx fun i disk =>
        if disk.device = evt.device then disk.readPartitions (evt.answers i) else disk
    | .kRemove => mDisks.filter fun disk => disk.device ≠ evt.device
    | .other => mDisks
  else mDisks

/-- `VolumeManager::findVolume`. -/
def findVolume (mDisks : List Disk) (id : Text) : Option Dev :=
  (mDisks.flatMap Disk.volumes).find? fun device => volumeId device = id

/-- The disks after some events, from the start of the volume manager. -/
def disksAfter (events : List BlockEvent) : List Disk :=
  events.foldl (handleBlockEvent fnmatch sources) []

/-! ## Ids -/

theorem notMem_toDigits (n : Nat) : '_' ∉ Nat.toDigits 10 n := by
  intro hmem
  have hdigit := isDigit_toDigits hmem
  simp at hdigit

theorem volumeId_eq (device : Dev) : volumeId device =
    "public:".toList ++ (Nat.toDigits 10 device.major ++ '_' :: Nat.toDigits 10 device.minor) :=
  List.append_assoc ..

theorem volumeId_injective : Function.Injective volumeId := by
  rintro ⟨major, minor⟩ ⟨major', minor'⟩ h
  rw [volumeId_eq, volumeId_eq] at h
  have hbody := List.append_cancel_left h
  obtain ⟨hmajor, -, hminor⟩ :=
    (List.append_cons_inj_of_notMem (notMem_toDigits major) (notMem_toDigits minor)).mp hbody
  cases toDigits_injective hmajor
  cases toDigits_injective hminor
  rfl

/-! ## Volumes of a disk -/

/-- The volumes that the partitions of a device make have devices of their own: no two partitions
for which there is a volume have one number, and none of them, nor the whole device if it is tried,
is among some other devices. -/
def Separate (a : Answers) (device : Dev) (others : List Dev) : Prop :=
  0 ≤ maxMinors a device → ∀ type partitions, a.sgdisk = some (type, partitions) →
    ((acceptedPartitions a device type partitions).map Partition.num).Nodup ∧
    (∀ part ∈ acceptedPartitions a device type partitions, device.partition part.num ∉ others) ∧
    (triesDevice type partitions = true → device ∉ others)

theorem maxMinors_le (a : Answers) (device : Dev) : maxMinors a device ≤ 127 := by
  have := Int.bmod_lt (x := getMaxMinors a device.major) (m := 256) (by decide)
  rw [maxMinors]
  omega

theorem partition_injOn {device : Dev} {m n : Int} (hm : 0 < m ∧ m ≤ 127) (hn : 0 < n ∧ n ≤ 127)
    (h : device.partition m = device.partition n) : m = n := by
  simp only [Dev.partition, makedev, Dev.mk.injEq] at h
  omega

theorem acceptedPartitions_of_triesDevice {a : Answers} {device : Dev} {type : PartitionTable}
    {partitions : List Partition} (h : triesDevice type partitions = true) :
    acceptedPartitions a device type partitions = [] := by
  rw [triesDevice, Bool.or_eq_true] at h
  rcases h with h | h
  · refine List.filter_eq_nil_iff.mpr fun part _ => ?_
    rw [of_decide_eq_true h]
    simp [hasVolume]
  · rw [List.isEmpty_iff.mp h]
    rfl

@[simp] theorem readPartitions_device (a : Answers) (disk : Disk) :
    (disk.readPartitions a).device = disk.device := by
  unfold Disk.readPartitions
  split
  · rfl
  · split <;> rfl

@[simp] theorem create_device (a : Answers) (disk : Disk) :
    (disk.create a).device = disk.device := by
  unfold Disk.create
  split
  · exact readPartitions_device a disk
  · rfl

/-- The volumes are distinct and none of them is among the others. -/
def Apart (volumes others : List Dev) : Prop := volumes.Nodup ∧ ∀ v ∈ volumes, v ∉ others

theorem accepted_num {a : Answers} {device : Dev} {type : PartitionTable}
    {partitions : List Partition}
    {part : Partition} (h : part ∈ acceptedPartitions a device type partitions) :
    0 < part.num ∧ part.num ≤ 127 := by
  have haccepted := of_decide_eq_true (List.mem_filter.mp h).2
  exact ⟨haccepted.1, haccepted.2.1.trans (maxMinors_le a device)⟩

/-- The partitions of a device have distinct device numbers just if they have distinct numbers. -/
theorem nodup_partitions {a : Answers} {device : Dev} {type : PartitionTable}
    {partitions : List Partition} :
    ((acceptedPartitions a device type partitions).map fun part =>
      device.partition part.num).Nodup ↔
      ((acceptedPartitions a device type partitions).map Partition.num).Nodup := by
  constructor
  · intro h
    refine List.Nodup.of_map device.partition ?_
    rw [List.map_map]
    exact h
  · intro h
    have hinj := List.inj_on_of_nodup_map h
    refine List.Nodup.map_on (fun x hx y hy hxy => ?_) h.of_map
    exact hinj hx hy (partition_injOn (accepted_num hx) (accepted_num hy) hxy)

/-- After the partitions of a disk are read, its volumes are apart from some others just if the
partitions that the table gives are. -/
theorem apart_readPartitions {a : Answers} {disk : Disk} {others : List Dev}
    (hapart : Apart disk.volumes others) : Apart (disk.readPartitions a).volumes others ↔
    Separate a disk.device others := by
  unfold Disk.readPartitions Separate
  split
  case isTrue hminors => exact iff_of_true hapart fun h => absurd h (Int.not_le.mpr hminors)
  case isFalse hminors =>
    split
    case h_1 hsgdisk =>
      exact iff_of_true ⟨.nil, fun v hv => nomatch hv⟩ fun _ _ _ h => by simp [hsgdisk] at h
    case h_2 type partitions hsgdisk =>
      simp only [hsgdisk, Option.some.injEq, Prod.mk.injEq, and_imp, Int.not_lt.mp hminors,
        forall_const]
      have hparts : Apart ((acceptedPartitions a disk.device type partitions).map fun part =>
            disk.device.partition part.num) others ↔
          ((acceptedPartitions a disk.device type partitions).map Partition.num).Nodup ∧
          ∀ part ∈ acceptedPartitions a disk.device type partitions,
          disk.device.partition part.num ∉ others := by
        rw [Apart, nodup_partitions, List.forall_mem_map]
      cases htries : triesDevice type partitions with
      | true =>
        have hnone : acceptedPartitions a disk.device type partitions = [] :=
          acceptedPartitions_of_triesDevice htries
        simp [Apart, hnone, htries]
      | false =>
        simp only [Bool.false_eq_true, if_false, List.append_nil, hparts]
        simp [htries]

theorem apart_create {a : Answers} {device : Dev} {partNum : Option Int} {others : List Dev} :
    Apart (Disk.create a ⟨device, partNum, []⟩).volumes others ↔
      match partNum with
      | none => Separate a device others
      | some num => device.partition num ∉ others := by
  cases partNum with
  | none => exact apart_readPartitions ⟨.nil, fun v hv => nomatch hv⟩
  | some num => simp [Disk.create, Apart]

/-! ## The list of disks -/

/-- Each device has one disk at most, and each volume id occurs once at most. -/
def Distinct (mDisks : List Disk) : Prop :=
  (mDisks.map Disk.device).Nodup ∧ ((mDisks.flatMap Disk.volumes).map volumeId).Nodup

theorem distinct_cons {disk : Disk} {disks : List Disk} :
    Distinct (disk :: disks) ↔ (∀ other ∈ disks, other.device ≠ disk.device) ∧
      Apart disk.volumes (disks.flatMap Disk.volumes) ∧ Distinct disks := by
  simp only [Distinct, Apart, List.nodup_map_iff volumeId_injective, List.map_cons, List.nodup_cons,
    List.flatMap_cons, List.nodup_append', List.mem_map, not_exists, not_and]
  rw [List.disjoint_left]
  constructor
  · rintro ⟨⟨hother, hdevices⟩, hvolumes, hrest, hapart⟩
    exact ⟨hother, ⟨hvolumes, fun v => @hapart v⟩, hdevices, hrest⟩
  · rintro ⟨hother, ⟨hvolumes, hapart⟩, hdevices, hrest⟩
    exact ⟨⟨hother, hdevices⟩, hvolumes, hrest, fun v => hapart v⟩

theorem distinct_middle {disk : Disk} {before after : List Disk} :
    Distinct (before ++ disk :: after) ↔ (∀ other ∈ before ++ after, other.device ≠ disk.device) ∧
      Apart disk.volumes ((before ++ after).flatMap Disk.volumes) ∧ Distinct (before ++ after) := by
  rw [← distinct_cons]
  have hperm : (before ++ disk :: after).Perm (disk :: (before ++ after)) := List.perm_middle
  exact and_congr (hperm.map _).nodup_iff ((hperm.flatMap_right _).map _).nodup_iff

/-- The condition on an event: a disk is added only for a device that has none, and the partitions
that the table of an added or changed disk gives are apart from the volumes of the other disks. -/
def Guard (mDisks : List Disk) (evt : BlockEvent) : Prop :=
  evt.isDisk = true →
    match evt.action with
    | .kAdd => ∀ source, findSource fnmatch sources evt = some source →
        (∀ disk ∈ mDisks, disk.device ≠ evt.device) ∧
        if source.partNum =
        -1 then Separate (evt.answers 0) evt.device (mDisks.flatMap Disk.volumes)
        else evt.device.partition source.partNum ∉ mDisks.flatMap Disk.volumes
    | .kChange => ∀ i disk, mDisks[i]? = some disk → disk.device = evt.device →
        Separate (evt.answers i) evt.device
          ((mDisks.filter fun disk => disk.device ≠ evt.device).flatMap Disk.volumes)
    | .kRemove => True
    | .other => True

theorem distinct_add {mDisks : List Disk} {evt : BlockEvent} {source : DiskSource}
    (h : Distinct mDisks) : Distinct (mDisks ++ [newDisk evt source]) ↔
    (∀ disk ∈ mDisks, disk.device ≠ evt.device) ∧
      if source.partNum = -1 then Separate (evt.answers 0) evt.device (mDisks.flatMap Disk.volumes)
      else evt.device.partition source.partNum ∉ mDisks.flatMap Disk.volumes := by
  rw [distinct_middle, List.append_nil, newDisk, apart_create, create_device]
  split <;> simp [h]

theorem mapIdx_of_ne {device : Dev} {mDisks : List Disk} (answers : Nat → Answers)
    (h : ∀ disk ∈ mDisks, disk.device ≠ device) :
    mDisks.mapIdx (fun i disk => if disk.device = device then disk.readPartitions (answers i)
      else disk) = mDisks := by
  refine List.ext_getElem (List.length_mapIdx ..) fun i _ hi => ?_
  rw [List.getElem_mapIdx, if_neg (h _ (List.getElem_mem hi))]

theorem mapIdx_change {disk : Disk} {before after : List Disk} (answers : Nat → Answers)
    (hothers : ∀ other ∈ before ++ after, other.device ≠ disk.device) :
    (before ++ disk :: after).mapIdx
    (fun i d => if d.device = disk.device then d.readPartitions (answers i) else d) =
      before ++ disk.readPartitions (answers before.length) :: after := by
  rw [List.mapIdx_append, List.mapIdx_cons, if_pos rfl, Nat.zero_add,
    mapIdx_of_ne answers fun other hother => hothers other (List.mem_append_left _ hother)]
  congr 2
  exact mapIdx_of_ne (fun i => answers (i + 1 + before.length)) fun other hother =>
    hothers other (List.mem_append_right _ hother)

theorem only_disk {disk other : Disk} {before after : List Disk} {i : Nat}
    (hothers : ∀ other ∈ before ++ after, other.device ≠ disk.device)
    (hother : (before ++ disk :: after)[i]? = some other) (hdevice : other.device = disk.device) :
    i = before.length := by
  rcases Nat.lt_trichotomy i before.length with hlt | heq | hgt
  · rw [List.getElem?_append_left hlt] at hother
    exact absurd hdevice (hothers other (List.mem_append_left _ (List.mem_of_getElem? hother)))
  · exact heq
  · obtain ⟨k, rfl⟩ := Nat.exists_eq_add_of_lt hgt
    rw [List.getElem?_append_right (by omega),
      show before.length + k + 1 - before.length = k + 1 by omega,
      List.getElem?_cons_succ] at hother
    exact absurd hdevice (hothers other (List.mem_append_right _ (List.mem_of_getElem? hother)))

theorem distinct_change {mDisks : List Disk} {evt : BlockEvent} (h : Distinct mDisks) :
    Distinct (mDisks.mapIdx fun i disk =>
      if disk.device = evt.device then disk.readPartitions (evt.answers i) else disk) ↔
      ∀ i disk, mDisks[i]? = some disk → disk.device = evt.device →
      Separate (evt.answers i) evt.device
        ((mDisks.filter fun disk => disk.device ≠ evt.device).flatMap Disk.volumes) := by
  by_cases hmem : ∃ disk ∈ mDisks, disk.device = evt.device
  · obtain ⟨disk, hdisk, hdevice⟩ := hmem
    obtain ⟨before, after, rfl⟩ := List.append_of_mem hdisk
    obtain ⟨hothers, hapart, hrest⟩ := distinct_middle.mp h
    have hfilter : (before ++ disk :: after).filter (fun d => d.device ≠ disk.device) =
        before ++ after := by
      rw [List.filter_append, List.filter_cons_of_neg (by simp), ← List.filter_append]
      exact List.filter_eq_self.mpr fun other hother => decide_eq_true (hothers other hother)
    rw [← hdevice, mapIdx_change evt.answers hothers, hfilter, distinct_middle,
      readPartitions_device, apart_readPartitions hapart]
    constructor
    · rintro ⟨-, hseparate, -⟩ i other hother hsame
      rw [only_disk hothers hother hsame]
      exact hseparate
    · intro hseparate
      exact ⟨hothers, hseparate before.length disk (by simp) rfl, hrest⟩
  · rw [mapIdx_of_ne evt.answers fun disk hdisk hdevice => hmem ⟨disk, hdisk, hdevice⟩]
    exact iff_of_true h fun i disk hdisk hdevice =>
      absurd ⟨disk, List.mem_of_getElem? hdisk, hdevice⟩ hmem

theorem distinct_remove {mDisks : List Disk} (h : Distinct mDisks) (keep : Disk → Bool) :
    Distinct (mDisks.filter keep) := by
  have hsub : (mDisks.filter keep).Sublist mDisks := List.filter_sublist
  exact ⟨h.1.sublist (hsub.map _), h.2.sublist ((hsub.flatMap _).map _)⟩

/-- A step from a list of distinct disks leads to one just if the event meets the condition. -/
theorem distinct_handleBlockEvent {mDisks : List Disk} {evt : BlockEvent} (h : Distinct mDisks) :
    Distinct (handleBlockEvent fnmatch sources mDisks evt) ↔ Guard fnmatch sources mDisks evt := by
  unfold handleBlockEvent Guard
  cases evt.isDisk with
  | false => simpa using h
  | true =>
    simp only [if_true, forall_const]
    cases evt.action with
    | kAdd =>
      cases hsource : findSource fnmatch sources evt with
      | none => simpa using h
      | some source => simpa using distinct_add h
    | kChange => exact distinct_change h
    | kRemove => exact iff_of_true (distinct_remove h _) trivial
    | other => exact iff_of_true h trivial

/-! ## Runs -/

/-- What holds after an event: the disks are distinct, and after a remove event there is no disk of
the device, and none of the volumes is found that it had. -/
def Settled (mDisks : List Disk) (evt : BlockEvent) : Prop :=
  Distinct (handleBlockEvent fnmatch sources mDisks evt) ∧
  (evt.isDisk = true → evt.action = .kRemove →
    (∀ disk ∈ handleBlockEvent fnmatch sources mDisks evt, disk.device ≠ evt.device) ∧
    ∀ disk ∈ mDisks, disk.device = evt.device → ∀ v ∈ disk.volumes,
      findVolume (handleBlockEvent fnmatch sources mDisks evt) (volumeId v) = none)

theorem findVolume_eq_none {mDisks : List Disk} {v : Dev} (h : v ∉ mDisks.flatMap Disk.volumes) :
    findVolume mDisks (volumeId v) = none := by
  refine List.find?_eq_none.mpr fun device hdevice hid => h ?_
  rw [← volumeId_injective (of_decide_eq_true hid)]
  exact hdevice

theorem settled_iff {mDisks : List Disk} {evt : BlockEvent} (h : Distinct mDisks) :
    Settled fnmatch sources mDisks evt ↔ Guard fnmatch sources mDisks evt := by
  rw [← distinct_handleBlockEvent fnmatch sources h]
  refine ⟨And.left, fun hdistinct => ⟨hdistinct, fun hisDisk hremove => ?_⟩⟩
  have heq : handleBlockEvent fnmatch sources mDisks evt = mDisks.filter fun disk =>
      disk.device ≠ evt.device := by
    rw [handleBlockEvent, if_pos hisDisk, hremove]
  rw [heq]
  refine ⟨fun disk hdisk => of_decide_eq_true (List.mem_filter.mp hdisk).2,
    fun disk hdisk hdevice v hv => ?_⟩
  refine findVolume_eq_none fun hleft => ?_
  obtain ⟨other, hother, hvother⟩ := List.mem_flatMap.mp hleft
  -- the volume of a disk that is left would be a volume of two disks
  obtain ⟨hmem, hne⟩ := List.mem_filter.mp hother
  obtain ⟨before, after, rfl⟩ := List.append_of_mem hdisk
  obtain ⟨-, hapart, -⟩ := distinct_middle.mp h
  refine hapart.2 v hv (List.mem_flatMap.mpr ⟨other, ?_, hvother⟩)
  rcases List.mem_append.mp hmem with hbefore | hafter
  · exact List.mem_append_left _ hbefore
  · rcases List.mem_cons.mp hafter with rfl | hafter
    · exact absurd hdevice (of_decide_eq_true hne)
    · exact List.mem_append_right _ hafter

theorem disksAfter_concat (events : List BlockEvent) (evt : BlockEvent) :
    disksAfter fnmatch sources (events ++ [evt]) =
      handleBlockEvent fnmatch sources (disksAfter fnmatch sources events) evt :=
  List.foldl_concat ..

theorem distinct_nil : Distinct [] := ⟨.nil, .nil⟩

theorem distinct_disksAfter (events : List BlockEvent)
    (h : ∀ before evt, before ++ [evt] <+: events →
      Guard fnmatch sources (disksAfter fnmatch sources before) evt) :
      Distinct (disksAfter fnmatch sources events) := by
  induction events using List.reverseRecOn with
  | nil => exact distinct_nil
  | append_singleton events evt ih =>
    rw [disksAfter_concat, distinct_handleBlockEvent]
    · exact h events evt List.prefix_rfl
    · exact ih fun before evt' hpre => h before evt' (hpre.trans (List.prefix_append ..))

/-- After any events from the start, everything is settled after each just if each met the
condition. -/
theorem settled_run_iff (events : List BlockEvent) :
    (∀ before evt, before ++ [evt] <+: events →
      Settled fnmatch sources (disksAfter fnmatch sources before) evt) ↔
      ∀ before evt, before ++ [evt] <+: events →
      Guard fnmatch sources (disksAfter fnmatch sources before) evt := by
  constructor
  · intro h before evt hpre
    refine (settled_iff fnmatch sources ?_).mp (h before evt hpre)
    rcases List.eq_nil_or_concat' before with rfl | ⟨init, last, rfl⟩
    · exact distinct_nil
    · rw [disksAfter_concat]
      exact (h init last ((List.prefix_append ..).trans hpre)).1
  · intro h before evt hpre
    refine (settled_iff fnmatch sources ?_).mpr (h before evt hpre)
    exact distinct_disksAfter fnmatch sources before fun init last hinit =>
      h init last (hinit.trans ((List.prefix_append ..).trans hpre))

/-- A card with one partition that is added twice. -/
def cardAdded : BlockEvent :=
  ⟨"disk".toList, .kAdd, "/devices/sda".toList, 8, 0,
    fun _ => ⟨false, .error 2, .error 2, some (.MBR, [⟨1, ['0', 'c'], []⟩])⟩⟩

theorem not_settled_cardAdded : ¬ ∀ before evt, before ++ [evt] <+: [cardAdded, cardAdded] →
    Settled (fun _ _ => true) [⟨['*'], -1⟩] (disksAfter (fun _ _ => true) [⟨['*'], -1⟩] before)
    evt := by
  intro h
  have hdistinct : [(⟨8, 0⟩ : Dev), ⟨8, 0⟩].Nodup := (h [cardAdded] cardAdded List.prefix_rfl).1.1
  exact absurd hdistinct (by decide)

end BootableRecovery.VolumeManager
