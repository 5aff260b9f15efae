import BootableRecovery.VolumeManager.BlockEvents

/-!
# Scanning a partition table

The volumes of a disk after `Disk::readPartitions`. The case of GPT has no `break`, so that a GPT
table counts as unknown; and the maximum of the partition numbers is kept as an `int8_t`.
-/

namespace BootableRecovery.VolumeManager

/-! ## What a table asks for -/

/-- The partitions of a table for which there are volumes: by their type on MBR, by their GUID on
GPT. -/
def listed : PartitionTable → Partition → Bool
  | .MBR, part => hasVolume .kMbr part
  | .GPT, part => hasVolume .kGpt part
  | .other, _ => false

/-- The listed partitions with a number up to a maximum. -/
def wanted (max : Int) (type : PartitionTable) (partitions : List Partition) : List Partition :=
  partitions.filter fun part => 0 < part.num ∧ part.num ≤ max ∧ listed type part

/-- The whole device may have a volume if the table is of another type or has no partitions. -/
def MayTryDevice (type : PartitionTable) (partitions : List Partition) : Prop :=
  type = .other ∨ partitions = []

/-- The volumes of a device: one for each partition that is wanted, and for the device itself where
this may be. -/
def Exact (max : Int) (device : Dev) (type : PartitionTable) (partitions : List Partition)
    (volumes : List Dev) : Prop :=
  volumes = (wanted max type partitions).map (fun part => device.partition part.num) ∨
    MayTryDevice type partitions ∧
      volumes = (wanted max type partitions).map (fun part => device.partition part.num) ++ [device]

/-- After `Disk::readPartitions` the volumes are those that the table asks for, for a maximum that
is known and a table that is read. -/
def Scanned (a : Answers) (disk : Disk) : Prop :=
  0 ≤ getMaxMinors a disk.device.major → ∀ type partitions, a.sgdisk = some (type, partitions) →
    Exact (getMaxMinors a disk.device.major) disk.device type partitions
    (disk.readPartitions a).volumes

/-- The number of a partition is an `int`. -/
def IntNumbers (a : Answers) : Prop :=
  ∀ type partitions, a.sgdisk = some (type, partitions) → ∀ part ∈ partitions, part.num < 2 ^ 31

/-- The condition of a scan. A maximum that is negative as an `int8_t` leaves the volumes as they
were. Otherwise, on MBR no listed partition is between the maximum as an `int8_t` and the maximum;
and on GPT there are no partitions. -/
def ScanGuard (a : Answers) (disk : Disk) : Prop :=
  0 ≤ getMaxMinors a disk.device.major → ∀ type partitions, a.sgdisk = some (type, partitions) →
    if maxMinors a disk.device < 0 then
      Exact (getMaxMinors a disk.device.major) disk.device type partitions disk.volumes
    else
      match type with
      | .MBR =>
        ∀ part ∈ wanted (getMaxMinors a disk.device.major) .MBR partitions, part.num ≤
          maxMinors a disk.device
      | .GPT => partitions = []
      | .other => True

/-! ## The scan of a type -/

section
variable {max : Int} {partitions : List Partition}

theorem wanted_nil (type : PartitionTable) : wanted max type [] = [] := rfl

theorem wanted_other : wanted max .other partitions = [] := by
  refine List.filter_eq_nil_iff.mpr fun part _ => ?_
  simp [listed]

theorem wanted_eq_filter {type : PartitionTable} {small : Int} (h : small ≤ max) :
    wanted small type partitions = (wanted max type partitions).filter fun part =>
    part.num ≤ small := by
  rw [wanted, wanted, List.filter_filter]
  refine List.filter_congr fun part _ => ?_
  rw [Bool.eq_iff_iff]
  simp only [decide_eq_true_eq, Bool.and_eq_true]
  constructor
  · rintro ⟨hpos, hle, hlisted⟩
    exact ⟨hle, hpos, hle.trans h, hlisted⟩
  · rintro ⟨hle, hpos, -, hlisted⟩
    exact ⟨hpos, hle, hlisted⟩

theorem partition_ne {device : Dev} {num : Int} (hpos : 0 < num) (hlt : num < 2 ^ 31) :
    device.partition num ≠ device := by
  intro h
  have hminor := congrArg Dev.minor h
  simp only [Dev.partition, makedev] at hminor
  omega

end

theorem maxMinors_le_getMaxMinors {a : Answers} {device : Dev}
    (h : 0 ≤ getMaxMinors a device.major) : maxMinors a device ≤ getMaxMinors a device.major := by
  rw [maxMinors, Int.bmod_eq_emod]
  split <;> omega

/-! ## The scan -/

section
variable {max small : Int} {device : Dev} {partitions : List Partition}

theorem exact_mbr_iff (h : small ≤ max) :
    Exact max device .MBR partitions
    ((wanted small .MBR partitions).map (fun part => device.partition part.num) ++
        if partitions.isEmpty then [device] else []) ↔
      ∀ part ∈ wanted max .MBR partitions, part.num ≤ small := by
  have hfilter := @wanted_eq_filter _ partitions .MBR _ h
  rcases eq_or_ne partitions [] with rfl | hne
  · refine iff_of_true (.inr ⟨.inr rfl, ?_⟩) fun part hpart => nomatch hpart
    rw [wanted_nil, wanted_nil]
    rfl
  · have htry : ¬MayTryDevice .MBR partitions := fun h => h.elim (fun h => nomatch h) hne
    rw [List.isEmpty_eq_false_iff.mpr hne, if_neg Bool.false_ne_true, List.append_nil, Exact]
    constructor
    · rintro (hvolumes | ⟨h, -⟩)
      · have hlen := congrArg List.length hvolumes
        rw [List.length_map, List.length_map, hfilter, List.length_filter_eq_length_iff] at hlen
        exact fun part hpart => of_decide_eq_true (hlen part hpart)
      · exact absurd h htry
    · intro hall
      rw [hfilter, List.filter_eq_self.mpr fun part hpart => decide_eq_true (hall part hpart)]
      exact .inl rfl

theorem exact_gpt_iff (h : ∀ part ∈ partitions, part.num < 2 ^ 31) :
    Exact max device .GPT partitions [device] ↔ partitions = [] := by
  constructor
  · rintro (hvolumes | ⟨htry, -⟩)
    · have hmem : device ∈ (wanted max .GPT partitions).map fun part =>
          device.partition part.num := by
        rw [← hvolumes]
        exact List.mem_singleton_self _
      obtain ⟨part, hpart, hdevice⟩ := List.mem_map.mp hmem
      obtain ⟨hmem, hpos⟩ := List.mem_filter.mp hpart
      exact absurd hdevice (partition_ne (of_decide_eq_true hpos).1 (h part hmem))
    · exact htry.resolve_left (by simp)
  · rintro rfl
    exact .inr ⟨.inr rfl, rfl⟩

theorem exact_other : Exact max device .other partitions [device] := by
  rw [Exact, wanted_other]
  exact .inr ⟨.inl rfl, rfl⟩

end

/-- The volumes after a scan are those that the table asks for, just on the condition. -/
theorem scanned_iff (a : Answers) (disk : Disk) (hnum : IntNumbers a) : Scanned a disk ↔
    ScanGuard a disk := by
  refine forall_congr' fun hmax => forall_congr' fun type => forall_congr' fun partitions =>
    forall_congr' fun hsgdisk => ?_
  have hle := maxMinors_le_getMaxMinors hmax
  rw [Disk.readPartitions]
  split
  · exact Iff.rfl
  · rw [hsgdisk]
    dsimp only
    cases type with
    | MBR => exact exact_mbr_iff hle
    | GPT =>
      rw [acceptedPartitions_of_triesDevice rfl, List.map_nil, List.nil_append]
      exact exact_gpt_iff (hnum _ _ hsgdisk)
    | other =>
      rw [acceptedPartitions_of_triesDevice rfl, List.map_nil, List.nil_append]
      exact iff_of_true exact_other trivial

/-- A card with one Linux partition. -/
def linuxCard (type : PartitionTable) : Answers where
  emulator := false
  loopMaxPart := .error 2
  mmcMinors := .ok "8".toList
  sgdisk := some (type, [⟨1, "83".toList, "0FC63DAF-8483-4772-8E79-3D69D8477DE4".toList⟩])

theorem intNumbers_linuxCard (type : PartitionTable) : IntNumbers (linuxCard type) := by
  rintro _ _ h part hpart
  cases h
  cases List.mem_singleton.mp hpart
  decide

theorem scanned_iff_linuxCard : Scanned (linuxCard .MBR) ⟨⟨179, 0⟩, none, []⟩ := by
  refine (scanned_iff _ _ (intNumbers_linuxCard .MBR)).mpr fun _ type partitions h => ?_
  cases h
  rw [if_neg (by decide)]
  show ∀ part ∈ wanted _ _ _, part.num ≤ _
  decide

theorem not_scanned : ¬∀ a disk, IntNumbers a → Scanned a disk := by
  intro h
  have hguard := (scanned_iff _ _ (intNumbers_linuxCard .GPT)).mp
    (h _ ⟨⟨179, 0⟩, none, []⟩ (intNumbers_linuxCard .GPT)) (by decide) _ _ rfl
  rw [if_neg (by decide)] at hguard
  cases hguard

end BootableRecovery.VolumeManager
