import BootableRecovery.Theory.System
import Mathlib.Data.Nat.Basic

/-!
# Public volumes

`VolumeBase` and `PublicVolume` of `volume_manager`, with `ForceUnmount` and the functions that
mount a file system of each type. What the system answers to the calls of one operation is in
`Kernel`; `mounts` counts how often the file system is mounted at the path of the volume.
-/

namespace BootableRecovery.VolumeManager

/-- `status_t`. -/
inductive Status
  | OK
  | BAD_VALUE
  | NO_INIT
  | EBUSY
  | EIO
  | errno
  deriving DecidableEq

/-- `VolumeBase::State`. -/
inductive State
  | kUnmounted
  | kChecking
  | kMounted
  | kMountedReadOnly
  | kEjecting
  | kUnmountable
  | kRemoved
  | kBadRemoval
  deriving DecidableEq

/-- The file systems that `PublicVolume::doMount` tells apart. -/
inductive FsType
  | exfat
  | ext4
  | f2fs
  | ntfs
  | vfat
  | other
  deriving DecidableEq

/-- What `mount` answers. -/
inductive MountAnswer
  | ok
  | erofs
  | error
  deriving DecidableEq

/-- What `umount2` answers for a mounted file system. -/
inductive UmountAnswer
  | ok
  | einval
  | enoent
  | error
  deriving DecidableEq

/-- What the system answers during one operation: to `mknod` and `unlink` of the device node, to
`blkid` (`none` if it finds no type), to `IsFilesystemSupported`, `fs_prepare_dir` and the file
system check, to the mount and the unmounts with which the check of ext4 starts, to the first and to
the second `mount`, to the start of the mount program for NTFS and to that program's own mount, and
to each `umount2`. -/
structure Kernel where
  mknod : Bool
  unlink : Bool
  fsType : Option FsType
  supported : Bool
  prepareDir : Bool
  check : Bool
  trialMount : Bool
  trialUmount : Nat → Bool
  mount : MountAnswer
  mountAgain : MountAnswer
  fork : Bool
  helperMounts : Bool
  umount : Nat → UmountAnswer

/-- A volume, with its device node and the mounts of its file system. -/
structure Volume where
  created : Bool
  state : State
  mountable : Bool
  fsType : FsType
  node : Bool
  mounts : Nat
  deriving DecidableEq

/-- A new volume. -/
def Volume.init (fsType : FsType) : Volume where
  created := false
  state := .kUnmounted
  mountable := false
  fsType := fsType
  node := false
  mounts := 0

variable (k : Kernel)

/-! ## Unmounting -/

/-- The tries of `ForceUnmount` from the `i`-th on. A file system that is not mounted gives
`EINVAL`. -/
def umountLoop (answer : Nat → UmountAnswer) : (tries i : Nat) → (mounts : Nat) → Status × Nat
  | 0, _, mounts => (.errno, mounts)
  | tries + 1, i, mounts =>
    if mounts = 0 then (.OK, mounts)
    else match answer i with
      | .ok => (.OK, mounts - 1)
      | .einval | .enoent => (.OK, mounts)
      | .error => umountLoop answer tries (i + 1) mounts

/-- `ForceUnmount`: with `detach` there is one try, otherwise four. -/
def forceUnmount (detach : Bool) (mounts : Nat) : Status × Nat :=
  umountLoop k.umount (if detach then 1 else 4) 0 mounts

/-- `PublicVolume::doUnmount`. -/
def doUnmount (detach : Bool) (v : Volume) : Status × Volume :=
  (.OK, { v with mounts := (forceUnmount k detach v.mounts).2 })

/-! ## Mounting -/

/-- The unmounts at the start of `ext4::Check`. -/
def trialUmountLoop (answer : Nat → Bool) : (tries i : Nat) → (mounts : Nat) → Nat
  | 0, _, mounts => mounts
  | tries + 1, i, mounts =>
    if answer i then mounts - 1 else trialUmountLoop answer tries (i + 1) mounts

/-- The check of the file system: whether it succeeded, and the mounts after it. -/
def checkFs (fsType : FsType) (mounts : Nat) : Bool × Nat :=
  match fsType with
  | .ext4 =>
    (k.check, if k.trialMount then trialUmountLoop k.trialUmount 5 0 (mounts + 1) else mounts)
  | .other => (true, mounts)
  | _ => (k.check, mounts)

/-- The mount of the file system, as each type has it: whether it is reported as successful, and the
mounts after it. The exit code of the mount program for NTFS is not looked at. -/
def mountFs (fsType : FsType) (mounts : Nat) : Bool × Nat :=
  match fsType with
  | .exfat => if k.mount = .ok ∨ k.mountAgain = .ok then (true, mounts + 1) else (false, mounts)
  | .ext4 | .f2fs | .vfat =>
    if k.mount = .ok ∨ k.mount = .erofs ∧ k.mountAgain = .ok then (true, mounts + 1)
      else (false, mounts)
  | .ntfs =>
    if k.fork then (true, if k.helperMounts then mounts + 1 else mounts) else (false, mounts)
  | .other => if k.mount = .ok then (true, mounts + 1) else (false, mounts)

/-- `PublicVolume::doMount`. -/
def doMount (v : Volume) : Status × Volume :=
  if !k.supported then ( Status.EIO, v)
  else if !k.prepareDir then (.errno, v)
  else
    let (checked, mounts) := checkFs k v.fsType v.mounts
    if !checked then ( Status.EIO, { v with mounts })
    else
      let (mounted, mounts) := mountFs k v.fsType mounts
      (if mounted then .OK else Status.EIO, { v with mounts })

/-! ## Operations -/

/-- `PublicVolume::doCreate`. -/
def doCreate (v : Volume) : Status × Volume :=
  if k.mknod then (.OK, { v with node := true, fsType := k.fsType.getD v.fsType }) else (.errno, v)

/-- `PublicVolume::doDestroy`. -/
def doDestroy (v : Volume) : Status × Volume :=
  if k.unlink then (.OK, { v with node := false }) else (.errno, v)

/-- `VolumeBase::create`. -/
def create (v : Volume) : Status × Volume :=
  if v.created then (.BAD_VALUE, v)
  else
    let (res, v) := doCreate k { v with created := true }
    let (mounted, v) := doMount k { v with state := .kUnmounted }
    if mounted = .OK then (res, (doUnmount k false { v with mountable := true }).2) else (res, v)

/-- `VolumeBase::unmount`. -/
def unmount (detach : Bool) (v : Volume) : Status × Volume :=
  let (res, v) := doUnmount k detach { v with state := .kEjecting }
  (res, { v with state := .kUnmounted })

/-- `VolumeBase::destroy`. -/
def destroy (v : Volume) : Status × Volume :=
  if !v.created then (.NO_INIT, v)
  else
    let v := if v.state = .kMounted then { (unmount k false v).2 with state := .kBadRemoval }
      else { v with state := .kRemoved }
    let (res, v) := doDestroy k v
    (res, { v with created := false })

/-- `VolumeBase::mount`. -/
def mount (v : Volume) : Status × Volume :=
  if v.state ≠ .kUnmounted ∧ v.state ≠ .kUnmountable then (.EBUSY, v)
  else
    let (res, v) := doMount k { v with state := .kChecking }
    (res, { v with state := if res = .OK then .kMounted else .kUnmountable })

inductive Operation
  | create
  | mount
  | unmount (detach : Bool)
  | destroy
  deriving DecidableEq

/-- One operation. -/
def operate (op : Operation) (v : Volume) : Status × Volume :=
  match op with
  | .create => create k v
  | .mount => mount k v
  | .unmount detach => unmount k detach v
  | .destroy => destroy k v

/-! ## When the state is right -/

/-- What is to hold after an operation. -/
structure Correct (op : Operation) (before : Volume) (status : Status) (after : Volume) : Prop where
  state_iff : after.state = .kMounted ↔ 0 < after.mounts
  mount_ok : op = .mount → status = .OK → 0 < after.mounts
  unmount_ok : ∀ detach, op = .unmount detach → status = .OK → after.mounts = 0
  destroy_node : op = .destroy → before.node = true → after.node = false → after.mounts = 0

/-- One of the tries unmounts the file system. -/
def Unmounts (detach : Bool) : Prop :=
  ∃ i < (if detach then 1 else 4), k.umount i = .ok ∧ ∀ j < i, k.umount j = .error

/-- The mount that the check of ext4 makes is undone, and the mount program for NTFS does not
fail. -/
structure MountsHonestly (fsType : FsType) : Prop where
  trial : fsType = .ext4 → k.supported = true → k.prepareDir = true → k.trialMount = true →
    ∃ i < 5, k.trialUmount i = true
  helper : fsType = .ntfs → k.supported = true → k.prepareDir = true → k.check = true →
    k.fork = true → k.helperMounts = true

/-- The file system is mounted by `doMount`, as far as that looks at the answers. -/
def Mounts (fsType : FsType) : Prop :=
  k.supported = true ∧ k.prepareDir = true ∧ (checkFs k fsType 0).1 = true ∧
  (mountFs k fsType 0).1 = true

/-- The type that `create` finds. -/
def fsTypeAfter (v : Volume) : FsType := if k.mknod then k.fsType.getD v.fsType else v.fsType

/-- The condition on an operation, by the state before it and the answers of the system. -/
def Meets (v : Volume) (op : Operation) : Prop :=
  match op with
  | .create => v.created = false → v.mounts = 0 ∧ MountsHonestly k (fsTypeAfter k v) ∧
      (Mounts k (fsTypeAfter k v) → Unmounts k false)
  | .mount => v.state = .kUnmounted ∨ v.state = .kUnmountable → MountsHonestly k v.fsType
  | .unmount detach => 0 < v.mounts → Unmounts k detach
  | .destroy => v.created = true → v.state = .kMounted → Unmounts k false

/-- A volume whose operations all meet the condition. -/
def guarded : System Volume where
  init v := ∃ fsType, v = Volume.init fsType
  step v v' := ∃ op k, Meets k v op ∧ v' = (operate k op v).2

/-- A volume with any operations. -/
def operations : System Volume where
  init v := ∃ fsType, v = Volume.init fsType
  step v v' := ∃ op k, v' = (operate k op v).2

/-- The state is that of the mount. -/
def Inv (v : Volume) : Prop :=
  (v.state = .kMounted → v.mounts = 1) ∧ (v.state ≠ .kMounted → v.mounts = 0)

theorem Inv.state_iff (h : Inv v) : v.state = .kMounted ↔ 0 < v.mounts := by
  rcases Decidable.em (v.state = .kMounted) with hs | hs
  · simp [hs, h.1 hs]
  · simp [hs, h.2 hs]

variable {k}

theorem umountLoop_zero (answer : Nat → UmountAnswer) (tries i : Nat) :
    (umountLoop answer tries i 0).2 = 0 := by
  cases tries <;> rfl

theorem umountLoop_of_ok {answer : Nat → UmountAnswer} {tries i n : Nat} (hn : n < tries)
    (hok : answer (i + n) = .ok) (herr : ∀ j < n, answer (i + j) = .error) (hm : 0 < mounts) :
    (umountLoop answer tries i mounts).2 = mounts - 1 := by
  induction tries generalizing i n with
  | zero => omega
  | succ tries ih =>
    rw [umountLoop, if_neg (by omega)]
    cases n with
    | zero =>
      rw [Nat.add_zero] at hok
      rw [hok]
    | succ n =>
      have h0 := herr 0 (by omega)
      rw [Nat.add_zero] at h0
      rw [h0]
      apply ih (by omega : n < tries)
      · rwa [Nat.add_right_comm, Nat.add_assoc]
      · intro j hj
        have := herr (j + 1) (by omega)
        rwa [Nat.add_right_comm, Nat.add_assoc]

theorem Unmounts.forceUnmount_eq (h : Unmounts k detach) (hm : 0 < mounts) :
    (forceUnmount k detach mounts).2 = mounts - 1 := by
  obtain ⟨i, hi, hok, herr⟩ := h
  apply umountLoop_of_ok hi
  · rwa [Nat.zero_add]
  · simpa using herr
  · exact hm

theorem forceUnmount_zero (k : Kernel) (detach : Bool) : (forceUnmount k detach 0).2 = 0 :=
  umountLoop_zero _ _ _

theorem trialUmountLoop_of_true {answer : Nat → Bool} {tries i n : Nat} (hn : n < tries)
    (hok : answer (i + n) = true) (mounts : Nat) :
    trialUmountLoop answer tries i mounts = mounts - 1 := by
  induction tries generalizing i n with
  | zero => omega
  | succ tries ih =>
    rw [trialUmountLoop]
    split
    · rfl
    · rename_i hne
      cases n with
      | zero => exact absurd hok hne
      | succ n =>
        apply ih (by omega : n < tries)
        rwa [Nat.add_right_comm, Nat.add_assoc]

theorem MountsHonestly.checkFs_eq (h : MountsHonestly k fsType) (hs : k.supported = true)
    (hd : k.prepareDir = true) : (checkFs k fsType 0).2 = 0 := by
  cases fsType with
  | ext4 =>
    simp only [checkFs]
    split
    · rename_i htrial
      obtain ⟨i, hi, hok⟩ := h.trial rfl hs hd htrial
      exact trialUmountLoop_of_true hi (by rwa [Nat.zero_add]) _
    · rfl
  | _ => rfl

theorem MountsHonestly.mountFs_eq (h : MountsHonestly k fsType) (hs : k.supported = true)
    (hd : k.prepareDir = true) (hc : (checkFs k fsType 0).1 = true) :
    mountFs k fsType 0 = (true, 1) ∨ mountFs k fsType 0 = (false, 0) := by
  cases fsType with
  | ntfs =>
    simp only [mountFs]
    split
    · rename_i hfork
      rw [h.helper rfl hs hd hc hfork]
      exact .inl rfl
    · exact .inr rfl
  | _ =>
    simp only [mountFs]
    split
    · exact .inl rfl
    · exact .inr rfl

/-- `doMount` of a file system that is not mounted: it is mounted exactly if the status is `OK`, and
nothing else changes. -/
theorem doMount_spec {v : Volume} (h : MountsHonestly k v.fsType) (hm : v.mounts = 0) :
    ((doMount k v).1 = .OK ∧ (doMount k v).2 = { v with mounts := 1 } ∧ Mounts k v.fsType) ∨
      (doMount k v).1 ≠ .OK ∧ (doMount k v).2 = v := by
  have hv : { v with mounts := 0 } = v := by rw [← hm]
  unfold doMount
  cases hs : k.supported with
  | false => exact .inr ⟨by simp, rfl⟩
  | true =>
    cases hd : k.prepareDir with
    | false => exact .inr ⟨by simp, rfl⟩
    | true =>
      have hcheck := h.checkFs_eq hs hd
      rw [hm]
      cases hc : (checkFs k v.fsType 0).1 with
      | false =>
        refine .inr ⟨by simp [hc], ?_⟩
        simp [hc, hcheck, hv]
      | true =>
        rcases h.mountFs_eq hs hd hc with hmt | hmt
        · refine .inl
            ⟨by simp [hc, hcheck, hmt], by simp [hc, hcheck, hmt], hs, hd, hc, by rw [hmt]⟩
        · exact .inr ⟨by simp [hc, hcheck, hmt], by simp [hc, hcheck, hmt, hv]⟩

/-! ## One operation -/

theorem correct_create {v : Volume} (hinv : Inv v) (h : Meets k v .create) :
    Inv (create k v).2 ∧ Correct .create v (create k v).1 (create k v).2 := by
  suffices hnext : Inv (create k v).2 from
    ⟨hnext, hnext.state_iff, by simp, by simp, by simp⟩
  unfold create
  cases hc : v.created with
  | true => simpa using hinv
  | false =>
    obtain ⟨hm, hhonest, hunmounts⟩ := h hc
    have htype : (doCreate k { v with created := true }).2.fsType = fsTypeAfter k v := by
      unfold doCreate fsTypeAfter
      split <;> rfl
    have hmounts : (doCreate k { v with created := true }).2.mounts = 0 := by
      unfold doCreate
      split <;> exact hm
    generalize doCreate k { v with created := true } = r at htype hmounts
    obtain ⟨res, v'⟩ := r
    dsimp only at htype hmounts
    rw [← htype] at hhonest hunmounts
    simp only [Bool.false_eq_true, if_false]
    rcases @doMount_spec k { v' with state := .kUnmounted } hhonest hmounts with ⟨hok, hv,
      hmount⟩ | ⟨hne, hv⟩
    · rw [if_pos hok, hv]
      have hu := (hunmounts hmount).forceUnmount_eq (by decide : 0 < 1)
      exact ⟨by simp [doUnmount], fun _ => hu⟩
    · rw [if_neg hne, hv]
      exact ⟨by simp, fun _ => hmounts⟩

theorem correct_mount {v : Volume} (hinv : Inv v) (h : Meets k v .mount) :
    Inv (mount k v).2 ∧ Correct .mount v (mount k v).1 (mount k v).2 := by
  have key : Inv (mount k v).2 ∧ ((mount k v).1 = .OK → 0 < (mount k v).2.mounts) := by
    unfold mount
    rcases Decidable.em (v.state ≠ .kUnmounted ∧ v.state ≠ .kUnmountable) with hs | hs
    · rw [if_pos hs]
      exact ⟨hinv, by simp⟩
    · rw [if_neg hs]
      have hm : v.mounts = 0 := hinv.2 fun heq => hs (by simp [heq])
      have hstate : v.state = .kUnmounted ∨ v.state = .kUnmountable := by
        rcases Decidable.em (v.state = .kUnmounted) with h' | h'
        · exact .inl h'
        · exact .inr (Decidable.not_not.mp fun h'' => hs ⟨h', h''⟩)
      rcases @doMount_spec k { v with state := .kChecking } (h hstate) hm with ⟨hok, hv,
        -⟩ | ⟨hne, hv⟩
      · dsimp only
        rw [hok, hv]
        exact ⟨⟨fun _ => rfl, by simp⟩, fun _ => Nat.one_pos⟩
      · dsimp only
        rw [hv, if_neg hne]
        exact ⟨⟨by simp, fun _ => hm⟩, fun hok => absurd hok hne⟩
  exact ⟨key.1, key.1.state_iff, fun _ => key.2, by simp, by simp⟩

theorem mounts_unmount {v : Volume} (hinv : Inv v) (h : 0 < v.mounts → Unmounts k detach) :
    (unmount k detach v).2.mounts = 0 := by
  change (forceUnmount k detach v.mounts).2 = 0
  rcases Decidable.em (v.state = .kMounted) with hs | hs
  · have hm := hinv.1 hs
    rw [(h (by omega)).forceUnmount_eq (by omega), hm]
  · rw [hinv.2 hs]
    exact forceUnmount_zero k detach

theorem correct_unmount {v : Volume} (hinv : Inv v) (h : Meets k v (.unmount detach)) :
    Inv (unmount k detach v).2 ∧
      Correct (.unmount detach) v (unmount k detach v).1 (unmount k detach v).2 := by
  have hm := mounts_unmount hinv h
  have hnext : Inv (unmount k detach v).2 := ⟨by simp [unmount], fun _ => hm⟩
  exact ⟨hnext, hnext.state_iff, by simp, fun _ _ _ => hm, by simp⟩

theorem correct_destroy {v : Volume} (hinv : Inv v) (h : Meets k v .destroy) :
    Inv (destroy k v).2 ∧ Correct .destroy v (destroy k v).1 (destroy k v).2 := by
  -- the unlink of the node changes neither state nor mounts
  have hnode : ∀ v : Volume, (doDestroy k v).2.state = v.state ∧ (doDestroy k v).2.mounts =
      v.mounts := by
    intro v
    unfold doDestroy
    split <;> exact ⟨rfl, rfl⟩
  have key : Inv (destroy k v).2 ∧ (v.created = true → (destroy k v).2.mounts = 0) := by
    unfold destroy
    cases hc : v.created with
    | false => exact ⟨by simpa using hinv, by simp⟩
    | true =>
      simp only [Bool.not_true, Bool.false_eq_true, if_false, forall_const]
      rcases Decidable.em (v.state = .kMounted) with hs | hs
      · have hm := mounts_unmount hinv (fun _ => h hc hs)
        rw [if_pos hs]
        have hmo := (hnode { (unmount k false v).2 with state := .kBadRemoval }).2.trans hm
        exact ⟨⟨fun hst => absurd ((hnode _).1.symm.trans hst) (by simp), fun _ => hmo⟩, hmo⟩
      · rw [if_neg hs]
        have hmo := (hnode { v with state := .kRemoved, created := true }).2.trans (hinv.2 hs)
        exact ⟨⟨fun hst => absurd ((hnode _).1.symm.trans hst) (by simp), fun _ => hmo⟩, hmo⟩
  refine ⟨key.1, key.1.state_iff, by simp, by simp, fun _ hbefore hafter => ?_⟩
  cases hc : v.created with
  | false =>
    have hsame : (destroy k v).2 = v := by simp [destroy, hc]
    rw [hsame, hbefore] at hafter
    exact absurd hafter (by decide)
  | true => exact key.2 hc

theorem correct_operate {v : Volume} (hinv : Inv v) {op : Operation} (h : Meets k v op) :
    Inv (operate k op v).2 ∧ Correct op v (operate k op v).1 (operate k op v).2 := by
  cases op with
  | create => exact correct_create hinv h
  | mount => exact correct_mount hinv h
  | unmount detach => exact correct_unmount hinv h
  | destroy => exact correct_destroy hinv h

/-! ## All runs -/

theorem inductive_inv : guarded.Inductive Inv where
  init := by
    rintro _ ⟨fsType, rfl⟩
    exact ⟨by simp [Volume.init], fun _ => rfl⟩
  step := by
    rintro v _ hinv ⟨op, k, hmeets, rfl⟩
    exact (correct_operate hinv hmeets).1

/-- In a run whose operations meet the condition, each of them does what it is to do. -/
theorem guarded_correct {v : Volume} (hreach : guarded.Reach v) {op : Operation}
    (hmeets : Meets k v op) : Correct op v (operate k op v).1 (operate k op v).2 :=
  (correct_operate (inductive_inv.reach hreach) hmeets).2

/-- A system on which everything works, with these answers to `umount2`. -/
def working (umount : Nat → UmountAnswer) : Kernel where
  mknod := true
  unlink := true
  fsType := some .vfat
  supported := true
  prepareDir := true
  check := true
  trialMount := false
  trialUmount _ := false
  mount := .ok
  mountAgain := .ok
  fork := true
  helperMounts := true
  umount := umount

/-- The second try unmounts the volume. -/
theorem guarded_correct_retried :
    Correct (.unmount false)
    (mount (working fun _ => .ok) (create (working fun _ => .ok) (.init .other)).2).2
      .OK (unmount (working fun i => if i = 0 then .error else .ok) false
        (mount (working fun _ => .ok) (create (working fun _ => .ok) (.init .other)).2).2).2 := by
  have hunmounts : Unmounts (working fun _ => .ok) false := ⟨0, by decide, rfl, by simp⟩
  have hhonest : ∀ umount, MountsHonestly (working umount) .vfat :=
    fun _ => ⟨nofun, nofun⟩
  have hinit : guarded.Reach (.init .other) := .init ⟨_, rfl⟩
  have hcreated : guarded.Reach (create (working fun _ => .ok) (.init .other)).2 :=
    hinit.step ⟨.create, _, fun _ => ⟨rfl, hhonest _, fun _ => hunmounts⟩, rfl⟩
  have hmounted :
      guarded.Reach
      (mount (working fun _ => .ok) (create (working fun _ => .ok) (.init .other)).2).2 :=
    hcreated.step ⟨.mount, _, fun _ => hhonest _, rfl⟩
  exact guarded_correct hmounted fun _ => ⟨1, by decide, rfl, fun j hj => by
    rw [Nat.lt_one_iff.mp hj]
    rfl⟩

/-- If the volume is busy in all four tries, `unmount` reports success and the volume stays
mounted. -/
theorem not_operations_correct :
    ¬ ∀ (v : Volume) (op : Operation) (k : Kernel), operations.Reach v →
    Correct op v (operate k op v).1 (operate k op v).2 := by
  intro hall
  have hinit : operations.Reach (.init .other) := .init ⟨_, rfl⟩
  have hcreated : operations.Reach (create (working fun _ => .ok) (.init .other)).2 :=
    hinit.step ⟨.create, _, rfl⟩
  have hmounted := hcreated.step ⟨.mount, working fun _ => .ok, rfl⟩
  have h := (hall _ (.unmount false) (working fun _ => .error) hmounted).unmount_ok false rfl rfl
  exact absurd h (by decide)

end BootableRecovery.VolumeManager
