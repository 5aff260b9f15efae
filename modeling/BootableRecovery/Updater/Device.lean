import BootableRecovery.Theory.Durable
import BootableRecovery.OtaUtil.RangeSet

/-!
# The partition, the stash directory and the saved command

What `updater/blockimg.cpp` keeps on storage, and the steps that change it: a write to a block, a
`BLKDISCARD`, the rename and the unlink of a file. Each step is atomic. The file that `WriteStash`
or `UpdateLastCommandIndex` fills before the rename is never read by the updater, so the store has
only what the rename makes visible.
-/

namespace BootableRecovery.BlockImg

def BLOCKSIZE : Nat := 4096

theorem BLOCKSIZE_pos : 0 < BLOCKSIZE := by decide

/-- The contents of a block of `BLOCKSIZE` bytes, the first byte lowest. -/
abbrev Block := BitVec (8 * 4096)

namespace Block

/-- The block with the given bytes. -/
def ofBytes (bytes : List UInt8) : Block :=
  BitVec.ofNat _ (Nat.ofDigits 256 (bytes.map UInt8.toNat))

/-- The bytes of a block. -/
def bytes (b : Block) : List UInt8 :=
  (List.range BLOCKSIZE).map fun i => UInt8.ofNat (b.toNat / 256 ^ i % 256)

end Block

/-- A stash file: its whole blocks and the number of bytes after the last of them. -/
structure StashFile where
  blocks : List Block
  tail : Fin BLOCKSIZE
  deriving DecidableEq

/-- `st_size`. -/
def StashFile.size (f : StashFile) : Nat := f.blocks.length * BLOCKSIZE + f.tail

/-- What is on storage for one partition: its blocks, the stash directory (`none` if there is none)
with its files by name, and the content of `last_command_file`. -/
structure Disk where
  part : Nat → Block
  stash : Option (List (Text × StashFile))
  lastCommand : Option Text

namespace Disk

/-- The stash file with this name in the directory. -/
def stashFile (d : Disk) (id : Text) : Option StashFile := d.stash.bind (·.lookup id)

/-- The contents of the blocks of a range set. -/
def read (d : Disk) (rs : RangeSet) : List Block := rs.toList.map d.part

end Disk

/-- The receiver of the new data: the pieces of the stream that it has not handed out yet (the first
one is what is left of the piece at hand) and `receiver_available`. -/
structure NewThreadInfo where
  stream : List (List UInt8)
  receiverAvailable : Bool

/-- `CommandParameters` without the counters that are only logged, together with the static
variables `stash_map` and `is_retry` of the file. `tokens` has the tokens from `cpos` on. `faults`
says which of the coming system calls fail; when it is used up, none does. -/
structure CommandParameters where
  tokens : List Text
  cmdindex : Int
  cmdline : Text
  freestash : Text
  canwrite : Bool
  createdstash : Bool
  isunresumable : Bool
  nti : NewThreadInfo
  buffer : List Block
  targetVerified : Bool
  stashMap : List (Text × RangeSet)
  isRetry : Bool
  faults : List Bool

/-- One step on storage. `began`, `finished` and `skipped` leave it as it is: they mark in the log
of a run that the main loop has started the command of a line, that the command has returned without
an error, and that a command was skipped because of the saved index. Lines are counted from the end
of the header. -/
inductive Step
  | write (block : Nat) (data : Block)
  | writeBytes (block offset : Nat) (data : List UInt8)
  | discard (range : Range)
  | fsync
  | mkdirStash
  | rmdirStash
  | renameStash (id : Text) (blocks : List Block)
  | unlinkStash (id : Text)
  | renameLast (content : Text)
  | unlinkLast
  | began (line : Nat) (params : CommandParameters)
  | finished (line : Nat)
  | skipped (line : Nat)

/-- What the updater depends on: the block device (its size in blocks, whether it is a block device,
and what a block reads as after a `BLKDISCARD`, `none` where the request is not supported), SHA-1 in
hexadecimal, the name of the stash file to which the path of the stash directory leads with `/id`
after it (a `./` or a NUL in `id` can make it another one than `id`), and the patch files, of which
`patch` gives the pieces that `ApplyImagePatch` or `ApplyBSDiffPatch` hands to the sink for a
source, and whether it succeeds. -/
structure Env where
  blocks : Nat
  isBlk : Bool
  discarded : Nat → Option Block
  sha1 : List Block → Text
  resolve : Text → Text
  resolve_sha1 : ∀ blocks, resolve (sha1 blocks) = sha1 blocks
  patch : (imgdiff : Bool) → (offset len : Nat) → List Block → List (List UInt8) × Bool

variable (env : Env)

/-- The effect of a step. -/
def Disk.apply (d : Disk) : Step → Disk
  | .write b v => { d with part := Function.update d.part b v }
  | .writeBytes b off data => { d with
      part := Function.update d.part b (.ofBytes (overwriteAt (d.part b).bytes off data)) }
  | .discard r => { d with
      part := fun b => if r.1 ≤ b ∧ b < r.2 then (env.discarded b).getD (d.part b) else d.part b }
  | .fsync => d
  | .mkdirStash => { d with stash := some (d.stash.getD []) }
  | .rmdirStash => if d.stash = some [] then { d with stash := none } else d
  | .renameStash id blocks => { d with
      stash := d.stash.map fun files => (id, ⟨blocks, ⟨0, by decide⟩⟩) :: files.filter (·.1 ≠ id) }
  | .unlinkStash id => { d with stash := d.stash.map fun files => files.filter (·.1 ≠ id) }
  | .renameLast content => { d with lastCommand := some content }
  | .unlinkLast => { d with lastCommand := none }
  | .began .. => d
  | .finished _ => d
  | .skipped _ => d

/-- Programs of the updater. -/
abbrev M := Prog (Disk.apply env) CommandParameters

/-- A system call, which may fail. -/
def syscall : M env Bool := fun p _ =>
  match p.faults with
  | [] => ([], some (true, p))
  | fails :: faults => ([], some (!fails, { p with faults }))

/-- The storage as it is now. -/
def disk : M env Disk := Prog.store

/-- A step on storage. -/
def emit (e : Step) : M env Unit := Prog.emit e

/-- A failed `CHECK`, or an access outside a buffer. -/
def abort : M env α := Prog.abort

/-- Goes on with a value that is there. -/
def expect : Option α → M env α
  | some a => pure a
  | none => abort env

/-! ## A small device -/

/-- A hash that spells out its input, in unary numbers. -/
def unaryHash (blocks : List Block) : Text :=
  blocks.flatMap fun b => List.replicate b.toNat 'a' ++ ['b']

theorem replicate_append_inj {m n : Nat} {x y : Text}
    (h : List.replicate m 'a' ++ 'b' :: x = List.replicate n 'a' ++ 'b' :: y) : m = n ∧ x = y := by
  induction m generalizing n with
  | zero =>
    cases n with
    | zero => exact ⟨rfl, List.tail_eq_of_cons_eq h⟩
    | succ n => cases h
  | succ m ih =>
    cases n with
    | zero => cases h
    | succ n =>
      obtain ⟨rfl, rfl⟩ := ih (List.tail_eq_of_cons_eq h)
      exact ⟨rfl, rfl⟩

theorem unaryHash_injective : Function.Injective unaryHash := by
  intro bs
  induction bs with
  | nil =>
    intro bs' h
    cases bs' with
    | nil => rfl
    | cons b bs' => simp [unaryHash] at h
  | cons b bs ih =>
    intro bs' h
    cases bs' with
    | nil => simp [unaryHash] at h
    | cons b' bs' =>
      simp only [unaryHash, List.flatMap_cons, List.append_assoc, List.singleton_append] at h
      obtain ⟨hb, htail⟩ := replicate_append_inj h
      rw [BitVec.eq_of_toNat_eq hb, ih htail]

/-- A device of eight blocks on which nothing can be discarded, and no patches. -/
def Env.small : Env where
  blocks := 8
  isBlk := true
  discarded _ := none
  sha1 := unaryHash
  resolve id := id
  resolve_sha1 _ := rfl
  patch _ _ _ _ := ([], false)

/-- Storage with the given blocks and zeros after them, before the first call. -/
def Disk.start (blocks : List Block) : Disk := ⟨fun b => blocks.getD b 0, none, none⟩

/-- The variables before the first call. -/
def CommandParameters.start : CommandParameters where
  tokens := []
  cmdindex := 0
  cmdline := []
  freestash := []
  canwrite := false
  createdstash := false
  isunresumable := false
  nti := ⟨[], false⟩
  buffer := []
  targetVerified := false
  stashMap := []
  isRetry := false
  faults := []

end BootableRecovery.BlockImg
