import BootableRecovery.Updater.Load
import BootableRecovery.Updater.Scatter

/-!
# Transfer lists and the guarantees of their creator

What the lines of a transfer list mean: the commands with their parameters, as the functions of
`updater/blockimg.cpp` read them (`Instr.decode`), and what the program that makes the list for a
source image `S` and a target image `F` promises about it (`Creator`). Nothing here is checked by
the updater.
-/

namespace BootableRecovery.BlockImg

/-- The content of a partition. -/
abbrev Image := Nat → Block

/-- The contents of the blocks of a range set. -/
def Image.read (S : Image) (rs : RangeSet) : List Block := rs.toList.map S

/-! ## Reading a line -/

/-- A range set that passes the `CHECK` of its result. -/
def validRanges (s : Text) : Option RangeSet :=
  if (RangeSet.parse s).isValid then some (RangeSet.parse s) else none

/-- The source of a transfer: `src_block_count`, the ranges to read and the locations to which their
blocks are moved, and the stashes with their locations. -/
structure Source where
  count : Nat
  ranges : Option RangeSet
  locs : Option RangeSet
  stashes : List (Text × RangeSet)
  deriving DecidableEq

/-- `id:locs` -/
def stashToken (token : Text) : Option (Text × RangeSet) :=
  match token.splitOn ':' with
  | [id, locs] => (validRanges locs).map (id, ·)
  | _ => none

/-- The source that `LoadSourceBlocks` reads from its tokens. -/
def Source.decode (count src : Text) (tokens : List Text) : Option Source := do
  let count ← parseUint count
  if src = ['-'] then return ⟨count, none, none, ← tokens.mapM stashToken⟩
  else
    let ranges ← validRanges src
    match tokens with
    | [] => return ⟨count, some ranges, none, []⟩
    | locs :: tokens =>
      return ⟨count, some ranges, some (← validRanges locs), ← tokens.mapM stashToken⟩

/-- What `LoadSrcTgtVersion3` reads. -/
structure Transfer where
  srchash : Text
  tgthash : Text
  tgt : RangeSet
  source : Source
  deriving DecidableEq

def Transfer.decode (onehash : Bool) (tokens : List Text) : Option Transfer :=
  match splitHashes onehash tokens with
  | some (srchash, tgthash, tgt :: count :: src :: tokens) => do
    return ⟨srchash, tgthash, ← validRanges tgt, ← Source.decode count src tokens⟩
  | _ => none

/-- A line of a transfer list. A patch is given by its kind, its offset and its length; `move` has
none. -/
inductive Instr
  | transfer (patch : Option (Bool × Nat × Nat)) (t : Transfer)
  | stash (id : Text) (src : RangeSet)
  | free (id : Text)
  | zero (tgt : RangeSet)
  | new (tgt : RangeSet)
  | erase (tgt : RangeSet)
  | blank
  deriving DecidableEq

/-- The parameters of `bsdiff` and `imgdiff`. -/
def Transfer.decodeDiff (imgdiff : Bool) : List Text → Option Instr
  | offset :: len :: tokens => do
    return .transfer (some (imgdiff, ← parseUint offset, ← parseUint len))
      (← Transfer.decode false tokens)
  | _ => none

def Command.decode : Command → List Text → Option Instr
  | .move, tokens => (Transfer.decode true tokens).map (.transfer none)
  | .bsdiff, tokens => Transfer.decodeDiff false tokens
  | .imgdiff, tokens => Transfer.decodeDiff true tokens
  | .stash, id :: src :: _ => (validRanges src).map (.stash id)
  | .free, id :: _ => some (.free id)
  | .zero, tgt :: _ => (validRanges tgt).map .zero
  | .new, tgt :: _ => (validRanges tgt).map .new
  | .erase, tgt :: _ => (validRanges tgt).map .erase
  | _, _ => none

def Instr.decode (line : Text) : Option Instr :=
  if line.isEmpty then some .blank
  else (commandOf line).bind fun command => command.decode (line.splitOn ' ').tail

namespace Instr

/-- The blocks that are written. -/
def target : Instr → List Nat
  | transfer _ t => t.tgt.toList
  | zero tgt | new tgt | erase tgt => tgt.toList
  | stash .. | free _ | blank => []

/-- The blocks of the partition that are read, those of the target apart. -/
def source : Instr → List Nat
  | transfer _ t => (t.source.ranges.map RangeSet.toList).getD []
  | stash _ src => src.toList
  | _ => []

/-- The stashes that are loaded. -/
def uses : Instr → List Text
  | transfer _ t => t.source.stashes.map Prod.fst
  | _ => []

/-- The command writes its target without looking at it, and can be executed again. -/
def isLoose : Instr → Bool
  | zero _ | erase _ => true
  | _ => false

end Instr

/-- The source shares blocks with the target: its blocks have to be stashed before the target is
written. -/
def Transfer.overlap (t : Transfer) : Bool :=
  (t.source.ranges.map fun src => src.overlaps t.tgt).getD false

/-! ## What the creator guarantees -/

/-- The blocks stand at the given positions of the buffer. -/
def Placed {α : Type} (buffer : List α) (positions : List Nat) (blocks : List α) : Prop :=
  positions.map (fun i => buffer[i]?) = blocks.map some

instance {α : Type} [DecidableEq α] {buffer blocks : List α} {positions : List Nat} :
    Decidable (Placed buffer positions blocks) :=
  inferInstanceAs (Decidable (_ = _))

/-- The positions of the blocks of the source ranges in the buffer. -/
def Source.positions (s : Source) : List Nat :=
  match s.ranges with
  | none => []
  | some ranges => match s.locs with
    | none => List.range ranges.blocks
    | some locs => locs.toList

/-- `content` is what the source gathers from the image `S` and from stashes with the right hashes.
The positions of its parts tile the buffer, which is smaller than the address space. -/
structure Source.Gathers (env : Env) (S : Image) (s : Source) (content : List Block) : Prop where
  count : content.length = s.count
  fits : s.count * BLOCKSIZE < 2 ^ 64
  tiles : (s.positions ++ s.stashes.flatMap fun x => x.2.toList).Perm (List.range s.count)
  increasing : ∀ locs, s.locs = some locs → Scatter.Increasing locs.ranges
  ranges : ∀ src, s.ranges = some src → Placed content s.positions (S.read src)
  stashes : ∀ x ∈ s.stashes, ∃ blocks, env.sha1 blocks = x.1 ∧ Placed content x.2.toList blocks

/-- What a command promises about the images. A transfer has a source with its hash, and the content
of its target is that source (`move`) or what the patch gives for it. A stash is freed by its name,
not by another path to its file. -/
def Instr.Meets (env : Env) (S F : Image) : Instr → Prop
  | .transfer patch t => env.sha1 (F.read t.tgt) = t.tgthash ∧
    ∃ content, t.source.Gathers env S content ∧ env.sha1 content = t.srchash ∧
      match patch with
      | none => content = F.read t.tgt
      | some (imgdiff, offset, len) =>
        (env.patch imgdiff offset len content).2 = true ∧
          (env.patch imgdiff offset len content).1.flatten = (F.read t.tgt).flatMap Block.bytes
  | .stash id src => env.sha1 (S.read src) = id
  | .zero tgt => ∀ b ∈ tgt.toList, F b = 0
  | .erase tgt => env.isBlk = true ∧ ∀ b ∈ tgt.toList, F b = (env.discarded b).getD (S b)
  | .free id => id ≠ [] ∧ getStashFileName env id = id
  | .new _ | .blank => True

/-- A transfer list that turns `S` into `F`: no block is read after it was written, each block is
written at most once, and a stash is made before it is used and not freed before its last use. -/
structure Creator (env : Env) (S F : Image) (instrs : List Instr) : Prop where
  within : ∀ c ∈ instrs, ∀ b ∈ c.target ++ c.source, b < env.blocks
  once : ∀ c ∈ instrs, c.target.Nodup
  apart : instrs.Pairwise fun c c' => ∀ b ∈ c.target, b ∉ c'.target
  readFirst : instrs.Pairwise fun c c' => ∀ b ∈ c.target, b ∉ c'.source
  stashed : ∀ (i : Nat) (c : Instr), instrs[i]? = some c → ∀ id ∈ c.uses, ∃ s < i, ∃ src,
    instrs[s]? = some (Instr.stash id src) ∧ ∀ k, s < k → k < i → instrs[k]? ≠ some (Instr.free id)
  meets : ∀ c ∈ instrs, c.Meets env S F
  changed : ∀ b, S b ≠ F b → ∃ c ∈ instrs, b ∈ c.target

/-- No stash is made twice; and an id that was freed is neither stashed again nor the hash of a
source that overlaps its target, which an interrupted command stashes under that hash. -/
structure UsedOnce (instrs : List Instr) : Prop where
  stash : instrs.Pairwise fun c c' => ∀ id src src', c = .stash id src → c' ≠ .stash id src'
  free : instrs.Pairwise fun c c' => ∀ id src, c = .free id → c' ≠ .stash id src
  implicit : instrs.Pairwise fun c c' => ∀ id patch t, c = .free id → c' = .transfer patch t →
    t.overlap = true → t.srchash ≠ id

/-! ## First consequences -/

variable {env : Env} {S F : Image} {instrs : List Instr}

theorem pairwise_getElem? {α : Type} {R : α → α → Prop} {l : List α} {i j : Nat} {a b : α}
    (h : l.Pairwise R) (hij : i < j) (hi : l[i]? = some a) (hj : l[j]? = some b) : R a b := by
  obtain ⟨hilt, rfl⟩ := List.getElem?_eq_some_iff.mp hi
  obtain ⟨hjlt, rfl⟩ := List.getElem?_eq_some_iff.mp hj
  exact List.pairwise_iff_getElem.mp h i j hilt hjlt hij

@[simp] theorem Image.length_read (S : Image) (rs : RangeSet) : (S.read rs).length = rs.blocks := by
  simp [Image.read]

theorem validRanges_eq_some {s : Text} {rs : RangeSet} (h : validRanges s = some rs) :
    (RangeSet.parse s).isValid = true ∧ RangeSet.parse s = rs := by
  rw [validRanges] at h
  split at h
  · rename_i hvalid
    exact ⟨hvalid, Option.some.inj h⟩
  · cases h

theorem Placed.length_eq {α : Type} {buffer blocks : List α} {positions : List Nat}
    (h : Placed buffer positions blocks) : positions.length = blocks.length := by
  simpa using congrArg List.length h

theorem Placed.getElem? {α : Type} {buffer blocks : List α} {positions : List Nat} {k i : Nat}
    (h : Placed buffer positions blocks) (hk : positions[k]? = some i) :
    buffer[i]? = blocks[k]? := by
  have hboth := congrArg (fun l => l[k]?) h
  simp only [List.getElem?_map, hk, Option.map_some] at hboth
  rcases hb : blocks[k]? with _ | b
  · rw [hb] at hboth
    cases hboth
  · rw [hb] at hboth
    exact Option.some.inj hboth

theorem placed_iff {α : Type} {buffer blocks : List α} {positions : List Nat} :
    Placed buffer positions blocks ↔ positions.length = blocks.length ∧
      ∀ k i : Nat, positions[k]? = some i → buffer[i]? = blocks[k]? := by
  refine ⟨fun h => ⟨h.length_eq, fun k i => h.getElem?⟩, fun ⟨hlen, h⟩ => ?_⟩
  refine List.ext_getElem? fun k => ?_
  simp only [List.getElem?_map]
  rcases hk : positions[k]? with _ | i
  · have : blocks[k]? = none := by
      rw [List.getElem?_eq_none_iff] at hk ⊢
      omega
    rw [this, Option.map_none, Option.map_none]
  · have hlt : k < blocks.length := hlen ▸ (List.getElem?_eq_some_iff.mp hk).1
    rw [Option.map_some, h k i hk, List.getElem?_eq_getElem hlt, Option.map_some]

theorem Source.Gathers.wrapBlocks_count {s : Source} {content : List Block}
    (h : s.Gathers env S content) : wrapBlocks s.count = s.count := by
  rw [wrapBlocks, Nat.mod_eq_of_lt h.fits, Nat.mul_div_cancel _ (by decide)]

end BootableRecovery.BlockImg
