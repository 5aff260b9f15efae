import BootableRecovery.Bu.Callbacks
import BootableRecovery.Bu.Integrity

/-!
# Restoring any archive

`do_restore` with the memory that it uses: `sodbuf` and `eodbuf`, which libtar fills without a NUL
behind the contents, the table of partitions, and the current partition, by whose size
`update_progress` divides. A turn of the loop has a fault if it reads behind a buffer, uses a
partition that is not in the table, or divides by 0.
-/

namespace BootableRecovery.Bu

/-! ## Buffers -/

/-- `sodbuf` and `eodbuf`. -/
abbrev Buffer := List.Vector Char (PROP_LINE_LEN * 10)

/-- A buffer after some contents were put into it; the rest is as it was. -/
def fillBuffer (contents : Text) (before : Buffer) : Text :=
  contents ++ before.toList.drop contents.length

/-- The lines that the loop over `strchr(p, '\n')` finds, where `line` was read since `p`. The loop
stops at a NUL; no result if `strchr` reads behind the buffer. -/
def linesFrom : (line buf : Text) → Option (List Text)
  | _, [] => none
  | line, c :: buf =>
    if c = '\n' then (linesFrom [] buf).map (line :: ·)
    else if c = '\x00' then some []
    else linesFrom (line ++ [c]) buf

/-- The lines with `=`, each as its key and value. -/
def fieldsOf (lines : List Text) : List (Text × Text) :=
  (lines.filter ('=' ∈ ·)).map fun line =>
  (line.takeWhile (· ≠ '='), (line.dropWhile (· ≠ '=')).tail)

/-- The lines are those of the string in the buffer, which has to end there. -/
theorem linesFrom_eq (line buf : Text) (hline : '\n' ∉ line) : linesFrom line buf =
    if '\x00' ∈ buf then some (((line ++ cstr buf).splitOn '\n').dropLast) else none := by
  induction buf generalizing line with
  | nil => rfl
  | cons c buf ih =>
    rw [linesFrom]
    rcases Decidable.em (c = '\n') with rfl | hnewline
    · have hcstr : cstr ('\n' :: buf) = '\n' :: cstr buf := List.takeWhile_cons_of_pos (by decide)
      have hmem : '\x00' ∈ '\n' :: buf ↔ '\x00' ∈ buf := by simp
      rw [if_pos rfl, ih [] (by simp), hcstr, List.splitOn_append_cons_self,
        List.splitOn_eq_singleton hline, List.singleton_append,
        List.dropLast_cons_of_ne_nil (List.splitOn_ne_nil _ _), List.nil_append]
      simp only [hmem]
      split <;> rfl
    · rw [if_neg hnewline]
      rcases Decidable.em (c = '\x00') with rfl | hnull
      · have hcstr : cstr ('\x00' :: buf) = [] := List.takeWhile_cons_of_neg (by decide)
        rw [if_pos rfl, if_pos List.mem_cons_self, hcstr, List.append_nil,
          List.splitOn_eq_singleton hline]
        rfl
      · have hcstr : cstr (c :: buf) = c :: cstr buf :=
          List.takeWhile_cons_of_pos (by simpa using hnull)
        have hmem : '\x00' ∈ c :: buf ↔ '\x00' ∈ buf := by simp [Ne.symm hnull]
        rw [if_neg hnull, ih (line ++ [c]) (by simp [hline, Ne.symm hnewline]), hcstr,
          List.append_assoc, List.singleton_append]
        simp only [hmem]

/-! ## libtar -/

/-- What `do_restore` uses of libtar. A function that reads gets the blocks that the stream still
has and says how often it calls `tar_cb_read`. -/
structure TarReader where
  Header : Type
  thRead : List Block → Nat × ThRead Header
  pathname : Header → Text
  /-- `tar_extract_file_contents`: the bytes that it puts into the buffer. -/
  extractFileContents : Header → List Block → Nat × Option Text
  length_contents : ∀ h blocks contents,
    (extractFileContents h blocks).2 = some contents → contents.length ≤ PROP_LINE_LEN * 10
  extractFile : Header → Text → List Block → Nat × Int

/-! ## The state -/

variable {hashes : Hashes}

/-- The globals of a restore, and the blocks that are left. -/
structure Restoring (hashes : Hashes) where
  hash : HashState hashes
  parts : List PartSpec
  curpart : Option Nat
  blocks : List Block

/-- The partition that `curpart` points to. -/
def Restoring.cur (s : Restoring hashes) : Option PartSpec := s.curpart.bind fun i => s.parts[i]?

/-- Some calls of `tar_cb_read`, each with `update_progress`; no result where this divides by 0. The
bytes that it counts for the display are left out. -/
def Restoring.read (s : Restoring hashes) (n : Nat) : Option (Restoring hashes) :=
  if n ≠ 0 ∧ (updateProgress s.cur 0).isNone then none
  else some { s with hash := (s.blocks.take n).foldl tarCbRead s.hash, blocks := s.blocks.drop n }

/-- How a turn of the loop ends. -/
inductive Turn (State : Type)
  | fault
  | stop (rc : Int)
  | next (s : State)

theorem Turn.stop_ne_fault (rc : Int) : (Turn.stop rc : Turn State) ≠ .fault := nofun

theorem Turn.next_ne_fault (s : State) : Turn.next s ≠ .fault := nofun

/-! ## The metadata -/

variable (lib : TarReader) (dev : Device)

/-- `part_add` on the table. -/
def addPart (parts : List PartSpec) (name : Text) : List PartSpec :=
  if (partAdd dev (parts.map PartSpec.name) name).1 then parts ++ [⟨name, 0, 0, 0⟩] else parts

/-- The variables of `verify_sod`. -/
structure SodVars where
  hashname : Text
  product : Text
  parts : List PartSpec

/-- A key with the name of a partition. -/
def isPartKey (key : Text) : Prop := "fs.".toList <+: key ∧ '.' ∈ key.drop 3

instance : Decidable (isPartKey key) := inferInstanceAs (Decidable (_ ∧ _))

def partName (key : Text) : Text := (key.drop 3).takeWhile (· ≠ '.')

def partAttr (key : Text) : Text := ((key.drop 3).dropWhile (· ≠ '.')).tail

/-- The attributes for which the partition is used. -/
def isSizeAttr (attr : Text) : Prop := attr = "size".toList ∨ attr = "used".toList

instance : Decidable (isSizeAttr attr) := inferInstanceAs (Decidable (_ ∨ _))

/-- A size of a partition. -/
def setSize (attr val : Text) (part : PartSpec) : PartSpec :=
  { part with
    size := if attr = "size".toList then strtoul val else part.size
    used := if attr = "used".toList then strtoul val else part.used }

/-- The hash name or the product in a line. -/
def SodVars.assign (s : SodVars) (field : Text × Text) : SodVars :=
  { s with
    hashname := if field.1 = "hash.name".toList then field.2.take PROPERTY_VALUE_MAX else s.hashname
    product := if field.1 = "ro.product.device".toList then field.2.take PROPERTY_VALUE_MAX
      else s.product }

/-- One line of the SOD; no result if `part` is the null pointer where it is used. -/
def sodField (s : SodVars) (field : Text × Text) : Option SodVars :=
  if isPartKey field.1 then
    let parts := addPart dev s.parts (partName field.1)
    match parts.findIdx? (·.name = partName field.1) with
    | none => if isSizeAttr (partAttr field.1) then none else some { s.assign field with parts }
    | some i =>
      some { s.assign field with parts := parts.modify i (setSize (partAttr field.1) field.2) }
  else some (s.assign field)

/-- `verify_sod` on the buffer. -/
def verifySodIn (s : Restoring hashes) (buf : Text) : Turn (Restoring hashes) :=
  match linesFrom [] buf with
  | none => .fault
  | some lines =>
    match (fieldsOf lines).foldlM (sodField dev) ⟨[], [], s.parts⟩ with
    | none => .fault
    | some v =>
      if v.hashname = [] then .stop (-1)
      else if v.product = [] then .stop (-1)
      else if v.product ≠ dev.product then .stop (-1)
      else .next { s with hash.hashName := some v.hashname, parts := v.parts }

/-- `verify_eod` on the buffer, where `save` is the hash before the entry. -/
def verifyEodIn (save : HashState hashes) (s : Restoring hashes) (buf : Text) :
    Turn (Restoring hashes) :=
  match linesFrom [] buf with
  | none => .fault
  | some _ => if verifyEod save (cstr buf) then .next s else .stop (-1)

/-! ## The loop -/

/-- `verify_sod` or `verify_eod`, with what `tar_extract_file_contents` does before. -/
def metadataTurn (s : Restoring hashes) (before : Buffer) (extracted : Nat × Option Text)
    (verify : Restoring hashes → Text → Turn (Restoring hashes)) : Turn (Restoring hashes) :=
  match s.read extracted.1 with
  | none => .fault
  | some s =>
    match extracted.2 with
    | none => .stop (-1)
    | some contents => verify s (fillBuffer contents before)

/-- `part_find` and `part_set`, with what `tar_extract_file` does then. -/
def volumeTurn (s : Restoring hashes) (name : Text) (extracted : Nat × Int) :
    Turn (Restoring hashes) :=
  match s.parts.findIdx? (·.name = name) with
  -- `part_set` of the null pointer
  | none => .fault
  | some i =>
    match ({ s with curpart := some i, parts := s.parts.modify i partSet } : Restoring hashes).read
      extracted.1 with
    | none => .fault
    | some s => if extracted.2 = 0 then .next s else .stop extracted.2

/-- A turn of the loop of `do_restore`. The buffer was as it is before. -/
def turn (s : Restoring hashes) (before : Buffer) : Turn (Restoring hashes) :=
  match s.read (lib.thRead s.blocks).1 with
  | none => .fault
  | some s₁ =>
    match (lib.thRead s.blocks).2 with
    | .eof => .stop 0
    | .error => .stop (-1)
    | .entry h =>
      if lib.pathname h = "SOD".toList then
        metadataTurn s₁ before (lib.extractFileContents h s₁.blocks) (verifySodIn dev)
      else if lib.pathname h = "EOD".toList then
        metadataTurn s₁ before (lib.extractFileContents h s₁.blocks) (verifyEodIn s.hash)
      else
        match dev.volumeForMountPoint (lib.pathname h) with
        | none => .next s₁
        | some blkDevice => volumeTurn s₁ (lib.pathname h) (lib.extractFile h blkDevice s₁.blocks)

/-- Some turns, with what is in the buffers before each. -/
def turns (s : Restoring hashes) : List Buffer → Turn (Restoring hashes)
  | [] => .next s
  | before :: befores =>
    match turn lib dev s before with
    | .next s => turns s befores
    | .fault => .fault
    | .stop rc => .stop rc

/-- The globals after `create_tar`; nothing if `recv` fails or returns less than 2 bytes, where
`do_restore` returns -1. -/
def startRestore (hashes : Hashes) (stream : Stream) : Option (Restoring hashes) :=
  if stream.peeked.getD 0 < 2 then none else some ⟨HashState.created, [], none, stream.blocks⟩

/-! ## Malformed metadata -/

/-- The SOD has no hash name, or not the product of the device. -/
def SodMalformed (text : Text) : Prop :=
  ((lastValue "hash.name".toList text).getD []) = [] ∨
  ((lastValue "ro.product.device".toList text).getD []) = [] ∨
    ((lastValue "ro.product.device".toList text).getD []).take PROPERTY_VALUE_MAX ≠ dev.product

/-- The EOD does not report the length and the digest of what was read. -/
def EodMalformed (save : HashState hashes) (text : Text) : Prop :=
  ¬(reportedDatalen text = save.hashDatalen ∧
    hexdigest (save.final ((save.hashName.map kindOf).getD .md5)) <+: hashValue text)

/-- The next entry is a SOD or an EOD that cannot be extracted or says something wrong. -/
def Malformed (s : Restoring hashes) (before : Buffer) : Prop :=
  ∃ h, (lib.thRead s.blocks).2 = .entry h ∧
    let contents := (lib.extractFileContents h (s.blocks.drop (lib.thRead s.blocks).1)).2
    (lib.pathname h = "SOD".toList ∧
      ∀ text ∈ contents, SodMalformed dev (cstr (fillBuffer text before))) ∨
      (lib.pathname h = "EOD".toList ∧
        ∀ text ∈ contents, EodMalformed s.hash (cstr (fillBuffer text before)))

/-- Some turns have no fault, and malformed metadata in one of them end the restore with an
error. -/
structure TurnsRight (s : Restoring hashes) (befores : List Buffer) : Prop where
  no_fault : turns lib dev s befores ≠ .fault
  malformed : ∀ front before back t, befores = front ++ before :: back →
    turns lib dev s front = .next t → Malformed lib dev t before →
    ∃ rc ≠ 0, turns lib dev s befores = .stop rc

/-! ## The condition of a turn -/

/-- A number of reads does not divide by 0. -/
def ReadsSafely (curpart : Option PartSpec) (n : Nat) : Prop := n = 0 ∨ Countable curpart

/-- Each size in the metadata is for a partition that is in the table, or can be added to it. -/
def NamesKnown : (parts : List Text) → List (Text × Text) → Prop
  | _, [] => True
  | parts, field :: fields =>
    let parts' := if isPartKey field.1 then (partAdd dev parts (partName field.1)).2 else parts
    (isPartKey field.1 → isSizeAttr (partAttr field.1) → partName field.1 ∈ parts') ∧
      NamesKnown parts' fields

/-- The contents have a NUL behind them in the buffer, and the metadata are about known
partitions. -/
structure SodSafe (parts : List PartSpec) (buf : Text) : Prop where
  terminated : '\x00' ∈ buf
  names : NamesKnown dev (parts.map PartSpec.name) (fields (cstr buf))

/-- The condition of a turn, on the state and on the next entry. -/
def TurnGuard (s : Restoring hashes) (before : Buffer) : Prop :=
  ReadsSafely s.cur (lib.thRead s.blocks).1 ∧ ∀ h, (lib.thRead s.blocks).2 = .entry h →
    let blocks := s.blocks.drop (lib.thRead s.blocks).1
    if lib.pathname h = "SOD".toList then
      ReadsSafely s.cur (lib.extractFileContents h blocks).1 ∧
        ∀ text ∈ (lib.extractFileContents h blocks).2, SodSafe dev s.parts (fillBuffer text before)
    else if lib.pathname h = "EOD".toList then
      ReadsSafely s.cur (lib.extractFileContents h blocks).1 ∧
        ∀ text ∈ (lib.extractFileContents h blocks).2, '\x00' ∈ fillBuffer text before
    else
      ∀ blkDevice ∈ dev.volumeForMountPoint (lib.pathname h),
        ∃ part, s.parts.find? (·.name = lib.pathname h) = some part ∧
          ReadsSafely (some part) (lib.extractFile h blkDevice blocks).1

/-- The condition in each of some turns. -/
def TurnsGuard (s : Restoring hashes) (befores : List Buffer) : Prop :=
  ∀ front before back t, befores = front ++ before :: back → turns lib dev s front = .next t →
    TurnGuard lib dev t before

/-! ## Reading -/

theorem Restoring.read_isSome {s : Restoring hashes} {n : Nat} : (s.read n).isSome ↔
    ReadsSafely s.cur n := by
  rw [Restoring.read, ReadsSafely, ← @updateProgress_isSome 0]
  split
  · rename_i h
    exact iff_of_false (by simp) fun hs =>
      hs.elim h.1 fun hs => by simp [Option.isNone_iff_eq_none.mp h.2] at hs
  · rename_i h
    refine iff_of_true rfl ?_
    rcases Nat.eq_zero_or_pos n with hn | hn
    · exact .inl hn
    · refine .inr ?_
      rw [← Option.isNone_eq_false_iff, ← Bool.not_eq_true]
      exact fun hnone => h ⟨Nat.ne_of_gt hn, hnone⟩

theorem Restoring.read_eq_some {s s' : Restoring hashes} {n : Nat} (h : s.read n = some s') :
    s' = { s with hash := (s.blocks.take n).foldl tarCbRead s.hash, blocks := s.blocks.drop n }
    := by
  rw [Restoring.read] at h
  split at h
  · cases h
  · exact (Option.some.inj h).symm

theorem Restoring.read_eq_none {s : Restoring hashes} {n : Nat} (h : s.read n = none) :
    ¬ReadsSafely s.cur n := by
  rw [← Restoring.read_isSome, h]
  exact Bool.false_ne_true

/-! ## The SOD -/

section
variable {dev} {parts : List PartSpec}

theorem addPart_names (name : Text) :
    (addPart dev parts name).map PartSpec.name =
    (partAdd dev (parts.map PartSpec.name) name).2 := by
  rw [addPart]
  split
  · rename_i h
    rw [List.map_append, (partAdd_eq_true h).2.2.2]
    rfl
  · rename_i h
    rw [partAdd] at h ⊢
    split
    · rfl
    · split
      · rfl
      · split
        · rfl
        · rename_i h₁ h₂ h₃
          rw [if_neg h₁, if_neg h₂, if_neg h₃] at h
          exact absurd rfl h

theorem findIdx?_name_isSome (name : Text) :
    (parts.findIdx? (·.name = name)).isSome ↔ name ∈ parts.map PartSpec.name := by
  rw [List.findIdx?_isSome, List.any_eq_true, List.mem_map]
  simp only [decide_eq_true_eq]

theorem modify_names (i : Nat) {f : PartSpec → PartSpec} (hf : ∀ part, (f part).name = part.name) :
    (parts.modify i f).map PartSpec.name = parts.map PartSpec.name := by
  refine List.ext_getElem (by simp) fun j _ _ => ?_
  rw [List.getElem_map, List.getElem_map, List.getElem_modify]
  split
  · rw [hf]
  · rfl

/-- One line: the names of the table then, and where `part` is the null pointer. -/
theorem sodField_spec (s : SodVars) (field : Text × Text) :
    let parts' :=
  if isPartKey field.1 then (partAdd dev (s.parts.map PartSpec.name) (partName field.1)).2
      else s.parts.map PartSpec.name
    ((sodField dev s field).isSome ↔
      (isPartKey field.1 → isSizeAttr (partAttr field.1) → partName field.1 ∈ parts')) ∧
    ∀ v, sodField dev s field = some v → v.parts.map PartSpec.name = parts' ∧
      v.hashname = (s.assign field).hashname ∧ v.product = (s.assign field).product := by
  rw [sodField]
  split
  · rename_i hkey
    simp only [hkey, true_implies, ← addPart_names, ← findIdx?_name_isSome]
    cases hfind : (addPart dev s.parts (partName field.1)).findIdx? (·.name = partName field.1) with
    | none =>
      dsimp only
      split
      · rename_i hattr
        exact ⟨iff_of_false (by simp) fun h => Bool.false_ne_true (h hattr), nofun⟩
      · rename_i hattr
        refine ⟨iff_of_true rfl fun h => absurd h hattr, ?_⟩
        rintro _ ⟨⟩
        exact ⟨rfl, rfl, rfl⟩
    | some i =>
      refine ⟨iff_of_true rfl fun _ => rfl, ?_⟩
      rintro _ ⟨⟩
      exact ⟨modify_names i fun _ => rfl, rfl, rfl⟩
  · rename_i hkey
    refine ⟨iff_of_true rfl fun h => absurd h hkey, ?_⟩
    rintro _ ⟨⟩
    exact ⟨rfl, rfl, rfl⟩

theorem sodFields_isSome (s : SodVars) (fields : List (Text × Text)) :
    (fields.foldlM (sodField dev) s).isSome ↔
    NamesKnown dev (s.parts.map PartSpec.name) fields := by
  induction fields generalizing s with
  | nil => exact iff_of_true rfl trivial
  | cons field fields ih =>
    obtain ⟨hsome, hspec⟩ := @sodField_spec dev s field
    rw [List.foldlM_cons, NamesKnown, ← hsome]
    cases hfield : sodField dev s field with
    | none => simp
    | some v =>
      rw [← (hspec v hfield).1, ← ih v]
      simp

/-- The values of the last lines with a key, after those that a fold had before. -/
theorem getLast?_filter_cons (key : Text) (field : Text × Text) (fields : List (Text × Text))
    (default : Text) :
    ((((field :: fields).filter (·.1 = key)).getLast?.map Prod.snd).map
      (List.take PROPERTY_VALUE_MAX)).getD default =
      (((fields.filter (·.1 = key)).getLast?.map Prod.snd).map (List.take PROPERTY_VALUE_MAX)).getD
        (if field.1 = key then field.2.take PROPERTY_VALUE_MAX else default) := by
  rw [List.filter_cons]
  rcases Decidable.em (field.1 = key) with heq | hne
  · rw [if_pos (decide_eq_true heq), if_pos heq, List.getLast?_cons]
    cases (fields.filter (·.1 = key)).getLast? <;> rfl
  · rw [if_neg (by simpa using hne), if_neg hne]

theorem sodFields_values {s v : SodVars} {fields : List (Text × Text)}
    (h : fields.foldlM (sodField dev) s = some v) :
    v.hashname = (((fields.filter (·.1 = "hash.name".toList)).getLast?.map Prod.snd).map
        (List.take PROPERTY_VALUE_MAX)).getD s.hashname ∧
      v.product = (((fields.filter (·.1 = "ro.product.device".toList)).getLast?.map Prod.snd).map
        (List.take PROPERTY_VALUE_MAX)).getD s.product := by
  induction fields generalizing s with
  | nil =>
    cases h
    exact ⟨rfl, rfl⟩
  | cons field fields ih =>
    obtain ⟨w, hfield, h⟩ := Option.bind_eq_some_iff.mp h
    obtain ⟨-, hname, hproduct⟩ := (@sodField_spec dev s field).2 w hfield
    rw [getLast?_filter_cons, getLast?_filter_cons]
    obtain ⟨hhash, hprod⟩ := ih h
    rw [hhash, hname, hprod, hproduct]
    exact ⟨rfl, rfl⟩

theorem fields_cstr {buf : Text} (h : '\x00' ∈ buf) :
    ∃ lines, linesFrom [] buf = some lines ∧ fieldsOf lines = fields (cstr buf) := by
  rw [linesFrom_eq [] buf (by simp), if_pos h, List.nil_append]
  exact ⟨_, rfl, rfl⟩

theorem lastValue_take_eq_nil {key text : Text} :
    ((lastValue key text).map (List.take PROPERTY_VALUE_MAX)).getD [] = [] ↔
    (lastValue key text).getD [] = [] := by
  cases lastValue key text with
  | none => exact Iff.rfl
  | some value =>
    show value.take 92 = [] ↔ value = []
    cases value <;> simp

theorem lastValue_take {key text : Text} :
    ((lastValue key text).getD []).take PROPERTY_VALUE_MAX =
      ((lastValue key text).map (List.take PROPERTY_VALUE_MAX)).getD [] := by
  cases lastValue key text with
  | none => rfl
  | some value => rfl

/-- `verify_sod` has a fault just if the buffer is not terminated or a partition is not known; and
malformed metadata are an error. -/
theorem verifySodIn_spec (s : Restoring hashes) (buf : Text) :
    (verifySodIn dev s buf ≠ .fault ↔ SodSafe dev s.parts buf) ∧
      (SodSafe dev s.parts buf → SodMalformed dev (cstr buf) →
        verifySodIn dev s buf = .stop (-1)) := by
  rw [verifySodIn]
  rcases Decidable.em ('\x00' ∈ buf) with hnull | hnull
  · obtain ⟨lines, hlines, hfields⟩ := fields_cstr hnull
    have hknown := @sodFields_isSome dev ⟨[], [], s.parts⟩ (fields (cstr buf))
    rw [hlines]
    dsimp only at hknown ⊢
    rw [hfields]
    cases hfold : (fields (cstr buf)).foldlM (sodField dev) ⟨[], [], s.parts⟩ with
    | none =>
      rw [hfold] at hknown
      have hunsafe : ¬SodSafe dev s.parts buf := fun h => Bool.false_ne_true (hknown.mpr h.names)
      exact ⟨iff_of_false (not_not_intro rfl) hunsafe, fun h => absurd h hunsafe⟩
    | some v =>
      rw [hfold] at hknown
      obtain ⟨hhash, hproduct⟩ := sodFields_values hfold
      rw [← lastValue] at hhash hproduct
      dsimp only at hhash hproduct ⊢
      refine ⟨iff_of_true ?_ ⟨hnull, hknown.mp rfl⟩, fun _ hmal => ?_⟩
      · split
        · exact Turn.stop_ne_fault _
        · split
          · exact Turn.stop_ne_fault _
          · split
            · exact Turn.stop_ne_fault _
            · exact Turn.next_ne_fault _
      · rcases hmal with hnone | hnone | hother
        · rw [if_pos (hhash.trans (lastValue_take_eq_nil.mpr hnone))]
        · rw [if_pos (hproduct.trans (lastValue_take_eq_nil.mpr hnone)), ite_self]
        · have hne : v.product ≠ dev.product := by
            rwa [hproduct, ← lastValue_take]
          rw [if_pos hne, ite_self, ite_self]
  · rw [linesFrom_eq [] buf (by simp), if_neg hnull]
    have hunsafe : ¬SodSafe dev s.parts buf := fun h => hnull h.terminated
    exact ⟨iff_of_false (not_not_intro rfl) hunsafe, fun h => absurd h hunsafe⟩

end

theorem verifyEodIn_spec (save s : Restoring hashes) (buf : Text) :
    (verifyEodIn save.hash s buf ≠ .fault ↔ '\x00' ∈ buf) ∧
      ('\x00' ∈ buf → EodMalformed save.hash (cstr buf) →
        verifyEodIn save.hash s buf = .stop (-1)) := by
  rw [verifyEodIn]
  rcases Decidable.em ('\x00' ∈ buf) with hnull | hnull
  · obtain ⟨lines, hlines, -⟩ := fields_cstr hnull
    rw [hlines]
    dsimp only
    refine ⟨iff_of_true ?_ hnull, fun _ hmal => if_neg fun h => ?_⟩
    · split
      · exact Turn.next_ne_fault _
      · exact Turn.stop_ne_fault _
    · rw [verifyEod, decide_eq_true_iff] at h
      exact hmal ⟨h.1, h.2.trans (List.take_prefix _ _)⟩
  · rw [linesFrom_eq [] buf (by simp), if_neg hnull]
    exact ⟨iff_of_false (not_not_intro rfl) hnull, fun h => absurd h hnull⟩

/-! ## A turn -/

section
variable {lib dev} {s : Restoring hashes} {before : Buffer}

/-- A SOD or an EOD, where `verify` has no fault just for safe buffers, and ends with an error for
malformed ones. -/
theorem metadataTurn_spec {extracted : Nat × Option Text}
    {verify : Restoring hashes → Text → Turn (Restoring hashes)}
    (safe malformed : Text → Prop)
    (hverify : ∀ s', s.read extracted.1 = some s' → ∀ buf, (verify s' buf ≠ .fault ↔ safe buf) ∧
      (safe buf → malformed buf → verify s' buf = .stop (-1))) :
    (metadataTurn s before extracted verify ≠ .fault ↔
      ReadsSafely s.cur extracted.1 ∧ ∀ text ∈ extracted.2, safe (fillBuffer text before)) ∧
    (metadataTurn s before extracted verify ≠ .fault →
      (∀ text ∈ extracted.2, malformed (fillBuffer text before)) →
        metadataTurn s before extracted verify = .stop (-1)) := by
  rw [metadataTurn]
  cases hread : s.read extracted.1 with
  | none =>
    exact ⟨iff_of_false (not_not_intro rfl) fun h => Restoring.read_eq_none hread h.1, fun h =>
      absurd rfl h⟩
  | some s' =>
    have hsafe := Restoring.read_isSome.mp (Option.isSome_iff_exists.mpr ⟨s', hread⟩)
    rw [and_iff_right hsafe]
    cases extracted.2 with
    | none => exact ⟨iff_of_true nofun nofun, fun _ _ => rfl⟩
    | some contents =>
      obtain ⟨hfault, hstop⟩ := hverify s' hread (fillBuffer contents before)
      simp only [Option.mem_some_iff, forall_eq']
      exact ⟨hfault, fun h => hstop (hfault.mp h)⟩

/-- The partition is in the table, and what is read is divided by its size. -/
theorem volumeTurn_iff {name : Text} {extracted : Nat × Int} :
    volumeTurn s name extracted ≠ .fault ↔ ∃ part, s.parts.find? (·.name = name) = some part ∧
    ReadsSafely (some part) extracted.1 := by
  rw [volumeTurn, List.find?_eq_bind_findIdx?_getElem?]
  cases hfind : s.parts.findIdx? (·.name = name) with
  | none => exact iff_of_false (not_not_intro rfl) (by simp)
  | some i =>
    obtain ⟨hi, -⟩ := List.findIdx?_eq_some_iff_getElem.mp hfind
    rw [Option.bind_some, List.getElem?_eq_getElem hi]
    have hsafe : ReadsSafely (some s.parts[i]) extracted.1 ↔
        (({ s with curpart := some i, parts := s.parts.modify i partSet } : Restoring hashes).read
          extracted.1).isSome := by
      rw [Restoring.read_isSome, Restoring.cur]
      have hcur : (s.parts.modify i partSet)[i]? = some (partSet s.parts[i]) := by simp [hi]
      rw [Option.bind_some, hcur, ReadsSafely, ReadsSafely, Countable, Countable]
      simp [partSet]
    simp only [Option.some.injEq, exists_eq_left', hsafe]
    cases ({ s with curpart := some i, parts := s.parts.modify i partSet } : Restoring hashes).read
      extracted.1 with
    | none => exact iff_of_false (not_not_intro rfl) (by simp)
    | some s' =>
      refine iff_of_true ?_ rfl
      dsimp only
      split
      · exact Turn.next_ne_fault _
      · exact Turn.stop_ne_fault _

/-- A turn has no fault just where its condition holds, and it ends with an error for malformed
metadata then. -/
theorem turn_spec : (turn lib dev s before ≠ .fault ↔ TurnGuard lib dev s before) ∧
    (turn lib dev s before ≠ .fault → Malformed lib dev s before →
      turn lib dev s before = .stop (-1)) := by
  cases hread : s.read (lib.thRead s.blocks).1 with
  | none =>
    have hfault : turn lib dev s before = .fault := by rw [turn, hread]
    exact ⟨iff_of_false (not_not_intro hfault) fun h => Restoring.read_eq_none hread h.1, fun h =>
      absurd hfault h⟩
  | some s₁ =>
    have hsafe := Restoring.read_isSome.mp (Option.isSome_iff_exists.mpr ⟨s₁, hread⟩)
    have hs₁ := Restoring.read_eq_some hread
    rw [TurnGuard, and_iff_right hsafe, Malformed, turn, hread]
    cases hheader : (lib.thRead s.blocks).2 with
    | eof => exact ⟨iff_of_true nofun nofun, by simp⟩
    | error => exact ⟨iff_of_true nofun nofun, by simp⟩
    | entry h =>
      have hcur : s₁.cur = s.cur := by rw [hs₁]; rfl
      have hparts : s₁.parts = s.parts := by rw [hs₁]
      have hblocks : s₁.blocks = s.blocks.drop (lib.thRead s.blocks).1 := by rw [hs₁]
      simp only [ThRead.entry.injEq, exists_eq_left', forall_eq', ← hblocks, ← hcur]
      rcases Decidable.em (lib.pathname h = "SOD".toList) with hsod | hsod
      · have hne : ¬lib.pathname h = "EOD".toList := by rw [hsod]; decide
        simp only [if_pos hsod, hne, false_and, or_false, and_iff_right hsod]
        refine metadataTurn_spec (SodSafe dev s.parts) (SodMalformed dev <| cstr ·)
          fun s' hread' buf => ?_
        have hparts' : s'.parts = s.parts := by rw [Restoring.read_eq_some hread', hparts]
        rw [← hparts']
        exact verifySodIn_spec s' buf
      · rcases Decidable.em (lib.pathname h = "EOD".toList) with heod | heod
        · simp only [if_pos heod, hsod, if_false, false_and, false_or, and_iff_right heod]
          exact metadataTurn_spec ('\x00' ∈ ·) (EodMalformed s.hash <| cstr ·) fun s' _ buf =>
            verifyEodIn_spec s s' buf
        · simp only [hsod, heod, if_false, false_and, or_false, false_implies, implies_true,
            and_true, ← hparts]
          cases dev.volumeForMountPoint (lib.pathname h) with
          | none => exact iff_of_true nofun nofun
          | some blkDevice =>
            simp only [Option.mem_some_iff, forall_eq']
            exact volumeTurn_iff

end

/-! ## A restore -/

section
variable {lib dev} {s : Restoring hashes} {before : Buffer} {befores : List Buffer}

theorem forall_turns_cons {P : Restoring hashes → Buffer → Prop} :
    (∀ front before' back t, before :: befores = front ++ before' :: back →
      turns lib dev s front = .next t → P t before') ↔
    P s before ∧ ∀ s', turn lib dev s before = .next s' →
      ∀ front before' back t, befores = front ++ before' :: back →
      turns lib dev s' front = .next t → P t before' := by
  constructor
  · intro h
    refine ⟨h [] before befores s rfl rfl, fun s' hnext front before' back t hsplit ht => ?_⟩
    exact h (before :: front) before' back t (by rw [hsplit]; rfl) (by rw [turns, hnext]; exact ht)
  · rintro ⟨hhead, htail⟩ front before' back t hsplit ht
    cases front with
    | nil =>
      cases hsplit
      cases ht
      exact hhead
    | cons b front =>
      cases hsplit
      rw [turns] at ht
      cases hturn : turn lib dev s before with
      | fault => rw [hturn] at ht; cases ht
      | stop rc => rw [hturn] at ht; cases ht
      | next s' =>
        rw [hturn] at ht
        exact htail s' hturn front before' back t rfl ht

theorem turnsGuard_cons : TurnsGuard lib dev s (before :: befores) ↔ TurnGuard lib dev s before ∧
    ∀ s', turn lib dev s before = .next s' → TurnsGuard lib dev s' befores :=
  forall_turns_cons

theorem turnsRight_cons : TurnsRight lib dev s (before :: befores) ↔
    turn lib dev s before ≠ .fault ∧ ∀ s', turn lib dev s before = .next s' →
    TurnsRight lib dev s' befores := by
  obtain ⟨-, hmalformed⟩ := @turn_spec _ lib dev s before
  cases hturn : turn lib dev s before with
  | fault =>
    refine iff_of_false (fun h => h.no_fault ?_) fun h => h.1 rfl
    rw [turns, hturn]
  | stop rc =>
    have hturns : turns lib dev s (before :: befores) = .stop rc := by rw [turns, hturn]
    refine iff_of_true ⟨by rw [hturns]; nofun, forall_turns_cons.mpr ⟨fun hmal => ?_, ?_⟩⟩
      ⟨nofun, nofun⟩
    · rw [hturn] at hmalformed
      rw [hturns, hmalformed nofun hmal]
      exact ⟨-1, by decide, rfl⟩
    · rw [hturn]
      nofun
  | next s' =>
    have hturns :
        turns lib dev s (before :: befores) = turns lib dev s' befores := by rw [turns, hturn]
    have hwell : ¬Malformed lib dev s before := by
      rw [hturn] at hmalformed
      intro hmal
      cases hmalformed nofun hmal
    constructor
    · rintro ⟨hfault, hmal⟩
      refine ⟨nofun, ?_⟩
      rintro _ ⟨⟩
      rw [hturns] at hfault hmal
      exact ⟨hfault, (forall_turns_cons.mp hmal).2 s' hturn⟩
    · rintro ⟨-, hright⟩
      obtain ⟨hfault, hmal⟩ := hright s' rfl
      refine ⟨by rwa [hturns], forall_turns_cons.mpr ⟨fun h => absurd h hwell, ?_⟩⟩
      rw [hturn, hturns]
      rintro _ ⟨⟩
      exact hmal

theorem turnsRight_iff : TurnsRight lib dev s befores ↔ TurnsGuard lib dev s befores := by
  induction befores generalizing s with
  | nil =>
    refine iff_of_true ⟨nofun, fun front before back t hsplit => ?_⟩
      fun front before back t hsplit => ?_
    · cases front <;> cases hsplit
    · cases front <;> cases hsplit
  | cons before befores ih =>
    obtain ⟨hfault, -⟩ := @turn_spec _ lib dev s before
    rw [turnsGuard_cons, turnsRight_cons, hfault]
    simp only [ih]

end

/-- `do_restore` on an archive is right. -/
def RestoreRight (hashes : Hashes) (stream : Stream) (befores : List Buffer) : Prop :=
  ∀ s ∈ startRestore hashes stream, TurnsRight lib dev s befores

/-- The condition for an archive: in each turn, nothing is read while the current partition has the
size 0, the metadata have a NUL behind them and are about partitions that can be in the table, and a
volume is in it. -/
def RestoreGuard (hashes : Hashes) (stream : Stream) (befores : List Buffer) : Prop :=
  ∀ s ∈ startRestore hashes stream, TurnsGuard lib dev s befores

theorem restoreRight_iff (lib : TarReader) (dev : Device) (hashes : Hashes) (stream : Stream)
    (befores : List Buffer) : RestoreRight lib dev hashes stream befores ↔
    RestoreGuard lib dev hashes stream befores :=
  forall₂_congr fun _ _ => turnsRight_iff

namespace Sample

theorem length_ofBytes_take (l : List UInt8) (n : Nat) (h : ¬1270 < n) :
    (ofBytes (l.take n)).length ≤ 1270 := by
  rw [ofBytes, List.length_map, List.length_take]
  exact (Nat.min_le_left _ _).trans (Nat.le_of_not_lt h)

/-- libtar, for names of up to 100 bytes. -/
def tarReader : TarReader where
  Header := Text × Nat
  thRead := tar.thRead
  pathname := Prod.fst
  extractFileContents h bs :=
    let n := blocksFor h.2
    if 1270 < h.2 then (0, none)
    else if (bs.take n).length < n then (n, none)
    else (n, some (ofBytes ((bytesOf (bs.take n)).take h.2)))
  length_contents h bs contents hcontents := by
    dsimp only at hcontents
    split at hcontents
    · cases hcontents
    · rename_i hlen
      split at hcontents
      · cases hcontents
      · cases hcontents
        exact length_ofBytes_take _ _ hlen
  extractFile := tar.extractFile

/-- The volume `boot` without a SOD before it. -/
def bare : Stream := ⟨some 512, headerBlock boot 3 :: (contentBlocks [1, 2, 3] ++ tar.appendEof)⟩

def zeros : Buffer := List.Vector.replicate _ '\x00'

end Sample

open Sample in
/-- `part_set` gets the null pointer for the first partition of an archive without a SOD. -/
theorem not_restoreRight : ¬∀ (lib : TarReader) (dev : Device) (hashes : Hashes) (stream : Stream)
    (befores : List Buffer), RestoreRight lib dev hashes stream befores := by
  intro h
  have hguard := (restoreRight_iff _ _ _ _ _).mp (h tarReader device sums bare [zeros])
  have hturn := hguard ⟨HashState.created, [], none, bare.blocks⟩ rfl [] zeros [] _ rfl rfl
  have hzero : isZero (headerBlock boot 3) = false := by decide +kernel
  have hheader : headerOf (headerBlock boot 3) = (boot, 3) := by decide +kernel
  have hread :
      (tarReader.thRead bare.blocks).2 = .entry (boot, 3) := by
      simp [tarReader, tar, bare, hzero, hheader]
  obtain ⟨part, hpart, -⟩ := hturn.2 (boot, 3) hread _ volume_boot
  cases hpart

end BootableRecovery.Bu
