import BootableRecovery.Updater.Keeps
import BootableRecovery.Updater.Teardown

/-!
# Verification is a dry run

`block_image_verify` runs the same functions as `block_image_update`. They decide by `canwrite`,
`createdstash`, `freestash` and `isunresumable` what they may change: the partition is never
written, a stash file is deleted only if its content does not match its name, and a stash directory
that the run has made is removed at its end. `CreateStash` makes the directory before it knows that
there is space for the stashes.
-/

namespace BootableRecovery.BlockImg

variable {env : Env} {τ : Type} {Mo : Monitor (Disk.apply env) τ} {I : CommandParameters → Prop}
    {S : τ → Prop}

/-! ## What a verification keeps -/

/-- A step that writes to the partition. -/
def Step.WritesPart : Step → Prop
  | .write .. | .writeBytes .. | .discard _ => True
  | _ => False

/-- The content of a stash file matches its name. A file that ends within a block is not even looked
at. -/
def StashFile.Matches (env : Env) (id : Text) (file : StashFile) : Prop :=
  file.tail.val = 0 → env.sha1 file.blocks = id

/-- A stash file of whole blocks, to which one of the ids is another path than its name. -/
def Aliased (env : Env) (ids : List Text) (name : Text) (file : StashFile) : Prop :=
  file.tail.val = 0 ∧ ∃ id ∈ ids, getStashFileName env id = name ∧ id ≠ name

theorem lookup_filter_ne {l : List (Text × β)} {k a : Text} (h : k ≠ a) :
    (l.filter fun x => x.1 ≠ a).lookup k = l.lookup k := by
  induction l with
  | nil => rfl
  | cons x l ih =>
    obtain ⟨k', b⟩ := x
    rw [List.filter_cons]
    split
    · rw [List.lookup_cons, List.lookup_cons, ih]
    · rename_i hk
      have hk : k' = a := by simpa using hk
      rw [ih, List.lookup_cons, hk, beq_false_of_ne h]

theorem stashFile_unlinkStash (d : Disk) {id' id : Text} (h : id' ≠ id) :
    (Disk.apply env d (.unlinkStash id)).stashFile id' = d.stashFile id' := by
  simp only [Disk.stashFile, Disk.apply, Option.bind_map]
  congr 1
  funext files
  exact lookup_filter_ne h

/-- No step so far has written to the partition. -/
def NotWritten (t : Disk × List Step) : Prop := ∀ e ∈ t.2, ¬e.WritesPart

theorem NotWritten.step {t : Disk × List Step} (h : NotWritten t) {e : Step} (he : ¬e.WritesPart) :
    NotWritten ((Monitor.history (Disk.apply env)).step t e) := by
  intro e' he'
  rcases List.mem_append.mp he' with he' | he'
  · exact h e' he'
  · cases List.mem_singleton.mp he'
    exact he

/-- What a verification that has started with the storage `d` and may check the stashes `ids` has
done so far. -/
structure Undisturbed (env : Env) (ids : List Text) (created : Bool) (d : Disk)
    (t : Disk × List Step) : Prop where
  part : NotWritten t
  files : ∀ name file, d.stashFile name = some file → file.Matches env name →
    ¬Aliased env ids name file → ((Monitor.history (Disk.apply env)).view t).stashFile name =
    some file
  empty : created = true → ((Monitor.history (Disk.apply env)).view t).stash = some []

namespace Undisturbed

variable {ids : List Text} {created : Bool} {d : Disk} {t : Disk × List Step}

theorem step (h : Undisturbed env ids created d t) {e : Step} (hpart : ¬e.WritesPart)
    (hstash : ∀ d', (Disk.apply env d' e).stash = d'.stash) :
    Undisturbed env ids created d ((Monitor.history (Disk.apply env)).step t e) where
  part := h.part.step hpart
  files name file hfile hmatch halias := by
    rw [Disk.stashFile, Monitor.view_step, hstash]
    exact h.files name file hfile hmatch halias
  empty hcreated := by
    rw [Monitor.view_step, hstash]
    exact h.empty hcreated

/-- The unlink of a stash file, if there is one, that does not match its name or has another
path. -/
theorem unlink (h : Undisturbed env ids created d t) {name : Text}
    (hbad : ∀ file, ((Monitor.history (Disk.apply env)).view t).stashFile name = some file →
      file.Matches env name → Aliased env ids name file) :
    Undisturbed env ids created d
    ((Monitor.history (Disk.apply env)).step t (.unlinkStash name)) where
  part := h.part.step not_false
  files name' file hfile hmatch halias := by
    have hkept := h.files name' file hfile hmatch halias
    have hne : name' ≠ name := by
      rintro rfl
      exact halias (hbad file hkept hmatch)
    rw [Monitor.view_step, stashFile_unlinkStash _ hne]
    exact hkept
  empty hcreated := by
    rw [Monitor.view_step]
    simp only [Disk.apply, h.empty hcreated, Option.map_some, List.filter_nil]

end Undisturbed

/-! ## The commands of a verification -/

variable {ids : List Text} {created : Bool} {reliable : Prop} {line : List Text → Prop} {d : Disk}

section

variable {tokens : List Text}

end

theorem Succeed.mono {m n : Nat} {faults : List Bool} (h : Succeed n faults) (hle : m ≤ n) :
    Succeed m faults :=
  fun fails hf => h fails ((List.take_prefix_take_left hle).subset hf)

/-- Storage with zeros on the partition, and the stash of one of its blocks. -/
def Disk.stashed : Disk := { Disk.start [] with stash := some [(['b'], ⟨[0], ⟨0, BLOCKSIZE_pos⟩⟩)] }

end BootableRecovery.BlockImg
