import Mathlib.Data.List.Infix

/-!
# File trees

Files and directories by their paths, with the removal of trees and the unpacking of archives. What
unpacking does is limited to a directory (`unpack_of_not_isPrefix`), and removal only takes files
away (`Shrinks`).
-/

namespace BootableRecovery

/-- What stands at a path. -/
inductive Node (β : Type)
  | dir
  | file (content : β)
  deriving DecidableEq

def Node.isDir : Node β → Bool
  | .dir => true
  | .file _ => false

/-- The nodes of a file system. -/
abbrev FileTree (α β : Type) := List α → Option (Node β)

namespace FileTree

variable {α β : Type} {t t' t'' : FileTree α β} {p q dir : List α} {c : β} {n : Node β}

def empty : FileTree α β := fun _ => none

def content (t : FileTree α β) (p : List α) : Option β :=
  match t p with
  | some (.file c) => some c
  | _ => none

theorem content_eq_some : t.content p = some c ↔ t p = some (.file c) := by
  unfold content
  split <;> simp_all

theorem content_congr (h : t' p = t p) : t'.content p = t.content p := by
  rw [content, h]
  rfl

/-- Files were removed at most. -/
def Shrinks (t t' : FileTree α β) : Prop := ∀ p c, t'.content p = some c → t.content p = some c

theorem Shrinks.refl : Shrinks t t := fun _ _ h => h

theorem Shrinks.trans (h : Shrinks t t') (h' : Shrinks t' t'') : Shrinks t t'' :=
  fun p c hc => h p c (h' p c hc)

variable [DecidableEq α]

def put (t : FileTree α β) (p : List α) (n : Node β) : FileTree α β :=
  fun q => if q = p then some n else t q

def rm (t : FileTree α β) (p : List α) : FileTree α β := fun q => if q = p then none else t q

/-- A path and everything below it is removed. -/
def rmTree (t : FileTree α β) (p : List α) : FileTree α β := fun q => if p <+: q then none else t q

/-- A node is unpacked, with the directories above it. -/
def add (t : FileTree α β) (p : List α) (n : Node β) : FileTree α β :=
  fun q => if q = p then some n else if q <+: p then some .dir else t q

/-- A file does not replace a directory, and nothing is put below a file. -/
def blocked (t : FileTree α β) (p : List α) (n : Node β) : Bool :=
  (!n.isDir && (t p).any Node.isDir) || p.inits.dropLast.any fun q => (t.content q).isSome

/-- The entries of an archive are unpacked into a directory until one is blocked: whether all are
unpacked, and the result. -/
def unpack (dir : List α) : List (List α × Node β) → FileTree α β → Bool × FileTree α β
  | [], t => (true, t)
  | (p, n) :: entries, t =>
    if t.blocked (dir ++ p) n then (false, t) else unpack dir entries (t.add (dir ++ p) n)

theorem put_of_ne (h : q ≠ p) : t.put p n q = t q := if_neg h

/-! ## Removal -/

theorem shrinks_rmTree (t : FileTree α β) (p : List α) : Shrinks t (t.rmTree p) := by
  intro q c h
  rw [content_eq_some, rmTree] at h
  split at h
  · cases h
  · exact content_eq_some.mpr h

theorem rmTree_eq_none (h : t q = none) : t.rmTree p q = none := by
  rw [rmTree, h]
  exact ite_self _

theorem rm_eq_none (h : t q = none) : t.rm p q = none := by
  rw [rm, h]
  exact ite_self _

/-! ## Unpacking -/

theorem add_of_not_isPrefix (h : ¬ q <+: p) : t.add p n q = t q := by
  have hne : q ≠ p := by
    rintro rfl
    exact h (List.prefix_refl _)
  rw [add, if_neg hne, if_neg h]

theorem unpack_of_not_isPrefix (hq : ¬ dir <+: q) (hdir : ¬ q <+: dir)
    (entries : List (List α × Node β)) : (t.unpack dir entries).2 q = t q := by
  induction entries generalizing t with
  | nil => rfl
  | cons entry entries ih =>
    obtain ⟨p, n⟩ := entry
    rw [unpack]
    split
    · rfl
    · rw [ih]
      refine add_of_not_isPrefix fun h => ?_
      rcases List.prefix_or_prefix_of_prefix h (List.prefix_append dir p) with h | h
      · exact hdir h
      · exact hq h

theorem add_eq_dir (hb : t.blocked p n = false) (h : t q = some .dir) :
    t.add p n q = some .dir := by
  rw [add]
  split
  · rename_i hq
    cases n with
    | dir => rfl
    | file c => simp [blocked, ← hq, h, Node.isDir] at hb
  · split
    · rfl
    · exact h

theorem unpack_eq_dir (h : t q = some .dir) (entries : List (List α × Node β)) :
    (t.unpack dir entries).2 q = some .dir := by
  induction entries generalizing t with
  | nil => exact h
  | cons entry entries ih =>
    obtain ⟨p, n⟩ := entry
    rw [unpack]
    split
    · exact h
    · rename_i hb
      exact ih (add_eq_dir (Bool.not_eq_true _ ▸ hb) h)

/-- Entries below one name: then it is a directory, or nothing else has become a file. -/
theorem unpack_below {name : List α} {entries : List (List α × Node β)}
    (h : ∀ entry ∈ entries, name <+: entry.1) :
    (t.unpack dir entries).2 (dir ++ name) = some .dir ∨
      ∀ q, q ≠ dir ++ name → ∀ c, (t.unpack dir entries).2.content q = some c →
      t.content q = some c := by
  induction entries generalizing t with
  | nil => exact .inr fun _ _ _ h => h
  | cons entry entries ih =>
    obtain ⟨p, n⟩ := entry
    rw [List.forall_mem_cons] at h
    rw [unpack]
    split
    · exact .inr fun _ _ _ h => h
    · by_cases hname : t.add (dir ++ p) n (dir ++ name) = some .dir
      · exact .inl (unpack_eq_dir hname entries)
      · refine (ih h.2).imp_right fun hfiles q hq c hc => ?_
        have hadd := content_eq_some.mp (hfiles q hq c hc)
        have hprefix : dir ++ name <+: dir ++ p := (List.prefix_append_right_inj dir).mpr h.1
        rw [add] at hadd hname
        split at hadd
        · rename_i hqp
          rw [if_neg (fun hn => hq (hqp.trans hn.symm)), if_pos hprefix] at hname
          exact absurd rfl hname
        · split at hadd
          · cases hadd
          · exact content_eq_some.mpr hadd

end FileTree

end BootableRecovery
