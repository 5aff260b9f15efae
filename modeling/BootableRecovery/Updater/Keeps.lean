import BootableRecovery.Updater.Load

/-!
# What the functions of the updater keep

The functions that load a source and write a stash, in the order of the source. Each lemma says of
one function which steps an invariant of storage has to survive; the variables may change by system
calls and in the buffer.
-/

namespace BootableRecovery.BlockImg

variable {env : Env} {τ : Type} {Mo : Monitor (Disk.apply env) τ} {I : CommandParameters → Prop}
    {S : τ → Prop}

/-! ## Functions that only read -/

/-- The invariant speaks neither of the buffer nor of the system calls that were made. -/
structure Volatile (I : CommandParameters → Prop) : Prop where
  faults : ∀ {p}, I p → I { p with faults := p.faults.tail }
  buffer : ∀ {p} buffer, I p → I { p with buffer }

theorem keeps_expect {x : Option α} : (expect env x).Keeps Mo I S := by
  cases x with
  | none => exact .abort
  | some a => exact .pure

theorem keeps_onlyIf {b : Bool} {x : M env Unit} (h : x.Keeps Mo I S) :
    (onlyIf env b x).Keeps Mo I S := by
  unfold onlyIf
  split
  · exact h
  · exact .pure

theorem keeps_parseRanges {s : Text} : (parseRanges env s).Keeps Mo I S := by
  unfold parseRanges
  split
  · exact .pure
  · exact .abort

theorem keeps_verifyBlocks {expected : Text} {buffer : List Block} {blocks : Nat} :
    (verifyBlocks env expected buffer blocks).Keeps Mo I S := by
  unfold verifyBlocks
  split
  · exact .pure
  · exact .abort

theorem keeps_printCorrupted {buffer : List Block} {src : RangeSet} :
    (printHashForCorruptedStashedBlocks env buffer src).Keeps Mo I S := by
  unfold printHashForCorruptedStashedBlocks
  split
  · exact .pure
  · exact .abort

theorem keeps_printSource {src : Text} {tokens : List Text} :
    (printHashForCorruptedSourceBlocks env src tokens).Keeps Mo I S := by
  refine .get_bind fun p hp => ?_
  dsimp only
  split
  · exact .pure
  · split
    · exact .pure
    · exact .abort

section
variable (hI : Volatile I)
include hI

theorem keeps_syscall : (syscall env).Keeps Mo I S := by
  intro p t hp ht
  have hend :
      ∀ (ok a : Bool) (p' : CommandParameters), some (ok, { p with faults := p.faults.tail }) =
      some (a, p') → I p' := by
    rintro ok a p' ⟨⟩
    exact hI.faults hp
  exact wp_syscall_exact (fun _ => ⟨ht, hend true⟩) fun _ => ⟨ht, hend false⟩

theorem keeps_setBuffer {buffer : List Block} :
    (Prog.modify fun p => { p with buffer } : M env Unit).Keeps Mo I S :=
  .modify fun _ => hI.buffer buffer

theorem keeps_readAll {vs : List (Option Block)} {n : Nat} {buffer : List Block} :
    (readAll env vs n buffer).Keeps Mo I S := by
  induction vs generalizing n buffer with
  | nil => exact .pure
  | cons v vs ih =>
    refine .bind (keeps_syscall hI) fun ok => ?_
    split
    · split
      · exact .pure
      · split
        · exact ih
        · exact .abort
    · exact .pure

theorem keeps_readBlocks {src : RangeSet} {buffer : List Block} :
    (readBlocks env src buffer).Keeps Mo I S :=
  .store_bind fun _ => keeps_readAll hI

theorem keeps_printMissing {id : Text} :
    (printHashForMissingStashedBlocks env id).Keeps Mo I S := by
  refine .get_bind fun p hp => ?_
  split
  · exact .pure
  · refine .bind (keeps_readBlocks hI) fun ⟨_, _⟩ => ?_
    dsimp only
    split
    · exact keeps_printCorrupted
    · exact .pure

theorem keeps_deleteFile {id : Text} (hS : ∀ t, S t → S (Mo.step t (.unlinkStash id))) :
    (deleteFile env id).Keeps Mo I S := by
  refine .bind (keeps_syscall hI) fun ok => ?_
  split
  · exact .emit hS
  · exact .pure

theorem keeps_loadStashFromSource {id : Text} {src : RangeSet} {buffer : List Block} :
    (loadStashFromSource env id src buffer).Keeps Mo I S := by
  refine .bind (keeps_readBlocks hI) fun ⟨_, _⟩ => ?_
  dsimp only
  split
  · refine .bind keeps_verifyBlocks fun ok => ?_
    split
    · exact .pure
    · exact .bind keeps_printCorrupted fun _ => .pure
  · exact .pure

theorem keeps_loadStashFile {id : Text} {verify printnoent : Bool} {buffer : List Block}
    (hS : verify = true → ∀ t, S t → S (Mo.step t (.unlinkStash (getStashFileName env id)))) :
    (loadStashFile env id verify buffer printnoent).Keeps Mo I S := by
  refine .store_bind fun d => .bind (keeps_syscall hI) fun stat => ?_
  split
  · exact .bind (keeps_onlyIf (keeps_printMissing hI)) fun _ => .pure
  · split
    · exact .pure
    · refine .bind (keeps_syscall hI) fun ok => ?_
      split
      · refine .bind (keeps_readAll hI) fun ⟨_, _⟩ => ?_
        dsimp only
        split
        · cases hverify : verify with
          | false => exact .pure
          | true =>
            refine .bind keeps_verifyBlocks fun ok => ?_
            split
            · exact .pure
            · refine .bind ?_ fun _ => .bind (keeps_deleteFile hI (hS hverify)) fun _ => .pure
              refine .get_bind fun p hp => ?_
              split
              · exact keeps_printCorrupted
              · exact .pure
        · exact .pure
      · exact .pure

theorem keeps_loadStash {id : Text} {verify printnoent : Bool} {buffer : List Block}
    (hfile : (loadStashFile env id verify buffer printnoent).Keeps Mo I S) :
    (loadStash env id verify buffer printnoent).Keeps Mo I S := by
  refine .get_bind fun p hp => ?_
  split
  · exact keeps_loadStashFromSource hI
  · exact hfile

theorem keeps_loadStashes {tokens : List Text} : (loadStashes env tokens).Keeps Mo I S := by
  induction tokens with
  | nil => exact .pure
  | cons token tokens ih =>
    unfold loadStashes
    split
    · refine .bind (keeps_loadStash hI (keeps_loadStashFile hI (by simp))) fun ⟨_, _⟩ => ?_
      dsimp only
      split
      · exact .bind keeps_parseRanges fun locs => .get_bind fun p hp => .bind keeps_expect fun _ =>
          .bind (keeps_setBuffer hI) fun _ => ih
      · exact ih
    · exact .pure

theorem keeps_loadSourceRanges {tgt : RangeSet} {src : Text} {tokens : List Text} :
    (loadSourceRanges env tgt src tokens).Keeps Mo I S := by
  unfold loadSourceRanges
  split
  · exact .pure
  · refine .bind keeps_parseRanges fun src => .get_bind fun p hp =>
      .bind (keeps_readBlocks hI) fun ⟨_, _⟩ =>
      .bind (keeps_setBuffer hI) fun _ => ?_
    split
    · exact .pure
    · split
      · exact .pure
      · exact .bind keeps_parseRanges fun locs => .get_bind fun p hp => .bind keeps_expect fun _ =>
          .bind (keeps_setBuffer hI) fun _ => .pure

theorem keeps_loadSourceBlocks {tgt : RangeSet} {count src : Text} {tokens : List Text} :
    (loadSourceBlocks env tgt count src tokens).Keeps Mo I S := by
  unfold loadSourceBlocks
  split
  · exact .pure
  · refine .bind (.modify fun _ => hI.buffer _) fun _ =>
      .bind (keeps_loadSourceRanges hI) fun r => ?_
    split
    · exact .pure
    · refine .bind (keeps_loadStashes hI) fun ok => ?_
      split
      · exact .pure
      · exact .pure

theorem keeps_loadTgtSrc {tokens : List Text} {onehash : Bool} :
    (loadTgtSrc env tokens onehash).Keeps Mo I S := by
  unfold loadTgtSrc
  split
  · refine .bind keeps_parseRanges fun tgt => .bind (keeps_readBlocks hI) fun ⟨_, _⟩ => ?_
    dsimp only
    split
    · exact .pure
    · refine .bind keeps_verifyBlocks fun ok => ?_
      split
      · exact .pure
      · refine .bind (keeps_loadSourceBlocks hI) fun r => ?_
        split
        · exact .pure
        · exact .pure
  · exact .pure

theorem keeps_loadImplicitStash {l : LoadedSource}
    (hload : ∀ buffer, (loadStash env l.srchash true buffer true).Keeps Mo I S) :
    (loadImplicitStash env l).Keeps Mo I S := by
  unfold loadImplicitStash
  split
  · exact .get_bind fun p hp => .bind (hload _) fun _ => .bind (keeps_setBuffer hI) fun _ => .pure
  · exact .pure

theorem keeps_recoverSource (hunresumable : ∀ {p}, I p → I { p with isunresumable := true })
    {l : LoadedSource}
    (hload : ∀ buffer, (loadStash env l.srchash true buffer true).Keeps Mo I S) :
    (recoverSource env l).Keeps Mo I S := by
  refine .bind (keeps_loadImplicitStash hI hload) fun ok => ?_
  split
  · exact .pure
  · exact .bind keeps_printSource fun _ => .bind (.modify fun _ => hunresumable) fun _ => .pure

end

end BootableRecovery.BlockImg
