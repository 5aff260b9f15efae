import BootableRecovery.Updater.LoadedSource
import BootableRecovery.Updater.SavedIndex

/-!
# How far the updates have come

Storage between two steps of any update with the same transfer list: the commands before the `j`-th
have written their targets, the `j`-th one may be in the middle of it, and the later ones have not
begun (`Reached`). A command that is executed again finds its target done, or writes it again: the
latter ones (`zero` and `erase`) are `settled` when they will not be executed any more.
-/

namespace BootableRecovery.BlockImg

/-- The stash `id` is loaded by a command from the `j`-th on, which does not find it stashed
again. -/
def Needed (instrs : List Instr) (j : Nat) (id : Text) : Prop :=
  ∃ m ≥ j, ∃ c : Instr, instrs[m]? = some c ∧ id ∈ c.uses ∧
    ∀ s, j ≤ s → s < m → ∀ src, instrs[s]? ≠ some (Instr.stash id src)

/-- The `j`-th command has a source that overlaps its target. -/
def Overlapping (instrs : List Instr) (j : Nat) : Prop :=
  ∃ patch t, instrs[j]? = some (Instr.transfer patch t) ∧ t.overlap = true

/-- Storage when the commands before the `j`-th are done. -/
structure Reached (env : Env) (S F : Image) (instrs : List Instr) (settled : Nat → Prop) (j : Nat)
    (d : Disk) : Prop where
  untouched : ∀ b, (∀ i ≤ j, ∀ c, instrs[i]? = some c → b ∉ c.target) → d.part b = S b
  written : ∀ i < j, ∀ c, instrs[i]? = some c → (c.isLoose = true → settled i) →
    ∀ b ∈ c.target, d.part b = F b
  erased : ∀ (i : Nat) (tgt : RangeSet), instrs[i]? = some (.erase tgt) →
    ∀ b ∈ tgt.toList, d.part b = S b ∨ d.part b = F b
  sound : ∀ id f, d.stashFile id = some f → f.tail.val = 0 ∧ env.sha1 f.blocks = id
  present : ∀ id, Needed instrs j id → (d.stashFile id).isSome = true
  implicit : ∀ patch t, instrs[j]? = some (.transfer patch t) → t.overlap = true →
    (∀ b ∈ t.tgt.toList, d.part b = S b) ∨ (d.stashFile t.srchash).isSome = true
  saved : ∀ k, d.savedIndex = some k → ∀ i : Nat, (i : Int) ≤ k → i < j ∧ settled i ∨ i = j ∧
    Overlapping instrs j

variable {env : Env} {S F : Image} {instrs : List Instr} {settled : Nat → Prop} {j i : Nat}
    {d d' : Disk} {c : Instr}

/-! ## The creator's guarantees, by index -/

namespace Creator

variable (hcreator : Creator env S F instrs)
include hcreator

theorem apart_of_ne {i j : Nat} {c c' : Instr} (hne : i ≠ j) (hi : instrs[i]? = some c)
    (hj : instrs[j]? = some c') {b : Nat} (hb : b ∈ c.target) : b ∉ c'.target := by
  rcases Nat.lt_or_gt_of_ne hne with hlt | hlt
  · exact pairwise_getElem? hcreator.apart hlt hi hj b hb
  · exact fun hb' => pairwise_getElem? hcreator.apart hlt hj hi b hb' hb

theorem within_target {tgt : RangeSet} (hi : instrs[i]? = some c) (htgt : c.target = tgt.toList) :
    env.Within tgt :=
  fun b hb => hcreator.within c (List.mem_of_getElem? hi) b (List.mem_append_left _ (by rwa [htgt]))

theorem within_source {src : RangeSet} (hi : instrs[i]? = some c) (hsrc : c.source = src.toList) :
    env.Within src :=
  fun b hb =>
  hcreator.within c (List.mem_of_getElem? hi) b (List.mem_append_right _ (by rwa [hsrc]))

theorem not_needed_of_free {id : Text} (hi : instrs[i]? = some (.free id)) :
    ¬Needed instrs (i + 1) id := by
  rintro ⟨m, hm, c, hc, huse, hnone⟩
  obtain ⟨s, hs, src, hstash, hfree⟩ := hcreator.stashed m c hc id huse
  rcases Nat.lt_trichotomy s i with hlt | rfl | hgt
  · exact hfree i hlt (by omega) hi
  · rw [hi] at hstash
    cases hstash
  · exact hnone s (by omega) hs src hstash

theorem not_needed_zero (id : Text) : ¬Needed instrs 0 id := by
  rintro ⟨m, -, c, hc, huse, hnone⟩
  obtain ⟨s, hs, src, hstash, -⟩ := hcreator.stashed m c hc id huse
  exact hnone s (Nat.zero_le s) hs src hstash

end Creator

theorem Needed.pred {id : Text} (h : Needed instrs (j + 1) id)
    (hstash : ∀ src, instrs[j]? ≠ some (.stash id src)) : Needed instrs j id := by
  obtain ⟨m, hm, c, hc, huse, hnone⟩ := h
  refine ⟨m, by omega, c, hc, huse, fun s hs hsm src => ?_⟩
  rcases Nat.eq_or_lt_of_le hs with rfl | hlt
  · exact hstash src
  · exact hnone s hlt hsm src

theorem not_needed_of_length_le {id : Text} (hj : instrs.length ≤ j) : ¬Needed instrs j id := by
  rintro ⟨m, hm, c, hc, -, -⟩
  have := (List.getElem?_eq_some_iff.mp hc).1
  omega

/-! ## Keeping what is reached -/

theorem Disk.savedIndex_congr (h : d'.lastCommand = d.lastCommand) :
    d'.savedIndex = d.savedIndex := by
  rw [Disk.savedIndex, h, Disk.savedIndex]

namespace Reached

/-- Storage that is the same but for the saved index, which may be gone. -/
theorem of_eq (h : Reached env S F instrs settled j d) (hpart : d'.part = d.part)
    (hfile : ∀ id, d'.stashFile id = d.stashFile id)
    (hsaved : ∀ k, d'.savedIndex = some k → d.savedIndex = some k) :
    Reached env S F instrs settled j d' where
  untouched b hb := by rw [hpart]; exact h.untouched b hb
  written i hi c hc hloose b hb := by rw [hpart]; exact h.written i hi c hc hloose b hb
  erased i tgt hi b hb := by rw [hpart]; exact h.erased i tgt hi b hb
  sound id f hf := h.sound id f (hfile id ▸ hf)
  present id hid := by rw [hfile]; exact h.present id hid
  implicit patch t ht hover := by rw [hpart, hfile]; exact h.implicit patch t ht hover
  saved k hk := h.saved k (hsaved k hk)

theorem settle (h : Reached env S F instrs settled j d)
    (hi : ∀ c, instrs[i]? = some c → c.isLoose = true → ∀ b ∈ c.target, d.part b = F b) :
    Reached env S F instrs (fun k => settled k ∨ k = i) j d where
  untouched := h.untouched
  written k hk c hc hloose b hb := by
    by_cases hcl : c.isLoose = true
    · rcases hloose hcl with hs | rfl
      · exact h.written k hk c hc (fun _ => hs) b hb
      · exact hi c hc hcl b hb
    · exact h.written k hk c hc (fun hcl' => absurd hcl' hcl) b hb
  erased := h.erased
  sound := h.sound
  present := h.present
  implicit := h.implicit
  saved k hk i' hi' := (h.saved k hk i' hi').imp_left fun ⟨hlt, hs⟩ => ⟨hlt, .inl hs⟩

theorem unsettle (h : Reached env S F instrs settled j d) {settled' : Nat → Prop}
    (hle : ∀ k, settled' k → settled k) (hsaved : ∀ k, d.savedIndex = some k →
      ∀ i : Nat, (i : Int) ≤ k → i < j ∧ settled' i ∨ i = j ∧ Overlapping instrs j) :
      Reached env S F instrs settled' j d :=
  { h with
    written := fun i hi c hc hloose => h.written i hi c hc fun hcl => hle i (hloose hcl)
    saved := hsaved }

/-- The target of the `j`-th command, or of one that is executed again, is written in part. -/
theorem writing (hcreator : Creator env S F instrs) (h : Reached env S F instrs settled j d)
    (hi : instrs[i]? = some c) (hor : i = j ∨ i < j ∧ c.isLoose = true ∧ ¬settled i)
    (hstashed : ∀ patch t, c = .transfer patch t → t.overlap = true →
      (d.stashFile t.srchash).isSome = true)
      (herased : ∀ tgt, c = .erase tgt → ∀ b ∈ tgt.toList, d'.part b = S b ∨ d'.part b = F b)
      (hsame : d.SameBut c.target d') : Reached env S F instrs settled j d' where
  untouched b hb := by
    rw [hsame.part b (hb i (by omega) c hi)]
    exact h.untouched b hb
  written k hk c' hc' hloose b hb := by
    by_cases hki : k = i
    · subst hki
      rw [hi] at hc'
      cases hc'
      obtain rfl | ⟨-, hcl, hnot⟩ := hor
      · exact absurd hk (Nat.lt_irrefl k)
      · exact absurd (hloose hcl) hnot
    · rw [hsame.part b (hcreator.apart_of_ne hki hc' hi hb)]
      exact h.written k hk c' hc' hloose b hb
  erased k tgt hk b hb := by
    by_cases hki : k = i
    · subst hki
      rw [hi] at hk
      cases hk
      exact herased tgt rfl b hb
    · rw [hsame.part b (hcreator.apart_of_ne hki hk hi hb)]
      exact h.erased k tgt hk b hb
  sound id f hf := h.sound id f (by rwa [Disk.stashFile, ← hsame.stash])
  present id hid := by
    rw [Disk.stashFile, hsame.stash]
    exact h.present id hid
  implicit patch t ht hover := by
    rw [Disk.stashFile, hsame.stash]
    by_cases hji : j = i
    · subst hji
      rw [hi] at ht
      cases ht
      exact .inr (hstashed patch t rfl hover)
    · refine (h.implicit patch t ht hover).imp_left fun hpart b hb => ?_
      rw [hsame.part b (hcreator.apart_of_ne hji ht hi hb)]
      exact hpart b hb
  saved k hk := h.saved k (by rwa [← Disk.savedIndex_congr hsame.lastCommand])

theorem next_untouched (hcreator : Creator env S F instrs) (h : Reached env S F instrs settled j d)
    (hj : instrs[j + 1]? = some c) : ∀ b ∈ c.target, d.part b = S b :=
  fun b hb => h.untouched b fun _ hi _ hc' => hcreator.apart_of_ne (by omega) hj hc' hb

theorem advance (hcreator : Creator env S F instrs) (h : Reached env S F instrs settled j d)
    (hj : instrs[j]? = some c) (htarget : ∀ b ∈ c.target, d.part b = F b)
    (hstash : ∀ id src, c = .stash id src → (d.stashFile id).isSome = true) :
    Reached env S F instrs (fun k => settled k ∨ k = j) (j + 1) d where
  untouched b hb := h.untouched b fun i hi => hb i (by omega)
  written k hk c' hc' hloose b hb := by
    rcases Nat.lt_succ_iff_lt_or_eq.mp hk with hlt | rfl
    · refine h.written k hlt c' hc' (fun hcl => (hloose hcl).resolve_right fun heq => ?_) b hb
      omega
    · rw [hj] at hc'
      cases hc'
      exact htarget b hb
  erased := h.erased
  sound := h.sound
  present id hid := by
    by_cases hid' : ∃ src, c = .stash id src
    · obtain ⟨src, hc⟩ := hid'
      exact hstash id src hc
    · refine h.present id (hid.pred fun src hsrc => hid' ⟨src, ?_⟩)
      rw [hj] at hsrc
      exact Option.some.inj hsrc
  implicit patch t ht _ := .inl (h.next_untouched hcreator ht)
  saved k hk i hi := by
    rcases h.saved k hk i hi with ⟨hlt, hs⟩ | ⟨rfl, -⟩
    · exact .inl ⟨by omega, .inl hs⟩
    · exact .inl ⟨by omega, .inr rfl⟩

theorem renameStash (h : Reached env S F instrs settled j d) {id : Text} {blocks : List Block}
    (hstash : d.stash.isSome = true) (hsha : env.sha1 blocks = id) :
    Reached env S F instrs settled j (d.apply env (.renameStash id blocks)) := by
  have hmono : ∀ id', (d.stashFile id').isSome = true →
      ((d.apply env (.renameStash id blocks)).stashFile id').isSome = true := by
    intro id' hsome
    rw [stashFile_renameStash env _ _ hstash]
    split_ifs
    · rfl
    · exact hsome
  exact {
    untouched := h.untouched
    written := h.written
    erased := h.erased
    sound := fun id' f hf => by
      rw [stashFile_renameStash env _ _ hstash] at hf
      split_ifs at hf with heq
      · cases hf
        exact ⟨rfl, hsha.trans heq.symm⟩
      · exact h.sound id' f hf
    present := fun id' hid' => hmono id' (h.present id' hid')
    implicit := fun patch t ht hover => (h.implicit patch t ht hover).imp_right (hmono _)
    saved := h.saved }

theorem unlinkStash (h : Reached env S F instrs settled j d) {id : Text}
    (hneeded : ¬Needed instrs j id)
    (himplicit : ∀ patch t, instrs[j]? = some (.transfer patch t) → t.overlap = true →
      t.srchash ≠ id ∨ ∀ b ∈ t.tgt.toList, d.part b = S b) :
    Reached env S F instrs settled j (d.apply env (.unlinkStash id)) where
  untouched := h.untouched
  written := h.written
  erased := h.erased
  sound id' f hf := by
    by_cases heq : id' = id
    · subst heq
      rw [Disk.stashFile] at hf
      obtain ⟨files, hfiles, hf⟩ := Option.bind_eq_some_iff.mp hf
      obtain ⟨files', -, rfl⟩ := Option.map_eq_some_iff.mp hfiles
      rw [List.lookup_eq_none_iff.mpr fun x hx => by
        simpa using Ne.symm (by simpa using (List.mem_filter.mp hx).2)] at hf
      cases hf
    · rw [stashFile_unlinkStash d heq] at hf
      exact h.sound id' f hf
  present id' hid' := by
    have hne : id' ≠ id := fun heq => hneeded (heq ▸ hid')
    rw [stashFile_unlinkStash d hne]
    exact h.present id' hid'
  implicit patch t ht hover := by
    rcases himplicit patch t ht hover with hne | hsource
    · rw [stashFile_unlinkStash d hne]
      exact h.implicit patch t ht hover
    · exact .inl hsource
  saved := h.saved

theorem renameLast (h : Reached env S F instrs settled j d) {line : Text} (hnl : '\n' ∉ line)
    (hc : ∃ c ∈ line, isSpace c = false)
    (hi : ∀ k ≤ i, k < j ∧ settled k ∨ k = j ∧ Overlapping instrs j) :
    Reached env S F instrs settled j
    (d.apply env (.renameLast (lastCommandContent (cmdIndex i) line))) :=
  { h with
    saved := fun k hk k' hk' => by
      rw [Disk.savedIndex, Disk.apply, Option.bind_some, parseLastCommand_content hnl hc] at hk
      cases hk
      rw [cmdIndex] at hk'
      split at hk'
      · omega
      · exact hi k' (by omega) }

theorem start (hcreator : Creator env S F instrs) (settled : Nat → Prop) :
    Reached env S F instrs settled 0 ⟨S, none, none⟩ where
  untouched _ _ := rfl
  written i hi := absurd hi (Nat.not_lt_zero i)
  erased _ _ _ _ _ := .inl rfl
  sound _ _ hf := by cases hf
  present id hid := absurd hid (hcreator.not_needed_zero id)
  implicit _ _ _ _ := .inl fun _ _ => rfl
  saved _ hk := by cases hk

theorem part_eq (hcreator : Creator env S F instrs) (h : Reached env S F instrs (fun _ => True) j d)
    (hj : instrs.length ≤ j) : d.part = F := by
  funext b
  by_cases hb : ∃ (i : Nat) (c : Instr), instrs[i]? = some c ∧ b ∈ c.target
  · obtain ⟨i, c, hi, hbc⟩ := hb
    have hlt := (List.getElem?_eq_some_iff.mp hi).1
    exact h.written i (by omega) c hi (fun _ => trivial) b hbc
  · rw [h.untouched b fun i _ c hi hbc => hb ⟨i, c, hi, hbc⟩]
    by_contra hne
    obtain ⟨c, hc, hbc⟩ := hcreator.changed b hne
    obtain ⟨i, hi⟩ := List.mem_iff_getElem?.mp hc
    exact hb ⟨i, c, hi, hbc⟩

end Reached

end BootableRecovery.BlockImg
