import BootableRecovery.Theory.PathResolution

/-!
# Changes of a file system

Directories and files are added, and contents replaced; nothing is removed and no link appears
(`Grows`). What a path found before such changes it finds afterwards (`locate_grows`).
-/

namespace BootableRecovery.Fs

variable {β : Type} {fs fs' fs'' : Fs β} {loc d cwd : Loc} {n path : List Char} {i : Inode β}
    {follow : Bool}

/-- An entry is put into a directory, in the place of no other directory. -/
def put (fs : Fs β) (d : Loc) (n : List Char) (i : Inode β) (hdir : fs.node d = some .dir)
    (hname : IsName n) (hnode : fs.node (d ++ [n]) ≠ some .dir) : Fs β where
  node := fun p => if p = d ++ [n] then some i else fs.node p
  root := by
    rw [if_neg (by simp)]
    exact fs.root
  parent := by
    intro d' n' h
    have hold : fs.node d' = some .dir := by
      split at h
      · rename_i heq
        rwa [(List.append_inj' heq rfl).1]
      · exact fs.parent h
    rw [if_neg fun heq : d' = d ++ [n] => hnode (heq ▸ hold)]
    exact hold
  isName := by
    intro d' n' h
    split at h
    · rename_i heq
      rwa [List.singleton_inj.mp (List.append_inj' heq rfl).2]
    · exact fs.isName h

/-- Something is put at a place. -/
def putAt [DecidableEq β] (fs : Fs β) (loc : Loc) (i : Inode β) : Option (Fs β) :=
  match loc.getLast? with
  | none => none
  | some n =>
    if h : fs.node loc.dropLast = some .dir ∧ IsName n ∧
      fs.node (loc.dropLast ++ [n]) ≠ some .dir then
      some (fs.put loc.dropLast n i h.1 h.2.1 h.2.2)
    else none

variable [DecidableEq β]

theorem putAt_eq_some (h : fs.putAt loc i = some fs') :
    ∃ d n, loc = d ++ [n] ∧ fs.node d = some .dir ∧ IsName n ∧ fs.node loc ≠ some .dir ∧
      ∀ p, fs'.node p = if p = loc then some i else fs.node p := by
  unfold putAt at h
  split at h
  · cases h
  · rename_i n hlast
    have hloc : loc.dropLast ++ [n] = loc := List.dropLast_append_getLast? n hlast
    split at h
    · rename_i hput
      cases h
      refine ⟨loc.dropLast, n, hloc.symm, hput.1, hput.2.1,
        by rw [← hloc]; exact hput.2.2, fun p => ?_⟩
      show (if p = loc.dropLast ++ [n] then _ else _) = _
      rw [hloc]
    · cases h

theorem isSome_putAt (hdir : fs.node d = some .dir) (hname : IsName n)
    (hnode : fs.node (d ++ [n]) ≠ some .dir) : (fs.putAt (d ++ [n]) i).isSome := by
  rw [putAt, List.getLast?_concat]
  have hdir' : fs.node (d ++ [n]).dropLast = some .dir := by rwa [List.dropLast_concat]
  have hnode' : fs.node ((d ++ [n]).dropLast ++ [n]) ≠ some .dir := by rwa [List.dropLast_concat]
  dsimp only
  rw [dif_pos ⟨hdir', hname, hnode'⟩]
  rfl

omit [DecidableEq β]

/-! ## Growth -/

/-- Nothing is removed, and no link is added. -/
structure Grows (fs fs' : Fs β) : Prop where
  le : Le fs fs'
  link : ∀ {loc target}, fs'.node loc = some (.link target) → fs.node loc = some (.link target)

theorem Grows.refl (fs : Fs β) : Grows fs fs :=
  ⟨fun _ => ⟨id, fun _ => id, fun content h => ⟨content, h⟩⟩, id⟩

theorem Grows.trans (h : Grows fs fs') (h' : Grows fs' fs'') : Grows fs fs'' := by
  refine ⟨fun loc => ⟨fun hdir => (h'.le loc).1 ((h.le loc).1 hdir), fun target hlink =>
    (h'.le loc).2.1 target ((h.le loc).2.1 target hlink), fun content hfile => ?_⟩, fun hlink =>
      h.link (h'.link hlink)⟩
  obtain ⟨content', hfile'⟩ := (h.le loc).2.2 content hfile
  exact (h'.le loc).2.2 content' hfile'

theorem Grows.dir (h : Grows fs fs') (hdir : fs.node loc = some .dir) : fs'.node loc = some .dir :=
  (h.le loc).1 hdir

theorem Grows.isSome (h : Grows fs fs') (hnode : (fs.node loc).isSome) : (fs'.node loc).isSome := by
  obtain ⟨i, hi⟩ := Option.isSome_iff_exists.mp hnode
  cases i with
  | dir => rw [(h.le loc).1 hi]; rfl
  | link target => rw [(h.le loc).2.1 target hi]; rfl
  | file content =>
    obtain ⟨content', hfile⟩ := (h.le loc).2.2 content hi
    rw [hfile]
    rfl

/-- A directory or a file where nothing was, or another content of a file. -/
theorem Grows.of_put (h : ∀ p, fs'.node p = if p = loc then some i else fs.node p)
    (hi : ∀ target, i ≠ .link target)
    (hold : fs.node loc = none ∨ (∃ content, fs.node loc = some (.file content)) ∧
      ∃ content, i = .file content) : Grows fs fs' := by
  refine ⟨fun p => ?_, fun {p target} hlink => ?_⟩
  · rw [h]
    split
    · rename_i hp
      rw [hp]
      rcases hold with hnone | ⟨⟨content, hfile⟩, content', rfl⟩
      · rw [hnone]
        exact ⟨fun h => absurd h (by simp), fun _ h => absurd h (by simp), fun _ h =>
          absurd h (by simp)⟩
      · rw [hfile]
        exact ⟨fun h => absurd h (by simp), fun _ h => absurd h (by simp), fun _ _ =>
          ⟨content', rfl⟩⟩
    · exact ⟨id, fun _ => id, fun content hfile => ⟨content, hfile⟩⟩
  · rw [h] at hlink
    split at hlink
    · exact absurd (Option.some.inj hlink) (hi target)
    · exact hlink

theorem locate_grows (h : Grows fs fs') (hlocate : fs.locate cwd follow path = .ok loc)
    (hnode : (fs.node loc).isSome) : fs'.locate cwd follow path = .ok loc :=
  locate_mono h.le hlocate hnode

/-- A walk to a place where nothing is finds the file that is put there. -/
theorem walk_put {links : Nat} {cs : List (List Char)} {content : β} (hloc : fs.node loc = none)
    (hput : ∀ p, fs'.node p = if p = loc then some (.file content) else fs.node p)
    (h : fs.walk follow links d cs = .ok loc) : fs'.walk follow links d cs = .ok loc := by
  have hsame {p : Loc} {i : Inode β} (hp : fs.node p = some i) : fs'.node p = some i := by
    rw [hput, if_neg (by rintro rfl; rw [hloc] at hp; cases hp), hp]
  revert h
  fun_induction fs.walk follow links d cs with
  | case1 => exact fun h => by rw [walk_nil, h]
  | case2 links d c cs hc ih => exact fun h => by rw [walk_skip hc, ih h]
  | case3 links d cs hc ih => exact fun h => by rw [walk_up, ih h]
  | case4 => rintro ⟨⟩
  | case5 links d c cs _ _ _ hdir ih => exact fun h => by rw [walk_dir (hsame hdir), ih h]
  | case6 links d c hc hc' hlen content hfile =>
    intro h
    rw [walk, if_neg hc, if_neg hc', if_neg hlen, hsame hfile]
    exact h
  | case7 => rintro ⟨⟩
  | case8 links d c cs hc hc' hlen target hlink hlast =>
    intro h
    rw [walk, if_neg hc, if_neg hc', if_neg hlen, hsame hlink]
    dsimp only
    rw [if_pos hlast, h]
  | case9 => rintro ⟨⟩
  | case10 d c cs hc hc' hlen target hlink hlast links ih =>
    intro h
    rw [walk, if_neg hc, if_neg hc', if_neg hlen, hsame hlink]
    dsimp only
    rw [if_neg hlast]
    exact ih h
  | case11 links d c hc hc' hlen hnone =>
    rintro ⟨⟩
    rw [walk, if_neg hc, if_neg hc', if_neg hlen, hput, if_pos rfl]
    rfl
  | case12 => rintro ⟨⟩

theorem locate_put {content : β} (hlocate : fs.locate cwd follow path = .ok loc)
    (hgrows : Grows fs fs')
    (hput : ∀ p, fs'.node p = if p = loc then some (.file content) else fs.node p) :
    fs'.locate cwd follow path = .ok loc := by
  cases hnode : fs.node loc with
  | some i => exact locate_grows hgrows hlocate (by rw [hnode]; rfl)
  | none =>
    unfold locate at hlocate ⊢
    split at hlocate
    · cases hlocate
    · split at hlocate
      · cases hlocate
      · rename_i hne hlen
        rw [if_neg hne, if_neg hlen]
        exact walk_put hnode hput hlocate

end BootableRecovery.Fs
