import Mathlib.Data.List.Basic
import Mathlib.Data.List.Induction

/-!
# Paths and symbolic links

A file system with symbolic links, and the walk along a path as the system calls make it: links on
the way are followed, a link at the end only on request. A walk goes on where a directory was
reached (`Fs.walk_append`), and what a walk finds it also finds with more nodes in the file system
(`Fs.walk_mono`).
-/

namespace BootableRecovery

/-- A place in a file system: the names from the root on. -/
abbrev Loc := List (List Char)

/-- What stands at a place. -/
inductive Inode (β : Type)
  | dir
  | file (content : β)
  | link (target : List Char)
  deriving DecidableEq

/-- The names that an entry of a directory can have, with at most 255 bytes. -/
def IsName (n : List Char) : Prop := n ≠ [] ∧ '/' ∉ n ∧ n ≠ ['.'] ∧ n ≠ ['.', '.'] ∧ n.length ≤ 255

instance (n : List Char) : Decidable (IsName n) :=
  inferInstanceAs (Decidable (n ≠ [] ∧ '/' ∉ n ∧ n ≠ ['.'] ∧ n ≠ ['.', '.'] ∧ n.length ≤ 255))

/-- A file system: everything but the root is an entry of a directory. -/
structure Fs (β : Type) where
  node : Loc → Option (Inode β)
  root : node [] = some .dir
  parent : ∀ {d n}, (node (d ++ [n])).isSome → node d = some .dir
  isName : ∀ {d n}, (node (d ++ [n])).isSome → IsName n

/-- Why a walk ends. -/
inductive PathError
  | noEntry
  | notDirectory
  | loop
  | tooLong
  deriving DecidableEq

namespace Fs

variable {β : Type}

/-- The walk from a directory along some components, with the number of links that may be followed.
The last component need not exist. -/
def walk (fs : Fs β) (follow : Bool) (links : Nat) (d : Loc) :
    List (List Char) → Except PathError Loc
  | [] => .ok d
  | c :: cs =>
    if c = [] ∨ c = ['.'] then fs.walk follow links d cs
    else if c = ['.', '.'] then fs.walk follow links d.dropLast cs
    else if 255 < c.length then .error .tooLong
    else match fs.node (d ++ [c]) with
      | some .dir => fs.walk follow links (d ++ [c]) cs
      | some (.file _) => if cs = [] then .ok (d ++ [c]) else .error .notDirectory
      | some (.link target) =>
        if cs = [] ∧ follow = false then .ok (d ++ [c])
        else match links with
          | 0 => .error .loop
          | links + 1 =>
            fs.walk follow links (if target.head? = some '/' then []
              else d) (target.splitOn '/' ++ cs)
      | none => if cs = [] then .ok (d ++ [c]) else .error .noEntry
  termination_by cs => (links, cs.length)

/-- The place of a path, for a process in the directory `cwd`. -/
def locate (fs : Fs β) (cwd : Loc) (follow : Bool) (path : List Char) : Except PathError Loc :=
  if path = [] then .error .noEntry
  else if 4096 ≤ path.length then .error .tooLong
  else fs.walk follow 40 (if path.head? = some '/' then [] else cwd) (path.splitOn '/')

section
variable {fs fs' : Fs β} {follow follow' : Bool} {links : Nat} {d loc cwd : Loc}
    {cs cs' : List (List Char)} {n path : List Char}

/-! ## Walks -/

@[simp] theorem walk_nil : fs.walk follow links d [] = .ok d := by rw [walk]

theorem walk_skip {c : List Char} (h : c = [] ∨ c = ['.']) :
    fs.walk follow links d (c :: cs) = fs.walk follow links d cs := by
  rw [walk, if_pos h]

theorem walk_up :
    fs.walk follow links d (['.', '.'] :: cs) = fs.walk follow links d.dropLast cs := by
  rw [walk, if_neg (by decide), if_pos rfl]

theorem IsName.ne {c : List Char} (h : IsName c) :
    ¬(c = [] ∨ c = ['.']) ∧ c ≠ ['.', '.'] ∧ ¬255 < c.length :=
  ⟨fun hc => hc.elim h.1 h.2.2.1, h.2.2.2.1, Nat.not_lt.mpr h.2.2.2.2⟩

theorem walk_dir {c : List Char} (h : fs.node (d ++ [c]) = some .dir) :
    fs.walk follow links d (c :: cs) = fs.walk follow links (d ++ [c]) cs := by
  have hname := IsName.ne (fs.isName (by rw [h]; rfl))
  rw [walk, if_neg hname.1, if_neg hname.2.1, if_neg hname.2.2, h]

theorem walk_append (h : fs.walk follow links d cs = .ok loc) (hdir : fs.node loc = some .dir) :
    ∃ links', ∀ cs', cs' ≠ [] → ∀ follow', fs.walk follow' links d (cs ++ cs') =
    fs.walk follow' links' loc cs' := by
  revert h
  fun_induction fs.walk follow links d cs with
  | case1 links d =>
    rintro ⟨⟩
    exact ⟨links, fun _ _ _ => rfl⟩
  | case2 links d c cs hc ih =>
    intro h
    obtain ⟨links', hrest⟩ := ih h
    exact ⟨links', fun cs' hne follow' => by rw [List.cons_append, walk_skip hc, hrest cs' hne]⟩
  | case3 links d cs hc ih =>
    intro h
    obtain ⟨links', hrest⟩ := ih h
    exact ⟨links', fun cs' hne follow' => by rw [List.cons_append, walk_up, hrest cs' hne]⟩
  | case4 => rintro ⟨⟩
  | case5 links d c cs _ _ _ hnode ih =>
    intro h
    obtain ⟨links', hrest⟩ := ih h
    exact ⟨links', fun cs' hne follow' => by rw [List.cons_append, walk_dir hnode, hrest cs' hne]⟩
  | case6 links d c _ _ _ content hnode =>
    rintro ⟨⟩
    rw [hnode] at hdir
    cases hdir
  | case7 => rintro ⟨⟩
  | case8 links d c cs _ _ _ target hnode =>
    rintro ⟨⟩
    rw [hnode] at hdir
    cases hdir
  | case9 => rintro ⟨⟩
  | case10 d c cs hc hc' hlen target hnode hlast links ih =>
    intro h
    obtain ⟨links', hrest⟩ := ih h
    refine ⟨links', fun cs' hne follow' => ?_⟩
    rw [List.cons_append, walk, if_neg hc, if_neg hc', if_neg hlen, hnode]
    dsimp only
    rw [if_neg fun hend => hne (List.append_eq_nil_iff.mp hend.1).2, ← List.append_assoc]
    exact hrest cs' hne follow'
  | case11 links d c _ _ _ hnode =>
    rintro ⟨⟩
    rw [hnode] at hdir
    cases hdir
  | case12 => rintro ⟨⟩

theorem node_dropLast (h : fs.node d = some .dir) : fs.node d.dropLast = some .dir := by
  cases List.eq_nil_or_concat d with
  | inl hnil => rwa [hnil] at h ⊢
  | inr hconcat =>
    obtain ⟨d', m, rfl⟩ := hconcat
    rw [List.concat_eq_append] at h ⊢
    rw [List.dropLast_concat]
    exact fs.parent (by rw [h]; rfl)

/-- A walk that succeeds passes a directory behind each of its components. -/
theorem walk_split {xs ys : List (List Char)} (hd : fs.node d = some .dir) (hys : ys ≠ [])
    (h : fs.walk follow links d (xs ++ ys) = .ok loc) :
    ∃ d' links', fs.node d' = some .dir ∧
      ∀ zs, zs ≠ [] → ∀ follow', fs.walk follow' links d (xs ++ zs) =
      fs.walk follow' links' d' zs := by
  generalize hcs : xs ++ ys = cs at h
  revert h
  fun_induction fs.walk follow links d cs generalizing xs with
  | case1 => exact absurd (List.append_eq_nil_iff.mp hcs).2 hys
  | case2 links d c cs hc ih =>
    intro h
    cases xs with
    | nil => exact ⟨d, links, hd, fun zs _ follow' => rfl⟩
    | cons x xs =>
      obtain ⟨rfl, htail⟩ := List.cons.inj hcs
      obtain ⟨d', links', hd', hrest⟩ := ih hd htail h
      exact ⟨d', links', hd', fun zs hzs follow' => by
        rw [List.cons_append, walk_skip hc, hrest zs hzs]⟩
  | case3 links d cs hc ih =>
    intro h
    cases xs with
    | nil => exact ⟨d, links, hd, fun zs _ follow' => rfl⟩
    | cons x xs =>
      obtain ⟨rfl, htail⟩ := List.cons.inj hcs
      obtain ⟨d', links', hd', hrest⟩ := ih (node_dropLast hd) htail h
      exact ⟨d', links', hd', fun zs hzs follow' => by rw [List.cons_append, walk_up, hrest zs hzs]⟩
  | case4 => rintro ⟨⟩
  | case5 links d c cs _ _ _ hnode ih =>
    intro h
    cases xs with
    | nil => exact ⟨d, links, hd, fun zs _ follow' => rfl⟩
    | cons x xs =>
      obtain ⟨rfl, htail⟩ := List.cons.inj hcs
      obtain ⟨d', links', hd', hrest⟩ := ih hnode htail h
      exact ⟨d', links', hd', fun zs hzs follow' => by
        rw [List.cons_append, walk_dir hnode, hrest zs hzs]⟩
  | case6 links d c _ _ _ content hnode =>
    intro h
    cases xs with
    | nil => exact ⟨d, links, hd, fun zs _ follow' => rfl⟩
    | cons x xs => exact absurd (List.append_eq_nil_iff.mp (List.cons.inj hcs).2).2 hys
  | case7 => rintro ⟨⟩
  | case8 links d c cs _ _ _ target hnode hlast =>
    intro h
    cases xs with
    | nil => exact ⟨d, links, hd, fun zs _ follow' => rfl⟩
    | cons x xs =>
      rw [hlast.1] at hcs
      exact absurd (List.append_eq_nil_iff.mp (List.cons.inj hcs).2).2 hys
  | case9 => rintro ⟨⟩
  | case10 d c cs hc hc' hlen target hnode hlast links ih =>
    intro h
    cases xs with
    | nil => exact ⟨d, links + 1, hd, fun zs _ follow' => rfl⟩
    | cons x xs =>
      obtain ⟨rfl, rfl⟩ := List.cons.inj hcs
      have hstart : fs.node (if target.head? = some '/' then [] else d) = some .dir := by
        split
        · exact fs.root
        · exact hd
      obtain ⟨d', links', hd', hrest⟩ := ih hstart (List.append_assoc ..) h
      refine ⟨d', links', hd', fun zs hzs follow' => ?_⟩
      rw [List.cons_append, walk, if_neg hc, if_neg hc', if_neg hlen, hnode]
      dsimp only
      rw [if_neg fun hend => hzs (List.append_eq_nil_iff.mp hend.1).2, ← List.append_assoc]
      exact hrest zs hzs follow'
  | case11 links d c _ _ _ hnode =>
    intro h
    cases xs with
    | nil => exact ⟨d, links, hd, fun zs _ follow' => rfl⟩
    | cons x xs => exact absurd (List.append_eq_nil_iff.mp (List.cons.inj hcs).2).2 hys
  | case12 => rintro ⟨⟩

/-- `fs'` has what `fs` has, up to the contents of files. -/
def Le (fs fs' : Fs β) : Prop :=
  ∀ loc, (fs.node loc = some .dir → fs'.node loc = some .dir) ∧
    (∀ target, fs.node loc = some (.link target) → fs'.node loc = some (.link target)) ∧
    ∀ content, fs.node loc = some (.file content) → ∃ content', fs'.node loc = some (.file content')

theorem walk_mono (hle : Le fs fs') (h : fs.walk follow links d cs = .ok loc)
    (hnode : (fs.node loc).isSome) : fs'.walk follow links d cs = .ok loc := by
  revert h
  fun_induction fs.walk follow links d cs with
  | case1 => exact fun h => by rw [walk_nil, h]
  | case2 links d c cs hc ih => exact fun h => by rw [walk_skip hc, ih h]
  | case3 links d cs hc ih => exact fun h => by rw [walk_up, ih h]
  | case4 => rintro ⟨⟩
  | case5 links d c cs _ _ _ hdir ih => exact fun h => by rw [walk_dir ((hle _).1 hdir), ih h]
  | case6 links d c hc hc' hlen content hfile =>
    intro h
    obtain ⟨content', hfile'⟩ := (hle _).2.2 content hfile
    rw [walk, if_neg hc, if_neg hc', if_neg hlen, hfile']
    exact h
  | case7 => rintro ⟨⟩
  | case8 links d c cs hc hc' hlen target hlink hlast =>
    intro h
    rw [walk, if_neg hc, if_neg hc', if_neg hlen, (hle _).2.1 target hlink]
    dsimp only
    rw [if_pos hlast, h]
  | case9 => rintro ⟨⟩
  | case10 d c cs hc hc' hlen target hlink hlast links ih =>
    intro h
    rw [walk, if_neg hc, if_neg hc', if_neg hlen, (hle _).2.1 target hlink]
    dsimp only
    rw [if_neg hlast]
    exact ih h
  | case11 links d c _ _ _ hnone =>
    rintro ⟨⟩
    rw [hnone] at hnode
    cases hnode
  | case12 => rintro ⟨⟩

/-- The last component of a walk is not followed, whether or not it exists. -/
theorem walk_name (hn : IsName n) : fs.walk false links d [n] = .ok (d ++ [n]) := by
  have hname := IsName.ne hn
  rw [walk, if_neg hname.1, if_neg hname.2.1, if_neg hname.2.2]
  cases fs.node (d ++ [n]) with
  | none => rfl
  | some i =>
    cases i with
    | dir => exact walk_nil
    | file content => rfl
    | link target => exact if_pos ⟨rfl, rfl⟩

/-! ## Paths -/

theorem locate_mono (hle : Le fs fs') (h : fs.locate cwd follow path = .ok loc)
    (hnode : (fs.node loc).isSome) : fs'.locate cwd follow path = .ok loc := by
  unfold locate at h ⊢
  split at h
  · cases h
  · split at h
    · cases h
    · rename_i hne hlen
      rw [if_neg hne, if_neg hlen]
      exact walk_mono hle h hnode

theorem length_lt_of_locate (h : fs.locate cwd follow path = .ok loc) :
    path ≠ [] ∧ path.length < 4096 := by
  unfold locate at h
  split at h
  · cases h
  · split at h
    · cases h
    · rename_i hne hlen
      exact ⟨hne, Nat.not_le.mp hlen⟩

theorem locate_append (h : fs.locate cwd follow path = .ok loc) (hdir : fs.node loc = some .dir) :
    ∃ links, ∀ rest : List Char, (path ++ '/' :: rest).length < 4096 → ∀ follow',
      fs.locate cwd follow' (path ++ '/' :: rest) =
      fs.walk follow' links loc (rest.splitOn '/') := by
  obtain ⟨hne, hshort⟩ := length_lt_of_locate h
  unfold locate at h
  rw [if_neg hne, if_neg (Nat.not_le.mpr hshort)] at h
  obtain ⟨links, hwalk⟩ := walk_append h hdir
  refine ⟨links, fun rest hlen follow' => ?_⟩
  unfold locate
  rw [if_neg (by simp), if_neg (Nat.not_le.mpr hlen), List.head?_append_of_ne_nil _ hne,
    List.splitOn_append_cons_self]
  exact hwalk _ (List.splitOn_ne_nil _ _) follow'

/-- A path that is found leads through a directory at each of its slashes. -/
theorem locate_split {rest : List Char} (hcwd : fs.node cwd = some .dir)
    (h : fs.locate cwd follow (path ++ '/' :: rest) = .ok loc) :
    ∃ d links, fs.node d = some .dir ∧ fs.locate cwd true (path ++ ['/']) = .ok d ∧
      ∀ rest' : List Char, (path ++ '/' :: rest').length < 4096 → ∀ follow',
        fs.locate cwd follow' (path ++ '/' :: rest') =
        fs.walk follow' links d (rest'.splitOn '/') := by
  obtain ⟨-, hshort⟩ := length_lt_of_locate h
  unfold locate at h
  rw [if_neg (by simp), if_neg (Nat.not_le.mpr hshort), List.splitOn_append_cons_self] at h
  have hhead (rest' : List Char) : (path ++ '/' :: rest').head? = (path ++ '/' :: rest).head? := by
    cases path <;> rfl
  have hstart : fs.node (if (path ++ '/' :: rest).head? = some '/' then [] else cwd) =
      some .dir := by
    split
    · exact fs.root
    · exact hcwd
  obtain ⟨d, links, hd, hwalk⟩ := walk_split hstart (List.splitOn_ne_nil _ _) h
  have hrest (rest' : List Char) (hlen : (path ++ '/' :: rest').length < 4096) (follow' : Bool) :
      fs.locate cwd follow' (path ++ '/' :: rest') =
      fs.walk follow' links d (rest'.splitOn '/') := by
    unfold locate
    rw [if_neg (by simp), if_neg (Nat.not_le.mpr hlen), List.splitOn_append_cons_self, hhead rest']
    exact hwalk _ (List.splitOn_ne_nil _ _) follow'
  refine ⟨d, links, hd, ?_, hrest⟩
  rw [hrest [] (by rw [List.length_append, List.length_cons] at hshort ⊢; simp; omega),
    List.splitOn_nil, walk_skip (.inl rfl), walk_nil]

/-- A path with a slash at its end leads to a directory, and goes on there. -/
theorem locate_dir (hcwd : fs.node cwd = some .dir)
    (h : fs.locate cwd true (path ++ ['/']) = .ok d) :
    fs.node d = some .dir ∧ ∃ links, ∀ rest : List Char, (path ++ '/' :: rest).length < 4096 →
    ∀ follow',
      fs.locate cwd follow' (path ++ '/' :: rest) = fs.walk follow' links d (rest.splitOn '/') := by
  obtain ⟨d', links, hd', hlocate, hrest⟩ := locate_split hcwd h
  cases Except.ok.inj (h.symm.trans hlocate)
  exact ⟨hd', links, hrest⟩

theorem locate_entry (h : fs.locate cwd follow path = .ok loc) (hdir : fs.node loc = some .dir)
    (hn : IsName n) (hlen : (path ++ '/' :: n).length < 4096) :
    fs.locate cwd false (path ++ '/' :: n) = .ok (loc ++ [n]) := by
  obtain ⟨links, hlocate⟩ := locate_append h hdir
  rw [hlocate n hlen, List.splitOn_eq_singleton hn.2.1, walk_name hn]

theorem node_eq_none_of_prefix (h : fs.node d = none) (hle : d <+: loc) : fs.node loc = none := by
  obtain ⟨rest, rfl⟩ := hle
  induction rest using List.reverseRecOn with
  | nil => rwa [List.append_nil]
  | append_singleton rest n ih =>
    cases hnode : fs.node (d ++ (rest ++ [n])) with
    | none => rfl
    | some i =>
      rw [← List.append_assoc] at hnode
      rw [fs.parent (by rw [hnode]; rfl)] at ih
      cases ih

end

end Fs

end BootableRecovery
