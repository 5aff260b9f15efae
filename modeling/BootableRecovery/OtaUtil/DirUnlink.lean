import BootableRecovery.LibBase.Strings
import BootableRecovery.Theory.PathResolution
import Mathlib.Algebra.Order.BigOperators.Group.List
import Mathlib.Data.List.Dedup
import Mathlib.Data.List.Infix

/-!
# Removing a directory tree

`dirUnlinkHierarchy` of `otautil/DirUtil.cpp` on a file system with symbolic links. It builds the
path of each entry in a buffer of `PATH_MAX` bytes. Where all paths fit it ends, and removes each
entry under its own name; a path that is cut may name the directory itself, its parent or another
entry (`dirUnlink_right_iff`).
-/

namespace BootableRecovery.DirUnlink

/-! ## The file system -/

/-- A finite file system. -/
structure FiniteFs extends Fs Unit where
  places : List Loc
  mem_places : ∀ {loc}, (node loc).isSome → loc ∈ places

namespace FiniteFs

variable (fs : FiniteFs)

/-- The names in a directory. -/
def names (d : Loc) : List Text :=
  (fs.places.filterMap fun loc =>
    match loc.getLast? with
    | some n => if loc.dropLast = d ∧ (fs.node loc).isSome then some n else none
    | none => none).dedup

theorem mem_names {d : Loc} {n : Text} : n ∈ fs.names d ↔ (fs.node (d ++ [n])).isSome := by
  rw [names, List.mem_dedup, List.mem_filterMap]
  constructor
  · rintro ⟨loc, -, hloc⟩
    split at hloc
    · rename_i m hlast
      split at hloc
      · rename_i hd
        cases hloc
        have hsplit : loc = d ++ [n] := by
          rw [← hd.1]
          exact (List.dropLast_append_getLast? n hlast).symm
        rw [← hsplit]
        exact hd.2
      · cases hloc
    · cases hloc
  · intro h
    refine ⟨d ++ [n], fs.mem_places h, ?_⟩
    rw [List.getLast?_concat, List.dropLast_concat]
    exact if_pos ⟨rfl, h⟩

/-- An entry without entries of its own is removed. -/
def remove (loc : Loc) (hne : loc ≠ []) (hleaf : ∀ n, fs.node (loc ++ [n]) = none) : FiniteFs where
  node := fun p => if p = loc then none else fs.node p
  root := by
    rw [if_neg hne.symm]
    exact fs.root
  parent := by
    intro d n h
    split at h
    · cases h
    · have hd : d ≠ loc := by
        rintro rfl
        rw [hleaf n] at h
        cases h
      rw [if_neg hd]
      exact fs.parent h
  isName := by
    intro d n h
    split at h
    · cases h
    · exact fs.isName h
  places := fs.places
  mem_places := by
    intro p h
    split at h
    · cases h
    · exact fs.mem_places h

/-- `unlink` of what stands at a place. -/
def unlinkAt (loc : Loc) : Option FiniteFs :=
  if h : (fs.node loc).isSome ∧ fs.node loc ≠ some .dir then
    some (fs.remove loc (fun heq => h.2 (heq ▸ fs.root)) fun n => by
      cases hn : fs.node (loc ++ [n]) with
      | none => rfl
      | some i => exact absurd (fs.parent (by rw [hn]; rfl)) h.2)
  else none

/-- `rmdir` of what stands at a place; the root cannot be removed. -/
def rmdirAt (loc : Loc) : Option FiniteFs :=
  if h : loc ≠ [] ∧ fs.node loc = some .dir ∧ fs.names loc = [] then
    some (fs.remove loc h.1 fun n => by
      cases hn : fs.node (loc ++ [n]) with
      | none => rfl
      | some i =>
        have hmem : n ∈ fs.names loc := fs.mem_names.mpr (by rw [hn]; rfl)
        rw [h.2.2] at hmem
        exact absurd hmem List.not_mem_nil)
  else none

end FiniteFs

/-! ## The code -/

def PATH_MAX : Nat := 4096

def EIO : Int := 5

/-- Which calls fail, by the number of calls before them, and in which order a directory is read. -/
structure Env where
  fails : Nat → Bool
  order : Nat → Text → List Text → List Text
  perm : ∀ time path names, (order time path names).Perm names

/-- The file system, the number of calls so far, and for each removal the entry that was meant and
the one removed. -/
structure State where
  fs : FiniteFs
  time : Nat
  removed : List (Loc × Loc)

section
variable (env : Env) (cwd : Loc)

def State.tick (st : State) : State := { st with time := st.time + 1 }

/-- `lstat`: what stands at a path, and its place. -/
def State.lstat (st : State) (path : Text) : Option (Loc × Inode Unit) :=
  match st.fs.locate cwd false path with
  | .ok loc => (st.fs.node loc).map fun i => (loc, i)
  | .error _ => none

/-- `unlink` or `rmdir` of a path for the entry `own`: whether it returns 0. -/
def removeCall (act : FiniteFs → Loc → Option FiniteFs) (own : Loc) (path : Text) (st : State) :
    Bool × State :=
  if env.fails st.time then (false, st.tick)
  else match st.fs.locate cwd false path with
    | .error _ => (false, st.tick)
    | .ok loc => match act st.fs loc with
      | none => (false, st.tick)
      | some fs => (true, { fs, time := st.time + 1, removed := st.removed ++ [(own, loc)] })

/-- `snprintf(dn, sizeof(dn), "%s/%s", path, de->d_name)`. -/
def snprintf (path name : Text) : Text := (path ++ '/' :: name).take (PATH_MAX - 1)

/-- The loop over the entries: `fail` and `errno` behind it. -/
def readLoop (unlinkHierarchy : Loc → Text → State → Option (Bool × State)) (own : Loc)
    (path : Text) : List Text → State → Option ((Bool × Int) × State)
  | [], st => some ((false, if env.fails st.time then EIO else 0), st.tick)
  | name :: names, st =>
    if env.fails st.time then some ((false, EIO), st.tick)
    else if name = ['.', '.'] ∨ name = ['.'] then readLoop unlinkHierarchy own path names st.tick
    else match unlinkHierarchy (own ++ [name]) (snprintf path name) st.tick with
      | none => none
      | some (false, st) => some ((true, 0), st)
      | some (true, st) => readLoop unlinkHierarchy own path names st

/-- `dirUnlinkHierarchy`, for at most `depth` levels: whether it returns 0. `own` is the entry that
the caller means. -/
def dirUnlinkHierarchy : (depth : Nat) → (own : Loc) → (path : Text) → State → Option (Bool × State)
  | 0, _, _, _ => none
  | depth + 1, own, path, st =>
    match st.lstat cwd path with
    | none => some (false, st)
    | some (loc, kind) =>
      if kind ≠ .dir then some (removeCall env cwd FiniteFs.unlinkAt own path st)
      else if env.fails st.time then some (false, st.tick)
      else match readLoop env (dirUnlinkHierarchy depth) own path
          (env.order st.time path (['.'] :: ['.', '.'] :: st.fs.names loc)) st.tick with
        | none => none
        | some ((fail, errno), st) =>
          -- `closedir` in both cases
          if fail ∨ errno < 0 ∨ env.fails st.time then some (false, st.tick)
          else some (removeCall env cwd FiniteFs.rmdirAt own path st.tick)

/-! ## What a run should do -/

/-- The place of the path, if it has one. -/
def rootOf (fs : FiniteFs) (path : Text) : Loc :=
  match fs.locate cwd false path with
  | .ok root => root
  | .error _ => []

/-- A run ends; it changes the tree at the path only, removes each entry under its own name, and
returns 0 only if nothing is left there. -/
def Right (fs : FiniteFs) (path : Text) : Prop :=
  ∃ depth ok st, dirUnlinkHierarchy env cwd depth (rootOf cwd fs path) path ⟨fs, 0, []⟩ =
  some (ok, st) ∧
    (∀ loc, st.fs.node loc ≠ fs.node loc → ∃ root, fs.locate cwd false path = .ok root ∧
      root <+: loc) ∧
    (∀ p ∈ st.removed, p.2 = p.1) ∧
    (ok = true → ∃ root, fs.locate cwd false path = .ok root ∧ ∀ loc, root <+: loc →
      st.fs.node loc = none)

end

/-- The directories of the tree, with the paths under which they are read. -/
inductive Reads (fs : FiniteFs) (cwd : Loc) (path : Text) : Text → Loc → Prop
  | root {d : Loc} : fs.locate cwd false path = .ok d → fs.node d = some .dir →
    Reads fs cwd path path d
  | entry {p n : Text} {d : Loc} : Reads fs cwd path p d → fs.node (d ++ [n]) = some .dir →
      (p ++ '/' :: n).length < PATH_MAX → Reads fs cwd path (p ++ '/' :: n) (d ++ [n])

/-- The path of an entry fits, or it is cut within the name to one that does not exist. -/
def EntrySafe (fs : FiniteFs) (p : Text) (d : Loc) (n : Text) : Prop :=
  (p ++ '/' :: n).length < PATH_MAX ∨
    IsName (n.take (PATH_MAX - 2 - p.length)) ∧ fs.node (d ++ [n.take (PATH_MAX - 2 - p.length)]) =
    none

/-- All entries of the tree are safe. -/
def Safe (fs : FiniteFs) (cwd : Loc) (path : Text) : Prop :=
  ∀ p d, Reads fs cwd path p d → ∀ n, (fs.node (d ++ [n])).isSome → EntrySafe fs p d n

section
variable {env : Env} {cwd : Loc} {fs : FiniteFs} {path p n : Text} {root own loc d : Loc}
    {st st' : State} {ok : Bool}

/-! ## Paths that fit -/

theorem Reads.spec (h : Reads fs cwd path p d) :
    fs.locate cwd false p = .ok d ∧ fs.node d = some .dir := by
  induction h with
  | root hlocate hdir => exact ⟨hlocate, hdir⟩
  | entry _ hdir hlen ih =>
    exact ⟨Fs.locate_entry ih.1 ih.2 (fs.isName (by rw [hdir]; rfl)) hlen, hdir⟩

/-- If something stands at the path it is the entry, and its directories are read under the path. -/
def Named (fs : FiniteFs) (cwd : Loc) (path : Text) (own : Loc) (p : Text) : Prop :=
  ∀ loc, fs.locate cwd false p = .ok loc → (fs.node loc).isSome →
    loc = own ∧ (fs.node own = some .dir → Reads fs cwd path p own)

theorem named_root (h : fs.locate cwd false path = .ok root) : Named fs cwd path root path := by
  intro loc hloc _
  cases Except.ok.inj (h.symm.trans hloc)
  exact ⟨rfl, .root h⟩

theorem snprintf_of_lt (h : (p ++ '/' :: n).length < PATH_MAX) : snprintf p n = p ++ '/' :: n :=
  List.take_of_length_le (Nat.le_sub_one_of_lt h)

theorem snprintf_cut (h : p.length < PATH_MAX - 1) :
    snprintf p n = p ++ '/' :: n.take (PATH_MAX - 2 - p.length) := by
  have hsub : PATH_MAX - 1 - p.length = PATH_MAX - 2 - p.length + 1 := by omega
  rw [snprintf, List.take_append, List.take_of_length_le (Nat.le_of_lt h), hsub,
    List.take_succ_cons]

theorem Named.entry (hreads : Reads fs cwd path p d) (hn : (fs.node (d ++ [n])).isSome)
    (hsafe : EntrySafe fs p d n) : Named fs cwd path (d ++ [n]) (snprintf p n) := by
  obtain ⟨hlocate, hdir⟩ := hreads.spec
  intro loc hloc hnode
  rcases hsafe with hfits | ⟨hname, hnone⟩
  · rw [snprintf_of_lt hfits] at hloc ⊢
    rw [Fs.locate_entry hlocate hdir (fs.isName hn) hfits] at hloc
    cases Except.ok.inj hloc
    exact ⟨rfl, fun hdir' => .entry hreads hdir' hfits⟩
  · have hshort : p.length < PATH_MAX - 1 := by
      by_contra hlong
      exact hname.1 (by rw [show PATH_MAX - 2 - p.length = 0 by omega, List.take_zero])
    rw [snprintf_cut hshort] at hloc
    rw [Fs.locate_entry hlocate hdir hname (Fs.length_lt_of_locate hloc).2] at hloc
    rw [← Except.ok.inj hloc, hnone] at hnode
    cases hnode

/-! ## Removing -/

/-- What holds in a run on safe entries: below the root some entries have been removed, under their
own names. -/
structure Holds (fs : FiniteFs) (root : Loc) (st : State) : Prop where
  same : ∀ loc, st.fs.node loc = none ∨ st.fs.node loc = fs.node loc
  below : ∀ loc, st.fs.node loc ≠ fs.node loc → root <+: loc
  own : ∀ q ∈ st.removed, q.2 = q.1

theorem Holds.tick (h : Holds fs root st) : Holds fs root st.tick := ⟨h.same, h.below, h.own⟩

theorem Holds.le (h : Holds fs root st) : Fs.Le st.fs.toFs fs.toFs := by
  have hsame {loc : Loc} {i : Inode Unit} (hi : st.fs.node loc = some i) :
      fs.node loc = some i := by
    rcases h.same loc with hnone | heq
    · rw [hi] at hnone
      cases hnone
    · rw [← heq, hi]
  exact fun loc => ⟨hsame, fun target => hsame, fun content hfile => ⟨content, hsame hfile⟩⟩

theorem Named.located (hnamed : Named fs cwd path own p) (h : Holds fs root st)
    (hloc : st.fs.locate cwd false p = .ok loc) (hnode : (st.fs.node loc).isSome) :
    loc = own ∧ st.fs.node own = fs.node own := by
  have hsome : st.fs.node loc = fs.node loc := by
    rcases h.same loc with hnone | heq
    · rw [hnone] at hnode
      cases hnode
    · exact heq
  obtain ⟨rfl, -⟩ := hnamed loc (Fs.locate_mono h.le hloc hnode) (hsome ▸ hnode)
  exact ⟨rfl, hsome⟩

/-- A call that removes what stands at a place, if it can. -/
def Removes (act : FiniteFs → Loc → Option FiniteFs) : Prop :=
  ∀ fs loc fs', act fs loc = some fs' → (fs.node loc).isSome ∧ ∀ q, fs'.node q = if q =
  loc then none else fs.node q

theorem removes_unlinkAt : Removes FiniteFs.unlinkAt := by
  intro fs loc fs' h
  rw [FiniteFs.unlinkAt] at h
  split at h
  · rename_i hnode
    cases h
    exact ⟨hnode.1, fun q => rfl⟩
  · cases h

theorem removes_rmdirAt : Removes FiniteFs.rmdirAt := by
  intro fs loc fs' h
  rw [FiniteFs.rmdirAt] at h
  split at h
  · rename_i hnode
    cases h
    exact ⟨by rw [hnode.2.1]; rfl, fun q => rfl⟩
  · cases h

theorem Holds.removeCall {act : FiniteFs → Loc → Option FiniteFs} (hact : Removes act)
    (h : Holds fs root st) (hnamed : Named fs cwd path own p) (hroot : root <+: own) :
    Holds fs root (removeCall env cwd act own p st).2 ∧
      ((removeCall env cwd act own p st).1 = true →
        (removeCall env cwd act own p st).2.fs.node own = none) := by
  unfold DirUnlink.removeCall
  split
  · exact ⟨h.tick, fun hok => by cases hok⟩
  · split
    · exact ⟨h.tick, fun hok => by cases hok⟩
    · rename_i loc hloc
      split
      · exact ⟨h.tick, fun hok => by cases hok⟩
      · rename_i fs' hfs'
        obtain ⟨hnode, hremoved⟩ := hact _ _ _ hfs'
        obtain ⟨rfl, -⟩ := hnamed.located h hloc hnode
        refine ⟨⟨fun q => ?_, fun q hq => ?_, fun q hq => ?_⟩,
          fun _ => by rw [hremoved, if_pos rfl]⟩
        · rw [hremoved]
          split
          · exact .inl rfl
          · exact h.same q
        · rw [hremoved] at hq
          split at hq
          · rename_i heq
            rw [heq]
            exact hroot
          · exact h.below q hq
        · rcases List.mem_append.mp hq with hq | hq
          · exact h.own q hq
          · rw [List.mem_singleton.mp hq]

theorem readLoop_holds {unlinkHierarchy : Loc → Text → State → Option (Bool × State)}
    {names : List Text}
    (hcall : ∀ n st, (fs.node (own ++ [n])).isSome → Holds fs root st →
      ∃ ok st', unlinkHierarchy (own ++ [n]) (snprintf p n) st = some (ok, st') ∧ Holds fs root st')
    (hnames : ∀ n ∈ names, (n = ['.', '.'] ∨ n = ['.']) ∨ (fs.node (own ++ [n])).isSome)
    (h : Holds fs root st) : ∃ r st', readLoop env unlinkHierarchy own p names st = some (r, st') ∧
    Holds fs root st' := by
  induction names generalizing st with
  | nil => exact ⟨_, _, rfl, h.tick⟩
  | cons name names ih =>
    have hrest := fun n hn => hnames n (List.mem_cons_of_mem _ hn)
    rw [readLoop]
    split
    · exact ⟨_, _, rfl, h.tick⟩
    · split
      · exact ih hrest h.tick
      · rename_i hdots
        obtain ⟨ok, st', hrun, hst'⟩ :=
          hcall name st.tick ((hnames name List.mem_cons_self).resolve_left hdots) h.tick
        rw [hrun]
        cases ok with
        | false => exact ⟨_, _, rfl, hst'⟩
        | true => exact ih hrest hst'

/-- With safe entries a call ends, as deep as the tree is at most, and keeps what holds. -/
theorem dirUnlinkHierarchy_holds {bound : Nat} (hsafe : Safe fs cwd path)
    (hbound : ∀ loc, (fs.node loc).isSome → loc.length ≤ bound) (depth : Nat)
    (hlength : own.length ≤ bound + 1) (hdepth : bound + 2 ≤ own.length + depth)
    (h : Holds fs root st) (hnamed : Named fs cwd path own p) (hroot : root <+: own) :
    ∃ ok st', dirUnlinkHierarchy env cwd depth own p st = some (ok, st') ∧ Holds fs root st' ∧
      (ok = true → st'.fs.node own = none) := by
  induction depth generalizing own p st with
  | zero => omega
  | succ depth ih =>
    rw [dirUnlinkHierarchy]
    cases hlstat : st.lstat cwd p with
    | none => exact ⟨_, _, rfl, h, fun hok => by cases hok⟩
    | some q =>
      obtain ⟨loc, kind⟩ := q
      dsimp only
      have hfound : st.fs.locate cwd false p = .ok loc ∧ st.fs.node loc = some kind := by
        unfold State.lstat at hlstat
        split at hlstat
        · rename_i loc' hloc
          obtain ⟨i, hi, heq⟩ := Option.map_eq_some_iff.mp hlstat
          cases heq
          exact ⟨hloc, hi⟩
        · cases hlstat
      obtain ⟨rfl, hsame⟩ := hnamed.located h hfound.1 (by rw [hfound.2]; rfl)
      split
      · obtain ⟨hholds, hnone⟩ :
            Holds fs root (removeCall env cwd FiniteFs.unlinkAt loc p st).2 ∧ _ :=
          h.removeCall removes_unlinkAt hnamed hroot
        exact ⟨_, _, rfl, hholds, hnone⟩
      · rename_i hkind
        have hkind : kind = .dir := Decidable.not_not.mp hkind
        have hdir : fs.node loc = some .dir := by rw [← hsame, hfound.2, hkind]
        have hreads : Reads fs cwd path p loc :=
          (hnamed loc (Fs.locate_mono h.le hfound.1 (by rw [hfound.2]; rfl)) (by rw [hdir]; rfl)).2
          hdir
        split
        · exact ⟨_, _, rfl, h.tick, fun hok => by cases hok⟩
        · have hle := hbound loc (by rw [hdir]; rfl)
          have hnames : ∀ n ∈ env.order st.time p (['.'] :: ['.', '.'] :: st.fs.names loc),
              (n = ['.', '.'] ∨ n = ['.']) ∨ (fs.node (loc ++ [n])).isSome := by
            intro n hn
            rcases List.mem_cons.mp ((env.perm ..).mem_iff.mp hn) with hdot | hn
            · exact .inl (.inr hdot)
            · rcases List.mem_cons.mp hn with hdots | hn
              · exact .inl (.inl hdots)
              · have hentry := st.fs.mem_names.mp hn
                rcases h.same (loc ++ [n]) with hnone | heq
                · rw [hnone] at hentry
                  cases hentry
                · exact .inr (heq ▸ hentry)
          have hcall : ∀ n st, (fs.node (loc ++ [n])).isSome → Holds fs root st → ∃ ok st',
              dirUnlinkHierarchy env cwd depth (loc ++ [n]) (snprintf p n) st = some (ok, st') ∧
              Holds fs root st' := by
            intro n st hn hst
            obtain ⟨ok, st', hrun, hst', -⟩ := ih (by simp; omega) (by simp; omega) hst
              (.entry hreads hn (hsafe p loc hreads n hn)) (hroot.trans (List.prefix_append ..))
            exact ⟨ok, st', hrun, hst'⟩
          obtain ⟨⟨fail, errno⟩, st', hloop, hst'⟩ :=
            @readLoop_holds env fs p root loc st.tick _ _ hcall hnames h.tick
          rw [hloop]
          dsimp only
          split
          · exact ⟨_, _, rfl, hst'.tick, fun hok => by cases hok⟩
          · obtain ⟨hholds, hnone⟩ :
                Holds fs root (removeCall env cwd FiniteFs.rmdirAt loc p st'.tick).2 ∧ _ :=
              hst'.tick.removeCall removes_rmdirAt hnamed hroot
            exact ⟨_, _, rfl, hholds, hnone⟩

theorem FiniteFs.exists_bound (fs : FiniteFs) : ∃ bound, ∀ loc, (fs.node loc).isSome →
    loc.length ≤ bound := by
  refine ⟨(fs.places.map List.length).sum, fun loc h => ?_⟩
  exact List.le_sum_of_mem (List.mem_map_of_mem (fs.mem_places h))

theorem right_of_safe (hsafe : Safe fs cwd path) (env : Env) : Right env cwd fs path := by
  unfold Right rootOf
  cases hroot : fs.locate cwd false path with
  | error e =>
    have hlstat : State.lstat cwd ⟨fs, 0, []⟩ path = none := by
      unfold State.lstat
      rw [hroot]
    refine ⟨1, false, ⟨fs, 0, []⟩, ?_, fun _ h => absurd rfl h, fun _ h =>
      absurd h List.not_mem_nil, fun hok => by cases hok⟩
    rw [dirUnlinkHierarchy, hlstat]
  | ok root =>
    have hstart : Holds fs root ⟨fs, 0, []⟩ :=
      ⟨fun _ => .inr rfl, fun _ h => absurd rfl h, fun _ h => absurd h List.not_mem_nil⟩
    obtain ⟨bound, hbound⟩ := fs.exists_bound
    have hbound : ∀ loc, (fs.node loc).isSome → loc.length ≤ bound + root.length :=
      fun loc h => (hbound loc h).trans (Nat.le_add_right _ _)
    obtain ⟨ok, st, hrun, hst, hnone⟩ :
        ∃ ok st, dirUnlinkHierarchy env cwd _ root path ⟨fs, 0, []⟩ = some (ok, st) ∧ _ :=
      dirUnlinkHierarchy_holds hsafe hbound (bound + root.length + 2) (by omega) (by omega) hstart
      (named_root hroot)
        (List.prefix_refl root)
    refine ⟨_, ok, st, hrun, fun loc h => ⟨root, rfl, hst.below loc h⟩, hst.own, fun hok =>
      ⟨root, rfl, fun loc hprefix => ?_⟩⟩
    exact Fs.node_eq_none_of_prefix (hnone hok) hprefix

/-! ## Paths that are cut -/

/-- Reads first, in each directory on its way, the name that a path has there, and never fails. -/
def firstEnv (target : Text) : Env where
  fails := fun _ => false
  order := fun _ path names =>
    let name := (target.drop (path.length + 1)).takeWhile (· ≠ '/')
    if name ∈ names then name :: names.erase name else names
  perm := by
    intro time path names
    dsimp only
    split
    · rename_i hmem
      exact (List.perm_cons_erase hmem).symm
    · exact .refl _

section
variable {target : Text} {unlinkHierarchy : Loc → Text → State → Option (Bool × State)}
    {names : List Text}

theorem lstat_eq_some {i : Inode Unit} (hlocate : st.fs.locate cwd false p = .ok d)
    (hnode : st.fs.node d = some i) : st.lstat cwd p = some (d, i) := by
  unfold State.lstat
  rw [hlocate]
  dsimp only
  rw [hnode]
  rfl

theorem readLoop_eq_none
    (hcall : ∀ n st', st'.fs = st.fs → unlinkHierarchy (own ++ [n]) (snprintf p n) st' = none)
    (hname : ∃ n ∈ names, ¬(n = ['.', '.'] ∨ n = ['.'])) :
    readLoop (firstEnv target) unlinkHierarchy own p names st = none := by
  induction names generalizing st with
  | nil =>
    obtain ⟨n, hn, -⟩ := hname
    exact absurd hn List.not_mem_nil
  | cons name names ih =>
    rw [readLoop, if_neg (by exact Bool.false_ne_true)]
    split
    · rename_i hdots
      refine ih (fun n st' hst' => hcall n st' hst') ?_
      obtain ⟨n, hn, hndots⟩ := hname
      rcases List.mem_cons.mp hn with rfl | hn
      · exact absurd hdots hndots
      · exact ⟨n, hn, hndots⟩
    · rw [hcall name st.tick rfl]

/-- A path of the full length to a directory with entries: every path that is built in it is the
path itself. -/
theorem dirUnlinkHierarchy_eq_none (hlen : p.length = PATH_MAX - 1)
    (hlocate : st.fs.locate cwd false p = .ok d) (hdir : st.fs.node d = some .dir)
    (hentry : (st.fs.node (d ++ [n])).isSome) (depth : Nat) (own : Loc) :
    dirUnlinkHierarchy (firstEnv target) cwd depth own p st = none := by
  induction depth generalizing own st with
  | zero => rfl
  | succ depth ih =>
    have hlstat := lstat_eq_some hlocate hdir
    have hself : ∀ name, snprintf p name = p := fun name => by
      rw [snprintf, ← hlen, List.take_left]
    rw [dirUnlinkHierarchy, hlstat]
    dsimp only
    rw [if_neg (fun h => h rfl), if_neg (by exact Bool.false_ne_true)]
    rw [readLoop_eq_none]
    · intro name st' hst'
      rw [hself]
      have hfs : st'.fs = st.fs := hst'
      exact ih (by rw [hfs]; exact hlocate) (by rw [hfs]; exact hdir) (by rw [hfs]; exact hentry) _
    · refine ⟨n, ((firstEnv target).perm ..).mem_iff.mpr ?_, ?_⟩
      · exact List.mem_cons_of_mem _ (List.mem_cons_of_mem _ (st.fs.mem_names.mpr hentry))
      · have hname := st.fs.isName hentry
        rintro (hdots | hdot)
        · exact hname.2.2.2.1 hdots
        · exact hname.2.2.1 hdot

/-! ## The removals -/

theorem removed_removeCall (act : FiniteFs → Loc → Option FiniteFs) :
    st.removed <+: (removeCall env cwd act own p st).2.removed := by
  unfold removeCall
  split
  · exact List.prefix_refl _
  · split
    · exact List.prefix_refl _
    · split
      · exact List.prefix_refl _
      · exact List.prefix_append ..

theorem removed_readLoop {r : Bool × Int}
    (hcall : ∀ own p st ok st', unlinkHierarchy own p st = some (ok, st') →
      st.removed <+: st'.removed)
    (h : readLoop env unlinkHierarchy own p names st = some (r, st')) :
    st.removed <+: st'.removed := by
  induction names generalizing st with
  | nil =>
    cases h
    exact List.prefix_refl _
  | cons name names ih =>
    rw [readLoop] at h
    split at h
    · cases h
      exact List.prefix_refl _
    · split at h
      · have hrest := ih h
        exact hrest
      · split at h
        · cases h
        · rename_i st₁ hrun
          cases h
          have hfirst := hcall _ _ _ _ _ hrun
          exact hfirst
        · rename_i st₁ hrun
          have hfirst := hcall _ _ _ _ _ hrun
          exact hfirst.trans (ih h)

/-- Behind the loop a directory is closed, and removed if nothing has failed. -/
theorem removed_closedir {c : Prop} [Decidable c]
    (h : (if c then some (false, st.tick)
      else some (removeCall env cwd FiniteFs.rmdirAt own p st.tick)) = some (ok, st')) :
      st.removed <+: st'.removed := by
  split at h
  · cases h
    exact List.prefix_refl _
  · have hcall := @removed_removeCall env cwd p own st.tick FiniteFs.rmdirAt
    rw [Option.some.inj h] at hcall
    exact hcall

theorem removed_dirUnlinkHierarchy {depth : Nat}
    (h : dirUnlinkHierarchy env cwd depth own p st = some (ok, st')) :
    st.removed <+: st'.removed := by
  induction depth generalizing own p st ok st' with
  | zero => cases h
  | succ depth ih =>
    rw [dirUnlinkHierarchy] at h
    split at h
    · cases h
      exact List.prefix_refl _
    · split at h
      · rw [Option.some.injEq] at h
        have hcall := @removed_removeCall env cwd p own st FiniteFs.unlinkAt
        rw [h] at hcall
        exact hcall
      · split at h
        · cases h
          exact List.prefix_refl _
        · split at h
          · cases h
          · rename_i fail errno st₁ hloop
            have hprefix := removed_readLoop (fun own p st ok st' => ih) hloop
            exact hprefix.trans (removed_closedir h)

/-- The call does not end, or it removes an entry under another name than its own. -/
def Wrong (env : Env) (cwd : Loc) (own : Loc) (p : Text) (st : State) : Prop :=
  ∀ depth ok st', dirUnlinkHierarchy env cwd depth own p st = some (ok, st') →
  ∃ q ∈ st'.removed, q.2 ≠ q.1

theorem Wrong.of_first (hlocate : st.fs.locate cwd false p = .ok d)
    (hdir : st.fs.node d = some .dir) (hentry : (st.fs.node (d ++ [n])).isSome)
    (hfirst : (target.drop (p.length + 1)).takeWhile (· ≠ '/') = n)
    (hwrong : ∀ st', st'.fs = st.fs → Wrong (firstEnv target) cwd (own ++ [n]) (snprintf p n) st') :
    Wrong (firstEnv target) cwd own p st := by
  intro depth ok st' h
  cases depth with
  | zero => cases h
  | succ depth =>
    have hmem : n ∈ ['.'] :: ['.', '.'] :: st.fs.names d :=
      List.mem_cons_of_mem _ (List.mem_cons_of_mem _ (st.fs.mem_names.mpr hentry))
    have horder : (firstEnv target).order st.time p (['.'] :: ['.', '.'] :: st.fs.names d) =
        n :: (['.'] :: ['.', '.'] :: st.fs.names d).erase n := by
      show (if _ ∈ _ then _ else _) = _
      rw [hfirst, if_pos hmem]
    have hname := st.fs.isName hentry
    have hdots : ¬(n = ['.', '.'] ∨ n = ['.']) := fun h => h.elim hname.2.2.2.1 hname.2.2.1
    rw [dirUnlinkHierarchy, lstat_eq_some hlocate hdir] at h
    dsimp only at h
    rw [if_neg (fun h => h rfl), if_neg (by exact Bool.false_ne_true), horder] at h
    split at h
    · cases h
    · rename_i fail errno st₂ hloop
      have hloop : ∃ q ∈ st₂.removed, q.2 ≠ q.1 := by
        rw [readLoop, if_neg (by exact Bool.false_ne_true), if_neg hdots] at hloop
        split at hloop
        · cases hloop
        · rename_i st₁ hrun
          cases hloop
          exact hwrong st.tick.tick rfl _ _ _ hrun
        · rename_i st₁ hrun
          obtain ⟨q, hq, hne⟩ := hwrong st.tick.tick rfl _ _ _ hrun
          have hprefix := removed_readLoop (fun own p st ok st' => removed_dirUnlinkHierarchy) hloop
          exact ⟨q, hprefix.subset hq, hne⟩
      obtain ⟨q, hq, hne⟩ := hloop
      exact ⟨q, (removed_closedir h).subset hq, hne⟩

/-- What is treated wrongly in a directory of the tree is treated wrongly from the root of the tree
on. -/
theorem Wrong.of_reads (h : Reads fs cwd path p d) {rest : Text}
    (htarget : target = p ++ '/' :: rest)
    (hwrong : ∀ st, st.fs = fs → Wrong (firstEnv target) cwd d p st) :
    ∃ root, fs.locate cwd false path = .ok root ∧ ∀ st, st.fs = fs →
    Wrong (firstEnv target) cwd root path st := by
  induction h generalizing rest with
  | root hlocate _ => exact ⟨_, hlocate, hwrong⟩
  | @entry p n d hreads hdir hlen ih =>
    have hspec := hreads.spec
    have hentry : (fs.node (d ++ [n])).isSome := by
      rw [hdir]
      rfl
    have hfirst : (target.drop (p.length + 1)).takeWhile (· ≠ '/') = n := by
      have hdrop : target.drop (p.length + 1) = n ++ '/' :: rest := by
        rw [htarget, List.append_assoc, List.drop_append, List.drop_eq_nil_of_le (by omega),
          List.nil_append, Nat.add_sub_cancel_left]
        rfl
      rw [hdrop]
      exact takeWhile_append_stop (fun c hc => decide_eq_true fun heq =>
        (fs.isName hentry).2.1 (heq ▸ hc)) (by simp)
    refine @ih (n ++ '/' :: rest) (by rw [htarget, List.append_assoc, List.cons_append])
      fun st hst => ?_
    have hfs : st.fs = fs := hst
    refine Wrong.of_first (by rw [hfs]; exact hspec.1) (by rw [hfs]; exact hspec.2)
      (by rw [hfs]; exact hentry) hfirst ?_
    intro st' hst'
    rw [snprintf_of_lt hlen]
    exact hwrong st' (hst'.trans hfs)

theorem readLoop_dots (hdots : ∀ n ∈ names, n = ['.', '.'] ∨ n = ['.']) :
    ∃ st', readLoop (firstEnv target) unlinkHierarchy own p names st = some ((false, 0), st') ∧
    st'.fs = st.fs := by
  induction names generalizing st with
  | nil => exact ⟨st.tick, rfl, rfl⟩
  | cons name names ih =>
    rw [readLoop, if_neg (by exact Bool.false_ne_true), if_pos (hdots name List.mem_cons_self)]
    obtain ⟨st', hloop, hst'⟩ := @ih st.tick fun n hn => hdots n (List.mem_cons_of_mem _ hn)
    exact ⟨st', hloop, hst'⟩

theorem removeCall_wrong {act : FiniteFs → Loc → Option FiniteFs}
    (hlocate : st.fs.locate cwd false p = .ok loc) (hact : (act st.fs loc).isSome)
    (hne : loc ≠ own) :
    ∃ q ∈ (removeCall (firstEnv target) cwd act own p st).2.removed, q.2 ≠ q.1 := by
  obtain ⟨fs', hfs'⟩ := Option.isSome_iff_exists.mp hact
  rw [removeCall, if_neg (by exact Bool.false_ne_true), hlocate]
  dsimp only
  rw [hfs']
  exact ⟨(own, loc), List.mem_append_right _ (List.mem_singleton_self _), hne⟩

/-- A path of the full length that leads to a directory with entries, or to something else than the
entry. -/
theorem Wrong.of_length (hlen : p.length = PATH_MAX - 1)
    (hlocate : st.fs.locate cwd false p = .ok loc) (hnode : (st.fs.node loc).isSome)
    (hother : (∃ n, (st.fs.node (loc ++ [n])).isSome) ∨ loc ≠ [] ∧ loc ≠ own) :
    Wrong (firstEnv target) cwd own p st := by
  intro depth ok st' h
  by_cases hentry : ∃ n, (st.fs.node (loc ++ [n])).isSome
  · obtain ⟨n, hn⟩ := hentry
    rw [dirUnlinkHierarchy_eq_none hlen hlocate (st.fs.parent hn) hn] at h
    cases h
  · obtain ⟨hroot, hne⟩ := hother.resolve_left hentry
    have hnames : st.fs.names loc = [] :=
      List.eq_nil_iff_forall_not_mem.mpr fun n hn => hentry ⟨n, st.fs.mem_names.mp hn⟩
    obtain ⟨kind, hkind⟩ := Option.isSome_iff_exists.mp hnode
    cases depth with
    | zero => cases h
    | succ depth =>
      rw [dirUnlinkHierarchy, lstat_eq_some hlocate hkind] at h
      dsimp only at h
      split at h
      · rename_i hfile
        have hact : (FiniteFs.unlinkAt st.fs loc).isSome := by
          rw [FiniteFs.unlinkAt,
            dif_pos ⟨hnode, fun hdir => hfile (Option.some.inj (hkind.symm.trans hdir))⟩]
          rfl
        have hwrong := @removeCall_wrong cwd p own loc st target _ hlocate hact hne
        rw [Option.some.inj h] at hwrong
        exact hwrong
      · rename_i hdir
        rw [if_neg (by exact Bool.false_ne_true), hnames] at h
        have hdots : ∀ n ∈ (firstEnv target).order st.time p [['.'], ['.', '.']], n = ['.', '.'] ∨
            n = ['.'] := by
          intro n hn
          have hmem := ((firstEnv target).perm ..).mem_iff.mp hn
          rw [List.mem_pair] at hmem
          exact hmem.symm
        obtain ⟨st₁, hloop, hst₁⟩ :=
          @readLoop_dots p own st.tick target (dirUnlinkHierarchy (firstEnv target) cwd depth)
          _ hdots
        have hst₁ : st₁.fs = st.fs := hst₁
        rw [hloop] at h
        dsimp only at h
        rw [if_neg (by rintro (hf | hf | hf) <;> cases hf)] at h
        have hact : (FiniteFs.rmdirAt st₁.tick.fs loc).isSome := by
          show (FiniteFs.rmdirAt st₁.fs loc).isSome
          rw [hst₁, FiniteFs.rmdirAt,
            dif_pos ⟨hroot, hkind.trans (congrArg some (Decidable.not_not.mp hdir)), hnames⟩]
          rfl
        have hwrong := @removeCall_wrong cwd p own loc st₁.tick target FiniteFs.rmdirAt
          (by show st₁.fs.locate cwd false p = _; rw [hst₁]; exact hlocate) hact hne
        rw [Option.some.inj h] at hwrong
        exact hwrong

theorem wrong_of_not_entrySafe (hlocate : fs.locate cwd false p = .ok d)
    (hdir : fs.node d = some .dir) (hn : (fs.node (d ++ [n])).isSome) (hsafe : ¬EntrySafe fs p d n)
    (htarget : target = p ++ '/' :: n) (hst : st.fs = fs) : Wrong (firstEnv target) cwd d p st := by
  have hlong : PATH_MAX ≤ (p ++ '/' :: n).length := Nat.not_lt.mp fun h => hsafe (.inl h)
  have hshort := (Fs.length_lt_of_locate hlocate).2
  have hlen : (snprintf p n).length = PATH_MAX - 1 := by
    rw [snprintf, List.length_take]
    omega
  have hdirNode : (fs.node d).isSome := by
    rw [hdir]
    rfl
  by_cases hfull : p.length = PATH_MAX - 1
  · exact .of_length hfull (by rw [hst]; exact hlocate) (by rw [hst]; exact hdirNode)
      (.inl ⟨n, by rw [hst]; exact hn⟩)
  have hname := fs.isName hn
  have hfirst : (target.drop (p.length + 1)).takeWhile (· ≠ '/') = n := by
    have hdrop : target.drop (p.length + 1) = n ++ [] := by
      rw [htarget, List.drop_append, List.drop_eq_nil_of_le (by omega), List.nil_append,
        Nat.add_sub_cancel_left, List.append_nil]
      rfl
    rw [hdrop]
    exact takeWhile_append_stop (fun c hc => decide_eq_true fun heq =>
      hname.2.1 (heq ▸ hc)) (by simp)
  refine .of_first (by rw [hst]; exact hlocate) (by rw [hst]; exact hdir)
    (by rw [hst]; exact hn) hfirst ?_
  intro st' hst'
  have hst' : st'.fs = fs := hst'.trans hst
  -- where the path that is cut leads
  have hcut := @snprintf_cut p n (by simp only [PATH_MAX] at hfull ⊢; omega)
  generalize hc : n.take (PATH_MAX - 2 - p.length) = c at hcut
  have hslash : '/' ∉ c := fun hmem => hname.2.1 (List.mem_of_mem_take (hc ▸ hmem))
  obtain ⟨links, hwalk⟩ := Fs.locate_append hlocate hdir
  have hwalk := hwalk c (by rw [← hcut, hlen]; decide) false
  rw [← hcut, List.splitOn_eq_singleton hslash] at hwalk
  by_cases hself : c = [] ∨ c = ['.']
  · -- the directory itself
    rw [Fs.walk_skip hself, Fs.walk_nil] at hwalk
    exact .of_length hlen (by rw [hst']; exact hwalk) (by rw [hst']; exact hdirNode)
      (.inl ⟨n, by rw [hst']; exact hn⟩)
  by_cases hup : c = ['.', '.']
  · -- the directory above it
    rw [hup, Fs.walk_up, Fs.walk_nil] at hwalk
    have habove : ∃ m, (fs.node (d.dropLast ++ [m])).isSome := by
      cases List.eq_nil_or_concat d with
      | inl hnil => exact ⟨n, by rw [hnil] at hn ⊢; exact hn⟩
      | inr hconcat =>
        obtain ⟨d', m, rfl⟩ := hconcat
        exact ⟨m, by
          rw [List.concat_eq_append, List.dropLast_concat, ← List.concat_eq_append]
          exact hdirNode⟩
    obtain ⟨m, hm⟩ := habove
    exact .of_length hlen (by rw [hst']; exact hwalk) (by rw [hst', fs.parent hm]; rfl)
      (.inl ⟨m, by rw [hst']; exact hm⟩)
  -- another entry
  have hcname : IsName c := by
    refine ⟨fun h => hself (.inl h), hslash, fun h => hself (.inr h), hup, ?_⟩
    rw [← hc]
    exact (List.length_take_le' ..).trans hname.2.2.2.2
  rw [Fs.walk_name hcname] at hwalk
  have hcnode : (fs.node (d ++ [c])).isSome := by
    cases hnode : fs.node (d ++ [c]) with
    | none => exact absurd (.inr (by rw [hc]; exact ⟨hcname, hnode⟩)) hsafe
    | some i => rfl
  refine .of_length hlen (by rw [hst']; exact hwalk) (by rw [hst']; exact hcnode)
    (.inr ⟨by simp, fun heq => ?_⟩)
  have hcn : c = n := by
    have h := List.append_cancel_left heq
    exact List.singleton_inj.mp h
  rw [← hc] at hcn
  have hlength := congrArg List.length hcn
  rw [List.length_take] at hlength
  rw [List.length_append, List.length_cons] at hlong
  simp only [PATH_MAX] at hlong hlength hfull hshort
  omega

end

theorem exists_not_right (hreads : Reads fs cwd path p d) (hn : (fs.node (d ++ [n])).isSome)
    (hsafe : ¬EntrySafe fs p d n) : ∃ env, ¬Right env cwd fs path := by
  obtain ⟨hlocate, hdir⟩ := hreads.spec
  obtain ⟨root, hroot, hwrong⟩ := Wrong.of_reads hreads rfl fun st hst =>
    wrong_of_not_entrySafe hlocate hdir hn hsafe rfl hst
  refine ⟨firstEnv (p ++ '/' :: n), ?_⟩
  rintro ⟨depth, ok, st, hrun, -, hown, -⟩
  unfold rootOf at hrun
  rw [hroot] at hrun
  obtain ⟨q, hq, hne⟩ := hwrong _ rfl depth ok st hrun
  exact hne (hown q hq)

/-- Every run, for every order of the entries and every pattern of failures, is right if and only if
all entries of the tree are safe. -/
theorem dirUnlink_right_iff : (∀ env, Right env cwd fs path) ↔ Safe fs cwd path := by
  refine ⟨fun hright p d hreads n hn => ?_, right_of_safe⟩
  by_contra hsafe
  obtain ⟨env, hwrong⟩ := exists_not_right hreads hn hsafe
  exact hwrong (hright env)

/-! ## A deep tree -/

/-- A file system with one file. -/
def deepFs (file : Loc) (hne : file ≠ []) (hname : ∀ n ∈ file, IsName n) : FiniteFs where
  node := fun loc => if loc = file then some (.file ()) else if loc <+: file then some .dir
    else none
  root := by rw [if_neg hne.symm, if_pos (List.nil_prefix)]
  parent := by
    intro d n h
    have hprefix : d ++ [n] <+: file := by
      split at h
      · rename_i heq
        exact heq ▸ List.prefix_refl _
      · split at h
        · assumption
        · cases h
    have hd : d ≠ file := by
      rintro rfl
      have hlen := hprefix.length_le
      simp at hlen
    rw [if_neg hd, if_pos ((List.prefix_append d [n]).trans hprefix)]
  isName := by
    intro d n h
    refine hname n ?_
    split at h
    · rename_i heq
      exact heq ▸ List.mem_append_right d List.mem_cons_self
    · split at h
      · rename_i hprefix
        exact hprefix.subset (List.mem_append_right d List.mem_cons_self)
      · cases h
  places := file.inits
  mem_places := by
    intro loc h
    rw [List.mem_inits]
    split at h
    · rename_i heq
      exact heq ▸ List.prefix_refl _
    · split at h
      · assumption
      · cases h

section
variable {file : Loc} {hne : file ≠ []} {hname : ∀ n ∈ file, IsName n}

theorem deepFs_file : (deepFs file hne hname).node file = some (.file ()) := if_pos rfl

theorem deepFs_dir (hloc : loc ≠ file) (hle : loc <+: file) :
    (deepFs file hne hname).node loc = some .dir :=
  (if_neg hloc).trans (if_pos hle)

end

/-- The path of a place below a directory. -/
def pathBelow (path : Text) (names : Loc) : Text := names.foldl (fun p n => p ++ '/' :: n) path

theorem length_pathBelow (path : Text) (names : Loc) :
    (pathBelow path names).length = path.length + (names.map (·.length + 1)).sum := by
  induction names generalizing path with
  | nil => rfl
  | cons n names ih =>
    rw [pathBelow, List.foldl_cons, ← pathBelow, ih, List.length_append, List.length_cons,
      List.map_cons, List.sum_cons, Nat.add_assoc]

theorem reads_pathBelow {names : Loc} (hroot : Reads fs cwd path path root)
    (hdir : ∀ below, below <+: names → fs.node (root ++ below) = some .dir)
    (hlen : path.length + (names.map (·.length + 1)).sum < PATH_MAX) :
    Reads fs cwd path (pathBelow path names) (root ++ names) := by
  induction names using List.reverseRecOn with
  | nil => rwa [List.append_nil]
  | append_singleton names n ih =>
    rw [List.map_append, List.sum_append, ← Nat.add_assoc] at hlen
    have hreads := ih (fun below h => hdir below (h.trans (List.prefix_append ..))) (by omega)
    have hnode := hdir (names ++ [n]) (List.prefix_refl _)
    rw [pathBelow, List.foldl_append, List.foldl_cons, List.foldl_nil, ← pathBelow,
      ← List.append_assoc]
    rw [← List.append_assoc] at hnode
    refine hreads.entry hnode ?_
    rw [List.length_append, length_pathBelow, List.length_cons]
    simpa using hlen

/-- The names of a directory whose path, from `/cache` on, is two bytes shorter than the buffer. -/
def deepNames : Loc := List.replicate 15 (List.replicate 255 'a') ++ [List.replicate 247 'a']

theorem isName_replicate {k : Nat} (hk : 0 < k) (hk' : k ≤ 255) :
    IsName (List.replicate k 'a') := by
  refine ⟨by simp; omega, by simp, fun h => ?_, fun h => ?_, by rwa [List.length_replicate]⟩
  · have hmem : '.' ∈ List.replicate k 'a' := by rw [h]; simp
    simp at hmem
  · have hmem : '.' ∈ List.replicate k 'a' := by rw [h]; simp
    simp at hmem

theorem isName_deepNames (h : n ∈ deepNames) : IsName n := by
  rw [deepNames, List.mem_append, List.mem_singleton, List.mem_replicate] at h
  rcases h with ⟨-, rfl⟩ | rfl
  · exact isName_replicate (by decide) (by decide)
  · exact isName_replicate (by decide) (by decide)

/-- The file `/cache/aa…/…/aa…/x`. -/
def deepFile : Loc := "cache".toList :: (deepNames ++ ["x".toList])

theorem isName_deepFile (h : n ∈ deepFile) : IsName n := by
  rw [deepFile, List.mem_cons, List.mem_append, List.mem_singleton] at h
  rcases h with rfl | h | rfl
  · decide
  · exact isName_deepNames h
  · decide

/-- A deep tree is not removed: not every run is right. -/
theorem not_dirUnlink_right :
    ¬∀ (env : Env) (cwd : Loc) (fs : FiniteFs) (path : Text), Right env cwd fs path := by
  intro hright
  let fs := deepFs deepFile (List.cons_ne_nil _ _) fun n hn => isName_deepFile hn
  have hbelow : ∀ below, below <+: deepNames → fs.node (["cache".toList] ++ below) = some .dir := by
    intro below h
    have hprefix : ["cache".toList] ++ below <+: deepFile :=
      (List.prefix_cons_inj _).mpr (h.trans (List.prefix_append ..))
    refine deepFs_dir (fun heq => ?_) hprefix
    have hlen := h.length_le
    have hfull := congrArg List.length heq
    simp [deepFile] at hfull
    omega
  have hlength : "/cache".toList.length + (deepNames.map (·.length + 1)).sum = PATH_MAX - 2 := by
    rw [deepNames, List.map_append, List.map_replicate, List.map_singleton, List.length_replicate,
      List.length_replicate, List.sum_append, List.sum_replicate]
    rfl
  have hcache : fs.locate [] false "/cache".toList = .ok ["cache".toList] := by
    rw [Fs.locate, if_neg (by decide), if_neg (by decide)]
    have hsplit : "/cache".toList.splitOn '/' = [[], "cache".toList] := by decide
    rw [hsplit, Fs.walk_skip (.inl rfl)]
    exact (Fs.walk_dir (hbelow [] List.nil_prefix)).trans Fs.walk_nil
  have hreads := reads_pathBelow (.root hcache (hbelow [] List.nil_prefix)) hbelow
    (by rw [hlength]; decide)
  have hfile : (fs.node (["cache".toList] ++ deepNames ++ ["x".toList])).isSome := by
    have hdeep : ["cache".toList] ++ deepNames ++ ["x".toList] = deepFile := List.append_assoc ..
    have hnode : fs.node deepFile = some (.file ()) := deepFs_file
    rw [hdeep, hnode]
    rfl
  obtain ⟨env, hwrong⟩ := exists_not_right hreads hfile (by
    rw [EntrySafe, List.length_append, length_pathBelow, hlength]
    rintro (hfits | hcut)
    · exact absurd hfits (by decide)
    · exact hcut.1.1 (by rw [Nat.sub_self, List.take_zero]))
  exact hwrong (hright env [] fs _)

end

end BootableRecovery.DirUnlink
