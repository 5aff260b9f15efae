import BootableRecovery.OtaUtil.ExtractContained

/-!
# Names that lead out of the destination

With a destination in the root and no failing call the entries do what their names say, so that the
first name that leads out creates something there (`extractPackageRecursive_right_iff`).
-/

namespace BootableRecovery.ExtractPackage

section
variable {zip entries : List ZipEntry} {fs fs' : Fs (List UInt8)} {rest : Text} {loc d : Loc}
    {x : Text}
variable {tree tree' : FileTree Text Unit} {pos pos' : Option Loc} {cs : List Text} {st st' : State}
    {ok : Bool}

/-- No call fails. -/
def freeEnv : Env := ⟨fun _ => false, fun _ => []⟩

/-- Below `d` there is the tree, and nothing else beside `d` in the root. -/
structure Exact (tree : FileTree Text Unit) (fs : Fs (List UInt8)) (d : Loc) : Prop where
  dir : ∀ rel, tree rel = some .dir ↔ fs.node (d ++ rel) = some .dir
  missing : ∀ rel, tree rel = none ↔ fs.node (d ++ rel) = none
  link : ∀ loc target, fs.node loc ≠ some (.link target)
  outside : ∀ n, [n] ≠ d → fs.node [n] = none

/-- The place of a way that stays below `d`, or is in the root. -/
def At (d : Loc) (pos : Option Loc) (loc : Loc) : Prop :=
  match pos with
  | some rel => loc = d ++ rel
  | none => loc = []

theorem At.up (h : At d pos loc) (hd : d.length = 1) : At d (up pos) loc.dropLast := by
  cases pos with
  | none =>
    rw [show loc = [] from h]
    rfl
  | some rel =>
    have hloc : loc = d ++ rel := h
    rw [hloc, ExtractPackage.up, Option.bind_some]
    split
    · rename_i hnil
      obtain ⟨n, rfl⟩ := List.length_eq_one_iff.mp hd
      rw [hnil]
      rfl
    · rename_i hne
      rw [List.dropLast_append_of_ne_nil hne]
      rfl

/-- A way that is not blocked leads to a directory, or to a name that is missing. -/
theorem walk_of_enter {links : Nat} (hexact : Exact tree fs d) (hd : d.length = 1)
    (hat : At d pos loc) (hloc : fs.node loc = some .dir) (hblocked : enter tree pos cs ≠ .blocked)
    (hescape : ∀ x, enter tree pos cs = .escaped x → [x] ≠ d) :
    (∃ loc' pos', fs.walk true links loc (cs ++ [[]]) = .ok loc' ∧ fs.node loc' = some .dir ∧
        enter tree pos cs = .made tree pos' ∧ At d pos' loc') ∨
        fs.walk true links loc (cs ++ [[]]) = .error .noEntry := by
  induction cs generalizing pos loc links with
  | nil => exact .inl ⟨loc, pos,
    by rw [List.nil_append, Fs.walk_skip (.inl rfl), Fs.walk_nil], hloc, rfl, hat⟩
  | cons c cs ih =>
    rw [List.cons_append]
    unfold enter at hblocked hescape ⊢
    by_cases hself : c = [] ∨ c = ['.']
    · rw [Fs.walk_skip hself]
      rw [if_pos hself] at hblocked hescape ⊢
      exact ih hat hloc hblocked hescape
    rw [if_neg hself] at hblocked hescape ⊢
    by_cases hup : c = ['.', '.']
    · rw [if_pos hup] at hblocked hescape ⊢
      rw [hup, Fs.walk_up]
      exact ih (hat.up hd) (Fs.node_dropLast hloc) hblocked hescape
    rw [if_neg hup] at hblocked hescape ⊢
    by_cases hlong : 255 < c.length
    · rw [if_pos hlong] at hblocked
      exact absurd rfl hblocked
    rw [if_neg hlong] at hblocked hescape ⊢
    cases pos with
    | none =>
      have hroot : loc = [] := hat
      subst hroot
      have hnone := hexact.outside c (hescape c rfl)
      refine .inr ?_
      rw [Fs.walk, if_neg hself, if_neg hup, if_neg hlong, List.nil_append, hnone]
      exact if_neg (by simp)
    | some rel =>
      have hrel : loc = d ++ rel := hat
      subst hrel
      dsimp only at hblocked hescape ⊢
      split at hblocked
      · rename_i hdir
        rw [hdir] at hescape
        have hnode : fs.node (d ++ rel ++ [c]) = some .dir := by
          rw [List.append_assoc]
          exact (hexact.dir _).mp hdir
        rw [Fs.walk_dir hnode]
        exact ih (show _ = _ by rw [List.append_assoc]) hnode hblocked hescape
      · exact absurd rfl hblocked
      · rename_i hmissing
        refine .inr ?_
        rw [Fs.walk, if_neg hself, if_neg hup, if_neg hlong, List.append_assoc,
          (hexact.missing _).mp hmissing]
        exact if_neg (by simp)

theorem Exact.put {rel : Loc} {c : Text} {kind : Node Unit} {i : Inode (List UInt8)}
    (h : Exact tree fs d) (hd : d.length = 1) (hkind : kind = .dir ↔ i = .dir)
    (hlink : ∀ target, i ≠ .link target)
    (hput : ∀ p, fs'.node p = if p = d ++ (rel ++ [c]) then some i else fs.node p) :
    Exact (tree.put (rel ++ [c]) kind) fs' d := by
  refine ⟨fun rel' => ?_, fun rel' => ?_, fun p target => ?_, fun n hn => ?_⟩
  · by_cases hrel : rel' = rel ++ [c]
    · rw [FileTree.put, if_pos hrel, hput, if_pos (by rw [hrel]), Option.some.injEq,
        Option.some.injEq]
      exact hkind
    · rw [FileTree.put, if_neg hrel, hput, if_neg fun heq => hrel (List.append_cancel_left heq)]
      exact h.dir rel'
  · by_cases hrel : rel' = rel ++ [c]
    · rw [FileTree.put, if_pos hrel, hput, if_pos (by rw [hrel])]
      exact iff_of_false (Option.some_ne_none _) (Option.some_ne_none _)
    · rw [FileTree.put, if_neg hrel, hput, if_neg fun heq => hrel (List.append_cancel_left heq)]
      exact h.missing rel'
  · rw [hput]
    split
    · exact fun heq => hlink target (Option.some.inj heq)
    · exact h.link p target
  · rw [hput, if_neg fun heq => ?_]
    · exact h.outside n hn
    · have hlength := congrArg List.length heq
      simp [hd] at hlength

/-! ## Levels -/

theorem makeLevel_dir {path : Text} (hloc : st.fs.locate [] true path = .ok loc)
    (hdir : st.fs.node loc = some .dir) : makeLevel freeEnv false path st = (true, st.tick) := by
  rw [makeLevel, dirStatus, if_neg (by exact Bool.false_ne_true), hloc]
  dsimp only
  rw [hdir]

theorem mkdir_missing {path : Text} (hlocate : st.fs.locate [] false path = .ok loc)
    (hnone : st.fs.node loc = none) (hput : st.fs.putAt loc .dir = some fs) :
    mkdir freeEnv path st = (true, ⟨fs, st.time + 1⟩) := by
  rw [mkdir, if_neg (by exact Bool.false_ne_true), hlocate]
  dsimp only
  rw [if_pos hnone, hput]

theorem makeLevel_missing {A c : Text} (hA : st.fs.locate [] true (A ++ ['/']) = .ok loc)
    (hname : IsName c) (hlen : (A ++ '/' :: c).length < 4096)
    (hnone : st.fs.node (loc ++ [c]) = none) :
    ∃ st₁, makeLevel freeEnv false (A ++ '/' :: c) st = (true, st₁) ∧
    Made st.fs st₁.fs (loc ++ [c]) := by
  obtain ⟨hloc, links, hwalk⟩ := Fs.locate_dir st.fs.root hA
  have hcomponents := Fs.IsName.ne hname
  have hlocate (follow : Bool) : st.fs.locate [] follow (A ++ '/' :: c) = .ok (loc ++ [c]) := by
    rw [hwalk c hlen, List.splitOn_eq_singleton hname.2.1, Fs.walk, if_neg hcomponents.1,
      if_neg hcomponents.2.1, if_neg hcomponents.2.2, hnone]
    exact if_pos rfl
  have hstatus : dirStatus freeEnv (A ++ '/' :: c) st = (.DMISSING, st.tick) := by
    rw [dirStatus, if_neg (by exact Bool.false_ne_true), hlocate]
    dsimp only
    rw [hnone]
  obtain ⟨fs, hput⟩ := Option.isSome_iff_exists.mp
    (@Fs.isSome_putAt _ st.fs loc c .dir _ hloc hname
      (by rw [hnone]; exact Option.some_ne_none _ |>.symm))
  obtain ⟨-, -, -, -, -, -, hnode⟩ := Fs.putAt_eq_some hput
  refine ⟨⟨fs, st.time + 1 + 1⟩, ?_, hnone, hnode⟩
  rw [makeLevel, hstatus]
  dsimp only
  have hmkdir := @mkdir_missing fs (loc ++ [c]) st.tick (A ++ '/' :: c) (hlocate false) hnone hput
  rw [hmkdir]
  rfl

theorem makeLevel_enter {A c : Text} (hexact : Exact tree st.fs d) (hd : d.length = 1)
    (hA : st.fs.locate [] true (A ++ ['/']) = .ok loc) (hat : At d pos loc) (hc : '/' ∉ c)
    (hlen : (A ++ '/' :: c ++ ['/']).length < 4096) (hblocked : enter tree pos (c :: cs) ≠ .blocked)
    (hescape : ∀ x, enter tree pos (c :: cs) = .escaped x → [x] ≠ d) :
    ∃ st₁ loc₁, makeLevel freeEnv false (A ++ '/' :: c) st = (true, st₁) ∧
      st₁.fs.locate [] true (A ++ '/' :: c ++ ['/']) = .ok loc₁ ∧
      ((∃ x, enter tree pos (c :: cs) = .escaped x ∧ (st₁.fs.node [x]).isSome) ∨
        ∃ tree₁ pos₁, enter tree pos (c :: cs) = enter tree₁ pos₁ cs ∧ Exact tree₁ st₁.fs d ∧
        At d pos₁ loc₁) := by
  obtain ⟨hloc, links, hwalk⟩ := Fs.locate_dir st.fs.root hA
  have hpath :
      A ++ '/' :: c ++ ['/'] = A ++ '/' :: (c ++ ['/']) := by
      rw [List.append_assoc, List.cons_append]
  have hsplit : (c ++ ['/']).splitOn '/' = [c, []] := by
    rw [List.splitOn_append_cons_self, List.splitOn_eq_singleton hc, List.splitOn_nil]
    rfl
  have hshort : (A ++ '/' :: c).length < 4096 := by
    rw [List.length_append] at hlen
    omega
  have hthere {loc₁ : Loc} (hstep : ∀ xs, st.fs.walk true links loc (c :: xs) =
      st.fs.walk true links loc₁ xs)
      (hdir : st.fs.node loc₁ = some .dir) :
      makeLevel freeEnv false (A ++ '/' :: c) st = (true, st.tick) ∧
        st.tick.fs.locate [] true (A ++ '/' :: c ++ ['/']) = .ok loc₁ := by
    refine ⟨@makeLevel_dir loc₁ st _ ?_ hdir, ?_⟩
    · rw [hwalk c hshort, List.splitOn_eq_singleton hc, hstep, Fs.walk_nil]
    · show st.fs.locate [] true _ = _
      rw [hpath, hwalk _ (hpath ▸ hlen), hsplit, hstep, Fs.walk_skip (.inl rfl), Fs.walk_nil]
  have hmissing (hname : IsName c) (hnone : st.fs.node (loc ++ [c]) = none) :
      ∃ st₁, makeLevel freeEnv false (A ++ '/' :: c) st = (true, st₁) ∧
      Made st.fs st₁.fs (loc ++ [c]) ∧
        st₁.fs.locate [] true (A ++ '/' :: c ++ ['/']) = .ok (loc ++ [c]) := by
    obtain ⟨st₁, hlevel, hmade⟩ := makeLevel_missing hA hname hshort hnone
    obtain ⟨-, links', hwalk'⟩ :=
      Fs.locate_dir st₁.fs.root (Fs.locate_grows hmade.grows hA (by rw [hloc]; rfl))
    refine ⟨st₁, hlevel, hmade, ?_⟩
    rw [hpath, hwalk' _ (hpath ▸ hlen), hsplit, Fs.walk_dir (by rw [hmade.node, if_pos rfl]),
      Fs.walk_skip (.inl rfl), Fs.walk_nil]
  generalize hway : enter tree pos (c :: cs) = way at hblocked hescape ⊢
  unfold enter at hway
  by_cases hself : c = [] ∨ c = ['.']
  · rw [if_pos hself] at hway
    obtain ⟨hlevel, hlocate⟩ := hthere (fun xs => Fs.walk_skip hself) hloc
    exact ⟨st.tick, loc, hlevel, hlocate, .inr ⟨tree, pos, hway.symm, hexact, hat⟩⟩
  rw [if_neg hself] at hway
  by_cases hup : c = ['.', '.']
  · rw [if_pos hup] at hway
    obtain ⟨hlevel, hlocate⟩ :=
      @hthere loc.dropLast (fun xs => by rw [hup, Fs.walk_up]) (Fs.node_dropLast hloc)
    exact ⟨st.tick, loc.dropLast, hlevel, hlocate,
      .inr ⟨tree, up pos, hway.symm, hexact, hat.up hd⟩⟩
  rw [if_neg hup] at hway
  by_cases hlong : 255 < c.length
  · rw [if_pos hlong] at hway
    exact absurd hway.symm hblocked
  rw [if_neg hlong] at hway
  have hname : IsName c :=
    ⟨fun h => hself (.inl h), hc, fun h => hself (.inr h), hup, Nat.not_lt.mp hlong⟩
  cases pos with
  | none =>
    have hroot : loc = [] := hat
    subst hroot
    obtain ⟨st₁, hlevel, hmade, hlocate⟩ := hmissing hname (hexact.outside c (hescape c hway.symm))
    refine ⟨st₁, [c], hlevel, hlocate, .inl ⟨c, hway.symm, ?_⟩⟩
    rw [hmade.node, List.nil_append, if_pos rfl]
    rfl
  | some rel =>
    have hrel : loc = d ++ rel := hat
    subst hrel
    rw [List.append_assoc] at hmissing
    dsimp only at hway
    split at hway
    · rename_i hnode
      have hdir : st.fs.node (d ++ rel ++ [c]) = some .dir := by
        rw [List.append_assoc]
        exact (hexact.dir _).mp hnode
      obtain ⟨hlevel, hlocate⟩ := hthere (fun xs => Fs.walk_dir hdir) hdir
      exact ⟨st.tick, d ++ rel ++ [c], hlevel, hlocate,
        .inr ⟨tree, some (rel ++ [c]), hway.symm, hexact, List.append_assoc ..⟩⟩
    · exact absurd hway.symm hblocked
    · rename_i hnode
      obtain ⟨st₁, hlevel, hmade, hlocate⟩ := hmissing hname ((hexact.missing _).mp hnode)
      exact ⟨st₁, d ++ (rel ++ [c]), hlevel, hlocate, .inr ⟨_, some (rel ++ [c]), hway.symm,
        hexact.put hd (iff_of_true rfl rfl) (fun _ heq => by cases heq) hmade.node, rfl⟩⟩

/-! ## Runs -/

/-- A step does what a way says, where `path` leads to the end of the way. -/
def Follows (d : Loc) (way : Way) (path : Text) (r : Bool × State) : Prop :=
  match way with
  | .blocked => True
  | .escaped x => [x] ≠ d → (r.2.fs.node [x]).isSome
  | .made tree pos =>
    r.1 = true ∧ Exact tree r.2.fs d ∧ ∃ loc, r.2.fs.locate [] true path = .ok loc ∧ At d pos loc

/-- It is enough to follow a way that is not blocked, and does not escape to the destination
itself. -/
theorem Follows.of_open {way : Way} {path : Text} {r : Bool × State}
    (h : way ≠ .blocked → (∀ x, way = .escaped x → [x] ≠ d) → Follows d way path r) :
    Follows d way path r := by
  cases way with
  | blocked => trivial
  | escaped x => exact fun hx => h (fun heq => by cases heq) (fun y hy => by cases hy; exact hx) hx
  | made tree pos => exact h (fun heq => by cases heq) (fun y hy => by cases hy)

theorem makeLevels_enter {A : Text} (hd : d.length = 1) (hcs : ∀ c ∈ cs, '/' ∉ c)
    (hlen : (A ++ '/' :: dirText cs).length < 4096) (hexact : Exact tree st.fs d)
    (hA : st.fs.locate [] true (A ++ ['/']) = .ok loc) (hat : At d pos loc) :
    Follows d (enter tree pos cs) (A ++ '/' :: dirText cs)
      (makeLevels freeEnv false (A ++ '/' :: dirText cs) A.length st) := by
  induction cs generalizing A st tree pos loc with
  | nil =>
    rw [dirText, List.flatMap_nil, makeLevels_nil]
    exact ⟨rfl, hexact, loc, hA, hat⟩
  | cons c cs ih =>
    have hc := hcs c List.mem_cons_self
    have hcs' : ∀ c' ∈ cs, '/' ∉ c' := fun c' hc' => hcs c' (List.mem_cons_of_mem _ hc')
    have hpath : A ++ '/' :: (c ++ '/' :: dirText cs) = A ++ '/' :: c ++ '/' :: dirText cs := by
      rw [List.append_assoc, List.cons_append]
    rw [dirText_cons] at hlen ⊢
    refine .of_open fun hblocked hescape => ?_
    have hlevelLen : (A ++ '/' :: c ++ ['/']).length < 4096 := by
      rw [hpath, List.length_append, List.length_cons] at hlen
      rw [List.length_append, List.length_singleton]
      omega
    obtain ⟨st₁, loc₁, hlevel, hloc₁, hway⟩ :=
      makeLevel_enter hexact hd hA hat hc hlevelLen hblocked hescape
    rw [makeLevels_cons hc, hlevel, andThen, hpath]
    rcases hway with ⟨x, hway, hsome⟩ | ⟨tree₁, pos₁, hway, hexact₁, hat₁⟩
    · rw [hway]
      intro _
      exact (@makeLevels_spec freeEnv false _ st₁ _ _ _ _
        (fun fs => (fs.node [x]).isSome) cs hcs' rfl (hpath ▸ hlen)
        (fun _ _ _ _ _ _ _ _ h _ _ hmade _ => hmade.grows.isSome h) hloc₁ hsome rfl).1
    · rw [hway]
      exact ih hcs' (hpath ▸ hlen) hexact₁ hloc₁ hat₁

theorem enter_dirText (hcs : ∀ c ∈ cs, '/' ∉ c) :
    enter tree pos ((dirText cs).splitOn '/') = enter tree pos cs := by
  rw [splitOn_dirText_nil hcs, enter_append]
  cases enter tree pos cs <;> rfl

theorem locate_dest {e : Text} (he : IsName e) (hdir : fs.node [e] = some .dir) :
    fs.locate [] true ('/' :: e) = .ok [e] ∧ fs.locate [] true ('/' :: e ++ ['/']) = .ok [e] := by
  have hlen := he.2.2.2.2
  obtain ⟨-, links, hroot⟩ := @Fs.locate_dir _ fs [] [] [] fs.root locate_root
  have hlocate := hroot e (by rw [List.nil_append, List.length_cons]; omega) true
  rw [List.splitOn_eq_singleton he.2.1, Fs.walk_dir hdir, Fs.walk_nil, List.nil_append] at hlocate
  obtain ⟨links', hrest⟩ := Fs.locate_append hlocate hdir
  refine ⟨hlocate, ?_⟩
  rw [hrest [] (by rw [List.length_append, List.length_cons, List.length_singleton]; omega) true,
    List.splitOn_nil, Fs.walk_skip (.inl rfl), Fs.walk_nil]
  rfl

theorem mkdirRecursively_enter {e n : Text} (he : IsName e) (hcs : ∀ c ∈ cs, '/' ∉ c) (hn : '/' ∉ n)
    (hlen : ('/' :: e ++ '/' :: dirText cs).length < 4096) (hexact : Exact tree st.fs [e])
    (hdir : st.fs.node [e] = some .dir) :
    Follows [e] (enter tree (some []) cs) ('/' :: e ++ '/' :: dirText cs)
      (mkdirRecursively freeEnv false ('/' :: e ++ '/' :: dirText cs ++ n) true st) := by
  refine .of_open fun hblocked hescape => ?_
  have hpath :
      '/' :: e ++ '/' :: dirText cs = '/' :: dirText (e :: cs) := by
      rw [dirText_cons, List.cons_append]
  obtain ⟨hdest, hlocate⟩ := locate_dest he hdir
  obtain ⟨links', hrest⟩ := Fs.locate_append hdest hdir
  have hwalk :=
    @walk_of_enter st.fs [e] [e] tree (some []) cs links' hexact rfl rfl hdir hblocked hescape
  rw [← splitOn_dirText_nil hcs, ← hrest _ hlen] at hwalk
  rw [hpath, mkdirRecursively_eq hn, ← hpath]
  rcases hwalk with ⟨loc, pos, hloc, hnode, hway, hat⟩ | hmissing
  · have hstatus : dirStatus freeEnv ('/' :: e ++ '/' :: dirText cs) st = (.DDIR, st.tick) := by
      rw [dirStatus, if_neg (by exact Bool.false_ne_true), hloc]
      dsimp only
      rw [hnode]
    rw [hstatus, hway]
    exact ⟨rfl, hexact, loc, hloc, hat⟩
  · have hstatus : dirStatus freeEnv ('/' :: e ++ '/' :: dirText cs) st = (.DMISSING, st.tick) := by
      rw [dirStatus, if_neg (by exact Bool.false_ne_true), hmissing]
    have hfirst : makeLevels freeEnv false ('/' :: e ++ '/' :: dirText cs) 0 st.tick =
        makeLevels freeEnv false ('/' :: e ++ '/' :: dirText cs) ('/' :: e).length
        st.tick.tick := by
      have hlevel := @makeLevels_cons freeEnv false st.tick [] e (dirText cs) he.2.1
      rwa [List.nil_append, List.nil_append,
        makeLevel_dir (show st.tick.fs.locate [] true _ = _ from hdest) hdir] at hlevel
    rw [hstatus]
    dsimp only
    rw [hfirst]
    exact @makeLevels_enter [e] _ tree (some []) cs st.tick.tick ('/' :: e) rfl hcs hlen hexact
      hlocate rfl

/-! ## Entries -/

/-- Directories stay, and nothing is removed. -/
structure Keeps (fs fs' : Fs (List UInt8)) : Prop where
  dir : ∀ {p}, fs.node p = some .dir → fs'.node p = some .dir
  isSome : ∀ {p}, (fs.node p).isSome → (fs'.node p).isSome

theorem Keeps.refl (fs : Fs (List UInt8)) : Keeps fs fs := ⟨id, id⟩

theorem Keeps.trans {fs'' : Fs (List UInt8)} (h : Keeps fs fs') (h' : Keeps fs' fs'') :
    Keeps fs fs'' :=
  ⟨fun hp => h'.dir (h.dir hp), fun hp => h'.isSome (h.isSome hp)⟩

theorem Keeps.of_grows (h : fs.Grows fs') : Keeps fs fs' := ⟨h.dir, h.isSome⟩

theorem writeEntry_keeps {path : Text} {entry : ZipEntry}
    (h : writeEntry freeEnv false path entry st = (ok, st')) : Keeps st.fs st'.fs := by
  rcases writeEntry_spec h with ⟨hfs, -⟩ | ⟨loc, content, -, hnotDir, hst', -⟩
  · rw [hfs]
    exact .refl _
  · refine ⟨fun {p} hp => ?_, fun {p} hp => ?_⟩
    · rw [hst', if_neg (by rintro rfl; exact hnotDir hp), hp]
    · rw [hst']
      split
      · rfl
      · exact hp

theorem extractEntry_keeps {destPath : Text} {entry : ZipEntry}
    (habsolute : destPath.head? = some '/')
    (h : extractEntry freeEnv false (targetDir destPath ++ rest) entry st = (ok, st')) :
    Keeps st.fs st'.fs := by
  obtain ⟨B, -, hend, hpath⟩ := path_eq habsolute rest
  have hmkdir {ok₁ : Bool} {st₁ : State}
      (h : mkdirRecursively freeEnv false (targetDir destPath ++ rest) true st = (ok₁, st₁)) :
      Keeps st.fs st₁.fs := by
    rw [hpath] at h
    exact (@mkdirRecursively_spec freeEnv false ok₁ st st₁ (Keeps st.fs) B _ hend
      (slash_notMem_filePart rest) (fun _ _ _ _ _ _ _ _ _ hI _ _ hmade _ =>
        hI.trans (.of_grows hmade.grows)) (.refl _) h).1
  rw [extractEntry_eq] at h
  rcases andThen_eq h with ⟨hdirs, -⟩ | ⟨st₁, hdirs, hnext⟩
  · exact hmkdir hdirs
  · exact (hmkdir hdirs).trans (writeEntry_keeps hnext)

theorem extractEntries_keeps {destPath pre : Text} (habsolute : destPath.head? = some '/') :
    Keeps st.fs (extractEntries freeEnv false (targetDir destPath) pre entries st).2.fs := by
  induction entries generalizing st with
  | nil => exact .refl _
  | cons entry entries ih =>
    rw [extractEntries]
    split
    · exact .refl _
    · dsimp only
      split
      · exact ih
      · split
        · rename_i st₁ hentry
          exact extractEntry_keeps habsolute hentry
        · rename_i st₁ hentry
          exact (extractEntry_keeps habsolute hentry).trans ih

theorem openFile_eq {path : Text} (hlocate : st.fs.locate [] true path = .ok loc)
    (hput : st.fs.putAt loc (.file []) = some fs) :
    openFile freeEnv path st = (some loc, ⟨fs, st.time + 1⟩) := by
  rw [openFile, if_neg (by exact Bool.false_ne_true), hlocate]
  dsimp only
  rw [hput]

theorem writeEntry_eq {path n : Text} {dirs : Loc} {entry : ZipEntry}
    (hdirs : st.fs.node dirs = some .dir) (hn : IsName n)
    (hlocate : st.fs.locate [] true path = .ok (dirs ++ [n]))
    (hnotDir : st.fs.node (dirs ++ [n]) ≠ some .dir) :
    ∃ st', writeEntry freeEnv false path entry st = (true, st') ∧
      ∀ p, st'.fs.node p = if p = dirs ++ [n] then some (.file entry.content)
      else st.fs.node p := by
  obtain ⟨fs, hput⟩ :=
    Option.isSome_iff_exists.mp (@Fs.isSome_putAt _ st.fs dirs n (.file []) _ hdirs hn hnotDir)
  obtain ⟨-, -, -, -, -, -, hfs⟩ := Fs.putAt_eq_some hput
  have hfile : fs.node (dirs ++ [n]) = some (.file []) := by rw [hfs, if_pos rfl]
  have hwrite := @write_spec (dirs ++ [n]) ⟨fs, st.time + 1⟩ _ hfile entry.content
  refine ⟨(write (dirs ++ [n]) entry.content ⟨fs, st.time + 1⟩).tick, ?_, fun p => ?_⟩
  · rw [writeEntry, openFile_eq hlocate hput]
    rfl
  · show (write (dirs ++ [n]) entry.content ⟨fs, st.time + 1⟩).fs.node p = _
    rw [hwrite, hfs]
    split <;> rfl

theorem writeEntry_place {D : Text} {entry : ZipEntry} (hd : d.length = 1)
    (hD : ∃ x, D = x ++ ['/']) (hlen : (D ++ filePart rest).length = 3 + rest.length)
    (hexact : Exact tree st.fs d) (hlocate : st.fs.locate [] true D = .ok loc)
    (hat : At d pos loc) :
    Follows d (placeFile rest tree pos) D
    (writeEntry freeEnv false (D ++ filePart rest) entry st) := by
  unfold placeFile
  split
  · trivial
  rename_i hopen
  rw [not_or, not_not, Nat.not_le] at hopen
  obtain ⟨hname, hshort⟩ := hopen
  obtain ⟨x, rfl⟩ := hD
  obtain ⟨hdirs, links, hwalk⟩ := Fs.locate_dir st.fs.root hlocate
  have hpath :
      x ++ ['/'] ++ filePart rest = x ++ '/' :: filePart rest := by
      rw [List.append_assoc, List.singleton_append]
  rw [hpath] at hlen ⊢
  have hfile :
      st.fs.locate [] true (x ++ '/' :: filePart rest) =
      st.fs.walk true links loc [filePart rest] := by
    rw [hwalk _ (hlen ▸ hshort), List.splitOn_eq_singleton hname.2.1]
  have hcomponents := Fs.IsName.ne hname
  rw [Fs.walk, if_neg hcomponents.1, if_neg hcomponents.2.1, if_neg hcomponents.2.2] at hfile
  cases pos with
  | none =>
    have hroot : loc = [] := hat
    subst hroot
    intro hne
    have hnone := hexact.outside _ hne
    rw [List.nil_append, hnone, if_pos rfl] at hfile
    obtain ⟨st', hwrite, hst'⟩ :=
      @writeEntry_eq st _ _ [] entry hdirs hname hfile (by rw [List.nil_append, hnone]; simp)
    rw [hwrite, hst', List.nil_append, if_pos rfl]
    rfl
  | some rel =>
    have hrel : loc = d ++ rel := hat
    subst hrel
    dsimp only
    split
    · trivial
    rename_i hnotDir
    have hnotDir' : st.fs.node (d ++ rel ++ [filePart rest]) ≠ some .dir := by
      rw [List.append_assoc]
      exact fun hdir => hnotDir ((hexact.dir _).mpr hdir)
    have hold :
        st.fs.locate [] true (x ++ '/' :: filePart rest) = .ok (d ++ rel ++ [filePart rest]) ∧
        (st.fs.node (d ++ rel ++ [filePart rest]) = none ∨
          ∃ content, st.fs.node (d ++ rel ++ [filePart rest]) = some (.file content)) := by
      cases hnode : st.fs.node (d ++ rel ++ [filePart rest]) with
      | none =>
        rw [hnode, if_pos rfl] at hfile
        exact ⟨hfile, .inl rfl⟩
      | some i =>
        rw [hnode] at hfile
        cases i with
        | dir => exact absurd hnode hnotDir'
        | link target => exact absurd hnode (hexact.link _ target)
        | file content => exact ⟨by rw [hfile, if_pos rfl], .inr ⟨content, rfl⟩⟩
    obtain ⟨st', hwrite, hst'⟩ := writeEntry_eq hdirs hname hold.1 hnotDir'
    have hgrows : st.fs.Grows st'.fs := .of_put hst' (fun _ heq => by cases heq)
      (hold.2.imp_right fun hcontent => ⟨hcontent, entry.content, rfl⟩)
    rw [hwrite]
    rw [List.append_assoc] at hst'
    exact ⟨rfl, hexact.put hd ⟨fun heq => (by cases heq), fun heq => by cases heq⟩
      (fun _ heq => by cases heq) hst', d ++ rel,
      Fs.locate_grows hgrows hlocate (by rw [hdirs]; rfl), rfl⟩

theorem extractEntry_place {e : Text} {entry : ZipEntry} (he : IsName e) (he1 : e.length = 1)
    (hexact : Exact tree st.fs [e]) (hdir : st.fs.node [e] = some .dir) :
    Follows [e] (place tree rest) ('/' :: e ++ '/' :: dirPart rest)
      (extractEntry freeEnv false ('/' :: e ++ '/' :: rest) entry st) := by
  obtain ⟨cs, hcs, hfree⟩ := exists_dirText (dirPart_or rest)
  have hpath : '/' :: e ++ '/' :: dirPart rest ++ filePart rest = '/' :: e ++ '/' :: rest := by
    simp [dirPart_append_filePart]
  unfold place
  split
  · trivial
  rename_i hlen
  have hmkdir := @mkdirRecursively_enter tree cs st e _ he hfree (slash_notMem_filePart rest) (by
    rw [List.length_append, List.length_cons, List.length_cons, he1, ← hcs]
    omega) hexact hdir
  rw [← hcs, hpath] at hmkdir
  rw [extractEntry_eq]
  have henter := @enter_dirText tree (some []) cs hfree
  rw [← hcs] at henter
  rw [henter]
  generalize enter tree (some []) cs = way at hmkdir
  generalize mkdirRecursively freeEnv false ('/' :: e ++ '/' :: rest) true st = r at hmkdir
  obtain ⟨ok, st₁⟩ := r
  cases way with
  | blocked => trivial
  | escaped x =>
    intro hne
    have hsome := hmkdir hne
    cases ok with
    | false => exact hsome
    | true => exact (writeEntry_keeps rfl).isSome hsome
  | made tree' pos' =>
    obtain ⟨rfl, hexact₁, loc, hlocate, hat⟩ := hmkdir
    rw [← hpath]
    refine writeEntry_place rfl ?_ ?_ hexact₁ hlocate hat
    · rcases dirPart_or rest with hnil | ⟨a, ha⟩
      · exact ⟨'/' :: e, by rw [hnil]⟩
      · exact ⟨'/' :: e ++ '/' :: a, by simp [ha]⟩
    · rw [hpath, List.length_append, List.length_cons, List.length_cons, he1]
      omega

theorem targetDir_name {e : Text} (he : IsName e) (he1 : e.length = 1) :
    targetDir ('/' :: e) = '/' :: e ++ ['/'] := by
  rw [targetDir, if_neg]
  intro hlast
  obtain ⟨c, rfl⟩ := List.length_eq_one_iff.mp he1
  rw [show ('/' :: [c]).getLast? = some c from rfl] at hlast
  exact he.2.1 (by rw [Option.some.inj hlast]; exact List.mem_singleton_self _)

theorem extractEntries_escape {e pre : Text} (he : IsName e) (he1 : e.length = 1)
    (hexact : Exact tree st.fs [e]) (hdir : st.fs.node [e] = some .dir)
    (hescape : firstEscape pre tree entries = some x) (hx : [x] ≠ [e]) :
    ((extractEntries freeEnv false (targetDir ('/' :: e)) pre entries st).2.fs.node
      [x]).isSome := by
  have htarget := targetDir_name he he1
  induction entries generalizing st tree with
  | nil => cases hescape
  | cons entry entries ih =>
    rw [firstEscape] at hescape
    rw [extractEntries]
    split at hescape
    · cases hescape
    rename_i hlen
    rw [if_neg hlen]
    dsimp only at hescape ⊢
    generalize hrest : entry.name.drop pre.length = rest at hescape ⊢
    split at hescape
    · rename_i hskip
      rw [if_pos ((getLast?_path _ _).mpr hskip)]
      exact ih hexact hdir hescape
    rename_i hskip
    rw [if_neg fun hlast => hskip ((getLast?_path _ _).mp hlast)]
    have hplace := @extractEntry_place rest tree st e entry he he1 hexact hdir
    have hpath : targetDir ('/' :: e) ++ rest = '/' :: e ++ '/' :: rest := by
      rw [htarget, List.append_assoc, List.singleton_append]
    rw [← hpath] at hplace
    generalize hentry : extractEntry freeEnv false (targetDir ('/' :: e) ++ rest) entry st =
      r at hplace ⊢
    obtain ⟨ok, st₁⟩ := r
    split at hescape
    · cases hescape
    · rename_i name hway
      cases hescape
      rw [hway] at hplace
      have hsome := hplace hx
      cases ok with
      | false => exact hsome
      | true => exact (extractEntries_keeps rfl).isSome hsome
    · rename_i tree' pos' hway
      rw [hway] at hplace
      obtain ⟨rfl, hexact₁, -⟩ := hplace
      exact ih hexact₁ ((extractEntry_keeps rfl hentry).dir hdir) hescape

/-- A file system with one directory, in its root. -/
def destFs (e : Text) (he : IsName e) : Fs (List UInt8) where
  node := fun p => if p = [] ∨ p = [e] then some .dir else none
  root := rfl
  parent := by
    intro d n h
    have hloc : d ++ [n] = [] ∨ d ++ [n] = [e] := by
      by_contra hne
      rw [if_neg hne] at h
      cases h
    have hd : d = [] :=
      (List.append_eq_singleton_iff.mp (hloc.resolve_left (by simp))).elim And.left fun h => by
        simp at h
    exact if_pos (.inl hd)
  isName := by
    intro d n h
    have hloc : d ++ [n] = [] ∨ d ++ [n] = [e] := by
      by_contra hne
      rw [if_neg hne] at h
      cases h
    rcases List.append_eq_singleton_iff.mp (hloc.resolve_left (by simp)) with ⟨-, hn⟩ | ⟨-, hn⟩
    · rwa [List.singleton_inj.mp hn]
    · cases hn

theorem node_destFs {e : Text} (he : IsName e) (p : Loc) :
    (destFs e he).node p = if p = [] ∨ p = [e] then some .dir else none := rfl

theorem exact_destFs {e : Text} (he : IsName e) : Exact emptyTree (destFs e he) [e] := by
  have hnode (rel : Loc) : (destFs e he).node ([e] ++ rel) = if rel = [] then some .dir
      else none := by
    rw [node_destFs]
    refine if_congr ?_ rfl rfl
    simp
  refine ⟨fun rel => ?_, fun rel => ?_, fun loc target => ?_, fun n hn => ?_⟩
  · rw [hnode, emptyTree, FileTree.put, FileTree.empty]
    split <;> simp
  · rw [hnode, emptyTree, FileTree.put, FileTree.empty]
    split <;> simp
  · rw [node_destFs]
    split <;> simp
  · rw [node_destFs, if_neg]
    exact fun h => h.elim (fun hnil => by cases hnil) hn

theorem locate_prefix {e q : Text} (he : IsName e) (he1 : e.length = 1)
    (hdir : fs.node [e] = some .dir) (hq : q <+: '/' :: e) (h : fs.locate [] true q = .ok loc) :
    loc = [] ∨ loc = [e] := by
  obtain ⟨c, rfl⟩ := List.length_eq_one_iff.mp he1
  rcases List.prefix_cons_iff.mp hq with rfl | ⟨t, rfl, ht⟩
  · cases h
  rcases List.prefix_cons_iff.mp ht with rfl | ⟨t', rfl, ht'⟩
  · exact .inl (Except.ok.inj (h.symm.trans locate_root))
  · rw [List.prefix_nil.mp ht'] at h
    exact .inr (Except.ok.inj (h.symm.trans (locate_dest he hdir).1))

theorem exists_dest (x : Text) : ∃ e : Text, IsName e ∧ e.length = 1 ∧ '\x00' ∉ e ∧ [x] ≠ [e] := by
  by_cases hx : x = ['d']
  · refine ⟨['e'], by decide, rfl, by decide, ?_⟩
    rw [hx]
    decide
  · exact ⟨['d'], by decide, rfl, by decide, fun heq => hx (List.singleton_inj.mp heq)⟩

theorem stays_of_right {zipPath : Text} (h : Right zip zipPath) : Stays zip zipPath := by
  by_contra hnot
  rw [Stays, not_or] at hnot
  obtain ⟨hrelative, hescape⟩ := hnot
  obtain ⟨x, hescape⟩ := Option.ne_none_iff_exists'.mp hescape
  obtain ⟨e, he, he1, hnul, hx⟩ := exists_dest x
  have hfree : LinkFree (destFs e he) ('/' :: e) :=
    fun _ _ _ _ loc target _ => (exact_destFs he).link loc target
  have hnul' : '\x00' ∉ '/' :: e := by simpa using hnul
  obtain ⟨-, hcontained⟩ := h freeEnv false ('/' :: e) (destFs e he) hnul' hfree
  have hrun : extractPackageRecursive freeEnv false zip zipPath ('/' :: e) ⟨destFs e he, 0⟩ =
      extractEntries freeEnv false (targetDir ('/' :: e)) (prefixPath zipPath)
      (iteration zip zipPath) ⟨destFs e he, 1⟩ := by
    rw [extractPackageRecursive, if_neg hrelative, if_neg (by simp),
      if_neg (by exact Bool.false_ne_true)]
    rfl
  have hdir₀ : (destFs e he).node [e] = some .dir := if_pos (.inr rfl)
  have hsome :=
    @extractEntries_escape _ x emptyTree ⟨destFs e he, 1⟩ e _ he he1 (exact_destFs he)
      hdir₀ hescape hx
  have hkeeps :=
    @extractEntries_keeps (iteration zip zipPath) ⟨destFs e he, 1⟩ ('/' :: e)
      (prefixPath zipPath) rfl
  have hdir := hkeeps.dir hdir₀
  rw [hrun] at hcontained
  generalize (extractEntries freeEnv false (targetDir ('/' :: e)) (prefixPath zipPath)
    (iteration zip zipPath) ⟨destFs e he, 1⟩).2.fs = fs at hcontained hsome hdir
  have hne : fs.node [x] ≠ (destFs e he).node [x] := by
    rw [node_destFs, if_neg (not_or.mpr ⟨by simp, hx⟩)]
    exact Option.isSome_iff_ne_none.mp hsome
  rcases hcontained [x] hne with ⟨d, hd, hle⟩ | ⟨-, -, q, hq, hlocate⟩
  · rw [targetDir_name he he1, (locate_dest he hdir).2] at hd
    cases hd
    exact hx (hle.eq_of_length rfl).symm
  · rcases locate_prefix he he1 hdir hq hlocate with hnil | heq
    · cases hnil
    · exact hx heq

theorem extractPackageRecursive_right_iff (zip : List ZipEntry) (zipPath : Text) :
    Right zip zipPath ↔ Stays zip zipPath :=
  ⟨stays_of_right, right_of_stays⟩

/-- An entry with a `..` in front of its name. -/
theorem not_extractPackageRecursive_right : ¬∀ zip zipPath, Right zip zipPath := by
  intro h
  have hstays := stays_of_right (h [⟨['.', '.', '/', 'x'], [1], by decide⟩] [])
  exact absurd hstays (by unfold Stays; decide)

end

end BootableRecovery.ExtractPackage
