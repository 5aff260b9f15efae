import BootableRecovery.OtaUtil.ExtractPackage

/-!
# Names that stay in the destination

If no name leads out, every run of `ExtractPackageRecursive` keeps to the destination, and a run
that returns true leaves every file that was asked for (`right_of_stays`).
-/

namespace BootableRecovery.ExtractPackage

/-! ## Containment -/

section
variable {zip entries : List ZipEntry} {fs₀ fs fs' : Fs (List UInt8)} {destPath rest : Text}
    {loc d : Loc}
variable {tree tree' : FileTree Text Unit} {pos pos' : Option Loc} {cs : List Text}

/-- The tree is below a place in the file system. -/
def Below (tree : FileTree Text Unit) (fs : Fs (List UInt8)) (d : Loc) : Prop :=
  ∀ rel, (tree rel = some .dir → fs.node (d ++ rel) = some .dir) ∧
    ∀ u, tree rel = some (.file u) → ∃ content, fs.node (d ++ rel) = some (.file content)

/-- The tree is below the destination, as soon as there is one. -/
def Holds (tree : FileTree Text Unit) (fs : Fs (List UInt8)) (destPath : Text) : Prop :=
  ∀ fs' d, fs.Grows fs' → fs'.locate [] true (targetDir destPath) = .ok d → Below tree fs' d

theorem Below.grows (h : Below tree fs d) (hgrows : fs.Grows fs') : Below tree fs' d := by
  refine fun rel => ⟨fun hdir => hgrows.dir ((h rel).1 hdir), fun u hfile => ?_⟩
  obtain ⟨content, hcontent⟩ := (h rel).2 u hfile
  exact (hgrows.le _).2.2 content hcontent

theorem Holds.grows (h : Holds tree fs destPath) (hgrows : fs.Grows fs') :
    Holds tree fs' destPath :=
  fun _ _ hgrows' => h _ _ (hgrows.trans hgrows')

theorem Below.holds (h : Below tree fs d) (hd : fs.locate [] true (targetDir destPath) = .ok d) :
    Holds tree fs destPath := by
  intro fs' d' hgrows hd'
  obtain ⟨t, ht⟩ := targetDir_eq destPath
  have hdir := (Fs.locate_dir fs.root (ht ▸ hd)).1
  cases Except.ok.inj ((Fs.locate_grows hgrows hd (by rw [hdir]; rfl)).symm.trans hd')
  exact h.grows hgrows

theorem holds_emptyTree : Holds emptyTree fs destPath := by
  intro fs' d hgrows hd rel
  obtain ⟨t, ht⟩ := targetDir_eq destPath
  have hdir := (Fs.locate_dir fs'.root (ht ▸ hd)).1
  unfold emptyTree FileTree.put FileTree.empty
  refine ⟨fun h => ?_, fun u h => ?_⟩
  · split at h
    · rename_i hrel
      rwa [hrel, List.append_nil]
    · cases h
  · split at h <;> cases h

theorem Below.put_dir {rel : Loc} (h : Below tree fs d) (hnode : fs.node (d ++ rel) = some .dir) :
    Below (tree.put rel .dir) fs d := by
  intro rel'
  unfold FileTree.put
  refine ⟨fun hdir => ?_, fun u hfile => ?_⟩
  · split at hdir
    · rename_i heq
      rwa [heq]
    · exact (h rel').1 hdir
  · split at hfile
    · cases hfile
    · exact (h rel').2 u hfile

theorem Below.put_file {rel : Loc} {content : List UInt8} (h : Below tree fs d)
    (hnode : fs.node (d ++ rel) = some (.file content)) : Below (tree.put rel (.file ())) fs d := by
  intro rel'
  unfold FileTree.put
  refine ⟨fun hdir => ?_, fun u hfile => ?_⟩
  · split at hdir
    · cases hdir
    · exact (h rel').1 hdir
  · split at hfile
    · rename_i heq
      exact ⟨content, by rwa [heq]⟩
    · exact (h rel').2 u hfile

theorem enter_end : enter tree pos [[]] = .made tree pos := rfl

theorem enter_append (cs cs' : List Text) (tree : FileTree Text Unit) (pos : Option Loc) :
    enter tree pos (cs ++ cs') = (enter tree pos cs).bind fun tree pos => enter tree pos cs' := by
  fun_induction enter tree pos cs <;> simp_all [enter, Way.bind]

theorem enter_of_walk {links : Nat}
    (hfree : ∀ loc target, d <+: loc → fs.node loc ≠ some (.link target)) (hbelow : Below tree fs d)
    (hpos : ∀ rel, pos = some rel → loc = d ++ rel) (hloc : fs.node loc = some .dir)
    (hstay : ∀ name, enter tree pos cs ≠ .escaped name) {loc' : Loc}
    (h : fs.walk true links loc (cs ++ [[]]) = .ok loc') :
    ∃ tree' pos', enter tree pos cs = .made tree' pos' ∧ Below tree' fs d ∧ ∀ rel, pos' = some rel →
    loc' = d ++ rel := by
  induction cs generalizing tree pos loc links with
  | nil =>
    rw [List.nil_append, Fs.walk_skip (.inl rfl), Fs.walk_nil] at h
    cases h
    exact ⟨tree, pos, rfl, hbelow, hpos⟩
  | cons c cs ih =>
    rw [List.cons_append] at h
    unfold enter at hstay ⊢
    by_cases hself : c = [] ∨ c = ['.']
    · rw [Fs.walk_skip hself] at h
      rw [if_pos hself] at hstay ⊢
      exact ih hbelow hpos hloc hstay h
    rw [if_neg hself] at hstay ⊢
    by_cases hup : c = ['.', '.']
    · rw [hup, Fs.walk_up] at h
      rw [if_pos hup] at hstay ⊢
      refine ih hbelow (fun rel' hrel' => ?_) (Fs.node_dropLast hloc) hstay h
      obtain ⟨rel, hrel, heq⟩ := Option.bind_eq_some_iff.mp hrel'
      split at heq
      · cases heq
      · rename_i hne
        cases heq
        rw [hpos rel hrel, List.dropLast_append_of_ne_nil hne]
    rw [if_neg hup] at hstay ⊢
    by_cases hlong : 255 < c.length
    · rw [Fs.walk, if_neg hself, if_neg hup, if_pos hlong] at h
      cases h
    rw [if_neg hlong] at hstay ⊢
    cases pos with
    | none => exact absurd rfl (hstay c)
    | some rel =>
      have hloc' := hpos rel rfl
      subst hloc'
      dsimp only at hstay ⊢
      rw [Fs.walk, if_neg hself, if_neg hup, if_neg hlong, List.append_assoc] at h
      split at h
      · rename_i hnode
        have hrel (rel' : Loc) (heq : some (rel ++ [c]) = some rel') :
            d ++ (rel ++ [c]) = d ++ rel' := by
          rw [Option.some.inj heq]
        split at hstay
        · exact ih hbelow hrel hnode hstay h
        · rename_i u hfile
          obtain ⟨content, hcontent⟩ := (hbelow _).2 u hfile
          rw [hnode] at hcontent
          cases hcontent
        · exact ih (hbelow.put_dir hnode) hrel hnode hstay h
      · rw [if_neg (by simp)] at h
        cases h
      · rename_i target hlink
        exact absurd hlink (hfree _ target (List.prefix_append ..))
      · rw [if_neg (by simp)] at h
        cases h

theorem Contained.refl (fs : Fs (List UInt8)) (destPath : Text) : Contained fs fs destPath :=
  fun _ h => absurd rfl h

theorem Contained.change (h : Contained fs₀ fs destPath) (hgrows : fs.Grows fs')
    (hother : ∀ p, p ≠ loc → fs'.node p = fs.node p)
    (hloc : (∃ d, fs'.locate [] true (targetDir destPath) = .ok d ∧ d <+: loc) ∨
      fs₀.node loc = none ∧ fs'.node loc = some .dir ∧ ∃ q, q <+: destPath ∧
      fs'.locate [] true q = .ok loc) : Contained fs₀ fs' destPath := by
  intro p hp
  by_cases hploc : p = loc
  · rw [hploc]
    exact hloc
  · rw [hother p hploc] at hp ⊢
    rcases h p hp with ⟨d, hd, hprefix⟩ | ⟨hnone, hdir, q, hq, hlocate⟩
    · obtain ⟨t, ht⟩ := targetDir_eq destPath
      have hdir := (Fs.locate_dir fs.root (ht ▸ hd)).1
      exact .inl ⟨d, Fs.locate_grows hgrows hd (by rw [hdir]; rfl), hprefix⟩
    · exact .inr ⟨hnone, hdir, q, hq, Fs.locate_grows hgrows hlocate (by rw [hdir]; rfl)⟩

/-- The destination is the root, or the way of an entry is known and does not lead out of it. -/
def Planned (tree : FileTree Text Unit) (rest : Text) (fs : Fs (List UInt8)) (destPath : Text) :
    Prop :=
  fs.locate [] true (targetDir destPath) = .ok [] ∨
    Holds tree fs destPath ∧ ∀ name, place tree rest ≠ .escaped name

theorem Planned.grows (h : Planned tree rest fs destPath) (hgrows : fs.Grows fs') :
    Planned tree rest fs' destPath :=
  h.imp (fun hroot => Fs.locate_grows hgrows hroot (by rw [fs.root]; rfl)) fun hholds =>
  ⟨hholds.1.grows hgrows, hholds.2⟩

/-- What holds while the directories of an entry are made. -/
structure Inv (fs₀ fs₁ : Fs (List UInt8)) (destPath rest : Text) (tree : FileTree Text Unit)
    (fs : Fs (List UInt8)) : Prop where
  start : fs₀.Grows fs
  contained : Contained fs₀ fs destPath
  planned : Planned tree rest fs destPath
  grows : fs₁.Grows fs
  keeps : ∀ p, (fs₁.node p).isSome → fs.node p = fs₁.node p

theorem head_targetDir (habsolute : destPath.head? = some '/') :
    ∃ B, targetDir destPath = '/' :: B := by
  cases destPath with
  | nil => cases habsolute
  | cons c s =>
    cases habsolute
    unfold targetDir
    split
    · exact ⟨s, rfl⟩
    · exact ⟨s ++ ['/'], rfl⟩

/-- A destination other than the root has a path of three bytes at least. -/
theorem three_le_length {d : Loc} (habsolute : destPath.head? = some '/')
    (hd : fs.locate [] true (targetDir destPath) = .ok d) (hne : d ≠ []) :
    3 ≤ (targetDir destPath).length := by
  obtain ⟨B, hB⟩ := head_targetDir habsolute
  obtain ⟨t, ht⟩ := targetDir_eq destPath
  by_contra hshort
  have hroot : targetDir destPath = ['/'] ∨ targetDir destPath = ['/', '/'] := by
    rw [hB] at ht hshort ⊢
    cases t with
    | nil => exact .inl ht
    | cons c t =>
      cases t with
      | nil =>
        obtain ⟨rfl, rfl⟩ := List.cons.inj ht
        exact .inr rfl
      | cons c' t =>
        rw [ht] at hshort
        simp at hshort
  refine hne (Except.ok.inj (hd.symm.trans ?_))
  rcases hroot with heq | heq
  · rw [heq, locate_root]
  · have hsplit : ['/', '/'].splitOn '/' = [[], [], []] := by decide
    rw [heq, Fs.locate, if_neg (by decide), if_neg (by decide), hsplit, Fs.walk_skip (.inl rfl),
      Fs.walk_skip (.inl rfl), Fs.walk_skip (.inl rfl), Fs.walk_nil]
    rfl

/-- The directories of an entry that does not lead out are below the destination. -/
theorem exists_rel {c r' : Text} (habsolute : destPath.head? = some '/')
    (hfree : LinkFree fs₀ destPath) (hstart : fs₀.Grows fs) (hholds : Holds tree fs destPath)
    (hstay : ∀ name, place tree rest ≠ .escaped name) (hdir : dirPart rest = r' ++ c)
    (hr' : r' = [] ∨ ∃ a, r' = a ++ ['/']) (hd : fs.locate [] true (targetDir destPath) = .ok d)
    (hne : d ≠ []) (hloc : fs.locate [] true (targetDir destPath ++ r') = .ok loc)
    (hlen : (targetDir destPath ++ dirPart rest).length < 4096) :
    ∃ cs tree' pos', (∀ s : Text, (r' ++ s).splitOn '/' = cs ++ s.splitOn '/') ∧
      enter tree (some []) cs = .made tree' pos' ∧ Below tree' fs d ∧ ∀ rel, pos' = some rel →
      loc = d ++ rel := by
  have hthree := three_le_length habsolute hd hne
  obtain ⟨cs, hr'cs, hcs⟩ := exists_dirText hr'
  have hsplit (s : Text) :
      (r' ++ s).splitOn '/' = cs ++ s.splitOn '/' := by rw [hr'cs, splitOn_dirText hcs]
  obtain ⟨t, ht⟩ := targetDir_eq destPath
  obtain ⟨hdnode, links, hrest⟩ := Fs.locate_dir fs.root (ht ▸ hd)
  have hr'split : r'.splitOn '/' = cs ++ [[]] := by rw [hr'cs, splitOn_dirText_nil hcs]
  have hTr' :
      targetDir destPath ++ r' = t ++ '/' :: r' := by
      rw [ht, List.append_assoc, List.singleton_append]
  rw [hTr', hrest r' (hTr' ▸ (Fs.length_lt_of_locate hloc).2), hr'split] at hloc
  have henter : ∀ name, enter tree (some []) cs ≠ .escaped name := by
    intro name hescaped
    refine hstay name ?_
    rw [List.length_append] at hlen
    rw [place, if_neg (by omega), hdir, hsplit, enter_append, hescaped]
    rfl
  have hlinks : ∀ loc target, d <+: loc → fs.node loc ≠ some (.link target) :=
    fun loc target hle hlink =>
    hfree fs d hstart hd loc target hle (hstart.link hlink)
  obtain ⟨tree', pos', hmade, hbelow, hpos⟩ :=
    enter_of_walk hlinks (hholds fs d (Fs.Grows.refl fs) hd)
    (fun rel hrel => by rw [← Option.some.inj hrel, List.append_nil]) hdnode henter hloc
  exact ⟨cs, tree', pos', hsplit, hmade, hbelow, hpos⟩

theorem Inv.made {fs₁ : Fs (List UInt8)} {A c B : Text} (habsolute : destPath.head? = some '/')
    (hfree : LinkFree fs₀ destPath) (hlen : (targetDir destPath ++ dirPart rest).length < 4096)
    (hpath : targetDir destPath ++ dirPart rest = A ++ '/' :: c ++ '/' :: B) (hc : '/' ∉ c)
    (h : Inv fs₀ fs₁ destPath rest tree fs) (hA : fs.locate [] true (A ++ ['/']) = .ok d)
    (hname : IsName c) (hmade : Made fs fs' (d ++ [c]))
    (hlocate : fs'.locate [] true (A ++ '/' :: c) = .ok (d ++ [c])) :
    Inv fs₀ fs₁ destPath rest tree fs' := by
  have hgrows := hmade.grows
  have hnode : fs'.node (d ++ [c]) = some .dir := by rw [hmade.node, if_pos rfl]
  have hkeeps : ∀ p, (fs₁.node p).isSome → fs'.node p = fs₁.node p := by
    intro p hp
    rw [← h.keeps p hp, hmade.of_ne]
    rintro rfl
    have hsome := h.grows.isSome hp
    rw [hmade.none] at hsome
    cases hsome
  refine ⟨h.start.trans hgrows, ?_, h.planned.grows hgrows, h.grows.trans hgrows, hkeeps⟩
  refine h.contained.change hgrows (fun p hp => hmade.of_ne hp) ?_
  obtain ⟨t, ht⟩ := targetDir_eq destPath
  rw [ht] at hpath
  rcases level_cases hpath hc with ⟨rest', hT⟩ | ⟨r', hA', hr⟩
  · -- on the way to the destination
    have hnone : fs₀.node (d ++ [c]) = none := by
      cases hsome : fs₀.node (d ++ [c]) with
      | none => rfl
      | some i =>
        have hsome' := h.start.isSome (show (fs₀.node (d ++ [c])).isSome by rw [hsome]; rfl)
        rw [hmade.none] at hsome'
        cases hsome'
    exact .inr ⟨hnone, hnode, _, prefix_of_targetDir (ht.trans hT), hlocate⟩
  · -- below it
    rw [hA', ← ht] at hA
    have hsplit :
        targetDir destPath ++ r' = t ++ '/' :: r' := by
        rw [ht, List.append_assoc, List.singleton_append]
    obtain ⟨dest, -, -, hdest, -⟩ := Fs.locate_split fs.root (hsplit ▸ hA)
    rw [← ht] at hdest
    have hdestNode : fs.node dest = some .dir := (Fs.locate_dir fs.root (ht ▸ hdest)).1
    refine .inl ⟨dest, Fs.locate_grows hgrows hdest (by rw [hdestNode]; rfl), ?_⟩
    by_cases hroot : dest = []
    · rw [hroot]
      exact List.nil_prefix
    · rcases h.planned with hplanned | ⟨hholds, hstay⟩
      · exact absurd (Except.ok.inj (hdest.symm.trans hplanned)) hroot
      · have hr' : r' = [] ∨ ∃ a, r' = a ++ ['/'] :=
          (append_singleton_of_append hA').imp_right fun ⟨a, ha, _⟩ => ⟨a, ha⟩
        obtain ⟨xs, tree', pos', hxs, henter, -, hpos⟩ :=
          exists_rel habsolute hfree h.start hholds hstay hr hr' hdest hroot hA hlen
        have hthree := three_le_length habsolute hdest hroot
        cases pos' with
        | some rel =>
          rw [hpos rel rfl, List.append_assoc]
          exact List.prefix_append ..
        | none =>
          refine absurd ?_ (hstay c)
          have hname' := Fs.IsName.ne hname
          rw [List.length_append] at hlen
          rw [place, if_neg (by omega), hr, hxs, enter_append, henter,
            List.splitOn_append_cons_self, List.splitOn_eq_singleton hc, Way.bind,
            List.singleton_append, enter, if_neg hname'.1, if_neg hname'.2.1, if_neg hname'.2.2]
          rfl

/-! ## Files -/

section
variable {env : Env} {timestamp ok : Bool} {st st' : State} {path : Text} {content : List UInt8}
    {entry : ZipEntry}

theorem openFile_spec (h : openFile env path st = (some loc, st')) :
    st.fs.locate [] true path = .ok loc ∧ st.fs.node loc ≠ some .dir ∧
      ∀ p, st'.fs.node p = if p = loc then some (.file []) else st.fs.node p := by
  unfold openFile at h
  split at h
  · cases h
  · split at h
    · cases h
    · rename_i loc' hloc
      split at h
      · rename_i fs hput
        cases h
        obtain ⟨-, -, -, -, -, hnode, hall⟩ := Fs.putAt_eq_some hput
        exact ⟨hloc, hnode, hall⟩
      · cases h

theorem openFile_none (h : openFile env path st = (none, st')) : st'.fs = st.fs := by
  unfold openFile at h
  split at h
  · cases h
    rfl
  · split at h
    · cases h
      rfl
    · split at h
      · cases h
      · cases h
        rfl

theorem write_spec (hfile : st.fs.node loc = some (.file content)) (content' : List UInt8)
    (p : Loc) : (write loc content' st).fs.node p = if p = loc then some (.file content')
    else st.fs.node p := by
  cases List.eq_nil_or_concat loc with
  | inl hnil =>
    rw [hnil, st.fs.root] at hfile
    cases hfile
  | inr hconcat =>
    obtain ⟨d, n, rfl⟩ := hconcat
    rw [List.concat_eq_append] at hfile ⊢
    have hsome : (st.fs.node (d ++ [n])).isSome := by
      rw [hfile]
      rfl
    obtain ⟨fs, hput⟩ :=
      Option.isSome_iff_exists.mp
      (Fs.isSome_putAt (i := .file content') (st.fs.parent hsome) (st.fs.isName hsome)
        (by rw [hfile]; simp))
    obtain ⟨-, -, -, -, -, -, hall⟩ := Fs.putAt_eq_some hput
    rw [write, hput]
    exact hall p

theorem extractEntryToFile_spec (h : extractEntryToFile env entry loc st = (ok, st'))
    (hfile : st.fs.node loc = some (.file content)) :
    ∃ content', (∀ p, st'.fs.node p = if p = loc then some (.file content') else st.fs.node p) ∧
      (ok = true → content' = entry.content) := by
  unfold extractEntryToFile at h
  split at h
  · cases h
    exact ⟨_, write_spec hfile _, fun hok => by cases hok⟩
  · cases h
    exact ⟨_, write_spec hfile _, fun _ => rfl⟩

theorem finish_fs
    (h : andThen (call env st) (fun st => if timestamp then call env st else (true, st)) =
      (ok, st')) : st'.fs = st.fs := by
  rcases andThen_eq h with ⟨hcall, -⟩ | ⟨st₁, hcall, hnext⟩
  · rw [← (Prod.mk.inj hcall).2]
    rfl
  · obtain rfl := (Prod.mk.inj hcall).2
    split at hnext
    · cases hnext
      rfl
    · cases hnext
      rfl

/-- What follows the directories of an entry. -/
def writeEntry (env : Env) (timestamp : Bool) (path : Text) (entry : ZipEntry) (st : State) :
    Bool × State :=
  match openFile env path st with
  | (none, st) => (false, st)
  | (some loc, st) =>
    andThen (extractEntryToFile env entry loc st) fun st =>
      andThen (call env st) fun st => if timestamp then call env st else (true, st)

theorem extractEntry_eq : extractEntry env timestamp path entry st =
    andThen (mkdirRecursively env timestamp path true st) (writeEntry env timestamp path entry) :=
  rfl

theorem writeEntry_spec (h : writeEntry env timestamp path entry st = (ok, st')) :
    st'.fs = st.fs ∧ ok = false ∨ ∃ loc content', st.fs.locate [] true path = .ok loc ∧
    st.fs.node loc ≠ some .dir ∧
      (∀ p, st'.fs.node p = if p = loc then some (.file content') else st.fs.node p) ∧
      (ok = true → content' = entry.content) := by
  unfold writeEntry at h
  split at h
  · rename_i st₁ hopen
    cases h
    exact .inl ⟨openFile_none hopen, rfl⟩
  · rename_i loc st₁ hopen
    obtain ⟨hlocate, hnotDir, hst₁⟩ := openFile_spec hopen
    have hfile : st₁.fs.node loc = some (.file []) := by rw [hst₁, if_pos rfl]
    refine .inr ?_
    rcases andThen_eq h with ⟨hextract, rfl⟩ | ⟨st₂, hextract, hfinish⟩
    · obtain ⟨content', hst', -⟩ := extractEntryToFile_spec hextract hfile
      refine ⟨loc, content', hlocate, hnotDir, fun p => ?_, fun hok => by cases hok⟩
      rw [hst', hst₁]
      split <;> rfl
    · obtain ⟨content', hst₂, hcontent⟩ := extractEntryToFile_spec hextract hfile
      refine ⟨loc, content', hlocate, hnotDir, fun p => ?_, fun _ => hcontent rfl⟩
      rw [finish_fs hfinish, hst₂, hst₁]
      split <;> rfl

theorem opened_below {fs₁ : Fs (List UInt8)} {dirs : Loc} (habsolute : destPath.head? = some '/')
    (hfree : LinkFree fs₀ destPath) (h : Inv fs₀ fs₁ destPath rest tree fs)
    (hdirs : fs.locate [] true (targetDir destPath ++ dirPart rest) = .ok dirs)
    (hlocate : fs.locate [] true (targetDir destPath ++ rest) = .ok loc)
    (hloc : fs.node loc ≠ some .dir) : ∃ d, fs.locate [] true (targetDir destPath) = .ok d ∧
    d <+: loc ∧
      (d = [] ∨ ∃ tree' rel, place tree rest =
        .made (tree'.put (rel ++ [filePart rest]) (.file ())) (some rel) ∧ Below tree' fs d ∧
        loc = d ++ (rel ++ [filePart rest])) := by
  obtain ⟨t, ht⟩ := targetDir_eq destPath
  have hsplit : targetDir destPath ++ dirPart rest = t ++ '/' :: dirPart rest := by
    rw [ht, List.append_assoc, List.singleton_append]
  obtain ⟨d, -, -, hd, -⟩ := Fs.locate_split fs.root (hsplit ▸ hdirs)
  rw [← ht] at hd
  refine ⟨d, hd, ?_⟩
  by_cases hroot : d = []
  · rw [hroot]
    exact ⟨List.nil_prefix, .inl rfl⟩
  obtain ⟨hholds, hstay⟩ :=
    h.planned.resolve_left fun hplanned => hroot (Except.ok.inj (hd.symm.trans hplanned))
  have hthree := three_le_length habsolute hd hroot
  have hlen := (Fs.length_lt_of_locate hlocate).2
  have hdirsLen := (Fs.length_lt_of_locate hdirs).2
  obtain ⟨xs, tree', pos', hxs, henter, hbelow, hpos⟩ :=
    exists_rel habsolute hfree h.start hholds hstay
    (List.append_nil _).symm (dirPart_or rest) hd hroot hdirs hdirsLen
  -- the last component
  have hname := slash_notMem_filePart rest
  obtain ⟨x, hx⟩ : ∃ x, targetDir destPath ++ dirPart rest = x ++ ['/'] := by
    rcases dirPart_or rest with hnil | ⟨a, ha⟩
    · exact ⟨t, by rw [hnil, List.append_nil, ht]⟩
    · exact ⟨targetDir destPath ++ a, by rw [ha, List.append_assoc]⟩
  obtain ⟨hdirsNode, links, hwalk⟩ := Fs.locate_dir fs.root (hx ▸ hdirs)
  have hpath : targetDir destPath ++ rest = x ++ '/' :: filePart rest := by
    conv => lhs; rw [← dirPart_append_filePart rest]
    rw [← List.append_assoc, hx, List.append_assoc, List.singleton_append]
  rw [hpath] at hlen hlocate
  rw [hwalk _ hlen, List.splitOn_eq_singleton hname] at hlocate
  have hshort : ¬4096 ≤ 3 + rest.length := by
    rw [← hpath, List.length_append] at hlen
    omega
  rw [List.length_append] at hdirsLen
  have hxs' : (dirPart rest).splitOn '/' = xs ++ [[]] := by
    have hnil := hxs []
    rwa [List.append_nil, List.splitOn_nil] at hnil
  obtain ⟨hisName, hloc'⟩ := walk_eq_name hdirsNode hname hlocate hloc
  have hplace : place tree rest = placeFile rest tree' pos' := by
    rw [place, if_neg (by omega), hxs', enter_append, henter, Way.bind, enter_end, Way.bind]
  unfold placeFile at hplace
  rw [if_neg (not_or.mpr ⟨not_not.mpr hisName, hshort⟩)] at hplace
  cases pos' with
  | none => exact absurd hplace (hstay _)
  | some rel =>
    have hrel := hpos rel rfl
    subst hrel
    rw [List.append_assoc] at hloc'
    have hfile : loc = d ++ (rel ++ [filePart rest]) := hloc' fun _ target hlink =>
      hfree fs d h.start hd _ target (List.prefix_append ..) (h.start.link hlink)
    have hnotDir : tree' (rel ++ [filePart rest]) ≠ some .dir :=
      fun hdir => hloc (hfile ▸ (hbelow _).1 hdir)
    refine ⟨hfile ▸ List.prefix_append .., .inr ⟨tree', rel, ?_, hbelow, hfile⟩⟩
    rw [hplace]
    exact if_neg hnotDir

/-- The path of an entry below the destination is absolute, with its last slash in front of the
file. -/
theorem path_eq (habsolute : destPath.head? = some '/') (rest : Text) :
    ∃ B, targetDir destPath ++ dirPart rest = '/' :: B ∧ (B = [] ∨ ∃ b, B = b ++ ['/']) ∧
      targetDir destPath ++ rest = '/' :: B ++ filePart rest := by
  obtain ⟨B₀, hB₀⟩ := head_targetDir habsolute
  have hdirs :
      targetDir destPath ++ dirPart rest = '/' :: (B₀ ++ dirPart rest) := by
      rw [hB₀, List.cons_append]
  refine ⟨B₀ ++ dirPart rest, hdirs, ?_, ?_⟩
  · obtain ⟨t, ht⟩ := targetDir_eq destPath
    have hlast : ∃ x, x ++ ['/'] = ['/'] ++ (B₀ ++ dirPart rest) := by
      rw [List.singleton_append, ← hdirs]
      rcases dirPart_or rest with hnil | ⟨a, ha⟩
      · exact ⟨t, by rw [hnil, List.append_nil, ht]⟩
      · exact ⟨targetDir destPath ++ a, by rw [ha, List.append_assoc]⟩
    obtain ⟨x, hx⟩ := hlast
    exact (append_singleton_of_append hx).imp_right fun ⟨b, hb, _⟩ => ⟨b, hb⟩
  · conv => lhs; rw [← dirPart_append_filePart rest]
    rw [← List.append_assoc, hdirs]

/-- What an entry does, if its way does not lead out of the destination. -/
theorem extractEntry_spec (habsolute : destPath.head? = some '/') (hfree : LinkFree fs₀ destPath)
    (hstart : fs₀.Grows st.fs) (hcontained : Contained fs₀ st.fs destPath)
    (hplanned : Planned tree rest st.fs destPath)
    (h : extractEntry env timestamp (targetDir destPath ++ rest) entry st = (ok, st')) :
    st.fs.Grows st'.fs ∧ Contained fs₀ st'.fs destPath ∧
      (ok = true → (st'.fs.locate [] true (targetDir destPath) = .ok [] ∨
          ∃ tree' pos, place tree rest = .made tree' pos ∧ Holds tree' st'.fs destPath) ∧
        ∃ loc, st'.fs.locate [] true (targetDir destPath ++ rest) = .ok loc ∧
          st'.fs.node loc = some (.file entry.content) ∧
          ∀ p, (st.fs.node p).isSome → p ≠ loc → st'.fs.node p = st.fs.node p) := by
  obtain ⟨B, hB, hend, hpath⟩ := path_eq habsolute rest
  have hinv : Inv fs₀ st.fs destPath rest tree st.fs :=
    ⟨hstart, hcontained, hplanned, Fs.Grows.refl _, fun _ _ => rfl⟩
  have hmkdir {ok₁ : Bool} {st₁ : State}
      (h : mkdirRecursively env timestamp (targetDir destPath ++ rest) true st = (ok₁, st₁)) :
      Inv fs₀ st.fs destPath rest tree st₁.fs ∧
      (ok₁ = true → ∃ loc, st₁.fs.locate [] true ('/' :: B) = .ok loc) := by
    rw [hpath] at h
    refine mkdirRecursively_spec hend (slash_notMem_filePart rest) ?_ hinv h
    intro hlen A c B' fs fs' d hlevel hc hI hA hname hmade hlocate
    rw [← hB] at hlevel hlen
    exact hI.made habsolute hfree hlen hlevel hc hA hname hmade hlocate
  rw [extractEntry_eq] at h
  rcases andThen_eq h with ⟨hdirs, rfl⟩ | ⟨st₁, hdirs, hnext⟩
  · obtain ⟨hinv₁, -⟩ := hmkdir hdirs
    exact ⟨hinv₁.grows, hinv₁.contained, fun hok => by cases hok⟩
  · obtain ⟨hinv₁, hlocated⟩ := hmkdir hdirs
    obtain ⟨dirs, hdirsLoc⟩ := hlocated rfl
    rw [← hB] at hdirsLoc
    rcases writeEntry_spec hnext with ⟨hfs, rfl⟩ | ⟨loc, content', hlocate, hnotDir, hst', hcontent⟩
    · rw [hfs]
      exact ⟨hinv₁.grows, hinv₁.contained, fun hok => by cases hok⟩
    · obtain ⟨d, hd, hprefix, hplace⟩ := opened_below habsolute hfree hinv₁ hdirsLoc hlocate hnotDir
      have hnotLink : ∀ target, st₁.fs.node loc ≠ some (.link target) := fun target hlink =>
        hfree st₁.fs d hinv₁.start hd loc target hprefix (hinv₁.start.link hlink)
      have hgrows : st₁.fs.Grows st'.fs := by
        refine .of_put hst' (fun _ heq => by cases heq) ?_
        cases hnode : st₁.fs.node loc with
        | none => exact .inl rfl
        | some i =>
          cases i with
          | dir => exact absurd hnode hnotDir
          | link target => exact absurd hnode (hnotLink target)
          | file content => exact .inr ⟨⟨content, rfl⟩, content', rfl⟩
      have hd' := Fs.locate_grows hgrows hd (by
        obtain ⟨t, ht⟩ := targetDir_eq destPath
        rw [(Fs.locate_dir st₁.fs.root (ht ▸ hd)).1]
        rfl)
      have hother : ∀ p, p ≠ loc → st'.fs.node p = st₁.fs.node p :=
        fun p hp => by rw [hst', if_neg hp]
      refine ⟨hinv₁.grows.trans hgrows,
        hinv₁.contained.change hgrows hother (.inl ⟨d, hd', hprefix⟩), fun hok => ⟨?_, ?_⟩⟩
      · rcases hplace with hroot | ⟨tree', rel, hplace, hbelow, hloc⟩
        · exact .inl (hroot ▸ hd')
        · refine .inr ⟨_, _, hplace, ?_⟩
          have hnode : st'.fs.node (d ++ (rel ++ [filePart rest])) = some (.file content') := by
            rw [← hloc, hst', if_pos rfl]
          exact ((hbelow.grows hgrows).put_file hnode).holds hd'
      · exact ⟨loc, Fs.locate_put hlocate hgrows hst', by rw [hst', if_pos rfl, hcontent hok],
          fun p hp hne => by rw [hother p hne, hinv₁.keeps p hp]⟩

theorem Complete.step {files : List (Text × List UInt8)} (h : Complete fs files)
    (hgrows : fs.Grows fs') (hlocate : fs'.locate [] true path = .ok loc)
    (hfile : fs'.node loc = some (.file content))
    (hkeeps : ∀ p, (fs.node p).isSome → p ≠ loc → fs'.node p = fs.node p) :
    Complete fs' (files ++ [(path, content)]) := by
  have hnew {file : Text × List UInt8} (hfileLoc : fs'.locate [] true file.1 = .ok loc) :
      ∃ loc before last after, files ++ [(path, content)] = before ++ last :: after ∧
        fs'.locate [] true file.1 = .ok loc ∧ fs'.locate [] true last.1 = .ok loc ∧
        (∀ later ∈ after, fs'.locate [] true later.1 ≠ .ok loc) ∧
        fs'.node loc = some (.file last.2) :=
    ⟨loc, files, (path, content), [], rfl, hfileLoc, hlocate, fun _ hmem =>
      absurd hmem List.not_mem_nil, hfile⟩
  intro file hmem
  rcases List.mem_append.mp hmem with hmem | hmem
  · obtain ⟨l, before, last, after, hsplit, hfileLoc, hlastLoc, hafter, hnode⟩ := h file hmem
    have hsome : (fs.node l).isSome := by
      rw [hnode]
      rfl
    by_cases hl : l = loc
    · exact hnew (hl ▸ Fs.locate_grows hgrows hfileLoc hsome)
    · refine ⟨l, before, last, after ++ [(path, content)],
        by rw [hsplit, List.append_assoc, List.cons_append],
        Fs.locate_grows hgrows hfileLoc hsome, Fs.locate_grows hgrows hlastLoc hsome,
        fun later hlater heq => ?_, by rw [hkeeps l hsome hl, hnode]⟩
      rcases List.mem_append.mp hlater with hlater | hlater
      · have hmem' : later ∈ files := by
          rw [hsplit]
          exact List.mem_append_right _ (List.mem_cons_of_mem _ hlater)
        obtain ⟨l', _, last', _, -, hlaterLoc, -, -, hnode'⟩ := h later hmem'
        have heq' := Fs.locate_grows hgrows hlaterLoc (by rw [hnode']; rfl)
        cases Except.ok.inj (heq.symm.trans heq')
        exact hafter later hlater hlaterLoc
      · rw [List.mem_singleton.mp hlater] at heq
        exact hl (Except.ok.inj (heq.symm.trans hlocate))
  · rw [List.mem_singleton.mp hmem]
    exact hnew hlocate

/-! ## The loop -/

/-- The files among some entries. -/
def files (targetDir prefixPath : Text) (entries : List ZipEntry) : List (Text × List UInt8) :=
  (entries.filter fun entry => (entry.name.drop prefixPath.length).getLast?.any (· ≠ '/')).map
  fun entry =>
    (targetDir ++ entry.name.drop prefixPath.length, entry.content)

theorem getLast?_path (destPath rest : Text) :
    (targetDir destPath ++ rest).getLast? = some '/' ↔ rest.getLast?.all (· = '/') = true := by
  cases List.eq_nil_or_concat rest with
  | inl hnil =>
    obtain ⟨t, ht⟩ := targetDir_eq destPath
    rw [hnil, List.append_nil, ht, List.getLast?_concat]
    exact iff_of_true rfl rfl
  | inr hconcat =>
    obtain ⟨a, c, rfl⟩ := hconcat
    rw [List.concat_eq_append, ← List.append_assoc, List.getLast?_concat, List.getLast?_concat]
    simp

/-- The entries from a state on, if none that is reached leads out of the destination. -/
theorem extractEntries_spec {done : List (Text × List UInt8)} {result : Option Bool} {pre : Text}
    (habsolute : destPath.head? = some '/') (hfree : LinkFree fs₀ destPath)
    (hstart : fs₀.Grows st.fs) (hcontained : Contained fs₀ st.fs destPath)
    (hstay : st.fs.locate [] true (targetDir destPath) = .ok [] ∨
      Holds tree st.fs destPath ∧ firstEscape pre tree entries = none)
    (hdone : Complete st.fs done)
    (h : extractEntries env timestamp (targetDir destPath) pre entries st = (result, st')) :
    Contained fs₀ st'.fs destPath ∧
      (result = some true → Complete st'.fs (done ++ files (targetDir destPath) pre entries)) := by
  induction entries generalizing tree st done with
  | nil =>
    cases h
    exact ⟨hcontained, fun _ => by rwa [files, List.filter_nil, List.map_nil, List.append_nil]⟩
  | cons entry entries ih =>
    rw [extractEntries] at h
    split at h
    · cases h
      exact ⟨hcontained, fun hres => by cases hres⟩
    · rename_i hlen
      rw [firstEscape, if_neg hlen] at hstay
      dsimp only at h hstay
      generalize hrest : entry.name.drop pre.length = rest at h hstay
      split at h
      · rename_i hskip
        rw [getLast?_path] at hskip
        rw [if_pos hskip] at hstay
        have hfiles :
            files (targetDir destPath) pre (entry :: entries) =
            files (targetDir destPath) pre entries := by
          rw [files, List.filter_cons_of_neg, files]
          rw [hrest]
          cases hlast : rest.getLast? <;> simp_all
        rw [hfiles]
        exact ih hstart hcontained hstay hdone h
      · rename_i hskip
        rw [getLast?_path] at hskip
        rw [if_neg hskip] at hstay
        have hfiles : files (targetDir destPath) pre (entry :: entries) =
            (targetDir destPath ++ rest, entry.content) ::
            files (targetDir destPath) pre entries := by
          rw [files, List.filter_cons_of_pos, List.map_cons, hrest, files]
          rw [hrest]
          cases hlast : rest.getLast? <;> simp_all
        have hplanned : Planned tree rest st.fs destPath := by
          refine hstay.imp_right fun ⟨hholds, hnone⟩ => ⟨hholds, fun name hescaped => ?_⟩
          rw [hescaped] at hnone
          cases hnone
        split at h
        · rename_i st₁ hentry
          cases h
          exact ⟨(extractEntry_spec habsolute hfree hstart hcontained hplanned hentry).2.1,
            fun hres => by cases hres⟩
        · rename_i st₁ hentry
          obtain ⟨hgrows, hcontained₁, hok⟩ :=
            extractEntry_spec habsolute hfree hstart hcontained hplanned hentry
          obtain ⟨hplace, loc, hlocate, hfile, hkeeps⟩ := hok rfl
          have hdone₁ := hdone.step hgrows hlocate hfile hkeeps
          rw [hfiles, ← List.singleton_append, ← List.append_assoc]
          have hroot (hst : st₁.fs.locate [] true (targetDir destPath) = .ok []) :=
            @ih tree st₁ (done ++ [(targetDir destPath ++ rest, entry.content)])
            (hstart.trans hgrows) hcontained₁
              (.inl hst) hdone₁ h
          rcases hstay with hst | ⟨-, hnone⟩
          · exact hroot (Fs.locate_grows hgrows hst (by rw [st.fs.root]; rfl))
          · rcases hplace with hst | ⟨tree', pos', hplace, hholds⟩
            · exact hroot hst
            · rw [hplace] at hnone
              exact ih (hstart.trans hgrows) hcontained₁ (.inr ⟨hholds, hnone⟩) hdone₁ h

theorem wanted_eq (zip : List ZipEntry) (zipPath destPath : Text) :
    wanted zip zipPath destPath = [] ∨
      wanted zip zipPath destPath =
      files (targetDir destPath) (prefixPath zipPath) (iteration zip zipPath) := by
  by_cases hnul : '\x00' ∈ prefixPath zipPath
  · left
    rw [wanted, List.map_eq_nil_iff, List.filter_eq_nil_iff]
    intro entry _ h
    rw [decide_eq_true_eq] at h
    exact entry.noNul ((List.isPrefixOf_iff_prefix.mp h.1).subset hnul)
  · right
    rw [wanted, files, iteration, List.filter_filter, cstr_eq_self hnul]
    congr 1
    refine List.filter_congr fun entry _ => ?_
    rw [Bool.eq_iff_iff]
    simp [and_comm]

theorem right_of_stays {zipPath : Text} (hstays : Stays zip zipPath) : Right zip zipPath := by
  intro env timestamp destPath fs _ hfree
  dsimp only
  have hrefl : Contained fs fs destPath := .refl fs destPath
  rw [extractPackageRecursive]
  split
  · exact ⟨fun hres => (by cases hres), hrefl⟩
  · rename_i hrelative
    split
    · exact ⟨fun hres => (by cases hres), hrefl⟩
    · rename_i habsolute
      split
      · exact ⟨fun hres => (by cases hres), hrefl⟩
      · obtain ⟨hcontained, hcomplete⟩ :=
          @extractEntries_spec (iteration zip zipPath) fs destPath emptyTree env timestamp
          ⟨fs, 1⟩ _ [] _ (prefixPath zipPath) (not_not.mp habsolute) hfree (Fs.Grows.refl fs) hrefl
          (.inr ⟨holds_emptyTree, hstays.resolve_left hrelative⟩)
            (fun _ hmem => absurd hmem List.not_mem_nil) rfl
        refine ⟨fun hres => ?_, hcontained⟩
        rcases wanted_eq zip zipPath destPath with hnil | hfiles
        · rw [hnil]
          exact fun _ hmem => absurd hmem List.not_mem_nil
        · rw [hfiles]
          exact hcomplete hres

end

end

end BootableRecovery.ExtractPackage
