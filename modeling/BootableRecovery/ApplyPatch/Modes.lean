import BootableRecovery.ApplyPatch.Partition

/-!
# The command line of applypatch

`applypatch_modes` of `applypatch/applypatch_modes.cpp`. The functions of `applypatch.cpp` which it
calls are recorded with what they are given. `PatchMode` reads the size at `argv[4]` behind a check
for four arguments only, so that a vector with the target size left out is read past its end
(`applypatchModes_right_iff`).
-/

namespace BootableRecovery.ApplyPatch.Modes

/-- A call of `applypatch_check`, `applypatch_flash` or `applypatch`. The patches and the bonus are
blobs; without `-b` the bonus is `VAL_INVALID`. -/
inductive Call
  | check (filename : Text) (patchSha1s : List Text)
  | flash (source target targetSha1 : Text) (targetSize : Nat)
  | patch (source target targetSha1 : Text) (targetSize : Nat) (patchSha1s : List Text)
    (patches : List (List UInt8))
      (bonus : Option (List UInt8))
  deriving DecidableEq

/-! ## The code -/

/-- `argv[i]`; `none` if it is outside of the vector. -/
def argAt (argv : List Text) (i : Nat) : Option Text := argv[i]?

section
variable (load : Text → Option (List UInt8)) (callee : Call → Int)

/-- The call of a `return`: what is called, and its result. -/
def call (c : Call) : List Call × Int := ([c], callee c)

def checkMode (argv : List Text) : Option (List Call × Int) := do
  if argv.length < 3 then return ([], 2)
  else
    let sha1 ← (List.range' 3 (argv.length - 3)).mapM (argAt argv)
    return call callee (.check (← argAt argv 2) sha1)

/-- `ParsePatchArgs` for `n` arguments from `argv[i]` on; the result is `none` for `false`. -/
def parsePatchArgs (argv : List Text) :
    (n i : Nat) → List Text → List (List UInt8) → Option (Option (List Text × List (List UInt8)))
  | 0, _, sha1s, files => return some (sha1s, files)
  | n + 1, i, sha1s, files => do
    match (← argAt argv i).splitOn ':' with
    | [sha1, file] =>
      if (parseSha1 sha1).isNone then return none
      else match load file with
        | none => return none
        | some fc => parsePatchArgs argv n (i + 1) (sha1s ++ [sha1]) (files ++ [fc])
    | _ => return none

/-- `PatchMode` behind the bonus, with `argv` moved on by `p`. -/
def patchOperands (argv : List Text) (argc p : Nat) (bonus : Option (List UInt8)) :
    Option (List Call × Int) := do
  if argc < 4 then return ([], 2)
  else
    match parseUint (← argAt argv (p + 4)) with
    | none => return ([], 1)
    | some targetSize =>
      if targetSize = 0 then return ([], 1)
      else if argc = 5 then
        if bonus.isSome then return ([], 1)
        else
          return call callee
            (.flash (← argAt argv (p + 1)) (← argAt argv (p + 2)) (← argAt argv (p + 3)) targetSize)
      else
        match ← parsePatchArgs load argv (argc - 5) (p + 5) [] [] with
        | none => return ([], 1)
        | some (sha1s, files) =>
          return call callee
            (.patch (← argAt argv (p + 1)) (← argAt argv (p + 2)) (← argAt argv (p + 3)) targetSize
              sha1s files bonus)

def patchMode (argv : List Text) : Option (List Call × Int) := do
  if 3 ≤ argv.length then
    if (← argAt argv 1) = "-b".toList then
      match load (← argAt argv 2) with
      | none => return ([], 1)
      | some bonus => patchOperands load callee argv (argv.length - 2) 2 (some bonus)
    else patchOperands load callee argv argv.length 0 none
  else patchOperands load callee argv argv.length 0 none

/-- The label `usage` of `applypatch_modes`, after some calls. -/
def usage (argv : List Text) (calls : List Call) : Option (List Call × Int) := do
  let _ ← argAt argv 0
  return (calls, 2)

/-- `applypatch_modes`: the calls and the result, or `none` if it reads outside of the vector.
`load` is what `LoadFileContents` gives, and `callee` what the calls return. -/
def applypatchModes (argv : List Text) : Option (List Call × Int) := do
  if argv.length < 2 then usage argv []
  else
    let mode ← argAt argv 1
    let (calls, result) ←
      if mode = "-l".toList then pure ([], 0)
      else if mode = "-c".toList then checkMode callee argv
      else patchMode load callee argv
    if result = 2 then usage argv calls else return (calls, result)

end

/-! ## The documented forms -/

variable (load : Text → Option (List UInt8)) (callee : Call → Int)

/-- `<src-sha1>:<patch>` with a patch that can be read, and its digest and content. -/
def PatchArg (arg : Text) (entry : Text × List UInt8) : Prop :=
  ∃ file, arg = entry.1 ++ ':' :: file ∧ ':' ∉ entry.1 ∧ ':' ∉ file ∧ (parseSha1 entry.1).isSome ∧
    load file = some entry.2

/-- `<src-file> <tgt-file> <tgt-sha1> <tgt-size> [<src-sha1>:<patch> ...]`, and what is called for
it. -/
inductive Operands (bonus : Option (List UInt8)) : List Text → Call → Prop
  | flash {src tgt sha1 size : Text} {n : Nat} : bonus = none → parseUint size = some n → n ≠ 0 →
      Operands bonus [src, tgt, sha1, size] (.flash src tgt sha1 n)
  | patch {src tgt sha1 size : Text} {n : Nat} {args : List Text}
    {entries : List (Text × List UInt8)} :
      parseUint size = some n → n ≠ 0 → args ≠ [] → args.Forall₂ (PatchArg load) entries →
      Operands bonus (src :: tgt :: sha1 :: size :: args)
        (.patch src tgt sha1 n (entries.map Prod.fst) (entries.map Prod.snd) bonus)

/-- The options; a first argument that is one of them is not a source file. -/
def modeOptions : List Text := ["-l".toList, "-c".toList, "-b".toList]

/-- The forms of the usage text that call something. -/
inductive Documented : List Text → Call → Prop
  | check {prog file : Text} {sha1s : List Text} :
    Documented (prog :: "-c".toList :: file :: sha1s) (.check file sha1s)
  | bonus {prog file : Text} {content : List UInt8} {operands : List Text} {c : Call} :
    load file = some content →
      Operands load (some content) operands c →
      Documented (prog :: "-b".toList :: file :: operands) c
  | plain {prog src : Text} {operands : List Text} {c : Call} : src ∉ modeOptions →
      Operands load none (src :: operands) c → Documented (prog :: src :: operands) c

/-- What a vector should do: only its arguments are read, the call of its form is made, and nothing
is called and the result is not 0 if it has none, `-l` apart. -/
def Right (argv : List Text) : Prop :=
  ∃ calls result, applypatchModes load callee argv = some (calls, result) ∧
    (∀ c, Documented load argv c → calls = [c]) ∧
    ((∀ c, ¬Documented load argv c) → calls = [] ∧ (argv[1]? ≠ some "-l".toList → result ≠ 0))

/-- A vector in which the target size is the first argument that is missing. -/
inductive WithoutSize : List Text → Prop
  | bonus {prog file src tgt sha1 : Text} : (load file).isSome →
      WithoutSize [prog, "-b".toList, file, src, tgt, sha1]
  | plain {prog src tgt sha1 : Text} : src ∉ modeOptions → WithoutSize [prog, src, tgt, sha1]

section
variable {load callee} {argv operands args : List Text} {bonus : Option (List UInt8)}
    {entries : List (Text × List UInt8)}

/-! ## The patch arguments -/

theorem splitOn_eq_pair {arg sha1 file : Text} :
    arg.splitOn ':' = [sha1, file] ↔ arg = sha1 ++ ':' :: file ∧ ':' ∉ sha1 ∧ ':' ∉ file := by
  constructor
  · intro h
    have hpieces : ∀ w ∈ [sha1, file], ':' ∉ w := fun w hw => (of_mem_splitOn (h ▸ hw)).1
    have hjoin : [':'].intercalate (arg.splitOn ':') = arg := List.intercalate_splitOn ':'
    rw [h] at hjoin
    exact ⟨by rw [← hjoin]; simp [List.intercalate], hpieces sha1 (by simp), hpieces file (by simp)⟩
  · rintro ⟨rfl, hsha1, hfile⟩
    rw [List.splitOn_append_cons_self, List.splitOn_eq_singleton hsha1,
      List.splitOn_eq_singleton hfile]
    rfl

/-- What one turn of `ParsePatchArgs` appends. -/
def parsePatchArg (load : Text → Option (List UInt8)) (arg : Text) : Option (Text × List UInt8) :=
  match arg.splitOn ':' with
  | [sha1, file] => if (parseSha1 sha1).isNone then none else (load file).map fun fc => (sha1, fc)
  | _ => none

theorem patchArg_iff {arg : Text} {entry : Text × List UInt8} :
    PatchArg load arg entry ↔ parsePatchArg load arg = some entry := by
  unfold parsePatchArg
  constructor
  · rintro ⟨file, harg, hsha1, hfile, hdigest, hload⟩
    rw [splitOn_eq_pair.mpr ⟨harg, hsha1, hfile⟩]
    dsimp only
    rw [if_neg (by rw [Option.isNone_iff_eq_none]; exact Option.ne_none_iff_isSome.mpr hdigest),
      hload]
    rfl
  · intro h
    split at h
    · rename_i sha1 file hsplit
      obtain ⟨harg, hsha1, hfile⟩ := splitOn_eq_pair.mp hsplit
      split at h
      · cases h
      · rename_i hdigest
        obtain ⟨fc, hload, rfl⟩ := Option.map_eq_some_iff.mp h
        exact ⟨file, harg, hsha1, hfile, Option.isSome_iff_ne_none.mpr (by simpa using hdigest),
          hload⟩
    · cases h

theorem parsePatchArgs_succ {arg : Text} {n i : Nat} (hread : argv[i]? = some arg)
    (sha1s : List Text) (files : List (List UInt8)) :
    parsePatchArgs load argv (n + 1) i sha1s files =
      match parsePatchArg load arg with
      | none => some none
      | some entry =>
      parsePatchArgs load argv n (i + 1) (sha1s ++ [entry.1]) (files ++ [entry.2]) := by
  rw [parsePatchArgs, argAt, hread, Option.bind_eq_bind, Option.bind_some, parsePatchArg]
  split
  · rename_i sha1 file hsplit
    split
    · rfl
    · cases load file with
      | none => rfl
      | some fc => rfl
  · rfl

/-- The arguments are all read: either they have the form and the lists are parallel, or the result
is `false`. -/
theorem parsePatchArgs_spec {i : Nat} (hargs : argv.drop i = args) (sha1s : List Text)
    (files : List (List UInt8)) :
    (∃ entries, args.Forall₂ (PatchArg load) entries ∧
      parsePatchArgs load argv args.length i sha1s files =
      some (some (sha1s ++ entries.map Prod.fst, files ++ entries.map Prod.snd))) ∨
    (∀ entries, ¬args.Forall₂ (PatchArg load) entries) ∧
      parsePatchArgs load argv args.length i sha1s files = some none := by
  induction args generalizing i sha1s files with
  | nil => exact .inl ⟨[], .nil, by simp [parsePatchArgs]⟩
  | cons arg args ih =>
    have hread : argv[i]? = some arg := by
      rw [← List.head?_drop, hargs]
      rfl
    have hrest : argv.drop (i + 1) = args := by
      rw [← List.drop_drop, hargs]
      rfl
    rw [List.length_cons, parsePatchArgs_succ hread]
    cases hentry : parsePatchArg load arg with
    | none =>
      refine .inr ⟨fun entries h => ?_, rfl⟩
      cases h with
      | cons h _ =>
        rw [patchArg_iff, hentry] at h
        cases h
    | some entry =>
      rcases ih hrest (sha1s ++ [entry.1]) (files ++ [entry.2]) with ⟨entries, hentries,
        hparse⟩ | ⟨hnone, hparse⟩
      · refine .inl ⟨entry :: entries, .cons (patchArg_iff.mpr hentry) hentries, ?_⟩
        dsimp only
        rw [hparse]
        simp
      · refine .inr ⟨fun entries h => ?_, hparse⟩
        cases h with
        | cons _ h => exact hnone _ h

theorem forall₂_patchArg_unique {entries' : List (Text × List UInt8)}
    (h : args.Forall₂ (PatchArg load) entries) (h' : args.Forall₂ (PatchArg load) entries') :
    entries = entries' := by
  induction h generalizing entries' with
  | nil =>
    cases h'
    rfl
  | cons hentry _ ih =>
    cases h' with
    | cons hentry' h' =>
      rw [patchArg_iff] at hentry hentry'
      rw [ih h', Option.some.inj (hentry.symm.trans hentry')]

/-! ## The operands -/

theorem argAt_eq {p i : Nat} (h : argv.drop (p + 1) = operands) :
    argAt argv (p + 1 + i) = operands[i]? := by
  rw [argAt, ← h, List.getElem?_drop]

theorem Operands.four_le {c : Call} (h : Operands load bonus operands c) : 4 ≤ operands.length := by
  cases h with
  | flash => exact Nat.le_refl 4
  | patch => simp

/-- All operands are there: the call is made that they say, or nothing is called and the result is
1. -/
theorem patchOperands_full {src tgt sha1 size : Text} {p : Nat}
    (hargv : argv.drop (p + 1) = src :: tgt :: sha1 :: size :: args) :
    (∃ c, (∀ c', Operands load bonus (src :: tgt :: sha1 :: size :: args) c' ↔ c' = c) ∧
      patchOperands load callee argv (args.length + 5) p bonus = some (call callee c)) ∨
    (∀ c, ¬Operands load bonus (src :: tgt :: sha1 :: size :: args) c) ∧
      patchOperands load callee argv (args.length + 5) p bonus = some ([], 1) := by
  have hsrc : argAt argv (p + 1) = some src := argAt_eq (i := 0) hargv
  have htgt : argAt argv (p + 2) = some tgt := argAt_eq (i := 1) hargv
  have hsha1 : argAt argv (p + 3) = some sha1 := argAt_eq (i := 2) hargv
  have hsize : argAt argv (p + 4) = some size := argAt_eq (i := 3) hargv
  have hargs : argv.drop (p + 5) = args := by
    have hdrop : (argv.drop (p + 1)).drop 4 = args := by
      rw [hargv]
      rfl
    rw [← hdrop, List.drop_drop]
  rw [patchOperands, if_neg (by omega), hsize, Option.bind_eq_bind, Option.bind_some]
  cases hn : parseUint size with
  | none =>
    refine .inr ⟨fun c h => ?_, rfl⟩
    cases h with
    | flash _ hn' _ => exact Option.some_ne_none _ (hn'.symm.trans hn)
    | patch hn' _ _ _ => exact Option.some_ne_none _ (hn'.symm.trans hn)
  | some n =>
    dsimp only
    by_cases hzero : n = 0
    · rw [if_pos hzero]
      refine .inr ⟨fun c h => ?_, rfl⟩
      cases h with
      | flash _ hn' hne => exact hne (Option.some.inj (hn'.symm.trans hn) ▸ hzero)
      | patch hn' hne _ _ => exact hne (Option.some.inj (hn'.symm.trans hn) ▸ hzero)
    rw [if_neg hzero]
    by_cases hflash : args = []
    · subst hflash
      have hfive : ([] : List Text).length + 5 = 5 := rfl
      rw [if_pos hfive]
      cases bonus with
      | some content =>
        refine .inr ⟨fun c h => ?_, rfl⟩
        cases h with
        | flash hbonus _ _ => exact Option.some_ne_none _ hbonus
        | patch _ _ hne _ => exact hne rfl
      | none =>
        rw [hsrc, htgt, hsha1]
        refine .inl ⟨.flash src tgt sha1 n, fun c =>
          ⟨fun h => ?_, fun h => h ▸ .flash rfl hn hzero⟩, rfl⟩
        cases h with
        | flash _ hn' _ => rw [Option.some.inj (hn'.symm.trans hn)]
        | patch _ _ hne _ => exact absurd rfl hne
    · have hlength := List.length_pos_iff.mpr hflash
      rw [if_neg (by omega), Nat.add_sub_cancel]
      rcases @parsePatchArgs_spec load argv _ _ hargs [] [] with ⟨entries, hentries,
        hparse⟩ | ⟨hnone, hparse⟩
      · rw [hparse, hsrc, htgt, hsha1]
        refine .inl ⟨.patch src tgt sha1 n (entries.map Prod.fst) (entries.map Prod.snd) bonus,
          fun c => ⟨fun h => ?_, fun h => h ▸ .patch hn hzero hflash hentries⟩, rfl⟩
        cases h with
        | flash => exact absurd rfl hflash
        | patch hn' _ _ hentries' =>
          rw [Option.some.inj (hn'.symm.trans hn), forall₂_patchArg_unique hentries' hentries]
      · rw [hparse]
        refine .inr ⟨fun c h => ?_, rfl⟩
        cases h with
        | flash => exact hflash rfl
        | patch _ _ _ hentries => exact hnone _ hentries

/-- `PatchMode` calls what the operands say, or nothing with a result that is not 0, unless only the
size is missing. -/
theorem patchOperands_spec {p : Nat} (hargv : argv.drop (p + 1) = operands)
    (hthree : operands.length ≠ 3) : (∃ c, (∀ c', Operands load bonus operands c' ↔ c' = c) ∧
      patchOperands load callee argv (operands.length + 1) p bonus = some (call callee c)) ∨
    (∀ c, ¬Operands load bonus operands c) ∧
      ∃ result, patchOperands load callee argv (operands.length + 1) p bonus = some ([], result) ∧
      result ≠ 0 := by
  by_cases hshort : operands.length < 4
  · refine .inr ⟨fun c h => absurd h.four_le (by omega), 2, ?_, by decide⟩
    rw [patchOperands, if_pos (by omega)]
    rfl
  · obtain ⟨src, tgt, sha1, size, args, rfl⟩ :
        ∃ src tgt sha1 size args, operands = src :: tgt :: sha1 :: size :: args := by
      rcases operands with _ | ⟨src, _ | ⟨tgt, _ | ⟨sha1, _ | ⟨size, args⟩⟩⟩⟩
      iterate 4 exact absurd (by simp) hshort
      exact ⟨src, tgt, sha1, size, args, rfl⟩
    rcases patchOperands_full hargv with hcall | ⟨hnone, hresult⟩
    · exact .inl hcall
    · exact .inr ⟨hnone, 1, hresult, by decide⟩

theorem patchOperands_three {p : Nat} (hargv : argv.drop (p + 1) = operands)
    (hthree : operands.length = 3) :
    patchOperands load callee argv (operands.length + 1) p bonus = none := by
  have hsize : argAt argv (p + 4) = none := by
    rw [show p + 4 = p + 1 + 3 from rfl, argAt_eq hargv, List.getElem?_eq_none (by omega)]
  rw [patchOperands, if_neg (by omega), hsize]
  rfl

/-! ## The modes -/

theorem mapM_argAt {n i : Nat} (h : i + n = argv.length) :
    (List.range' i n).mapM (argAt argv) = some (argv.drop i) := by
  induction n generalizing i with
  | zero =>
    rw [List.drop_eq_nil_of_le (by omega)]
    rfl
  | succ n ih =>
    have hlt : i < argv.length := by omega
    rw [List.range'_succ, List.mapM_cons, ih (by omega), argAt, List.getElem?_eq_getElem hlt,
      List.drop_eq_getElem_cons hlt]
    rfl

theorem checkMode_cons {prog mode file : Text} {sha1s : List Text} :
    checkMode callee (prog :: mode :: file :: sha1s) = some (call callee (.check file sha1s)) := by
  have hpushed :
      (List.range' 3 ((prog :: mode :: file :: sha1s).length - 3)).mapM
      (argAt (prog :: mode :: file :: sha1s)) = some sha1s :=
      mapM_argAt (by simp only [List.length_cons]; omega)
  rw [checkMode, if_neg (by simp only [List.length_cons]; omega), hpushed]
  rfl

theorem modeOptions_ne : "-c".toList ≠ "-l".toList ∧ "-b".toList ≠ "-l".toList ∧
    "-b".toList ≠ "-c".toList := by
  decide

/-- A call, with a usage text behind it if its result is 2, is what the vector should do. -/
theorem right_of_call {prog mode : Text} {rest : List Text} {c : Call}
    (hc : ∀ c', Documented load (prog :: mode :: rest) c' ↔ c' = c) {run : Option (List Call × Int)}
    (hrun : run = some (call callee c))
    (hmodes : applypatchModes load callee (prog :: mode :: rest) = run >>= fun p =>
      if p.2 = 2 then usage (prog :: mode :: rest) p.1 else return p) :
    Right load callee (prog :: mode :: rest) := by
  rw [hrun] at hmodes
  refine ⟨[c], callee c, ?_, fun c' h => by
    rw [(hc c').mp h], fun h => absurd ((hc c).mpr rfl) (h c)⟩
  rw [hmodes]
  show (if callee c = 2 then usage (prog :: mode :: rest) [c] else some ([c], callee c)) =
    some ([c], callee c)
  split
  · rename_i htwo
    rw [htwo]
    rfl
  · rfl

theorem right_of_no_call {prog mode : Text} {rest : List Text}
    (hnone : ∀ c, ¬Documented load (prog :: mode :: rest) c) {run : Option (List Call × Int)}
    {result : Int} (hrun : run = some ([], result)) (hresult : result ≠ 0)
    (hmodes : applypatchModes load callee (prog :: mode :: rest) = run >>= fun p =>
      if p.2 = 2 then usage (prog :: mode :: rest) p.1 else return p) :
    Right load callee (prog :: mode :: rest) := by
  rw [hrun] at hmodes
  refine ⟨[], result, ?_, fun c h => absurd h (hnone c), fun _ => ⟨rfl, fun _ => hresult⟩⟩
  rw [hmodes]
  show (if result = 2 then usage (prog :: mode :: rest) [] else some ([], result)) =
    some ([], result)
  split
  · rename_i htwo
    rw [htwo]
    rfl
  · rfl

theorem applypatchModes_cons (prog mode : Text) (rest : List Text) :
    applypatchModes load callee (prog :: mode :: rest) =
      (if mode = "-l".toList then some ([], 0)
      else if mode = "-c".toList then checkMode callee (prog :: mode :: rest)
      else patchMode load callee (prog :: mode :: rest)) >>= fun p =>
        if p.2 = 2 then usage (prog :: mode :: rest) p.1 else return p := by
  have hmode : argAt (prog :: mode :: rest) 1 = some mode := rfl
  rw [applypatchModes, if_neg (by simp only [List.length_cons]; omega), hmode, Option.bind_eq_bind,
    Option.bind_some]
  split
  · rfl
  · split
    · rfl
    · rfl

theorem documented_cons_iff {prog mode : Text} {rest : List Text} {c : Call} :
    Documented load (prog :: mode :: rest) c ↔
      (mode = "-c".toList ∧ ∃ file sha1s, rest = file :: sha1s ∧ c = .check file sha1s) ∨
      (mode = "-b".toList ∧ ∃ file operands content, rest = file :: operands ∧
        load file = some content ∧ Operands load (some content) operands c) ∨
      mode ∉ modeOptions ∧ Operands load none (mode :: rest) c := by
  constructor
  · intro h
    generalize hargv : prog :: mode :: rest = argv at h
    cases h with
    | check =>
      obtain ⟨-, hmode⟩ := List.cons.inj hargv
      exact .inl ⟨(List.cons.inj hmode).1, _, _, (List.cons.inj hmode).2, rfl⟩
    | bonus hload hoperands =>
      obtain ⟨-, hmode⟩ := List.cons.inj hargv
      exact .inr
        (.inl ⟨(List.cons.inj hmode).1, _, _, _, (List.cons.inj hmode).2, hload, hoperands⟩)
    | plain hmode hoperands =>
      obtain ⟨-, hrest⟩ := List.cons.inj hargv
      obtain ⟨rfl, rfl⟩ := List.cons.inj hrest
      exact .inr (.inr ⟨hmode, hoperands⟩)
  · rintro (⟨rfl, file, sha1s, rfl, rfl⟩ | ⟨rfl, file, operands, content, rfl, hload,
      hoperands⟩ | ⟨hmode, hoperands⟩)
    · exact .check
    · exact .bonus hload hoperands
    · exact .plain hmode hoperands

theorem withoutSize_cons_iff {prog mode : Text} {rest : List Text} :
    WithoutSize load (prog :: mode :: rest) ↔
      (mode = "-b".toList ∧ ∃ file operands, rest = file :: operands ∧ (load file).isSome ∧
        operands.length = 3) ∨
      mode ∉ modeOptions ∧ rest.length = 2 := by
  constructor
  · intro h
    generalize hargv : prog :: mode :: rest = argv at h
    cases h with
    | bonus hload =>
      obtain ⟨-, hmode⟩ := List.cons.inj hargv
      exact .inl ⟨(List.cons.inj hmode).1, _, _, (List.cons.inj hmode).2, hload, rfl⟩
    | plain hmode =>
      obtain ⟨-, hrest⟩ := List.cons.inj hargv
      obtain ⟨rfl, rfl⟩ := List.cons.inj hrest
      exact .inr ⟨hmode, rfl⟩
  · rintro (⟨rfl, file, operands, rfl, hload, hthree⟩ | ⟨hmode, htwo⟩)
    · obtain ⟨src, tgt, sha1, rfl⟩ := List.length_eq_three.mp hthree
      exact .bonus hload
    · obtain ⟨tgt, sha1, rfl⟩ := List.length_eq_two.mp htwo
      exact .plain hmode

/-- A vector whose form is that of its operands is handled as documented unless there are three of
them. -/
theorem right_iff_of_operands {prog mode : Text} {rest : List Text} {p : Nat}
    (hdoc : ∀ c, Documented load (prog :: mode :: rest) c ↔ Operands load bonus operands c)
    (hargv : (prog :: mode :: rest).drop (p + 1) = operands)
    (hmodes : applypatchModes load callee (prog :: mode :: rest) =
      patchOperands load callee (prog :: mode :: rest) (operands.length + 1) p bonus >>= fun p =>
        if p.2 = 2 then usage (prog :: mode :: rest) p.1 else return p) :
    Right load callee (prog :: mode :: rest) ↔ operands.length ≠ 3 := by
  constructor
  · rintro ⟨calls, result, hrun, -⟩ hthree
    rw [hmodes, patchOperands_three hargv hthree] at hrun
    cases hrun
  · intro hthree
    rcases patchOperands_spec hargv hthree with ⟨c, hc, hrun⟩ | ⟨hnone, result, hrun, hresult⟩
    · exact right_of_call (fun c' => (hdoc c').trans (hc c')) hrun hmodes
    · exact right_of_no_call (fun c h => hnone c ((hdoc c).mp h)) hrun hresult hmodes

/-- `PatchMode` is entered with its operands behind a bonus, or with all arguments as operands. -/
theorem right_of_patchMode {prog mode : Text} {rest : List Text} (hlicense : mode ≠ "-l".toList)
    (hcheck : mode ≠ "-c".toList) :
    Right load callee (prog :: mode :: rest) ↔ ¬WithoutSize load (prog :: mode :: rest) := by
  have hmodes := @applypatchModes_cons load callee prog mode rest
  rw [if_neg hlicense, if_neg hcheck] at hmodes
  by_cases hbonus : mode = "-b".toList
  · subst hbonus
    have hoption : "-b".toList ∈ modeOptions := by decide
    cases rest with
    | nil =>
      have hnone : ∀ c, ¬Documented load [prog, "-b".toList] c := fun c h => by
        rw [documented_cons_iff] at h
        rcases h with ⟨hmode, -⟩ | ⟨-, file, operands, content, hrest, -⟩ | ⟨hmode, -⟩
        · exact hcheck hmode
        · cases hrest
        · exact hmode hoption
      refine iff_of_true (right_of_no_call hnone rfl (by decide : (2 : Int) ≠ 0) hmodes) fun h => ?_
      rw [withoutSize_cons_iff] at h
      rcases h with ⟨-, file, operands, hrest, -⟩ | ⟨hmode, -⟩
      · cases hrest
      · exact hmode hoption
    | cons file operands =>
      have hmode : patchMode load callee (prog :: "-b".toList :: file :: operands) =
          match load file with
          | none => some ([], 1)
          | some content =>
            patchOperands load callee (prog :: "-b".toList :: file :: operands)
              (operands.length + 1) 2 (some content) := by
        rw [patchMode, if_pos (by simp only [List.length_cons]; omega)]
        rfl
      rw [hmode] at hmodes
      rw [withoutSize_cons_iff]
      cases hload : load file with
      | none =>
        rw [hload] at hmodes
        have hnone : ∀ c, ¬Documented load (prog :: "-b".toList :: file :: operands) c :=
          fun c h => by
          rw [documented_cons_iff] at h
          rcases h with ⟨hmode, -⟩ | ⟨-, file', operands', content, hrest, hload', -⟩ | ⟨hmode, -⟩
          · exact hcheck hmode
          · rw [← (List.cons.inj hrest).1, hload] at hload'
            cases hload'
          · exact hmode hoption
        refine iff_of_true (right_of_no_call hnone rfl (by decide : (1 : Int) ≠ 0) hmodes) ?_
        rintro (⟨-, file', operands', hrest, hload', -⟩ | ⟨hmode, -⟩)
        · rw [← (List.cons.inj hrest).1, hload] at hload'
          cases hload'
        · exact hmode hoption
      | some content =>
        rw [hload] at hmodes
        have hdoc : ∀ c, Documented load (prog :: "-b".toList :: file :: operands) c ↔
            Operands load (some content) operands c := fun c => by
          rw [documented_cons_iff]
          constructor
          · rintro (⟨hmode, -⟩ | ⟨-, file', operands', content', hrest, hload',
              hoperands⟩ | ⟨hmode, -⟩)
            · exact absurd hmode hcheck
            · obtain ⟨rfl, rfl⟩ := List.cons.inj hrest
              rw [← Option.some.inj (hload'.symm.trans hload)]
              exact hoperands
            · exact absurd hoption hmode
          · exact fun h => .inr (.inl ⟨rfl, file, operands, content, rfl, hload, h⟩)
        rw [right_iff_of_operands hdoc rfl hmodes]
        refine not_congr ⟨fun h => .inl ⟨rfl, file, operands, rfl, by rw [hload]; rfl, h⟩, ?_⟩
        rintro (⟨-, file', operands', hrest, -, hthree⟩ | ⟨hmode, -⟩)
        · rw [(List.cons.inj hrest).2]
          exact hthree
        · exact absurd hoption hmode
  · have hoption : mode ∉ modeOptions := by
      simp only [modeOptions, List.mem_cons, List.not_mem_nil, or_false, not_or]
      exact ⟨hlicense, hcheck, hbonus⟩
    have hmode : patchMode load callee (prog :: mode :: rest) =
        patchOperands load callee (prog :: mode :: rest) ((mode :: rest).length + 1) 0 none := by
      rw [patchMode]
      split
      · show (if mode = "-b".toList then _ else _) = _
        rw [if_neg hbonus]
        rfl
      · rfl
    rw [hmode] at hmodes
    have hdoc : ∀ c, Documented load (prog :: mode :: rest) c ↔
        Operands load none (mode :: rest) c := fun c => by
      rw [documented_cons_iff]
      constructor
      · rintro (⟨hmode, -⟩ | ⟨hmode, -⟩ | ⟨-, hoperands⟩)
        · exact absurd hmode hcheck
        · exact absurd hmode hbonus
        · exact hoperands
      · exact fun h => .inr (.inr ⟨hoption, h⟩)
    rw [right_iff_of_operands hdoc rfl hmodes, withoutSize_cons_iff, List.length_cons]
    refine not_congr ⟨fun h => .inr ⟨hoption, by omega⟩, ?_⟩
    rintro (⟨hmode, -⟩ | ⟨-, htwo⟩)
    · exact absurd hmode hbonus
    · omega

end

/-- A vector is handled as documented exactly if it is not empty and not without its target size
only. -/
theorem applypatchModes_right_iff (argv : List Text) : Right load callee argv ↔
    argv ≠ [] ∧ ¬WithoutSize load argv := by
  obtain ⟨hcl, hbl, hbc⟩ := modeOptions_ne
  match argv with
  | [] =>
    refine ⟨?_, fun h => absurd rfl h.1⟩
    rintro ⟨calls, result, h, -⟩
    cases h
  | [prog] =>
    refine iff_of_true ⟨[], 2, rfl, fun c h => ?_, fun _ => ⟨rfl, fun _ => by decide⟩⟩
      ⟨List.cons_ne_nil _ _, fun h => ?_⟩
    · cases h
    · cases h
  | prog :: mode :: rest =>
    rw [and_iff_right (List.cons_ne_nil _ _)]
    by_cases hlicense : mode = "-l".toList
    · subst hlicense
      have hoption : "-l".toList ∈ modeOptions := by decide
      have hnone : ∀ c, ¬Documented load (prog :: "-l".toList :: rest) c := fun c h => by
        rw [documented_cons_iff] at h
        rcases h with ⟨hmode, -⟩ | ⟨hmode, -⟩ | ⟨hmode, -⟩
        · exact hcl hmode.symm
        · exact hbl hmode.symm
        · exact hmode hoption
      refine iff_of_true ⟨[], 0, rfl, fun c h => absurd h (hnone c), fun _ =>
        ⟨rfl, fun h => absurd rfl h⟩⟩ fun h => ?_
      rw [withoutSize_cons_iff] at h
      rcases h with ⟨hmode, -⟩ | ⟨hmode, -⟩
      · exact hbl hmode.symm
      · exact hmode hoption
    by_cases hcheck : mode = "-c".toList
    · subst hcheck
      have hoption : "-c".toList ∈ modeOptions := by decide
      have hmodes := @applypatchModes_cons load callee prog "-c".toList rest
      rw [if_neg hcl, if_pos rfl] at hmodes
      refine iff_of_true ?_ fun h => ?_
      · cases rest with
        | nil =>
          refine right_of_no_call (fun c h => ?_) rfl (by decide : (2 : Int) ≠ 0) hmodes
          rw [documented_cons_iff] at h
          rcases h with ⟨-, file, sha1s, hrest, -⟩ | ⟨hmode, -⟩ | ⟨hmode, -⟩
          · cases hrest
          · exact hbc hmode.symm
          · exact hmode hoption
        | cons file sha1s =>
          refine right_of_call (c := .check file sha1s) (fun c => ?_) checkMode_cons hmodes
          rw [documented_cons_iff]
          constructor
          · rintro (⟨-, file', sha1s', hrest, rfl⟩ | ⟨hmode, -⟩ | ⟨hmode, -⟩)
            · obtain ⟨rfl, rfl⟩ := List.cons.inj hrest
              rfl
            · exact absurd hmode.symm hbc
            · exact absurd hoption hmode
          · exact fun h => .inl ⟨rfl, file, sha1s, rfl, h⟩
      · rw [withoutSize_cons_iff] at h
        rcases h with ⟨hmode, -⟩ | ⟨hmode, -⟩
        · exact hbc hmode.symm
        · exact hmode hoption
    exact right_of_patchMode hlicense hcheck

/-- `applypatch source target sha1`. -/
theorem not_applypatchModes_right :
    ¬∀ (load : Text → Option (List UInt8)) (callee : Call → Int) (argv : List Text),
    Right load callee argv := by
  intro h
  obtain ⟨calls, result, hrun, -⟩ := h (fun _ => none) (fun _ => 0)
    ["applypatch".toList, "source".toList, "target".toList, "sha1".toList]
  have hnone : applypatchModes (fun _ => none) (fun _ => 0)
      ["applypatch".toList, "source".toList, "target".toList, "sha1".toList] = none := by decide
  rw [hnone] at hrun
  cases hrun

end BootableRecovery.ApplyPatch.Modes
