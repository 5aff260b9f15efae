import BootableRecovery.Para.Tokenizer

/-!
# What a failed read leaves

`ReadFromStream` puts the variables into the map while it goes over the block, before it looks at
the second signature and at the checksum; and it keeps what the map had before. `main` of
`gemian_setup.cpp` goes on after a failed read, and writes the map back when another layout or time
zone was chosen.
-/

namespace BootableRecovery.Para

/-! ## The result of a read -/

/-- The second signature of a block. -/
def SignedTwice (block : List UInt8) : Prop :=
  (block.drop ParaEnvBlockSig2Pos).take signature.length = signature

/-- The checksum of a block. -/
def Summed (block : List UInt8) : Prop :=
  (block.drop (ParaEnvBlockSize - 4)).take 4 =
    leBytes 4 (accumulate ((block.take ParaEnvBlockSig2Pos).drop signature.length) % 2 ^ 32)

instance : DecidablePred Signed := fun _ => inferInstanceAs (Decidable (_ = _))
instance : DecidablePred SignedTwice := fun _ => inferInstanceAs (Decidable (_ = _))
instance : DecidablePred Summed := fun _ => inferInstanceAs (Decidable (_ = _))
instance : DecidablePred EndsWithNull :=
  fun l => inferInstanceAs (Decidable (∀ b ∈ l.getLast?, b = ParaEnvNullChar))

/-- The result of the checks after the loop. -/
def lateCheck (block : List UInt8) : ParaVarErrors :=
  if ¬SignedTwice block then .paraVarErrorBadSig
  else if ¬Summed block then .paraVarErrorBadCheckSum
  else .paraVarErrorNone

theorem lateCheck_eq_none_iff {block : List UInt8} :
    lateCheck block = .paraVarErrorNone ↔ SignedTwice block ∧ Summed block := by
  rw [lateCheck]
  split
  · rename_i h
    exact iff_of_false (by simp) fun hs => h hs.1
  · rename_i h
    rw [Decidable.not_not] at h
    split
    · rename_i hsum
      exact iff_of_false (by simp) fun hs => hsum hs.2
    · rename_i hsum
      exact iff_of_true rfl ⟨h, Decidable.not_not.mp hsum⟩

/-- The block of a device. -/
def blockOf (dev : BlockDevice) : List UInt8 := dev.read ParaEnvBlockRWStart ParaEnvBlockSize

/-- What `ReadFromStream` finds behind the first signature. -/
def foundIn (dev : BlockDevice) : List (List UInt8 × List UInt8) :=
  found ((blockOf dev).drop signature.length)

/-- The loop is reached, and it ends without an exception. -/
structure Reached (dev : BlockDevice) (size : Nat) : Prop where
  large : ParaEnvBlockRWStart + ParaEnvBlockSize ≤ size
  signed : Signed (blockOf dev)
  terminated : EndsWithNull ((blockOf dev).drop signature.length)

theorem length_blockOf (dev : BlockDevice) : (blockOf dev).length = 0x4000 :=
  BlockDevice.length_read

theorem readVariables_blockOf (dev : BlockDevice) (vars : Variables) :
    readVariables (blockOf dev).length ((blockOf dev).drop signature.length) vars =
      if EndsWithNull ((blockOf dev).drop signature.length)
      then some ((foundIn dev).foldl insertVariable vars)
      else none := by
  have hlen := length_blockOf dev
  have hsig : signature.length = 6 := rfl
  rcases Decidable.em (EndsWithNull ((blockOf dev).drop signature.length)) with hend | hend
  · rw [if_pos hend]
    exact readVariables_eq hend (by rw [List.length_drop]; omega) vars
  · obtain ⟨spans, hspans, hiff⟩ := @exists_tokenizer (blockOf dev) (by omega) signature.length
      (blockOf dev).length (by omega)
    rw [if_neg hend, readVariables_eq_tokenizer (by omega) hspans, if_neg (mt hiff.mp hend)]

/-- After the loop the map has all that was found, whatever the checks say then. -/
theorem Reached.result (h : Reached dev size) (vars : Variables) :
    readFromStream vars dev size =
      some (lateCheck (blockOf dev), (foundIn dev).foldl insertVariable vars) := by
  rw [readFromStream, if_neg (Nat.not_lt.mpr h.large)]
  refine (if_neg (not_not_intro h.signed)).trans ?_
  rw [← blockOf, readVariables_blockOf, if_pos h.terminated, Option.map_some, lateCheck]
  refine congrArg some ?_
  rcases Decidable.em (SignedTwice (blockOf dev)) with htwice | htwice
  · rw [if_neg (not_not_intro htwice)]
    refine (if_neg (not_not_intro htwice)).trans ?_
    rcases Decidable.em (Summed (blockOf dev)) with hsum | hsum
    · rw [if_neg (not_not_intro hsum)]
      exact if_neg (not_not_intro hsum)
    · rw [if_pos hsum]
      exact if_pos hsum
  · rw [if_pos htwice]
    exact if_pos htwice

theorem readFromStream_of_not_reached (h : ¬Reached dev size) (vars : Variables) :
    readFromStream vars dev size = none ∨
      ∃ error, error ≠ .paraVarErrorNone ∧ readFromStream vars dev size = some (error, vars) := by
  rcases Nat.lt_or_ge size (ParaEnvBlockRWStart + ParaEnvBlockSize) with hsize | hsize
  · exact .inr ⟨.paraVarErrorReadBlock, by decide, if_pos hsize⟩
  rw [readFromStream, if_neg (Nat.not_lt.mpr hsize)]
  rcases Decidable.em (Signed (blockOf dev)) with hsigned | hsigned
  · have hend : ¬EndsWithNull ((blockOf dev).drop signature.length) :=
      fun hend => h ⟨hsize, hsigned, hend⟩
    refine .inl ((if_neg (not_not_intro hsigned)).trans ?_)
    rw [← blockOf, readVariables_blockOf, if_neg hend, Option.map_none]
  · exact .inr ⟨.paraVarErrorBadSig, by decide, if_pos hsigned⟩

/-- A block that passes the checks ends with a NUL: the sum of its characters is small. -/
theorem endsWithNull_of_summed (h : Summed (blockOf dev)) :
    EndsWithNull ((blockOf dev).drop signature.length) := by
  have hlen := length_blockOf dev
  have hlt :
      accumulate (((blockOf dev).take ParaEnvBlockSig2Pos).drop signature.length) < 2 ^ 24 := by
    have := accumulate_le (((blockOf dev).take ParaEnvBlockSig2Pos).drop signature.length)
    have hpos : ParaEnvBlockSig2Pos = 0x3ff4 := rfl
    rw [List.length_drop, List.length_take] at this
    omega
  have hlast : (blockOf dev).drop (ParaEnvBlockSize - 4) = leBytes 4 (accumulate
      (((blockOf dev).take ParaEnvBlockSig2Pos).drop signature.length) % 2 ^ 32) := by
    rw [← h, List.take_of_length_le]
    rw [List.length_drop, hlen]
    decide
  have hend := endsWithNull_leBytes (n := accumulate (((blockOf dev).take ParaEnvBlockSig2Pos).drop
    signature.length) % 2 ^ 32) (by omega) []
  have htail (n : Nat) (hn : n < 0x4000) :
      ((blockOf dev).drop n).getLast? = (blockOf dev).getLast? := by
    rw [List.getLast?_drop, if_neg (by omega)]
  rw [List.nil_append, ← hlast, EndsWithNull, htail _ (by decide)] at hend
  rwa [EndsWithNull, htail _ (by decide)]

/-! ## One read -/

/-- The variables of a block are those between its signatures; of two values for a name it has the
first. -/
def blockVariables (dev : BlockDevice) : List (List UInt8 × List UInt8) :=
  found (((blockOf dev).take ParaEnvBlockSig2Pos).drop signature.length)

/-- The value of a name in some variables. -/
def valueOf (l : List (List UInt8 × List UInt8)) (name : List UInt8) : Option (List UInt8) :=
  (l.find? (·.1 = name)).map Prod.snd

/-- A read that returns an error leaves the map as it was, and a read that returns none leaves the
variables of the block. -/
def AllOrNothing (vars : Variables) (dev : BlockDevice) (size : Nat) : Prop :=
  ∀ error vars', readFromStream vars dev size = some (error, vars') →
    (error ≠ .paraVarErrorNone → vars' = vars) ∧
      (error = .paraVarErrorNone →
        ∀ name : List UInt8, vars'[name]? = valueOf (blockVariables dev) name)

/-- Both signatures and the checksum of a block are right. -/
def Accepted (dev : BlockDevice) : Prop :=
  Signed (blockOf dev) ∧ SignedTwice (blockOf dev) ∧ Summed (blockOf dev)

/-- What `ReadFromStream` would change shows in no variable of the map. For a block that fails a
check behind the loop, each of its names is in the map already. For a block that passes them, each
variable that the map has is one of the block, and for other names what stands from the second
signature on changes nothing. -/
structure Harmless (vars : Variables) (dev : BlockDevice) (size : Nat) : Prop where
  failed : Reached dev size → ¬Accepted dev → ∀ x ∈ foundIn dev, x.1 ∈ vars
  kept : Reached dev size → Accepted dev → ∀ name value : List UInt8, vars[name]? = some value →
    valueOf (blockVariables dev) name = some value
  rest : Reached dev size → Accepted dev → ∀ name : List UInt8, name ∉ vars →
    valueOf (foundIn dev) name = valueOf (blockVariables dev) name

theorem Reached.accepted_iff (h : Reached dev size) :
    Accepted dev ↔ lateCheck (blockOf dev) = .paraVarErrorNone := by
  rw [lateCheck_eq_none_iff]
  exact and_iff_right h.signed

theorem allOrNothing_iff (vars : Variables) (dev : BlockDevice) (size : Nat) :
    AllOrNothing vars dev size ↔ Harmless vars dev size := by
  rcases Classical.em (Reached dev size) with hreach | hreach
  · have hresult := hreach.result vars
    rcases Classical.em (Accepted dev) with hacc | hacc
    · rw [hreach.accepted_iff.mp hacc] at hresult
      constructor
      · intro h
        have hvars := (h _ _ hresult).2 rfl
        simp only [getElem?_foldl_insertVariable] at hvars
        refine ⟨fun _ hn => absurd hacc hn, fun _ _ name value hv => ?_, fun _ _ name hn => ?_⟩
        · rw [← hvars, hv, Option.some_or]
        · rw [← hvars, Std.ExtTreeMap.getElem?_eq_none hn, Option.none_or, valueOf]
      · rintro ⟨-, hkept, hrest⟩ error vars' hread
        cases hresult.symm.trans hread
        refine ⟨fun h => absurd rfl h, fun _ name => ?_⟩
        rw [getElem?_foldl_insertVariable]
        cases hv : vars[name]? with
        | none =>
          rw [Option.none_or, ← hrest hreach hacc name (by simpa using hv), valueOf]
        | some value =>
          rw [Option.some_or, hkept hreach hacc name value hv]
    · have herror := mt hreach.accepted_iff.mpr hacc
      constructor
      · intro h
        have hsame := (h _ _ hresult).1 herror
        exact ⟨fun _ _ => foldl_insertVariable_eq_self.mp hsame, fun _ ha => absurd ha hacc,
          fun _ ha => absurd ha hacc⟩
      · rintro ⟨hfailed, -, -⟩ error vars' hread
        obtain ⟨rfl, rfl⟩ := Prod.mk.inj (Option.some.inj (hresult.symm.trans hread))
        exact ⟨fun _ => foldl_insertVariable_eq_self.mpr (hfailed hreach hacc), fun h =>
          absurd h herror⟩
  · refine iff_of_true ?_ ⟨fun h => absurd h hreach, fun h => absurd h hreach, fun h =>
      absurd h hreach⟩
    rintro error vars' hread
    rcases readFromStream_of_not_reached hreach vars with hnone | ⟨error', hne, herror⟩
    · cases hnone.symm.trans hread
    · cases herror.symm.trans hread
      exact ⟨fun _ => rfl, fun h => absurd h hne⟩

/-! ## The caller -/

def chars (s : String) : List UInt8 := s.toList.map fun c => .ofNat c.toNat

/-- The variables that `main` of `gemian_setup.cpp` uses. -/
inductive Setting
  | keyboardLayout
  | timeZone
  deriving DecidableEq

namespace Setting

def name : Setting → List UInt8
  | keyboardLayout => chars "keyboard_layout"
  | timeZone => chars "time_zone"

/-- What a variable is set to if it is empty. -/
def initial : Setting → List UInt8
  | keyboardLayout => chars "us"
  | timeZone => chars "Etc/UTC"

theorem name_inj {s t : Setting} : s.name = t.name ↔ s = t := by
  cases s <;> cases t <;> decide

end Setting

/-- A variable that is not there is created empty by `operator[]`. -/
def setDefault (vars : Variables) (s : Setting) : Variables :=
  if vars.getD s.name [] = [] then vars.insert s.name s.initial else vars

def setDefaults (vars : Variables) : Variables :=
  setDefault (setDefault vars .keyboardLayout) .timeZone

/-- A value that is chosen in a menu. -/
structure Choice where
  setting : Setting
  value : List UInt8

/-- `setup_menu`, where these choices are made. -/
def setupMenu (vars : Variables) (choices : List Choice) : Variables :=
  choices.foldl (fun vars c => vars.insert c.setting.name c.value) vars

/-- What `main` does: the result of the read, the map that is written back, and the device then. -/
structure Run where
  error : ParaVarErrors
  written : Option Variables
  device : BlockDevice

/-- From the read in `main` on. `opens` says that the file can be opened for writing; without a
result there was an exception. -/
def gemianSetupMain (dev : BlockDevice) (size : Nat) (choices : List Choice) (opens : Bool) :
    Option Run :=
  (readFromStream ∅ dev size).map fun r =>
    let vars := setDefaults r.2
    let chosen := setupMenu vars choices
    let changed :=
      chosen.getD Setting.keyboardLayout.name [] ≠ vars.getD Setting.keyboardLayout.name [] ∨
      chosen.getD Setting.timeZone.name [] ≠ vars.getD Setting.timeZone.name []
    if changed ∧ opens then ⟨r.1, some chosen, writeToStream chosen dev⟩ else ⟨r.1, none, dev⟩

/-- The last choice of a variable. -/
def lastChoice (choices : List Choice) (s : Setting) : Option (List UInt8) :=
  (choices.reverse.find? (·.setting = s)).map Choice.value

theorem getElem?_setupMenu (vars : Variables) (choices : List Choice) (s : Setting) :
    (setupMenu vars choices)[s.name]? = (lastChoice choices s).or vars[s.name]? := by
  rw [setupMenu, ← List.foldr_reverse, lastChoice]
  induction choices.reverse with
  | nil => simp
  | cons c l ih =>
    rw [List.foldr_cons, Std.ExtTreeMap.getElem?_insert, ih, List.find?_cons]
    rcases Decidable.em (c.setting = s) with rfl | hne
    · simp
    · simp [hne, Setting.name_inj]

theorem getElem?_setupMenu_of_ne (vars : Variables) (choices : List Choice) {name : List UInt8}
    (h : ∀ s : Setting, name ≠ s.name) : (setupMenu vars choices)[name]? = vars[name]? := by
  rw [setupMenu]
  induction choices generalizing vars with
  | nil => rfl
  | cons c l ih =>
    rw [List.foldl_cons, ih, Std.ExtTreeMap.getElem?_insert, if_neg]
    simpa using (h c.setting).symm

/-- The value of a variable after the defaults are set, from what it was. -/
def orInitial (s : Setting) (value : Option (List UInt8)) : List UInt8 :=
  if value.getD [] = [] then s.initial else value.getD []

theorem getElem?_setDefault (vars : Variables) (s : Setting) (name : List UInt8) :
    (setDefault vars s)[name]? = if name = s.name then some (orInitial s vars[s.name]?)
    else vars[name]? := by
  rw [setDefault, Std.ExtTreeMap.getD_eq_getD_getElem?, orInitial]
  rcases Decidable.em (name = s.name) with rfl | hne
  · rw [if_pos rfl]
    split
    · simp
    · rename_i h
      cases hv : vars[s.name]? with
      | none =>
        rw [hv] at h
        exact absurd rfl h
      | some value => rfl
  · rw [if_neg hne]
    split
    · rw [Std.ExtTreeMap.getElem?_insert, if_neg]
      simpa using Ne.symm hne
    · rfl

theorem getElem?_setDefaults (vars : Variables) (s : Setting) :
    (setDefaults vars)[s.name]? = some (orInitial s vars[s.name]?) := by
  rw [setDefaults]
  cases s with
  | keyboardLayout =>
    rw [getElem?_setDefault, if_neg (by rw [Setting.name_inj]; decide), getElem?_setDefault,
      if_pos rfl]
  | timeZone =>
    rw [getElem?_setDefault, if_pos rfl, getElem?_setDefault,
      if_neg (by rw [Setting.name_inj]; decide)]

theorem getElem?_setDefaults_of_ne (vars : Variables) {name : List UInt8}
    (h : ∀ s : Setting, name ≠ s.name) : (setDefaults vars)[name]? = vars[name]? := by
  rw [setDefaults, getElem?_setDefault, if_neg (h _), getElem?_setDefault, if_neg (h _)]

/-- A choice differs from what was loaded. -/
def Changed (l : List (List UInt8 × List UInt8)) (choices : List Choice) : Prop :=
  ∃ s value, lastChoice choices s = some value ∧ value ≠ orInitial s (valueOf l s.name)

/-- Only chosen variables and defaults are in the map in the end. -/
structure Overridden (l : List (List UInt8 × List UInt8)) (choices : List Choice) : Prop where
  settings : ∀ s, lastChoice choices s = none → orInitial s (valueOf l s.name) = s.initial
  others : ∀ x ∈ l, ∃ s : Setting, x.1 = s.name

section
variable {vars : Variables} {l : List (List UInt8 × List UInt8)}
    (hvars : vars = l.foldl insertVariable ∅)
include hvars

theorem getElem?_found (name : List UInt8) : vars[name]? = valueOf l name := by
  rw [hvars, getElem?_foldl_insertVariable, Std.ExtTreeMap.getElem?_empty, Option.none_or, valueOf]

theorem changed_iff (choices : List Choice) :
    ((setupMenu (setDefaults vars) choices).getD Setting.keyboardLayout.name [] ≠
        (setDefaults vars).getD Setting.keyboardLayout.name [] ∨
      (setupMenu (setDefaults vars) choices).getD Setting.timeZone.name [] ≠
        (setDefaults vars).getD Setting.timeZone.name []) ↔ Changed l choices := by
  have hsetting (s : Setting) : (setupMenu (setDefaults vars) choices).getD s.name [] ≠
      (setDefaults vars).getD s.name [] ↔
        ∃ value, lastChoice choices s = some value ∧ value ≠ orInitial s (valueOf l s.name) := by
    rw [Std.ExtTreeMap.getD_eq_getD_getElem?, Std.ExtTreeMap.getD_eq_getD_getElem?,
      getElem?_setupMenu, getElem?_setDefaults, getElem?_found hvars]
    cases lastChoice choices s with
    | none => simp
    | some value => simp
  rw [hsetting, hsetting, Changed]
  constructor
  · rintro (h | h)
    · exact ⟨_, h⟩
    · exact ⟨_, h⟩
  · rintro ⟨s, h⟩
    cases s with
    | keyboardLayout => exact .inl h
    | timeZone => exact .inr h

theorem overridden_iff (choices : List Choice) :
    setupMenu (setDefaults vars) choices = setupMenu (setDefaults ∅) choices ↔
    Overridden l choices := by
  have hinitial (s : Setting) : orInitial s (∅ : Variables)[s.name]? = s.initial := by
    rw [Std.ExtTreeMap.getElem?_empty]
    exact if_pos rfl
  constructor
  · intro h
    refine ⟨fun s hs => ?_, fun x hx => by_contra fun hne => ?_⟩
    · have hname := congrArg (·[s.name]?) h
      simp only [getElem?_setupMenu, hs, Option.none_or, getElem?_setDefaults, Option.some.injEq]
        at hname
      rw [← getElem?_found hvars, hname, hinitial]
    · rw [not_exists] at hne
      have hname := congrArg (·[x.1]?) h
      simp only [getElem?_setupMenu_of_ne _ _ hne, getElem?_setDefaults_of_ne _ hne,
        getElem?_found hvars, Std.ExtTreeMap.getElem?_empty, valueOf, Option.map_eq_none_iff]
        at hname
      exact List.find?_eq_none.mp hname x hx (decide_eq_true rfl)
  · rintro ⟨hsettings, hothers⟩
    apply Std.ExtTreeMap.ext_getElem?
    intro name
    rcases Classical.em (∃ s : Setting, name = s.name) with ⟨s, rfl⟩ | hne
    · rw [getElem?_setupMenu, getElem?_setupMenu, getElem?_setDefaults, getElem?_setDefaults,
        hinitial]
      cases hs : lastChoice choices s with
      | none => rw [getElem?_found hvars, hsettings s hs]
      | some value => rfl
    · have hout : valueOf l name = none := by
        rw [valueOf, Option.map_eq_none_iff, List.find?_eq_none]
        intro x hx
        obtain ⟨s, hs⟩ := hothers x hx
        simpa using fun heq : x.1 = name => hne ⟨s, heq ▸ hs⟩
      rw [not_exists] at hne
      rw [getElem?_setupMenu_of_ne _ _ hne, getElem?_setupMenu_of_ne _ _ hne,
        getElem?_setDefaults_of_ne _ hne, getElem?_setDefaults_of_ne _ hne, getElem?_found hvars,
        hout, Std.ExtTreeMap.getElem?_empty]

end

/-- What is written back after a failed read are the defaults and what was chosen. -/
def OnlyChosen (dev : BlockDevice) (size : Nat) (choices : List Choice) (opens : Bool) : Prop :=
  ∀ run, gemianSetupMain dev size choices opens = some run → run.error ≠ .paraVarErrorNone →
    ∀ vars, run.written = some vars → vars = setupMenu (setDefaults ∅) choices

theorem onlyChosen_of_read
    (hread : readFromStream ∅ dev size = some (error, l.foldl insertVariable ∅))
    (choices : List Choice) (opens : Bool) : OnlyChosen dev size choices opens ↔
      (error ≠ .paraVarErrorNone → opens → Changed l choices → Overridden l choices) := by
  have hchanged := @changed_iff (l.foldl insertVariable ∅) l rfl choices
  have hover := @overridden_iff (l.foldl insertVariable ∅) l rfl choices
  rw [OnlyChosen, gemianSetupMain, hread, Option.map_some]
  generalize setDefaults (l.foldl insertVariable ∅) = vars at hchanged hover ⊢
  generalize setDefaults ∅ = blank at hover ⊢
  dsimp only
  constructor
  · intro h hne hopens hch
    rw [if_pos ⟨hchanged.mpr hch, hopens⟩] at h
    exact hover.mp (h _ rfl hne _ rfl)
  · intro h run hrun hne written hwritten
    split at hrun
    · rename_i hif
      cases hrun
      cases hwritten
      exact hover.mpr (h hne hif.2 (hchanged.mp hif.1))
    · cases hrun
      cases hwritten

theorem onlyChosen_iff (dev : BlockDevice) (size : Nat) (choices : List Choice) (opens : Bool) :
    OnlyChosen dev size choices opens ↔
      (Reached dev size → ¬Accepted dev → opens → Changed (foundIn dev) choices →
        Overridden (foundIn dev) choices) := by
  rcases Classical.em (Reached dev size) with hreach | hreach
  · rw [onlyChosen_of_read (hreach.result ∅), hreach.accepted_iff]
    exact ⟨fun h _ => h, fun h => h hreach⟩
  · refine iff_of_true ?_ fun h => absurd h hreach
    rcases readFromStream_of_not_reached hreach ∅ with hnone | ⟨error, hne, herror⟩
    · rintro run hrun
      rw [gemianSetupMain, hnone] at hrun
      cases hrun
    · refine (onlyChosen_of_read (l := []) herror choices opens).mpr fun _ _ _ =>
        ⟨fun s _ => if_pos rfl, ?_⟩
      simp

/-- Every read of the para partition, and what `main` writes back after it. -/
theorem read_all_or_nothing_iff (dev : BlockDevice) (size : Nat) :
    (∀ vars, AllOrNothing vars dev size ↔ Harmless vars dev size) ∧
      ∀ choices opens, OnlyChosen dev size choices opens ↔
        (Reached dev size → ¬Accepted dev → opens → Changed (foundIn dev) choices →
          Overridden (foundIn dev) choices) :=
  ⟨fun vars => allOrNothing_iff vars dev size, onlyChosen_iff dev size⟩

/-- `a=b` is written where a byte of something longer stays. -/
theorem not_read_all_or_nothing : ¬∀ dev size, (∀ vars, AllOrNothing vars dev size) ∧
    ∀ choices opens, OnlyChosen dev size choices opens := by
  intro hall
  obtain ⟨vars, hvars⟩ : ∃ vars : Variables, vars = (∅ : Variables).insert [97] [98] := ⟨_, rfl⟩
  have hfits : Fits vars := by
    unfold Fits
    rw [hvars]
    decide
  have hnamed : WellNamed vars := by
    unfold WellNamed
    rw [hvars]
    decide
  have hlist : vars.toList = [([97], [98])] := by
    rw [hvars]
    decide
  obtain ⟨dev, hdev⟩ : ∃ dev : BlockDevice, dev = fun i => if i = ParaEnvBlockRWStart + 100 then 1
      else 0 := ⟨_, rfl⟩
  have hbefore : dev.read (ParaEnvBlockRWStart + 6) 2 = List.replicate 2 ParaEnvNullChar := by
    rw [hdev]
    decide
  have hafter : accumulate (dev.read (ParaEnvBlockRWStart + 8 + (encode vars.toList).length)
      (ParaEnvBlockSig2Pos - 8 - (encode vars.toList).length)) ≠ 0 := by
    rw [hlist, Ne, accumulate_eq_zero]
    intro h
    have := h _ (BlockDevice.mem_read.mpr ⟨ParaEnvBlockRWStart + 100, by decide, by decide, rfl⟩)
    rw [hdev] at this
    exact absurd this (by decide)
  have hread := @readFromStream_writeToStream _ 0x24000 hfits (by decide) _ _ _ _ hbefore rfl rfl
  rw [accumulate_replicate, Nat.zero_add, if_neg hafter, List.append_assoc, found_nulls,
    List.append_assoc, found_encode hnamed, hlist] at hread
  have hsame := ((hall _ _).1 ∅ _ _ hread).1 (by decide)
  have hmem := foldl_insertVariable_eq_self.mp hsame ([97], [98]) (by simp)
  exact Std.ExtTreeMap.not_mem_empty hmem

end BootableRecovery.Para
