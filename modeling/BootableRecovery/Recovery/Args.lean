import BootableRecovery.BootloaderMessage.Message
import Mathlib.Algebra.Order.BigOperators.Group.List

/-!
# The arguments of recovery

`get_args` of `recovery.cpp` takes its arguments from the bootloader message, from the Ubuntu
command file or from `COMMAND_FILE`, and writes them back into the message, so that the device boots
into recovery with the same arguments until the work is done. The message has room for 767
characters, and what does not fit is cut off.
-/

namespace BootableRecovery

namespace Recovery

open BootloaderMessage

def UBUNTU_ARGUMENT : Text := "--update-ubuntu".toList

/-- What one boot into recovery finds: the misc partition, the outcome of the system calls on it (as
in `Misc`), whether `UBUNTU_COMMAND_FILE` can be opened, whether there is a cache partition, and the
content of `COMMAND_FILE`, if it can be read. -/
structure Boot where
  misc : Misc
  readOk : Bool
  updateReadOk : Bool
  written : Option Nat
  ubuntuCommandFile : Bool
  hasCache : Bool
  commandFile : Option Text

/-- The lines that are arguments: empty and NUL-filled ones are skipped. -/
def arguments (tokens : List Text) : List Text :=
  tokens.filter fun t => t ≠ [] ∧ t.head? ≠ some '\x00'

/-- The arguments in the bootloader message. -/
def bootArguments (boot : BootloaderMessage) : List Text :=
  let bootRecovery := cstr (boot.recovery.toList.set 767 '\x00')
  match bootRecovery.splitOn '\n' with
  | [] => []
  | token :: tokens => if token = "recovery".toList then arguments tokens else []

/-- `get_args`: the arguments, whether the message was updated, and the misc partition after it.
`none` is the failed `CHECK` for `argc`. -/
def getArgs (b : Boot) (argv : List Text) : Option (List Text × Bool × Misc) :=
  if argv.length > 0 then
    let boot := (b.misc.readBootloaderMessage b.readOk).getD .zero
    let args := if argv.length = 1 then argv ++ bootArguments boot else argv
    let args := if args.length ≤ 1 ∧ b.ubuntuCommandFile then args ++ [UBUNTU_ARGUMENT] else args
    let args := if args.length = 1 ∧ b.hasCache then
      args ++ (b.commandFile.map fun content => arguments (content.splitOn '\n')).getD [] else args
    some (args, b.misc.updateBootloaderMessage (args.drop 1) b.updateReadOk b.written)
  else none

/-! ## Lines of a message -/

/-- The pieces of a text, each with its separator, are one character longer than the text. -/
theorem sum_length_splitOn (a : Char) (s : Text) :
    ((s.splitOn a).map (·.length + 1)).sum = s.length + 1 := by
  induction s with
  | nil => simp
  | cons c s ih =>
    obtain ⟨r, rs, hr⟩ := List.exists_cons_of_ne_nil (List.splitOn_ne_nil a s)
    rw [List.splitOn_cons_eq_if_modifyHead]
    rw [hr] at ih ⊢
    simp only [List.map_cons, List.sum_cons] at ih
    split <;> simp only [List.modifyHead_cons, List.map_cons, List.sum_cons, List.length_cons,
      List.length_nil] <;> omega

theorem encode_eq (options : List Text) :
    encode options = "recovery".toList ++ '\n' :: options.flatMap (· ++ ['\n']) := by
  have hname : "recovery\n".toList = "recovery".toList ++ ['\n'] := by decide
  unfold encode
  simp [hname]

theorem length_encode (options : List Text) :
    (encode options).length = 9 + (options.map (·.length + 1)).sum := by
  have h9 : "recovery\n".toList.length = 9 := by decide
  unfold encode
  simp only [List.length_append, List.length_flatMap, h9, List.length_singleton]

theorem not_mem_encode {options : List Text} (h : ∀ s ∈ options, '\x00' ∉ s) :
    '\x00' ∉ encode options := by
  intro hm
  rcases List.mem_append.mp hm with hm | hm
  · revert hm
    decide
  · obtain ⟨s, hs, hm⟩ := List.mem_flatMap.mp hm
    rcases List.mem_append.mp hm with hm | hm
    · exact h s hs hm
    · revert hm
      decide

theorem arguments_eq_self {tokens : List Text} (hne : ∀ s ∈ tokens, s ≠ [])
    (hnul : ∀ s ∈ tokens, '\x00' ∉ s) : arguments tokens = tokens := by
  apply List.filter_eq_self.mpr
  intro s hs
  have hhead : s.head? ≠ some '\x00' := fun h => hnul s hs (List.mem_of_head? h)
  simp [hne s hs, hhead]

theorem sum_length_bootArguments (boot : BootloaderMessage) :
    ((bootArguments boot).map (·.length + 1)).sum ≤ 759 := by
  have hlen : (cstr (boot.recovery.toList.set 767 '\x00')).length ≤ 767 := by
    have hat : (boot.recovery.toList.set 767 '\x00').length = 768 := by simp
    refine Nat.le_of_not_lt fun hlt => ?_
    -- a C string of 768 characters would have no NUL at the end of the field
    have hall : cstr (boot.recovery.toList.set 767 '\x00') = boot.recovery.toList.set 767 '\x00' :=
      (List.takeWhile_prefix _).eq_of_length_le (by rw [hat]; exact hlt)
    have hmem : '\x00' ∈ cstr (boot.recovery.toList.set 767 '\x00') := by
      rw [hall]
      exact List.mem_set (by simp) _
    simpa using List.mem_takeWhile_imp hmem
  have hsum := sum_length_splitOn '\n' (cstr (boot.recovery.toList.set 767 '\x00'))
  unfold bootArguments
  dsimp only
  split
  · simp
  · rename_i token tokens heq
    rw [heq] at hsum
    split
    · rename_i htoken
      subst htoken
      have hsub : ((arguments tokens).map (·.length + 1)).sum ≤ (tokens.map (·.length + 1)).sum :=
        (List.filter_sublist.map _).sum_le_sum (by simp)
      simp only [List.map_cons, List.sum_cons] at hsum
      have h9 : "recovery".toList.length = 8 := by decide
      omega
    · simp

section
variable {boot : BootloaderMessage} {options : List Text}
variable (hne : ∀ s ∈ options, s ≠ []) (hnul : ∀ s ∈ options, '\x00' ∉ s)
variable (hline : ∀ s ∈ options, '\n' ∉ s)
variable (h : boot.recovery.toList = CharArray.holding 768 (encode options))
include hnul h

theorem cstr_recovery :
    cstr (boot.recovery.toList.set 767 '\x00') = (encode options).take 767 := by
  have hlast : boot.recovery.toList[767]? = some '\x00' := by
    rw [h, CharArray.holding, List.getElem?_append_right (by simp), List.getElem?_replicate, if_pos]
    rw [List.length_take]
    omega
  obtain ⟨hlt, hget⟩ := List.getElem?_eq_some_iff.mp hlast
  have hset : boot.recovery.toList.set 767 '\x00' = boot.recovery.toList := by
    rw [← hget, List.set_getElem_self]
  rw [hset, h, CharArray.cstr_holding (not_mem_encode hnul)]

theorem bootArguments_eq_take :
    bootArguments boot = arguments (((encode options).take 767).splitOn '\n').tail := by
  have h8 : "recovery".toList.length = 8 := by decide
  have htake : (encode options).take 767 =
      "recovery".toList ++ '\n' :: (options.flatMap (· ++ ['\n'])).take 758 := by
    have hlength : "recovery".toList.length ≤ 767 := by rw [h8]; omega
    rw [encode_eq, List.take_append, h8, List.take_of_length_le hlength, show 767 - 8 =
      758 + 1 from rfl, List.take_succ_cons]
  rw [bootArguments, cstr_recovery hnul h, htake, List.splitOn_append_cons_self,
    List.splitOn_eq_singleton (by decide), List.singleton_append]
  dsimp only
  rw [if_pos rfl, List.tail_cons]

include hline

/-- The lines of a message that fits are read back, but the empty ones are skipped. -/
theorem bootArguments_eq_arguments (hle : (encode options).length ≤ 768) :
    bootArguments boot = arguments options := by
  have hlines : ∀ l ∈ "recovery".toList :: options, '\n' ∉ l := by
    intro l hl
    rcases List.mem_cons.mp hl with rfl | hl
    · decide
    · exact hline l hl
  have henc : encode options = ("recovery".toList :: options).flatMap (· ++ ['\n']) := rfl
  rw [bootArguments, cstr_recovery hnul h]
  rcases Nat.lt_or_ge (encode options).length 768 with hlt | hge
  · -- everything fits
    rw [List.take_of_length_le (by omega), henc, splitOn_lines hlines]
    simp [arguments]
  · -- all but the last newline fits
    have htake : (encode options).take 767 = (encode options).dropLast := by
      rw [List.dropLast_eq_take]
      congr 1
      omega
    rw [htake, henc, dropLast_lines (by simp) hlines]
    simp

include hne

theorem bootArguments_ne_nil (hopt : options ≠ []) : bootArguments boot ≠ [] := by
  obtain ⟨s, rest, rfl⟩ := List.exists_cons_of_ne_nil hopt
  obtain ⟨c, s, rfl⟩ := List.exists_cons_of_ne_nil (hne s List.mem_cons_self)
  have hc : c ≠ '\n' := by
    rintro rfl
    exact hline _ List.mem_cons_self List.mem_cons_self
  have hz : c ≠ '\x00' := by
    rintro rfl
    exact hnul _ List.mem_cons_self List.mem_cons_self
  obtain ⟨t, ht⟩ : ∃ t, (encode ((c :: s) :: rest)).take 767 =
      "recovery".toList ++ '\n' :: c :: t := by
    have henc : encode ((c :: s) :: rest) = "recovery".toList ++
        '\n' :: c :: (s ++ '\n' :: rest.flatMap (· ++ ['\n'])) := by
      rw [encode_eq]
      simp
    refine ⟨(s ++ '\n' :: rest.flatMap (· ++ ['\n'])).take 757, ?_⟩
    have h8 : "recovery".toList.length = 8 := by decide
    rw [henc, List.take_append, h8, List.take_of_length_le (by rw [h8]; omega)]
    rfl
  obtain ⟨r, rs, hr⟩ := List.exists_cons_of_ne_nil (List.splitOn_ne_nil '\n' t)
  have hsplit : ("recovery".toList ++ '\n' :: c :: t).splitOn '\n' =
      "recovery".toList :: (c :: r) :: rs := by
    rw [List.splitOn_append_cons_self, List.splitOn_eq_singleton (by decide),
      List.splitOn_cons_eq_if_modifyHead, if_neg (by simpa using hc), hr]
    rfl
  rw [bootArguments, cstr_recovery hnul h, ht, hsplit]
  simp [arguments, hz]

/-- The message with the lines of the options is read back completely exactly if at most the last
newline does not fit. -/
theorem bootArguments_eq_iff : bootArguments boot = options ↔ (encode options).length ≤ 768 := by
  constructor
  · intro heq
    have := sum_length_bootArguments boot
    rw [heq] at this
    rw [length_encode]
    omega
  intro hle
  rw [bootArguments_eq_arguments hnul hline h hle]
  exact arguments_eq_self hne hnul

end

/-! ## One boot and the next -/

/-- The message that `get_args` reads. -/
def Boot.message (b : Boot) : BootloaderMessage :=
  (b.misc.readBootloaderMessage b.readOk).getD .zero

/-- The arguments of one boot after the name of the program, when none were supplied. -/
def Boot.options (b : Boot) : List Text :=
  if bootArguments b.message ≠ [] then bootArguments b.message
  else if b.ubuntuCommandFile then [UBUNTU_ARGUMENT]
  else if b.hasCache then
    (b.commandFile.map fun content => arguments (content.splitOn '\n')).getD []
  else []

theorem getArgs_singleton (b : Boot) (name : Text) :
    getArgs b [name] = some (name :: b.options,
      b.misc.updateBootloaderMessage b.options b.updateReadOk b.written) := by
  unfold getArgs Boot.options
  rw [← Boot.message]
  cases hboot : bootArguments b.message with
  | cons s options => simp [hboot]
  | nil => cases hu : b.ubuntuCommandFile <;> cases hc : b.hasCache <;> simp [hboot]

theorem of_mem_arguments {s text : Text} (h : s ∈ arguments (text.splitOn '\n')) :
    s ≠ [] ∧ '\n' ∉ s := by
  obtain ⟨hm, hs⟩ := List.mem_filter.mp h
  simp only [ne_eq, Bool.decide_and, decide_not, Bool.and_eq_true, Bool.not_eq_true',
    decide_eq_false_iff_not] at hs
  exact ⟨hs.1, (of_mem_splitOn hm).1⟩

theorem of_mem_bootArguments {boot : BootloaderMessage} {s : Text} (h : s ∈ bootArguments boot) :
    s ≠ [] ∧ '\n' ∉ s := by
  unfold bootArguments at h
  dsimp only at h
  split at h
  · simp at h
  · rename_i token tokens heq
    split at h
    · have hsub : tokens.Sublist ((cstr (boot.recovery.toList.set 767 '\x00')).splitOn '\n') := by
        rw [heq]
        exact List.sublist_cons_self _ _
      exact of_mem_arguments ((hsub.filter _).subset h)
    · simp at h

theorem Boot.of_mem_options {b : Boot} {s : Text} (h : s ∈ b.options) : s ≠ [] ∧ '\n' ∉ s := by
  unfold Boot.options at h
  split at h
  · exact of_mem_bootArguments h
  · split at h
    · rw [List.mem_singleton.mp h]
      decide
    · split at h
      · cases hfile : b.commandFile with
        | none => simp [hfile] at h
        | some content => exact of_mem_arguments (by simpa [hfile] using h)
      · simp at h

theorem Boot.length_encode_options {b : Boot}
    (h : bootArguments b.message ≠ [] ∨ b.ubuntuCommandFile = true) :
    (encode b.options).length ≤ 768 := by
  have hboot := sum_length_bootArguments b.message
  rw [length_encode, Boot.options]
  split
  · omega
  · rename_i hnil
    rw [if_pos (h.resolve_left hnil)]
    decide

/-- After a successful update of the message, the next boot reads the lines of the options. -/
theorem recovery_of_update {misc misc' : Misc} {options : List Text} {again : Boot}
    (h : misc.updateBootloaderMessage options readOk written = (true, misc'))
    (hnul : ∀ s ∈ options, '\x00' ∉ s) (hline : ∀ s ∈ options, '\n' ∉ s)
    (hmisc : again.misc = misc') (hread : again.readOk = true) :
    again.message.recovery.toList = CharArray.holding 768 (encode options) := by
  unfold Misc.updateBootloaderMessage at h
  split at h
  · simp at h
  · rename_i boot _
    have hback :
        again.misc.readBootloaderMessage again.readOk = some (boot.updateInStruct options) := by
      rw [hmisc, hread]
      exact Misc.read_write h
    rw [Boot.message, hback, Option.getD_some]
    exact recovery_updateInStruct boot hnul hline

/-- It has the options that fit: the arguments in the first 767 characters. -/
theorem options_of_update {misc misc' : Misc} {options : List Text} {again : Boot}
    (h : misc.updateBootloaderMessage options readOk written = (true, misc'))
    (hempty : ∀ s ∈ options, s ≠ []) (hnul : ∀ s ∈ options, '\x00' ∉ s)
    (hline : ∀ s ∈ options, '\n' ∉ s) (hmisc : again.misc = misc') (hread : again.readOk = true)
    (hne : options ≠ []) : (again.options = options ↔ (encode options).length ≤ 768) ∧
      again.options = arguments (((encode options).take 767).splitOn '\n').tail := by
  have hrec := recovery_of_update h hnul hline hmisc hread
  rw [Boot.options, if_pos (bootArguments_ne_nil hempty hnul hline hrec hne)]
  exact ⟨bootArguments_eq_iff hempty hnul hline hrec, bootArguments_eq_take hnul hrec⟩

theorem options_of_updated {first again : Boot} {ok : Bool} {misc : Misc}
    (h : first.misc.updateBootloaderMessage first.options first.updateReadOk first.written =
      (ok, misc)) (hok : ok = true) (hnul : ∀ s ∈ first.options, '\x00' ∉ s)
      (hmisc : again.misc = misc) (hread : again.readOk = true) (hne : first.options ≠ []) :
    (again.options = first.options ↔ (encode first.options).length ≤ 768) ∧
      again.options = arguments (((encode first.options).take 767).splitOn '\n').tail := by
  subst hok
  exact options_of_update h (fun s hs => (Boot.of_mem_options hs).1) hnul
    (fun s hs => (Boot.of_mem_options hs).2) hmisc hread hne

/-- The next boot has the same arguments exactly if they fit into the message; those that come from
the message itself or from the Ubuntu command file always do. Of a longer list it has the arguments
in the first 767 characters. -/
theorem getArgs_again {first again : Boot} {name : Text} {args : List Text} {misc : Misc}
    (h : getArgs first [name] = some (args, true, misc)) (hargs : args ≠ [name])
    (hnul : ∀ s ∈ args.tail, '\x00' ∉ s) (hmisc : again.misc = misc) (hread : again.readOk = true) :
    ((∃ result, getArgs again [name] = some (args, result)) ↔
      ("recovery\n".toList ++ args.tail.flatMap (· ++ ['\n'])).length ≤ 768) ∧
    (bootArguments first.message ≠ [] ∨ first.ubuntuCommandFile = true →
      ∃ result, getArgs again [name] = some (args, result)) ∧
    ∃ result, getArgs again [name] = some (name :: arguments
      ((("recovery\n".toList ++ args.tail.flatMap (· ++ ['\n'])).take 767).splitOn '\n').tail,
      result) := by
  rw [getArgs_singleton, Option.some.injEq, Prod.mk.injEq] at h
  obtain ⟨rfl, hup⟩ := h
  obtain ⟨hiff, hcut⟩ := options_of_updated hup rfl hnul hmisc hread (by simpa using hargs)
  have hagain : (∃ result, getArgs again [name] = some (name :: first.options, result)) ↔
      again.options = first.options := by
    simp [getArgs_singleton]
  rw [hagain]
  refine ⟨hiff, fun hfits => hiff.mpr (Boot.length_encode_options hfits), ?_⟩
  rw [getArgs_singleton, hcut]
  exact ⟨_, rfl⟩

/-- A boot with an empty message and this text in `COMMAND_FILE`. -/
def Boot.ofCommandFile (content : Text) : Boot where
  misc := ⟨BootloaderMessage.zero.bytes, 0⟩
  readOk := true
  updateReadOk := true
  written := none
  ubuntuCommandFile := false
  hasCache := true
  commandFile := some content

/-- A boot with this misc partition and no files. -/
def Boot.ofMisc (misc : Misc) : Boot :=
  { Boot.ofCommandFile [] with misc := misc, commandFile := none }

theorem read_zero : Misc.readBootloaderMessage ⟨BootloaderMessage.zero.bytes, 0⟩ true =
    some BootloaderMessage.zero := by
  have hbytes : BootloaderMessage.zero.bytes.take 2048 = BootloaderMessage.zero.bytes :=
    List.take_of_length_le (by simp)
  simp [Misc.readBootloaderMessage, hbytes]

theorem options_ofCommandFile (content : Text) :
    (Boot.ofCommandFile content).options = arguments (content.splitOn '\n') := by
  have hzero : bootArguments BootloaderMessage.zero = [] := by
    have hset : (CharArray.zero 768).toList.set 767 '\x00' = List.replicate 768 '\x00' := by
      have hz : (CharArray.zero 768).toList = List.replicate 768 '\x00' := rfl
      rw [hz, List.set_replicate_self]
    have hrec : BootloaderMessage.zero.recovery = CharArray.zero 768 := rfl
    have hcstr : cstr (List.replicate 768 '\x00') = [] :=
      cstr_append_zeros (s := []) List.not_mem_nil 768
    rw [bootArguments, hrec, hset, hcstr]
    decide
  have hmsg : (Boot.ofCommandFile content).message = BootloaderMessage.zero := by
    rw [Boot.message, Boot.ofCommandFile, read_zero, Option.getD_some]
  rw [Boot.options, hmsg, hzero]
  rfl

theorem getArgs_ofCommandFile {s : Text} (hne : s ≠ []) (hnul : '\x00' ∉ s) (hline : '\n' ∉ s)
    (name : Text) :
    getArgs (.ofCommandFile s) [name] = some ([name, s], true,
      ⟨(BootloaderMessage.zero.updateInStruct [s]).bytes, 0⟩) := by
  have hopt : (Boot.ofCommandFile s).options = [s] := by
    rw [options_ofCommandFile, List.splitOn_eq_singleton hline]
    exact arguments_eq_self (by simpa using hne) (by simpa using hnul)
  have hput :
      Misc.put ⟨BootloaderMessage.zero.bytes, 0⟩ 0
      (BootloaderMessage.zero.updateInStruct [s]).bytes =
      ⟨(BootloaderMessage.zero.updateInStruct [s]).bytes, 0⟩ := by
    rw [Misc.put, List.take_zero, List.nil_append, List.drop_eq_nil_of_le (by simp),
      List.append_nil, List.take_of_length_le (by simp)]
  rw [getArgs_singleton, hopt]
  simp only [Boot.ofCommandFile, Misc.updateBootloaderMessage, read_zero,
    Misc.writeBootloaderMessage, Misc.writeMiscPartition, BootloaderMessage.length_bytes,
    Nat.zero_add, Nat.le_refl, decide_true, hput]

/-- A factory reset that is asked for in `COMMAND_FILE` is asked for again by the message alone. -/
theorem getArgs_again_wipeData : ∃ misc result,
    getArgs (.ofCommandFile "--wipe_data".toList) ["recovery".toList] =
      some (["recovery".toList, "--wipe_data".toList], true, misc) ∧
    getArgs (.ofMisc misc) ["recovery".toList] =
      some (["recovery".toList, "--wipe_data".toList], result) := by
  have hfirst :=
    getArgs_ofCommandFile (s := "--wipe_data".toList) (by decide) (by decide) (by decide)
    "recovery".toList
  obtain ⟨result, h⟩ := (getArgs_again hfirst (by decide) (by decide)
    (rfl : (Boot.ofMisc _).misc = _) rfl).1.mpr (by decide)
  exact ⟨_, result, hfirst, h⟩

/-- An argument of 760 characters in `COMMAND_FILE` comes back shorter. -/
theorem not_getArgs_again : ¬ ∀ (first again : Boot) (name : Text) (args : List Text) (misc : Misc),
    getArgs first [name] = some (args, true, misc) → args ≠ [name] → (∀ s ∈ args.tail, '\x00' ∉ s) →
    again.misc = misc → again.readOk = true →
    ∃ result, getArgs again [name] = some (args, result) := by
  intro h
  obtain ⟨s, hlen, hnul, hline⟩ : ∃ s : Text, s.length = 760 ∧ '\x00' ∉ s ∧ '\n' ∉ s := by
    refine ⟨List.replicate 760 'a', List.length_replicate, fun hm => ?_, fun hm => ?_⟩ <;>
      exact absurd (List.eq_of_mem_replicate hm) (by decide)
  have hne : s ≠ [] := List.length_pos_iff.mp (by omega)
  have hfirst := getArgs_ofCommandFile hne hnul hline []
  obtain ⟨result, hagain⟩ := h _ (.ofMisc _) _ _ _ hfirst (by simp) (by simpa using hnul) rfl rfl
  rw [getArgs_singleton, Option.some.injEq, Prod.mk.injEq] at hfirst hagain
  have hopt : (Boot.ofCommandFile s).options = [s] := by simpa using hfirst.1
  have hfits := (options_of_updated hfirst.2 rfl (by rw [hopt]; simpa using hnul)
    (rfl : (Boot.ofMisc _).misc = _) rfl (by rw [hopt]; simp)).1.mp
    (by rw [hopt]; simpa using hagain.1)
  rw [hopt, length_encode] at hfits
  simp [hlen] at hfits

end Recovery

end BootableRecovery
