import BootableRecovery.BootloaderMessage.Message
import Mathlib.Data.List.Basic

/-!
# The command pipe

`try_update_binary` reads the commands of the updater from a pipe: line by line with `fgets` into a
buffer of 1024 bytes, split at the first blank into a command and its argument. The updater writes
each command with one `fprintf` that ends in a newline. What was sent is executed exactly if no line
has anything but white space behind its first 1023 bytes: a longer line comes in pieces, and each
piece is taken for a command of its own.
-/

namespace BootableRecovery.CommandPipe

/-! ## The pipe -/

/-- The characters that `fgets` reads into a buffer with room for `n` of them, and the rest. -/
def fgets : (n : Nat) → Text → Text × Text
  | 0, s => ([], s)
  | _ + 1, [] => ([], [])
  | n + 1, c :: s => if c = '\n' then ([c], s) else (c :: (fgets n s).1, (fgets n s).2)

/-- The size of `buffer` in `try_update_binary`. -/
def BUFFER_SIZE : Nat := 1024

/-- The buffers that the loop gets from the pipe. -/
def readLoop : (fuel : Nat) → Text → List Text
  | 0, _ => []
  | fuel + 1, s =>
    if s = [] then []
    else (fgets (BUFFER_SIZE - 1) s).1 :: readLoop fuel (fgets (BUFFER_SIZE - 1) s).2

def readLines (s : Text) : List Text := readLoop s.length s

/-- The floating-point numbers of the C library: `printf` of `%.nf`, and `ParseDouble`. -/
structure Floats (Double : Type) where
  printF : (precision : Fin 7) → Double → Text
  parseDouble : Text → Option Double
  /-- The double next to the decimal number that `printf` writes. -/
  rounded : (precision : Fin 7) → Double → Double
  /-- The product with `1 - VERIFICATION_PROGRESS_FRACTION`. -/
  scaled : Double → Double

/-- A value of type `int`. -/
abbrev CInt := { k : Int // -(INT_MAX : Int) - 1 ≤ k ∧ k ≤ INT_MAX }

/-- A text without newline. -/
abbrev Line := { s : Text // '\n' ∉ s }

/-- What one round of the loop does. -/
inductive Effect (Double : Type)
  /-- `ui->ShowProgress` -/
  | showProgress (portion : Double) (seconds : Int)
  /-- `ui->SetProgress` -/
  | setProgress (fraction : Double)
  /-- `ui->PrintOnScreenOnly` -/
  | printOnScreenOnly (text : Text)
  /-- `*wipe_cache = true` -/
  | wipeCache
  /-- `ui->SetBackground(RecoveryUI::NONE)` -/
  | setBackgroundNone
  /-- `ui->SetEnableReboot(true)` -/
  | setEnableReboot
  /-- `retry_update = true` -/
  | retryUpdate
  /-- `log_buffer->push_back` -/
  | pushLog (text : Text)
  deriving DecidableEq

section Reader
variable {Double : Type} (lib : Floats Double)

/-- The branches of the loop. Those that only log an error have no effect. -/
def perform (command args : Text) : Option (Effect Double) :=
  if command = "progress".toList then
    match args.splitOn ' ' with
    | [fraction, seconds] => do
      let fraction ← lib.parseDouble fraction
      let seconds ← parseInt seconds
      return .showProgress (lib.scaled fraction) seconds
    | _ => none
  else if command = "set_progress".toList then
    match args.splitOn ' ' with
    | [fraction] => (lib.parseDouble fraction).map .setProgress
    | _ => none
  else if command = "ui_print".toList then some (.printOnScreenOnly args)
  else if command = "wipe_cache".toList then some .wipeCache
  else if command = "clear_display".toList then some .setBackgroundNone
  else if command = "enable_reboot".toList then some .setEnableReboot
  else if command = "retry_update".toList then some .retryUpdate
  else if command = "log".toList then
    if args = [] then none else some (.pushLog args)
  else none

/-- No blank and no newline. -/
def inCommand (c : Char) : Bool := c ≠ ' ' && c ≠ '\n'

/-- One round of the loop. -/
def execute (buffer : Text) : Option (Effect Double) :=
  let line := cstr buffer
  let command := line.takeWhile inCommand
  if command = [] then none
  else perform lib command (trim (line.dropWhile inCommand))

/-- The effects of the loop on what the pipe delivers, in their order. -/
def executed (pipe : Text) : List (Effect Double) := (readLines pipe).filterMap (execute lib)

end Reader

/-- The commands that the updater writes. -/
inductive Command (Double : Type)
  | uiPrint (line : Line)
  | progress (frac : Double) (sec : CInt)
  | setProgress (precision : Fin 7) (frac : Double)
  | log (line : Line)
  | wipeCache
  | retryUpdate
  | enableReboot
  | clearDisplay

section Writer
variable {Double : Type} (lib : Floats Double)

/-- The line of a command, without its newline. -/
def Command.line : Command Double → Text
  | .uiPrint line => "ui_print".toList ++ ' ' :: cstr line
  | .progress frac sec => "progress".toList ++ ' ' :: (lib.printF 6 frac ++ ' ' :: toText sec)
  | .setProgress precision frac => "set_progress".toList ++ ' ' :: lib.printF precision frac
  | .log line => "log".toList ++ ' ' :: cstr line
  | .wipeCache => "wipe_cache".toList
  | .retryUpdate => "retry_update".toList
  | .enableReboot => "enable_reboot".toList
  | .clearDisplay => "clear_display".toList

/-- What the updater writes to the pipe. -/
def send (cmds : List (Command Double)) : Text := cmds.flatMap fun c => c.line lib ++ ['\n']

/-- What a command asks for. -/
def Command.effect : Command Double → Effect Double
  | .uiPrint line => .printOnScreenOnly (trim line)
  | .progress frac sec => .showProgress (lib.scaled (lib.rounded 6 frac)) sec
  | .setProgress precision frac => .setProgress (lib.rounded precision frac)
  | .log line => .pushLog (trim line)
  | .wipeCache => .wipeCache
  | .retryUpdate => .retryUpdate
  | .enableReboot => .setEnableReboot
  | .clearDisplay => .setBackgroundNone

/-- `uiPrint` of the updater: one command for each line that is not empty. -/
def uiPrint (buffer : Text) : List (Command Double) :=
  ((buffer.splitOn '\n').filter (· ≠ [])).pmap (fun s hs => .uiPrint ⟨s, hs⟩) fun _ hs =>
    (of_mem_splitOn (List.mem_of_mem_filter hs)).1

/-- What the code relies on: a printed number is a short text without white space, and is parsed to
the number it shows. -/
structure Floats.Lawful : Prop where
  parse_print (precision : Fin 7) (d : Double) :
    lib.parseDouble (lib.printF precision d) = some (lib.rounded precision d)
  print_ne_nil (precision : Fin 7) (d : Double) : lib.printF precision d ≠ []
  length_print (precision : Fin 7) (d : Double) : (lib.printF precision d).length ≤ 320
  of_mem_print {precision : Fin 7} {d : Double} {c : Char} (h : c ∈ lib.printF precision d) :
    isSpace c = false ∧ c ≠ '\x00'

end Writer

/-! ## Lists of frames

Each frame gives a list of results, and is to give one. If the results of a frame that goes wrong
never contain the one it is to give, then a wrong frame cannot be made up for by another one. -/

section Frames
variable {got : α → List β} {want : α → β}

theorem flatMap_ne_append_map (h : ∀ a, got a = [want a] ∨ want a ∉ got a) (l : List α)
    {missing : List β} (hne : missing ≠ []) : l.flatMap got ≠ missing ++ l.map want := by
  induction l generalizing missing with
  | nil => simpa using hne
  | cons a l ih =>
    intro heq
    rw [List.flatMap_cons, List.map_cons] at heq
    have hpos := List.length_pos_iff.mpr hne
    rcases Nat.lt_or_ge missing.length (got a).length with hlt | hge
    · -- the result of `a` is among those of `a`, and not the first of them
      rcases h a with ha | ha
      · rw [ha, List.length_singleton] at hlt
        omega
      · have hget := congrArg (·[missing.length]?) heq
        simp only [List.getElem?_append_left hlt, List.getElem?_append_right (Nat.le_refl _),
          Nat.sub_self, List.getElem?_cons_zero] at hget
        exact ha (List.mem_of_getElem? hget)
    · obtain ⟨later, hlater⟩ : ∃ later, missing = got a ++ later :=
        ⟨missing.drop (got a).length, by
          have := congrArg (List.take (got a).length) heq
          rw [List.take_left, List.take_append_of_le_length hge] at this
          nth_rewrite 1 [this]
          rw [List.take_append_drop]⟩
      rw [hlater, List.append_assoc] at heq
      have hmissing : later ++ [want a] ≠ [] := by simp
      refine ih hmissing ?_
      rw [List.append_cancel_left heq, List.append_assoc, List.singleton_append]

theorem flatMap_eq_map_iff (h : ∀ a, got a = [want a] ∨ want a ∉ got a) (l : List α) :
    l.flatMap got = l.map want ↔ ∀ a ∈ l, got a = [want a] := by
  induction l with
  | nil => simp
  | cons a l ih =>
    rw [List.flatMap_cons, List.map_cons, List.forall_mem_cons, ← ih]
    refine ⟨fun heq => ?_, fun ⟨ha, hl⟩ => by rw [ha, hl, List.singleton_append]⟩
    have ha : got a = [want a] := by
      rcases h a with ha | ha
      · exact ha
      · cases hgot : got a with
        | nil =>
          rw [hgot, List.nil_append] at heq
          exact absurd heq (flatMap_ne_append_map h l (List.cons_ne_nil (want a) []))
        | cons x xs =>
          rw [hgot, List.cons_append, List.cons.injEq] at heq
          exact absurd (hgot ▸ heq.1 ▸ List.mem_cons_self) ha
    rw [ha, List.singleton_append, List.cons.injEq] at heq
    exact ⟨ha, heq.2⟩

end Frames

/-! ## Lines of the pipe -/

theorem fgets_append_snd (n : Nat) (s : Text) : (fgets n s).1 ++ (fgets n s).2 = s := by
  induction n generalizing s with
  | zero => rfl
  | succ n ih =>
    cases s with
    | nil => rfl
    | cons c s =>
      rw [fgets]
      split
      · rfl
      · rw [List.cons_append, ih]

theorem length_fgets_snd {n : Nat} (hn : 0 < n) {s : Text} (hs : s ≠ []) :
    (fgets n s).2.length < s.length := by
  have hpos : 0 < (fgets n s).1.length := by
    obtain ⟨n, rfl⟩ := Nat.exists_eq_succ_of_ne_zero hn.ne'
    obtain ⟨c, s, rfl⟩ := List.exists_cons_of_ne_nil hs
    rw [fgets]
    split <;> simp
  have := congrArg List.length (fgets_append_snd n s)
  rw [List.length_append] at this
  omega

theorem fgets_of_lt {n : Nat} {s : Text} (hs : '\n' ∉ s) (hlt : s.length < n) (t : Text) :
    fgets n (s ++ '\n' :: t) = (s ++ ['\n'], t) := by
  induction s generalizing n with
  | nil =>
    obtain ⟨n, rfl⟩ := Nat.exists_eq_succ_of_ne_zero (Nat.ne_of_gt hlt)
    rw [List.nil_append, fgets, if_pos rfl, List.nil_append]
  | cons c s ih =>
    obtain ⟨n, rfl⟩ := Nat.exists_eq_succ_of_ne_zero (Nat.ne_of_gt (Nat.zero_lt_of_lt hlt))
    rw [List.mem_cons, not_or] at hs
    rw [List.cons_append, fgets, if_neg (Ne.symm hs.1), ih hs.2 (Nat.lt_of_succ_lt_succ hlt)]
    rfl

theorem fgets_of_le {n : Nat} {s : Text} (hs : '\n' ∉ s) (hle : n ≤ s.length) (t : Text) :
    fgets n (s ++ t) = (s.take n, s.drop n ++ t) := by
  induction s generalizing n with
  | nil =>
    cases Nat.le_zero.mp hle
    rfl
  | cons c s ih =>
    cases n with
    | zero => rfl
    | succ n =>
      rw [List.mem_cons, not_or] at hs
      rw [List.cons_append, fgets, if_neg (Ne.symm hs.1), ih hs.2 (Nat.le_of_succ_le_succ hle)]
      rfl

theorem readLoop_of_le {fuel : Nat} {s : Text} (h : s.length ≤ fuel) :
    readLoop fuel s = readLines s := by
  induction fuel using Nat.strong_induction_on generalizing s with
  | _ fuel ih =>
    rcases List.eq_nil_or_concat s with rfl | ⟨_, _, hne⟩
    · cases fuel <;> rfl
    · have hs : s ≠ [] := by simp [hne]
      have hlt := length_fgets_snd (by decide : 0 < BUFFER_SIZE - 1) hs
      obtain ⟨fuel, rfl⟩ := Nat.exists_eq_succ_of_ne_zero (show fuel ≠ 0 by omega)
      obtain ⟨len, hlen⟩ := Nat.exists_eq_succ_of_ne_zero (show s.length ≠ 0 by omega)
      rw [readLines, hlen, readLoop, readLoop, if_neg hs, if_neg hs, ih fuel (by omega) (by omega)]
      congr 1
      rcases Nat.lt_or_ge len fuel.succ with hlt' | hge'
      · exact (ih len hlt' (by omega)).symm
      · omega

theorem readLines_cons {s : Text} (hs : s ≠ []) :
    readLines s = (fgets (BUFFER_SIZE - 1) s).1 :: readLines (fgets (BUFFER_SIZE - 1) s).2 := by
  have hlt := length_fgets_snd (by decide : 0 < BUFFER_SIZE - 1) hs
  obtain ⟨len, hlen⟩ := Nat.exists_eq_succ_of_ne_zero (show s.length ≠ 0 by omega)
  rw [readLines, hlen, readLoop, if_neg hs, readLoop_of_le (by omega)]

/-- The lines of a pipe are those of its first line, and those of the rest. -/
theorem readLines_append {s : Text} (hs : '\n' ∉ s) (t : Text) :
    readLines (s ++ '\n' :: t) = readLines (s ++ ['\n']) ++ readLines t := by
  induction h : s.length using Nat.strong_induction_on generalizing s with
  | _ len ih =>
    subst h
    rw [readLines_cons (by simp), readLines_cons (by simp : s ++ ['\n'] ≠ [])]
    rcases Nat.lt_or_ge s.length (BUFFER_SIZE - 1) with hlt | hge
    · rw [fgets_of_lt hs hlt, fgets_of_lt hs hlt]
      rfl
    · rw [fgets_of_le hs hge, fgets_of_le hs hge]
      have hlt : (s.drop (BUFFER_SIZE - 1)).length < s.length := by
        rw [List.length_drop]
        have : 0 < BUFFER_SIZE - 1 := by decide
        omega
      rw [ih _ hlt (fun hmem => hs (List.mem_of_mem_drop hmem)) rfl, List.cons_append]

theorem flatten_readLines (s : Text) : (readLines s).flatten = s := by
  induction h : s.length using Nat.strong_induction_on generalizing s with
  | _ len ih =>
    subst h
    rcases Decidable.em (s = []) with rfl | hs
    · rfl
    · rw [readLines_cons hs, List.flatten_cons,
        ih _ (length_fgets_snd (by decide : 0 < BUFFER_SIZE - 1) hs) _ rfl, fgets_append_snd]

theorem readLines_line {s : Text} (hs : '\n' ∉ s) : ∃ later,
    readLines (s ++ ['\n']) = (s ++ ['\n']).take (BUFFER_SIZE - 1) :: later ∧
      later.flatten = (s ++ ['\n']).drop (BUFFER_SIZE - 1) := by
  refine ⟨_, ?_, flatten_readLines _⟩
  rw [readLines_cons (by simp)]
  rcases Nat.lt_or_ge s.length (BUFFER_SIZE - 1) with hlt | hge
  · have hlen : (s ++ ['\n']).length ≤ BUFFER_SIZE - 1 := by
      rw [List.length_append, List.length_singleton]
      omega
    rw [fgets_of_lt hs hlt, List.take_of_length_le hlen, List.drop_of_length_le hlen]
  · rw [fgets_of_le hs hge, List.take_append_of_le_length hge, List.drop_append_of_le_length hge]

/-! ## What a line does -/

/-- The number of characters that are not white space. `Trim` keeps them all. -/
def marks (s : Text) : Nat := s.countP fun c => !isSpace c

theorem marks_append (s t : Text) : marks (s ++ t) = marks s + marks t := List.countP_append ..

theorem marks_eq_zero {s : Text} : marks s = 0 ↔ ∀ c ∈ s, isSpace c = true := by
  simp [marks, List.countP_eq_zero]

theorem marks_trim (s : Text) : marks (trim s) = marks s := by
  have hleft (s : Text) : marks (s.dropWhile isSpace) = marks s := by
    have hzero : marks (s.takeWhile isSpace) = 0 :=
      marks_eq_zero.mpr fun c hc => List.mem_takeWhile_imp hc
    nth_rewrite 2 [← List.takeWhile_append_dropWhile (p := isSpace) (l := s)]
    rw [marks_append, hzero, Nat.zero_add]
  have hreverse (s : Text) : marks s.reverse = marks s := List.countP_reverse
  rw [trim, List.rdropWhile, hreverse, hleft, hreverse, hleft]

theorem trim_eq_nil {s : Text} : trim s = [] ↔ ∀ c ∈ s, isSpace c = true := by
  rw [← marks_eq_zero]
  refine ⟨fun h => ?_, fun h => ?_⟩
  · rw [← marks_trim, h]
    rfl
  · rw [marks_eq_zero] at h
    rw [trim, List.dropWhile_eq_nil_iff.mpr h]
    rfl

theorem trim_append_white {s t : Text} (ht : ∀ c ∈ t, isSpace c = true) :
    trim (s ++ t) = trim s := by
  have hright (s : Text) : (s ++ t).rdropWhile isSpace = s.rdropWhile isSpace := by
    rw [List.rdropWhile, List.rdropWhile, List.reverse_append,
      List.dropWhile_append_of_pos (by simpa using ht)]
  rw [trim, trim, List.dropWhile_append]
  split
  · rename_i hs
    rw [List.isEmpty_iff.mp hs, List.dropWhile_eq_nil_iff.mpr ht]
  · exact hright _

theorem trim_cons_space (s : Text) : trim (' ' :: s) = trim s := by
  rw [trim, List.dropWhile_cons_of_pos (by decide), trim]

theorem marks_cstr_le (s : Text) : marks (cstr s) ≤ marks s :=
  (List.takeWhile_sublist _).countP_le

theorem cstr_eq_self_iff {s : Text} : '\x00' ∉ s ↔ marks s ≤ marks (cstr s) := by
  refine ⟨fun h => by rw [cstr_eq_self h], fun hle hmem => ?_⟩
  have hrest : '\x00' ∈ s.dropWhile (· ≠ '\x00') := by
    rw [← List.takeWhile_append_dropWhile (p := (· ≠ '\x00')) (l := s), List.mem_append] at hmem
    rcases hmem with hmem | hmem
    · simpa using List.mem_takeWhile_imp hmem
    · exact hmem
  have hpos : 0 < marks (s.dropWhile (· ≠ '\x00')) := List.countP_pos_iff.mpr ⟨_, hrest, by decide⟩
  have hsum := marks_append (s.takeWhile (· ≠ '\x00')) (s.dropWhile (· ≠ '\x00'))
  rw [List.takeWhile_append_dropWhile] at hsum
  unfold cstr at hle
  omega

section Reader
variable {Double : Type} {lib : Floats Double}

/-- The text that an effect carries. -/
def Effect.text : Effect Double → Text
  | .printOnScreenOnly text | .pushLog text => text
  | _ => []

/-- An effect has a command word. Its text is the argument, and that of a log entry is not empty. -/
theorem of_perform {command args : Text} {e : Effect Double}
    (h : perform lib command args = some e) : 0 < marks command ∧ (e.text = args ∨ e.text = []) ∧
    e ≠ .pushLog [] := by
  have hword {w : Text} (hw : 0 < marks w) (heq : command = w) : 0 < marks command := heq ▸ hw
  unfold perform at h
  split at h
  · rename_i heq
    refine ⟨hword (by decide) heq, ?_⟩
    split at h
    · simp only [Option.bind_eq_bind, Option.bind_eq_some_iff, Option.pure_def,
        Option.some.injEq] at h
      obtain ⟨_, _, _, _, rfl⟩ := h
      exact ⟨.inr rfl, by simp⟩
    · cases h
  split at h
  · rename_i heq
    refine ⟨hword (by decide) heq, ?_⟩
    split at h
    · obtain ⟨_, _, rfl⟩ := Option.map_eq_some_iff.mp h
      exact ⟨.inr rfl, by simp⟩
    · cases h
  split at h
  · rename_i heq
    cases h
    exact ⟨hword (by decide) heq, .inl rfl, by simp⟩
  split at h
  · rename_i heq
    cases h
    exact ⟨hword (by decide) heq, .inr rfl, by simp⟩
  split at h
  · rename_i heq
    cases h
    exact ⟨hword (by decide) heq, .inr rfl, by simp⟩
  split at h
  · rename_i heq
    cases h
    exact ⟨hword (by decide) heq, .inr rfl, by simp⟩
  split at h
  · rename_i heq
    cases h
    exact ⟨hword (by decide) heq, .inr rfl, by simp⟩
  split at h
  · rename_i heq
    split at h
    · cases h
    · rename_i hargs
      cases h
      exact ⟨hword (by decide) heq, .inl rfl, by simpa using hargs⟩
  · cases h

theorem marks_text_lt {buffer : Text} {e : Effect Double} (h : execute lib buffer = some e) :
    marks e.text < marks buffer := by
  unfold execute at h
  dsimp only at h
  split at h
  · cases h
  · obtain ⟨hcommand, htext, -⟩ := of_perform h
    have hsum :=
      marks_append ((cstr buffer).takeWhile inCommand) ((cstr buffer).dropWhile inCommand)
    rw [List.takeWhile_append_dropWhile] at hsum
    have hle := marks_cstr_le buffer
    rcases htext with htext | htext
    · rw [htext, marks_trim]
      omega
    · rw [htext]
      have : marks ([] : Text) = 0 := rfl
      omega

theorem execute_append {word args : Text} (hne : word ≠ []) (hword : ∀ c ∈ word, inCommand c = true)
    (hnul : '\x00' ∉ word ++ args) (hargs : ∀ c ∈ args.head?, inCommand c = false) :
    execute lib (word ++ args) = perform lib word (trim args) := by
  rw [execute, cstr_eq_self hnul, takeWhile_append_stop hword hargs,
    dropWhile_append_stop hword hargs, if_neg hne]

end Reader

/-! ## Commands with a text -/

/-- The effects of what is written for one command. -/
def got {Double : Type} (lib : Floats Double) (line : Text) : List (Effect Double) :=
  executed lib (line ++ ['\n'])

/-- A command word, shorter than the buffer. -/
structure IsWord (word : Text) : Prop where
  ne_nil : word ≠ []
  inCommand : ∀ c ∈ word, inCommand c = true
  nul : '\x00' ∉ word
  length_lt : word.length < BUFFER_SIZE - 2

/-- The room for a text in the buffer, behind a word and a blank. -/
def room (word : Text) : Nat := BUFFER_SIZE - 2 - word.length

section Texts
variable {Double : Type} {lib : Floats Double}

theorem IsWord.newline (hw : IsWord word) : '\n' ∉ word := fun h => by
  simpa [CommandPipe.inCommand] using hw.inCommand _ h

theorem IsWord.got_text (lib : Floats Double) (hw : IsWord word) {t : Text} (ht : '\n' ∉ t)
    (hnul : '\x00' ∉ t) : ∃ later : List Text, later.flatten = (t ++ ['\n']).drop (room word) ∧
      got lib (word ++ ' ' :: t) =
        (perform lib word (trim ((t ++ ['\n']).take (room word)))).toList ++
          later.filterMap (execute lib) := by
  have hline : '\n' ∉ word ++ ' ' :: t := by
    rw [List.mem_append, List.mem_cons, not_or, not_or]
    exact ⟨hw.newline, by decide, ht⟩
  have hroom : BUFFER_SIZE - 1 = word.length + (room word + 1) := by
    have := hw.length_lt
    unfold room
    omega
  obtain ⟨later, hlines, hlater⟩ := readLines_line hline
  rw [List.append_assoc, hroom, List.drop_length_add_append, List.cons_append, List.drop_succ_cons]
    at hlater
  rw [List.append_assoc, hroom, List.take_length_add_append, List.cons_append, List.take_succ_cons,
    ← List.cons_append, ← List.append_assoc] at hlines
  refine ⟨later, hlater, ?_⟩
  have hargs : '\x00' ∉ word ++ ' ' :: (t ++ ['\n']).take (room word) := by
    rw [List.mem_append, List.mem_cons, not_or, not_or]
    refine ⟨hw.nul, by decide, fun hmem => ?_⟩
    rcases List.mem_append.mp (List.mem_of_mem_take hmem) with hmem | hmem
    · exact hnul hmem
    · exact absurd hmem (by decide)
  have hexecute : execute lib (word ++ ' ' :: (t ++ ['\n']).take (room word)) =
      perform lib word (trim ((t ++ ['\n']).take (room word))) := by
    rw [execute_append hw.ne_nil hw.inCommand hargs (by simp [CommandPipe.inCommand]),
      trim_cons_space]
  rw [got, executed, hlines, List.filterMap_cons, hexecute]
  cases perform lib word (trim ((t ++ ['\n']).take (room word))) <;> rfl

theorem filterMap_execute_white {later : List Text} (h : ∀ c ∈ later.flatten, isSpace c = true) :
    later.filterMap (execute lib) = [] := by
  refine List.filterMap_eq_nil_iff.mpr fun p hp =>
    Option.eq_none_iff_forall_ne_some.mpr fun e he => ?_
  have hzero : marks p = 0 := marks_eq_zero.mpr fun c hc => h c (List.mem_flatten.mpr ⟨p, hp, hc⟩)
  have := marks_text_lt he
  omega

theorem IsWord.got_of_fits (hw : IsWord word) {t : Text} (ht : '\n' ∉ t) (hnul : '\x00' ∉ t)
    (hfits : ∀ c ∈ t.drop (room word), isSpace c = true) :
    got lib (word ++ ' ' :: t) = (perform lib word (trim t)).toList := by
  obtain ⟨later, hlater, hgot⟩ := hw.got_text lib ht hnul
  have hwhite : ∀ c ∈ (t ++ ['\n']).drop (room word), isSpace c = true := by
    rw [List.drop_append]
    intro c hc
    rcases List.mem_append.mp hc with hc | hc
    · exact hfits c hc
    · rw [List.mem_singleton.mp (List.mem_of_mem_drop hc)]
      rfl
  have htrim : trim ((t ++ ['\n']).take (room word)) = trim t := by
    rw [← trim_append_white hwhite, List.take_append_drop, trim_append_white (by decide)]
  rw [hgot, htrim, filterMap_execute_white (hlater ▸ hwhite), List.append_nil]

/-- Of a line that does not fit, each effect has less text than was sent. -/
theorem IsWord.got_of_not_fits (hw : IsWord word) {t : Text} (ht : '\n' ∉ t)
    (hfits : ¬ ('\x00' ∉ t ∧ ∀ c ∈ t.drop (room word), isSpace c = true)) {e : Effect Double}
    (he : e ∈ got lib (word ++ ' ' :: cstr t)) : marks e.text < marks t := by
  have hsub : ∀ c ∈ cstr t, c ∈ t := fun c hc => (List.takeWhile_sublist _).subset hc
  have hnul : '\x00' ∉ cstr t := fun h => by simpa using List.mem_takeWhile_imp h
  obtain ⟨later, hlater, hgot⟩ := hw.got_text lib (fun h => ht (hsub _ h)) hnul
  have hsum :=
    marks_append ((cstr t ++ ['\n']).take (room word)) ((cstr t ++ ['\n']).drop (room word))
  have hcstr := marks_append (cstr t) ['\n']
  rw [List.take_append_drop] at hsum
  have hone : marks ['\n'] = 0 := by decide
  have hle := marks_cstr_le t
  rw [hgot, List.mem_append] at he
  rcases he with he | he
  · have htext : marks e.text ≤ marks ((cstr t ++ ['\n']).take (room word)) := by
      obtain ⟨-, htext | htext, -⟩ := of_perform (Option.mem_toList.mp he)
      · rw [htext, marks_trim]
      · rw [htext]
        exact Nat.zero_le _
    rcases Decidable.em ('\x00' ∈ t) with hmem | hmem
    · have := mt cstr_eq_self_iff.mpr (not_not.mpr hmem)
      omega
    · have hpos : 0 < marks ((cstr t ++ ['\n']).drop (room word)) := by
        rw [cstr_eq_self hmem]
        refine Nat.pos_of_ne_zero fun hzero => hfits ⟨hmem, fun c hc => ?_⟩
        refine marks_eq_zero.mp hzero c ?_
        rw [List.drop_append]
        exact List.mem_append_left _ hc
      omega
  · obtain ⟨p, hp, hexecute⟩ := List.mem_filterMap.mp he
    have hlt := marks_text_lt hexecute
    have hflat : marks p ≤ marks later.flatten := (List.sublist_flatten_of_mem hp).countP_le
    rw [hlater] at hflat
    omega

end Texts

/-! ## All commands -/

section Commands
variable {Double : Type} {lib : Floats Double}

theorem isWord_uiPrint : IsWord "ui_print".toList := ⟨by decide, by decide, by decide, by decide⟩

theorem isWord_log : IsWord "log".toList := ⟨by decide, by decide, by decide, by decide⟩

theorem room_uiPrint : room "ui_print".toList = BUFFER_SIZE - 10 := rfl

theorem room_log : room "log".toList = BUFFER_SIZE - 5 := rfl

theorem perform_uiPrint (args : Text) :
    perform lib "ui_print".toList args = some (.printOnScreenOnly args) := by
  simp [perform]

theorem perform_log {args : Text} (h : args ≠ []) :
    perform lib "log".toList args = some (.pushLog args) := by
  simp [perform, h]

theorem got_of_lt {word args : Text} (hw : IsWord word) (hargs : ∀ c ∈ args, c ≠ '\n' ∧ c ≠ '\x00')
    (hlen : (word ++ args).length < BUFFER_SIZE - 1) (hhead : ∀ c ∈ args.head?, c = ' ') :
    got lib (word ++ args) = (perform lib word (trim args)).toList := by
  have hnewline : '\n' ∉ word ++ args := by
    rw [List.mem_append, not_or]
    exact ⟨hw.newline, fun h => (hargs _ h).1 rfl⟩
  have hnul : '\x00' ∉ word ++ (args ++ ['\n']) := by
    rw [List.mem_append, List.mem_append, not_or, not_or]
    exact ⟨hw.nul, fun h => (hargs _ h).2 rfl, by decide⟩
  have hargs' : ∀ c ∈ (args ++ ['\n']).head?, inCommand c = false := by
    cases args with
    | nil =>
      rintro _ ⟨⟩
      rfl
    | cons c args =>
      rintro _ ⟨⟩
      rw [hhead c rfl]
      rfl
  have hexecute := @execute_append _ lib _ _ hw.ne_nil hw.inCommand hnul hargs'
  rw [got, executed, readLines_cons (by simp), fgets_of_lt hnewline hlen, List.append_assoc,
    List.filterMap_cons, hexecute, trim_append_white (by decide)]
  cases perform lib word (trim args) <;> rfl

theorem length_toText_le (k : CInt) : (toText k).length ≤ 11 := by
  obtain ⟨k, hmin, hmax⟩ := k
  have hdigits {n : Nat} (hn : n < 10 ^ 10) : (Nat.toDigits 10 n).length ≤ 10 :=
    (Nat.length_toDigits_le_iff (by decide) (by decide)).mpr hn
  have hmaximum : INT_MAX = 2147483647 := rfl
  cases k with
  | ofNat n => exact Nat.le_succ_of_le (hdigits (by rw [Int.ofNat_eq_natCast] at hmax; omega))
  | negSucc n => exact Nat.succ_le_succ (hdigits (by rw [Int.negSucc_eq] at hmin; omega))

theorem not_nul_toText {k : Int} (h : c ∈ toText k) : c ≠ '\x00' := by
  have hdigit {n : Nat} (h : c ∈ Nat.toDigits 10 n) : c ≠ '\x00' := by
    rintro rfl
    exact absurd (isDigit_toDigits h) (by decide)
  cases k with
  | ofNat n => exact hdigit h
  | negSucc n =>
    rcases List.mem_cons.mp h with rfl | h
    · decide
    · exact hdigit h

theorem trim_eq_self {s : Text} (hne : s ≠ []) (hhead : isSpace (s.head hne) = false)
    (hlast : isSpace (s.getLast hne) = false) : trim s = s := by
  have hdrop : s.dropWhile isSpace = s := by
    obtain ⟨c, s, rfl⟩ := List.exists_cons_of_ne_nil hne
    exact List.dropWhile_cons_of_neg (by simpa using hhead)
  rw [trim, hdrop]
  exact List.rdropWhile_eq_self_iff.mpr fun _ => by simp [hlast]

theorem Floats.Lawful.got_setProgress (h : lib.Lawful) (precision : Fin 7) (frac : Double) :
    got lib ("set_progress".toList ++ ' ' :: lib.printF precision frac) =
      [.setProgress (lib.rounded precision frac)] := by
  have hne := h.print_ne_nil precision frac
  have hword : IsWord "set_progress".toList := ⟨by decide, by decide, by decide, by decide⟩
  have htext : ∀ c ∈ ' ' :: lib.printF precision frac, c ≠ '\n' ∧ c ≠ '\x00' := by
    rintro c (_ | ⟨_, hc⟩)
    · decide
    · exact ⟨fun heq => absurd (h.of_mem_print hc).1 (heq ▸ by decide), (h.of_mem_print hc).2⟩
  have hlen :
      ("set_progress".toList ++ ' ' :: lib.printF precision frac).length < BUFFER_SIZE - 1 := by
    have := h.length_print precision frac
    rw [List.length_append, List.length_cons]
    change 12 + _ < 1023
    omega
  have htrim : trim (' ' :: lib.printF precision frac) = lib.printF precision frac := by
    rw [trim_cons_space]
    exact trim_eq_self hne (h.of_mem_print (List.head_mem hne)).1
      (h.of_mem_print (List.getLast_mem hne)).1
  have hsplit : (lib.printF precision frac).splitOn ' ' = [lib.printF precision frac] :=
    List.splitOn_eq_singleton fun hmem => absurd (h.of_mem_print hmem).1 (by decide)
  have hgot := @got_of_lt _ lib _ _ hword htext hlen (by simp)
  rw [htrim] at hgot
  refine hgot.trans ?_
  simp [perform, hsplit, h.parse_print]

theorem Floats.Lawful.got_progress (h : lib.Lawful) (frac : Double) (sec : CInt) :
    got lib ("progress".toList ++ ' ' :: (lib.printF 6 frac ++ ' ' :: toText sec)) =
      [.showProgress (lib.scaled (lib.rounded 6 frac)) sec] := by
  have hne := h.print_ne_nil 6 frac
  have hsec := toText_ne_nil sec
  have hword : IsWord "progress".toList := ⟨by decide, by decide, by decide, by decide⟩
  obtain ⟨args, hargs⟩ : ∃ args, args = lib.printF 6 frac ++ ' ' :: toText sec := ⟨_, rfl⟩
  have htext : ∀ c ∈ ' ' :: args, c ≠ '\n' ∧ c ≠ '\x00' := by
    intro c hc
    rw [hargs, List.mem_cons, List.mem_append, List.mem_cons] at hc
    rcases hc with rfl | hc | rfl | hc
    · decide
    · exact ⟨fun heq => absurd (h.of_mem_print hc).1 (heq ▸ by decide), (h.of_mem_print hc).2⟩
    · decide
    · exact ⟨fun heq => absurd (not_isSpace_toText hc) (heq ▸ by decide), not_nul_toText hc⟩
  have hlen : ("progress".toList ++ ' ' :: args).length < BUFFER_SIZE - 1 := by
    have := h.length_print 6 frac
    have := length_toText_le sec
    rw [hargs, List.length_append, List.length_cons, List.length_append, List.length_cons]
    change 8 + _ < 1023
    omega
  have hargsne : args ≠ [] := by simp [hargs]
  have htrim : trim (' ' :: args) = args := by
    rw [trim_cons_space]
    refine trim_eq_self hargsne ?_ ?_
    · simp only [hargs, List.head_append_of_ne_nil hne]
      exact (h.of_mem_print (List.head_mem hne)).1
    · simp only [hargs, List.getLast_append_of_ne_nil _ (List.cons_ne_nil ' ' (toText sec)),
        List.getLast_cons hsec]
      exact not_isSpace_toText (List.getLast_mem hsec)
  have hsplit : args.splitOn ' ' = [lib.printF 6 frac, toText sec] := by
    rw [hargs, List.splitOn_append_cons_self,
      List.splitOn_eq_singleton fun hmem => absurd (h.of_mem_print hmem).1 (by decide),
      List.splitOn_eq_singleton fun hmem => absurd (not_isSpace_toText hmem) (by decide)]
    rfl
  have hgot := @got_of_lt _ lib _ _ hword htext hlen (by simp)
  rw [htrim] at hgot
  rw [← hargs]
  refine hgot.trans ?_
  simp [perform, hsplit, h.parse_print, parseInt_toText sec.2.1 sec.2.2]

theorem got_word {word : Text} (hw : IsWord word) :
    got lib word = (perform lib word []).toList := by
  have hlen : (word ++ []).length < BUFFER_SIZE - 1 := by
    have := hw.length_lt
    rw [List.append_nil]
    omega
  have hgot := @got_of_lt _ lib _ [] hw (by simp) hlen (by simp)
  rwa [List.append_nil] at hgot

/-- The condition: behind what the first buffer has room for there is only white space, and a log
entry is not empty. -/
def Command.Fits : Command Double → Prop
  | .uiPrint line => '\x00' ∉ line.1 ∧ ∀ c ∈ line.1.drop (BUFFER_SIZE - 10), isSpace c = true
  | .log line => ('\x00' ∉ line.1 ∧ ∀ c ∈ line.1.drop (BUFFER_SIZE - 5), isSpace c = true) ∧
      ∃ c ∈ line.1, isSpace c = false
  | _ => True

instance : (c : Command Double) → Decidable c.Fits
  | .uiPrint line => inferInstanceAs (Decidable
      ('\x00' ∉ line.1 ∧ ∀ c ∈ line.1.drop (BUFFER_SIZE - 10), isSpace c = true))
  | .log line => inferInstanceAs (Decidable
      (('\x00' ∉ line.1 ∧ ∀ c ∈ line.1.drop (BUFFER_SIZE - 5), isSpace c = true) ∧
        ∃ c ∈ line.1, isSpace c = false))
  | .progress .. | .setProgress .. | .wipeCache | .retryUpdate | .enableReboot | .clearDisplay =>
    inferInstanceAs (Decidable True)

@[simp] theorem Command.line_uiPrint (line : Line) :
    (Command.uiPrint line).line lib = "ui_print".toList ++ ' ' :: cstr line := rfl

@[simp] theorem Command.line_progress (frac : Double) (sec : CInt) :
    (Command.progress frac sec).line lib =
      "progress".toList ++ ' ' :: (lib.printF 6 frac ++ ' ' :: toText sec) := rfl

@[simp] theorem Command.line_setProgress (precision : Fin 7) (frac : Double) :
    (Command.setProgress precision frac).line lib =
      "set_progress".toList ++ ' ' :: lib.printF precision frac := rfl

@[simp] theorem Command.line_log (line : Line) :
    (Command.log line).line lib = "log".toList ++ ' ' :: cstr line := rfl

theorem Floats.Lawful.got_of_fits (h : lib.Lawful) {c : Command Double} (hc : c.Fits) :
    got lib (c.line lib) = [c.effect lib] := by
  cases c with
  | uiPrint line =>
    rw [Command.Fits, ← room_uiPrint] at hc
    rw [Command.line_uiPrint, cstr_eq_self hc.1, isWord_uiPrint.got_of_fits line.2 hc.1 hc.2,
      perform_uiPrint]
    rfl
  | progress frac sec => exact h.got_progress frac sec
  | setProgress precision frac => exact h.got_setProgress precision frac
  | log line =>
    rw [Command.Fits, ← room_log] at hc
    obtain ⟨⟨hnul, hfits⟩, c, hmem, hspace⟩ := hc
    have hne : trim line ≠ [] := fun hnil => absurd (trim_eq_nil.mp hnil c hmem) (by simp [hspace])
    rw [Command.line_log, cstr_eq_self hnul, isWord_log.got_of_fits line.2 hnul hfits,
      perform_log hne]
    rfl
  | wipeCache =>
    have hword : IsWord "wipe_cache".toList := ⟨by decide, by decide, by decide, by decide⟩
    exact got_word hword
  | retryUpdate =>
    have hword : IsWord "retry_update".toList := ⟨by decide, by decide, by decide, by decide⟩
    exact got_word hword
  | enableReboot =>
    have hword : IsWord "enable_reboot".toList := ⟨by decide, by decide, by decide, by decide⟩
    exact got_word hword
  | clearDisplay =>
    have hword : IsWord "clear_display".toList := ⟨by decide, by decide, by decide, by decide⟩
    exact got_word hword

theorem pushLog_nil_not_mem (line : Text) : .pushLog [] ∉ got lib line := by
  intro hmem
  obtain ⟨buffer, -, hexecute⟩ := List.mem_filterMap.mp hmem
  unfold execute at hexecute
  dsimp only at hexecute
  split at hexecute
  · cases hexecute
  · exact (of_perform hexecute).2.2 rfl

/-- A command that does not fit is not among those that are executed in its place. -/
theorem effect_not_mem_got {c : Command Double} (hc : ¬ c.Fits) :
    c.effect lib ∉ got lib (c.line lib) := by
  intro hmem
  cases c with
  | uiPrint line =>
    rw [Command.Fits, ← room_uiPrint] at hc
    have hlt := isWord_uiPrint.got_of_not_fits line.2 hc hmem
    exact absurd (marks_trim line) hlt.ne
  | log line =>
    rw [Command.Fits, ← room_log] at hc
    rcases Decidable.em (∃ c ∈ line.1, isSpace c = false) with hspace | hspace
    · have hlt := isWord_log.got_of_not_fits line.2 (fun hfits => hc ⟨hfits, hspace⟩) hmem
      exact absurd (marks_trim line) hlt.ne
    · have hnil : trim line = [] := trim_eq_nil.mpr fun c hmem =>
        Bool.eq_true_of_not_eq_false fun hfalse => hspace ⟨c, hmem, hfalse⟩
      rw [Command.effect, hnil] at hmem
      exact pushLog_nil_not_mem _ hmem
  | _ => exact hc trivial

theorem Floats.Lawful.newline_not_mem (h : lib.Lawful) (c : Command Double) :
    '\n' ∉ c.line lib := by
  have hcstr (line : Line) : '\n' ∉ cstr line := fun hmem =>
    line.2 ((List.takeWhile_sublist _).subset hmem)
  have hprint (precision : Fin 7) (d : Double) : '\n' ∉ lib.printF precision d := fun hmem =>
    absurd (h.of_mem_print hmem).1 (by decide)
  have hint (k : Int) : '\n' ∉ toText k := fun hmem => absurd (not_isSpace_toText hmem) (by decide)
  cases c with
  | uiPrint line => simp [hcstr]
  | progress frac sec => simp [hprint, hint]
  | setProgress precision frac => simp [hprint]
  | log line => simp [hcstr]
  | wipeCache => exact (by decide : '\n' ∉ "wipe_cache".toList)
  | retryUpdate => exact (by decide : '\n' ∉ "retry_update".toList)
  | enableReboot => exact (by decide : '\n' ∉ "enable_reboot".toList)
  | clearDisplay => exact (by decide : '\n' ∉ "clear_display".toList)

theorem Floats.Lawful.executed_send (h : lib.Lawful) (cmds : List (Command Double)) :
    executed lib (send lib cmds) = cmds.flatMap fun c => got lib (c.line lib) := by
  induction cmds with
  | nil => rfl
  | cons c cmds ih =>
    rw [send, List.flatMap_cons, List.append_assoc, List.singleton_append, executed,
      readLines_append (h.newline_not_mem c), List.filterMap_append, List.flatMap_cons, ← ih]
    rfl

/-- What was sent is executed, exactly if every command fits. -/
theorem executed_send_iff (h : lib.Lawful) (cmds : List (Command Double)) :
    executed lib (send lib cmds) = cmds.map (·.effect lib) ↔ ∀ c ∈ cmds, c.Fits := by
  have hframes (c : Command Double) : got lib (c.line lib) = [c.effect lib] ↔ c.Fits :=
    ⟨fun heq => not_not.mp fun hc => effect_not_mem_got hc (heq ▸ List.mem_singleton_self _),
      h.got_of_fits⟩
  rw [h.executed_send, flatMap_eq_map_iff fun c => ?_]
  · exact forall₂_congr fun c _ => hframes c
  · exact (Decidable.em c.Fits).imp h.got_of_fits effect_not_mem_got

end Commands

/-- The one number 0.5. -/
def half : Floats Unit where
  printF _ _ := "0.500000".toList
  parseDouble s := if s = "0.500000".toList then some () else none
  rounded _ _ := ()
  scaled _ := ()

theorem half_lawful : half.Lawful where
  parse_print _ _ := rfl
  print_ne_nil _ _ := (by decide : "0.500000".toList ≠ [])
  length_print _ _ := (by decide : "0.500000".toList.length ≤ 320)
  of_mem_print {_ _} := (by decide : ∀ c ∈ "0.500000".toList, isSpace c = false ∧ c ≠ '\x00') _

/-- Two printed lines, a bar for ten seconds and the wipe of the cache. -/
theorem executed_send_iff_wipe :
    executed half (send half (uiPrint "wipe_cache now\n\nlog\n".toList ++
      [.progress () ⟨10, by decide⟩, .wipeCache])) =
    [.printOnScreenOnly "wipe_cache now".toList, .printOnScreenOnly "log".toList,
      .showProgress () 10, .wipeCache] := by
  refine (executed_send_iff half_lawful _).mpr ?_
  decide +kernel

/-- A message that reaches into the second buffer. -/
def overlong : Line := ⟨List.replicate 1014 'a' ++ "wipe_cache".toList, by decide +kernel⟩

/-- The end of a long message is taken for a command. -/
theorem not_executed_send : ¬ ∀ {Double : Type} (lib : Floats Double), lib.Lawful →
    ∀ cmds : List (Command Double), executed lib (send lib cmds) = cmds.map (·.effect lib) := by
  intro hall
  have hwipe : Effect.wipeCache ∈ executed half (send half [.uiPrint overlong]) := by
    decide +kernel
  rw [hall half half_lawful] at hwipe
  exact absurd (List.mem_singleton.mp hwipe) nofun

end BootableRecovery.CommandPipe
