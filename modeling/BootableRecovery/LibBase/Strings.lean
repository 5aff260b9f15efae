import Mathlib.Data.Nat.Digits.Defs
import Mathlib.Data.List.DropRight

/-!
# Strings and numbers

The functions of `android::base` and of the standard library that the updater reads its texts with:
`Split` at a single character is `List.splitOn`; `Trim`, `ParseUint`, `ParseInt` and
`std::to_string` are defined here.
-/

namespace BootableRecovery

/-- A text: the characters of a `std::string`. -/
abbrev Text := List Char

-- A text is searched for a character, and never the type of characters.
instance (l : Text) (p : Char → Prop) [DecidablePred p] : Decidable (∀ c ∈ l, p c) :=
  List.decidableBAll p l

instance (t : Text) (l : List Text) : Decidable (t ∈ l) := List.instDecidableMemOfLawfulBEq t l

/-- The C string that a text begins with: what stands before its first NUL. -/
def cstr (s : Text) : Text := s.takeWhile (· ≠ '\x00')

theorem cstr_append_zeros {s : Text} (h : '\x00' ∉ s) (n : Nat) :
    cstr (s ++ List.replicate n '\x00') = s := by
  have hall : ∀ c ∈ s, decide (c ≠ '\x00') = true := by
    intro c hc
    simpa using fun heq : c = '\x00' => h (heq ▸ hc)
  rw [cstr, List.takeWhile_append_of_pos hall]
  cases n <;> simp [List.replicate_succ]

theorem cstr_eq_self {s : Text} (h : '\x00' ∉ s) : cstr s = s := by
  simpa using cstr_append_zeros h 0

theorem mem_of_mem_cstr {s : Text} (h : c ∈ cstr s) : c ∈ s := (List.takeWhile_sublist _).subset h

/-- `isspace` in the C locale. -/
def isSpace (c : Char) : Bool :=
  c = ' ' || c = '\t' || c = '\n' || c = '\x0b' || c = '\x0c' || c = '\x0d'

/-- `android::base::Trim`. -/
def trim (s : Text) : Text := (s.dropWhile isSpace).rdropWhile isSpace

/-- The value of a digit in a base up to 16. -/
def digitValue (base : Nat) (c : Char) : Option Nat :=
  let v := if c.isDigit then some (c.toNat - '0'.toNat)
    else if 'a' ≤ c ∧ c ≤ 'f' then some (c.toNat - 'a'.toNat + 10)
    else if 'A' ≤ c ∧ c ≤ 'F' then some (c.toNat - 'A'.toNat + 10)
    else none
  v.filter (· < base)

/-- A text that consists of digits only, at least one of them. -/
def digitsValue (base : Nat) (s : Text) : Option Nat :=
  if s = [] then none
  else (s.mapM (digitValue base)).map fun ds => ds.foldl (fun n d => n * base + d) 0

/-- The base that the parsers choose, and the text with the prefix `0x` removed. -/
def baseOf : Text → Nat × Text
  | '0' :: 'x' :: s => (16, s)
  | '0' :: 'X' :: s => (16, s)
  | s => (10, s)

/-- `android::base::ParseUint` with the default maximum of a `size_t`. It reads the `c_str()` of a
`std::string`, and so do `ParseInt` and its siblings. -/
def parseUint (s : Text) : Option Nat :=
  match (cstr s).dropWhile isSpace with
  | '-' :: _ => none
  | '+' :: t => (digitsValue 10 t).filter (· < 2 ^ 64)
  | s => (digitsValue (baseOf s).1 (baseOf s).2).filter (· < 2 ^ 64)

/-- The sign in front of a number: whether it is a minus, and the rest. -/
def signOf : Text → Bool × Text
  | '-' :: t => (true, t)
  | '+' :: t => (false, t)
  | t => (false, t)

/-- The base that `strtoul` chooses for the base 0, and the digits with what follows them. -/
def strtoulBase : Text → Nat × Text
  | '0' :: 'x' :: t =>
    if t.head?.any fun c => (digitValue 16 c).isSome then (16, t) else (8, '0' :: 'x' :: t)
  | '0' :: 'X' :: t =>
    if t.head?.any fun c => (digitValue 16 c).isSome then (16, t) else (8, '0' :: 'X' :: t)
  | '0' :: t => (8, '0' :: t)
  | t => (10, t)

/-- `strtol` with base 10 or 16, before it stops at the ends of a `long`: 0 where there is no
number. -/
def strtol (base : Nat) (s : Text) : Int :=
  let (negative, s) := signOf (s.dropWhile isSpace)
  let s := match s with
    | '0' :: 'x' :: t => if base = 16 ∧ t.head?.any fun c => (digitValue 16 c).isSome then t else s
    | '0' :: 'X' :: t => if base = 16 ∧ t.head?.any fun c => (digitValue 16 c).isSome then t else s
    | _ => s
  let n := (digitsValue base (s.takeWhile fun c => (digitValue base c).isSome)).getD 0
  if negative then -n else n

/-- `atoi`: the `long` of `strtol`, cut to an `int`. -/
def atoi (s : Text) : Int := Int.bmod (max (-2 ^ 63) (min (2 ^ 63 - 1) (strtol 10 s))) (2 ^ 32)

/-- The largest `int`. -/
def INT_MAX : Nat := 2 ^ 31 - 1

/-- `android::base::ParseInt` into an `int`. -/
def parseInt (s : Text) : Option Int :=
  let v : Option Int := match (cstr s).dropWhile isSpace with
    | '-' :: t => (digitsValue 10 t).map fun n : Nat => -(n : Int)
    | '+' :: t => (digitsValue 10 t).map fun n : Nat => (n : Int)
    | s => (digitsValue (baseOf s).1 (baseOf s).2).map fun n : Nat => (n : Int)
  v.filter fun n => -(INT_MAX : Int) - 1 ≤ n && n ≤ INT_MAX

/-- `android::base::ParseInt` into an `int64_t`. -/
def parseInt64 (s : Text) : Option Int :=
  let v : Option Int := match (cstr s).dropWhile isSpace with
    | '-' :: t => (digitsValue 10 t).map fun n : Nat => -(n : Int)
    | '+' :: t => (digitsValue 10 t).map fun n : Nat => (n : Int)
    | s => (digitsValue (baseOf s).1 (baseOf s).2).map fun n : Nat => (n : Int)
  v.filter fun n => -(2 ^ 63 : Int) ≤ n && n ≤ 2 ^ 63 - 1

/-- `std::to_string` of an `int`. -/
def toText : Int → Text
  | .ofNat n => Nat.toDigits 10 n
  | .negSucc n => '-' :: Nat.toDigits 10 (n + 1)

/-! ## Reading back what was printed -/

theorem digitValue_digitChar {b d : Nat} (hb : b ≤ 16) (hd : d < b) :
    digitValue b d.digitChar = some d := by
  have hall : ∀ b ≤ 16, ∀ d < b, digitValue b d.digitChar = some d := by decide
  exact hall b hb d hd

theorem mapM_digitValue_toDigits (hb : 1 < b) (hb' : b ≤ 16) (n : Nat) :
    ∃ ds, (Nat.toDigits b n).mapM (digitValue b) = some ds ∧
    ds.foldl (fun n d => n * b + d) 0 = n := by
  induction n using Nat.strong_induction_on with
  | _ n ih =>
    rcases Nat.lt_or_ge n b with h | h
    · exact ⟨[n], by simp [Nat.toDigits_of_lt_base h, digitValue_digitChar hb' h], by simp⟩
    · obtain ⟨ds, hds, hn⟩ := ih (n / b) (Nat.div_lt_self (by omega) hb)
      refine ⟨ds ++ [n % b], ?_, ?_⟩
      · rw [Nat.toDigits_of_base_le hb h, List.mapM_append, hds]
        simp [digitValue_digitChar hb' (Nat.mod_lt n (by omega : 0 < b))]
      · rw [List.foldl_append, hn]
        exact Nat.div_add_mod' n b

theorem digitsValue_toDigits (n : Nat) : digitsValue 10 (Nat.toDigits 10 n) = some n := by
  obtain ⟨ds, hds, hn⟩ := mapM_digitValue_toDigits (by decide : 1 < 10) (by decide) n
  rw [digitsValue, if_neg Nat.toDigits_ne_nil, hds, Option.map_some, hn]

theorem toDigits_injective : Function.Injective (Nat.toDigits 10) := by
  intro m n h
  have hm := digitsValue_toDigits m
  rw [h, digitsValue_toDigits] at hm
  exact (Option.some.inj hm).symm

theorem head_toDigits (hb : 1 < b) (hb' : b ≤ 16) {n : Nat} (h : 0 < n) :
    ∃ c s, Nat.toDigits b n = c :: s ∧ c ≠ '0' := by
  induction n using Nat.strong_induction_on with
  | _ n ih =>
    rcases Nat.lt_or_ge n b with hn | hn
    · have hdigit : ∀ n < 16, 0 < n → n.digitChar ≠ '0' := by decide
      exact ⟨_, [], Nat.toDigits_of_lt_base hn, hdigit n (by omega) h⟩
    · obtain ⟨c, s, hs, hc⟩ := ih (n / b) (Nat.div_lt_self h hb) (Nat.div_pos hn (by omega))
      exact ⟨c, s ++ [(n % b).digitChar], by rw [Nat.toDigits_of_base_le hb hn, hs]; rfl, hc⟩

theorem filterMap_of_mapM {l : List Char} {f : Char → Option Nat} {ds : List Nat}
    (h : l.mapM f = some ds) : l.filterMap f = ds ∧ ∀ c ∈ l, (f c).isSome := by
  induction l generalizing ds with
  | nil =>
    cases h
    simp
  | cons c l ih =>
    rw [List.mapM_cons] at h
    obtain ⟨d, hd, h⟩ := Option.bind_eq_some_iff.mp h
    obtain ⟨ds, hds, h⟩ := Option.bind_eq_some_iff.mp h
    cases h
    rw [List.filterMap_cons_some hd, (ih hds).1, List.forall_mem_cons, hd]
    exact ⟨rfl, rfl, (ih hds).2⟩

theorem isDigit_toDigits (h : c ∈ Nat.toDigits 10 n) : c.isDigit :=
  Nat.isDigit_of_mem_toDigits (by decide) (by decide) h

theorem nul_notMem_toDigits (n : Nat) : '\x00' ∉ Nat.toDigits 10 n := fun h =>
  absurd (isDigit_toDigits h) (by decide)

theorem nul_notMem_toText (k : Int) : '\x00' ∉ toText k := by
  cases k with
  | ofNat n => exact nul_notMem_toDigits n
  | negSucc n =>
    rw [toText, List.mem_cons, not_or]
    exact ⟨by decide, nul_notMem_toDigits _⟩

theorem not_isSpace_of_isDigit {c : Char} (h : c.isDigit) : isSpace c = false := by
  simp only [isSpace, Bool.or_eq_false_iff, decide_eq_false_iff_not]
  refine ⟨⟨⟨⟨⟨?_, ?_⟩, ?_⟩, ?_⟩, ?_⟩, ?_⟩ <;> rintro rfl <;> revert h <;> decide

theorem baseOf_toDigits (n : Nat) : baseOf (Nat.toDigits 10 n) = (10, Nat.toDigits 10 n) := by
  have hx : ∀ c ∈ Nat.toDigits 10 n, c ≠ 'x' ∧ c ≠ 'X' := by
    intro c hc
    have := isDigit_toDigits hc
    constructor <;> rintro rfl <;> revert this <;> decide
  generalize Nat.toDigits 10 n = s at hx
  unfold baseOf
  split
  · exact absurd rfl (hx 'x' (by simp)).1
  · exact absurd rfl (hx 'X' (by simp)).2
  · rfl

theorem signOf_cons {c : Char} (h : c ≠ '-' ∧ c ≠ '+') (s : Text) :
    signOf (c :: s) = (false, c :: s) := by
  unfold signOf
  split
  · rename_i heq
    exact absurd (List.cons.inj heq).1 h.1
  · rename_i heq
    exact absurd (List.cons.inj heq).1 h.2
  · rfl

theorem strtoulBase_cons {c : Char} (h : c ≠ '0') (s : Text) :
    strtoulBase (c :: s) = (10, c :: s) := by
  unfold strtoulBase
  split
  · rename_i heq
    exact absurd (List.cons.inj heq).1 h
  · rename_i heq
    exact absurd (List.cons.inj heq).1 h
  · rename_i heq
    exact absurd (List.cons.inj heq).1 h
  · rfl

theorem parseInt_toText {k : Int} (h₁ : -(INT_MAX : Int) - 1 ≤ k) (h₂ : k ≤ INT_MAX) :
    parseInt (toText k) = some k := by
  rw [parseInt, cstr_eq_self (nul_notMem_toText k)]
  cases k with
  | ofNat n =>
    obtain ⟨c, s, hs⟩ : ∃ c s, Nat.toDigits 10 n = c :: s := by
      rcases h : Nat.toDigits 10 n with _ | ⟨c, s⟩
      · exact absurd h Nat.toDigits_ne_nil
      · exact ⟨c, s, rfl⟩
    have hc : c.isDigit := isDigit_toDigits (hs ▸ List.mem_cons_self)
    have hv := digitsValue_toDigits n
    have hb := baseOf_toDigits n
    simp only [toText, hs] at hv hb ⊢
    rw [List.dropWhile_cons_of_neg (by simp [not_isSpace_of_isDigit hc])]
    have hm : c ≠ '-' := by rintro rfl; revert hc; decide
    have hp : c ≠ '+' := by rintro rfl; revert hc; decide
    split
    · rename_i heq; cases heq; exact absurd rfl hm
    · rename_i heq; cases heq; exact absurd rfl hp
    · rw [hb, hv, Option.map_some, Option.filter_some, if_pos]
      · rfl
      · rw [Bool.and_eq_true, decide_eq_true_iff, decide_eq_true_iff]
        exact ⟨h₁, h₂⟩
  | negSucc n =>
    rw [toText, List.dropWhile_cons_of_neg (by decide)]
    simp only [digitsValue_toDigits, Option.map_some]
    have : -((n + 1 : Nat) : Int) = Int.negSucc n := rfl
    rw [this, Option.filter_some, if_pos]
    rw [Bool.and_eq_true, decide_eq_true_iff, decide_eq_true_iff]
    exact ⟨h₁, h₂⟩

theorem parseUint_toDigits {n : Nat} (h : n < 2 ^ 64) : parseUint (Nat.toDigits 10 n) = some n := by
  obtain ⟨c, t, hs⟩ := List.exists_cons_of_ne_nil (Nat.toDigits_ne_nil (b := 10) (n := n))
  have hc : c.isDigit := isDigit_toDigits (hs ▸ List.mem_cons_self)
  have hm : c ≠ '-' := by
    intro heq
    rw [heq] at hc
    exact absurd hc (by decide)
  have hp : c ≠ '+' := by
    intro heq
    rw [heq] at hc
    exact absurd hc (by decide)
  have hvalue := digitsValue_toDigits n
  have hbase := baseOf_toDigits n
  rw [parseUint, cstr_eq_self (nul_notMem_toDigits n)]
  rw [hs] at hvalue hbase ⊢
  rw [List.dropWhile_cons_of_neg (by simp [not_isSpace_of_isDigit hc])]
  split
  · rename_i heq
    exact absurd (List.cons.inj heq).1 hm
  · rename_i heq
    exact absurd (List.cons.inj heq).1 hp
  · rw [hbase, hvalue, Option.filter_some, if_pos (by simpa using h)]

theorem toText_ne_nil (k : Int) : toText k ≠ [] := by
  cases k with
  | ofNat n => exact Nat.toDigits_ne_nil
  | negSucc n => simp [toText]

theorem not_isSpace_toText {k : Int} (h : c ∈ toText k) : isSpace c = false := by
  cases k with
  | ofNat n => exact not_isSpace_of_isDigit (isDigit_toDigits h)
  | negSucc n =>
    rcases List.mem_cons.mp h with rfl | h
    · decide
    · exact not_isSpace_of_isDigit (isDigit_toDigits h)

/-! ## Pieces and trimmed texts -/

theorem takeWhile_append_stop {p : Char → Bool} {s rest : Text} (hs : ∀ c ∈ s, p c = true)
    (hrest : ∀ c ∈ rest.head?, p c = false) : (s ++ rest).takeWhile p = s := by
  rw [List.takeWhile_append_of_pos hs]
  cases rest with
  | nil => simp
  | cons c rest => rw [List.takeWhile_cons_of_neg (by simp [hrest c rfl]), List.append_nil]

theorem dropWhile_append_stop {p : Char → Bool} {s rest : Text} (hs : ∀ c ∈ s, p c = true)
    (hrest : ∀ c ∈ rest.head?, p c = false) : (s ++ rest).dropWhile p = rest := by
  rw [List.dropWhile_append_of_pos hs]
  cases rest with
  | nil => rfl
  | cons c rest => rw [List.dropWhile_cons_of_neg (by simp [hrest c rfl])]

theorem head_splitOn (a : Char) (s : Text) : (s.splitOn a).head? = some (s.takeWhile (· ≠ a)) := by
  induction s with
  | nil => simp
  | cons x s ih =>
    rw [List.splitOn_cons_eq_if_modifyHead]
    obtain ⟨r, rs, hr⟩ := List.exists_cons_of_ne_nil (List.splitOn_ne_nil a s)
    rw [hr, List.head?_cons, Option.some.injEq] at ih
    by_cases hx : x = a <;> simp [hx, hr, ih]

theorem of_mem_splitOn {a : Char} {s w : Text} (h : w ∈ s.splitOn a) : a ∉ w ∧ ∀ c ∈ w, c ∈ s := by
  induction s generalizing w with
  | nil =>
    cases List.mem_singleton.mp (by simpa using h)
    simp
  | cons x s ih =>
    rw [List.splitOn_cons_eq_if_modifyHead] at h
    split at h
    · rcases List.mem_cons.mp h with rfl | h
      · simp
      · exact ⟨(ih h).1, fun c hc => List.mem_cons_of_mem _ ((ih h).2 c hc)⟩
    · rename_i hx
      obtain ⟨r, rs, hr⟩ := List.exists_cons_of_ne_nil (List.splitOn_ne_nil a s)
      rw [hr, List.modifyHead_cons] at h
      rcases List.mem_cons.mp h with rfl | h
      · have hr' := ih (hr ▸ List.mem_cons_self)
        refine ⟨?_, fun c hc => ?_⟩
        · rw [List.mem_cons, not_or]
          exact ⟨fun heq => hx (by simp [heq]), hr'.1⟩
        · rcases List.mem_cons.mp hc with rfl | hc
          · exact List.mem_cons_self
          · exact List.mem_cons_of_mem _ (hr'.2 c hc)
      · have hr' := ih (hr ▸ List.mem_cons_of_mem _ h)
        exact ⟨hr'.1, fun c hc => List.mem_cons_of_mem _ (hr'.2 c hc)⟩

/-- `Trim` keeps a start that is no white space, and takes white space away from the end. -/
theorem trim_cons_append {c : Char} {s t : Text} (hc : isSpace c = false)
    (ht : ∃ c ∈ t, isSpace c = false) : trim (c :: s ++ t) = c :: s ++ t.rdropWhile isSpace := by
  have hdrop : (c :: s ++ t).dropWhile isSpace = c :: s ++ t := by
    rw [List.cons_append, List.dropWhile_cons_of_neg (by simp [hc])]
  obtain ⟨c', hc', hsp⟩ := ht
  rw [trim, hdrop, List.rdropWhile, List.reverse_append, List.dropWhile_append, if_neg,
    List.reverse_append, List.reverse_reverse, List.rdropWhile]
  intro hempty
  have := List.dropWhile_eq_nil_iff.mp (by simpa using hempty) c' (by simpa using hc')
  exact absurd this (by simp [hsp])

theorem splitOn_pieces_append {c : Char} {pieces : List Text} (h : ∀ p ∈ pieces, c ∉ p) (t : Text) :
    (pieces.flatMap (· ++ [c]) ++ t).splitOn c = pieces ++ t.splitOn c := by
  induction pieces with
  | nil => rfl
  | cons p pieces ih =>
    rw [List.flatMap_cons, List.append_assoc, List.append_assoc, List.singleton_append,
      List.splitOn_append_cons_self, ih fun p hp => h p (List.mem_cons_of_mem _ hp),
      List.splitOn_eq_singleton (h p List.mem_cons_self)]
    rfl

theorem splitOn_pieces {c : Char} {pieces : List Text} (h : ∀ p ∈ pieces, c ∉ p) :
    (pieces.flatMap (· ++ [c])).splitOn c = pieces ++ [[]] := by
  have happ := splitOn_pieces_append h []
  rwa [List.append_nil, List.splitOn_nil] at happ

theorem flatMap_splitOn (c : Char) (s : Text) : (s.splitOn c).flatMap (· ++ [c]) = s ++ [c] := by
  obtain ⟨p, pieces, hpieces⟩ := List.exists_cons_of_ne_nil (List.splitOn_ne_nil c s)
  have hjoin : [c].intercalate (s.splitOn c) = s := List.intercalate_splitOn c
  rw [hpieces] at hjoin ⊢
  rw [← hjoin]
  clear hjoin hpieces
  induction pieces generalizing p with
  | nil => simp
  | cons p' pieces ih =>
    rw [List.intercalate_cons_cons, List.flatMap_cons, ih, List.append_assoc, List.append_assoc,
      List.append_assoc]

theorem splitOn_lines_append {lines : List Text} (h : ∀ l ∈ lines, '\n' ∉ l) (t : Text) :
    (lines.flatMap (· ++ ['\n']) ++ t).splitOn '\n' = lines ++ t.splitOn '\n' :=
  splitOn_pieces_append h t

theorem splitOn_lines {lines : List Text} (h : ∀ l ∈ lines, '\n' ∉ l) :
    (lines.flatMap (· ++ ['\n'])).splitOn '\n' = lines ++ [[]] := splitOn_pieces h

theorem dropLast_lines {lines : List Text} (hne : lines ≠ []) (h : ∀ l ∈ lines, '\n' ∉ l) :
    (lines.flatMap (· ++ ['\n'])).dropLast.splitOn '\n' = lines := by
  have happ : ((lines.flatMap (· ++ ['\n'])).dropLast ++ '\n' :: []).splitOn '\n' =
      lines ++ [[]] := by
    rw [← splitOn_lines h]
    congr 1
    rw [← List.dropLast_append_getLast hne, List.flatMap_append]
    simp [← List.append_assoc]
  rw [List.splitOn_append_cons_self, List.splitOn_nil] at happ
  exact List.append_cancel_right happ

/-- `Trim` takes the white space after a text away, if the text does not end in white space
itself. -/
theorem trim_append_of_isSpace {c d : Char} {s t : Text} (hc : isSpace c = false)
    (hd : isSpace d = false) (ht : ∀ c ∈ t, isSpace c = true) :
    trim (c :: s ++ d :: t) = c :: s ++ [d] := by
  rw [trim_cons_append hc ⟨d, List.mem_cons_self, hd⟩, List.rdropWhile, List.reverse_cons,
    List.dropWhile_append_of_pos (by simpa using ht), List.dropWhile_cons_of_neg (by simp [hd])]
  rfl

end BootableRecovery
