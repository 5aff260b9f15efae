import BootableRecovery.LibBase.Strings

/-!
# `fscanf`

Formats with white space, ordinary characters and the conversions `%c`, `%d`, `%i`, `%u` and `%x`. A
format is run directive by directive; it stops at the first one that does not match, and returns the
number of conversions, or `EOF` if the input ended before the first of them.
-/

namespace BootableRecovery

inductive Conversion
  | d | i | u | x
  deriving DecidableEq

inductive Directive
  | space
  | literal (c : Char)
  | char
  | number (conv : Conversion)

/-- The directives of a format. -/
def parseFormat : Text → List Directive
  | [] => []
  | '%' :: 'c' :: s => .char :: parseFormat s
  | '%' :: 'd' :: s => .number .d :: parseFormat s
  | '%' :: 'i' :: s => .number .i :: parseFormat s
  | '%' :: 'u' :: s => .number .u :: parseFormat s
  | '%' :: 'x' :: s => .number .x :: parseFormat s
  | c :: s => (if isSpace c then .space else .literal c) :: parseFormat s

/-- The digits at the front: their value, and what follows. -/
def scanDigits (base : Nat) (s : Text) : Option (Nat × Text) :=
  let isDigit c := (digitValue base c).isSome
  if s.takeWhile isDigit = [] then none
  else some (((s.takeWhile isDigit).filterMap (digitValue base)).foldl (fun n d => n * base + d) 0,
    s.dropWhile isDigit)

/-- The base of a conversion, and the text without a prefix `0x`. -/
def Conversion.base : Conversion → Text → Nat × Text
  | .d, s | .u, s => (10, s)
  | .i, s => strtoulBase s
  | .x, s => match s with
    | '0' :: 'x' :: t => (16, t)
    | '0' :: 'X' :: t => (16, t)
    | s => (16, s)

/-- The value that is stored, before it is cut to the size of the variable: `strtoimax` and
`strtoumax` stop at the ends of their range. -/
def Conversion.value (negative : Bool) (n : Nat) : Conversion → Int
  | .d | .i => if negative then max (-n) (-2 ^ 63) else min n (2 ^ 63 - 1)
  | .u | .x => if 2 ^ 64 ≤ n then 2 ^ 64 - 1 else if negative then -n else n

/-- A number at the front. -/
def scanNumber (conv : Conversion) (s : Text) : Option (Int × Text) :=
  let (negative, s) := signOf s
  let (base, s) := conv.base s
  (scanDigits base s).map fun (n, t) => (conv.value negative n, t)

/-- The values stored so far, the input that is left, and whether it ended too early. -/
structure Scan where
  values : List Int
  rest : Text
  ended : Bool
  deriving DecidableEq

/-- The result of `fscanf`, with -1 for `EOF`. -/
def Scan.result (r : Scan) : Int := if r.ended ∧ r.values = [] then -1 else r.values.length

/-- The rest of a format, after some values. -/
def runFormat : List Directive → (values : List Int) → Text → Scan
  | [], values, s => ⟨values, s, false⟩
  | .space :: fmt, values, s => runFormat fmt values (s.dropWhile isSpace)
  | .literal _ :: _, values, [] => ⟨values, [], true⟩
  | .literal c :: fmt, values, c' :: s =>
    if c' = c then runFormat fmt values s else ⟨values, c' :: s, false⟩
  | .char :: _, values, [] => ⟨values, [], true⟩
  | .char :: fmt, values, c :: s => runFormat fmt (values ++ [(c.toNat : Int)]) s
  | .number conv :: fmt, values, s =>
    if s.dropWhile isSpace = [] then ⟨values, [], true⟩
    else match scanNumber conv (s.dropWhile isSpace) with
      | none => ⟨values, s.dropWhile isSpace, false⟩
      | some (v, t) => runFormat fmt (values ++ [v]) t

def fscanf (format : String) (s : Text) : Scan := runFormat (parseFormat format.toList) [] s

/-! ## Numbers that were printed -/

theorem scanDigits_toDigits (hb : 1 < b) (hb' : b ≤ 16) (n : Nat) {rest : Text}
    (hrest : ∀ c ∈ rest.head?, digitValue b c = none) :
    scanDigits b (Nat.toDigits b n ++ rest) = some (n, rest) := by
  obtain ⟨ds, hds, hfold⟩ := mapM_digitValue_toDigits hb hb' n
  obtain ⟨hmap, hall⟩ := filterMap_of_mapM hds
  have hstop : ∀ c ∈ rest.head?, (digitValue b c).isSome = false :=
    fun c hc => by rw [hrest c hc]; rfl
  rw [scanDigits, takeWhile_append_stop hall hstop, dropWhile_append_stop hall hstop,
    if_neg Nat.toDigits_ne_nil, hmap, hfold]

theorem digitChar_not_sign {c : Char} (h : (digitValue 16 c).isSome = true) :
    isSpace c = false ∧ c ≠ '-' ∧ c ≠ '+' ∧ c ≠ 'x' ∧ c ≠ 'X' := by
  refine ⟨?_, ?_, ?_, ?_, ?_⟩
  · by_contra hspace
    simp only [isSpace, Bool.not_eq_false, Bool.or_eq_true, decide_eq_true_eq] at hspace
    rcases hspace with ((((rfl | rfl) | rfl) | rfl) | rfl) | rfl <;> revert h <;> decide
  all_goals
    rintro rfl
    revert h
    decide

theorem isSome_digitValue_of_mem {c : Char} (hb : 1 < b) (hb' : b ≤ 16) (h : c ∈ Nat.toDigits b n) :
    (digitValue 16 c).isSome = true := by
  obtain ⟨ds, hds, -⟩ := mapM_digitValue_toDigits hb hb' n
  have hsome := (filterMap_of_mapM hds).2 c h
  unfold digitValue at hsome ⊢
  dsimp only at hsome ⊢
  revert hsome
  generalize (if c.isDigit = true then _ else _ : Option Nat) = v
  cases v with
  | none => simp
  | some v =>
    simp only [Option.filter_some, decide_eq_true_eq]
    split
    · intro _
      rw [if_pos (by omega)]
      rfl
    · simp

theorem exists_toDigits_eq_cons (hb : 1 < b) (hb' : b ≤ 16) (n : Nat) :
    ∃ c s, Nat.toDigits b n = c :: s ∧ isSpace c = false ∧ c ≠ '-' ∧ c ≠ '+' := by
  obtain ⟨c, s, hs⟩ := List.exists_cons_of_ne_nil (@Nat.toDigits_ne_nil n b)
  have hdigit := digitChar_not_sign (isSome_digitValue_of_mem hb hb' (hs ▸ List.mem_cons_self))
  exact ⟨c, s, hs, hdigit.1, hdigit.2.1, hdigit.2.2.1⟩

theorem Conversion.base_toDigits (hb : 1 < b) (hb' : b ≤ 16) {n : Nat} (hn : 0 < n) (rest : Text)
    {conv : Conversion} (hconv : b = match conv with
      | .x => 16
      | _ => 10) :
    conv.base (Nat.toDigits b n ++ rest) = (b, Nat.toDigits b n ++ rest) := by
  obtain ⟨c, s, hs, hc⟩ := head_toDigits hb hb' hn
  rw [hs, List.cons_append]
  cases conv with
  | d | u => rw [hconv]; rfl
  | i => rw [hconv]; exact strtoulBase_cons hc _
  | x =>
    rw [hconv]
    unfold Conversion.base
    dsimp only
    split
    · rename_i heq
      exact absurd (List.cons.inj heq).1 hc
    · rename_i heq
      exact absurd (List.cons.inj heq).1 hc
    · rfl

theorem runFormat_toDigits (hb : 1 < b) (hb' : b ≤ 16) {conv : Conversion} {n : Nat} {rest : Text}
    (hbase : conv.base (Nat.toDigits b n ++ rest) = (b, Nat.toDigits b n ++ rest)) (hn : n < 2 ^ 63)
    (hrest : ∀ c ∈ rest.head?, digitValue b c = none) (fmt : List Directive) (values : List Int) :
    runFormat (.number conv :: fmt) values (Nat.toDigits b n ++ rest) =
      runFormat fmt (values ++ [(n : Int)]) rest := by
  have hdigits := scanDigits_toDigits hb hb' n hrest
  have hvalue : conv.value false n = n := by
    cases conv <;> simp only [Conversion.value, Bool.false_eq_true, if_false] <;> omega
  obtain ⟨c, s, hs, hspace, hminus, hplus⟩ := exists_toDigits_eq_cons hb hb' n
  rw [hs, List.cons_append] at hbase hdigits ⊢
  rw [runFormat, List.dropWhile_cons_of_neg (by simp [hspace]), if_neg (List.cons_ne_nil _ _),
    scanNumber, signOf_cons ⟨hminus, hplus⟩]
  dsimp only
  rw [hbase]
  dsimp only
  rw [hdigits, Option.map_some, hvalue]

/-! ## Running a format -/

theorem runFormat_nil (values : List Int) (s : Text) : runFormat [] values s = ⟨values, s, false⟩ :=
  rfl

theorem runFormat_space {c : Char} (hc : isSpace c = false) (fmt : List Directive)
    (values : List Int) (s : Text) :
    runFormat (.space :: fmt) values (c :: s) = runFormat fmt values (c :: s) := by
  rw [runFormat, List.dropWhile_cons_of_neg (by simp [hc])]

theorem runFormat_space_toDigits (hb : 1 < b) (hb' : b ≤ 16) (n : Nat) (fmt : List Directive)
    (values : List Int) (rest : Text) :
    runFormat (.space :: fmt) values (Nat.toDigits b n ++ rest) =
      runFormat fmt values (Nat.toDigits b n ++ rest) := by
  obtain ⟨c, s, hs, hspace, -⟩ := exists_toDigits_eq_cons hb hb' n
  rw [hs, List.cons_append, runFormat_space hspace]

theorem runFormat_literal (c : Char) (fmt : List Directive) (values : List Int) (s : Text) :
    runFormat (.literal c :: fmt) values (c :: s) = runFormat fmt values s := by
  rw [runFormat, if_pos rfl]

theorem runFormat_char (c : Char) (fmt : List Directive) (values : List Int) (s : Text) :
    runFormat (.char :: fmt) values (c :: s) = runFormat fmt (values ++ [(c.toNat : Int)]) s := rfl

end BootableRecovery
