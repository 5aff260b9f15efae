import BootableRecovery.LibBase.Strings
import Mathlib.Data.List.PeriodicityLemma

/-!
# The text log

`NewLine`, `PrintV` and `ClearText` of `screen_ui.cpp`: the rows of text on the screen, into which
the log is printed from below. The rows are the arrays of `text_`, from the top.
-/

namespace BootableRecovery.ScreenUI

/-- The array of a row, with its `text_cols_ + 1` characters. -/
abbrev Row := Text

def nul : Char := Char.ofNat 0

/-- `text_rows_` and `text_cols_` -/
structure TextSize where
  textRows : Nat
  textCols : Nat

/-- The text of `ScreenRecoveryUI`. -/
@[ext] structure Console where
  text : List Row
  textCol : Nat
  textRow : Nat
  previousRowEnded : Bool
  deriving DecidableEq

/-- Sets a character of a row, at `text_col_`. -/
def Console.write (c : Console) (row : Nat) (ch : Char) : Console :=
  { c with text := c.text.modify row fun r => r.set c.textCol ch }

namespace TextSize

variable (d : TextSize)

/-- `text_rows_ - 1` of a `size_t` -/
def lastRow : Nat := if d.textRows = 0 then 2 ^ 64 - 1 else d.textRows - 1

def blankRow : Row := List.replicate (d.textCols + 1) nul

/-- The state after `Init`. -/
def init : Console := ⟨List.replicate d.textRows d.blankRow, 0, d.lastRow, false⟩

def newLine (c : Console) : Console := { c with text := c.text.tail ++ [d.blankRow], textCol := 0 }

/-- One round of the loop of `PrintV`; `atEnd` if there is no character behind this one. -/
def printChar (ch : Char) (atEnd : Bool) (c : Console) : Console :=
  let c :=
    if ch = '\n' ∧ atEnd = true then
      -- scroll on the next print
      { c.write d.lastRow nul with previousRowEnded := true }
    else if (ch = '\n' ∧ atEnd = false) ∨ d.textCols ≤ c.textCol then
      d.newLine (c.write d.lastRow nul)
    else c
  if ch ≠ '\n' then { c.write d.lastRow ch with textCol := c.textCol + 1 } else c

def printChars : Text → Console → Console
  | [], c => c
  | ch :: rest, c => printChars rest (d.printChar ch rest.isEmpty c)

/-- The start of `PrintV`: the scroll that the last print has left. -/
def scrollEnded (c : Console) : Console :=
  { (if c.previousRowEnded then d.newLine c else c) with previousRowEnded := false }

/-- `PrintV` of a formatted text, which a 0 ends. -/
def printV (str : Text) (c : Console) : Console :=
  if 0 < d.textRows ∧ 0 < d.textCols then
    (d.printChars (str.takeWhile (· ≠ nul)) (d.scrollEnded c)).write d.lastRow nul
  else c

/-- One print after the other. -/
def prints (strs : List Text) (c : Console) : Console := strs.foldl (fun c str => d.printV str c) c

/-- The log after the prints `earlier`. -/
def logAfter (earlier : List Text) : Console := d.prints earlier d.init

def clearText (c : Console) : Console :=
  { c with textCol := 0, textRow := 0, text := c.text.map fun _ => d.blankRow }

/-! ## Rows that fill up -/

/-- The array of a row with a text at its start. -/
def rowOf (p : Text) : Row := p ++ List.replicate (d.textCols + 1 - p.length) nul

/-- The rows that a text fills before its last one. -/
def fullRows (p : Text) : List Row :=
  (List.range ((p.length - 1) / d.textCols)).map fun i =>
  d.rowOf ((p.drop (i * d.textCols)).take d.textCols)

/-- What stands in the last row of a text. -/
def lastPart (p : Text) : Text := p.drop ((p.length - 1) / d.textCols * d.textCols)

variable {d} {c : Console} {lines : List Row} {p s : Text} {str : Text} {ch : Char}

theorem rowOf_nil : d.rowOf [] = d.blankRow := rfl

theorem rowOf_set (hp : p.length ≤ d.textCols) (ch : Char) : (d.rowOf p).set p.length ch =
    p ++ ch :: List.replicate (d.textCols - p.length) nul := by
  have hn : d.textCols + 1 - p.length = (d.textCols - p.length) + 1 := by omega
  rw [rowOf, hn, List.replicate_succ, List.set_append_right _ _ (Nat.le_refl _), Nat.sub_self,
    List.set_cons_zero]

theorem rowOf_set_nul (hp : p.length ≤ d.textCols) : (d.rowOf p).set p.length nul = d.rowOf p := by
  have hn : d.textCols + 1 - p.length = (d.textCols - p.length) + 1 := by omega
  rw [rowOf_set hp, rowOf, hn, List.replicate_succ]

theorem rowOf_concat (hp : p.length ≤ d.textCols) :
    (d.rowOf p).set p.length ch = d.rowOf (p ++ [ch]) := by
  rw [rowOf_set hp, rowOf, List.length_append, List.length_singleton, List.append_assoc,
    List.singleton_append, Nat.add_sub_add_right]

theorem eq_nil_of_rowOf (hp : nul ∉ p) (h : d.rowOf p = d.blankRow) : p = [] := by
  cases p with
  | nil => rfl
  | cons ch p =>
    have hch : ch ∈ d.blankRow := h ▸ List.mem_cons_self
    exact absurd (List.mem_cons_self) (List.eq_of_mem_replicate hch ▸ hp)

theorem fullRows_of_le (hcols : 0 < d.textCols) (hp : p.length ≤ d.textCols) :
    d.fullRows p = [] ∧ d.lastPart p = p := by
  have hdiv : (p.length - 1) / d.textCols = 0 := Nat.div_eq_of_lt (by omega)
  simp [fullRows, lastPart, hdiv]

theorem fullRows_append (hcols : 0 < d.textCols) (hp : p.length = d.textCols) (hs : s ≠ []) :
    d.fullRows (p ++ s) = d.rowOf p :: d.fullRows s ∧ d.lastPart (p ++ s) = d.lastPart s := by
  have hpos : 0 < s.length := List.length_pos_iff.mpr hs
  have hlen : (p ++ s).length - 1 = s.length - 1 + d.textCols := by
    rw [List.length_append]
    omega
  have hdiv : ((p ++ s).length - 1) / d.textCols = (s.length - 1) / d.textCols + 1 := by
    rw [hlen, Nat.add_div_right _ hcols]
  constructor
  · rw [fullRows, hdiv, List.range_succ_eq_map, List.map_cons, List.map_map, fullRows]
    congr 1
    · rw [Nat.zero_mul, List.drop_zero, ← hp, List.take_left]
    · apply List.map_congr_left
      intro i _
      rw [Function.comp_apply, Nat.succ_mul, Nat.add_comm (i * d.textCols), ← hp,
        List.drop_length_add_append]
  · rw [lastPart, hdiv, Nat.succ_mul, Nat.add_comm (_ * d.textCols), ← hp,
      List.drop_length_add_append, hp, lastPart]

/-! ## Prints -/

theorem modify_length_concat (lines : List Row) (r : Row) (f : Row → Row) :
    (lines ++ [r]).modify lines.length f = lines ++ [f r] := by
  induction lines with
  | nil => rfl
  | cons l lines ih => exact congrArg (l :: ·) ih

/-- The log ends in a row that holds the text `p`, with the cursor behind it. -/
structure At (d : TextSize) (c : Console) (lines : List Row) (p : Text) : Prop where
  text : c.text = lines ++ [d.rowOf p]
  length : lines.length + 1 = d.textRows
  col : c.textCol = p.length
  le : p.length ≤ d.textCols

namespace At

theorem lastRow (h : At d c lines p) : d.lastRow = lines.length := by
  rw [TextSize.lastRow, if_neg (by have := h.length; omega), ← h.length, Nat.add_sub_cancel]

theorem write (h : At d c lines p) (ch : Char) :
    (c.write d.lastRow ch).text = lines ++ [(d.rowOf p).set p.length ch] := by
  rw [Console.write, h.text, h.lastRow, h.col]
  exact modify_length_concat ..

theorem write_nul (h : At d c lines p) : c.write d.lastRow nul = c := by
  apply Console.ext
  · rw [h.write, rowOf_set_nul h.le, h.text]
  all_goals rfl

theorem put (h : At d c lines p) (hlt : p.length < d.textCols) (ch : Char) :
    At d { c.write d.lastRow ch with textCol := c.textCol + 1 } lines (p ++ [ch]) where
  text := (h.write ch).trans (by rw [rowOf_concat h.le])
  length := h.length
  col := by simp [h.col]
  le := by simpa using Nat.succ_le_of_lt hlt

theorem newLine (h : At d c lines p) : At d (d.newLine c) (lines ++ [d.rowOf p]).tail [] where
  text := by rw [TextSize.newLine, h.text, rowOf_nil]
  length := by simpa using h.length
  col := rfl
  le := Nat.zero_le _

theorem scrollEnded_of_true (h : At d c lines p) (hprev : c.previousRowEnded = true) :
    At d (d.scrollEnded c) (lines ++ [d.rowOf p]).tail [] := by
  rw [scrollEnded, if_pos hprev]
  exact { h.newLine with }

end At

theorem scrollEnded_of_false (hprev : c.previousRowEnded = false) : d.scrollEnded c = c := by
  rw [scrollEnded, if_neg (by simp [hprev])]
  exact Console.ext rfl rfl rfl hprev.symm

theorem At.printChar_lt (h : At d c lines p) (hlt : p.length < d.textCols) (hch : ch ≠ '\n')
    (atEnd : Bool) :
    d.printChar ch atEnd c = { c.write d.lastRow ch with textCol := c.textCol + 1 } := by
  simp [printChar, hch, h.col, Nat.not_le_of_lt hlt]

theorem At.printChar_full (h : At d c lines p) (hfull : d.textCols ≤ p.length) (hch : ch ≠ '\n')
    (atEnd : Bool) :
    d.printChar ch atEnd c = { (d.newLine c).write d.lastRow ch with textCol := 1 } := by
  have hcol : (d.newLine c).textCol = 0 := rfl
  simp [printChar, hch, h.col, hfull, h.write_nul, hcol]

theorem At.printChar_newline (h : At d c lines p) (atEnd : Bool) :
    d.printChar '\n' atEnd c = if atEnd then { c with previousRowEnded := true }
    else d.newLine c := by
  cases atEnd <;> simp [printChar, h.write_nul]

theorem At.printChars (h : At d c lines p) (hcols : 0 < d.textCols) (hs : '\n' ∉ s) :
    At d (d.printChars s c) ((lines ++ d.fullRows (p ++ s)).drop (d.fullRows (p ++ s)).length)
    (d.lastPart (p ++ s)) := by
  induction s generalizing c lines p with
  | nil =>
    obtain ⟨hfull, hlast⟩ := fullRows_of_le hcols h.le
    rw [List.append_nil, hfull, hlast, List.append_nil]
    exact h
  | cons ch s ih =>
    obtain ⟨hch, hs⟩ := not_or.mp (mt List.mem_cons.mpr hs)
    rw [TextSize.printChars]
    by_cases hlt : p.length < d.textCols
    · rw [h.printChar_lt hlt (Ne.symm hch)]
      simpa using ih (h.put hlt ch) hs
    · have hfull : p.length = d.textCols := le_antisymm h.le (Nat.le_of_not_lt hlt)
      rw [h.printChar_full hfull.ge (Ne.symm hch)]
      obtain ⟨hrows, hlast⟩ := fullRows_append hcols hfull (List.cons_ne_nil ch s)
      rw [hrows, hlast]
      have hdrop :
          (lines ++ d.rowOf p :: d.fullRows (ch :: s)).drop
          (d.rowOf p :: d.fullRows (ch :: s)).length =
          ((lines ++ [d.rowOf p]).tail ++ d.fullRows (ch :: s)).drop
          (d.fullRows (ch :: s)).length := by
        cases lines <;> simp
      rw [hdrop]
      exact ih (h.newLine.put hcols ch) hs

theorem printChars_previousRowEnded (hs : '\n' ∉ s) :
    (d.printChars s c).previousRowEnded = c.previousRowEnded := by
  induction s generalizing c with
  | nil => rfl
  | cons ch s ih =>
    obtain ⟨hch, hs⟩ := not_or.mp (mt List.mem_cons.mpr hs)
    rw [TextSize.printChars, ih hs, printChar]
    simp only [Ne.symm hch, false_and, if_false, false_or]
    split <;> split <;> rfl

theorem At.exists_printChars (h : At d c lines p) (hcols : 0 < d.textCols) (hp : nul ∉ p)
    (hs : nul ∉ s) : ∃ lines' p', At d (d.printChars s c) lines' p' ∧ nul ∉ p' := by
  induction s generalizing c lines p with
  | nil => exact ⟨lines, p, h, hp⟩
  | cons ch s ih =>
    obtain ⟨hch, hs'⟩ := not_or.mp (mt List.mem_cons.mpr hs)
    rw [TextSize.printChars]
    by_cases hnl : ch = '\n'
    · subst hnl
      rw [h.printChar_newline]
      split
      · exact ih { h with } hp hs'
      · exact ih h.newLine (List.not_mem_nil) hs'
    · by_cases hlt : p.length < d.textCols
      · rw [h.printChar_lt hlt hnl]
        exact ih (h.put hlt ch) (by simp [hp, hch]) hs'
      · rw [h.printChar_full (Nat.le_of_not_lt hlt) hnl]
        exact ih (h.newLine.put hcols ch) (by simp [hch]) hs'

theorem At.exists_printV (h : At d c lines p) (hp : nul ∉ p) (str : Text) :
    ∃ lines' p', At d (d.printV str c) lines' p' ∧ nul ∉ p' := by
  rw [printV]
  split
  · rename_i hsize
    have hstr : nul ∉ str.takeWhile (· ≠ nul) :=
      fun hmem => by simpa using List.mem_takeWhile_imp hmem
    obtain ⟨lines₁, p₁, h₁, hp₁⟩ : ∃ lines₁ p₁, At d (d.scrollEnded c) lines₁ p₁ ∧ nul ∉ p₁ := by
      cases hprev : c.previousRowEnded with
      | true => exact ⟨_, _, h.scrollEnded_of_true hprev, List.not_mem_nil⟩
      | false => exact ⟨_, _, (scrollEnded_of_false hprev).symm ▸ h, hp⟩
    obtain ⟨lines₂, p₂, h₂, hp₂⟩ := h₁.exists_printChars hsize.2 hp₁ hstr
    exact ⟨lines₂, p₂, by rwa [h₂.write_nul], hp₂⟩
  · exact ⟨lines, p, h, hp⟩

theorem exists_logAfter (hrows : 0 < d.textRows) (earlier : List Text) :
    ∃ lines p, At d (d.logAfter earlier) lines p ∧ nul ∉ p := by
  have hinit : At d d.init (List.replicate (d.textRows - 1) d.blankRow) [] := by
    refine ⟨?_, ?_, rfl, Nat.zero_le _⟩
    · rw [rowOf_nil, ← List.replicate_succ', Nat.sub_add_cancel hrows, init]
    · rw [List.length_replicate, Nat.sub_add_cancel hrows]
  have key : ∀ c, (∃ lines p, At d c lines p ∧ nul ∉ p) →
      ∃ lines p, At d (d.prints earlier c) lines p ∧ nul ∉ p := by
    induction earlier with
    | nil => exact fun _ h => h
    | cons str earlier ih =>
      rintro c ⟨lines, p, h, hp⟩
      exact ih _ (h.exists_printV hp str)
  exact key _ ⟨_, _, hinit, List.not_mem_nil⟩

/-! ## Rows that move up -/

/-- The rows above the last one that a print of `str` adds at the end of the text. -/
def movedRows (d : TextSize) (c : Console) (str : Text) : List Row :=
  if 0 < d.textRows ∧ 0 < d.textCols then (if c.previousRowEnded then [d.blankRow] else []) ++
  d.fullRows str else []

theorem At.printV_eq (h : At d c lines []) (hnl : '\n' ∉ str) (hnul : nul ∉ str) :
    ∃ r, (d.printV str c).text = (lines ++ d.movedRows c str).drop (d.movedRows c str).length ++
    [r] := by
  have htake : str.takeWhile (· ≠ nul) = str :=
    List.takeWhile_eq_self_iff.mpr fun ch hch => decide_eq_true fun heq => hnul (heq ▸ hch)
  rw [printV, movedRows]
  split
  · rename_i hsize
    rw [htake]
    cases hprev : c.previousRowEnded with
    | true =>
      have h₁ := (h.scrollEnded_of_true hprev).printChars hsize.2 hnl
      have hmoved : ((lines ++ [d.blankRow]).tail ++ d.fullRows str).drop (d.fullRows str).length =
          (lines ++ ([d.blankRow] ++ d.fullRows str)).drop
          ([d.blankRow] ++ d.fullRows str).length := by
        cases lines <;> simp
      rw [rowOf_nil, List.nil_append, hmoved] at h₁
      exact ⟨_, by rw [h₁.write_nul, h₁.text]; rfl⟩
    | false =>
      rw [scrollEnded_of_false hprev]
      have h₁ := h.printChars hsize.2 hnl
      exact ⟨_, by rw [h₁.write_nul, h₁.text]; rfl⟩
  · exact ⟨_, by simpa using h.text⟩

theorem printV_previousRowEnded (hnl : '\n' ∉ str)
    (h : (0 < d.textRows ∧ 0 < d.textCols) ∨ c.previousRowEnded = false) :
    (d.printV str c).previousRowEnded = false := by
  rw [printV]
  split
  · exact printChars_previousRowEnded fun hmem => hnl ((List.takeWhile_sublist _).subset hmem)
  · rename_i hsize
    exact h.resolve_left hsize

/-- The lines are the same after the rows have moved if they repeat the rows that come after
them. -/
theorem drop_append_eq_iff (lines moved : List Row) :
    (lines ++ moved).drop moved.length = lines ↔ (lines ++ moved).HasPeriod moved.length := by
  rw [List.hasPeriod_iff_getElem?, List.length_append, Nat.add_sub_cancel]
  constructor
  · intro h i hi
    rw [List.getElem?_append_left hi, Nat.add_comm, ← List.getElem?_drop, h]
  · intro h
    apply List.ext_getElem?
    intro i
    by_cases hi : i < lines.length
    · rw [List.getElem?_drop, Nat.add_comm, ← h i hi, List.getElem?_append_left hi]
    · rw [List.getElem?_eq_none (Nat.le_of_not_lt hi), List.getElem?_eq_none]
      simpa using Nat.le_of_not_lt hi

end TextSize

end BootableRecovery.ScreenUI
