import BootableRecovery.LibBase.Scanf
import BootableRecovery.RecoveryUI.Touch
import BootableRecovery.ScreenUI.TextLog

/-!
# The file viewer

`ShowFile` of `screen_ui.cpp`: it swaps the text of the log for its own and prints its prompt as the
log is printed. What that leaves of the log and of the page (`showFile_iff`).
-/

namespace BootableRecovery.ScreenUI

open RecoveryUI (InputEvent KEY_UP KEY_POWER KEY_BACK)

def KEY_BACKSPACE : Int := 14
def KEY_ENTER : Int := 28
def KEY_HOME : Int := 102
def KEY_VOLUMEUP : Int := 115
def KEY_HOMEPAGE : Int := 172

/-- The prompt below a page; `percent` divides as a `double`. -/
def promptText (percent : Nat → Nat → Int) (pos size : Nat) : Text :=
  "--(".toList ++ toText (percent pos size) ++ "% of ".toList ++ toText (Int.bmod size (2 ^ 32)) ++
  " bytes)--".toList

/-- A page before its prompt is printed, the prompt, and the screen with both. -/
structure Shown where
  page : Console
  prompt : Text
  screen : Console

/-- `ShowFile` in front of its loop over the keys; the top of `offsets` is its head. -/
structure Viewer where
  console : Console
  offsets : List Nat
  pos : Nat
  eof : Bool

/-- What an event does: another page is built from the state `v`, or a code is returned. -/
inductive Turn
  | waits
  | leaves (code : Int)
  | turns (v : Viewer)

/-- The pages that are shown, and the state after the return with its code, if it returns. -/
structure Showing where
  shown : List Shown
  result : Option (Console × Int)

/-- The end of a row in `PutChar`. -/
def Console.endRow (c : Console) : Console := { c with textCol := 0, textRow := c.textRow + 1 }

namespace TextSize

variable (d : TextSize) (percent : Nat → Nat → Int) (content : Text)

/-- `PutChar`; it has no row to write to if the screen has none. -/
def putChar (ch : Char) (c : Console) : Option Console :=
  if ch = '\n' then some c.endRow
  else if c.textRow < c.text.length then
    let c := { c.write c.textRow ch with textCol := c.textCol + 1 }
    some (if d.textCols ≤ c.textCol then c.endRow else c)
  else none

/-- Puts the characters of the file on the page until it is full: with the number of characters, and
whether `getc` has come to the end. -/
def fillPage : Text → Console → Option (Console × Nat × Bool)
  | [], c => some (Console.endRow^[d.lastRow - c.textRow] c, 0, true)
  | ch :: rest, c =>
    (d.putChar ch c).bind fun c =>
      if c.textCol = 0 ∧ d.lastRow ≤ c.textRow then some (c, 1, false)
      else (fillPage rest c).map fun (c, n, eof) => (c, n + 1, eof)

/-- Builds the page at the position in the file, and prints the prompt. -/
def nextPage (v : Viewer) : Option (Viewer × Shown) :=
  (d.fillPage (content.drop v.pos) (d.clearText v.console)).map fun (page, n, eof) =>
    let prompt := promptText percent (v.pos + n) content.length
    let screen := d.printV prompt page
    (⟨screen, v.offsets, v.pos + n, eof⟩, ⟨page, prompt, screen⟩)

def onKey (v : Viewer) (code : Int) : Turn :=
  if code ∈ [KEY_POWER, KEY_ENTER, KEY_BACKSPACE, KEY_BACK, KEY_HOME, KEY_HOMEPAGE]
  then .leaves code
  else if code = KEY_UP ∨ code = KEY_VOLUMEUP then
    if v.offsets.length ≤ 1 then .waits
    else .turns { v with offsets := v.offsets.tail, pos := v.offsets.tail.headD 0, eof := false }
  else if v.eof then .leaves (-1)
  else .turns { v with offsets := v.pos :: v.offsets }

def onEvent (v : Viewer) : InputEvent → Turn
  | .key code => onKey v code
  | _ => .waits

/-- The loop over the events; without a result the viewer still waits for one, or has written
outside its text. -/
def view : List InputEvent → Viewer → Showing
  | [], _ => ⟨[], none⟩
  | event :: events, v =>
    match onEvent v event with
    | .waits => view events v
    | .leaves code => ⟨[], some (v.console, code)⟩
    | .turns v =>
      match d.nextPage percent content v with
      | none => ⟨[], none⟩
      | some (v, s) => ⟨s :: (view events v).shown, (view events v).result⟩

/-- `ShowFile(FILE*)` -/
def showPages (events : List InputEvent) (c : Console) : Showing :=
  match d.nextPage percent content ⟨c, [0], 0, false⟩ with
  | none => ⟨[], none⟩
  | some (v, s) =>
    ⟨s :: (d.view percent content events v).shown, (d.view percent content events v).result⟩

/-- `ShowFile(const char*)` of a file with its content, or with the text of an error. -/
def showFile (filename : Text) (file : Except Text Text) (events : List InputEvent)
    (log : Console) : Showing :=
  match file with
  | .error err =>
    ⟨[], some
      (d.printV ("  Unable to open ".toList ++ filename ++ ": ".toList ++ err ++ ['\n']) log, -1)⟩
  | .ok content =>
    let run := d.showPages percent content events
      (d.clearText { log with text := List.replicate d.textRows d.blankRow })
    { run with
      result := run.result.map fun r =>
        ({ r.1 with text := log.text, textCol := log.textCol, textRow := log.textRow }, r.2) }

variable {d percent content} {c c' : Console} {v v' : Viewer} {s : Shown} {ch : Char}

/-! ## Pages -/

theorem plain_toDigits (n : Nat) : ∀ c ∈ Nat.toDigits 10 n, c ≠ '\n' ∧ c ≠ nul := by
  intro c hc
  have hsome := isSome_digitValue_of_mem (by decide) (by decide) hc
  constructor
  · rintro rfl
    exact absurd hsome (by decide)
  · rintro rfl
    exact absurd hsome (by decide)

theorem plain_toText (n : Int) : ∀ c ∈ toText n, c ≠ '\n' ∧ c ≠ nul := by
  intro c hc
  cases n with
  | ofNat n => exact plain_toDigits n c hc
  | negSucc n =>
    rcases List.mem_cons.mp hc with rfl | hc
    · decide
    · exact plain_toDigits _ c hc

theorem plain_promptText (percent : Nat → Nat → Int) (pos size : Nat) :
    ∀ c ∈ promptText percent pos size, c ≠ '\n' ∧ c ≠ nul := by
  intro c hc
  delta promptText at hc
  simp only [List.mem_append] at hc
  rcases hc with (((htext | hnum) | htext) | hnum) | htext
  · revert c
    decide
  · exact plain_toText _ c hnum
  · revert c
    decide
  · exact plain_toText _ c hnum
  · revert c
    decide

theorem iterate_endRow (n : Nat) (c : Console) : (Console.endRow^[n] c).text = c.text ∧
    (Console.endRow^[n] c).previousRowEnded = c.previousRowEnded ∧
    (0 < n → (Console.endRow^[n] c).textCol = 0) := by
  induction n generalizing c with
  | zero => exact ⟨rfl, rfl, fun h => absurd h (Nat.lt_irrefl 0)⟩
  | succ n ih =>
    obtain ⟨htext, hprev, -⟩ := ih c.endRow
    refine ⟨htext, hprev, fun _ => ?_⟩
    rw [Function.iterate_succ_apply']
    rfl

theorem putChar_previousRowEnded (h : d.putChar ch c = some c') :
    c'.previousRowEnded = c.previousRowEnded := by
  rw [putChar] at h
  split at h
  · cases h
    rfl
  · split at h
    · cases h
      split <;> rfl
    · cases h

theorem fillPage_previousRowEnded {rest : Text} {n : Nat} {eof : Bool}
    (h : d.fillPage rest c = some (c', n, eof)) : c'.previousRowEnded = c.previousRowEnded := by
  induction rest generalizing c n with
  | nil =>
    cases h
    exact (iterate_endRow _ _).2.1
  | cons ch rest ih =>
    obtain ⟨c₁, hput, h⟩ := Option.bind_eq_some_iff.mp h
    rw [← putChar_previousRowEnded hput]
    split at h
    · cases h
      rfl
    · obtain ⟨⟨c₂, n₂, eof₂⟩, hfill, heq⟩ := Option.map_eq_some_iff.mp h
      cases heq
      exact ih hfill

/-- The last row of a page is kept free, and the cursor is at its start. -/
structure Below (d : TextSize) (c : Console) : Prop where
  length : c.text.length = d.textRows
  row : c.textRow < d.lastRow
  free : c.text[d.lastRow]? = some d.blankRow

theorem Below.putChar (h : Below d c) (hput : d.putChar ch c = some c') :
    c'.text.length = d.textRows ∧ c'.text[d.lastRow]? = some d.blankRow ∧
    (c'.textRow = c.textRow ∨ c'.textCol = 0) := by
  rw [TextSize.putChar] at hput
  split at hput
  · cases hput
    exact ⟨h.length, h.free, .inr rfl⟩
  · split at hput
    · cases hput
      have hfree : (c.write c.textRow ch).text[d.lastRow]? = some d.blankRow :=
        (List.getElem?_modify_ne _ _ (Nat.ne_of_lt h.row)).trans h.free
      have hlen : (c.write c.textRow ch).text.length = d.textRows :=
        (List.length_modify ..).trans h.length
      split
      · exact ⟨hlen, hfree, .inr rfl⟩
      · exact ⟨hlen, hfree, .inl rfl⟩
    · cases hput

theorem At.of_free (hlen : c.text.length = d.textRows)
    (hfree : c.text[d.lastRow]? = some d.blankRow) (hcol : c.textCol = 0) :
    At d c (c.text.take (d.textRows - 1)) [] := by
  obtain ⟨hlt, hrow⟩ := List.getElem?_eq_some_iff.mp hfree
  have hrows : 0 < d.textRows := by omega
  have hlast : d.lastRow = d.textRows - 1 := if_neg (Nat.ne_of_gt hrows)
  refine ⟨?_, ?_, hcol, Nat.zero_le _⟩
  · rw [rowOf_nil, ← hrow]
    conv_lhs => rw [← List.take_append_drop (d.textRows - 1) c.text]
    rw [List.drop_eq_getElem_cons (by omega), List.drop_eq_nil_of_le (by omega)]
    simp only [hlast]
  · rw [List.length_take, hlen]
    omega

theorem At.of_fillPage {rest : Text} {n : Nat} {eof : Bool} (h : Below d c)
    (hfill : d.fillPage rest c = some (c', n, eof)) :
    At d c' (c'.text.take (d.textRows - 1)) [] := by
  induction rest generalizing c n with
  | nil =>
    cases hfill
    obtain ⟨htext, -, hcol⟩ := iterate_endRow (d.lastRow - c.textRow) c
    exact .of_free (by rw [htext, h.length]) (by rw [htext, h.free])
      (hcol (Nat.sub_pos_of_lt h.row))
  | cons ch rest ih =>
    obtain ⟨c₁, hput, hfill⟩ := Option.bind_eq_some_iff.mp hfill
    obtain ⟨hlen, hfree, hrow⟩ := h.putChar hput
    split at hfill
    · rename_i hfull
      cases hfill
      exact .of_free hlen hfree hfull.1
    · rename_i hroom
      obtain ⟨⟨c₂, n₂, eof₂⟩, hrest, heq⟩ := Option.map_eq_some_iff.mp hfill
      cases heq
      refine ih ⟨hlen, ?_, hfree⟩ hrest
      rcases hrow with hsame | hcol
      · exact hsame ▸ h.row
      · exact Nat.lt_of_not_le fun hle => hroom ⟨hcol, hle⟩

theorem Below.clearText (hrows : 2 ≤ d.textRows) (hlen : c.text.length = d.textRows) :
    Below d (d.clearText c) where
  length := by simpa [TextSize.clearText] using hlen
  row := by
    rw [TextSize.lastRow, if_neg (by omega)]
    exact Nat.sub_pos_of_lt hrows
  free := by
    rw [TextSize.lastRow, if_neg (by omega)]
    have hlt : d.textRows - 1 < c.text.length := by omega
    simp [TextSize.clearText, hlt]

/-! ## The log and the pages -/

/-- The lines of a page. -/
def pageLines (d : TextSize) (c : Console) : List Row := c.text.take (d.textRows - 1)

/-- The lines stay where they are if they repeat the rows that the prompt moves up. -/
theorem pageLines_printV_iff (h : 2 ≤ d.textRows → At d c (d.pageLines c) []) {str : Text}
    (hstr : ∀ ch ∈ str, ch ≠ '\n' ∧ ch ≠ nul) : d.pageLines (d.printV str c) = d.pageLines c ↔
      (d.pageLines c ++ d.movedRows c str).HasPeriod (d.movedRows c str).length := by
  rw [← drop_append_eq_iff]
  by_cases hrows : 2 ≤ d.textRows
  · obtain ⟨r, hr⟩ :=
      (h hrows).printV_eq (fun hmem => (hstr _ hmem).1 rfl) (fun hmem => (hstr _ hmem).2 rfl)
    have hlines :
        d.pageLines (d.printV str c) =
        (d.pageLines c ++ d.movedRows c str).drop (d.movedRows c str).length := by
      rw [pageLines, hr, List.take_left']
      have hlen := (h hrows).length
      rw [List.length_drop, List.length_append]
      omega
    rw [hlines]
  · have hnil : ∀ c, d.pageLines c = [] :=
      fun c => by rw [pageLines, Nat.sub_eq_zero_of_le (by omega), List.take_zero]
    simp [hnil]

/-- What is known of a page that is shown, and of the state behind it. -/
structure NextPage (d : TextSize) (v v' : Viewer) (s : Shown) : Prop where
  screen : s.screen = d.printV s.prompt s.page
  console : v'.console = s.screen
  prompt : ∀ ch ∈ s.prompt, ch ≠ '\n' ∧ ch ≠ nul
  page : 2 ≤ d.textRows → At d s.page (d.pageLines s.page) []
  previousRowEnded : s.page.previousRowEnded = v.console.previousRowEnded

theorem nextPage_spec (hlen : 2 ≤ d.textRows → v.console.text.length = d.textRows)
    (h : d.nextPage percent content v = some (v', s)) : NextPage d v v' s := by
  obtain ⟨⟨page, n, eof⟩, hfill, heq⟩ := Option.map_eq_some_iff.mp h
  cases heq
  exact {
    screen := rfl
    console := rfl
    prompt := plain_promptText _ _ _
    page := fun hrows => .of_fillPage (.clearText hrows (hlen hrows)) hfill
    previousRowEnded := (fillPage_previousRowEnded hfill).trans rfl }

theorem NextPage.length (h : NextPage d v v' s) (hrows : 2 ≤ d.textRows) :
    v'.console.text.length = d.textRows := by
  obtain ⟨r, hr⟩ :=
    (h.page hrows).printV_eq (fun hmem => (h.prompt _ hmem).1 rfl)
      (fun hmem => (h.prompt _ hmem).2 rfl)
  have hlen := (h.page hrows).length
  rw [h.console, h.screen, hr, List.length_append, List.length_drop, List.length_append,
    List.length_singleton]
  omega

theorem NextPage.ended (h : NextPage d v v' s)
    (hprev : (0 < d.textRows ∧ 0 < d.textCols) ∨ v.console.previousRowEnded = false) :
    v'.console.previousRowEnded = false := by
  rw [h.console, h.screen]
  exact printV_previousRowEnded (fun hmem => (h.prompt _ hmem).1 rfl) (h.previousRowEnded ▸ hprev)

/-- The lines of every page that is shown, and what the viewer leaves of the row that has ended. -/
structure Viewed (d : TextSize) (run : Showing) : Prop where
  shown : ∀ s ∈ run.shown, (d.pageLines s.screen = d.pageLines s.page ↔
    (d.pageLines s.page ++ d.movedRows s.page s.prompt).HasPeriod
    (d.movedRows s.page s.prompt).length)
  result : ∀ r ∈ run.result, r.1.previousRowEnded = false

theorem Viewed.cons {run : Showing} (h : NextPage d v v' s) (hrun : Viewed d run) :
    Viewed d ⟨s :: run.shown, run.result⟩ where
  shown := by
    intro s' hs'
    rcases List.mem_cons.mp hs' with rfl | hs'
    · rw [h.screen]
      exact pageLines_printV_iff h.page h.prompt
    · exact hrun.shown s' hs'
  result := hrun.result

theorem onEvent_console {event : InputEvent} (h : onEvent v event = .turns v') :
    v'.console = v.console := by
  unfold onEvent at h
  split at h
  · unfold onKey at h
    split at h
    · cases h
    · split at h
      · split at h
        · cases h
        · cases h
          rfl
      · split at h
        · cases h
        · cases h
          rfl
  · cases h

theorem viewed_view (events : List InputEvent)
    (hlen : 2 ≤ d.textRows → v.console.text.length = d.textRows)
    (hprev : v.console.previousRowEnded = false) : Viewed d (d.view percent content events v) := by
  induction events generalizing v with
  | nil => exact ⟨by simp [view], by simp [view]⟩
  | cons event events ih =>
    rw [view]
    split
    · exact ih hlen hprev
    · refine ⟨by simp, ?_⟩
      intro r hr
      cases hr
      exact hprev
    · rename_i v₁ hturn
      rw [← onEvent_console hturn] at hlen hprev
      split
      · exact ⟨by simp, by simp⟩
      · rename_i v₂ s hnext
        have hpage := nextPage_spec hlen hnext
        exact .cons hpage (ih hpage.length (hpage.ended (.inr hprev)))

theorem viewed_showPages (events : List InputEvent) (hlen : c.text.length = d.textRows)
    (hprev : (0 < d.textRows ∧ 0 < d.textCols) ∨ c.previousRowEnded = false) :
    Viewed d (d.showPages percent content events c) := by
  rw [showPages]
  split
  · exact ⟨by simp, by simp⟩
  · rename_i v s hnext
    have hpage := nextPage_spec (fun _ => hlen) hnext
    exact .cons hpage (viewed_view events hpage.length (hpage.ended hprev))

theorem eq_replicate_of_concat_eq_cons {rows : List Row} {r r₁ : Row}
    (h : rows ++ [r] = r₁ :: rows) : r₁ :: rows = List.replicate (rows.length + 1) r := by
  induction rows generalizing r₁ with
  | nil =>
    cases h
    rfl
  | cons r₂ rows ih =>
    obtain ⟨rfl, htail⟩ := List.cons.inj h
    have hrest := ih htail
    obtain ⟨rfl, -⟩ := List.cons.inj (hrest.trans List.replicate_succ)
    exact congrArg (r₂ :: ·) hrest

theorem prints_of_no_room (hsize : ¬(0 < d.textRows ∧ 0 < d.textCols)) (strs : List Text) :
    d.prints strs c = c := by
  induction strs with
  | nil => rfl
  | cons str strs ih => rw [prints, List.foldl_cons, printV, if_neg hsize, ← prints, ih]

/-- A log that has lost the scroll of its last print: a later print shows it, unless all rows are
blank. -/
theorem prints_ended_iff (earlier : List Text) :
    (∀ later, (d.prints later { d.logAfter earlier with previousRowEnded := false }).text =
        (d.prints later (d.logAfter earlier)).text) ↔
      (d.logAfter earlier).previousRowEnded = false ∨
        (d.logAfter earlier).text = List.replicate d.textRows d.blankRow := by
  cases hprev : (d.logAfter earlier).previousRowEnded with
  | false =>
    rw [← hprev]
    exact iff_of_true (fun _ => rfl) (.inl rfl)
  | true =>
    have hsize : 0 < d.textRows ∧ 0 < d.textCols := by
      by_contra hsize
      rw [logAfter, prints_of_no_room hsize] at hprev
      cases hprev
    obtain ⟨lines, p, hlog, hp⟩ := d.exists_logAfter hsize.1 earlier
    generalize d.logAfter earlier = log at hprev hlog ⊢
    have hlen :
        log.text.length = d.textRows := by
        rw [hlog.text, List.length_append, List.length_singleton, hlog.length]
    rw [Bool.true_eq_false, false_or]
    constructor
    · intro h
      have hempty : ∀ c, (d.prints [[]] c).text = ((d.scrollEnded c).write d.lastRow nul).text :=
        fun c => by
        rw [prints, List.foldl_cons, List.foldl_nil, printV, if_pos hsize, List.takeWhile_nil,
          printChars]
      have hrows := h [[]]
      have hkept : At d { log with previousRowEnded := false } lines p := { hlog with }
      rw [hempty, hempty, scrollEnded_of_false rfl, hkept.write_nul,
        (hlog.scrollEnded_of_true hprev).write_nul, scrollEnded, if_pos hprev] at hrows
      rw [← hlen]
      have hscrolled : log.text.tail ++ [d.blankRow] = log.text := hrows.symm
      obtain ⟨r₁, rows, htext⟩ :=
        List.exists_cons_of_ne_nil (List.ne_nil_of_length_pos (hlen ▸ hsize.1))
      rw [htext] at hscrolled ⊢
      exact eq_replicate_of_concat_eq_cons hscrolled
    · intro hblank
      have hlast :
          lines ++ [d.rowOf p] = List.replicate (d.textRows - 1) d.blankRow ++ [d.blankRow] := by
        rw [← hlog.text, hblank, ← List.replicate_succ', Nat.sub_add_cancel hsize.1]
      obtain ⟨-, hrow⟩ := List.append_inj' hlast rfl
      have hnil := eq_nil_of_rowOf hp (List.singleton_inj.mp hrow)
      have hscroll : d.newLine log = log := by
        apply Console.ext
        · rw [newLine, hblank, ← Nat.sub_add_cancel hsize.1, List.replicate_succ, List.tail_cons,
            ← List.replicate_succ', List.replicate_succ]
        · rw [hlog.col, hnil]
          rfl
        all_goals rfl
      intro later
      cases later with
      | nil => rfl
      | cons str later =>
        have hprint : d.printV str { log with previousRowEnded := false } = d.printV str log := by
          rw [printV, printV, if_pos hsize, if_pos hsize, scrollEnded_of_false rfl, scrollEnded,
            if_pos hprev, hscroll]
        rw [prints, prints, List.foldl_cons, List.foldl_cons, hprint]

/-- What is asked of a viewer: the log is as if it had not been there, and the prompt leaves the
page in its place. -/
structure LeavesAlone (d : TextSize) (log : Console) (run : Showing) : Prop where
  log : ∀ r ∈ run.result, ∀ later, (d.prints later r.1).text = (d.prints later log).text
  page : ∀ s ∈ run.shown, d.pageLines s.screen = d.pageLines s.page

/-- The log and the pages are left alone if the last print has not ended its row and the prompts fit
in one row; or if no one sees it, because the log is blank, and the lines of the page only repeat
the rows that move up. -/
theorem showFile_iff (percent : Nat → Nat → Int) (filename content : Text) (earlier : List Text)
    (events : List InputEvent) :
    LeavesAlone d (d.logAfter earlier)
    (d.showFile percent filename (.ok content) events (d.logAfter earlier)) ↔
      ((d.showFile percent filename (.ok content) events (d.logAfter earlier)).result.isSome →
        (d.logAfter earlier).previousRowEnded = false ∨
          (d.logAfter earlier).text = List.replicate d.textRows d.blankRow) ∧
      ∀ s ∈ (d.showFile percent filename (.ok content) events (d.logAfter earlier)).shown,
        (d.pageLines s.page ++ d.movedRows s.page s.prompt).HasPeriod
        (d.movedRows s.page s.prompt).length := by
  have hprev : (0 < d.textRows ∧ 0 < d.textCols) ∨ (d.logAfter earlier).previousRowEnded =
      false := by
    by_cases hsize : 0 < d.textRows ∧ 0 < d.textCols
    · exact .inl hsize
    · rw [logAfter, prints_of_no_room hsize]
      exact .inr rfl
  have hrun : Viewed d (d.showPages percent content events
      (d.clearText { d.logAfter earlier with text := List.replicate d.textRows d.blankRow })) :=
    viewed_showPages events (by simp [clearText]) hprev
  rw [← prints_ended_iff, showFile]
  generalize d.showPages percent content events _ = run at hrun ⊢
  have hresult : ∀ r ∈ run.result, ({ r.1 with
      text := (d.logAfter earlier).text, textCol := (d.logAfter earlier).textCol,
      textRow := (d.logAfter earlier).textRow } : Console) =
      { d.logAfter earlier with previousRowEnded := false } :=
    fun r hr => Console.ext rfl rfl rfl (hrun.result r hr)
  constructor
  · rintro ⟨hlog, hpage⟩
    refine ⟨fun hsome => ?_, fun s hs => (hrun.shown s hs).mp (hpage s hs)⟩
    obtain ⟨r, hr⟩ := Option.isSome_iff_exists.mp (Option.isSome_map ▸ hsome)
    rw [← hresult r hr]
    exact hlog _ (Option.mem_map_of_mem _ hr)
  · rintro ⟨hlog, hpage⟩
    refine ⟨fun r' hr' => ?_, fun s hs => (hrun.shown s hs).mpr (hpage s hs)⟩
    obtain ⟨r, hr, rfl⟩ := Option.mem_map.mp hr'
    rw [hresult r hr]
    exact hlog (Option.isSome_of_mem hr')

/-- The prompt moves the page by a row if the last print has ended its row, and the next print goes
on in that row. -/
theorem not_leavesAlone : ¬LeavesAlone ⟨3, 30⟩ (logAfter ⟨3, 30⟩ ["a\n".toList])
    (showFile ⟨3, 30⟩ (fun _ _ => 100) "f".toList (.ok "x".toList) [.key KEY_POWER]
      (logAfter ⟨3, 30⟩ ["a\n".toList])) := by
  intro h
  have hpage := h.page
  revert hpage
  decide +kernel

end TextSize

end BootableRecovery.ScreenUI
