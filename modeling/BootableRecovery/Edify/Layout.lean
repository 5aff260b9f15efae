import BootableRecovery.Edify.Parser

/-!
# The texts of token lists

The rules of `edify/lexer.ll` as a relation (`Layout`): the tokens stand in the text one after the
other, with gaps in between, and two of them stand apart where they could be read as one. The
scanner decides this relation (`tokensFrom_eq_iff`). The text between two tokens is a layout of the
tokens there (`Layout.slice`).
-/

namespace BootableRecovery.Edify

/-- What stands between two tokens: blanks, newlines and comments. -/
inductive Gap : Text → Prop
  | nil : Gap []
  | blank : c = ' ' ∨ c = '\t' ∨ c = '\n' → Gap g → Gap (c :: g)
  | comment : '\n' ∉ s → Gap g → Gap ('#' :: s ++ '\n' :: g)

/-- The characters of a string in front of `after`, and the string that they stand for. -/
inductive Quotes (after : Text) : Text → Text → Prop
  | nil : Quotes after [] []
  | char : c ≠ '"' → escape (c :: b ++ after) = none → Quotes after b s →
    Quotes after (c :: b) (c :: s)
  | escape : escape w = some (c, w.length) → Quotes after b s → Quotes after (w ++ b) (c :: s)

/-- The texts of a token. -/
inductive Spells : Text → Token → Prop
  | and : Spells ['&', '&'] .and
  | or : Spells ['|', '|'] .or
  | eq : Spells ['=', '='] .eq
  | ne : Spells ['!', '='] .ne
  | symbol : c ∈ ['+', '(', ')', ',', '!', ';'] → Spells [c] (.symbol c)
  | word : w ≠ [] → (∀ c ∈ w, isWord c) → Spells w (ofWord w)
  | quoted : Quotes ['"'] b s → Spells ('"' :: b ++ ['"']) (.string (cstr s))

/-- What follows does not make a longer token. -/
def Apart (w rest : Text) : Prop :=
  ∀ c ∈ rest.head?, ((∀ d ∈ w, isWord d) → isWord c = false) ∧ (w = ['!'] → c ≠ '=')

/-- The text from the position on consists of the tokens. A string may be open at its end. -/
inductive Layout : Int → Text → List Lexeme → Prop
  | done : Gap g → Layout pos g []
  | unclosed : Gap g → Quotes [] b s → Layout pos (g ++ '"' :: b) []
  | token : Gap g → Spells w t → Apart w rest → Layout (pos + g.length + w.length) rest ts →
    Layout pos (g ++ w ++ rest) (⟨t, pos + g.length, pos + g.length + w.length⟩ :: ts)

/-! ## The scanner without its fuel -/

theorem scanInitial_pos (c : Char) (s : Text) : 0 < (scanInitial (c :: s)).2 := by
  unfold scanInitial
  split <;> try split_ifs
  all_goals simp_all

/-- An escape is a backslash and one character, or three with two digits among them. -/
theorem escape_cases {s : Text} (h : escape s = some r) :
    (∃ d t, s = '\\' :: d :: t ∧ r.2 = 2 ∧ ∀ t, escape ('\\' :: d :: t) = some r) ∨
    ∃ a b t, s = '\\' :: 'x' :: a :: b :: t ∧ r.2 = 4 ∧ a ≠ '"' ∧ b ≠ '"' ∧
      ∀ t, escape ('\\' :: 'x' :: a :: b :: t) = some r := by
  unfold escape at h
  split at h
  case h_5 a b t =>
    split at h
    · rename_i ha hb
      cases h
      refine .inr ⟨a, b, t, rfl, rfl, ?_, ?_, fun t => by simp [escape, ha, hb]⟩
      · rintro rfl
        cases ha
      · rintro rfl
        cases hb
    · cases h
  all_goals
    cases h
    try exact .inl ⟨_, _, rfl, rfl, fun t => rfl⟩

theorem escape_pos {s : Text} (h : escape s = some (c, n)) : 0 < n := by
  rcases escape_cases h with ⟨_, _, _, rfl, _⟩ | ⟨_, _, _, _, rfl, _⟩ <;> decide

theorem scan_fuel {n m : Nat} {pos : Int} {mode : Mode} {text : Text} (hn : text.length ≤ n)
    (hm : text.length ≤ m) : scan n pos mode text = scan m pos mode text := by
  induction n generalizing m pos mode text with
  | zero =>
    have htext : text = [] := List.eq_nil_of_length_eq_zero (Nat.le_zero.mp hn)
    subst htext
    cases m <;> rfl
  | succ n ih =>
    cases text with
    | nil => cases m <;> rfl
    | cons c s =>
      obtain ⟨m, rfl⟩ :=
        Nat.exists_eq_succ_of_ne_zero (Nat.ne_of_gt (Nat.lt_of_lt_of_le (Nat.succ_pos _) hm))
      have hn' : s.length ≤ n := Nat.le_of_succ_le_succ hn
      have hm' : s.length ≤ m := Nat.le_of_succ_le_succ hm
      -- what is left behind a rule is shorter
      have hdrop :
          ∀ k, 0 < k → ∀ pos mode, scan n pos mode ((c :: s).drop k) =
          scan m pos mode ((c :: s).drop k) := by
        intro k hk pos mode
        refine ih ?_ ?_ <;> rw [List.length_drop, List.length_cons] <;> omega
      cases mode with
      | initial =>
        by_cases hc : c = '"'
        · subst hc
          exact ih hn' hm'
        · rw [scan, scan]
          · dsimp only
            rw [hdrop _ (scanInitial_pos c s)]
          all_goals simp [hc]
      | str start buffer =>
        by_cases hc : c = '"'
        · subst hc
          exact congrArg _ (ih hn' hm')
        · rw [scan, scan]
          · cases hescape : escape (c :: s) with
            | none => exact ih hn' hm'
            | some r => exact hdrop r.2 (escape_pos hescape) _ _
          all_goals simp [hc]

/-- The tokens of a text, NULs included. -/
def tokensFrom (pos : Int) (mode : Mode) (text : Text) : List Lexeme :=
  scan text.length pos mode text

theorem tokensFrom_open (pos : Int) (s : Text) :
    tokensFrom pos .initial ('"' :: s) = tokensFrom (pos + 1) (.str pos []) s := rfl

theorem tokensFrom_close (pos start : Int) (buffer s : Text) :
    tokensFrom pos (.str start buffer) ('"' :: s) =
      ⟨.string (cstr buffer), start, pos + 1⟩ :: tokensFrom (pos + 1) .initial s := rfl

theorem tokensFrom_initial (pos : Int) {c : Char} (hc : c ≠ '"') (s : Text) :
    tokensFrom pos .initial (c :: s) =
      ((scanInitial (c :: s)).1.map fun token =>
        (⟨token, pos, pos + (scanInitial (c :: s)).2⟩ : Lexeme)).toList ++
        tokensFrom (pos + (scanInitial (c :: s)).2) .initial
        ((c :: s).drop (scanInitial (c :: s)).2) := by
  have hpos := scanInitial_pos c s
  rw [tokensFrom, List.length_cons, scan]
  · dsimp only
    refine congrArg _ (scan_fuel ?_ (Nat.le_refl _))
    rw [List.length_drop, List.length_cons]
    omega
  · nofun
  · rintro _ ⟨⟩
    exact hc rfl

theorem tokensFrom_escape (pos start : Int) (buffer : Text) {c : Char} (hc : c ≠ '"') {s : Text}
    (h : escape (c :: s) = some (e, len)) :
    tokensFrom pos (.str start buffer) (c :: s) =
      tokensFrom (pos + len) (.str start (buffer ++ [e])) ((c :: s).drop len) := by
  have hpos := escape_pos h
  rw [tokensFrom, List.length_cons, scan, h]
  · refine scan_fuel ?_ (Nat.le_refl _)
    rw [List.length_drop, List.length_cons]
    omega
  · exact hc

theorem tokensFrom_char (pos start : Int) (buffer : Text) {c : Char} (hc : c ≠ '"') {s : Text}
    (h : escape (c :: s) = none) :
    tokensFrom pos (.str start buffer) (c :: s) =
    tokensFrom (pos + 1) (.str start (buffer ++ [c])) s := by
  rw [tokensFrom, List.length_cons, scan, h]
  · rfl
  · exact hc

/-! ## Strings -/

theorem escape_append {w : Text} (h : escape w = some r) (rest : Text) :
    escape (w ++ rest) = some r := by
  rcases escape_cases h with ⟨d, t, rfl, _, h⟩ | ⟨a, b, t, rfl, _, _, _, h⟩
  · exact h (t ++ rest)
  · exact h (t ++ rest)

/-- What is no escape in front of a quote is none whatever stands behind the quote. -/
theorem escape_append_quote {w : Text} (h : escape (w ++ ['"']) = none) (hw : w ≠ [])
    (rest : Text) : escape (w ++ '"' :: rest) = none := by
  by_contra hsome
  obtain ⟨r, hr⟩ := Option.ne_none_iff_exists'.mp hsome
  obtain ⟨c, w, rfl⟩ := List.exists_cons_of_ne_nil hw
  rcases escape_cases hr with ⟨d, t, ht, _, hall⟩ | ⟨a, b, t, ht, _, ha, hb, hall⟩
  · rcases w with _ | ⟨d', w⟩ <;> cases ht <;> cases h.symm.trans (hall _)
  · rcases w with _ | ⟨x, _ | ⟨a', _ | ⟨b', w⟩⟩⟩ <;> cases ht
    · exact ha rfl
    · exact hb rfl
    · cases h.symm.trans (hall _)

theorem escape_take {s : Text} (h : escape s = some (c, n)) :
    n ≤ s.length ∧ escape (s.take n) = some (c, n) := by
  rcases escape_cases h with ⟨d, t, rfl, rfl, h⟩ | ⟨a, b, t, rfl, rfl, _, _, h⟩
  · exact ⟨by simp, h []⟩
  · exact ⟨by simp, h []⟩

theorem escape_head {s : Text} (h : escape s = some r) : s.head? = some '\\' := by
  rcases escape_cases h with ⟨_, _, rfl, _⟩ | ⟨_, _, _, rfl, _⟩ <;> rfl

theorem Quotes.scans {after b s : Text} (h : Quotes after b s) (pos start : Int) (buffer : Text) :
    tokensFrom pos (.str start buffer) (b ++ after) =
    tokensFrom (pos + b.length) (.str start (buffer ++ s)) after := by
  induction h generalizing pos buffer with
  | nil => simp
  | char hc hescape _ ih =>
    rw [List.cons_append] at hescape ⊢
    rw [tokensFrom_char _ _ _ hc hescape, ih, List.append_assoc, List.length_cons, Nat.cast_succ,
      Int.add_assoc, Int.add_comm 1]
    rfl
  | @escape w c b s hescape _ ih =>
    obtain ⟨d, w, rfl⟩ : ∃ d w', w = d :: w' :=
      List.exists_cons_of_ne_nil (by rintro rfl; cases hescape)
    have hd : d = '\\' := Option.some.inj (escape_head hescape)
    have happ := escape_append hescape (b ++ after)
    rw [List.cons_append] at happ
    rw [List.append_assoc, List.cons_append, tokensFrom_escape _ _ _ (by rw [hd]; decide) happ,
      ← List.cons_append, List.drop_left, ih, List.append_assoc, List.length_append, Nat.cast_add,
      Int.add_assoc]
    rfl

theorem Quotes.quoted {b s : Text} (h : Quotes ['"'] b s) (rest : Text) :
    Quotes ('"' :: rest) b s := by
  induction h with
  | nil => exact .nil
  | char hc hescape _ ih =>
    exact .char hc (escape_append_quote hescape (List.cons_ne_nil _ _) rest) ih
  | escape hescape _ ih => exact .escape hescape ih

theorem exists_quotes (text : Text) :
    (∃ b s rest, text = b ++ '"' :: rest ∧ Quotes ['"'] b s) ∨ ∃ s, Quotes [] text s := by
  induction hn : text.length using Nat.strong_induction_on generalizing text with
  | _ n ih =>
    subst hn
    cases text with
    | nil => exact .inr ⟨[], .nil⟩
    | cons c t =>
      by_cases hc : c = '"'
      · subst hc
        exact .inl ⟨[], [], t, rfl, .nil⟩
      · cases hescape : escape (c :: t) with
        | none =>
          rcases ih t.length (Nat.lt_succ_self _) t rfl with ⟨b, s, rest, rfl, hq⟩ | ⟨s, hq⟩
          · refine .inl ⟨c :: b, c :: s, rest, rfl, .char hc ?_ hq⟩
            by_contra hsome
            obtain ⟨r, hr⟩ := Option.ne_none_iff_exists'.mp hsome
            have happ := escape_append hr rest
            rw [List.append_assoc] at happ
            cases hescape.symm.trans happ
          · exact .inr ⟨c :: s, .char hc (by rwa [List.append_nil]) hq⟩
        | some r =>
          obtain ⟨hlen, htake⟩ := escape_take hescape
          have hsplit := List.take_append_drop r.2 (c :: t)
          have hshort : ((c :: t).drop r.2).length < (c :: t).length := by
            have := escape_pos hescape
            rw [List.length_drop, List.length_cons]
            omega
          have hw : escape ((c :: t).take r.2) = some (r.1, ((c :: t).take r.2).length) := by
            rw [List.length_take_of_le hlen]
            exact htake
          rcases ih _ hshort _ rfl with ⟨b, s, rest, hrest, hq⟩ | ⟨s, hq⟩
          · refine .inl ⟨(c :: t).take r.2 ++ b, r.1 :: s, rest, ?_, .escape hw hq⟩
            rw [List.append_assoc, ← hrest, hsplit]
          · rw [← hsplit]
            exact .inr ⟨r.1 :: s, .escape hw hq⟩

/-! ## What the scanner finds in a layout -/

theorem scanInitial_word {c : Char} (hc : isWord c) (s : Text) :
    scanInitial (c :: s) =
    (some (ofWord (c :: s.takeWhile isWord)), (s.takeWhile isWord).length + 1) := by
  unfold scanInitial
  split
  case h_7 =>
    rename_i heq
    cases heq
    exact if_pos hc
  all_goals
    rename_i heq
    cases heq
    try exact absurd hc (by decide)

theorem scanInitial_symbol {c : Char} (hc : c ∈ ['+', '(', ')', ',', '!', ';']) {rest : Text}
    (h : c = '!' → rest.head? ≠ some '=') : scanInitial (c :: rest) = (some (.symbol c), 1) := by
  simp only [List.mem_cons, List.not_mem_nil, or_false] at hc
  rcases hc with rfl | rfl | rfl | rfl | rfl | rfl
  case inr.inr.inr.inr.inl =>
    cases rest with
    | nil => rfl
    | cons d rest =>
      have hd : d ≠ '=' := fun hd => h rfl (congrArg some hd)
      unfold scanInitial
      split
      case h_4 =>
        rename_i heq
        cases heq
        exact absurd rfl hd
      case h_7 =>
        rename_i heq
        cases heq
        rfl
      all_goals
        rename_i heq
        cases heq
  all_goals rfl

theorem tokensFrom_rule (pos : Int) {w : Text} (hw : w ≠ []) (hquote : w.head? ≠ some '"')
    (token : Option Token) {rest : Text} (h : scanInitial (w ++ rest) = (token, w.length)) :
    tokensFrom pos .initial (w ++ rest) =
      (token.map fun token => (⟨token, pos, pos + w.length⟩ : Lexeme)).toList ++
        tokensFrom (pos + w.length) .initial rest := by
  obtain ⟨c, w, rfl⟩ := List.exists_cons_of_ne_nil hw
  have hc : c ≠ '"' := fun hc => hquote (congrArg some hc)
  rw [List.cons_append] at h ⊢
  rw [tokensFrom_initial pos hc, h, ← List.cons_append, List.drop_left]

theorem takeWhile_newline {s : Text} (hs : '\n' ∉ s) (rest : Text) :
    (s ++ '\n' :: rest).takeWhile (· ≠ '\n') = s := by
  rw [List.takeWhile_append_of_pos]
  · simp
  · intro c hc
    exact decide_eq_true fun heq => hs (heq ▸ hc)

theorem Gap.scans {g : Text} (h : Gap g) (pos : Int) (rest : Text) :
    tokensFrom pos .initial (g ++ rest) = tokensFrom (pos + g.length) .initial rest := by
  induction h generalizing pos with
  | nil => simp
  | @blank c g hc _ ih =>
    have hscan : scanInitial ([c] ++ (g ++ rest)) = (none, [c].length) := by
      rcases hc with rfl | rfl | rfl <;> rfl
    have hquote : [c].head? ≠ some '"' := by
      rcases hc with rfl | rfl | rfl <;> decide
    have hrule := tokensFrom_rule pos (List.cons_ne_nil c []) hquote _ hscan
    rw [Option.map_none, Option.toList_none, List.nil_append, ih, Int.add_assoc, ← Nat.cast_add]
      at hrule
    rw [List.cons_append, List.length_cons, Nat.add_comm]
    exact hrule
  | @comment s g hs _ ih =>
    have hscan :
        scanInitial (('#' :: s ++ ['\n']) ++ (g ++ rest)) =
        (none, ('#' :: s ++ ['\n']).length) := by
      simp only [List.cons_append, List.append_assoc, List.nil_append, scanInitial]
      rw [if_pos (by simp), takeWhile_newline hs, List.length_cons, List.length_append]
      rfl
    have hrule := tokensFrom_rule pos (List.cons_ne_nil _ _) (by simp) _ hscan
    rw [Option.map_none, Option.toList_none, List.nil_append, ih, Int.add_assoc, ← Nat.cast_add]
      at hrule
    simpa [Int.add_comm, Int.add_left_comm] using hrule

theorem takeWhile_isWord {w rest : Text} (hw : ∀ c ∈ w, isWord c)
    (hrest : ∀ c ∈ rest.head?, isWord c = false) : (w ++ rest).takeWhile isWord = w := by
  rw [List.takeWhile_append_of_pos hw]
  cases rest with
  | nil => simp
  | cons c rest => rw [List.takeWhile_cons_of_neg (by rw [hrest c rfl]; decide), List.append_nil]

theorem Spells.ne_nil {w : Text} {t : Token} (h : Spells w t) : w ≠ [] := by
  cases h with
  | word hw _ => exact hw
  | _ => exact List.cons_ne_nil _ _

theorem Spells.scans {w rest : Text} {t : Token} (h : Spells w t) (hapart : Apart w rest)
    (pos : Int) : tokensFrom pos .initial (w ++ rest) = ⟨t, pos, pos + w.length⟩ ::
    tokensFrom (pos + w.length) .initial rest := by
  cases h with
  | and => exact tokensFrom_rule pos (List.cons_ne_nil _ _) (by decide) (some .and) rfl
  | or => exact tokensFrom_rule pos (List.cons_ne_nil _ _) (by decide) (some .or) rfl
  | eq => exact tokensFrom_rule pos (List.cons_ne_nil _ _) (by decide) (some .eq) rfl
  | ne => exact tokensFrom_rule pos (List.cons_ne_nil _ _) (by decide) (some .ne) rfl
  | @symbol c hc =>
    have hquote : [c].head? ≠ some '"' := by
      rintro heq
      cases heq
      revert hc
      decide
    refine tokensFrom_rule pos (List.cons_ne_nil _ _) hquote (some (.symbol c))
      (scanInitial_symbol hc ?_)
    rintro rfl heq
    exact (hapart '=' heq).2 rfl rfl
  | word hw hword =>
    obtain ⟨c, w, rfl⟩ := List.exists_cons_of_ne_nil hw
    have hc : isWord c := hword c List.mem_cons_self
    have hquote : (c :: w).head? ≠ some '"' := by
      rintro heq
      cases heq
      revert hc
      decide
    refine tokensFrom_rule pos hw hquote (some (ofWord (c :: w))) ?_
    rw [List.cons_append, scanInitial_word hc,
      takeWhile_isWord (fun d hd => hword d (List.mem_cons_of_mem c hd)) fun d hd =>
      (hapart d hd).1 hword]
    rfl
  | @quoted b s hq =>
    have hscan := (hq.quoted rest).scans (pos + 1) pos []
    rw [tokensFrom_close, List.nil_append] at hscan
    rw [List.cons_append, List.cons_append, List.append_assoc]
    refine (tokensFrom_open pos _).trans (hscan.trans ?_)
    have hend : pos + 1 + (b.length : Int) + 1 = pos + ('"' :: b ++ ['"']).length := by
      simp only [List.cons_append, List.length_cons, List.length_append, List.length_nil]
      push_cast
      ring
    rw [hend]
    rfl

theorem Layout.scans {pos : Int} {text : Text} {ts : List Lexeme} (h : Layout pos text ts) :
    tokensFrom pos .initial text = ts := by
  induction h with
  | @done g pos hg => exact List.append_nil g ▸ hg.scans pos []
  | @unclosed g b s pos hg hq =>
    have hscan := hq.scans (pos + g.length + 1) (pos + g.length) []
    rw [List.append_nil] at hscan
    rw [hg.scans, tokensFrom_open, hscan]
    rfl
  | token hg hw hapart _ ih => rw [List.append_assoc, hg.scans, hw.scans hapart, ih]

/-! ## The layout that the scanner has found -/

theorem apart_of_not_word {w rest : Text} (hd : d ∈ w) (hword : isWord d = false) (hw : w ≠ ['!']) :
    Apart w rest :=
  fun _ _ =>
  ⟨fun hall => by rw [hall d hd] at hword; exact absurd hword (by decide), fun h => absurd h hw⟩

theorem scanInitial_cases {c : Char} (hc : c ≠ '"') (s : Text) :
    ∃ token w rest, c :: s = w ++ rest ∧ w ≠ [] ∧ scanInitial (c :: s) = (token, w.length) ∧
      (token = some .bad ∨ token = none ∧ Gap w ∨ ∃ t, token = some t ∧ Spells w t ∧
        Apart w rest) := by
  unfold scanInitial
  split
  case h_1 s heq =>
    exact ⟨_, ['&', '&'], s, heq, by decide, rfl,
      .inr (.inr ⟨_, rfl, .and, apart_of_not_word (d := '&') (by decide) rfl (by decide)⟩)⟩
  case h_2 s heq =>
    exact ⟨_, ['|', '|'], s, heq, by decide, rfl,
      .inr (.inr ⟨_, rfl, .or, apart_of_not_word (d := '|') (by decide) rfl (by decide)⟩)⟩
  case h_3 s heq =>
    exact ⟨_, ['=', '='], s, heq, by decide, rfl,
      .inr (.inr ⟨_, rfl, .eq, apart_of_not_word (d := '=') (by decide) rfl (by decide)⟩)⟩
  case h_4 s heq =>
    exact ⟨_, ['!', '='], s, heq, by decide, rfl,
      .inr (.inr ⟨_, rfl, .ne, apart_of_not_word (d := '=') (by decide) rfl (by decide)⟩)⟩
  case h_5 s heq =>
    exact ⟨_, ['\n'], s, heq, by decide, rfl, .inr (.inl ⟨rfl, .blank (.inr (.inr rfl)) .nil⟩)⟩
  case h_6 s heq =>
    cases heq
    split_ifs with hnl
    · obtain ⟨comment, rest, rfl, hcomment⟩ := List.eq_append_cons_of_mem hnl
      refine ⟨_, '#' :: comment ++ ['\n'], rest, by simp, List.cons_ne_nil _ _, ?_,
        .inr (.inl ⟨rfl, .comment hcomment .nil⟩)⟩
      rw [takeWhile_newline hcomment, List.length_append, List.length_cons]
      rfl
    · exact ⟨_, ['#'], s, rfl, by decide, rfl, .inl rfl⟩
  case h_7 c s hand hor heq hne _ _ h =>
    cases h
    split_ifs with hword hblank hsymbol
    · refine ⟨_, c :: s.takeWhile isWord, s.dropWhile isWord, ?_, List.cons_ne_nil _ _, rfl,
        .inr (.inr ⟨_, rfl, .word (List.cons_ne_nil _ _) ?_, ?_⟩)⟩
      · rw [List.cons_append, List.takeWhile_append_dropWhile]
      · exact List.forall_mem_cons.mpr ⟨hword, fun d hd => List.mem_takeWhile_imp hd⟩
      · intro d hd
        refine ⟨fun _ => ?_, fun heq => ?_⟩
        · have hnot := List.head?_dropWhile_not isWord s
          rw [Option.mem_def.mp hd] at hnot
          simpa using hnot
        · cases (List.cons.inj heq).1
          exact absurd hword (by decide)
    · exact ⟨_, [c], s, rfl, List.cons_ne_nil _ _, rfl, .inr (.inl ⟨rfl, .blank (by tauto) .nil⟩)⟩
    · refine ⟨_, [c], s, rfl, List.cons_ne_nil _ _, rfl,
        .inr (.inr ⟨_, rfl, .symbol hsymbol, fun d hd => ⟨?_, ?_⟩⟩)⟩
      · intro hall
        exact absurd (hall c List.mem_cons_self) hword
      · rintro ⟨⟩ rfl
        obtain ⟨t, rfl⟩ : ∃ t, s = '=' :: t := by
          cases s with
          | nil => cases hd
          | cons d t => cases hd; exact ⟨t, rfl⟩
        exact hne t rfl rfl
    · exact ⟨_, [c], s, rfl, List.cons_ne_nil _ _, rfl, .inl rfl⟩
  case h_8 heq => cases heq

theorem Gap.append {g g' : Text} (h : Gap g) (h' : Gap g') : Gap (g ++ g') := by
  induction h with
  | nil => exact h'
  | blank hc _ ih => exact .blank hc ih
  | comment hs _ ih =>
    rw [List.append_assoc]
    exact .comment hs ih

theorem Layout.cons_gap {pos : Int} {g rest : Text} {ts : List Lexeme} (hg : Gap g)
    (h : Layout (pos + g.length) rest ts) : Layout pos (g ++ rest) ts := by
  cases h with
  | done hg' => exact .done (hg.append hg')
  | @unclosed g' b s _ hg' hq =>
    rw [← List.append_assoc]
    exact .unclosed (hg.append hg') hq
  | @token g' w t rest _ ts hg' hw hapart hrest =>
    rw [Int.add_assoc pos, ← Nat.cast_add, ← List.length_append] at hrest ⊢
    have htoken := Layout.token (hg.append hg') hw hapart hrest
    rw [List.append_assoc, List.append_assoc] at htoken
    rw [List.append_assoc]
    exact htoken

theorem Layout.cons_token {pos : Int} {w rest : Text} {t : Token} {ts : List Lexeme}
    (hw : Spells w t) (hapart : Apart w rest) (h : Layout (pos + w.length) rest ts) :
    Layout pos (w ++ rest) (⟨t, pos, pos + w.length⟩ :: ts) := by
  have hrest : Layout (pos + ([] : Text).length + w.length) rest ts := by simpa using h
  simpa using Layout.token .nil hw hapart hrest

theorem layout_tokensFrom {pos : Int} {text : Text}
    (h : ∀ t ∈ tokensFrom pos .initial text, t.token ≠ .bad) :
    Layout pos text (tokensFrom pos .initial text) := by
  induction hn : text.length using Nat.strong_induction_on generalizing text pos with
  | _ n ih =>
    subst hn
    have htoken : ∀ {w rest t}, text = w ++ rest → Spells w t → Apart w rest →
        Layout pos (w ++ rest) (tokensFrom pos .initial (w ++ rest)) := by
      rintro w rest t rfl hw hapart
      rw [hw.scans hapart] at h ⊢
      refine .cons_token hw hapart
        (ih rest.length ?_ (fun t ht => h t (List.mem_cons_of_mem _ ht)) rfl)
      rw [List.length_append]
      exact Nat.lt_add_of_pos_left (List.length_pos_of_ne_nil hw.ne_nil)
    cases text with
    | nil => exact .done .nil
    | cons c s =>
      by_cases hc : c = '"'
      · subst hc
        rcases exists_quotes s with ⟨b, v, rest, rfl, hq⟩ | ⟨v, hq⟩
        · have hsplit : '"' :: (b ++ '"' :: rest) = ('"' :: b ++ ['"']) ++ rest := by simp
          rw [hsplit]
          exact htoken hsplit (.quoted hq) (apart_of_not_word List.mem_cons_self rfl (by rintro ⟨⟩))
        · have hunclosed : Layout pos _ [] := .unclosed .nil hq
          have hscan := hunclosed.scans
          rw [List.nil_append] at hscan
          rw [hscan]
          exact .unclosed .nil hq
      · obtain ⟨token, w, rest, hsplit, hw, hscan, hcase⟩ := scanInitial_cases hc s
        rcases hcase with rfl | ⟨rfl, hg⟩ | ⟨t, rfl, hspells, hapart⟩
        · rw [tokensFrom_initial pos hc, hscan] at h
          exact absurd rfl (h _ (List.mem_append_left _ List.mem_cons_self))
        · rw [hsplit] at h ⊢
          rw [hg.scans] at h ⊢
          refine .cons_gap hg (ih rest.length ?_ h rfl)
          rw [hsplit, List.length_append]
          exact Nat.lt_add_of_pos_left (List.length_pos_of_ne_nil hw)
        · rw [hsplit]
          exact htoken hsplit hspells hapart

theorem Spells.ne_bad {w : Text} {t : Token} (h : Spells w t) : t ≠ .bad := by
  cases h with
  | word _ _ =>
    unfold ofWord
    split_ifs <;> nofun
  | _ => nofun

theorem Layout.ne_bad {pos : Int} {text : Text} {ts : List Lexeme} (h : Layout pos text ts) :
    ∀ t ∈ ts, t.token ≠ .bad := by
  induction h with
  | done _ => nofun
  | unclosed _ _ => nofun
  | token _ hw _ _ ih => exact List.forall_mem_cons.mpr ⟨hw.ne_bad, ih⟩

/-- The scanner decides the rules: it finds these tokens, none of them refused, if the text is a
layout of them. -/
theorem tokensFrom_eq_iff {pos : Int} {text : Text} {ts : List Lexeme} :
    (tokensFrom pos .initial text = ts ∧ ∀ t ∈ ts, t.token ≠ .bad) ↔ Layout pos text ts :=
  ⟨fun ⟨h, hbad⟩ => h ▸ layout_tokensFrom (h.symm ▸ hbad), fun h => ⟨h.scans, h.ne_bad⟩⟩

/-! ## Tokens cut out of a text -/

theorem Apart.take {w rest rest' : Text} (h : Apart w (rest ++ rest')) : Apart w rest := by
  intro c hc
  refine h c ?_
  cases rest with
  | nil => cases hc
  | cons d rest => exact hc

theorem Layout.drop {pos : Int} {text : Text} {ts us : List Lexeme}
    (h : Layout pos text (ts ++ us)) :
    ∃ front rest, text = front ++ rest ∧ Layout (pos + front.length) rest us := by
  induction ts generalizing pos text with
  | nil => exact ⟨[], text, rfl, by simpa using h⟩
  | cons t ts ih =>
    cases h with
    | @token g w _ rest _ _ hg hw hapart hrest =>
      obtain ⟨front, rest, rfl, hlay⟩ := ih hrest
      refine ⟨g ++ w ++ front, rest, by simp, ?_⟩
      simpa [Int.add_assoc] using hlay

theorem Layout.take {pos : Int} {text : Text} {us ts : List Lexeme} (hus : us ≠ [])
    (h : Layout pos text (us ++ ts)) :
    ∃ front rest, text = front ++ rest ∧ stopOf us = pos + front.length ∧ Layout pos front us := by
  induction us generalizing pos text with
  | nil => exact absurd rfl hus
  | cons u us ih =>
    cases h with
    | @token g w _ rest _ _ hg hw hapart hrest =>
      by_cases hne : us = []
      · subst hne
        refine ⟨g ++ w, rest, rfl, ?_, ?_⟩
        · simp [stopOf, Int.add_assoc]
        · have hend : Layout pos (g ++ w ++ []) [_] :=
            .token hg hw (show Apart w ([] ++ rest) from hapart).take (.done .nil)
          rwa [List.append_nil] at hend
      · obtain ⟨front, rest, rfl, hstop, hlay⟩ := ih hne hrest
        refine ⟨g ++ w ++ front, rest, by simp, ?_, .token hg hw hapart.take hlay⟩
        rw [stopOf_cons hne, hstop]
        simp [Int.add_assoc]

theorem Layout.trim {pos : Int} {text : Text} {us : List Lexeme} (hus : us ≠ [])
    (h : Layout pos text us) : ∃ g rest, text = g ++ rest ∧ startOf us = pos + g.length ∧
    Layout (startOf us) rest us := by
  cases h with
  | done _ => exact absurd rfl hus
  | unclosed _ _ => exact absurd rfl hus
  | @token g w _ rest _ _ hg hw hapart hrest =>
    exact ⟨g, w ++ rest, List.append_assoc .., rfl, .cons_token hw hapart hrest⟩

theorem Layout.slice {pos : Int} {text : Text} {ts us vs : List Lexeme} (hus : us ≠ [])
    (h : Layout pos text (ts ++ us ++ vs)) :
    ∃ front mid back, text = front ++ mid ++ back ∧ startOf us = pos + front.length ∧
      stopOf us = startOf us + mid.length ∧ Layout (startOf us) mid us := by
  rw [List.append_assoc] at h
  obtain ⟨front, rest, rfl, hdrop⟩ := h.drop
  obtain ⟨mid, back, rfl, hstop, htake⟩ := hdrop.take hus
  obtain ⟨g, mid, rfl, hstart, hlay⟩ := htake.trim hus
  refine ⟨front ++ g, mid, back, by simp, ?_, ?_, hlay⟩
  · rw [hstart, List.length_append, Nat.cast_add, Int.add_assoc]
  · rw [hstop, hstart, List.length_append, Nat.cast_add, ← Int.add_assoc]

end BootableRecovery.Edify
