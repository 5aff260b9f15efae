import BootableRecovery.Edify.Extents

/-!
# Scripts for trees

Every tree that a script can have is that of its print: the literals quoted, the parentheses that
the precedences ask for, any others besides (`unparse`), and between the tokens any blanks, newlines
and comments (`Layout`).
-/

namespace BootableRecovery.Edify

open EvalRules

variable {ι : Type}

/-- The same expression, elsewhere. -/
inductive Same : Expr ι → Expr ι → Prop
  | node : n.fn = n'.fn → n.name = n'.name → List.Forall₂ Same as as' →
    Same (.node n as) (.node n' as')

theorem Same.relocate {e e' : Expr ι} (h : Same e e') (start stop : Int) :
    Same (relocate e start stop) e' := by
  cases h with
  | node hfn hname has => exact .node hfn hname has

/-! ## The trees of scripts -/

/-- The operators that stand between two arguments, and their precedences. -/
def operator : Function ι → Option (Token × Nat)
  | .sequence => some (.symbol ';', 0)
  | .logicalOr => some (.or, 2)
  | .logicalAnd => some (.and, 3)
  | .equality => some (.eq, 4)
  | .inequality => some (.ne, 4)
  | .concat => some (.symbol '+', 5)
  | _ => none

theorem binary_eq_some_iff {token : Token} {fn : Function ι} {p : Nat} :
    binary token = some (fn, p) ↔ operator fn = some (token, p) := by
  constructor
  · intro h
    unfold binary at h
    split at h <;> cases h <;> rfl
  · intro h
    unfold operator at h
    split at h <;> cases h <;> rfl

/-- The nodes of scripts, with the number of their arguments. -/
inductive Writable : Node ι → Nat → Prop
  | literal : n.fn = .literal → '\x00' ∉ n.name → Writable n 0
  | binary : n.name = "(operator)".toList → operator n.fn = some (token, p) → Writable n 2
  | not : n.name = "(operator)".toList → n.fn = .logicalNot → Writable n 1
  | ifThen : n.name = "(operator)".toList → n.fn = .ifElse → Writable n 2
  | ifThenElse : n.name = "(operator)".toList → n.fn = .ifElse → Writable n 3
  | call : findFunction ι n.name = some n.fn → Writable n argc

/-- The expressions of scripts. -/
def Expressible (e : Expr ι) : Prop := e.All fun n ls => Writable n ls.length

/-! ## The tokens of a tree -/

/-- The tokens of an expression, and the least precedences on its edges. -/
structure Printed where
  tokens : List Token
  right : Nat
  left : Nat

namespace Printed

/-- With so many parentheses around it. -/
def wrap : Nat → Printed → Printed
  | 0, x => x
  | n + 1, x => ⟨.symbol '(' :: (x.wrap n).tokens ++ [.symbol ')'], 7, 7⟩

/-- In parentheses if it binds less tightly than that on its right edge. -/
def fitRight (m : Nat) (x : Printed) : Printed := if m ≤ x.right then x else x.wrap 1

/-- In parentheses if it binds less tightly than that on its left edge. -/
def fitLeft (m : Nat) (x : Printed) : Printed := if m ≤ x.left then x else x.wrap 1

/-- The tokens of arguments. -/
def list : List Printed → List Token
  | [] => []
  | x :: xs => x.tokens ++ xs.flatMap fun x => .symbol ',' :: x.tokens

end Printed

/-- The print of a node, from those of its arguments. -/
def assemble (n : Node ι) (args : List Printed) : Printed :=
  match n.fn with
  | .literal => ⟨[.string n.name], 7, 7⟩
  | fn =>
    if n.name = "(operator)".toList then
      match operator fn, args with
      | some (token, p), [x, y] =>
        ⟨(x.fitRight p).tokens ++ token :: (y.fitLeft (p + 1)).tokens, p, min p (x.fitRight p).left⟩
      | _, [x] => ⟨.symbol '!' :: (x.fitLeft 6).tokens, 6, 6⟩
      | _, [x, y] => ⟨.if :: x.tokens ++ .then :: y.tokens ++ [.endif], 7, 7⟩
      | _, [x, y, z] =>
        ⟨.if :: x.tokens ++ .then :: y.tokens ++ .else :: z.tokens ++ [.endif], 7, 7⟩
      | _, _ => ⟨[], 0, 0⟩
    else ⟨.string n.name :: .symbol '(' :: Printed.list args ++ [.symbol ')'], 7, 7⟩

mutual

/-- The print of the expression at `path`, with `extra` more parentheses around each expression than
it needs. -/
def unparse (extra : List Nat → Nat) (path : List Nat) : Expr ι → Printed
  | .node n args => (assemble n (unparseArgs extra path 0 args)).wrap (extra path)

def unparseArgs (extra : List Nat → Nat) (path : List Nat) (i : Nat) : List (Expr ι) → List Printed
  | [] => []
  | e :: es => unparse extra (path ++ [i]) e :: unparseArgs extra path (i + 1) es

end

/-! ## The derivation of a print -/

/-- Wherever these tokens stand, they have the tree. -/
def Printed.Prints (x : Printed) (e : Expr ι) : Prop :=
  ∀ ts : List Lexeme, ts.map Lexeme.token = x.tokens → ∃ e', Derives x.right x.left ts e' ∧
  Same e' e

namespace Printed

variable {x y z : Printed} {e e' e'' : Expr ι}

theorem Prints.wrap (h : x.Prints e) : ∀ n, (x.wrap n).Prints e
  | 0 => h
  | n + 1 => by
    intro ts hts
    obtain ⟨front, back, rfl, hfront, hback⟩ := List.map_eq_append_iff.mp hts
    obtain ⟨a, mid, rfl, ha, hmid⟩ := List.map_eq_cons_iff.mp hfront
    obtain ⟨b, rfl, hb⟩ := List.map_eq_singleton_iff.mp hback
    obtain ⟨e', hd, hsame⟩ := h.wrap n mid hmid
    exact ⟨_, .paren ha hb hd, hsame.relocate _ _⟩

theorem Prints.fitRight (h : x.Prints e) (m : Nat) : (x.fitRight m).Prints e := by
  unfold Printed.fitRight
  split
  · exact h
  · exact h.wrap 1

theorem Prints.fitLeft (h : x.Prints e) (m : Nat) : (x.fitLeft m).Prints e := by
  unfold Printed.fitLeft
  split
  · exact h
  · exact h.wrap 1

theorem le_right_fitRight (x : Printed) {m : Nat} (hm : m ≤ 7) : m ≤ (x.fitRight m).right := by
  unfold Printed.fitRight
  split
  · assumption
  · exact hm

theorem le_left_fitLeft (x : Printed) {m : Nat} (hm : m ≤ 7) : m ≤ (x.fitLeft m).left := by
  unfold Printed.fitLeft
  split
  · assumption
  · exact hm

theorem derivesArgs_flatMap {xs : List Printed} {es : List (Expr ι)} (h : List.Forall₂ Prints xs es)
    {ts us : List Lexeme}
    {ds ds' : List (Expr ι)} (hds : DerivesArgs us ds) (hsame : List.Forall₂ Same ds ds')
    (hts : ts.map Lexeme.token = xs.flatMap fun x => .symbol ',' :: x.tokens) :
    ∃ es', DerivesArgs (us ++ ts) es' ∧ List.Forall₂ Same es' (ds' ++ es) := by
  induction h generalizing ts us ds ds' with
  | nil =>
    obtain rfl := List.map_eq_nil_iff.mp hts
    exact ⟨ds, by rwa [List.append_nil], by rwa [List.append_nil]⟩
  | cons hx _ ih =>
    rw [List.flatMap_cons] at hts
    obtain ⟨front, back, rfl, hfront, hback⟩ := List.map_eq_append_iff.mp hts
    obtain ⟨t, mid, rfl, ht, hmid⟩ := List.map_eq_cons_iff.mp hfront
    obtain ⟨e', hd, he⟩ := hx mid hmid
    obtain ⟨es', hes', hall⟩ := ih (.snoc ht hds hd) (List.rel_append hsame (.cons he .nil)) hback
    exact ⟨es', by simpa using hes', by simpa using hall⟩

theorem derivesArgs_list {xs : List Printed} {es : List (Expr ι)} (h : List.Forall₂ Prints xs es)
    {ts : List Lexeme}
    (hts : ts.map Lexeme.token = list xs) :
    ∃ es', DerivesArgs ts es' ∧ List.Forall₂ Same es' es := by
  cases h with
  | nil =>
    obtain rfl := List.map_eq_nil_iff.mp hts
    exact ⟨[], .nil, .nil⟩
  | cons hx hxs =>
    obtain ⟨front, back, rfl, hfront, hback⟩ := List.map_eq_append_iff.mp hts
    obtain ⟨e', hd, he⟩ := hx front hfront
    exact derivesArgs_flatMap hxs (.single hd) (.cons he .nil) hback

end Printed

theorem assemble_operator {n : Node ι} (hname : n.name = "(operator)".toList)
    (hfn : n.fn ≠ .literal) (args : List Printed) :
    assemble n args = match operator n.fn, args with
      | some (token, p), [x, y] =>
        ⟨(x.fitRight p).tokens ++ token :: (y.fitLeft (p + 1)).tokens, p, min p (x.fitRight p).left⟩
      | _, [x] => ⟨.symbol '!' :: (x.fitLeft 6).tokens, 6, 6⟩
      | _, [x, y] => ⟨.if :: x.tokens ++ .then :: y.tokens ++ [.endif], 7, 7⟩
      | _, [x, y, z] =>
        ⟨.if :: x.tokens ++ .then :: y.tokens ++ .else :: z.tokens ++ [.endif], 7, 7⟩
      | _, _ => ⟨[], 0, 0⟩ := by
  unfold assemble
  split
  · exact absurd ‹_› hfn
  · rw [if_pos hname]

theorem assemble_call {n : Node ι} (hname : n.name ≠ "(operator)".toList) (hfn : n.fn ≠ .literal)
    (args : List Printed) :
    assemble n args =
    ⟨.string n.name :: .symbol '(' :: Printed.list args ++ [.symbol ')'], 7, 7⟩ := by
  unfold assemble
  split
  · exact absurd ‹_› hfn
  · rw [if_neg hname]

theorem operator_le {fn : Function ι} {token : Token} {p : Nat}
    (h : operator fn = some (token, p)) : p ≤ 5 := by
  unfold operator at h
  split at h <;> cases h <;> decide

theorem findFunction_name {s : Text} {fn : Function ι} (h : findFunction ι s = some fn) :
    s ≠ "(operator)".toList ∧ fn ≠ .literal := by
  obtain ⟨l, _, hl⟩ := List.lookup_eq_some_iff.mp h
  have hall : ∀ entry ∈ functionTable ι, entry.1 ≠ "(operator)".toList ∧
      entry.2 ≠ .literal := by simp [functionTable]
  exact hall (s, fn) (by simp [hl.1])

section

variable {n : Node ι} {x y z : Printed} {e e' e'' : Expr ι}

theorem prints_literal (hfn : n.fn = .literal) (xs : List Printed) :
    (assemble n xs).Prints (.node n []) := by
  rw [assemble, hfn]
  intro ts hts
  obtain ⟨t, rfl, ht⟩ := List.map_eq_singleton_iff.mp hts
  exact ⟨_, .string ht, .node hfn.symm rfl .nil⟩

theorem prints_binary {token : Token} {p : Nat} (hname : n.name = "(operator)".toList)
    (hfn : operator n.fn = some (token, p)) (hx : x.Prints e) (hy : y.Prints e') :
    (assemble n [x, y]).Prints (.node n [e, e']) := by
  have hp := operator_le hfn
  rw [assemble_operator hname (by rintro heq; rw [heq] at hfn; cases hfn), hfn]
  intro ts hts
  obtain ⟨front, back, rfl, hfront, hback⟩ := List.map_eq_append_iff.mp hts
  obtain ⟨t, back, rfl, ht, hback⟩ := List.map_eq_cons_iff.mp hback
  obtain ⟨d, hd, hsame⟩ := hx.fitRight p front hfront
  obtain ⟨d', hd', hsame'⟩ := hy.fitLeft (p + 1) back hback
  have hbin : binary t.token = some (n.fn, p) := by rw [ht, binary_eq_some_iff, hfn]
  have hright := Printed.le_right_fitRight x (m := p) (by omega)
  have hleft := Printed.le_left_fitLeft y (m := p + 1) (by omega)
  exact ⟨_, .binary hbin hd hd' hright hleft,
    .node rfl hname.symm (.cons hsame (.cons hsame' .nil))⟩

theorem prints_not (hname : n.name = "(operator)".toList) (hfn : n.fn = .logicalNot)
    (hx : x.Prints e) : (assemble n [x]).Prints (.node n [e]) := by
  rw [assemble_operator hname (by rw [hfn]; nofun), hfn]
  intro ts hts
  obtain ⟨t, back, rfl, ht, hback⟩ := List.map_eq_cons_iff.mp hts
  obtain ⟨d, hd, hsame⟩ := hx.fitLeft 6 back hback
  exact ⟨_, .not ht hd (Printed.le_left_fitLeft x (by decide)),
    .node hfn.symm hname.symm (.cons hsame .nil)⟩

theorem prints_ifThen (hname : n.name = "(operator)".toList) (hfn : n.fn = .ifElse)
    (hx : x.Prints e) (hy : y.Prints e') : (assemble n [x, y]).Prints (.node n [e, e']) := by
  rw [assemble_operator hname (by rw [hfn]; nofun), hfn]
  intro ts hts
  obtain ⟨front, back, rfl, hfront, hback⟩ := List.map_eq_append_iff.mp hts
  obtain ⟨front, mid, rfl, hfront, hmid⟩ := List.map_eq_append_iff.mp hfront
  obtain ⟨a, us, rfl, ha, hus⟩ := List.map_eq_cons_iff.mp hfront
  obtain ⟨b, us', rfl, hb, hus'⟩ := List.map_eq_cons_iff.mp hmid
  obtain ⟨c, rfl, hc⟩ := List.map_eq_singleton_iff.mp hback
  obtain ⟨d, hd, hsame⟩ := hx us hus
  obtain ⟨d', hd', hsame'⟩ := hy us' hus'
  exact ⟨_, .ifThen ha hb hc hd hd', .node hfn.symm hname.symm (.cons hsame (.cons hsame' .nil))⟩

theorem prints_ifThenElse (hname : n.name = "(operator)".toList) (hfn : n.fn = .ifElse)
    (hx : x.Prints e) (hy : y.Prints e') (hz : z.Prints e'') :
    (assemble n [x, y, z]).Prints (.node n [e, e', e'']) := by
  rw [assemble_operator hname (by rw [hfn]; nofun), hfn]
  intro ts hts
  obtain ⟨front, back, rfl, hfront, hback⟩ := List.map_eq_append_iff.mp hts
  obtain ⟨front, last, rfl, hfront, hlast⟩ := List.map_eq_append_iff.mp hfront
  obtain ⟨front, mid, rfl, hfront, hmid⟩ := List.map_eq_append_iff.mp hfront
  obtain ⟨a, us, rfl, ha, hus⟩ := List.map_eq_cons_iff.mp hfront
  obtain ⟨b, us', rfl, hb, hus'⟩ := List.map_eq_cons_iff.mp hmid
  obtain ⟨c, us'', rfl, hc, hus''⟩ := List.map_eq_cons_iff.mp hlast
  obtain ⟨f, rfl, hf⟩ := List.map_eq_singleton_iff.mp hback
  obtain ⟨d, hd, hsame⟩ := hx us hus
  obtain ⟨d', hd', hsame'⟩ := hy us' hus'
  obtain ⟨d'', hd'', hsame''⟩ := hz us'' hus''
  exact ⟨_, .ifThenElse ha hb hc hf hd hd' hd'',
    .node hfn.symm hname.symm (.cons hsame (.cons hsame' (.cons hsame'' .nil)))⟩

theorem prints_call {xs : List Printed} {es : List (Expr ι)}
    (hfn : findFunction ι n.name = some n.fn) (hargs : List.Forall₂ Printed.Prints xs es) :
    (assemble n xs).Prints (.node n es) := by
  obtain ⟨hname, hliteral⟩ := findFunction_name hfn
  rw [assemble_call hname hliteral]
  intro ts hts
  obtain ⟨front, back, rfl, hfront, hback⟩ := List.map_eq_append_iff.mp hts
  obtain ⟨t, front, rfl, ht, hfront⟩ := List.map_eq_cons_iff.mp hfront
  obtain ⟨a, us, rfl, ha, hus⟩ := List.map_eq_cons_iff.mp hfront
  obtain ⟨b, rfl, hb⟩ := List.map_eq_singleton_iff.mp hback
  obtain ⟨es', hd, hsame⟩ := Printed.derivesArgs_list hargs hus
  exact ⟨_, .call ht ha hb hfn hd, .node rfl rfl hsame⟩

theorem assemble_prints {xs : List Printed} {es : List (Expr ι)} (h : Writable n es.length)
    (hargs : List.Forall₂ Printed.Prints xs es) : (assemble n xs).Prints (.node n es) := by
  generalize hlen : es.length = argc at h
  cases h with
  | literal hfn _ =>
    obtain rfl := List.length_eq_zero_iff.mp hlen
    exact prints_literal hfn xs
  | binary hname hfn =>
    obtain ⟨e, e', rfl⟩ := List.length_eq_two.mp hlen
    cases hargs with
    | cons hx hargs => cases hargs with
      | cons hy hargs => cases hargs; exact prints_binary hname hfn hx hy
  | not hname hfn =>
    obtain ⟨e, rfl⟩ := List.length_eq_one_iff.mp hlen
    cases hargs with
    | cons hx hargs => cases hargs; exact prints_not hname hfn hx
  | ifThen hname hfn =>
    obtain ⟨e, e', rfl⟩ := List.length_eq_two.mp hlen
    cases hargs with
    | cons hx hargs => cases hargs with
      | cons hy hargs => cases hargs; exact prints_ifThen hname hfn hx hy
  | ifThenElse hname hfn =>
    obtain ⟨e, e', e'', rfl⟩ := List.length_eq_three.mp hlen
    cases hargs with
    | cons hx hargs => cases hargs with
      | cons hy hargs => cases hargs with
        | cons hz hargs => cases hargs; exact prints_ifThenElse hname hfn hx hy hz
  | call hfn => exact prints_call hfn hargs

end

theorem unparseArgs_prints {extra : List Nat → Nat} {es : List (Expr ι)}
    (h : ∀ e ∈ es, ∀ path, (unparse extra path e).Prints e) (path : List Nat) (i : Nat) :
    List.Forall₂ Printed.Prints (unparseArgs extra path i es) es := by
  induction es generalizing i with
  | nil =>
    rw [unparseArgs]
    exact .nil
  | cons e es ih =>
    rw [unparseArgs]
    exact .cons (h e List.mem_cons_self _)
      (ih (fun e he => h e (List.mem_cons_of_mem _ he)) (i + 1))

theorem Expressible.prints {e : Expr ι} (h : Expressible e) (extra : List Nat → Nat)
    (path : List Nat) : (unparse extra path e).Prints e := by
  induction h generalizing path with
  | @node n as hn _ ih =>
    rw [unparse]
    exact (assemble_prints (List.length_map Tree.label ▸ hn) (unparseArgs_prints ih path 0)).wrap
      (extra path)

/-! ## A text for each print -/

/-- The string, quoted. -/
def quote (s : Text) : Text :=
  '"' :: s.flatMap (fun c => if c = '"' ∨ c = '\\' then ['\\', c] else [c]) ++ ['"']

/-- A text of the token. -/
def spell : Token → Text
  | .and => ['&', '&']
  | .or => ['|', '|']
  | .eq => ['=', '=']
  | .ne => ['!', '=']
  | .if => "if".toList
  | .then => "then".toList
  | .else => "else".toList
  | .endif => "endif".toList
  | .string s => quote s
  | .symbol c => [c]
  | .bad => []

/-- A text of the tokens, with blanks behind them. -/
def render (ts : List Token) : Text := ts.flatMap fun t => spell t ++ [' ']

/-- The tokens of scripts. -/
def Spellable : Token → Prop
  | .string s => '\x00' ∉ s
  | .symbol c => c ∈ ['+', '(', ')', ',', '!', ';']
  | .bad => False
  | _ => True

theorem spellable_symbol {c : Char} (hc : c ∈ ['+', '(', ')', ',', '!', ';']) :
    Spellable (.symbol c) := hc

theorem quotes_quote (s : Text) :
    Quotes ['"'] (s.flatMap fun c => if c = '"' ∨ c = '\\' then ['\\', c] else [c]) s := by
  induction s with
  | nil => exact .nil
  | cons c s ih =>
    rw [List.flatMap_cons]
    split_ifs with hc
    · refine .escape ?_ ih
      rcases hc with rfl | rfl <;> rfl
    · rw [not_or] at hc
      refine .char hc.1 ?_ ih
      by_contra hsome
      obtain ⟨r, hr⟩ := Option.ne_none_iff_exists'.mp hsome
      exact hc.2 (Option.some.inj (escape_head hr))

theorem Spellable.spells {t : Token} (h : Spellable t) : Spells (spell t) t := by
  cases t with
  | and => exact .and
  | or => exact .or
  | eq => exact .eq
  | ne => exact .ne
  | string s =>
    have hquoted := Spells.quoted (quotes_quote s)
    rwa [cstr_eq_self h] at hquoted
  | symbol c => exact .symbol h
  | bad => exact h.elim
  | _ => exact .word (by decide) (by decide)

theorem Spellable.nul_notMem {t : Token} (h : Spellable t) : '\x00' ∉ spell t := by
  cases t with
  | string s =>
    intro hmem
    simp only [spell, quote, List.cons_append, List.mem_cons, List.mem_append, List.mem_flatMap,
      List.not_mem_nil, or_false] at hmem
    rcases hmem with heq | ⟨c, hc, hmem⟩ | heq
    · cases heq
    · refine h ?_
      split_ifs at hmem
      · simp only [List.mem_cons, List.not_mem_nil, or_false] at hmem
        rcases hmem with heq | rfl
        · cases heq
        · exact hc
      · obtain rfl := List.mem_singleton.mp hmem
        exact hc
    · cases heq
  | symbol c =>
    intro hmem
    obtain rfl := List.mem_singleton.mp hmem
    exact absurd (show '\x00' ∈ ['+', '(', ')', ',', '!', ';'] from h) (by decide)
  | bad => exact h.elim
  | _ => decide

theorem layout_render {ts : List Token} (h : ∀ t ∈ ts, Spellable t) (pos : Int) :
    ∃ us, Layout pos (render ts) us ∧ us.map Lexeme.token = ts := by
  induction ts generalizing pos with
  | nil => exact ⟨[], .done .nil, rfl⟩
  | cons t ts ih =>
    obtain ⟨us, hlay, htokens⟩ :=
      ih (fun t ht => h t (List.mem_cons_of_mem _ ht)) (pos + (spell t).length + 1)
    have hapart : Apart (spell t) (' ' :: render ts) := by
      rintro c ⟨⟩
      exact ⟨fun _ => rfl, fun _ => by decide⟩
    refine ⟨⟨t, pos, pos + (spell t).length⟩ :: us, ?_, congrArg (t :: ·) htokens⟩
    rw [render, List.flatMap_cons, List.append_assoc]
    exact .cons_token (h t List.mem_cons_self).spells hapart
      (.cons_gap (g := [' ']) (.blank (.inl rfl) .nil) hlay)

theorem nul_notMem_render {ts : List Token} (h : ∀ t ∈ ts, Spellable t) : '\x00' ∉ render ts := by
  intro hmem
  obtain ⟨t, ht, hmem⟩ := List.mem_flatMap.mp hmem
  rcases List.mem_append.mp hmem with hmem | hmem
  · exact (h t ht).nul_notMem hmem
  · cases List.mem_singleton.mp hmem

theorem operator_spellable {fn : Function ι} {token : Token} {p : Nat}
    (h : operator fn = some (token, p)) : Spellable token := by
  unfold operator at h
  split at h <;> cases h <;> first | trivial | exact spellable_symbol (by decide)

theorem findFunction_nul_notMem {s : Text} {fn : Function ι} (h : findFunction ι s = some fn) :
    '\x00' ∉ s := by
  obtain ⟨l, _, hl⟩ := List.lookup_eq_some_iff.mp h
  have hall : ∀ entry ∈ functionTable ι, '\x00' ∉ entry.1 := by simp [functionTable]
  exact hall (s, fn) (by simp [hl.1])

namespace Printed

/-- The tokens have texts. -/
def Spelled (x : Printed) : Prop := ∀ t ∈ x.tokens, Spellable t

variable {x y z : Printed}

theorem Spelled.wrap (h : x.Spelled) : ∀ n, (x.wrap n).Spelled
  | 0 => h
  | n + 1 => by
    have hin := h.wrap n
    simp only [Spelled, Printed.wrap, List.cons_append, List.forall_mem_cons,
      List.forall_mem_append]
    exact ⟨spellable_symbol (by decide), hin, spellable_symbol (by decide), nofun⟩

theorem Spelled.fitRight (h : x.Spelled) (m : Nat) : (x.fitRight m).Spelled := by
  unfold Printed.fitRight
  split
  · exact h
  · exact h.wrap 1

theorem Spelled.fitLeft (h : x.Spelled) (m : Nat) : (x.fitLeft m).Spelled := by
  unfold Printed.fitLeft
  split
  · exact h
  · exact h.wrap 1

theorem spelled_list {xs : List Printed} (h : ∀ x ∈ xs, x.Spelled) :
    ∀ t ∈ list xs, Spellable t := by
  cases xs with
  | nil => nofun
  | cons x xs =>
    refine List.forall_mem_append.mpr ⟨h x List.mem_cons_self, fun t ht => ?_⟩
    obtain ⟨y, hy, ht⟩ := List.mem_flatMap.mp ht
    rcases List.mem_cons.mp ht with rfl | ht
    · exact spellable_symbol (by decide)
    · exact h y (List.mem_cons_of_mem _ hy) t ht

end Printed

theorem assemble_spelled {n : Node ι} {xs : List Printed} (h : Writable n xs.length)
    (hargs : ∀ x ∈ xs, x.Spelled) : (assemble n xs).Spelled := by
  generalize hlen : xs.length = argc at h
  cases h with
  | literal hfn hname =>
    rw [assemble, hfn]
    exact List.forall_mem_singleton.mpr hname
  | binary hname hfn =>
    obtain ⟨x, y, rfl⟩ := List.length_eq_two.mp hlen
    obtain ⟨hx, hargs⟩ := List.forall_mem_cons.mp hargs
    have hy := List.forall_mem_singleton.mp hargs
    rw [assemble_operator hname (by rintro heq; rw [heq] at hfn; cases hfn), hfn]
    exact List.forall_mem_append.mpr ⟨hx.fitRight _,
      List.forall_mem_cons.mpr ⟨operator_spellable hfn, hy.fitLeft _⟩⟩
  | not hname hfn =>
    obtain ⟨x, rfl⟩ := List.length_eq_one_iff.mp hlen
    have hx := List.forall_mem_singleton.mp hargs
    rw [assemble_operator hname (by rw [hfn]; nofun), hfn]
    exact List.forall_mem_cons.mpr ⟨spellable_symbol (by decide), hx.fitLeft 6⟩
  | ifThen hname hfn =>
    obtain ⟨x, y, rfl⟩ := List.length_eq_two.mp hlen
    obtain ⟨hx, hargs⟩ := List.forall_mem_cons.mp hargs
    have hy := List.forall_mem_singleton.mp hargs
    rw [assemble_operator hname (by rw [hfn]; nofun), hfn]
    simp only [Printed.Spelled, operator, List.cons_append, List.append_assoc, List.forall_mem_cons,
      List.forall_mem_append]
    exact ⟨trivial, hx, trivial, hy, trivial, nofun⟩
  | ifThenElse hname hfn =>
    obtain ⟨x, y, z, rfl⟩ := List.length_eq_three.mp hlen
    obtain ⟨hx, hargs⟩ := List.forall_mem_cons.mp hargs
    obtain ⟨hy, hargs⟩ := List.forall_mem_cons.mp hargs
    have hz := List.forall_mem_singleton.mp hargs
    rw [assemble_operator hname (by rw [hfn]; nofun), hfn]
    simp only [Printed.Spelled, operator, List.cons_append, List.append_assoc, List.forall_mem_cons,
      List.forall_mem_append]
    exact ⟨trivial, hx, trivial, hy, trivial, hz, trivial, nofun⟩
  | call hfn =>
    obtain ⟨hname, hliteral⟩ := findFunction_name hfn
    rw [assemble_call hname hliteral]
    simp only [Printed.Spelled, List.cons_append, List.forall_mem_cons, List.forall_mem_append]
    exact ⟨findFunction_nul_notMem hfn, spellable_symbol (by decide), Printed.spelled_list hargs,
      spellable_symbol (by decide), nofun⟩

theorem unparseArgs_spelled {extra : List Nat → Nat} {es : List (Expr ι)}
    (h : ∀ e ∈ es, ∀ path, (unparse extra path e).Spelled) (path : List Nat) (i : Nat) :
    (unparseArgs extra path i es).length = es.length ∧
    ∀ x ∈ unparseArgs extra path i es, x.Spelled := by
  induction es generalizing i with
  | nil =>
    rw [unparseArgs]
    exact ⟨rfl, nofun⟩
  | cons e es ih =>
    obtain ⟨hlen, hall⟩ := ih (fun e he => h e (List.mem_cons_of_mem _ he)) (i + 1)
    rw [unparseArgs]
    exact ⟨congrArg Nat.succ hlen, List.forall_mem_cons.mpr ⟨h e List.mem_cons_self _, hall⟩⟩

theorem Expressible.spelled {e : Expr ι} (h : Expressible e) (extra : List Nat → Nat)
    (path : List Nat) : (unparse extra path e).Spelled := by
  induction h generalizing path with
  | @node n as hn _ ih =>
    obtain ⟨hlen, hall⟩ := unparseArgs_spelled ih path 0
    rw [unparse]
    rw [List.length_map, ← hlen] at hn
    exact (assemble_spelled hn hall).wrap (extra path)

/-! ## The trees of scripts are those of their prints -/

theorem Layout.parses {pos : Int} {text : Text} {ts : List Lexeme} (hlay : Layout pos text ts)
    (hnul : '\x00' ∉ text) {e : Expr ι} : Parses pos .initial text e ↔ ∃ r l, Derives r l ts e := by
  rw [Parses, lex_eq_tokensFrom, cstr_eq_self hnul, hlay.scans]

/-- However the print of a tree is laid out, the script has this tree and no other. -/
theorem parses_unparse {e : Expr ι} (h : Expressible e) (extra : List Nat → Nat) {pos : Int}
    {text : Text}
    {ts : List Lexeme} (hlay : Layout pos text ts) (hnul : '\x00' ∉ text)
    (htokens : ts.map Lexeme.token = (unparse extra [] e).tokens) :
    ∃ e', Same e' e ∧ ∀ e'', Parses pos .initial text e'' ↔ e'' = e' := by
  obtain ⟨e', hd, hsame⟩ := h.prints extra [] ts htokens
  refine ⟨e', hsame, fun e'' => ?_⟩
  rw [hlay.parses hnul]
  constructor
  · rintro ⟨r, l, hd'⟩
    exact hd'.unique hd
  · rintro rfl
    exact ⟨_, _, hd⟩

theorem expressible_comparison : Expressible comparison := by
  have hliteral : ∀ c start stop, c ≠ '\x00' →
      Expressible (.node ⟨.literal, [c], start, stop⟩ [] : Expr Unit) :=
    fun c _ _ hc => .node (.literal rfl (by simpa using hc.symm)) nofun
  exact .node (.binary rfl rfl) (List.forall_mem_cons.mpr
    ⟨hliteral 'a' 9 10 (by decide), List.forall_mem_singleton.mpr (hliteral 'b' 12 13 (by decide))⟩)

/-- A comparison with its literals in parentheses. -/
theorem parses_unparse_comparison :
    ∃ e', Same e' comparison ∧ ∀ e'',
      Parses 0 .initial (render (unparse List.length [] comparison).tokens) e'' ↔ e'' = e' := by
  have hspelled := expressible_comparison.spelled List.length []
  obtain ⟨us, hlay, htokens⟩ := layout_render hspelled 0
  exact parses_unparse expressible_comparison List.length hlay (nul_notMem_render hspelled) htokens

/-! ## Other trees have no script -/

theorem Writable.congr {n n' : Node ι} {argc : Nat} (h : Writable n argc) (hfn : n.fn = n'.fn)
    (hname : n.name = n'.name) : Writable n' argc := by
  cases h with
  | literal h h' => exact .literal (hfn ▸ h) (hname ▸ h')
  | binary h h' => exact .binary (hname ▸ h) (hfn ▸ h')
  | not h h' => exact .not (hname ▸ h) (hfn ▸ h')
  | ifThen h h' => exact .ifThen (hname ▸ h) (hfn ▸ h')
  | ifThenElse h h' => exact .ifThenElse (hname ▸ h) (hfn ▸ h')
  | call h => exact .call (hname ▸ hfn ▸ h)

theorem Expressible.same {e e' : Expr ι} (h : Expressible e) (hsame : Same e e') :
    Expressible e' := by
  induction h generalizing e' with
  | @node n as hn hall ih =>
    cases hsame with
    | @node _ n' _ as' hfn hname has =>
      refine .node ?_ ?_
      · rw [List.length_map, ← has.length_eq, ← List.length_map (f := Tree.label)]
        exact hn.congr hfn hname
      · clear hn hall
        induction has with
        | nil => nofun
        | cons he _ ihargs =>
          obtain ⟨ihe, ihas⟩ := List.forall_mem_cons.mp ih
          exact List.forall_mem_cons.mpr ⟨ihe he, ihargs ihas⟩

theorem Expressible.relocate {e : Expr ι} (h : Expressible e) (start stop : Int) :
    Expressible (relocate e start stop) := by
  cases h with
  | node hn has => exact .node (hn.congr rfl rfl) has

mutual

theorem Derives.expressible {r l : Nat} {ts : List Lexeme} {e : Expr ι} :
    Derives r l ts e → (∀ t ∈ ts, Spellable t.token) → Expressible e
  | .string ht, hts => by
    have hname := hts _ List.mem_cons_self
    rw [ht] at hname
    exact .node (.literal rfl hname) nofun
  | .paren _ _ h, hts => (h.expressible fun t ht => hts t (by simp [ht])).relocate _ _
  | .semicolon _ h, hts => (h.expressible fun t ht => hts t (by simp [ht])).relocate _ _
  | .binary hfn h h' _ _, hts => .node (.binary rfl (binary_eq_some_iff.mp hfn))
    (List.forall_mem_cons.mpr ⟨h.expressible fun t ht => hts t (by simp [ht]),
      List.forall_mem_singleton.mpr (h'.expressible fun t ht => hts t (by simp [ht]))⟩)
  | .not _ h _, hts => .node (.not rfl rfl)
    (List.forall_mem_singleton.mpr (h.expressible fun t ht => hts t (by simp [ht])))
  | .ifThen _ _ _ h h', hts => .node (.ifThen rfl rfl)
    (List.forall_mem_cons.mpr ⟨h.expressible fun t ht => hts t (by simp [ht]),
      List.forall_mem_singleton.mpr (h'.expressible fun t ht => hts t (by simp [ht]))⟩)
  | .ifThenElse _ _ _ _ h h' h'', hts => .node (.ifThenElse rfl rfl)
    (List.forall_mem_cons.mpr ⟨h.expressible fun t ht => hts t (by simp [ht]),
      List.forall_mem_cons.mpr ⟨h'.expressible fun t ht => hts t (by simp [ht]),
        List.forall_mem_singleton.mpr (h''.expressible fun t ht => hts t (by simp [ht]))⟩⟩)
  | .call _ _ _ hfn h, hts => .node (.call hfn) (h.expressible fun t ht => hts t (by simp [ht]))

theorem DerivesArgs.expressible {ts : List Lexeme} {es : List (Expr ι)} :
    DerivesArgs ts es → (∀ t ∈ ts, Spellable t.token) → ∀ e ∈ es, Expressible e
  | .nil, _ => nofun
  | .single h, hts => List.forall_mem_singleton.mpr (h.expressible hts)
  | .snoc _ h h', hts => List.forall_mem_append.mpr ⟨h.expressible fun t ht => hts t (by simp [ht]),
    List.forall_mem_singleton.mpr (h'.expressible fun t ht => hts t (by simp [ht]))⟩

end

theorem Spells.spellable {w : Text} {t : Token} (h : Spells w t) : Spellable t := by
  cases h with
  | symbol hc => exact hc
  | word _ hword =>
    unfold ofWord
    split_ifs
    · trivial
    · trivial
    · trivial
    · trivial
    · exact fun hmem => absurd (hword _ hmem) (by decide)
  | quoted _ =>
    intro hmem
    have hne := List.mem_takeWhile_imp hmem
    simp at hne
  | _ => trivial

theorem Layout.spellable {pos : Int} {text : Text} {ts : List Lexeme} (h : Layout pos text ts) :
    ∀ t ∈ ts, Spellable t.token := by
  induction h with
  | done _ => nofun
  | unclosed _ _ => nofun
  | token _ hw _ _ ih => exact List.forall_mem_cons.mpr ⟨hw.spellable, ih⟩

theorem Parses.expressible {pos : Int} {text : Text} {e : Expr ι} (h : Parses pos .initial text e) :
    Expressible e := by
  obtain ⟨r, l, hd⟩ := h
  exact hd.expressible (layout_tokensFrom hd.ne_bad).spellable

/-- The trees that scripts have, up to the locations. -/
theorem expressible_iff_parses {e : Expr ι} :
    Expressible e ↔ ∃ text e', Parses 0 .initial text e' ∧ Same e' e := by
  constructor
  · intro h
    have hspelled := h.spelled (fun _ => 0) []
    obtain ⟨ts, hlay, htokens⟩ := layout_render hspelled 0
    obtain ⟨e', hd, hsame⟩ := h.prints (fun _ => 0) [] ts htokens
    exact ⟨_, e', (hlay.parses (nul_notMem_render hspelled)).mpr ⟨_, _, hd⟩, hsame⟩
  · rintro ⟨text, e', h, hsame⟩
    exact h.expressible.same hsame

end BootableRecovery.Edify
