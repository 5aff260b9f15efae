import BootableRecovery.Edify.Evaluation

/-!
# The grammar of update scripts

`edify/lexer.ll` and `edify/parser.yy`. The scanner is a function of the text and of what it keeps
between two scripts: the position, and the string it was in. The trees that the parser accepts
without an error are given by derivations of the grammar (`Derives`); the parser builds them from
the bottom, and its precedences decide which of them. A builtin function with a wrong number of
arguments is accepted.
-/

namespace BootableRecovery.Edify

open EvalRules

/-! ## The scanner -/

/-- The tokens; those that the parser refuses are `bad`. -/
inductive Token
  | and | or | eq | ne | «if» | «then» | «else» | «endif»
  | string (s : Text)
  | symbol (c : Char)
  | bad
  deriving DecidableEq

/-- A token and its location. -/
structure Lexeme where
  token : Token
  start : Int
  stop : Int
  deriving DecidableEq

/-- The characters of an unquoted string. -/
def isWord (c : Char) : Bool :=
  ('a' ≤ c && c ≤ 'z') || ('A' ≤ c && c ≤ 'Z') || ('0' ≤ c && c ≤ '9') ||
    c = '_' || c = ':' || c = '/' || c = '.'

/-- The keywords are words. -/
def ofWord (w : Text) : Token :=
  if w = "if".toList then .if
  else if w = "then".toList then .then
  else if w = "else".toList then .else
  else if w = "endif".toList then .endif
  else .string w

/-- The start condition of the scanner: it is inside a string that began at `start`, or not. -/
inductive Mode
  | initial
  | str (start : Int) (buffer : Text)
  deriving DecidableEq

/-- The escapes in a string, and their values. -/
def escape : Text → Option (Char × Nat)
  | '\\' :: 'n' :: _ => some ('\n', 2)
  | '\\' :: 't' :: _ => some ('\t', 2)
  | '\\' :: '"' :: _ => some ('"', 2)
  | '\\' :: '\\' :: _ => some ('\\', 2)
  | '\\' :: 'x' :: a :: b :: _ =>
    match digitValue 16 a, digitValue 16 b with
    | some h, some l => some (Char.ofNat (16 * h + l), 4)
    | _, _ => none
  | _ => none

/-- One rule of the scanner outside of a string: the token if there is one, and how many characters
it takes. -/
def scanInitial : Text → Option Token × Nat
  | '&' :: '&' :: _ => (some .and, 2)
  | '|' :: '|' :: _ => (some .or, 2)
  | '=' :: '=' :: _ => (some .eq, 2)
  | '!' :: '=' :: _ => (some .ne, 2)
  | '\n' :: _ => (none, 1)
  | '#' :: s =>
    if '\n' ∈ s then (none, (s.takeWhile (· ≠ '\n')).length + 2) else (some .bad, 1)
  | c :: s =>
    if isWord c then (some (ofWord (c :: s.takeWhile isWord)), (s.takeWhile isWord).length + 1)
    else if c = ' ' ∨ c = '\t' then (none, 1)
    else if c ∈ ['+', '(', ')', ',', '!', ';'] then (some (.symbol c), 1)
    else (some .bad, 1)
  | [] => (none, 0)

/-- `yylex` up to the end of the text, with as many steps as there are characters. -/
def scan : (fuel : Nat) → (pos : Int) → Mode → Text → List Lexeme
  | 0, _, _, _ => []
  | _ + 1, _, _, [] => []
  | n + 1, pos, .initial, '"' :: s => scan n (pos + 1) (.str pos []) s
  | n + 1, pos, .initial, s =>
    let (token, len) := scanInitial s
    (token.map fun token => ⟨token, pos, pos + len⟩).toList ++
      scan n (pos + len) .initial (s.drop len)
  | n + 1, pos, .str start buffer, '"' :: s =>
    ⟨.string (cstr buffer), start, pos + 1⟩ :: scan n (pos + 1) .initial s
  | n + 1, pos, .str start buffer, c :: s =>
    match escape (c :: s) with
    | some (e, len) => scan n (pos + len) (.str start (buffer ++ [e])) ((c :: s).drop len)
    | none => scan n (pos + 1) (.str start (buffer ++ [c])) s

/-- The tokens of a script, whose text ends at its first NUL. -/
def lex (pos : Int) (mode : Mode) (text : Text) : List Lexeme :=
  scan (cstr text).length pos mode (cstr text)

/-! ## The function table -/

/-- `fn_table` after `RegisterBuiltins`. -/
def functionTable (ι : Type) : List (Text × Function ι) :=
  [("ifelse".toList, .ifElse), ("abort".toList, .abort), ("assert".toList, .assert),
    ("concat".toList, .concat), ("is_substring".toList, .substring), ("stdout".toList, .stdout),
    ("sleep".toList, .sleep), ("less_than_int".toList, .lessThanInt),
    ("greater_than_int".toList, .greaterThanInt)]

def findFunction (ι : Type) (name : Text) : Option (Function ι) := (functionTable ι).lookup name

/-! ## The parser -/

/-- `@$.start` and `@$.end` of what the tokens were reduced to. -/
def startOf (ts : List Lexeme) : Int := (ts.head?.map Lexeme.start).getD 0

def stopOf (ts : List Lexeme) : Int := (ts.getLast?.map Lexeme.stop).getD 0

def build {ι : Type} (fn : Function ι) (ts : List Lexeme) (args : List (Expr ι)) : Expr ι :=
  .node ⟨fn, "(operator)".toList, startOf ts, stopOf ts⟩ args

/-- An expression with other locations. -/
def relocate {ι : Type} (e : Expr ι) (start stop : Int) : Expr ι :=
  .node { e.label with start, stop } e.args

/-- The binary operators, with their functions and their precedences, which are 0 for `;` up to 5
for `+`. All of them are left-associative. -/
def binary {ι : Type} : Token → Option (Function ι × Nat)
  | .symbol ';' => some (.sequence, 0)
  | .or => some (.logicalOr, 2)
  | .and => some (.logicalAnd, 3)
  | .eq => some (.equality, 4)
  | .ne => some (.inequality, 4)
  | .symbol '+' => some (.concat, 5)
  | _ => none

mutual

/-- The rules of `expr`. The numbers are the least precedences on the right edge and on the left
edge of the expression, and 7 where an edge has no operator: what stands in front of an operator was
reduced if it binds at least as tightly, and what stands behind it is reduced first if it binds more
tightly. A `;` with nothing behind it can stand in front of any operator. -/
inductive Derives {ι : Type} : (right left : Nat) → List Lexeme → Expr ι → Prop
  | string : t.token = .string s → Derives 7 7 [t] (.node ⟨.literal, s, t.start, t.stop⟩ [])
  | paren : a.token = .symbol '(' → b.token = .symbol ')' → Derives r l ts e →
    Derives 7 7 (a :: ts ++ [b]) (relocate e a.start b.stop)
  | semicolon : t.token = .symbol ';' → Derives r l ts e →
    Derives 7 0 (ts ++ [t]) (relocate e (startOf ts) (stopOf ts))
  | binary : binary t.token = some (fn, p) → Derives r l ts e → Derives r' l' ts' e' →
    p ≤ r → p < l' → Derives p (min p l) (ts ++ t :: ts') (build fn (ts ++ t :: ts') [e, e'])
  | not : t.token = .symbol '!' → Derives r l ts e → 6 ≤ l →
    Derives 6 6 (t :: ts) (build .logicalNot (t :: ts) [e])
  | ifThen : a.token = .if → b.token = .then → c.token = .endif → Derives r l ts e →
    Derives r' l' ts' e' →
    Derives 7 7 (a :: ts ++ b :: ts' ++ [c]) (build .ifElse (a :: ts ++ b :: ts' ++ [c]) [e, e'])
  | ifThenElse : a.token = .if → b.token = .then → c.token = .else → d.token = .endif →
    Derives r l ts e → Derives r' l' ts' e' → Derives r'' l'' ts'' e'' →
    Derives 7 7 (a :: ts ++ b :: ts' ++ c :: ts'' ++ [d])
      (build .ifElse (a :: ts ++ b :: ts' ++ c :: ts'' ++ [d]) [e, e', e''])
  | call : t.token = .string s → a.token = .symbol '(' → b.token = .symbol ')' →
    findFunction ι s = some fn → DerivesArgs ts es →
    Derives 7 7 (t :: a :: ts ++ [b]) (.node ⟨fn, s, t.start, b.stop⟩ es)

/-- The rules of `arglist`, whose first argument may be missing in front of a comma. -/
inductive DerivesArgs {ι : Type} : List Lexeme → List (Expr ι) → Prop
  | nil : DerivesArgs [] []
  | single : Derives r l ts e → DerivesArgs ts [e]
  | snoc : t.token = .symbol ',' → DerivesArgs ts es → Derives r l ts' e →
    DerivesArgs (ts ++ t :: ts') (es ++ [e])

end

/-- `parse_string` accepts the text without an error, and gives the expression; the scanner is at
the position and in the mode that the texts before have left it in. -/
def Parses {ι : Type} (pos : Int) (mode : Mode) (text : Text) (e : Expr ι) : Prop :=
  ∃ r l, Derives r l (lex pos mode text) e

/-! ## The arity of operators -/

/-- The number of arguments that an operator reads. -/
def Function.arity {ι : Type} : Function ι → Option Nat
  | .logicalAnd | .logicalOr | .equality | .inequality | .sequence => some 2
  | .logicalNot => some 1
  | _ => none

/-- Each operator has the arguments that it reads. -/
def OperatorsFit {ι : Type} (e : Expr ι) : Prop :=
  e.All fun n args => ∀ k ∈ n.fn.arity, args.length = k

variable {ι W : Type}

theorem OperatorsFit.relocate {e : Expr ι} (h : OperatorsFit e) (start stop : Int) :
    OperatorsFit (relocate e start stop) := by
  cases h with
  | node hn has => exact .node hn has

theorem arity_findFunction {s : Text} {fn : Function ι} (h : findFunction ι s = some fn) :
    fn.arity = none := by
  obtain ⟨l, _, hl⟩ := List.lookup_eq_some_iff.mp h
  have hall :
      ∀ entry ∈ functionTable ι, entry.2.arity = none := by simp [functionTable, Function.arity]
  exact hall (s, fn) (by simp [hl.1])

theorem arity_binary {token : Token} {fn : Function ι} {p : Nat} (h : binary token = some (fn, p)) :
    ∀ k ∈ fn.arity, 2 = k := by
  unfold binary at h
  split at h <;> cases h <;> simp [Function.arity]

mutual

theorem Derives.operatorsFit {r l : Nat} {ts : List Lexeme} {e : Expr ι} :
    Derives r l ts e → OperatorsFit e
  | .string _ => .node nofun nofun
  | .paren _ _ h => h.operatorsFit.relocate _ _
  | .semicolon _ h => h.operatorsFit.relocate _ _
  | .binary hfn h h' _ _ => .node (arity_binary hfn)
    (List.forall_mem_cons.mpr ⟨h.operatorsFit, List.forall_mem_singleton.mpr h'.operatorsFit⟩)
  | .not _ h _ =>
    .node (fun k hk => by cases hk; rfl) (List.forall_mem_singleton.mpr h.operatorsFit)
  | .ifThen _ _ _ h h' => .node nofun
    (List.forall_mem_cons.mpr ⟨h.operatorsFit, List.forall_mem_singleton.mpr h'.operatorsFit⟩)
  | .ifThenElse _ _ _ _ h h' h'' => .node nofun
    (List.forall_mem_cons.mpr ⟨h.operatorsFit,
      List.forall_mem_cons.mpr ⟨h'.operatorsFit, List.forall_mem_singleton.mpr h''.operatorsFit⟩⟩)
  | .call _ _ _ hfn h =>
    .node (fun k hk => by rw [arity_findFunction hfn] at hk; cases hk) h.operatorsFit

theorem DerivesArgs.operatorsFit {ts : List Lexeme} {es : List (Expr ι)} :
    DerivesArgs ts es → ∀ e ∈ es, OperatorsFit e
  | .nil => nofun
  | .single h => List.forall_mem_singleton.mpr h.operatorsFit
  | .snoc _ h h' =>
    List.forall_mem_append.mpr ⟨h.operatorsFit, List.forall_mem_singleton.mpr h'.operatorsFit⟩

end

end BootableRecovery.Edify
