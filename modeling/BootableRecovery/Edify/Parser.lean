import BootableRecovery.Edify.Grammar

/-!
# One tree for each script

The precedences of `edify/parser.yy` leave no choice: a parser that climbs them, with one token of
lookahead, accepts the token lists that the grammar derives, and gives the same tree
(`parses_iff_parseTokens`). So no script has two trees.
-/

namespace BootableRecovery.Edify

open EvalRules

variable {ι : Type}

/-- An expression with the location of its text. -/
structure Parsed (ι : Type) where
  expr : Expr ι
  start : Int
  stop : Int

/-- What the tokens were reduced to. -/
def Parsed.of (ts : List Lexeme) (e : Expr ι) : Parsed ι := ⟨e, startOf ts, stopOf ts⟩

/-- The tokens with which an expression begins. -/
def Token.startsExpr : Token → Bool
  | .string _ | .if => true
  | .symbol c => c = '(' || c = '!'
  | _ => false

def startsExpr (ts : List Lexeme) : Bool := (ts.head?.map fun t => t.token.startsExpr).getD false

def expectToken (token : Token) : List Lexeme → Option (Lexeme × List Lexeme)
  | t :: ts => if t.token = token then some (t, ts) else none
  | [] => none

mutual

/-- An expression whose operators on the left edge have at least the given precedence. -/
def parseExpr : (fuel : Nat) → Nat → List Lexeme → Option (Parsed ι × List Lexeme)
  | 0, _, _ => none
  | n + 1, m, ts => (parsePrimary n ts).bind fun x => parseOps n m x.1 x.2

/-- The operators that follow an expression. -/
def parseOps : (fuel : Nat) → Nat → Parsed ι → List Lexeme → Option (Parsed ι × List Lexeme)
  | 0, _, _, _ => none
  | _ + 1, _, x, [] => some (x, [])
  | n + 1, m, x, t :: ts => match binary t.token with
    | none => some (x, t :: ts)
    | some (fn, p) =>
      if p < m then some (x, t :: ts)
      else if p = 0 ∧ startsExpr ts = false then
        parseOps n m ⟨relocate x.expr x.start x.stop, x.start, t.stop⟩ ts
      else (parseExpr n (p + 1) ts).bind fun y =>
        parseOps n m
          ⟨.node ⟨fn, "(operator)".toList, x.start, y.1.stop⟩ [x.expr, y.1.expr], x.start,
            y.1.stop⟩ y.2

/-- An expression without operators on its edges, or with `!` in front. -/
def parsePrimary : (fuel : Nat) → List Lexeme → Option (Parsed ι × List Lexeme)
  | 0, _ => none
  | _ + 1, [] => none
  | n + 1, t :: ts => match t.token with
    | .string s => match expectToken (.symbol '(') ts with
      | none => some (⟨.node ⟨.literal, s, t.start, t.stop⟩ [], t.start, t.stop⟩, ts)
      | some (_, ts) => (findFunction ι s).bind fun fn => (parseArgs n ts).bind fun y =>
        some (⟨.node ⟨fn, s, t.start, y.2.1.stop⟩ y.1, t.start, y.2.1.stop⟩, y.2.2)
    | .symbol c =>
      if c = '(' then (parseExpr n 0 ts).bind fun x => (expectToken (.symbol ')') x.2).bind fun b =>
        some (⟨relocate x.1.expr t.start b.1.stop, t.start, b.1.stop⟩, b.2)
      else if c = '!' then (parseExpr n 6 ts).bind fun x =>
        some (⟨.node ⟨.logicalNot, "(operator)".toList, t.start, x.1.stop⟩ [x.1.expr], t.start,
          x.1.stop⟩, x.2)
      else none
    | .if => (parseExpr n 0 ts).bind fun x => (expectToken .then x.2).bind fun b =>
      (parseExpr n 0 b.2).bind fun y => match y.2 with
      | [] => none
      | c :: ts =>
        if c.token = .endif then
          some (⟨.node ⟨.ifElse, "(operator)".toList, t.start, c.stop⟩ [x.1.expr, y.1.expr],
            t.start, c.stop⟩, ts)
        else if c.token = .else then (parseExpr n 0 ts).bind fun z =>
          (expectToken .endif z.2).bind fun d =>
          some (⟨.node ⟨.ifElse, "(operator)".toList, t.start, d.1.stop⟩ [x.1.expr, y.1.expr,
            z.1.expr], t.start, d.1.stop⟩, d.2)
        else none
    | .then | .else | .endif | .and | .or | .eq | .ne | .bad => none

/-- The arguments of a call and the parenthesis behind them. -/
def parseArgs : (fuel : Nat) → List Lexeme → Option (List (Expr ι) × Lexeme × List Lexeme)
  | 0, _ => none
  | n + 1, ts =>
    if startsExpr ts then (parseExpr n 0 ts).bind fun x => parseMoreArgs n [x.1.expr] x.2
    else parseMoreArgs n [] ts

def parseMoreArgs : (fuel : Nat) → List (Expr ι) → List Lexeme →
    Option (List (Expr ι) × Lexeme × List Lexeme)
  | 0, _, _ => none
  | _ + 1, _, [] => none
  | n + 1, es, t :: ts =>
    if t.token = .symbol ')' then some (es, t, ts)
    else if t.token = .symbol ',' then (parseExpr n 0 ts).bind fun x =>
      parseMoreArgs n (es ++ [x.1.expr]) x.2
    else none

end

/-- The tree of a token list. -/
def parseTokens (ts : List Lexeme) : Option (Expr ι) :=
  match parseExpr (3 * ts.length + 1) 0 ts with
  | some (x, []) => some x.expr
  | _ => none

/-! ## Fuel -/

/-- A result with the fuel `n` is that with the fuel `n'`. -/
structure SameResults (ι : Type) (n n' : Nat) : Prop where
  expr : ∀ m ts x, parseExpr (ι := ι) n m ts = some x → parseExpr n' m ts = some x
  ops : ∀ m y ts x, parseOps (ι := ι) n m y ts = some x → parseOps n' m y ts = some x
  primary : ∀ ts x, parsePrimary (ι := ι) n ts = some x → parsePrimary n' ts = some x
  args : ∀ ts x, parseArgs (ι := ι) n ts = some x → parseArgs n' ts = some x
  moreArgs : ∀ es ts x, parseMoreArgs (ι := ι) n es ts = some x → parseMoreArgs n' es ts = some x

theorem bind_mono {α β : Type} {x x' : Option α} {f f' : α → Option β} {y : β}
    (h : x.bind f = some y) (hx : ∀ a, x = some a → x' = some a)
    (hf : ∀ a, f a = some y → f' a = some y) : x'.bind f' = some y := by
  obtain ⟨a, ha, hfa⟩ := Option.bind_eq_some_iff.mp h
  exact Option.bind_eq_some_iff.mpr ⟨a, hx a ha, hf a hfa⟩

theorem sameResults_succ (ι : Type) (n : Nat) : SameResults ι n (n + 1) := by
  induction n with
  | zero =>
    constructor <;> intros <;> simp_all [parseExpr, parseOps, parsePrimary, parseArgs,
      parseMoreArgs]
  | succ n ih =>
    refine ⟨fun m ts x h => ?_, fun m y ts x h => ?_, fun ts x h => ?_, fun ts x h =>
      ?_, fun es ts x h => ?_⟩
    · rw [parseExpr] at h ⊢
      exact bind_mono h (ih.primary ts) fun a => ih.ops m a.1 a.2 x
    · cases ts with
      | nil => rwa [parseOps] at h ⊢
      | cons t ts =>
        rw [parseOps] at h ⊢
        split at h
        · exact h
        · split_ifs at h ⊢
          · exact h
          · exact ih.ops _ _ _ _ h
          · exact bind_mono h (ih.expr _ _) fun a => ih.ops _ _ _ _
    · cases ts with
      | nil => rw [parsePrimary] at h; cases h
      | cons t ts =>
        rw [parsePrimary] at h ⊢
        split at h
        · split at h
          · exact h
          · exact bind_mono h (fun _ => id) fun fn hfn => bind_mono hfn (ih.args _) fun _ => id
        · split_ifs at h ⊢
          · exact bind_mono h (ih.expr _ _) fun _ => id
          · exact bind_mono h (ih.expr _ _) fun _ => id
        · refine bind_mono h (ih.expr _ _) fun a ha => bind_mono ha (fun _ => id) fun b hb =>
            bind_mono hb (ih.expr _ _) fun y hy => ?_
          split at hy
          · exact hy
          · split_ifs at hy ⊢
            · exact hy
            · exact bind_mono hy (ih.expr _ _) fun _ => id
        all_goals exact h
    · rw [parseArgs] at h ⊢
      split_ifs at h ⊢
      · exact bind_mono h (ih.expr _ _) fun a => ih.moreArgs _ _ _
      · exact ih.moreArgs _ _ _ h
    · cases ts with
      | nil => rw [parseMoreArgs] at h; cases h
      | cons t ts =>
        rw [parseMoreArgs] at h ⊢
        split_ifs at h ⊢
        · exact h
        · exact bind_mono h (ih.expr _ _) fun a => ih.moreArgs _ _ _

theorem sameResults {n n' : Nat} (h : n ≤ n') : SameResults ι n n' := by
  induction h with
  | refl =>
    exact ⟨fun _ _ _ => id, fun _ _ _ _ => id, fun _ _ => id, fun _ _ => id, fun _ _ _ => id⟩
  | @step n' _ ih =>
    have hstep := sameResults_succ ι n'
    exact ⟨fun m ts x h => hstep.expr m ts x (ih.expr m ts x h), fun m y ts x h =>
      hstep.ops m y ts x (ih.ops m y ts x h), fun ts x h => hstep.primary ts x (ih.primary ts x h),
      fun ts x h => hstep.args ts x (ih.args ts x h), fun es ts x h =>
      hstep.moreArgs es ts x (ih.moreArgs es ts x h)⟩

/-! ## What an expression begins with, and what follows it -/

theorem expectToken_eq_some {token : Token} {ts rest : List Lexeme} {t : Lexeme} :
    expectToken token ts = some (t, rest) ↔ ts = t :: rest ∧ t.token = token := by
  cases ts with
  | nil => simp [expectToken]
  | cons t' ts =>
    simp only [expectToken, List.cons.injEq]
    split
    · rename_i h
      simp only [Option.some.injEq, Prod.mk.injEq]
      constructor
      · rintro ⟨rfl, rfl⟩
        exact ⟨⟨rfl, rfl⟩, h⟩
      · exact And.left
    · rename_i h
      constructor
      · rintro ⟨⟩
      · rintro ⟨⟨rfl, rfl⟩, h'⟩
        exact absurd h' h

theorem binary_le {token : Token} {fn : Function ι} {p : Nat} (h : binary token = some (fn, p)) :
    p ≤ 5 := by
  unfold binary at h
  split at h <;> cases h <;> decide

theorem binary_eq_zero {token : Token} {fn : Function ι} (h : binary token = some (fn, 0)) :
    token = .symbol ';' ∧ fn = .sequence := by
  unfold binary at h
  split at h <;> cases h
  exact ⟨rfl, rfl⟩

theorem startsExpr_of_binary {token : Token} {x : Function ι × Nat} (h : binary token = some x) :
    token.startsExpr = false := by
  unfold binary at h
  split at h <;> first | rfl | cases h

theorem Derives.startsExpr {r l : Nat} {ts : List Lexeme} {e : Expr ι} (h : Derives r l ts e)
    (rest : List Lexeme) : startsExpr (ts ++ rest) = true := by
  cases h with
  | string ht => simp [Edify.startsExpr, ht, Token.startsExpr]
  | paren ha _ _ => simp [Edify.startsExpr, ha, Token.startsExpr]
  | semicolon _ h =>
    rw [List.append_assoc]
    exact h.startsExpr _
  | binary _ h _ _ _ =>
    rw [List.append_assoc]
    exact h.startsExpr _
  | not ht _ _ => simp [Edify.startsExpr, ht, Token.startsExpr]
  | ifThen ha _ _ _ _ => simp [Edify.startsExpr, ha, Token.startsExpr]
  | ifThenElse ha _ _ _ _ _ _ => simp [Edify.startsExpr, ha, Token.startsExpr]
  | call ht _ _ _ _ => simp [Edify.startsExpr, ht, Token.startsExpr]
termination_by ts.length
decreasing_by all_goals simp

/-- What is on the right edge of an expression binds at least as tightly as what is on its left
edge. -/
theorem Derives.le_right {r l : Nat} {ts : List Lexeme} {e : Expr ι} (h : Derives r l ts e) :
    l ≤ r := by
  cases h with
  | binary => exact Nat.min_le_left _ _
  | _ => decide

theorem Derives.ne_nil {r l : Nat} {ts : List Lexeme} {e : Expr ι} (h : Derives r l ts e) :
    ts ≠ [] := by
  rintro rfl
  have := h.startsExpr []
  cases this

theorem startOf_append {ts ts' : List Lexeme} (h : ts ≠ []) : startOf (ts ++ ts') = startOf ts := by
  cases ts with
  | nil => exact absurd rfl h
  | cons t ts => rfl

theorem stopOf_append {ts ts' : List Lexeme} (h : ts' ≠ []) : stopOf (ts ++ ts') = stopOf ts' := by
  rw [stopOf, stopOf, List.getLast?_append_of_ne_nil _ h]

@[simp] theorem startOf_cons (t : Lexeme) (ts : List Lexeme) : startOf (t :: ts) = t.start := rfl

theorem stopOf_cons {t : Lexeme} {ts : List Lexeme} (h : ts ≠ []) :
    stopOf (t :: ts) = stopOf ts := by
  rw [← List.singleton_append, stopOf_append h]

@[simp] theorem stopOf_concat (ts : List Lexeme) (t : Lexeme) : stopOf (ts ++ [t]) = t.stop :=
  stopOf_append (List.cons_ne_nil _ _)

/-- No operator of the tokens binds more tightly than `r`. -/
def Below (ι : Type) (r : Nat) (ts : List Lexeme) : Prop :=
  ∀ t ∈ ts.head?, ∀ (fn : Function ι) (p : Nat), binary t.token = some (fn, p) → p ≤ r

/-- What can follow an expression whose right edge is `r`. -/
structure CanFollow (ι : Type) (r : Nat) (ts : List Lexeme) : Prop where
  startsExpr : startsExpr ts = false
  below : Below ι r ts

theorem CanFollow.of_token {r : Nat} {t : Lexeme} (ts : List Lexeme)
    (hstart : t.token.startsExpr = false) (hop : binary (ι := ι) t.token = none) :
    CanFollow ι r (t :: ts) where
  startsExpr := hstart
  below t' ht' fn p hp := by
    cases ht'
    rw [hop] at hp
    cases hp

theorem CanFollow.of_binary {r p : Nat} {t : Lexeme} {ts : List Lexeme} {fn : Function ι}
    (h : binary t.token = some (fn, p)) (hr : p ≤ r) : CanFollow ι r (t :: ts) where
  startsExpr := startsExpr_of_binary h
  below t' ht' fn' p' hp' := by
    cases ht'
    rw [h] at hp'
    cases hp'
    exact hr

theorem below_of_le {r : Nat} {ts : List Lexeme} (h : 5 ≤ r) : Below ι r ts :=
  fun _ _ _ _ hp => (binary_le hp).trans h

theorem parseOps_stop {m r : Nat} {x : Parsed ι} {ts : List Lexeme} (h : Below ι r ts)
    (hm : r < m) : parseOps 1 m x ts = some (x, ts) := by
  cases ts with
  | nil => rw [parseOps]
  | cons t ts =>
    rw [parseOps]
    split
    · rfl
    · rename_i fn p hp
      rw [if_pos ((h t rfl fn p hp).trans_lt hm)]

theorem parseOps_token {m : Nat} {x : Parsed ι} {t : Lexeme} {ts : List Lexeme}
    (h : binary (ι := ι) t.token = none) : parseOps 1 m x (t :: ts) = some (x, t :: ts) := by
  rw [parseOps, h]

/-! ## What the grammar derives is parsed -/

mutual

/-- The parser comes to the end of the expression, and goes on with the operators behind it. -/
theorem Derives.parses {r l : Nat} {ts : List Lexeme} {e : Expr ι} : Derives r l ts e →
    ∀ (m n₀ : Nat) (rest : List Lexeme) (y : Parsed ι × List Lexeme), m ≤ l → CanFollow ι r rest →
      parseOps n₀ m (.of ts e) rest = some y →
      ∃ n ≤ n₀ + 3 * ts.length, parseExpr n m (ts ++ rest) = some y
  | .string (t := t) ht => by
    intro m n₀ rest y _ hrest hops
    cases n₀ with
    | zero => rw [parseOps] at hops; cases hops
    | succ n₀ =>
      refine ⟨n₀ + 2, by simp only [List.length_singleton]; omega, ?_⟩
      have hcall : expectToken (.symbol '(') rest = none := by
        rcases hexpect : expectToken (.symbol '(') rest with _ | ⟨t', ts'⟩
        · rfl
        · obtain ⟨rfl, ht'⟩ := expectToken_eq_some.mp hexpect
          have := hrest.startsExpr
          simp [Edify.startsExpr, ht', Token.startsExpr] at this
      rw [List.singleton_append, parseExpr, parsePrimary, ht]
      simp only [hcall, Option.bind_some]
      exact hops
  | @Derives.paren _ _ _ ts e a b ha hb h => by
    intro m n₀ rest y _ hrest hops
    have hbin : binary (ι := ι) b.token = none := by rw [hb]; rfl
    obtain ⟨n, hn, hinner⟩ :=
      h.parses _ _ _ _ (Nat.zero_le _) (.of_token rest (by rw [hb]; rfl) hbin)
      (parseOps_token (m := 0) (x := .of ts e) hbin)
    have hmono := sameResults (ι := ι) (Nat.le_max_left n n₀)
    have hmono' := sameResults (ι := ι) ((Nat.le_max_right n n₀).trans (Nat.le_succ _))
    refine ⟨max n n₀ + 2,
      by simp only [List.length_append, List.length_cons, List.length_nil]; omega, ?_⟩
    rw [List.append_assoc, List.cons_append, parseExpr, parsePrimary, ha]
    simp only [if_true, hmono.expr _ _ _ hinner, Option.bind_some, List.singleton_append,
      expectToken, hb]
    refine hmono'.ops _ _ _ _ ?_
    rw [← hops, Parsed.of, Parsed.of, stopOf_concat]
    rfl
  | @Derives.semicolon _ _ _ ts e t ht h => by
    intro m n₀ rest y hm hrest hops
    have hbin : binary (ι := ι) t.token = some (.sequence, 0) := by rw [ht]; rfl
    obtain rfl : m = 0 := by omega
    have hstep : parseOps (n₀ + 1) 0 (.of ts e) (t :: rest) = some y := by
      rw [parseOps, hbin]
      simp only [Nat.not_lt_zero, if_false, hrest.startsExpr, and_self, if_true]
      rw [← hops, Parsed.of, Parsed.of, startOf_append h.ne_nil, stopOf_concat]
    obtain ⟨n, hn, hparse⟩ :=
      h.parses _ _ _ _ (Nat.zero_le _) (.of_binary hbin (Nat.zero_le _)) hstep
    refine ⟨n, by simp only [List.length_append, List.length_singleton]; omega, ?_⟩
    rwa [List.append_assoc, List.singleton_append]
  | @Derives.binary _ fn p _ _ ts e _ _ ts' e' t hbin h h' hr hl => by
    intro m n₀ rest y hm hrest hops
    have hlast : Below ι p rest := hrest.below
    have hright : CanFollow ι _ rest :=
      ⟨hrest.startsExpr, fun t ht fn q hq => (hlast t ht fn q hq).trans (hl.le.trans h'.le_right)⟩
    obtain ⟨n', hn', hright⟩ := h'.parses _ _ _ _ hl hright
      (parseOps_stop (x := .of ts' e') hlast (Nat.lt_succ_self p))
    have hmono := sameResults (ι := ι) (Nat.le_max_left n' n₀)
    have hmono' := sameResults (ι := ι) (Nat.le_max_right n' n₀)
    have hstep : parseOps (max n' n₀ + 1) m (.of ts e) (t :: (ts' ++ rest)) = some y := by
      rw [parseOps, hbin]
      simp only [h'.startsExpr, Bool.true_eq_false, and_false, if_false, hmono.expr _ _ _ hright,
        Option.bind_some]
      rw [if_neg (by omega)]
      refine hmono'.ops _ _ _ _ ?_
      rw [← hops]
      simp only [Parsed.of, build, startOf_append h.ne_nil, stopOf_append (List.cons_ne_nil t ts'),
        stopOf_cons h'.ne_nil]
    obtain ⟨n, hn, hparse⟩ := h.parses _ _ _ _ (by omega) (.of_binary hbin hr) hstep
    refine ⟨n, by simp only [List.length_append, List.length_cons]; omega, ?_⟩
    rwa [List.append_assoc, List.cons_append]
  | @Derives.not _ _ _ ts e t ht h hl => by
    intro m n₀ rest y _ hrest hops
    obtain ⟨n, hn, hinner⟩ :=
      h.parses _ _ _ _ hl ⟨hrest.startsExpr, below_of_le (by have := h.le_right; omega)⟩
      (parseOps_stop (m := 6) (x := .of ts e) (below_of_le (Nat.le_refl 5)) (by decide))
    have hmono := sameResults (ι := ι) (Nat.le_max_left n n₀)
    have hmono' := sameResults (ι := ι) ((Nat.le_max_right n n₀).trans (Nat.le_succ _))
    refine ⟨max n n₀ + 2, by simp only [List.length_cons]; omega, ?_⟩
    rw [List.cons_append, parseExpr, parsePrimary, ht]
    simp only [Char.reduceEq, if_false, if_true, hmono.expr _ _ _ hinner, Option.bind_some]
    refine hmono'.ops _ _ _ _ ?_
    rw [← hops, Parsed.of, Parsed.of, build, stopOf_cons h.ne_nil, startOf_cons]
  | @Derives.ifThen _ _ _ ts e _ _ ts' e' a b c ha hb hc h h' => by
    intro m n₀ rest y _ hrest hops
    have hbin : binary (ι := ι) b.token = none := by rw [hb]; rfl
    have hbin' : binary (ι := ι) c.token = none := by rw [hc]; rfl
    obtain ⟨n, hn, hcond⟩ :=
      h.parses _ _ _ _ (Nat.zero_le _) (.of_token (ts' ++ c :: rest) (by rw [hb]; rfl) hbin)
      (parseOps_token (m := 0) (x := .of ts e) hbin)
    obtain ⟨n', hn', hthen⟩ :=
      h'.parses _ _ _ _ (Nat.zero_le _) (.of_token rest (by rw [hc]; rfl) hbin')
      (parseOps_token (m := 0) (x := .of ts' e') hbin')
    have hmono := sameResults (ι := ι) (show n ≤ n + n' + n₀ by omega)
    have hmono' := sameResults (ι := ι) (show n' ≤ n + n' + n₀ by omega)
    have hmono₀ := sameResults (ι := ι) (show n₀ ≤ n + n' + n₀ + 1 by omega)
    refine ⟨n + n' + n₀ + 2,
      by simp only [List.length_append, List.length_cons, List.length_nil]; omega, ?_⟩
    simp only [List.append_assoc, List.cons_append, List.nil_append]
    rw [parseExpr, parsePrimary, ha]
    simp only [hmono.expr _ _ _ hcond, Option.bind_some, expectToken, hb, if_true,
      hmono'.expr _ _ _ hthen, hc]
    refine hmono₀.ops _ _ _ _ ?_
    rw [← hops, Parsed.of, Parsed.of, Parsed.of, build, stopOf_concat]
    rfl
  | @Derives.ifThenElse _ _ _ ts e _ _ ts' e' _ _ ts'' e'' a b c d ha hb hc hd h h' h'' => by
    intro m n₀ rest y _ hrest hops
    have hbin : binary (ι := ι) b.token = none := by rw [hb]; rfl
    have hbin' : binary (ι := ι) c.token = none := by rw [hc]; rfl
    have hbin'' : binary (ι := ι) d.token = none := by rw [hd]; rfl
    obtain ⟨n, hn, hcond⟩ := h.parses _ _ _ _ (Nat.zero_le _)
      (.of_token (ts' ++ c :: (ts'' ++ d :: rest)) (by rw [hb]; rfl) hbin)
      (parseOps_token (m := 0) (x := .of ts e) hbin)
    obtain ⟨n', hn', hthen⟩ := h'.parses _ _ _ _ (Nat.zero_le _)
      (.of_token (ts'' ++ d :: rest) (by rw [hc]; rfl) hbin')
      (parseOps_token (m := 0) (x := .of ts' e') hbin')
    obtain ⟨n'', hn'', helse⟩ :=
      h''.parses _ _ _ _ (Nat.zero_le _) (.of_token rest (by rw [hd]; rfl) hbin'')
      (parseOps_token (m := 0) (x := .of ts'' e'') hbin'')
    have hmono := sameResults (ι := ι) (show n ≤ n + n' + n'' + n₀ by omega)
    have hmono' := sameResults (ι := ι) (show n' ≤ n + n' + n'' + n₀ by omega)
    have hmono'' := sameResults (ι := ι) (show n'' ≤ n + n' + n'' + n₀ by omega)
    have hmono₀ := sameResults (ι := ι) (show n₀ ≤ n + n' + n'' + n₀ + 1 by omega)
    refine ⟨n + n' + n'' + n₀ + 2,
      by simp only [List.length_append, List.length_cons, List.length_nil]; omega, ?_⟩
    simp only [List.append_assoc, List.cons_append, List.nil_append]
    rw [parseExpr, parsePrimary, ha]
    simp only [hmono.expr _ _ _ hcond, Option.bind_some, expectToken, hb, if_true,
      hmono'.expr _ _ _ hthen, hc, reduceCtorEq, if_false, hmono''.expr _ _ _ helse, hd]
    refine hmono₀.ops _ _ _ _ ?_
    rw [← hops, Parsed.of, Parsed.of, Parsed.of, Parsed.of, build, stopOf_concat]
    rfl
  | @Derives.call _ s _ ts es t a b ht ha hb hfn h => by
    intro m n₀ rest y _ hrest hops
    have hbin : binary (ι := ι) b.token = none := by rw [hb]; rfl
    have hclose : parseMoreArgs 1 es (b :: rest) = some (es, b, rest) := by
      rw [parseMoreArgs, if_pos hb]
    obtain ⟨n, hn, hargs⟩ := h.parses _ b rest _ (by rw [hb]; rfl) hbin hclose
    have hmono := sameResults (ι := ι) (show n ≤ n + n₀ by omega)
    have hmono₀ := sameResults (ι := ι) (show n₀ ≤ n + n₀ + 1 by omega)
    refine ⟨n + n₀ + 2,
      by simp only [List.length_append, List.length_cons, List.length_nil]; omega, ?_⟩
    simp only [List.append_assoc, List.cons_append, List.nil_append]
    rw [parseExpr, parsePrimary, ht]
    simp only [expectToken, ha, if_true, hfn, Option.bind_some, hmono.args _ _ hargs]
    refine hmono₀.ops _ _ _ _ ?_
    rw [← hops, Parsed.of, stopOf_concat]
    rfl

theorem DerivesArgs.parses {ts : List Lexeme} {es : List (Expr ι)} : DerivesArgs ts es →
    ∀ (n₀ : Nat) (b : Lexeme) (rest : List Lexeme) (y : List (Expr ι) × Lexeme × List Lexeme),
      b.token.startsExpr = false → binary (ι := ι) b.token = none →
      parseMoreArgs n₀ es (b :: rest) = some y →
      ∃ n ≤ n₀ + 3 * ts.length + 2, parseArgs n (ts ++ b :: rest) = some y
  | .nil => by
    intro n₀ b rest y hstart _ hmore
    refine ⟨n₀ + 1, by omega, ?_⟩
    rw [List.nil_append, parseArgs, if_neg (by simp [Edify.startsExpr, hstart])]
    exact hmore
  | @DerivesArgs.single _ _ _ ts e h => by
    intro n₀ b rest y hstart hbin hmore
    obtain ⟨n, hn, hparse⟩ := h.parses _ _ _ _ (Nat.zero_le _) (.of_token rest hstart hbin)
      (parseOps_token (m := 0) (x := .of ts e) hbin)
    have hmono := sameResults (ι := ι) (show n ≤ n + n₀ by omega)
    have hmono₀ := sameResults (ι := ι) (show n₀ ≤ n + n₀ by omega)
    refine ⟨n + n₀ + 1, by omega, ?_⟩
    rw [parseArgs, if_pos (h.startsExpr _), hmono.expr _ _ _ hparse, Option.bind_some]
    exact hmono₀.moreArgs _ _ _ hmore
  | @DerivesArgs.snoc _ ts es _ _ ts' e t ht h h' => by
    intro n₀ b rest y hstart hbin hmore
    obtain ⟨n', hn', hparse⟩ := h'.parses _ _ _ _ (Nat.zero_le _) (.of_token rest hstart hbin)
      (parseOps_token (m := 0) (x := .of ts' e) hbin)
    have hmono := sameResults (ι := ι) (show n' ≤ n' + n₀ by omega)
    have hmono₀ := sameResults (ι := ι) (show n₀ ≤ n' + n₀ by omega)
    have hstep : parseMoreArgs (n' + n₀ + 1) es (t :: (ts' ++ b :: rest)) = some y := by
      rw [parseMoreArgs, ht, if_neg (by decide), if_pos rfl, hmono.expr _ _ _ hparse,
        Option.bind_some]
      exact hmono₀.moreArgs _ _ _ hmore
    obtain ⟨n, hn, hargs⟩ :=
      h.parses _ t (ts' ++ b :: rest) _ (by rw [ht]; rfl) (by rw [ht]; rfl) hstep
    refine ⟨n, by simp only [List.length_append, List.length_cons]; omega, ?_⟩
    rwa [List.append_assoc, List.cons_append]

end

/-! ## What is parsed is derived -/

/-- The parser has taken an expression off the front: its left edge is at least `m`, and its right
edge at least `k`. -/
def Takes (m k : Nat) (ts : List Lexeme) (x : Parsed ι) (rest : List Lexeme) : Prop :=
  ∃ used r l, ts = used ++ rest ∧ Derives r l used x.expr ∧ x = .of used x.expr ∧ m ≤ l ∧ k ≤ r

/-- The operator in front of the tokens binds less tightly than `m`. -/
def Stops (ι : Type) (m : Nat) (ts : List Lexeme) : Prop :=
  ∀ t ∈ ts.head?, ∀ (fn : Function ι) (p : Nat), binary t.token = some (fn, p) → p < m

/-- The results of the functions with this fuel. -/
structure Sound (ι : Type) (n : Nat) : Prop where
  expr : ∀ m ts x rest, m ≤ 6 → parseExpr (ι := ι) n m ts = some (x, rest) → Takes m 0 ts x rest ∧
    Stops ι m rest
  ops : ∀ m k x ts y rest all, parseOps (ι := ι) n m x ts = some (y, rest) → Takes m k all x ts →
    Below ι k ts → Takes m 0 all y rest ∧ Stops ι m rest
  primary : ∀ ts x rest, parsePrimary (ι := ι) n ts = some (x, rest) → Takes 6 5 ts x rest
  args : ∀ ts es b rest, parseArgs (ι := ι) n ts = some (es, b, rest) →
    b.token = .symbol ')' ∧ ∃ used, ts = used ++ b :: rest ∧ DerivesArgs used es
  moreArgs : ∀ es ts es' b rest used, parseMoreArgs (ι := ι) n es ts = some (es', b, rest) →
    DerivesArgs used es → b.token = .symbol ')' ∧ ∃ used', used ++ ts = used' ++ b :: rest ∧
    DerivesArgs used' es'

theorem takes_if {m k : Nat} {a c : Lexeme} {ts ts' rest : List Lexeme} {x y : Parsed ι}
    {b : Lexeme} (hm : m ≤ 7)
    (hk : k ≤ 7)
    (ha : a.token = .if) (hb : b.token = .then) (hc : c.token = .endif)
    (hx : Takes 0 0 ts x (b :: ts')) (hy : Takes 0 0 ts' y (c :: rest)) :
    Takes m k (a :: ts) ⟨.node ⟨.ifElse, "(operator)".toList, a.start, c.stop⟩ [x.expr, y.expr],
      a.start, c.stop⟩ rest := by
  obtain ⟨used, r, l, rfl, hx, -, -, -⟩ := hx
  obtain ⟨used', r', l', rfl, hy, -, -, -⟩ := hy
  have h := Derives.ifThen ha hb hc hx hy
  simp only [build, stopOf_concat] at h
  refine ⟨_, 7, 7, ?_, h, ?_, hm, hk⟩
  · simp
  · simp only [Parsed.of, stopOf_concat]
    rfl

theorem takes_ifElse {m k : Nat} {a b c d : Lexeme} {ts ts' ts'' rest : List Lexeme}
    {x y z : Parsed ι} (hm : m ≤ 7)
    (hk : k ≤ 7) (ha : a.token = .if) (hb : b.token = .then) (hc : c.token = .else)
    (hd : d.token = .endif) (hx : Takes 0 0 ts x (b :: ts')) (hy : Takes 0 0 ts' y (c :: ts''))
    (hz : Takes 0 0 ts'' z (d :: rest)) : Takes m k (a :: ts)
      ⟨.node ⟨.ifElse, "(operator)".toList, a.start, d.stop⟩ [x.expr, y.expr, z.expr], a.start,
        d.stop⟩ rest := by
  obtain ⟨used, r, l, rfl, hx, -, -, -⟩ := hx
  obtain ⟨used', r', l', rfl, hy, -, -, -⟩ := hy
  obtain ⟨used'', r'', l'', rfl, hz, -, -, -⟩ := hz
  have h := Derives.ifThenElse ha hb hc hd hx hy hz
  simp only [build, stopOf_concat] at h
  refine ⟨_, 7, 7, ?_, h, ?_, hm, hk⟩
  · simp
  · simp only [Parsed.of, stopOf_concat]
    rfl

theorem sound (ι : Type) (n : Nat) : Sound ι n := by
  induction n with
  | zero =>
    constructor <;> intros <;> simp_all [parseExpr, parseOps, parsePrimary, parseArgs,
      parseMoreArgs]
  | succ n ih =>
    refine ⟨fun m ts x rest hm h => ?_, fun m k x ts y rest all h hx hk =>
      ?_, fun ts x rest h => ?_, fun ts es b rest h => ?_, fun es ts es' b rest used h hused => ?_⟩
    · -- an operand and the operators behind it
      rw [parseExpr] at h
      obtain ⟨⟨y, ts'⟩, hprimary, hops⟩ := Option.bind_eq_some_iff.mp h
      obtain ⟨used, r, l, rfl, hy, hof, hl, hr⟩ := ih.primary ts y ts' hprimary
      exact ih.ops m 5 y ts' x rest _ hops ⟨used, r, l, rfl, hy, hof, by omega, hr⟩
        (below_of_le (Nat.le_refl 5))
    · obtain ⟨used, r, l, rfl, hx, hof, hl, hr⟩ := hx
      cases ts with
      | nil =>
        rw [parseOps] at h
        cases h
        exact ⟨⟨used, r, l, rfl, hx, hof, hl, Nat.zero_le r⟩, by rintro _ ⟨⟩⟩
      | cons t ts =>
        rw [parseOps] at h
        split at h
        · rename_i hbin
          cases h
          refine ⟨⟨used, r, l, rfl, hx, hof, hl, Nat.zero_le r⟩, ?_⟩
          rintro t' ⟨⟩ fn p hp
          rw [hbin] at hp
          cases hp
        · rename_i fn p hbin
          have hp : p ≤ r := (hk t rfl fn p hbin).trans hr
          split_ifs at h with hpm hzero
          · cases h
            refine ⟨⟨used, r, l, rfl, hx, hof, hl, Nat.zero_le r⟩, ?_⟩
            rintro t' ⟨⟩ fn' p' hp'
            rw [hbin] at hp'
            cases hp'
            exact hpm
          · -- a `;` with nothing behind it
            obtain ⟨rfl, -⟩ := hzero
            obtain ⟨ht, -⟩ := binary_eq_zero hbin
            refine ih.ops m 7 _ ts y rest _ h ⟨used ++ [t], 7, 0,
              by simp, ?_, ?_, by omega, Nat.le_refl 7⟩
              (below_of_le (by decide))
            · rw [hof]
              exact .semicolon ht hx
            · rw [Parsed.of, startOf_append hx.ne_nil, stopOf_concat, hof]
              rfl
          · obtain ⟨⟨z, ts'⟩, hz, hops⟩ := Option.bind_eq_some_iff.mp h
            have hle := binary_le hbin
            obtain ⟨⟨used', r', l', rfl, hz, hof', hl', -⟩, hstop⟩ :=
              ih.expr (p + 1) ts z ts' (by omega) hz
            refine ih.ops m p _ ts' y rest _ hops ⟨used ++ t :: used', p, min p l,
              by simp, ?_, ?_, by omega, Nat.le_refl p⟩
              fun t' ht' fn' p' hp' => Nat.lt_succ_iff.mp (hstop t' ht' fn' p' hp')
            · have hbuild := Derives.binary hbin hx hz hp hl'
              rw [build, startOf_append hx.ne_nil, stopOf_append (List.cons_ne_nil _ _),
                stopOf_cons hz.ne_nil] at hbuild
              rw [hof, hof']
              exact hbuild
            · rw [Parsed.of, startOf_append hx.ne_nil, stopOf_append (List.cons_ne_nil _ _),
                stopOf_cons hz.ne_nil, hof, hof']
              rfl
    · cases ts with
      | nil => rw [parsePrimary] at h; cases h
      | cons t ts =>
        rw [parsePrimary] at h
        split at h
        · rename_i s ht
          split at h
          · cases h
            exact ⟨[t], 7, 7, rfl, .string ht, rfl, by decide, by decide⟩
          · rename_i a ts' hcall
            obtain ⟨rfl, ha⟩ := expectToken_eq_some.mp hcall
            obtain ⟨fn, hfn, h⟩ := Option.bind_eq_some_iff.mp h
            obtain ⟨⟨es, b, rest'⟩, hargs, h⟩ := Option.bind_eq_some_iff.mp h
            cases h
            obtain ⟨hb, used, rfl, hes⟩ := ih.args _ _ _ _ hargs
            refine ⟨t :: a :: used ++ [b], 7, 7,
              by simp, .call ht ha hb hfn hes, ?_, by decide, by decide⟩
            rw [Parsed.of, stopOf_concat]
            rfl
        · rename_i c ht
          split_ifs at h with hparen hnot
          · subst hparen
            obtain ⟨⟨x', ts'⟩, hparse, h⟩ := Option.bind_eq_some_iff.mp h
            obtain ⟨⟨b, rest'⟩, hclose, h⟩ := Option.bind_eq_some_iff.mp h
            cases h
            obtain ⟨rfl, hb⟩ := expectToken_eq_some.mp hclose
            obtain ⟨⟨used, r, l, rfl, hx, hof, -, -⟩, -⟩ := ih.expr 0 _ _ _ (by decide) hparse
            refine ⟨t :: used ++ [b], 7, 7, by simp, ?_, ?_, by decide, by decide⟩
            · exact .paren ht hb hx
            · rw [Parsed.of, stopOf_concat]
              rfl
          · subst hnot
            obtain ⟨⟨x', ts'⟩, hx, h⟩ := Option.bind_eq_some_iff.mp h
            cases h
            obtain ⟨⟨used, r, l, rfl, hx, hof, hl, -⟩, -⟩ := ih.expr 6 _ _ _ (by decide) hx
            have hbuild := Derives.not ht hx hl
            rw [build, stopOf_cons hx.ne_nil, startOf_cons] at hbuild
            have hstop : x'.stop = stopOf used := by rw [hof]; rfl
            refine ⟨t :: used, 6, 6, rfl, ?_, ?_, by decide, by decide⟩
            · rw [hstop]
              exact hbuild
            · rw [Parsed.of, stopOf_cons hx.ne_nil, hstop]
              rfl
        · rename_i ht
          obtain ⟨⟨x', ts₁⟩, hif, h⟩ := Option.bind_eq_some_iff.mp h
          obtain ⟨⟨b, ts₂⟩, hthen, h⟩ := Option.bind_eq_some_iff.mp h
          obtain ⟨⟨y', ts₃⟩, hbody, h⟩ := Option.bind_eq_some_iff.mp h
          obtain ⟨rfl, hb⟩ := expectToken_eq_some.mp hthen
          have hx := (ih.expr 0 _ _ _ (by decide) hif).1
          have hy := (ih.expr 0 _ _ _ (by decide) hbody).1
          cases ts₃ with
          | nil => cases h
          | cons c ts₃ =>
            simp only at h
            split_ifs at h with hend helse
            · cases h
              exact takes_if (by decide) (by decide) ht hb hend hx hy
            · obtain ⟨⟨z, ts₄⟩, hz, h⟩ := Option.bind_eq_some_iff.mp h
              obtain ⟨⟨d, ts₅⟩, hendif, h⟩ := Option.bind_eq_some_iff.mp h
              cases h
              obtain ⟨rfl, hd⟩ := expectToken_eq_some.mp hendif
              exact takes_ifElse (by decide) (by decide) ht hb helse hd hx hy
                (ih.expr 0 _ _ _ (by decide) hz).1
        all_goals cases h
    · rw [parseArgs] at h
      split_ifs at h with hstart
      · obtain ⟨⟨x, ts'⟩, hparse, hmore⟩ := Option.bind_eq_some_iff.mp h
        obtain ⟨⟨used, r, l, rfl, hx, -, -, -⟩, -⟩ := ih.expr 0 _ _ _ (by decide) hparse
        exact ih.moreArgs _ _ _ _ _ _ hmore (.single hx)
      · exact ih.moreArgs _ _ _ _ _ [] h .nil
    · cases ts with
      | nil => rw [parseMoreArgs] at h; cases h
      | cons t ts =>
        rw [parseMoreArgs] at h
        split_ifs at h with hclose hcomma
        · cases h
          exact ⟨hclose, used, rfl, hused⟩
        · obtain ⟨⟨x, ts'⟩, hparse, hmore⟩ := Option.bind_eq_some_iff.mp h
          obtain ⟨⟨used', r, l, rfl, hx, -, -, -⟩, -⟩ := ih.expr 0 _ _ _ (by decide) hparse
          obtain ⟨hb, all, hall, hargs⟩ := ih.moreArgs _ _ _ _ _ _ hmore (.snoc hcomma hused hx)
          exact ⟨hb, all, by rw [← hall]; simp, hargs⟩

/-! ## The parser decides -/

theorem derives_of_parseTokens {ts : List Lexeme} {e : Expr ι} (h : parseTokens ts = some e) :
    ∃ r l, Derives r l ts e := by
  rw [parseTokens] at h
  split at h
  · rename_i x hparse
    cases h
    obtain ⟨⟨used, r, l, rfl, hx, -, -, -⟩, -⟩ := (sound ι _).expr 0 _ _ _ (by decide) hparse
    rw [List.append_nil]
    exact ⟨r, l, hx⟩
  · cases h

theorem Derives.parseTokens {r l : Nat} {ts : List Lexeme} {e : Expr ι} (h : Derives r l ts e) :
    parseTokens ts = some e := by
  have hend : parseOps 1 0 (.of ts e) [] = some (.of ts e, []) := by rw [parseOps]
  obtain ⟨n, hn, hparse⟩ := h.parses 0 1 [] _ (Nat.zero_le l) ⟨rfl, by rintro _ ⟨⟩⟩ hend
  rw [List.append_nil] at hparse
  rw [Edify.parseTokens, (sameResults (by omega)).expr _ _ _ hparse]
  rfl

theorem Derives.unique {r l r' l' : Nat} {ts : List Lexeme} {e e' : Expr ι} (h : Derives r l ts e)
    (h' : Derives r' l' ts e') : e = e' :=
  Option.some.inj (h.parseTokens.symm.trans h'.parseTokens)

/-- The parser accepts the scripts that the grammar derives, with the same tree. -/
theorem parses_iff_parseTokens {pos : Int} {mode : Mode} {text : Text} {e : Expr ι} :
    Parses pos mode text e ↔ parseTokens (lex pos mode text) = some e :=
  ⟨fun ⟨_, _, h⟩ => h.parseTokens, derives_of_parseTokens⟩

end BootableRecovery.Edify
