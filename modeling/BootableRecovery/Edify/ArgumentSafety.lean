import BootableRecovery.Edify.Grammar

/-!
# The argument lists of script functions

The parser accepts any number of arguments for a function. The functions check their number
themselves, but `is_substring` and `sleep` do not: they read what is not there, or ignore what is
too much and yield a value. An evaluation is safe exactly if it never comes to such a call
(`parses_safe_iff`).
-/

namespace BootableRecovery.Edify

open EvalRules

variable {ι W : Type} (lib : ι → (name : Text) → (argc : Nat) → Registered W)

/-- No call of the evaluation reads an argument that is not there, or yields a value with a wrong
number of arguments; the operators have theirs. -/
structure ArgumentSafe (e : Expr ι) (sys : Sys W) : Prop where
  calls : ∀ ev ∈ (eval lib [] e sys).log, Safe ev
  operators : OperatorsFit e

/-- The evaluation comes to no call for which there is no rule: `sleep` without an argument, or with
more than one and the first a number; `is_substring` with fewer than two, or with more and the first
two strings. -/
def Regular (e : Expr ι) (sys : Sys W) : Prop := ∃ o, Means (rule lib) (stringOf cstr) [] e sys o

theorem fails_rule {n : Node ι} {args : List (Node ι)} (h : n.fn.accepts args.length = false) :
    (rule lib n args).Fails := by
  have hstr {onError : Failure → Sys W → Sys W} {i : Nat} {next : Text → EdifyRule ι W}
      (hnext : ∀ t, (next t).Fails) : (strArg onError i next).Fails := by
    intro v
    by_cases hv : v.type = .string
    · simpa [hv] using hnext v.data
    · simp [hv, Rule.Fails]
  unfold rule
  cases hfn : n.fn with
  | ifElse =>
    rw [hfn, Function.accepts, Bool.or_eq_false_iff, decide_eq_false_iff_not,
      decide_eq_false_iff_not] at h
    dsimp only [ifElseRule]
    rw [if_neg (not_or.mpr h)]
    trivial
  | substring =>
    rw [hfn, Function.accepts, decide_eq_false_iff_not] at h
    refine hstr fun left => hstr fun right => ?_
    dsimp only
    rw [if_neg h]
    trivial
  | sleep =>
    rw [hfn, Function.accepts, decide_eq_false_iff_not] at h
    refine hstr fun val => ?_
    cases (parseInt (cstr val)).filter (0 ≤ ·) with
    | none => trivial
    | some v =>
      dsimp only
      rw [if_neg h]
      trivial
  | lessThanInt | greaterThanInt =>
    rw [hfn, Function.accepts, decide_eq_false_iff_not] at h
    dsimp only [compareIntRule]
    rw [if_neg h]
    trivial
  | _ => simp [hfn, Function.accepts] at h

theorem safe_runs {build : Text → Value} {path : List Nat} {e : Expr ι} {sys : Sys W}
    {o : Outcome (Sys W) Failure (Entry ι) Value}
    (h : Runs (rule lib) build path e.args (ruleOf (rule lib) e) sys o) :
    o.result ≠ .error .outOfBounds ∧
    (e.label.fn.accepts e.args.length ∨ ∀ v, o.result ≠ .ok v) := by
  have hrule (n : Node ι) (ls : List (Node ι)) :
      (rule lib n ls).Proper True InBounds (ls.length + 2) 0 :=
    proper_rule_of lib (.inr ⟨trivial, rfl⟩)
  refine ⟨fun hres => h.raises (fun n ls => ⟨_, hrule n ls⟩) (hrule _ _) hres rfl, ?_⟩
  cases haccepts : e.label.fn.accepts e.args.length with
  | true => exact .inl rfl
  | false => exact .inr fun v => h.fails (fails_rule lib (by rwa [List.length_map])) v

theorem safe_means {e : Expr ι} {sys : Sys W} {o : Outcome (Sys W) Failure (Entry ι) Value}
    {build : Text → Value}
    (h : Means (rule lib) build [] e sys o) : ∀ ev ∈ o.log, Safe ev := by
  obtain ⟨o', h, rfl⟩ := h
  intro ev hev
  rcases List.mem_append.mp hev with hev | hev
  · cases ev with
    | returned p n argc x =>
      exact h.returned (Q := fun n argc x => Safe (.returned p n argc x))
        (fun _ _ _ _ h => safe_runs lib h) hev
    | made | called => trivial
  · cases List.mem_singleton.mp hev
    exact safe_runs lib h

/-- For each script that is accepted: the evaluation is safe if and only if it never comes to a call
for which there is no rule. -/
theorem parses_safe_iff {pos : Int} {mode : Mode} {text : Text} {e : Expr ι}
    (h : Parses pos mode text e) (sys : Sys W) : ArgumentSafe lib e sys ↔ Regular lib e sys := by
  obtain ⟨r, l, hderives⟩ := h
  obtain ⟨hruns, hnot⟩ := @follows ι W lib e [] sys
  constructor
  · intro hsafe
    by_contra hno
    obtain ⟨ev, hev, hbad⟩ := hnot fun o ho => hno ⟨_, o, ho, rfl⟩
    exact hbad (hsafe.calls ev hev)
  · rintro ⟨_, o, ho, rfl⟩
    refine ⟨?_, hderives.operatorsFit⟩
    rw [hruns o ho]
    exact safe_means lib ⟨o, ho, rfl⟩

/-! ## A call of `sleep` without arguments -/

def sleepSys : Sys Unit := ⟨⟨"sleep()".toList, [], -1, -1, false⟩, [], [], ()⟩

/-- No function is registered besides. -/
def noLib (f : Empty) (_ : Text) (_ : Nat) : Registered Unit := f.elim

/-- `sleep()`. -/
def sleepExpr : Expr Empty := .node ⟨.sleep, "sleep".toList, 0, 7⟩ []

theorem parses_sleepExpr : Parses 0 .initial "sleep()".toList sleepExpr := by
  have hlex : lex 0 .initial "sleep()".toList =
      [⟨.string "sleep".toList, 0, 5⟩, ⟨.symbol '(', 5, 6⟩, ⟨.symbol ')', 6, 7⟩] := by
      decide +kernel
  refine ⟨7, 7, ?_⟩
  rw [hlex]
  exact @Derives.call Empty "sleep".toList .sleep [] [] ⟨.string "sleep".toList, 0, 5⟩
    ⟨.symbol '(', 5, 6⟩
    ⟨.symbol ')', 6, 7⟩ rfl rfl rfl rfl .nil

/-- An accepted script reads an argument that is not there. -/
theorem not_parses_safe :
    ¬∀ (lib : Empty → Text → Nat → Registered Unit) (pos : Int) (mode : Mode) (text : Text)
    (e : Expr Empty),
      Parses pos mode text e → ∀ sys : Sys Unit, ArgumentSafe lib e sys := by
  intro h
  have hsafe := (h noLib 0 .initial _ _ parses_sleepExpr sleepSys).calls
  have hlog : (eval noLib [] sleepExpr sleepSys).log =
      [.returned [] ⟨.sleep, "sleep".toList, 0, 7⟩ 0 (.error .outOfBounds)] := rfl
  rw [hlog] at hsafe
  exact (hsafe _ (List.mem_singleton_self _)).1 rfl

theorem parses_safe_sleepExpr : ArgumentSafe noLib sleepExpr sleepSys ↔
    Regular noLib sleepExpr sleepSys :=
  parses_safe_iff noLib parses_sleepExpr sleepSys

end BootableRecovery.Edify
