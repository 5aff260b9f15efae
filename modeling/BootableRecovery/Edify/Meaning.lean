import BootableRecovery.Edify.Expr

/-!
# What scripts mean

The rules of the language, as its documentation gives them: which arguments each operator and
function evaluates, and what it yields. The code cuts each string that it makes at the first NUL,
which no rule says; so the meaning of a script is taken with either way to make strings. The
evaluator follows the rules as far as they go (`eval_refines`); where a function is called with a
number of arguments that it does not take and no rule says how to go on, it reads an argument that
is not there, or yields a value nevertheless.
-/

namespace BootableRecovery.Edify

open EvalRules

section

variable {ι W : Type}

/-- The rules of the language, on what the evaluator works on. -/
abbrev EdifyRule (ι W : Type) := Rule (Sys W) Failure Value Text (ι × List Value)

/-- The numbers of arguments that a builtin function takes. The arguments of operators are put
together by the parser, and registered functions check them on their own. -/
def Function.accepts : Function ι → Nat → Bool
  | .ifElse, argc => argc = 2 || argc = 3
  | .substring, argc => argc = 2
  | .sleep, argc => argc = 1
  | .lessThanInt, argc | .greaterThanInt, argc => argc = 2
  | _, _ => true

/-! ## The rules -/

/-- Nothing happens besides. -/
def ignore (_ : Failure) (sys : Sys W) : Sys W := sys

def failWith (f : State → State) : EdifyRule ι W :=
  .fail fun sys => (.null, { sys with state := f sys.state })

/-- A value that is no string was found where a string has to be. -/
def notString (type : ValueType) (sys : Sys W) : Sys W :=
  { sys with
    state := { sys.state with
      errmsg := trim (expectingString type) ++ ['\n']
      causeCode := kArgsParsingFailure } }

/-- The argument `i`, which has to be a string. -/
def strArg (onError : Failure → Sys W → Sys W) (i : Nat) (next : Text → EdifyRule ι W) :
    EdifyRule ι W :=
  .arg i (fun v => if v.type = .string then next v.data
    else .fail fun sys => (.null, onError .null (notString v.type sys))) onError

/-- The value of the argument `i` is the value. -/
def lastArg (i : Nat) : EdifyRule ι W := .arg i .yield ignore

def concatRule (i : Nat) : Nat → Text → EdifyRule ι W
  | 0, result => .make result
  | n + 1, result => strArg ignore i fun str => concatRule (i + 1) n (result ++ str)

/-- Exactly one of the branches is evaluated; a branch that is missing is the empty string. -/
def ifElseRule (argc : Nat) : EdifyRule ι W :=
  if argc = 2 ∨ argc = 3 then
    strArg ignore 0 fun cond =>
      if cond ≠ [] then lastArg 1 else if argc = 3 then lastArg 2 else .make []
  else failWith fun st => { st with errmsg := "ifelse expects 2 or 3 arguments".toList }

/-- The message of an assertion, which is in the script from `start` to `stop`. -/
def assertMessage (start stop : Int) (sys : Sys W) : Failure × Sys W :=
  match substr sys.state.script start (stop - start) with
  | none => (.outOfRange, sys)
  | some text =>
    (.null, { sys with state := { sys.state with errmsg := "assert failed: ".toList ++ text } })

/-- The arguments are evaluated up to the first that is false, which fails. -/
def assertRule (i : Nat) : List (Node ι) → EdifyRule ι W
  | [] => .make []
  | n :: rest => strArg ignore i fun result =>
    if result ≠ [] then assertRule (i + 1) rest else .fail (assertMessage n.start n.stop)

def appendedErrmsg (msg : Text) (st : State) : State := { st with errmsg := st.errmsg ++ msg }

def calledAbort (err : Failure) (sys : Sys W) : Sys W :=
  if err = .null then { sys with state := appendedErrmsg "called abort()".toList sys.state }
  else sys

def abortRule (argc : Nat) : EdifyRule ι W :=
  if argc = 0 then failWith (appendedErrmsg "called abort()".toList)
  else strArg calledAbort 0 fun msg => failWith (appendedErrmsg msg)

def sleepRule (argc : Nat) : EdifyRule ι W :=
  strArg ignore 0 fun val =>
    match (parseInt (cstr val)).filter (0 ≤ ·) with
    | none => failWith id
    | some v =>
      if argc = 1 then .step (fun sys => (none, { sys with slept := sys.slept ++ [v] })) (.make val)
        else .stuck

def stdoutRule (i : Nat) : Nat → EdifyRule ι W
  | 0 => .make []
  | n + 1 => strArg ignore i fun v =>
    .step (fun sys => (none, { sys with stdout := sys.stdout ++ cstr v })) (stdoutRule (i + 1) n)

/-- The second argument is evaluated only if the first is true; the value is that of the last one
that was evaluated. -/
def andRule : EdifyRule ι W :=
  strArg ignore 0 fun left => if left ≠ [] then lastArg 1 else .make left

/-- The second argument is evaluated only if the first is false. -/
def orRule : EdifyRule ι W :=
  strArg ignore 0 fun left => if left ≠ [] then .make left else lastArg 1

def notRule : EdifyRule ι W := strArg ignore 0 fun val => .make (boolText (val = []))

def relationRule (holds : Text → Text → Bool) (next : Text → EdifyRule ι W) : EdifyRule ι W :=
  strArg ignore 0 fun left => strArg ignore 1 fun right => next (boolText (holds left right))

/-- Both are evaluated, and the value is that of the right one. -/
def sequenceRule : EdifyRule ι W := .arg 0 (fun _ => lastArg 1) ignore

def notInt (text : Text) : EdifyRule ι W :=
  failWith fun st => { st with errmsg := "failed to parse int in ".toList ++ text }

/-- Two strings that have to be numbers are compared. -/
def comparedInts (holds : Int → Int → Bool) (left right : Text) : EdifyRule ι W :=
  match parseInt64 (cstr left), parseInt64 (cstr right) with
  | none, _ => notInt left
  | some _, none => notInt right
  | some l, some r => .make (boolText (holds l r))

def compareIntRule (name : Text) (holds : Int → Int → Bool) (argc : Nat) : EdifyRule ι W :=
  if argc = 2 then strArg ignore 0 fun left => strArg ignore 1 fun right =>
  comparedInts holds left right
  else failWith fun st => { st with errmsg := name ++ " expects 2 arguments".toList }

/-- `len` arguments that have to be strings. -/
def strArgs (onError : Failure → Sys W → Sys W) : (i len : Nat) → (List Text → EdifyRule ι W) →
    EdifyRule ι W
  | _, 0, next => next []
  | i, len + 1, next =>
    strArg onError i fun var => strArgs onError (i + 1) len fun vars => next (var :: vars)

/-- `len` arguments. -/
def valueArgs (onError : Failure → Sys W → Sys W) : (i len : Nat) → (List Value → EdifyRule ι W) →
    EdifyRule ι W
  | _, 0, next => next []
  | i, len + 1, next =>
    .arg i (fun v => valueArgs onError (i + 1) len fun vs => next (v :: vs)) onError

/-- The arguments that a registered function reads, one after the other. -/
def allArgs (onError : Failure → Sys W → Sys W) (argc start : Nat) :
    List (Reader × Nat) → (List Value → EdifyRule ι W) → EdifyRule ι W
  | [], next => next []
  | (.strings, len) :: rest, next =>
    if start + len > argc then .fail fun sys => (.null, onError .null sys)
    else strArgs onError start len fun args =>
      allArgs onError argc (start + len) rest fun more =>
        next (args.map (fun arg => ⟨.string, arg⟩) ++ more)
  | (.values, len) :: rest, next =>
    if len = 0 ∨ start + len > argc then .fail fun sys => (.null, onError .null sys)
    else valueArgs onError start len fun args =>
      allArgs onError argc (start + len) rest fun more => next (args ++ more)

def Registered.unreadOn (f : Registered W) (err : Failure) (sys : Sys W) : Sys W :=
  if err = .null then f.unread sys else sys

/-- A registered function is called with the values of its arguments, if all of them have one. -/
def registeredRule (key : ι) (f : Registered W) (argc : Nat) : EdifyRule ι W :=
  .step (fun sys => match f.refuse sys with
    | some sys => (some .null, sys)
    | none => (none, sys)) <|
  allArgs f.unreadOn argc 0 f.reads fun args =>
  .call (key, args) fun sys => (ofOption (f.run args sys).1, (f.run args sys).2)

variable (lib : ι → (name : Text) → (argc : Nat) → Registered W)

/-- The rule of a node, from the node and its arguments. -/
def rule (n : Node ι) (args : List (Node ι)) : EdifyRule ι W :=
  match n.fn with
  | .literal => .make n.name
  | .concat => concatRule 0 args.length []
  | .ifElse => ifElseRule args.length
  | .abort => abortRule args.length
  | .assert => assertRule 0 args
  | .sleep => sleepRule args.length
  | .stdout => stdoutRule 0 args.length
  | .logicalAnd => andRule
  | .logicalOr => orRule
  | .logicalNot => notRule
  | .substring =>
    relationRule (fun needle haystack => needle <:+: haystack) fun text =>
      if args.length = 2 then .make text else .stuck
  | .equality => relationRule (fun left right => left = right) .make
  | .inequality => relationRule (fun left right => left ≠ right) .make
  | .sequence => sequenceRule
  | .lessThanInt => compareIntRule "less_than_int".toList (fun l r => l < r) args.length
  | .greaterThanInt => compareIntRule "greater_than_int".toList (fun l r => l > r) args.length
  | .registered f => registeredRule f (lib f (cstr n.name) args.length) args.length

/-- A string value, with what `cut` leaves of the string. -/
def stringOf (cut : Text → Text) (t : Text) : Value := ⟨.string, cut t⟩

/-! ## The evaluator refines the rules -/

/-- A call that returned neither reads an argument that is not there nor yields a value if the
number of arguments is wrong. -/
def Safe : Entry ι → Prop
  | .returned _ n argc result =>
    result ≠ .error .outOfBounds ∧ (n.fn.accepts argc ∨ ∀ v, result ≠ .ok v)
  | _ => True

/-- The code of a function goes wrong where no rule says how to go on: `misuse` says that the number
of arguments is wrong. -/
def Bad (misuse : Prop) (o : Outcome (Sys W) Failure (Entry ι) Value) : Prop :=
  o.result = .error .outOfBounds ∨ (∃ ev ∈ o.log, ¬Safe ev) ∨ (misuse ∧ ∃ v, o.result = .ok v)

/-- The code of a function follows a rule, as far as the rule goes. -/
def Refines (misuse : Prop) (path : List Nat) (args : List (Expr ι)) (m : EvalM ι W Value)
    (r : EdifyRule ι W) : Prop :=
  ∀ sys, (∀ o, Runs (rule lib) (stringOf cstr) path args r sys o → m sys = o) ∧
    ((∀ o, ¬Runs (rule lib) (stringOf cstr) path args r sys o) → Bad misuse (m sys))

/-- The evaluation of an expression follows its rule, as far as the rule goes. -/
def Follows (path : List Nat) (e : Expr ι) : Prop :=
  ∀ sys, (∀ o, Runs (rule lib) (stringOf cstr) path e.args (ruleOf (rule lib) e) sys o →
      eval lib path e sys = o.finish path e.label e.args.length) ∧
    ((∀ o, ¬Runs (rule lib) (stringOf cstr) path e.args (ruleOf (rule lib) e) sys o) →
      ∃ ev ∈ (eval lib path e sys).log, ¬Safe ev)

/-- Code that reads arguments, and rules that go on with them: whatever follows, and whatever is
done if an argument fails. -/
def Reads (misuse : Prop) (path : List Nat) (args : List (Expr ι)) {α : Type} (m : EvalM ι W α)
    (r : (Failure → Sys W → Sys W) → (α → EdifyRule ι W) → EdifyRule ι W) : Prop :=
  ∀ onError k next, (∀ a, Refines lib misuse path args (k a) (next a)) →
    Refines lib misuse path args (Traced.onError onError m >>= k) (r onError next)

theorem getElem?_evalArgs (path : List Nat) (k : Nat) (args : List (Expr ι)) (i : Nat) :
    (evalArgs lib path k args)[i]? =
      args[i]?.map fun e => ⟨eval lib (path ++ [k + i]) e, e.label.start, e.label.stop⟩ := by
  induction args generalizing k i with
  | nil => simp [evalArgs]
  | cons e es ih =>
    cases i with
    | zero => simp [evalArgs]
    | succ i => simp [evalArgs, ih, Nat.add_assoc, Nat.add_comm 1]

variable {lib} {misuse : Prop} {path : List Nat} {args : List (Expr ι)} {m : EvalM ι W Value}

/-! ### How a function is put together, and how its rule -/

theorem refines_yield (v : Value) : Refines lib misuse path args (pure v) (.yield v) := by
  refine fun sys => ⟨fun o h => ?_, fun h => (h _ .yield).elim⟩
  cases h
  rfl

theorem refines_make (t : Text) : Refines lib misuse path args (stringValue t) (.make t) := by
  refine fun sys => ⟨fun o h => ?_, fun h => (h _ .make).elim⟩
  cases h
  rfl

theorem refines_fail {effect : Sys W → Failure × Sys W}
    (h : ∀ sys, m sys = ⟨.error (effect sys).1, (effect sys).2, []⟩) :
    Refines lib misuse path args m (.fail effect) := by
  refine fun sys => ⟨fun o hrun => ?_, fun hno => (hno _ .fail).elim⟩
  cases hrun
  exact h sys

theorem refines_stuck (h : ∀ sys, Bad misuse (m sys)) : Refines lib misuse path args m .stuck :=
  fun sys => ⟨fun _ hrun => (nomatch hrun), fun _ => h sys⟩

theorem refines_step {u : EvalM ι W Unit} {k : Unit → EvalM ι W Value}
    {effect : Sys W → Option Failure × Sys W}
    {next : EdifyRule ι W} (hu : ∀ sys, u sys = match effect sys with
      | (none, sys) => ⟨.ok (), sys, []⟩
      | (some err, sys) => ⟨.error err, sys, []⟩)
    (hk : Refines lib misuse path args (k ()) next) :
    Refines lib misuse path args (u >>= k) (.step effect next) := by
  intro sys
  have hbind : (u >>= k) sys = match effect sys with
      | (none, sys) => k () sys
      | (some err, sys) => ⟨.error err, sys, []⟩ := by
    show Traced.bind u k sys = _
    rw [Traced.bind, hu]
    rcases effect sys with ⟨_ | err, sys'⟩ <;> rfl
  rw [hbind]
  rcases he : effect sys with ⟨_ | err, sys'⟩
  · refine ⟨fun o hrun => ?_, fun hno => (hk sys').2 fun o hrun => hno o (.step he hrun)⟩
    cases hrun with
    | step he' hrun =>
      cases he.symm.trans he'
      exact (hk sys').1 o hrun
    | stepError he' => cases he.symm.trans he'
  · refine ⟨fun o hrun => ?_, fun hno => (hno _ (.stepError he)).elim⟩
    cases hrun with
    | step he' => cases he.symm.trans he'
    | stepError he' =>
      cases he.symm.trans he'
      rfl

theorem refines_call {key : ι × List Value} {body : Sys W → Except Failure Value × Sys W} :
    Refines lib misuse path args (fun sys => ⟨(body sys).1, (body sys).2, [.called path key]⟩)
    (.call key body) := by
  refine fun sys => ⟨fun o hrun => ?_, fun hno => (hno _ .call).elim⟩
  cases hrun
  rfl

theorem Bad.prepend {o : Outcome (Sys W) Failure (Entry ι) Value} (h : Bad misuse o)
    (l : List (Entry ι)) : Bad misuse ⟨o.result, o.state, l ++ o.log⟩ := by
  obtain h | ⟨ev, hev, h⟩ | h := h
  · exact .inl h
  · exact .inr (.inl ⟨ev, List.mem_append_right _ hev, h⟩)
  · exact .inr (.inr h)

theorem reads_evaluateValue (hargs : ∀ e ∈ args, ∀ path, Follows lib path e) (i : Nat) :
    Reads lib misuse path args (evaluateValue (evalArgs lib path 0 args) i)
      fun onError next => .arg i next onError := by
  intro onError k next hk sys
  have hget := getElem?_evalArgs lib path 0 args i
  cases he : args[i]? with
  | none =>
    rw [he] at hget
    have hm : evaluateValue (evalArgs lib path 0 args) i sys = ⟨.error .outOfBounds, sys, []⟩ := by
      rw [evaluateValue, hget]
      rfl
    refine ⟨fun o hrun => ?_, fun _ => ?_⟩
    · cases hrun with
      | arg ha | argError ha => cases he.symm.trans ha
    · rw [Traced.onError_bind_error hm]
      exact .inl rfl
  | some e =>
    rw [he, Nat.zero_add] at hget
    have hm : evaluateValue (evalArgs lib path 0 args) i sys = eval lib (path ++ [i]) e sys := by
      rw [evaluateValue, hget]
      rfl
    obtain ⟨hruns, hnot⟩ := hargs e (List.mem_of_getElem? he) (path ++ [i]) sys
    constructor
    · intro o hrun
      cases hrun with
      | arg ha h₁ h₂ =>
        cases he.symm.trans ha
        rw [Traced.onError_bind_ok (hm.trans (hruns _ h₁)), (hk _ _).1 _ h₂, List.append_assoc]
        rfl
      | argError ha h₁ =>
        cases he.symm.trans ha
        rw [Traced.onError_bind_error (hm.trans (hruns _ h₁))]
    · intro hno
      by_cases hchild : ∃ o,
        Runs (rule lib) (stringOf cstr) (path ++ [i]) e.args (ruleOf (rule lib) e) sys o
      · obtain ⟨⟨err | v, s', l⟩, h₁⟩ := hchild
        · exact (hno _ (.argError he h₁)).elim
        · rw [Traced.onError_bind_ok (hm.trans (hruns _ h₁))]
          exact ((hk v s').2 fun o h₂ => hno _ (.arg he h₁ h₂)).prepend _
      · obtain ⟨ev, hev, hsafe⟩ := hnot fun o h₁ => hchild ⟨o, h₁⟩
        exact .inr (.inl ⟨ev, Traced.log_onError_bind _ _ _ _ (hm ▸ hev), hsafe⟩)

theorem Reads.refines {α : Type} {m : EvalM ι W α} {r} (h : Reads lib misuse path args m r)
    {k : α → EvalM ι W Value} {next : α → EdifyRule ι W}
    (hk : ∀ a, Refines lib misuse path args (k a) (next a)) :
    Refines lib misuse path args (m >>= k) (r ignore next) := by
  have := h ignore k next hk
  rwa [show (ignore : Failure → Sys W → Sys W) = fun _ => id from rfl, Traced.onError_id] at this

theorem refines_lastArg (hargs : ∀ e ∈ args, ∀ path, Follows lib path e) (i : Nat) :
    Refines lib misuse path args (evaluateValue (evalArgs lib path 0 args) i) (lastArg i) := by
  have hread : Reads lib misuse path args _ _ := reads_evaluateValue hargs i
  have := hread.refines fun v => refines_yield v
  rwa [Traced.bind_pure] at this

theorem reads_evaluate (hargs : ∀ e ∈ args, ∀ path, Follows lib path e) (i : Nat) :
    Reads lib misuse path args (evaluate (evalArgs lib path 0 args) i) fun onError =>
    strArg onError i := by
  intro onError k next hk
  rw [evaluate, Traced.onError_bind, Traced.bind_assoc]
  refine reads_evaluateValue hargs i onError _ _ fun v => ?_
  by_cases hv : v.type = .string
  · rw [if_pos hv, if_pos hv]
    exact hk v.data
  · rw [if_neg hv, if_neg hv]
    exact refines_fail fun sys => rfl

theorem reads_readStrings (hargs : ∀ e ∈ args, ∀ path, Follows lib path e) (i len : Nat) :
    Reads lib misuse path args (readStrings (evalArgs lib path 0 args) i len)
      fun onError => strArgs onError i len := by
  induction len generalizing i with
  | zero => exact fun onError k next hk => hk []
  | succ len ih =>
    intro onError k next hk
    rw [readStrings, Traced.onError_bind, Traced.bind_assoc]
    refine reads_evaluate hargs i onError _ _ fun var => ?_
    rw [Traced.onError_bind, Traced.bind_assoc]
    exact ih (i + 1) onError _ _ fun vars => hk (var :: vars)

theorem reads_readValues (hargs : ∀ e ∈ args, ∀ path, Follows lib path e) (i len : Nat) :
    Reads lib misuse path args (readValues (evalArgs lib path 0 args) i len)
      fun onError => valueArgs onError i len := by
  induction len generalizing i with
  | zero => exact fun onError k next hk => hk []
  | succ len ih =>
    intro onError k next hk
    rw [readValues, Traced.onError_bind, Traced.bind_assoc]
    refine reads_evaluateValue hargs i onError _ _ fun v => ?_
    rw [Traced.onError_bind, Traced.bind_assoc]
    exact ih (i + 1) onError _ _ fun vs => hk (v :: vs)

end

end BootableRecovery.Edify
