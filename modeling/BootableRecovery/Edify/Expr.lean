import BootableRecovery.BootloaderMessage.Message
import BootableRecovery.Theory.EvalRules

/-!
# The evaluator of update scripts

`edify/expr.cpp`: the functions behind the nodes of an expression, which evaluate their arguments
themselves, and the functions that the updater registers. The log is not in the code: it notes the
strings that were made, the calls of registered functions, and what each node returned.
-/

namespace BootableRecovery.Edify

open EvalRules

inductive ValueType
  | invalid | string | blob
  deriving DecidableEq

/-- The numbers of the types. -/
def ValueType.code : ValueType → Int
  | invalid => -1
  | string => 1
  | blob => 2

structure Value where
  type : ValueType
  data : Text
  deriving DecidableEq

/-- `State`, without the cookie, which is for the registered functions. -/
structure State where
  script : Text
  errmsg : Text
  errorCode : Int
  causeCode : Int
  isRetry : Bool
  deriving DecidableEq

/-- `kArgsParsingFailure` of `CauseCode`. -/
def kArgsParsingFailure : Int := 100

/-- What the evaluator works on: the state, what went to standard output, how long it slept, and all
else, which only registered functions use. -/
structure Sys (W : Type) where
  state : State
  stdout : Text
  slept : List Int
  world : W
  deriving DecidableEq

/-- How an evaluation ends without a value: with a null pointer, with an access to an argument list
outside its length, or with the exception `std::out_of_range`. -/
inductive Failure
  | null | outOfBounds | outOfRange
  deriving DecidableEq

/-- The functions behind the nodes: those of this file, and those that were registered besides. -/
inductive Function (ι : Type)
  | literal | concat | ifElse | abort | assert | sleep | stdout
  | logicalAnd | logicalOr | logicalNot | substring | equality | inequality | sequence
  | lessThanInt | greaterThanInt
  | registered (f : ι)
  deriving DecidableEq

/-- `Expr` without its arguments. -/
structure Node (ι : Type) where
  fn : Function ι
  name : Text
  start : Int
  stop : Int
  deriving DecidableEq

abbrev Expr (ι : Type) := EvalRules.Tree (Node ι)

abbrev Entry (ι : Type) := Event (Node ι) Failure Value Text (ι × List Value)

abbrev EvalM (ι W : Type) := Traced (Sys W) Failure (Entry ι)

/-- An element of `argv`: what its function does, and where it is in the script. -/
structure Arg (ι W : Type) where
  run : EvalM ι W Value
  start : Int
  stop : Int

section

variable {ι W α : Type}

/-- `return nullptr`. -/
def null : EvalM ι W α := .raise .null

def modifyState (f : State → State) : EvalM ι W Unit :=
  .modify fun s => { s with state := f s.state }

def setErrmsg (msg : Text) : EvalM ι W Unit := modifyState fun st => { st with errmsg := msg }

def appendErrmsg (msg : Text) : EvalM ι W Unit :=
  modifyState fun st => { st with errmsg := st.errmsg ++ msg }

/-- `ErrorAbort` with a cause. -/
def errorAbort (causeCode : Int) (msg : Text) : EvalM ι W α := do
  modifyState fun st => { st with errmsg := trim msg ++ ['\n'], causeCode := causeCode }
  null

/-- `StringValue`, of what `c_str()` shows of the string. -/
def stringValue (str : Text) : EvalM ι W Value := do
  .note (.made str)
  pure ⟨.string, cstr str⟩

def booleanString (s : Text) : Bool := !s.isEmpty

def boolText (b : Bool) : Text := if b then ['t'] else []

/-- `std::string::substr` at positions that are `int`; `none` is the exception. -/
def substr (s : Text) (start len : Int) : Option Text :=
  if start < 0 ∨ s.length < start then none
  else some (if len < 0 then s.drop start.toNat else (s.drop start.toNat).take len.toNat)

/-! ## Arguments -/

variable (argv : List (Arg ι W))

/-- `EvaluateValue` of `argv[i]`. -/
def evaluateValue (i : Nat) : EvalM ι W Value :=
  match argv[i]? with
  | none => .raise .outOfBounds
  | some arg => arg.run

/-- The message of `Evaluate` for a value that is no string. -/
def expectingString (type : ValueType) : Text :=
  "expecting string, got value type ".toList ++ toText type.code

/-- `Evaluate` of `argv[i]`. -/
def evaluate (i : Nat) : EvalM ι W Text := do
  let v ← evaluateValue argv i
  if v.type = .string then pure v.data else errorAbort kArgsParsingFailure (expectingString v.type)

/-- The loop of `ReadArgs`. -/
def readStrings : (i len : Nat) → EvalM ι W (List Text)
  | _, 0 => pure []
  | i, len + 1 => do
    let var ← evaluate argv i
    let vars ← readStrings (i + 1) len
    pure (var :: vars)

/-- `ReadArgs`. All callers fail if it fails. -/
def readArgs (start len : Nat) : EvalM ι W (List Text) :=
  if start + len > argv.length then null else readStrings argv start len

/-- The loop of `ReadValueArgs`. -/
def readValues : (i len : Nat) → EvalM ι W (List Value)
  | _, 0 => pure []
  | i, len + 1 => do
    let v ← evaluateValue argv i
    let vs ← readValues (i + 1) len
    pure (v :: vs)

def readValueArgs (start len : Nat) : EvalM ι W (List Value) :=
  if len = 0 ∨ start + len > argv.length then null else readValues argv start len

/-! ## The functions -/

/-- `Literal`, which is passed what `c_str()` shows of the name. -/
def literal (name : Text) : EvalM ι W Value := stringValue name

/-- The loop of `ConcatFn`. -/
def concatFrom (i : Nat) : Nat → Text → EvalM ι W Value
  | 0, result => stringValue result
  | n + 1, result => do
    let str ← evaluate argv i
    concatFrom (i + 1) n (result ++ str)

def concatFn : EvalM ι W Value :=
  if argv.isEmpty then stringValue [] else concatFrom argv 0 argv.length []

def ifElseFn : EvalM ι W Value :=
  if argv.length ≠ 2 ∧ argv.length ≠ 3 then do
    setErrmsg "ifelse expects 2 or 3 arguments".toList
    null
  else do
    let cond ← evaluate argv 0
    if !cond.isEmpty then evaluateValue argv 1
    else if argv.length = 3 then evaluateValue argv 2
    else stringValue []

/-- `AbortFn`. It fails the same whether its argument fails or not, with another message. -/
def abortFn : EvalM ι W Value :=
  if argv.isEmpty then do
    appendErrmsg "called abort()".toList
    null
  else do
    let msg ← Traced.onError (fun err sys =>
      if err = .null
        then { sys with
          state := { sys.state with errmsg := sys.state.errmsg ++ "called abort()".toList } }
      else sys) (evaluate argv 0)
    appendErrmsg msg
    null

/-- The failure of an assertion: its message quotes the script. -/
def assertFailed (start stop : Int) : EvalM ι W Value := fun sys =>
  match substr sys.state.script start (stop - start) with
  | none => ⟨.error .outOfRange, sys, []⟩
  | some text =>
    ⟨.error .null,
      { sys with state := { sys.state with errmsg := "assert failed: ".toList ++ text } }, []⟩

/-- The loop of `AssertFn`. -/
def assertFrom (i : Nat) : List (Arg ι W) → EvalM ι W Value
  | [] => stringValue []
  | arg :: rest => do
    let result ← evaluate argv i
    if result.isEmpty then assertFailed arg.start arg.stop else assertFrom (i + 1) rest

def assertFn : EvalM ι W Value := assertFrom argv 0 argv

def sleepFn : EvalM ι W Value := do
  let val ← evaluate argv 0
  match (parseInt (cstr val)).filter (0 ≤ ·) with
  | none => null
  | some v =>
    .modify fun sys => { sys with slept := sys.slept ++ [v] }
    stringValue val

/-- The loop of `StdoutFn`. -/
def stdoutFrom (i : Nat) : Nat → EvalM ι W Value
  | 0 => stringValue []
  | n + 1 => do
    let v ← evaluate argv i
    .modify fun sys => { sys with stdout := sys.stdout ++ cstr v }
    stdoutFrom (i + 1) n

def stdoutFn : EvalM ι W Value := stdoutFrom argv 0 argv.length

def logicalAndFn : EvalM ι W Value := do
  let left ← evaluate argv 0
  if booleanString left then evaluateValue argv 1 else stringValue []

def logicalOrFn : EvalM ι W Value := do
  let left ← evaluate argv 0
  if !booleanString left then evaluateValue argv 1 else stringValue left

def logicalNotFn : EvalM ι W Value := do
  let val ← evaluate argv 0
  stringValue (if booleanString val then [] else ['t'])

/-- A function of two strings that yields a truth value. -/
def relationFn (holds : Text → Text → Bool) : EvalM ι W Value := do
  let left ← evaluate argv 0
  let right ← evaluate argv 1
  stringValue (boolText (holds left right))

def substringFn : EvalM ι W Value := relationFn argv fun needle haystack => needle <:+: haystack

def equalityFn : EvalM ι W Value := relationFn argv fun left right => left = right

def inequalityFn : EvalM ι W Value := relationFn argv fun left right => left ≠ right

def sequenceFn : EvalM ι W Value := do
  let _ ← evaluateValue argv 0
  evaluateValue argv 1

/-- A comparison of two numbers. -/
def compareIntFn (name : Text) (holds : Int → Int → Bool) : EvalM ι W Value :=
  if argv.length ≠ 2 then do
    setErrmsg (name ++ " expects 2 arguments".toList)
    null
  else do
    let args ← readArgs argv 0 argv.length
    match parseInt64 (cstr (args.getD 0 [])) with
    | none => do
      setErrmsg ("failed to parse int in ".toList ++ args.getD 0 [])
      null
    | some l =>
      match parseInt64 (cstr (args.getD 1 [])) with
      | none => do
        setErrmsg ("failed to parse int in ".toList ++ args.getD 1 [])
        null
      | some r => stringValue (boolText (holds l r))

def lessThanIntFn : EvalM ι W Value := compareIntFn argv "less_than_int".toList fun l r => l < r

def greaterThanIntFn : EvalM ι W Value :=
  compareIntFn argv "greater_than_int".toList fun l r => l > r

end

/-! ## Registered functions -/

/-- How a function reads some of its arguments. -/
inductive Reader
  | strings | values
  deriving DecidableEq

/-- A function that was registered, for a name and a number of arguments: it may refuse to be called
so, it reads its arguments from the first one on with `ReadArgs` and `ReadValueArgs`, it does
something if that fails, and else what it is for. -/
structure Registered (W : Type) where
  refuse : Sys W → Option (Sys W)
  reads : List (Reader × Nat)
  unread : Sys W → Sys W
  run : List Value → Sys W → Option Value × Sys W

section

variable {ι W : Type}

/-- The arguments that a registered function reads. -/
def readAll (argv : List (Arg ι W)) (start : Nat) : List (Reader × Nat) → EvalM ι W (List Value)
  | [] => pure []
  | (.strings, len) :: rest => do
    let args ← readArgs argv start len
    let more ← readAll argv (start + len) rest
    pure (args.map (fun arg => ⟨.string, arg⟩) ++ more)
  | (.values, len) :: rest => do
    let args ← readValueArgs argv start len
    let more ← readAll argv (start + len) rest
    pure (args ++ more)

/-- The state of a registered function that was not run. -/
def Registered.refused (f : Registered W) : EvalM ι W Unit := fun sys =>
  match f.refuse sys with
  | some sys => ⟨.error .null, sys, []⟩
  | none => ⟨.ok (), sys, []⟩

/-- A result that may be a null pointer. -/
def ofOption {α : Type} : Option α → Except Failure α
  | none => .error .null
  | some v => .ok v

/-- The call of a registered function. -/
def registeredFn (path : List Nat) (key : ι) (f : Registered W) (argv : List (Arg ι W)) :
    EvalM ι W Value := do
  f.refused
  let args ← Traced.onError (fun err sys => if err = .null then f.unread sys
    else sys) (readAll argv 0 f.reads)
  fun sys => ⟨ofOption (f.run args sys).1, (f.run args sys).2, [.called path (key, args)]⟩

variable (lib : ι → (name : Text) → (argc : Nat) → Registered W)

/-- `expr->fn(expr->name.c_str(), state, expr->argv)`. -/
def Node.call (path : List Nat) (n : Node ι) (argv : List (Arg ι W)) : EvalM ι W Value :=
  match n.fn with
  | .literal => literal n.name
  | .concat => concatFn argv
  | .ifElse => ifElseFn argv
  | .abort => abortFn argv
  | .assert => assertFn argv
  | .sleep => sleepFn argv
  | .stdout => stdoutFn argv
  | .logicalAnd => logicalAndFn argv
  | .logicalOr => logicalOrFn argv
  | .logicalNot => logicalNotFn argv
  | .substring => substringFn argv
  | .equality => equalityFn argv
  | .inequality => inequalityFn argv
  | .sequence => sequenceFn argv
  | .lessThanInt => lessThanIntFn argv
  | .greaterThanInt => greaterThanIntFn argv
  | .registered f => registeredFn path f (lib f (cstr n.name) argv.length) argv

mutual

/-- The evaluation of the expression at `path`. -/
def eval (path : List Nat) : Expr ι → EvalM ι W Value
  | .node n args =>
    fun sys => (n.call lib path (evalArgs path 0 args) sys).finish path n args.length

def evalArgs (path : List Nat) (i : Nat) : List (Expr ι) → List (Arg ι W)
  | [] => []
  | e :: es => ⟨eval (path ++ [i]) e, e.label.start, e.label.stop⟩ :: evalArgs path (i + 1) es

end

end

end BootableRecovery.Edify
