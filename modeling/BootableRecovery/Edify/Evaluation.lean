import BootableRecovery.Edify.Refinement

/-!
# The evaluation of scripts

An expression whose operators have their arguments is evaluated as the rules say: from left to
right, each node at most once and only where its value is needed, and a failure ends it. The value
is the one the rules give as long as no string that is made on the way holds a NUL
(`eval_means_iff`): `StringValue` keeps what stands in front of the first one, also of the value of
the left side of `||`.
-/

namespace BootableRecovery.Edify

open EvalRules

variable {ι W : Type}

/-- The numbers of arguments with which the rules say what a function does: those of an operator are
fixed, and `sleep` and `is_substring` do not check theirs. -/
def Function.fits : Function ι → Nat → Bool
  | .logicalAnd, argc | .logicalOr, argc | .equality, argc | .inequality, argc | .sequence, argc =>
    argc = 2
  | .logicalNot, argc => argc = 1
  | .substring, argc => argc = 2
  | .sleep, argc => argc = 1
  | _, _ => true

/-- An expression each of whose functions has the arguments that it needs. -/
def WellFormed (e : Expr ι) : Prop := e.All fun n args => n.fn.fits args.length

variable (lib : ι → (name : Text) → (argc : Nat) → Registered W)

/-! ## The rules take the arguments in their order -/

/-- The failures other than an access outside of an argument list. -/
def InBounds (err : Failure) : Prop := err ≠ .outOfBounds

theorem inBounds_null : InBounds .null := nofun

theorem inBounds_outOfRange : InBounds .outOfRange := nofun

section

variable {stick : Prop} {argc k : Nat}

theorem proper_strArg {onError : Failure → Sys W → Sys W} {i : Nat} {next : Text → EdifyRule ι W}
    (hk : k ≤ i) (hi : i < argc) (h : ∀ t, (next t).Proper stick InBounds argc (i + 1)) :
    (strArg onError i next).Proper stick InBounds argc k := by
  refine ⟨hk, hi, fun v => ?_⟩
  by_cases hv : v.type = .string
  · simpa [hv] using h v.data
  · simp [hv, Rule.Proper, InBounds]

theorem proper_lastArg {i : Nat} (hk : k ≤ i) (hi : i < argc) :
    (lastArg i : EdifyRule ι W).Proper stick InBounds argc k :=
  ⟨hk, hi, fun _ => trivial⟩

theorem proper_concatRule (i n : Nat) (result : Text) (h : i + n ≤ argc) :
    (concatRule i n result : EdifyRule ι W).Proper stick InBounds argc i := by
  induction n generalizing i result with
  | zero => trivial
  | succ n ih => exact proper_strArg le_rfl (by omega) fun str => ih (i + 1) _ (by omega)

theorem proper_failWith (f : State → State) :
    (failWith f : EdifyRule ι W).Proper stick InBounds argc k :=
  fun _ => inBounds_null

theorem proper_ifElseRule {n : Nat} (h : n ≤ argc) :
    (ifElseRule n : EdifyRule ι W).Proper stick InBounds argc 0 := by
  unfold ifElseRule
  split
  · refine proper_strArg le_rfl (by omega) fun cond => ?_
    split
    · exact proper_lastArg le_rfl (by omega)
    · split
      · exact proper_lastArg (by omega) (by omega)
      · trivial
  · exact proper_failWith _

theorem proper_assertRule (i : Nat) (args : List (Node ι)) (h : i + args.length ≤ argc) :
    (assertRule i args : EdifyRule ι W).Proper stick InBounds argc i := by
  induction args generalizing i with
  | nil => trivial
  | cons n rest ih =>
    rw [List.length_cons] at h
    refine proper_strArg le_rfl (by omega) fun result => ?_
    split
    · exact ih (i + 1) (by omega)
    · intro sys
      dsimp only [assertMessage]
      cases substr sys.state.script n.start (n.stop - n.start)
      · exact inBounds_outOfRange
      · exact inBounds_null

theorem proper_stdoutRule (i n : Nat) (h : i + n ≤ argc) :
    (stdoutRule i n : EdifyRule ι W).Proper stick InBounds argc i := by
  induction n generalizing i with
  | zero => trivial
  | succ n ih => exact proper_strArg le_rfl (by omega) fun v => ⟨nofun, ih (i + 1) (by omega)⟩

theorem proper_strArgs {onError : Failure → Sys W → Sys W} (i len : Nat)
    {next : List Text → EdifyRule ι W}
    (h : i + len ≤ argc) (hnext : ∀ vars, (next vars).Proper stick InBounds argc (i + len)) :
    (strArgs onError i len next).Proper stick InBounds argc i := by
  induction len generalizing i next with
  | zero => exact hnext []
  | succ len ih =>
    refine proper_strArg le_rfl (by omega) fun var => ih (i + 1) (by omega) fun vars => ?_
    have := hnext (var :: vars)
    rwa [Nat.add_succ, ← Nat.succ_add] at this

theorem proper_valueArgs {onError : Failure → Sys W → Sys W} (i len : Nat)
    {next : List Value → EdifyRule ι W}
    (h : i + len ≤ argc) (hnext : ∀ vs, (next vs).Proper stick InBounds argc (i + len)) :
    (valueArgs onError i len next).Proper stick InBounds argc i := by
  induction len generalizing i next with
  | zero => exact hnext []
  | succ len ih =>
    refine ⟨le_rfl, by omega, fun v => ih (i + 1) (by omega) fun vs => ?_⟩
    have := hnext (v :: vs)
    rwa [Nat.add_succ, ← Nat.succ_add] at this

theorem proper_allArgs {onError : Failure → Sys W → Sys W} {n : Nat} (hn : n ≤ argc) (start : Nat)
    (reads : List (Reader × Nat)) {next : List Value → EdifyRule ι W}
    (hnext : ∀ vs k, (next vs).Proper stick InBounds argc k) :
    (allArgs onError n start reads next).Proper stick InBounds argc start := by
  induction reads generalizing start next with
  | nil => exact hnext [] start
  | cons chunk rest ih =>
    obtain ⟨reader, len⟩ := chunk
    cases reader <;> unfold allArgs <;> split
    · exact fun _ => inBounds_null
    · exact proper_strArgs start len (by omega) fun vars => ih (start + len) fun more k => hnext _ k
    · exact fun _ => inBounds_null
    · exact proper_valueArgs start len (by omega) fun vs => ih (start + len) fun more k => hnext _ k

theorem proper_relationRule {holds : Text → Text → Bool} {next : Text → EdifyRule ι W}
    (h : 2 ≤ argc) (hnext : ∀ t, (next t).Proper stick InBounds argc 2) :
    (relationRule holds next).Proper stick InBounds argc 0 :=
  proper_strArg le_rfl (by omega) fun _ => proper_strArg le_rfl (by omega) fun _ => hnext _

theorem proper_compareIntRule {n : Nat} (h : n ≤ argc) (name : Text) (holds : Int → Int → Bool) :
    (compareIntRule name holds n : EdifyRule ι W).Proper stick InBounds argc 0 := by
  unfold compareIntRule
  split
  · refine proper_strArg le_rfl (by omega) fun left =>
      proper_strArg le_rfl (by omega) fun right => ?_
    unfold comparedInts
    cases parseInt64 (cstr left) <;> cases parseInt64 (cstr right)
    case some.some => trivial
    all_goals exact proper_failWith _
  · exact proper_failWith _

end

variable (lib : ι → (name : Text) → (argc : Nat) → Registered W)

/-- The rule of a node, whose arguments are those that it needs, or with some more and where it may
be stuck. -/
theorem proper_rule_of {stick : Prop} {n : Node ι} {args : List (Node ι)} {argc : Nat}
    (h : (n.fn.fits args.length ∧ argc = args.length) ∨ (stick ∧ argc = args.length + 2)) :
    (rule lib n args).Proper stick InBounds argc 0 := by
  have hle : args.length ≤ argc := by omega
  have hfits {k : Nat} (hk : k ≤ 2) (hf : n.fn.fits args.length → k = args.length) : k ≤ argc := by
    obtain ⟨hfit, rfl⟩ | ⟨-, rfl⟩ := h
    · exact (hf hfit).le
    · omega
  unfold rule
  cases hfn : n.fn with
  | literal => trivial
  | concat => exact proper_concatRule 0 _ _ (by omega)
  | ifElse => exact proper_ifElseRule hle
  | abort =>
    dsimp only [abortRule]
    split
    · exact proper_failWith _
    · exact proper_strArg le_rfl (by omega) fun msg => proper_failWith _
  | assert => exact proper_assertRule 0 args (by omega)
  | sleep =>
    have hlen : 1 ≤ argc :=
      hfits (by omega) fun hf => by simpa [hfn, Function.fits, eq_comm] using hf
    refine proper_strArg le_rfl hlen fun val => ?_
    cases (parseInt (cstr val)).filter (0 ≤ ·) with
    | none => exact proper_failWith _
    | some v =>
      dsimp only
      split
      · exact ⟨nofun, trivial⟩
      · rename_i hne
        exact h.elim (fun hf => absurd (by simpa [hfn, Function.fits] using hf.1) hne) And.left
  | stdout => exact proper_stdoutRule 0 _ (by omega)
  | logicalAnd | logicalOr =>
    have hlen : 2 ≤ argc :=
      hfits (by omega) fun hf => by simpa [hfn, Function.fits, eq_comm] using hf
    refine proper_strArg le_rfl (by omega) fun left => ?_
    split
    all_goals first | trivial | exact proper_lastArg (by omega) hlen
  | logicalNot =>
    have hlen : 1 ≤ argc :=
      hfits (by omega) fun hf => by simpa [hfn, Function.fits, eq_comm] using hf
    exact proper_strArg le_rfl hlen fun val => trivial
  | substring =>
    have hlen : 2 ≤ argc :=
      hfits (by omega) fun hf => by simpa [hfn, Function.fits, eq_comm] using hf
    refine proper_relationRule hlen fun t => ?_
    split
    · trivial
    · rename_i hne
      exact h.elim (fun hf => absurd (by simpa [hfn, Function.fits] using hf.1) hne) And.left
  | equality | inequality =>
    exact proper_relationRule (hfits (by omega) fun hf => by
      simpa [hfn, Function.fits, eq_comm] using hf)
      fun t => trivial
  | sequence =>
    have hlen : 2 ≤ argc :=
      hfits (by omega) fun hf => by simpa [hfn, Function.fits, eq_comm] using hf
    exact ⟨le_rfl, by omega, fun _ => proper_lastArg le_rfl hlen⟩
  | lessThanInt | greaterThanInt => exact proper_compareIntRule hle _ _
  | registered f =>
    refine ⟨fun sys err herr => ?_, proper_allArgs hle 0 _ fun vs k sys err herr => ?_⟩
    · dsimp only at herr
      cases hrefuse : (lib f (cstr n.name) args.length).refuse sys <;> rw [hrefuse]
        at herr <;> cases herr
      exact inBounds_null
    · dsimp only at herr
      cases hrun : ((lib f (cstr n.name) args.length).run vs sys).1 <;> rw [hrun]
        at herr <;> cases herr
      exact inBounds_null

theorem WellFormed.proper {e : Expr ι} (h : WellFormed e) : Proper (rule lib) InBounds e :=
  h.mono fun _ _ hn => proper_rule_of lib (.inl ⟨hn, rfl⟩)

/-! ## The value of an expression -/

/-- The meaning of a script as documented: strings are what they are. -/
abbrev DocMeans (e : Expr ι) (sys : Sys W) := Means (rule lib) (stringOf id) [] e sys

theorem cstr_eq_self_iff_not_mem {t : Text} : cstr t = t ↔ '\x00' ∉ t := by
  rw [cstr, List.takeWhile_eq_self_iff]
  refine ⟨fun h hmem => ?_, fun h c hc => ?_⟩
  · have := h _ hmem
    simp at this
  · have hne : c ≠ '\x00' := fun heq => h (heq ▸ hc)
    simpa using hne

/-- The evaluation of a well-formed expression is one by the rules, with the strings that
`StringValue` makes. -/
theorem means_eval {e : Expr ι} (h : WellFormed e) (sys : Sys W) :
    Means (rule lib) (stringOf cstr) [] e sys (eval lib [] e sys) := by
  obtain ⟨o, ho⟩ := (h.proper lib).exists_runs [] sys
  exact ⟨o, ho, (follows e [] sys).1 o ho⟩

theorem agree_iff {l : List (Entry ι)} :
    Agree (stringOf id) (stringOf cstr) l ↔ ∀ t, .made t ∈ l → '\x00' ∉ t := by
  refine forall₂_congr fun t _ => ?_
  rw [← cstr_eq_self_iff_not_mem, stringOf, stringOf, Value.mk.injEq, and_iff_right rfl, id]
  exact eq_comm

/-- A well-formed expression is evaluated in order, with the calls and the value that the
documentation says, if and only if no string is made with a NUL in it. -/
theorem eval_means_iff {e : Expr ι} (h : WellFormed e) (sys : Sys W) :
    (DocMeans lib e sys (eval lib [] e sys) ∧ Orderly (eval lib [] e sys)) ↔
      ∀ o, DocMeans lib e sys o → ∀ t, .made t ∈ o.log → '\x00' ∉ t := by
  have hcode := means_eval lib h sys
  obtain ⟨o', ho'⟩ : ∃ o, Runs (rule lib) (stringOf id) [] e.args (ruleOf (rule lib) e) sys o :=
    (h.proper lib).exists_runs [] sys
  have hdoc : DocMeans lib e sys (o'.finish [] e.label e.args.length) := ⟨o', ho', rfl⟩
  constructor
  · rintro ⟨heval, -⟩ o ho
    cases ho.deterministic heval
    exact agree_iff.mp ((heval.iff_agree hcode).mp rfl)
  · intro hnul
    have heq := (hdoc.iff_agree hcode).mpr (agree_iff.mpr (hnul _ hdoc))
    exact ⟨heq ▸ hdoc, hcode.orderly (h.proper lib)⟩

/-- A function that gives a string with a NUL in it. -/
def nulLib (_ : Unit) (_ : Text) (_ : Nat) : Registered Unit :=
  ⟨fun _ => none, [], id, fun _ sys => (some ⟨.string, ['a', '\x00', 'b']⟩, sys)⟩

/-- `f() || x`. -/
def nulOr : Expr Unit :=
  .node ⟨.logicalOr, "(operator)".toList, 0, 8⟩
    [.node ⟨.registered (), ['f'], 0, 3⟩ [], .node ⟨.literal, ['x'], 7, 8⟩ []]

def startSys : Sys Unit := ⟨⟨"f() || x".toList, [], -1, -1, false⟩, [], [], ()⟩

theorem wellFormed_nulOr : WellFormed nulOr :=
  .node rfl (by
    simp only [List.forall_mem_cons, List.not_mem_nil, false_imp_iff, implies_true, and_true]
    exact ⟨.node rfl (by simp), .node rfl (by simp)⟩)

/-- The value of the left side of `||` is not kept if it holds a NUL. -/
theorem not_eval_means :
    ¬∀ (lib : Unit → Text → Nat → Registered Unit) (e : Expr Unit), WellFormed e → ∀ sys : Sys Unit,
      DocMeans lib e sys (eval lib [] e sys) ∧ Orderly (eval lib [] e sys) := by
  intro h
  have hdoc := (h nulLib nulOr wellFormed_nulOr startSys).1
  have hagree := (hdoc.iff_agree (means_eval nulLib wellFormed_nulOr startSys)).mp rfl
  have hmem : .made ['a', '\x00', 'b'] ∈ (eval nulLib [] nulOr startSys).log := by
    rw [show (eval nulLib [] nulOr startSys).log = [.called [0] ((), []),
      .returned [0] ⟨.registered (), ['f'], 0, 3⟩ 0 (.ok ⟨.string, ['a', '\x00', 'b']⟩),
      .made ['a', '\x00', 'b'],
      .returned [] ⟨.logicalOr, "(operator)".toList, 0, 8⟩ 2 (.ok ⟨.string, ['a']⟩)] from rfl]
    simp
  exact absurd (hagree _ hmem) (by decide)

theorem eval_means_nulOr :
    (DocMeans nulLib nulOr startSys (eval nulLib [] nulOr startSys) ∧
      Orderly (eval nulLib [] nulOr startSys)) ↔ ∀ o, DocMeans nulLib nulOr startSys o →
      ∀ t, .made t ∈ o.log → '\x00' ∉ t :=
  eval_means_iff nulLib wellFormed_nulOr startSys

end BootableRecovery.Edify
