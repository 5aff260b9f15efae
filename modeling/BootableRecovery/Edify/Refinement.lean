import BootableRecovery.Edify.Meaning

/-!
# The evaluator follows the rules

One lemma for each function of `edify/expr.cpp`, and the evaluator from them (`follows`).
-/

namespace BootableRecovery.Edify

open EvalRules

variable {ι W : Type} {lib : ι → Text → Nat → Registered W} {misuse : Prop} {path : List Nat}
    {args : List (Expr ι)}

theorem length_evalArgs (path : List Nat) (k : Nat) (args : List (Expr ι)) :
    (evalArgs lib path k args).length = args.length := by
  induction args generalizing k with
  | nil => rfl
  | cons e es ih => rw [evalArgs, List.length_cons, List.length_cons, ih]

section

variable (hargs : ∀ e ∈ args, ∀ path, Follows lib path e)

include hargs

theorem refines_concatFrom (i n : Nat) (result : Text) :
    Refines lib misuse path args (concatFrom (evalArgs lib path 0 args) i n result)
    (concatRule i n result) := by
  induction n generalizing i result with
  | zero => exact refines_make result
  | succ n ih => exact (reads_evaluate hargs i).refines fun str => ih (i + 1) (result ++ str)

theorem refines_concatFn :
    Refines lib misuse path args (concatFn (evalArgs lib path 0 args))
    (concatRule 0 args.length []) := by
  unfold concatFn
  split
  · rename_i hempty
    have hlen : args.length = 0 := by
      rw [← @length_evalArgs ι W lib path 0 args, List.isEmpty_iff.mp hempty, List.length_nil]
    rw [hlen]
    exact refines_make []
  · rw [length_evalArgs]
    exact refines_concatFrom hargs 0 args.length []

theorem refines_ifElseFn :
    Refines lib misuse path args (ifElseFn (evalArgs lib path 0 args))
    (ifElseRule args.length) := by
  unfold ifElseFn ifElseRule
  rw [length_evalArgs]
  by_cases hlen : args.length = 2 ∨ args.length = 3
  · rw [if_pos hlen, if_neg (by omega)]
    refine (reads_evaluate hargs 0).refines fun cond => ?_
    by_cases hcond : cond = []
    · subst hcond
      show Refines lib misuse path args
        (if args.length = 3 then evaluateValue _ 2 else stringValue []) (if args.length =
          3 then lastArg 2 else .make [])
      split
      · exact refines_lastArg hargs 2
      · exact refines_make []
    · rw [if_pos (by simpa using hcond), if_pos hcond]
      exact refines_lastArg hargs 1
  · rw [if_neg hlen, if_pos (by omega)]
    exact refines_fail fun sys => rfl

theorem refines_abortFn :
    Refines lib misuse path args (abortFn (evalArgs lib path 0 args)) (abortRule args.length) := by
  unfold abortFn abortRule
  have hempty : (evalArgs lib path 0 args).isEmpty = true ↔ args.length = 0 := by
    rw [List.isEmpty_iff, ← List.length_eq_zero_iff, length_evalArgs]
  by_cases hlen : args.length = 0
  · rw [if_pos (hempty.mpr hlen), if_pos hlen]
    exact refines_fail fun sys => rfl
  · rw [if_neg (hempty.not.mpr hlen), if_neg hlen]
    exact reads_evaluate hargs 0 calledAbort _ _ fun msg => refines_fail fun sys => rfl

theorem refines_assertFrom (k : Nat) (es : List (Expr ι)) :
    Refines lib misuse path args (assertFrom (evalArgs lib path 0 args) k (evalArgs lib path k es))
      (assertRule k (es.map Tree.label)) := by
  induction es generalizing k with
  | nil => exact refines_make []
  | cons e es ih =>
    refine (reads_evaluate hargs k).refines fun result => ?_
    by_cases hresult : result = []
    · rw [if_pos (by simp [hresult]), if_neg (by simp [hresult])]
      refine refines_fail fun sys => ?_
      dsimp only [assertFailed, assertMessage]
      cases substr sys.state.script e.label.start (e.label.stop - e.label.start) <;> rfl
    · rw [if_neg (by simpa using hresult), if_pos hresult]
      exact ih (k + 1)

theorem refines_sleepFn (hmisuse : args.length ≠ 1 → misuse) :
    Refines lib misuse path args (sleepFn (evalArgs lib path 0 args)) (sleepRule args.length) := by
  refine (reads_evaluate hargs 0).refines fun val => ?_
  cases (parseInt (cstr val)).filter (0 ≤ ·) with
  | none => exact refines_fail fun sys => rfl
  | some v =>
    dsimp only
    split
    · exact refines_step (fun sys => rfl) (refines_make val)
    · rename_i hlen
      exact refines_stuck fun sys => .inr (.inr ⟨hmisuse hlen, _, rfl⟩)

theorem refines_stdoutFrom (i n : Nat) :
    Refines lib misuse path args (stdoutFrom (evalArgs lib path 0 args) i n) (stdoutRule i n) := by
  induction n generalizing i with
  | zero => exact refines_make []
  | succ n ih =>
    exact (reads_evaluate hargs i).refines fun v => refines_step (fun sys => rfl) (ih (i + 1))

theorem refines_logicalAndFn :
    Refines lib misuse path args (logicalAndFn (evalArgs lib path 0 args)) andRule := by
  refine (reads_evaluate hargs 0).refines fun left => ?_
  by_cases hleft : left = []
  · rw [if_neg (by simp [booleanString, hleft]), if_neg (by simp [hleft]), hleft]
    exact refines_make []
  · rw [if_pos (by simpa [booleanString] using hleft), if_pos hleft]
    exact refines_lastArg hargs 1

theorem refines_logicalOrFn :
    Refines lib misuse path args (logicalOrFn (evalArgs lib path 0 args)) orRule := by
  refine (reads_evaluate hargs 0).refines fun left => ?_
  by_cases hleft : left = []
  · rw [if_pos (by simp [booleanString, hleft]), if_neg (by simp [hleft])]
    exact refines_lastArg hargs 1
  · rw [if_neg (by simpa [booleanString] using hleft), if_pos hleft]
    exact refines_make left

theorem refines_logicalNotFn :
    Refines lib misuse path args (logicalNotFn (evalArgs lib path 0 args)) notRule := by
  refine (reads_evaluate hargs 0).refines fun val => ?_
  have htext : (if booleanString val then [] else ['t']) = boolText (val = []) := by
    cases val <;> rfl
  rw [htext]
  exact refines_make _

theorem refines_relationFn (holds : Text → Text → Bool) {next : Text → EdifyRule ι W}
    (hnext : ∀ t, Refines lib misuse path args (stringValue t) (next t)) :
    Refines lib misuse path args (relationFn (evalArgs lib path 0 args) holds)
    (relationRule holds next) :=
  (reads_evaluate hargs 0).refines fun _ => (reads_evaluate hargs 1).refines fun _ => hnext _

theorem refines_sequenceFn :
    Refines lib misuse path args (sequenceFn (evalArgs lib path 0 args)) sequenceRule := by
  have hread : Reads lib misuse path args _ _ := reads_evaluateValue hargs 0
  exact hread.refines fun _ => refines_lastArg hargs 1

theorem refines_compareIntFn (name : Text) (holds : Int → Int → Bool) :
    Refines lib misuse path args (compareIntFn (evalArgs lib path 0 args) name holds)
      (compareIntRule name holds args.length) := by
  unfold compareIntFn compareIntRule
  rw [length_evalArgs]
  by_cases hlen : args.length = 2
  · rw [if_neg (not_not.mpr hlen), if_pos hlen, hlen, readArgs,
      if_neg (by rw [length_evalArgs, hlen]; decide)]
    have hread : Reads lib misuse path args _ _ := reads_readStrings hargs 0 2
    show Refines lib misuse path args _ (strArgs ignore 0 2 fun vars =>
      comparedInts holds (vars.getD 0 []) (vars.getD 1 []))
    refine hread.refines fun vars => ?_
    unfold comparedInts
    cases parseInt64 (cstr (vars.getD 0 [])) with
    | none => exact refines_fail fun sys => rfl
    | some l =>
      cases parseInt64 (cstr (vars.getD 1 [])) with
      | none => exact refines_fail fun sys => rfl
      | some r => exact refines_make _
  · rw [if_pos hlen, if_neg hlen]
    exact refines_fail fun sys => rfl

theorem reads_readAll (start : Nat) (reads : List (Reader × Nat)) :
    Reads lib misuse path args (readAll (evalArgs lib path 0 args) start reads)
      fun onError => allArgs onError args.length start reads := by
  induction reads generalizing start with
  | nil => exact fun onError k next hk => hk []
  | cons chunk rest ih =>
    intro onError k next hk
    obtain ⟨reader, len⟩ := chunk
    show Refines lib misuse path args _ (allArgs onError args.length start _ next)
    cases reader with
    | strings =>
      rw [readAll, readArgs, length_evalArgs, allArgs]
      split
      · exact refines_fail fun sys => rfl
      · rw [Traced.onError_bind, Traced.bind_assoc]
        refine reads_readStrings hargs start len onError _ _ fun vars => ?_
        rw [Traced.onError_bind, Traced.bind_assoc]
        exact ih (start + len) onError _ _ fun more => hk _
    | values =>
      rw [readAll, readValueArgs, length_evalArgs, allArgs]
      split
      · exact refines_fail fun sys => rfl
      · rw [Traced.onError_bind, Traced.bind_assoc]
        refine reads_readValues hargs start len onError _ _ fun vs => ?_
        rw [Traced.onError_bind, Traced.bind_assoc]
        exact ih (start + len) onError _ _ fun more => hk _

theorem refines_registeredFn (key : ι) (f : Registered W) :
    Refines lib misuse path args (registeredFn path key f (evalArgs lib path 0 args))
    (registeredRule key f args.length) := by
  refine refines_step (fun sys => ?_) ?_
  · unfold Registered.refused
    cases f.refuse sys <;> rfl
  · exact reads_readAll hargs 0 f.reads f.unreadOn _ _ fun vs => refines_call

theorem refines_call_node (n : Node ι) :
    Refines lib (n.fn.accepts args.length = false) path args
    (n.call lib path (evalArgs lib path 0 args))
      (rule lib n (args.map Tree.label)) := by
  unfold Node.call rule
  rw [List.length_map, length_evalArgs]
  cases hfn : n.fn with
  | literal => exact refines_make n.name
  | concat => exact refines_concatFn hargs
  | ifElse => exact refines_ifElseFn hargs
  | abort => exact refines_abortFn hargs
  | assert => exact refines_assertFrom hargs 0 args
  | sleep => exact refines_sleepFn hargs fun hlen => by simp [Function.accepts, hlen]
  | stdout =>
    unfold stdoutFn
    rw [length_evalArgs]
    exact refines_stdoutFrom hargs 0 args.length
  | logicalAnd => exact refines_logicalAndFn hargs
  | logicalOr => exact refines_logicalOrFn hargs
  | logicalNot => exact refines_logicalNotFn hargs
  | substring =>
    refine refines_relationFn hargs _ fun t => ?_
    split
    · exact refines_make t
    · rename_i hlen
      exact refines_stuck fun sys => .inr (.inr ⟨by simp [Function.accepts, hlen], _, rfl⟩)
  | equality => exact refines_relationFn hargs _ refines_make
  | inequality => exact refines_relationFn hargs _ refines_make
  | sequence => exact refines_sequenceFn hargs
  | lessThanInt => exact refines_compareIntFn hargs _ _
  | greaterThanInt => exact refines_compareIntFn hargs _ _
  | registered f => exact refines_registeredFn hargs f _

end

theorem follows (e : Expr ι) (path : List Nat) : Follows lib path e := by
  induction e using Tree.induct generalizing path with
  | node n args ih =>
    intro sys
    have hrefines : Refines lib _ path args _ _ := refines_call_node ih n
    obtain ⟨hruns, hnot⟩ := hrefines sys
    have heval : eval lib path (.node n args) sys =
        (n.call lib path (evalArgs lib path 0 args) sys).finish path n args.length := by
      rw [eval]
    refine ⟨fun o hrun => by rw [heval, hruns o hrun]; rfl, fun hno => ?_⟩
    rw [heval]
    obtain hres | ⟨ev, hev, hsafe⟩ | ⟨hmisuse, v, hres⟩ := hnot hno
    · exact ⟨_, List.mem_append_right _ (List.mem_singleton_self _), fun hsafe => hsafe.1 hres⟩
    · exact ⟨ev, List.mem_append_left _ hev, hsafe⟩
    · refine ⟨_, List.mem_append_right _ (List.mem_singleton_self _), fun hsafe => ?_⟩
      rcases hsafe.2 with haccepts | hno
      · exact Bool.false_ne_true (hmisuse.symm.trans haccepts)
      · exact hno v hres

end BootableRecovery.Edify
