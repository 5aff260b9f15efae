import Mathlib.Data.List.Basic
import Mathlib.Data.List.Pairwise
import Mathlib.Data.List.Infix

/-!
# Evaluation by rules

The meaning of expression trees where each node has a rule: which arguments it evaluates, one after
the other, what it does with their values, what it yields. A rule is a tree of requests (`Rule`),
and a run answers them (`Runs`). The rules of a language go through what holds of every evaluation:
what order the nodes are evaluated in (`Runs.precedes`), that a failure stops it (`Runs.failStop`),
that it comes to an end (`Proper.exists_runs`), and what it changes if values are built differently
(`Runs.track`, `Runs.diverge`).
-/

namespace BootableRecovery.EvalRules

/-! ## Computations -/

/-- What a computation gives, the state behind it and its log. -/
structure Outcome (σ ε τ α : Type) where
  result : Except ε α
  state : σ
  log : List τ

/-- A computation with a state, failures and a log. -/
def Traced (σ ε τ α : Type) := σ → Outcome σ ε τ α

namespace Traced

variable {σ ε τ α β γ : Type}

def pure (a : α) : Traced σ ε τ α := fun s => ⟨.ok a, s, []⟩

def bind (m : Traced σ ε τ α) (k : α → Traced σ ε τ β) : Traced σ ε τ β := fun s =>
  match m s with
  | ⟨.ok a, s, l⟩ => let o := k a s; ⟨o.result, o.state, l ++ o.log⟩
  | ⟨.error e, s, l⟩ => ⟨.error e, s, l⟩

instance : Monad (Traced σ ε τ) where
  pure := pure
  bind := bind

def raise (e : ε) : Traced σ ε τ α := fun s => ⟨.error e, s, []⟩

def modify (f : σ → σ) : Traced σ ε τ Unit := fun s => ⟨.ok (), f s, []⟩

/-- A note in the log. -/
def note (t : τ) : Traced σ ε τ Unit := fun s => ⟨.ok (), s, [t]⟩

/-- What happens to the state if the computation fails. -/
def onError (h : ε → σ → σ) (m : Traced σ ε τ α) : Traced σ ε τ α := fun s =>
  match m s with
  | ⟨.ok a, s, l⟩ => ⟨.ok a, s, l⟩
  | ⟨.error e, s, l⟩ => ⟨.error e, h e s, l⟩

theorem pure_bind (a : α) (k : α → Traced σ ε τ β) : (Pure.pure a : Traced σ ε τ α) >>= k = k a :=
  rfl

theorem bind_assoc (m : Traced σ ε τ α) (f : α → Traced σ ε τ β) (g : β → Traced σ ε τ γ) :
    m >>= f >>= g = m >>= fun a => f a >>= g := by
  funext s
  show bind (bind m f) g s = bind m (fun a => bind (f a) g) s
  unfold bind
  rcases m s with ⟨e | a, s', l⟩
  · rfl
  · rcases hf : f a s' with ⟨e | b, t, l'⟩ <;> simp [hf]

theorem bind_pure (m : Traced σ ε τ α) : m >>= Pure.pure = m := by
  funext s
  show bind m pure s = m s
  unfold bind
  rcases m s with ⟨e | a, s', l⟩
  · rfl
  · simp [pure]

theorem onError_bind (h : ε → σ → σ) (m : Traced σ ε τ α) (f : α → Traced σ ε τ β) :
    onError h (m >>= f) = onError h m >>= fun a => onError h (f a) := by
  funext s
  show onError h (bind m f) s = bind (onError h m) (fun a => onError h (f a)) s
  unfold onError bind
  rcases hm : m s with ⟨e | a, s', l⟩
  · simp [hm]
  · rcases hf : f a s' with ⟨e | b, t, l'⟩ <;> simp [hm, hf]

theorem onError_bind_ok {h : ε → σ → σ} {m : Traced σ ε τ α} {k : α → Traced σ ε τ β}
    (hm : m s = ⟨.ok a, s', l⟩) :
    (onError h m >>= k) s = ⟨(k a s').result, (k a s').state, l ++ (k a s').log⟩ := by
  show bind (onError h m) k s = _
  simp [bind, onError, hm]

theorem onError_bind_error {h : ε → σ → σ} {m : Traced σ ε τ α} {k : α → Traced σ ε τ β}
    (hm : m s = ⟨.error e, s', l⟩) : (onError h m >>= k) s = ⟨.error e, h e s', l⟩ := by
  show bind (onError h m) k s = _
  simp [bind, onError, hm]

theorem log_onError_bind (h : ε → σ → σ) (m : Traced σ ε τ α) (k : α → Traced σ ε τ β) (s : σ) :
    (m s).log ⊆ ((onError h m >>= k) s).log := by
  rcases hm : m s with ⟨e | a, s', l⟩
  · rw [onError_bind_error hm]
    exact List.Subset.refl _
  · rw [onError_bind_ok hm]
    exact List.subset_append_left _ _

theorem onError_id (m : Traced σ ε τ α) : onError (fun _ => id) m = m := by
  funext s
  unfold onError
  rcases m s with ⟨e | a, s', l⟩ <;> rfl

end Traced

/-! ## Rules -/

/-- A tree of nodes with their arguments. -/
inductive Tree (ν : Type)
  | node (label : ν) (args : List (Tree ν))

namespace Tree

variable {ν : Type}

def label : Tree ν → ν
  | node n _ => n

def args : Tree ν → List (Tree ν)
  | node _ as => as

@[elab_as_elim]
theorem induct {P : Tree ν → Prop} (node : ∀ n as, (∀ e ∈ as, P e) → P (node n as)) : ∀ e, P e
  | .node n as => node n as fun e _ => induct node e

/-- A property of each node, which is given by its label and the labels of its arguments. -/
inductive All (p : ν → List ν → Prop) : Tree ν → Prop
  | node : p n (as.map label) → (∀ e ∈ as, All p e) → All p (node n as)

theorem All.mono {p q : ν → List ν → Prop} {e : Tree ν} (h : e.All p)
    (hpq : ∀ n ls, p n ls → q n ls) : e.All q := by
  induction h with
  | node hn _ ih => exact .node (hpq _ _ hn) ih

end Tree

/-- What the evaluation of a node does: it yields a value, or one that is built; it fails; it takes
a step of its own, which fails or not; it calls something outside and yields what this yields; it
evaluates an argument and goes on with the value, or does something to the state and fails as the
argument did. No rule says how to go on where it is `stuck`. -/
inductive Rule (σ ε α μ κ : Type)
  | yield (v : α)
  | make (m : μ)
  | fail (effect : σ → ε × σ)
  | step (effect : σ → Option ε × σ) (next : Rule σ ε α μ κ)
  | call (k : κ) (body : σ → Except ε α × σ)
  | arg (i : Nat) (next : α → Rule σ ε α μ κ) (onError : ε → σ → σ)
  | stuck

/-- What is logged: the values that were built, the calls, and the nodes that returned. -/
inductive Event (ν ε α μ κ : Type)
  | made (m : μ)
  | called (path : List Nat) (k : κ)
  | returned (path : List Nat) (label : ν) (argc : Nat) (result : Except ε α)

variable {ν σ ε α μ κ : Type}

/-- The outcome of a node, from the outcome of its rule. -/
def Outcome.finish (o : Outcome σ ε (Event ν ε α μ κ) α) (path : List Nat) (n : ν) (argc : Nat) :
    Outcome σ ε (Event ν ε α μ κ) α :=
  ⟨o.result, o.state, o.log ++ [.returned path n argc o.result]⟩

section

variable (rules : ν → List ν → Rule σ ε α μ κ)

/-- The rule of the node at the root of a tree. -/
def ruleOf (e : Tree ν) : Rule σ ε α μ κ := rules e.label (e.args.map Tree.label)

/-- The runs of a rule of the node at `path` with the arguments `args`. -/
inductive Runs (build : μ → α) : List Nat → List (Tree ν) → Rule σ ε α μ κ → σ →
    Outcome σ ε (Event ν ε α μ κ) α → Prop
  | yield : Runs build path args (.yield v) s ⟨.ok v, s, []⟩
  | make : Runs build path args (.make m) s ⟨.ok (build m), s, [.made m]⟩
  | fail : Runs build path args (.fail effect) s ⟨.error (effect s).1, (effect s).2, []⟩
  | step : effect s = (none, s') → Runs build path args next s' o →
    Runs build path args (.step effect next) s o
  | stepError :
    effect s = (some e, s') → Runs build path args (.step effect next) s ⟨.error e, s', []⟩
  | call : Runs build path args (.call k body) s ⟨(body s).1, (body s).2, [.called path k]⟩
  | arg : args[i]? = some e → Runs build (path ++ [i]) e.args (ruleOf rules e) s ⟨.ok v, s', l⟩ →
    Runs build path args (next v) s' ⟨r, t, l'⟩ →
    Runs build path args (.arg i next onError) s
      ⟨r, t, l ++ .returned (path ++ [i]) e.label e.args.length (.ok v) :: l'⟩
  | argError :
    args[i]? = some e → Runs build (path ++ [i]) e.args (ruleOf rules e) s ⟨.error err, s', l⟩ →
    Runs build path args (.arg i next onError) s
      ⟨.error err, onError err s',
        l ++ [.returned (path ++ [i]) e.label e.args.length (.error err)]⟩

/-- The meaning of a tree at `path`. -/
def Means (build : μ → α) (path : List Nat) (e : Tree ν) (s : σ)
    (o : Outcome σ ε (Event ν ε α μ κ) α) : Prop :=
  ∃ o', Runs rules build path e.args (ruleOf rules e) s o' ∧
  o = o'.finish path e.label e.args.length

end

variable {rules : ν → List ν → Rule σ ε α μ κ} {build build' : μ → α} {path : List Nat}
    {args : List (Tree ν)}
  {r : Rule σ ε α μ κ} {s : σ} {o o' : Outcome σ ε (Event ν ε α μ κ) α}

/-! ## Runs under two ways to build values -/

theorem Runs.deterministic (h : Runs rules build path args r s o)
    (h' : Runs rules build path args r s o') : o = o' := by
  induction h generalizing o' with
  | yield | make | fail | call =>
    cases h'
    rfl
  | step he _ ih =>
    cases h' with
    | step he' h' =>
      cases he.symm.trans he'
      exact ih h'
    | stepError he' => cases he.symm.trans he'
  | stepError he =>
    cases h' with
    | step he' => cases he.symm.trans he'
    | stepError he' =>
      cases he.symm.trans he'
      rfl
  | arg ha _ _ ih ih' =>
    cases h' with
    | arg ha' h₁ h₂ =>
      cases ha.symm.trans ha'
      cases ih h₁
      cases ih' h₂
      rfl
    | argError ha' h₁ =>
      cases ha.symm.trans ha'
      cases ih h₁
  | argError ha _ ih =>
    cases h' with
    | arg ha' h₁ =>
      cases ha.symm.trans ha'
      cases ih h₁
    | argError ha' h₁ =>
      cases ha.symm.trans ha'
      cases ih h₁
      rfl

/-- Both ways build the same for all that the log says was built. -/
def Agree (build build' : μ → α) (l : List (Event ν ε α μ κ)) : Prop :=
  ∀ m, .made m ∈ l → build m = build' m

theorem agree_append {l l' : List (Event ν ε α μ κ)} :
    Agree build build' (l ++ l') ↔ Agree build build' l ∧ Agree build build' l' := by
  simp only [Agree, List.mem_append]
  exact ⟨fun h => ⟨fun m hm => h m (.inl hm), fun m hm => h m (.inr hm)⟩,
    fun h m hm => hm.elim (h.1 m) (h.2 m)⟩

theorem agree_returned {n : ν} {argc : Nat} {x : Except ε α} {l : List (Event ν ε α μ κ)} :
    Agree build build' (.returned path n argc x :: l) ↔ Agree build build' l := by
  simp [Agree]

theorem Runs.track (h : Runs rules build path args r s o) (hagree : Agree build build' o.log) :
    Runs rules build' path args r s o := by
  induction h with
  | yield => exact .yield
  | make =>
    rw [hagree _ List.mem_cons_self]
    exact .make
  | fail => exact .fail
  | step he _ ih => exact .step he (ih hagree)
  | stepError he => exact .stepError he
  | call => exact .call
  | arg ha _ _ ih ih' =>
    obtain ⟨h₁, h₂⟩ := agree_append.mp hagree
    exact .arg ha (ih h₁) (ih' (agree_returned.mp h₂))
  | argError ha _ ih => exact .argError ha (ih (agree_append.mp hagree).1)

/-- Two logs that differ at some place where both have an entry. -/
def Apart (l l' : List (Event ν ε α μ κ)) : Prop :=
  ∃ p a b t t', l = p ++ a :: t ∧ l' = p ++ b :: t' ∧ a ≠ b

theorem Apart.append {l l' : List (Event ν ε α μ κ)} (h : Apart l l')
    (t t' : List (Event ν ε α μ κ)) : Apart (l ++ t) (l' ++ t') := by
  obtain ⟨p, a, b, u, u', rfl, rfl, hne⟩ := h
  exact ⟨p, a, b, u ++ t, u' ++ t', by simp, by simp, hne⟩

theorem Apart.prepend {l l' : List (Event ν ε α μ κ)} (h : Apart l l')
    (t : List (Event ν ε α μ κ)) : Apart (t ++ l) (t ++ l') := by
  obtain ⟨p, a, b, u, u', rfl, rfl, hne⟩ := h
  exact ⟨t ++ p, a, b, u, u', by simp, by simp, hne⟩

theorem Apart.ne {l l' : List (Event ν ε α μ κ)} (h : Apart l l') : l ≠ l' := by
  obtain ⟨p, a, b, t, t', rfl, rfl, hne⟩ := h
  intro heq
  exact hne (List.cons.inj (List.append_cancel_left heq)).1

/-- Where the two ways build something different, the logs show it when the node returns. -/
theorem Runs.diverge (h : Runs rules build path args r s o)
    (h' : Runs rules build' path args r s o') (hnot : ¬Agree build build' o.log) (q : List Nat)
    (n : ν) (argc : Nat) : Apart (o.finish q n argc).log (o'.finish q n argc).log := by
  induction h generalizing o' q n argc with
  | yield | fail | stepError | call => exact absurd (fun m hm => by simp at hm) hnot
  | @make _ _ m _ =>
    cases h'
    refine ⟨[.made m], _, _, [], [], rfl, rfl, fun heq => hnot fun m' hm => ?_⟩
    cases List.mem_singleton.mp hm
    exact Except.ok.inj (Event.returned.inj heq).2.2.2
  | step he _ ih =>
    cases h' with
    | step he' h' =>
      cases he.symm.trans he'
      exact ih h' hnot q n argc
    | stepError he' => cases he.symm.trans he'
  | @arg _ i e path _ v _ l _ _ _ l' _ ha h₁ h₂ ih ih' =>
    by_cases hagree : Agree build build' l
    · -- The argument is evaluated as before, so the difference lies behind it.
      have hnext : ¬Agree build build' l' :=
        fun h => hnot (agree_append.mpr ⟨hagree, agree_returned.mpr h⟩)
      cases h' with
      | arg ha' h₁' h₂' =>
        cases ha.symm.trans ha'
        cases (h₁.track hagree).deterministic h₁'
        have := (ih' h₂' hnext q n argc).prepend
          (l ++ [.returned (path ++ [i]) e.label e.args.length (.ok v)])
        simpa [Outcome.finish] using this
      | argError ha' h₁' =>
        cases ha.symm.trans ha'
        cases (h₁.track hagree).deterministic h₁'
    · cases h' with
      | arg ha' h₁' =>
        cases ha.symm.trans ha'
        simpa [Outcome.finish] using (ih h₁' hagree _ e.label e.args.length).append _ _
      | argError ha' h₁' =>
        cases ha.symm.trans ha'
        simpa [Outcome.finish] using (ih h₁' hagree _ e.label e.args.length).append _ _
  | @argError _ _ e _ _ _ _ l _ _ ha h₁ ih =>
    have hagree : ¬Agree build build' l :=
      fun h => hnot (agree_append.mpr ⟨h, agree_returned.mpr fun m hm => by simp at hm⟩)
    cases h' with
    | arg ha' h₁' =>
      cases ha.symm.trans ha'
      simpa [Outcome.finish] using (ih h₁' hagree _ e.label e.args.length).append _ _
    | argError ha' h₁' =>
      cases ha.symm.trans ha'
      simpa [Outcome.finish] using (ih h₁' hagree _ e.label e.args.length).append _ _

/-- What holds of a node with the outcome of its rule holds of all that returned. -/
theorem Runs.returned {Q : ν → Nat → Except ε α → Prop}
    (hQ : ∀ path e s (o : Outcome σ ε (Event ν ε α μ κ) α),
      Runs rules build path e.args (ruleOf rules e) s o → Q e.label e.args.length o.result)
    (h : Runs rules build path args r s o) {p : List Nat} {n : ν} {argc : Nat} {x : Except ε α}
    (hmem : .returned p n argc x ∈ o.log) : Q n argc x := by
  induction h with
  | yield | make | fail | stepError | call => simp at hmem
  | step _ _ ih => exact ih hmem
  | arg _ h₁ _ ih ih' =>
    rcases List.mem_append.mp hmem with hmem | hmem
    · exact ih hmem
    · rcases List.mem_cons.mp hmem with heq | hmem
      · cases heq
        exact hQ _ _ _ _ h₁
      · exact ih' hmem
  | argError _ h₁ ih =>
    rcases List.mem_append.mp hmem with hmem | hmem
    · exact ih hmem
    · cases List.mem_singleton.mp hmem
      exact hQ _ _ _ _ h₁

/-! ## Evaluation comes to an end -/

/-- A rule that takes its arguments from `k` on, up to `argc`, in their order and each at most once;
the failures that do not come from an argument are among `P`, and it is stuck only if it
`mayStick`. -/
def Rule.Proper (mayStick : Prop) (P : ε → Prop) (argc : Nat) : Nat → Rule σ ε α μ κ → Prop
  | _, yield _ | _, make _ => True
  | _, fail effect => ∀ s, P (effect s).1
  | _, call _ body => ∀ s e, (body s).1 = .error e → P e
  | k, step effect next => (∀ s e, (effect s).1 = some e → P e) ∧ next.Proper mayStick P argc k
  | k, arg i next _ => k ≤ i ∧ i < argc ∧ ∀ v, (next v).Proper mayStick P argc (i + 1)
  | _, stuck => mayStick

/-- A tree all of whose nodes have such rules, and are never stuck. -/
def Proper (rules : ν → List ν → Rule σ ε α μ κ) (P : ε → Prop) (e : Tree ν) : Prop :=
  e.All fun n ls => (rules n ls).Proper False P ls.length 0

variable {P : ε → Prop} {k : Nat}

theorem Proper.rule {e : Tree ν} (h : Proper rules P e) :
    (ruleOf rules e).Proper False P e.args.length 0 := by
  cases h with
  | node hn => exact List.length_map Tree.label ▸ hn

theorem Proper.of_mem_args {e : Tree ν} (h : Proper rules P e) :
    ∀ e' ∈ e.args, Proper rules P e' := by
  cases h with
  | node _ has => exact has

theorem exists_runs (hargs : ∀ e ∈ args, ∀ path s,
      ∃ o : Outcome σ ε (Event ν ε α μ κ) α, Runs rules build path e.args (ruleOf rules e) s o)
    (hr : r.Proper False P args.length k) (s : σ) :
    ∃ o : Outcome σ ε (Event ν ε α μ κ) α, Runs rules build path args r s o := by
  induction r generalizing s k with
  | yield => exact ⟨_, .yield⟩
  | make => exact ⟨_, .make⟩
  | fail => exact ⟨_, .fail⟩
  | call => exact ⟨_, .call⟩
  | stuck => exact hr.elim
  | step effect next ih =>
    rcases he : effect s with ⟨_ | e, s'⟩
    · obtain ⟨o, ho⟩ := ih hr.2 s'
      exact ⟨o, .step he ho⟩
    · exact ⟨_, .stepError he⟩
  | arg i next onError ih =>
    obtain ⟨-, hi, hnext⟩ := hr
    have hget := List.getElem?_eq_getElem hi
    obtain ⟨⟨e | v, s', l⟩, h₁⟩ := hargs _ (List.getElem_mem hi) (path ++ [i]) s
    · exact ⟨_, .argError hget h₁⟩
    · obtain ⟨⟨x, t, l'⟩, h₂⟩ := ih v (hnext v) s'
      exact ⟨_, .arg hget h₁ h₂⟩

theorem Proper.exists_runs {e : Tree ν} (h : Proper rules P e) (path : List Nat) (s : σ) :
    ∃ o : Outcome σ ε (Event ν ε α μ κ) α, Runs rules build path e.args (ruleOf rules e) s o := by
  induction e using Tree.induct generalizing path s with
  | node n as ih =>
    exact EvalRules.exists_runs (fun e he path s => ih e he (h.of_mem_args e he) path s) h.rule s

theorem Runs.raises {stick : Prop} {argc : Nat}
    (hrules : ∀ n ls, ∃ argc, (rules n ls).Proper stick P argc 0)
    (h : Runs rules build path args r s o) (hr : r.Proper stick P argc k) {e : ε}
    (he : o.result = .error e) : P e := by
  induction h generalizing argc k with
  | yield | make => cases he
  | fail =>
    cases he
    exact hr _
  | step _ _ ih => exact ih hr.2 he
  | stepError hs =>
    cases he
    exact hr.1 _ _ (congrArg Prod.fst hs)
  | call => exact hr _ _ he
  | arg _ _ _ _ ih' => exact ih' (hr.2.2 _) he
  | argError _ _ ih =>
    obtain ⟨_, hr'⟩ := hrules _ _
    exact ih hr' he

/-- A rule that yields no value. -/
def Rule.Fails : Rule σ ε α μ κ → Prop
  | yield _ | make _ | call _ _ => False
  | fail _ | stuck => True
  | step _ next => next.Fails
  | arg _ next _ => ∀ v, (next v).Fails

theorem Runs.fails (h : Runs rules build path args r s o) (hr : r.Fails) (v : α) :
    o.result ≠ .ok v := by
  induction h with
  | yield | make | call => exact hr.elim
  | fail | stepError | argError => exact nofun
  | step _ _ ih => exact ih hr
  | arg _ _ _ _ ih' => exact ih' (hr _)

/-! ## The order of evaluation -/

/-- A node comes before another one: it is inside of it, or to the left of it. -/
inductive Before : List Nat → List Nat → Prop
  | inner : Before (c ++ i :: t) c
  | left : i < j → Before (c ++ i :: t) (c ++ j :: t')

theorem Before.ne {p q : List Nat} (h : Before p q) : p ≠ q := by
  intro heq
  cases h with
  | inner =>
    exact absurd (List.append_cancel_left (heq.trans (List.append_nil _).symm))
      (List.cons_ne_nil _ _)
  | left hlt =>
    have := (List.cons.inj (List.append_cancel_left heq)).1
    omega

/-- The order of two entries of the log: a call comes right before its node returns. -/
def Event.Precedes : Event ν ε α μ κ → Event ν ε α μ κ → Prop
  | called p _, returned q _ _ _ => Before p q ∨ p = q
  | called p _, called q _ | returned p _ _ _, called q _ | returned p _ _ _, returned q _ _ _ =>
    Before p q
  | made _, _ | _, made _ => True

/-- The entry is about the node at `path` itself, which calls, or a node in an argument from `k`
on. -/
def Event.Within (path : List Nat) (k : Nat) : Event ν ε α μ κ → Prop
  | made _ => True
  | called q _ => q = path ∨ ∃ i t, k ≤ i ∧ q = path ++ i :: t
  | returned q _ _ _ => ∃ i t, k ≤ i ∧ q = path ++ i :: t

/-- The entry is about the node at `path` or one inside of it. -/
def Event.Under (path : List Nat) : Event ν ε α μ κ → Prop
  | made _ => True
  | called q _ | returned q _ _ _ => ∃ t, q = path ++ t

theorem Event.Within.mono {ev : Event ν ε α μ κ} (h : ev.Within path k) (hk : j ≤ k) :
    ev.Within path j := by
  cases ev with
  | made => trivial
  | called q =>
    obtain h | ⟨i, t, hi, h⟩ := h
    · exact .inl h
    · exact .inr ⟨i, t, hk.trans hi, h⟩
  | returned q =>
    obtain ⟨i, t, hi, h⟩ := h
    exact ⟨i, t, hk.trans hi, h⟩

theorem Event.Within.under {ev : Event ν ε α μ κ} (h : ev.Within path k) : ev.Under path := by
  cases ev with
  | made => trivial
  | called q =>
    obtain rfl | ⟨i, t, -, h⟩ := h
    · exact ⟨[], (List.append_nil _).symm⟩
    · exact ⟨i :: t, h⟩
  | returned q =>
    obtain ⟨i, t, -, h⟩ := h
    exact ⟨i :: t, h⟩

theorem Event.Under.within {ev : Event ν ε α μ κ} (h : ev.Under (path ++ [i])) :
    ev.Within path i := by
  cases ev with
  | made => trivial
  | called q =>
    obtain ⟨t, rfl⟩ := h
    exact .inr ⟨i, t, le_rfl, by simp⟩
  | returned q =>
    obtain ⟨t, rfl⟩ := h
    exact ⟨i, t, le_rfl, by simp⟩

theorem Event.Within.precedes_returned {ev : Event ν ε α μ κ} (h : ev.Within path k) (n : ν)
    (argc : Nat) (x : Except ε α) : ev.Precedes (.returned path n argc x) := by
  cases ev with
  | made => trivial
  | called q =>
    obtain rfl | ⟨i, t, -, rfl⟩ := h
    · exact .inr rfl
    · exact .inl .inner
  | returned q =>
    obtain ⟨i, t, -, rfl⟩ := h
    exact .inner

/-- What is inside an argument comes before the arguments to its right, and before the call of the
node. -/
theorem Event.Under.precedes {ev ev' : Event ν ε α μ κ} (h : ev.Under (path ++ [i]))
    (h' : ev'.Within path (i + 1)) : ev.Precedes ev' := by
  have hbefore {p q : List Nat} (hp : ∃ t, p = path ++ [i] ++ t)
      (hq : q = path ∨ ∃ j t, i + 1 ≤ j ∧ q = path ++ j :: t) : Before p q := by
    obtain ⟨t, rfl⟩ := hp
    rw [List.append_assoc]
    obtain rfl | ⟨j, t', hj, rfl⟩ := hq
    · exact .inner
    · exact .left hj
  cases ev <;> cases ev'
  case called.called => exact hbefore h h'
  case called.returned => exact .inl (hbefore h (.inr h'))
  case returned.called => exact hbefore h h'
  case returned.returned => exact hbefore h (.inr h')
  all_goals trivial

/-- If each rule takes its arguments in their order, the nodes are evaluated from left to right, and
each at most once. -/
theorem Runs.precedes (h : Runs rules build path args r s o) (hargs : ∀ e ∈ args, Proper rules P e)
    (hr : r.Proper False P args.length k) :
    (∀ ev ∈ o.log, ev.Within path k) ∧ o.log.Pairwise Event.Precedes := by
  induction h generalizing k with
  | yield | fail | stepError => simp
  | make => simp [Event.Within]
  | call => simp [Event.Within]
  | step _ _ ih => exact ih hargs hr.2
  | @arg _ i e path _ v _ l _ _ _ l' _ ha _ _ ih ih' =>
    have he := hargs e (List.mem_of_getElem? ha)
    obtain ⟨hin, hl⟩ := ih he.of_mem_args he.rule
    obtain ⟨hin', hl'⟩ := ih' hargs (hr.2.2 v)
    have hret :
        (Event.returned (path ++ [i]) e.label e.args.length (.ok v) : Event ν ε α μ κ).Under
        (path ++ [i]) :=
      ⟨[], (List.append_nil _).symm⟩
    constructor
    · simp only [List.forall_mem_append, List.forall_mem_cons]
      exact ⟨fun ev hev => (hin ev hev).under.within.mono hr.1, hret.within.mono hr.1,
        fun ev hev => (hin' ev hev).mono (by have := hr.1; omega)⟩
    · refine List.pairwise_append.mpr ⟨hl,
        List.pairwise_cons.mpr ⟨fun ev hev => hret.precedes (hin' ev hev), hl'⟩, ?_⟩
      intro ev hev
      simp only [List.forall_mem_cons]
      exact ⟨(hin ev hev).precedes_returned .., fun ev' hev' =>
        (hin ev hev).under.precedes (hin' ev' hev')⟩
  | @argError _ i e path _ err _ l _ _ ha _ ih =>
    have he := hargs e (List.mem_of_getElem? ha)
    obtain ⟨hin, hl⟩ := ih he.of_mem_args he.rule
    have hret :
        (Event.returned (path ++ [i]) e.label e.args.length (.error err) : Event ν ε α μ κ).Under
        (path ++ [i]) := ⟨[], (List.append_nil _).symm⟩
    constructor
    · simp only [List.forall_mem_append, List.forall_mem_singleton]
      exact ⟨fun ev hev => (hin ev hev).under.within.mono hr.1, hret.within.mono hr.1⟩
    · refine List.pairwise_append.mpr ⟨hl, List.pairwise_singleton _ _, fun ev hev => ?_⟩
      simp only [List.forall_mem_singleton]
      exact (hin ev hev).precedes_returned ..

/-! ## A failure stops the evaluation -/

/-- After a node has failed, all that happens is that a node around it fails. -/
def Event.Stops (ev ev' : Event ν ε α μ κ) : Prop :=
  ∀ p n argc err, ev = .returned p n argc (.error err) →
    ∃ q t n' argc' err', ev' = .returned q n' argc' (.error err') ∧ p = q ++ t ∧ t ≠ []

theorem Runs.failed (h : Runs rules build path args r s o) {p : List Nat} {n : ν} {argc : Nat}
    {err : ε}
    (hmem : .returned p n argc (.error err) ∈ o.log) :
    (∃ err, o.result = .error err) ∧ ∃ t, p = path ++ t ∧ t ≠ [] := by
  induction h with
  | yield | make | fail | stepError | call => simp at hmem
  | step _ _ ih => exact ih hmem
  | arg _ _ _ ih ih' =>
    rcases List.mem_append.mp hmem with hmem | hmem
    · obtain ⟨⟨_, he⟩, -⟩ := ih hmem
      cases he
    · rcases List.mem_cons.mp hmem with heq | hmem
      · cases heq
      · exact ih' hmem
  | argError _ _ ih =>
    refine ⟨⟨_, rfl⟩, ?_⟩
    rcases List.mem_append.mp hmem with hmem | hmem
    · obtain ⟨-, t, rfl, -⟩ := ih hmem
      exact ⟨_, List.append_assoc .., by simp⟩
    · cases List.mem_singleton.mp hmem
      exact ⟨_, rfl, by simp⟩

theorem Runs.stops (h : Runs rules build path args r s o) : o.log.Pairwise Event.Stops := by
  induction h with
  | yield | make | fail | stepError | call => simp
  | step _ _ ih => exact ih
  | arg _ h₁ _ ih ih' =>
    refine List.pairwise_append.mpr ⟨ih, List.pairwise_cons.mpr ⟨?_, ih'⟩, ?_⟩
    · rintro _ - _ _ _ _ heq
      cases heq
    · rintro ev hev _ - p n argc err rfl
      obtain ⟨⟨_, he⟩, -⟩ := h₁.failed hev
      cases he
  | argError _ h₁ ih =>
    refine List.pairwise_append.mpr ⟨ih, List.pairwise_singleton _ _, ?_⟩
    rintro ev hev _ hmem p n argc err rfl
    cases List.mem_singleton.mp hmem
    obtain ⟨-, t, hp, ht⟩ := h₁.failed hev
    exact ⟨_, t, _, _, _, rfl, hp, ht⟩

/-! ## Evaluations -/

/-- The node that an entry shows to call. -/
def Event.caller : Event ν ε α μ κ → Option (List Nat)
  | called p _ => some p
  | _ => none

/-- The node that an entry shows to return. -/
def Event.returner : Event ν ε α μ κ → Option (List Nat)
  | returned p _ _ _ => some p
  | _ => none

theorem nodup_caller {l : List (Event ν ε α μ κ)} (h : l.Pairwise Event.Precedes) :
    (l.filterMap Event.caller).Nodup := by
  refine h.filterMap _ fun ev ev' hev p hp q hq => ?_
  cases ev <;> cases hp
  cases ev' <;> cases hq
  exact Before.ne hev

theorem nodup_returner {l : List (Event ν ε α μ κ)} (h : l.Pairwise Event.Precedes) :
    (l.filterMap Event.returner).Nodup := by
  refine h.filterMap _ fun ev ev' hev p hp q hq => ?_
  cases ev <;> cases hp
  cases ev' <;> cases hq
  exact Before.ne hev

/-- An evaluation in order: from left to right, each node at most once, and after the first failure
nothing but the failure of the whole. -/
structure Orderly (o : Outcome σ ε (Event ν ε α μ κ) α) : Prop where
  precedes : o.log.Pairwise Event.Precedes
  callsOnce : (o.log.filterMap Event.caller).Nodup
  returnsOnce : (o.log.filterMap Event.returner).Nodup
  stops : o.log.Pairwise Event.Stops
  failed : ∀ p n argc err, .returned p n argc (.error err) ∈ o.log → ∃ err, o.result = .error err

theorem Means.orderly {e : Tree ν} (h : Means rules build path e s o) (he : Proper rules P e) :
    Orderly o := by
  obtain ⟨o', h, rfl⟩ := h
  obtain ⟨hin, hprec⟩ := h.precedes he.of_mem_args he.rule
  have horder : (o'.finish path e.label e.args.length).log.Pairwise Event.Precedes := by
    refine List.pairwise_append.mpr ⟨hprec, List.pairwise_singleton _ _, fun ev hev => ?_⟩
    simp only [List.forall_mem_singleton]
    exact (hin ev hev).precedes_returned ..
  refine ⟨horder, nodup_caller horder, nodup_returner horder,
    List.pairwise_append.mpr ⟨h.stops, List.pairwise_singleton _ _, ?_⟩, fun p n argc err hmem =>
    ?_⟩
  · rintro ev hev _ hmem p n argc err rfl
    obtain ⟨⟨_, he⟩, t, hp, ht⟩ := h.failed hev
    cases List.mem_singleton.mp hmem
    exact ⟨path, t, _, _, _, by rw [he], hp, ht⟩
  · rcases List.mem_append.mp hmem with hmem | hmem
    · exact (h.failed hmem).1
    · exact ⟨err, (Event.returned.inj (List.mem_singleton.mp hmem)).2.2.2.symm⟩

theorem Means.deterministic {e : Tree ν} (h : Means rules build path e s o)
    (h' : Means rules build path e s o') : o = o' := by
  obtain ⟨_, h, rfl⟩ := h
  obtain ⟨_, h', rfl⟩ := h'
  rw [h.deterministic h']

/-- The ways to build values are told apart by an evaluation exactly where they build something
different. -/
theorem Means.iff_agree {e : Tree ν} (h : Means rules build path e s o)
    (h' : Means rules build' path e s o') : o = o' ↔ Agree build build' o.log := by
  obtain ⟨x, h, rfl⟩ := h
  obtain ⟨x', h', rfl⟩ := h'
  have hlog : Agree build build' (x.finish path e.label e.args.length).log ↔
      Agree build build' x.log := by
    rw [Outcome.finish, agree_append, and_iff_left]
    exact fun m hm => by simp at hm
  rw [hlog]
  constructor
  · intro heq
    by_contra hnot
    exact (h.diverge h' hnot path e.label e.args.length).ne (congrArg Outcome.log heq)
  · intro hagree
    rw [(h.track hagree).deterministic h']

end BootableRecovery.EvalRules
