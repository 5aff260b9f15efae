import Mathlib.Logic.Basic

/-!
# Programs over a durable store

A program keeps its variables in memory and changes a store, one atomic step after the other. A
crash may fall between any two steps: the memory is lost and the store stays as the steps so far
have left it. So what a run leaves behind at a crash is a prefix of its steps, and everything that
one may want to know about a crash (the store, what a cache has not flushed yet, who wrote last) is
a fold over that prefix, a `Monitor`.

`wp M C x Q` is the weakest precondition of the program `x` with the crash condition `C`, which has
to hold after every single step, and the postcondition `Q`.
-/

namespace BootableRecovery

/-- A program over a store `σ` that the steps `ε` change as `apply` says, with variables in `μ`:
from the variables and the store at its start it computes the steps it takes, and its result with
the variables after it, or `none` if the process dies. -/
def Prog {σ ε : Type} (_apply : σ → ε → σ) (μ α : Type) : Type := μ → σ → List ε × Option (α × μ)

namespace Prog

variable {σ ε : Type} {apply : σ → ε → σ} {μ α β : Type}

/-- Sequencing: the second program starts from the variables and the store that the first leaves. -/
protected def bind (x : Prog apply μ α) (f : α → Prog apply μ β) : Prog apply μ β := fun m s =>
  match x m s with
  | (steps, none) => (steps, none)
  | (steps, some (a, m')) =>
    let (steps', r) := f a m' (steps.foldl apply s)
    (steps ++ steps', r)

instance : Monad (Prog apply μ) where
  pure a := fun m _ => ([], some (a, m))
  bind := Prog.bind

theorem id_map (x : Prog apply μ α) : id <$> x = x := by
  funext m s
  simp only [Functor.map, Prog.bind]
  rcases x m s with ⟨es, _ | ⟨a, m'⟩⟩
  · rfl
  · exact Prod.ext (List.append_nil es) rfl

theorem pure_bind (a : α) (f : α → Prog apply μ β) : pure a >>= f = f a := by
  funext m s
  simp [bind, Prog.bind, pure]

theorem bind_assoc {γ : Type} (x : Prog apply μ α) (f : α → Prog apply μ β)
    (g : β → Prog apply μ γ) : x >>= f >>= g = x >>= fun a => f a >>= g := by
  funext m s
  simp only [bind, Prog.bind]
  rcases x m s with ⟨es, _ | ⟨a, m'⟩⟩
  · rfl
  · simp only
    rcases f a m' (es.foldl apply s) with ⟨es', _ | ⟨b, m''⟩⟩ <;> simp

instance : LawfulMonad (Prog apply μ) := .mk' _ id_map pure_bind bind_assoc

/-- The process dies. -/
def abort : Prog apply μ α := fun _ _ => ([], none)

/-- One step. -/
def emit (e : ε) : Prog apply μ Unit := fun m _ => ([e], some ((), m))

/-- The store, as it is now. -/
def store : Prog apply μ σ := fun m s => ([], some (s, m))

/-- The variables. -/
def get : Prog apply μ μ := fun m _ => ([], some (m, m))

/-- An assignment. -/
def modify (f : μ → μ) : Prog apply μ Unit := fun m _ => ([], some ((), f m))

/-- The steps of a run. -/
def steps (x : Prog apply μ α) (m : μ) (s : σ) : List ε := (x m s).1

/-- The result of a run. -/
def result (x : Prog apply μ α) (m : μ) (s : σ) : Option (α × μ) := (x m s).2

section
variable {m : μ} {s : σ}

@[simp] theorem pure_apply (a : α) : (pure a : Prog apply μ α) m s = ([], some (a, m)) := rfl

@[simp] theorem emit_apply (e : ε) : (emit e : Prog apply μ Unit) m s = ([e], some ((), m)) := rfl

@[simp] theorem store_apply : (store : Prog apply μ σ) m s = ([], some (s, m)) := rfl

@[simp] theorem abort_apply : (abort : Prog apply μ α) m s = ([], none) := rfl

theorem bind_apply {x : Prog apply μ α} {es : List ε} {a : α} {m' : μ} (f : α → Prog apply μ β)
    (h : x m s = (es, some (a, m'))) :
    (x >>= f) m s = (es ++ (f a m' (es.foldl apply s)).1, (f a m' (es.foldl apply s)).2) := by
  simp only [bind, Prog.bind, h]

end

end Prog

/-- A state `τ` that follows the steps, and from which the store can be seen. -/
structure Monitor {σ ε : Type} (apply : σ → ε → σ) (τ : Type) where
  step : τ → ε → τ
  view : τ → σ
  view_step : ∀ t e, view (step t e) = apply (view t) e

namespace Monitor

variable {σ ε τ : Type} {apply : σ → ε → σ}

/-- The store itself. -/
def plain (apply : σ → ε → σ) : Monitor apply σ where
  step := apply
  view := id
  view_step _ _ := rfl

/-- The store at the start together with all steps so far. -/
def history (apply : σ → ε → σ) : Monitor apply (σ × List ε) where
  step t e := (t.1, t.2 ++ [e])
  view t := t.2.foldl apply t.1
  view_step _ _ := by simp

@[simp] theorem plain_step (s : σ) (e : ε) : (plain apply).step s e = apply s e := rfl

@[simp] theorem plain_view (s : σ) : (plain apply).view s = s := rfl

@[simp] theorem history_step (t : σ × List ε) (e : ε) :
    (history apply).step t e = (t.1, t.2 ++ [e]) := rfl

@[simp] theorem history_view (t : σ × List ε) : (history apply).view t = t.2.foldl apply t.1 := rfl

theorem history_foldl (steps es : List ε) (s : σ) :
    steps.foldl (history apply).step (s, es) = (s, es ++ steps) := by
  induction steps generalizing es with
  | nil => simp
  | cons e steps ih => simp [ih]

variable (M : Monitor apply τ)

theorem view_foldl (steps : List ε) (t : τ) :
    M.view (steps.foldl M.step t) = steps.foldl apply (M.view t) := by
  induction steps generalizing t with
  | nil => rfl
  | cons e steps ih => rw [List.foldl_cons, ih, M.view_step, List.foldl_cons]

/-- `C` holds after each of the steps. -/
def Along (C : τ → Prop) : List ε → τ → Prop
  | [], _ => True
  | e :: steps, t => C (M.step t e) ∧ Along C steps (M.step t e)

variable {M} {C : τ → Prop}

theorem along_append {es fs : List ε} {t : τ} :
    M.Along C (es ++ fs) t ↔ M.Along C es t ∧ M.Along C fs (es.foldl M.step t) := by
  induction es generalizing t with
  | nil => simp [Along]
  | cons e es ih => simp [Along, ih, and_assoc]

theorem Along.mono {D : τ → Prop} (h : ∀ t, C t → D t) {es : List ε} {t : τ}
    (ha : M.Along C es t) : M.Along D es t := by
  induction es generalizing t with
  | nil => trivial
  | cons e es ih => exact ⟨h _ ha.1, ih ha.2⟩

theorem Along.take {es : List ε} {t : τ} (ha : M.Along C es t) (h₀ : C t) (k : Nat) :
    C ((es.take k).foldl M.step t) := by
  induction es generalizing t k with
  | nil => simpa using h₀
  | cons e es ih =>
    cases k with
    | zero => simpa using h₀
    | succ k => exact ih ha.2 ha.1 k

end Monitor

/-- The weakest precondition of `x` with the crash condition `C` and the postcondition `Q`. -/
def wp {σ ε τ : Type} {apply : σ → ε → σ} {μ α : Type} (M : Monitor apply τ) (C : τ → Prop)
    (x : Prog apply μ α) (Q : Option (α × μ) → τ → Prop) (m : μ) (t : τ) : Prop :=
  M.Along C (x.steps m (M.view t)) t ∧
    Q (x.result m (M.view t)) ((x.steps m (M.view t)).foldl M.step t)

section
variable {σ ε τ : Type} {apply : σ → ε → σ} {μ α β : Type} {M : Monitor apply τ} {C : τ → Prop}
variable {Q : Option (α × μ) → τ → Prop} {m : μ} {t : τ}

@[simp]
theorem wp_pure {a : α} : wp M C (pure a) Q m t ↔ Q (some (a, m)) t := by
  simp [wp, Prog.steps, Prog.result, pure, Monitor.Along]

@[simp]
theorem wp_abort : wp M C Prog.abort Q m t ↔ Q none t := by
  simp [wp, Prog.steps, Prog.result, Prog.abort, Monitor.Along]

@[simp]
theorem wp_emit {e : ε} {Q : Option (Unit × μ) → τ → Prop} :
    wp M C (Prog.emit e) Q m t ↔ C (M.step t e) ∧ Q (some ((), m)) (M.step t e) := by
  simp [wp, Prog.steps, Prog.result, Prog.emit, Monitor.Along]

@[simp]
theorem wp_store {Q : Option (σ × μ) → τ → Prop} :
    wp M C Prog.store Q m t ↔ Q (some (M.view t, m)) t := by
  simp [wp, Prog.steps, Prog.result, Prog.store, Monitor.Along]

@[simp]
theorem wp_get {Q : Option (μ × μ) → τ → Prop} :
    wp M C Prog.get Q m t ↔ Q (some (m, m)) t := by
  simp [wp, Prog.steps, Prog.result, Prog.get, Monitor.Along]

@[simp]
theorem wp_modify {f : μ → μ} {Q : Option (Unit × μ) → τ → Prop} :
    wp M C (Prog.modify f) Q m t ↔ Q (some ((), f m)) t := by
  simp [wp, Prog.steps, Prog.result, Prog.modify, Monitor.Along]

/-- What has to hold after the first of two programs: the precondition of the second one, or the
postcondition if the process has died. -/
def wpThen (M : Monitor apply τ) (C : τ → Prop) (f : α → Prog apply μ β)
    (Q : Option (β × μ) → τ → Prop) : Option (α × μ) → τ → Prop
  | none, t => Q none t
  | some (a, m), t => wp M C (f a) Q m t

@[simp] theorem wpThen_some {f : α → Prog apply μ β} {Q : Option (β × μ) → τ → Prop} {a : α} :
    wpThen M C f Q (some (a, m)) t = wp M C (f a) Q m t := rfl

@[simp] theorem wpThen_none {f : α → Prog apply μ β} {Q : Option (β × μ) → τ → Prop} :
    wpThen M C f Q none t = Q none t := rfl

@[simp]
theorem wp_bind {x : Prog apply μ α} {f : α → Prog apply μ β} {Q : Option (β × μ) → τ → Prop} :
    wp M C (x >>= f) Q m t ↔ wp M C x (wpThen M C f Q) m t := by
  simp only [wp, Prog.steps, Prog.result, bind, Prog.bind]
  rcases h : x m (M.view t) with ⟨es, _ | ⟨a, m'⟩⟩
  · simp
  · simp only [wpThen_some, wp, Prog.steps, Prog.result, M.view_foldl, Monitor.along_append,
      List.foldl_append, and_assoc]

@[simp]
theorem wp_map {x : Prog apply μ α} {f : α → β} {Q : Option (β × μ) → τ → Prop} :
    wp M C (f <$> x) Q m t ↔ wp M C x (wpThen M C (fun a => pure (f a)) Q) m t := by
  rw [map_eq_pure_bind, wp_bind]

theorem wp_mono {x : Prog apply μ α} {Q' : Option (α × μ) → τ → Prop} (h : wp M C x Q m t)
    (hQ : ∀ r t, Q r t → Q' r t) : wp M C x Q' m t :=
  ⟨h.1, hQ _ _ h.2⟩

theorem wp_of_steps_eq_nil {x : Prog apply μ α} (h : x.steps m (M.view t) = [])
    (hQ : Q (x.result m (M.view t)) t) : wp M C x Q m t := by
  simp only [wp, h]
  exact ⟨trivial, hQ⟩

theorem wp_crash_mono {D : τ → Prop} {x : Prog apply μ α} (hC : ∀ t, C t → D t)
    (h : wp M C x Q m t) : wp M D x Q m t :=
  ⟨h.1.mono hC, h.2⟩

/-! ## Programs that only take certain steps -/

/-- Every step of the program, from any variables and any store, satisfies `P`, and it keeps those
variables that `frame` shows. -/
def Prog.Confined (P : ε → Prop) (frame : μ → γ) (x : Prog apply μ α) : Prop := ∀ m s,
  (∀ e ∈ x.steps m s, P e) ∧ ∀ a m', x.result m s = some (a, m') → frame m' = frame m

namespace Prog.Confined

variable {P : ε → Prop} {frame : μ → γ}

theorem pure {a : α} : Confined P frame (pure a : Prog apply μ α) := by
  intro m s
  refine ⟨fun e he => (List.not_mem_nil he).elim, ?_⟩
  rintro a' m' ⟨⟩
  rfl

theorem abort : Confined P frame (Prog.abort : Prog apply μ α) := by
  intro m s
  refine ⟨fun e he => (List.not_mem_nil he).elim, ?_⟩
  rintro a' m' ⟨⟩

theorem store : Confined P frame (Prog.store : Prog apply μ σ) := by
  intro m s
  refine ⟨fun e he => (List.not_mem_nil he).elim, ?_⟩
  rintro a' m' ⟨⟩
  rfl

theorem get : Confined P frame (Prog.get : Prog apply μ μ) := by
  intro m s
  refine ⟨fun e he => (List.not_mem_nil he).elim, ?_⟩
  rintro a' m' ⟨⟩
  rfl

theorem modify {f : μ → μ} (h : ∀ m, frame (f m) = frame m) :
    Confined P frame (Prog.modify f : Prog apply μ Unit) := by
  intro m s
  refine ⟨fun e he => (List.not_mem_nil he).elim, ?_⟩
  rintro a' m' ⟨⟩
  exact h m

theorem emit {e : ε} (h : P e) : Confined P frame (Prog.emit e : Prog apply μ Unit) := by
  intro m s
  refine ⟨fun e' he => ?_, ?_⟩
  · cases List.mem_singleton.mp he
    exact h
  · rintro a' m' ⟨⟩
    rfl

theorem bind {x : Prog apply μ α} {f : α → Prog apply μ β} (hx : x.Confined P frame)
    (hf : ∀ a, (f a).Confined P frame) : (x >>= f).Confined P frame := by
  intro m s
  have hx := hx m s
  simp only [Prog.steps, Prog.result, Bind.bind, Prog.bind] at hx ⊢
  rcases h : x m s with ⟨es, _ | ⟨a, m'⟩⟩ <;> rw [h] at hx
  · exact ⟨hx.1, by rintro a' m' ⟨⟩⟩
  · have hf := hf a m' (es.foldl apply s)
    refine ⟨fun e he => ?_, fun a' m'' hr => (hf.2 a' m'' hr).trans (hx.2 a m' rfl)⟩
    rcases List.mem_append.mp he with he | he
    · exact hx.1 e he
    · exact hf.1 e he

theorem mono {x : Prog apply μ α} {P' : ε → Prop} (h : x.Confined P frame) (hP : ∀ e, P e → P' e) :
    x.Confined P' frame :=
  fun m s => ⟨fun e he => hP e ((h m s).1 e he), (h m s).2⟩

theorem comp {x : Prog apply μ α} (h : x.Confined P frame) (g : γ → δ) :
    x.Confined P (g ∘ frame) :=
  fun m s => ⟨(h m s).1, fun a m' hr => congrArg g ((h m s).2 a m' hr)⟩

theorem steps_eq_nil {x : Prog apply μ α} (h : x.Confined (fun _ => False) frame) :
    x.steps m s = [] :=
  List.eq_nil_iff_forall_not_mem.mpr (h m s).1

/-- What every step of the program keeps holds at every crash and at the end. -/
theorem wp {x : Prog apply μ α} (h : x.Confined P frame)
    (hC : ∀ t e, P e → C t → C (M.step t e)) (h₀ : C t)
    (hQ : ∀ r t, C t → (∀ a m', r = some (a, m') → frame m' = frame m) → Q r t) :
    wp M C x Q m t := by
  have key : ∀ (es : List ε) (t : τ), (∀ e ∈ es, P e) → C t →
      M.Along C es t ∧ C (es.foldl M.step t) := by
    intro es
    induction es with
    | nil => exact fun t _ h₀ => ⟨trivial, h₀⟩
    | cons e es ih =>
      intro t hes h₀
      have h₁ := hC t e (hes e List.mem_cons_self) h₀
      have ⟨ha, hc⟩ := ih _ (fun e he => hes e (List.mem_cons_of_mem _ he)) h₁
      exact ⟨⟨h₁, ha⟩, hc⟩
  have ⟨ha, hc⟩ := key _ t (h m (M.view t)).1 h₀
  exact ⟨ha, hQ _ _ hc (h m (M.view t)).2⟩

end Prog.Confined

/-! ## Programs that keep an invariant -/

theorem wp_and {D : τ → Prop} {x : Prog apply μ α} {Q' : Option (α × μ) → τ → Prop}
    (h : wp M C x Q m t) (h' : wp M D x Q' m t) :
    wp M (fun t => C t ∧ D t) x (fun r t => Q r t ∧ Q' r t) m t := by
  have along : ∀ (es : List ε) (t : τ), M.Along C es t → M.Along D es t →
      M.Along (fun t => C t ∧ D t) es t := by
    intro es
    induction es with
    | nil => exact fun _ _ _ => trivial
    | cons e es ih => exact fun t hc hd => ⟨⟨hc.1, hd.1⟩, ih _ hc.2 hd.2⟩
  exact ⟨along _ t h.1 h'.1, h.2, h'.2⟩

/-- From variables in `I` and a state in `S`, every step of the program leads to a state in `S`, and
the program ends with variables in `I`. -/
def Prog.Keeps (M : Monitor apply τ) (I : μ → Prop) (S : τ → Prop) (x : Prog apply μ α) : Prop :=
  ∀ m t, I m → S t → wp M S x (fun r t' => S t' ∧ ∀ a m', r = some (a, m') → I m') m t

namespace Prog.Keeps

variable {I : μ → Prop} {S : τ → Prop}

theorem pure {a : α} : Keeps M I S (pure a : Prog apply μ α) := by
  intro m t hm ht
  rw [wp_pure]
  refine ⟨ht, ?_⟩
  rintro a' m' ⟨⟩
  exact hm

theorem abort : Keeps M I S (Prog.abort : Prog apply μ α) := by
  intro m t _ ht
  rw [wp_abort]
  refine ⟨ht, ?_⟩
  rintro a' m' ⟨⟩

theorem modify {f : μ → μ} (h : ∀ m, I m → I (f m)) :
    Keeps M I S (Prog.modify f : Prog apply μ Unit) := by
  intro m t hm ht
  rw [wp_modify]
  refine ⟨ht, ?_⟩
  rintro a' m' ⟨⟩
  exact h m hm

theorem emit {e : ε} (h : ∀ t, S t → S (M.step t e)) :
    Keeps M I S (Prog.emit e : Prog apply μ Unit) := by
  intro m t hm ht
  rw [wp_emit]
  refine ⟨h t ht, h t ht, ?_⟩
  rintro a' m' ⟨⟩
  exact hm

theorem bind {x : Prog apply μ α} {f : α → Prog apply μ β} (hx : x.Keeps M I S)
    (hf : ∀ a, (f a).Keeps M I S) : (x >>= f).Keeps M I S := by
  intro m t hm ht
  rw [wp_bind]
  refine wp_mono (hx m t hm ht) fun r t' ⟨ht', hr⟩ => ?_
  rcases r with _ | ⟨a, m'⟩
  · exact ⟨ht', by rintro a m' ⟨⟩⟩
  · exact hf a m' t' (hr a m' rfl) ht'

theorem get_bind {f : μ → Prog apply μ α} (h : ∀ m, I m → (f m).Keeps M I S) :
    (Prog.get >>= f).Keeps M I S := by
  intro m t hm ht
  rw [wp_bind, wp_get]
  exact h m hm m t hm ht

theorem store_bind {f : σ → Prog apply μ α} (h : ∀ s, (f s).Keeps M I S) :
    (Prog.store >>= f).Keeps M I S := by
  intro m t hm ht
  rw [wp_bind, wp_store]
  exact h _ m t hm ht

theorem wp {x : Prog apply μ α} (h : x.Keeps M I S) (hm : I m) (ht : S t)
    (hQ : ∀ r t', S t' → (∀ a m', r = some (a, m') → I m') → Q r t') :
    wp M (fun _ => True) x Q m t :=
  wp_crash_mono (fun _ _ => trivial) (wp_mono (h m t hm ht) fun r t' hr => hQ r t' hr.1 hr.2)

end Prog.Keeps

/-! ## Adequacy -/

theorem wp_crash {x : Prog apply μ α} (h : wp M C x Q m t) (h₀ : C t) (k : Nat) :
    C (((x.steps m (M.view t)).take k).foldl M.step t) :=
  h.1.take h₀ k

theorem wp_result {x : Prog apply μ α} (h : wp M C x Q m t) :
    Q (x.result m (M.view t)) ((x.steps m (M.view t)).foldl M.step t) :=
  h.2

end

end BootableRecovery
