import BootableRecovery.Theory.Durable

/-!
# Two runs side by side

What a run does to the store is the sequence of the effects of its steps; what the steps log beside
that does not count. `Prog.Alike R R'` relates two programs: from one store, and from variables that
`R` relates, they have the same effects and the same result, and leave variables that `R'` relates.
-/

namespace BootableRecovery

variable {σ ε : Type} {apply : σ → ε → σ} {μ α β : Type}

/-- The effects of the steps of a run. -/
def Prog.effects (x : Prog apply μ α) (m : μ) (s : σ) : List (σ → σ) :=
  (x.steps m s).map fun e s => apply s e

/-- What can be seen of a run: its result, and the effects of its steps. -/
def Prog.outcome (x : Prog apply μ α) (m : μ) (s : σ) : Option α × List (σ → σ) :=
  ((x.result m s).map Prod.fst, x.effects m s)

theorem foldl_apply (steps : List ε) (s : σ) :
    steps.foldl apply s = (steps.map fun e s => apply s e).foldl (fun s f => f s) s := by
  rw [List.foldl_map]

/-- From variables that `R` relates the two programs do the same, and leave variables that `R'`
relates. -/
def Prog.Alike (R R' : μ → μ → Prop) (x y : Prog apply μ α) : Prop := ∀ m n s, R m n →
  x.effects m s = y.effects n s ∧
    Option.Rel (fun r r' => r.1 = r'.1 ∧ R' r.2 r'.2) (x.result m s) (y.result n s)

namespace Prog.Alike

variable {R R' R'' : μ → μ → Prop} {x y : Prog apply μ α}

theorem pure {a : α} : Alike R R (pure a : Prog apply μ α) (pure a) :=
  fun _ _ _ h => ⟨rfl, .some ⟨rfl, h⟩⟩

theorem abort : Alike R R' (Prog.abort : Prog apply μ α) Prog.abort := fun _ _ _ _ => ⟨rfl, .none⟩

theorem modify {f g : μ → μ} (h : ∀ m n, R m n → R' (f m) (g n)) :
    Alike R R' (Prog.modify f : Prog apply μ Unit) (Prog.modify g) :=
  fun m n _ hR => ⟨rfl, .some ⟨rfl, h m n hR⟩⟩

theorem emit {e e' : ε} (h : ∀ s, apply s e = apply s e') :
    Alike R R (Prog.emit e : Prog apply μ Unit) (Prog.emit e') :=
  fun _ _ _ hR => ⟨congrArg (fun f => [f]) (funext h), .some ⟨rfl, hR⟩⟩

theorem bind {f g : α → Prog apply μ β} (hx : Alike R R' x y) (hf : ∀ a, Alike R' R'' (f a) (g a)) :
    Alike R R'' (x >>= f) (y >>= g) := by
  intro m n s hR
  have ⟨heffects, hresult⟩ := hx m n s hR
  simp only [effects, steps, result, Bind.bind, Prog.bind] at heffects hresult ⊢
  rcases hxm : x m s with ⟨es, _ | ⟨a, m'⟩⟩ <;> rcases hyn : y n s with ⟨fs, _ | ⟨b, n'⟩⟩ <;>
    rw [hxm, hyn] at heffects hresult
  · exact ⟨heffects, .none⟩
  · cases hresult
  · cases hresult
  · cases hresult with
    | some h =>
      obtain ⟨rfl, hR'⟩ := h
      have hstore :
          es.foldl apply s = fs.foldl apply s := by rw [foldl_apply, heffects, ← foldl_apply]
      obtain ⟨hes, hr⟩ := hf a m' n' (es.foldl apply s) hR'
      simp only [effects, steps, result] at hes hr
      dsimp only
      rw [← hstore, List.map_append, List.map_append, heffects, hes]
      exact ⟨rfl, hr⟩

theorem get_bind {f g : μ → Prog apply μ α} (h : ∀ m n, R m n → Alike R R' (f m) (g n)) :
    Alike R R' (Prog.get >>= f) (Prog.get >>= g) :=
  fun m n s hR => h m n hR m n s hR

theorem store_bind {f g : σ → Prog apply μ α} (h : ∀ s, Alike R R' (f s) (g s)) :
    Alike R R' (Prog.store >>= f) (Prog.store >>= g) :=
  fun m n s hR => h s m n s hR

theorem mono {P P' : μ → μ → Prop} (h : Alike R R' x y) (hP : ∀ m n, P m n → R m n)
    (hP' : ∀ m n, R' m n → P' m n) : Alike P P' x y := by
  intro m n s hm
  obtain ⟨heffects, hresult⟩ := h m n s (hP m n hm)
  refine ⟨heffects, ?_⟩
  generalize x.result m s = r at hresult
  generalize y.result n s = r' at hresult
  cases hresult with
  | none => exact .none
  | some hr => exact .some ⟨hr.1, hP' _ _ hr.2⟩

theorem outcome_eq (h : Alike R R' x y) {m n : μ} (hR : R m n) (s : σ) :
    x.outcome m s = y.outcome n s := by
  obtain ⟨heffects, hresult⟩ := h m n s hR
  refine Prod.ext ?_ heffects
  unfold outcome
  generalize x.result m s = r at hresult
  generalize y.result n s = r' at hresult
  cases hresult with
  | none => rfl
  | some hr => exact congrArg some hr.1

end Prog.Alike

end BootableRecovery
