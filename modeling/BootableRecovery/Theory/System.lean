import Mathlib.Logic.Relation
import Mathlib.Tactic.Choose

/-!
# Transition systems

A system has initial states and steps; a state is reachable if a run of steps leads to it from an
initial state. Safety of a system is proved with an inductive invariant (`System.Inductive.reach`).
-/

namespace BootableRecovery

/-- A transition system on the states `σ`. -/
structure System (σ : Type) where
  init : σ → Prop
  step : σ → σ → Prop

namespace System

variable {σ : Type} (S : System σ)

/-- The states that a run reaches. -/
def Reach (s : σ) : Prop := ∃ s₀, S.init s₀ ∧ Relation.ReflTransGen S.step s₀ s

/-- An inductive invariant: it holds initially and every step keeps it. -/
structure Inductive (I : σ → Prop) : Prop where
  init : ∀ s, S.init s → I s
  step : ∀ s s', I s → S.step s s' → I s'

variable {S}

theorem Reach.init (h : S.init s) : S.Reach s := ⟨s, h, .refl⟩

theorem Reach.step (h : S.Reach s) (hs : S.step s s') : S.Reach s' :=
  let ⟨s₀, h₀, hr⟩ := h
  ⟨s₀, h₀, hr.tail hs⟩

theorem Inductive.reach (h : S.Inductive I) (hr : S.Reach s) : I s := by
  obtain ⟨s₀, h₀, hr⟩ := hr
  induction hr with
  | refl => exact h.init _ h₀
  | tail _ hs ih => exact h.step _ _ ih hs

end System

/-! ## Runs without end -/

variable {σ : Type} {R : σ → σ → Prop} {I : σ → Prop} {s : σ}

/-- Some run from `s` never ends. -/
def Diverges (R : σ → σ → Prop) (s : σ) : Prop :=
  ∃ run : Nat → σ, run 0 = s ∧ ∀ n, R (run n) (run (n + 1))

theorem Diverges.of_step (h : ∀ s, I s → ∃ s', R s s' ∧ I s') (h₀ : I s) : Diverges R s := by
  choose next hnext using h
  let run : Nat → { s // I s } :=
    fun n => n.rec ⟨s, h₀⟩ fun _ t => ⟨next t.1 t.2, (hnext t.1 t.2).2⟩
  exact ⟨fun n => (run n).1, rfl, fun n => (hnext (run n).1 (run n).2).1⟩

theorem not_diverges_of_rank (rank : σ → Nat) (h : ∀ s s', I s → R s s' → I s' ∧ rank s' < rank s)
    (h₀ : I s) : ¬Diverges R s := by
  rintro ⟨run, rfl, hrun⟩
  have key : ∀ n, I (run n) ∧ rank (run n) + n ≤ rank (run 0) := by
    intro n
    induction n with
    | zero => exact ⟨h₀, Nat.le_refl _⟩
    | succ n ih =>
      obtain ⟨hI, hlt⟩ := h _ _ ih.1 (hrun n)
      exact ⟨hI, by omega⟩
  have := (key (rank (run 0) + 1)).2
  omega

/-! ## What comes in every run -/

/-- Every run from a state comes to one with `P`, and does not stop before. -/
inductive Inevitable (R : σ → σ → Prop) (P : σ → Prop) : σ → Prop
  | now {t : σ} : P t → Inevitable R P t
  | next {t : σ} : (∃ s, R t s) → (∀ s, R t s → Inevitable R P s) → Inevitable R P t

/-- There is a next step as long as `P` does not hold, and each step keeps `I` and lowers the
rank. -/
theorem Inevitable.of_rank {P : σ → Prop} (rank : σ → Nat)
    (h : ∀ s s', I s → ¬P s → R s s' → I s' ∧ rank s' < rank s)
    (hgo : ∀ s, I s → (∃ s', R s s') ∨ P s) (h₀ : I s) : Inevitable R P s := by
  have key : ∀ n s, rank s ≤ n → I s → Inevitable R P s := by
    intro n
    induction n with
    | zero =>
      intro s hn hI
      by_cases hP : P s
      · exact .now hP
      · obtain ⟨s', hs'⟩ := (hgo s hI).resolve_right hP
        have := (h s s' hI hP hs').2
        omega
    | succ n ih =>
      intro s hn hI
      by_cases hP : P s
      · exact .now hP
      · refine .next ((hgo s hI).resolve_right hP) fun s' hs' => ?_
        obtain ⟨hI', hlt⟩ := h s s' hI hP hs'
        exact ih s' (by omega) hI'
  exact key (rank s) s (Nat.le_refl _) h₀

end BootableRecovery
