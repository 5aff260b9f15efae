import BootableRecovery.Updater.Loop

/-!
# Executions in a log

The marks cut the log of a run, or of several runs, into the executions of commands. `Running` is
the execution at the end of a log, `Executed` one that has returned without an error. A property of
all executions has to be shown only when a command returns (`AllExecuted.finished`).
-/

namespace BootableRecovery.BlockImg

/-- The command of line `i` was started after the steps `before` with the variables `params`, and
has taken the steps `body` since. -/
structure Running (log before : List Step) (i : Nat) (params : CommandParameters)
    (body : List Step) : Prop where
  storage : ∀ e ∈ body, e.IsStorage
  log_eq : log = before ++ .began i params :: body

/-- At some point of the log the command of line `i` has returned without an error. -/
def Executed (log before : List Step) (i : Nat) (params : CommandParameters) (body : List Step) :
    Prop :=
  ∃ log', Running log' before i params body ∧ log' ++ [.finished i] <+: log

/-- The addresses and bytes that a step writes. -/
def Step.written : Step → List (Nat × UInt8)
  | .write b v => (List.range' (b * BLOCKSIZE) BLOCKSIZE).zip v.bytes
  | .writeBytes b off data => (List.range' (b * BLOCKSIZE + off) data.length).zip data
  | _ => []

/-- The addresses and bytes that some steps write, in order. -/
def written (body : List Step) : List (Nat × UInt8) := body.flatMap Step.written

theorem Step.IsStorage.ne_began {e : Step} (h : e.IsStorage) {i : Nat}
    {params : CommandParameters} :
    e ≠ .began i params := by
  rintro rfl
  cases h

namespace Running

variable {log before before' body body' : List Step} {i i' : Nat}
    {params params' : CommandParameters}

theorem start (log : List Step) (i : Nat) (params : CommandParameters) :
    Running (log ++ [.began i params]) log i params [] :=
  ⟨by simp, by simp⟩

theorem snoc (h : Running log before i params body) {e : Step} (he : e.IsStorage) :
    Running (log ++ [e]) before i params (body ++ [e]) := by
  refine ⟨fun e' he' => ?_, by simp [h.log_eq]⟩
  rcases List.mem_append.mp he' with he' | he'
  · exact h.storage e' he'
  · rwa [List.mem_singleton.mp he']

theorem append (h : Running log before i params body) {steps : List Step}
    (hs : ∀ e ∈ steps, e.IsStorage) : Running (log ++ steps) before i params (body ++ steps) := by
  refine ⟨fun e he => ?_, by simp [h.log_eq]⟩
  rcases List.mem_append.mp he with he | he
  · exact h.storage e he
  · exact hs e he

theorem unique (h : Running log before i params body) (h' : Running log before' i' params' body') :
    before = before' ∧ i = i' ∧ params = params' ∧ body = body' := by
  have heq := h.log_eq.symm.trans h'.log_eq
  rcases List.append_eq_append_iff.mp heq with ⟨mid, hb, hm⟩ | ⟨mid, hb, hm⟩
  · cases mid with
    | nil =>
      obtain ⟨hbegan, hbody⟩ := List.cons.inj hm
      cases hbegan
      exact ⟨by simpa using hb.symm, rfl, rfl, hbody⟩
    | cons e mid =>
      obtain ⟨-, hbody⟩ := List.cons.inj hm
      have hmem : Step.began i' params' ∈ body := by simp [hbody]
      exact absurd rfl (h.storage _ hmem).ne_began
  · cases mid with
    | nil =>
      obtain ⟨hbegan, hbody⟩ := List.cons.inj hm
      cases hbegan
      exact ⟨by simpa using hb, rfl, rfl, hbody.symm⟩
    | cons e mid =>
      obtain ⟨-, hbody⟩ := List.cons.inj hm
      have hmem : Step.began i params ∈ body' := by simp [hbody]
      exact absurd rfl (h'.storage _ hmem).ne_began

end Running

theorem Executed.mono {log log' before body : List Step} {i : Nat} {params : CommandParameters}
    (h : Executed log before i params body) (hpre : log <+: log') :
    Executed log' before i params body := by
  obtain ⟨log₀, hr, hlog⟩ := h
  exact ⟨log₀, hr, hlog.trans hpre⟩

theorem Executed.of_snoc {log before body : List Step} {e : Step} {i : Nat}
    {params : CommandParameters} (h : Executed (log ++ [e]) before i params body) :
    Executed log before i params body ∨ e = .finished i ∧ Running log before i params body := by
  obtain ⟨log', hr, hpre⟩ := h
  rcases List.prefix_concat_iff.mp hpre with heq | hpre
  · obtain ⟨rfl, he⟩ := List.append_inj' heq rfl
    exact .inr ⟨by simpa using he.symm, hr⟩
  · exact .inl ⟨log', hr, hpre⟩

/-- `G` holds of every execution in the log. -/
def AllExecuted (G : List Step → Nat → CommandParameters → List Step → Prop) (log : List Step) :
    Prop :=
  ∀ before i params body, Executed log before i params body → G before i params body

namespace AllExecuted

variable {G : List Step → Nat → CommandParameters → List Step → Prop} {log before body : List Step}

theorem nil : AllExecuted G [] := by
  rintro before i params body ⟨log', -, hpre⟩
  simp at hpre

theorem snoc (h : AllExecuted G log) {e : Step} (he : ∀ i, e ≠ .finished i) :
    AllExecuted G (log ++ [e]) := by
  intro before i params body hx
  rcases hx.of_snoc with hx | ⟨rfl, -⟩
  · exact h _ _ _ _ hx
  · exact absurd rfl (he i)

theorem storage (h : AllExecuted G log) {e : Step} (he : e.IsStorage) :
    AllExecuted G (log ++ [e]) := by
  refine h.snoc fun i => ?_
  rintro rfl
  cases he

theorem finished (h : AllExecuted G log) {i : Nat} {params : CommandParameters}
    (hr : Running log before i params body) (hG : G before i params body) :
    AllExecuted G (log ++ [.finished i]) := by
  intro before' i' params' body' hx
  rcases hx.of_snoc with hx | ⟨he, hr'⟩
  · exact h _ _ _ _ hx
  · obtain ⟨rfl, rfl, rfl, rfl⟩ := hr.unique hr'
    exact hG

end AllExecuted

section
variable {env : Env} {p : CommandParameters} {d : Disk} {log before body : List Step} {i : Nat}
variable {params : CommandParameters} {G : List Step → Nat → CommandParameters → List Step → Prop}

/-- A program without marks extends the execution at the end of the log. -/
theorem wp_running {x : M env α} {F : CommandParameters → γ} (hx : x.Confined Step.IsStorage F)
    (hr : Running log before i params body) (h : AllExecuted G log)
    {Q : Option (α × CommandParameters) → Disk × List Step → Prop}
    (hQ : ∀ r log' body', Running log' before i params body' → AllExecuted G log' →
      (∀ a p', r = some (a, p') → F p' = F p) → Q r (d, log')) :
    wp (Monitor.history (Disk.apply env)) (fun t => AllExecuted G t.2) x Q p (d, log) := by
  have hinv : ∀ (t : Disk × List Step) e, Step.IsStorage e →
      t.1 = d ∧ AllExecuted G t.2 ∧ (∃ body', Running t.2 before i params body') →
      t.1 = d ∧ AllExecuted G (t.2 ++ [e]) ∧
      ∃ body', Running (t.2 ++ [e]) before i params body' := by
    rintro t e he ⟨hd, hall, body', hr'⟩
    exact ⟨hd, hall.storage he, _, hr'.snoc he⟩
  refine wp_crash_mono (fun _ h => h.2.1) (hx.wp hinv ⟨rfl, h, body, hr⟩ fun r t ht hF => ?_)
  obtain ⟨d', log'⟩ := t
  obtain ⟨rfl, hall, body', hr'⟩ := ht
  exact hQ r log' body' hr' hall hF

theorem wp_between {x : M env α} {F : CommandParameters → γ} (hx : x.Confined Step.IsStorage F)
    (h : AllExecuted G log) {Q : Option (α × CommandParameters) → Disk × List Step → Prop}
    (hQ : ∀ r log', AllExecuted G log' → (∀ a p', r = some (a, p') → F p' = F p) →
      Q r (d, log')) :
    wp (Monitor.history (Disk.apply env)) (fun t => AllExecuted G t.2) x Q p (d, log) := by
  have hinv : ∀ (t : Disk × List Step) e, Step.IsStorage e → t.1 = d ∧ AllExecuted G t.2 →
      t.1 = d ∧ AllExecuted G (t.2 ++ [e]) := fun t e he ht => ⟨ht.1, ht.2.storage he⟩
  refine wp_crash_mono (fun _ h => h.2) (hx.wp hinv ⟨rfl, h⟩ fun r t ht hF => ?_)
  obtain ⟨d', log'⟩ := t
  obtain ⟨rfl, hall⟩ := ht
  exact hQ r log' hall hF

theorem wp_afterCommand_executed {command : Command} {saved : Int} (hw : p.canwrite = true)
    (hr : Running log before i params body) (h : AllExecuted G log) (hG : G before i params body)
    {Q : Option (Option Int × CommandParameters) → Disk × List Step → Prop}
    (hok : ∀ p' log', Faulted p p' → AllExecuted G log' → Q (some (some saved, p')) (d, log'))
    (hfail : ∀ p' log', AllExecuted G log' → Q (some (none, p')) (d, log')) :
    wp (Monitor.history (Disk.apply env)) (fun t => AllExecuted G t.2)
      (afterCommand env i command saved) Q p (d, log) := by
  have h₁ := h.finished hr hG
  have h₂ : AllExecuted G (log ++ [.finished i] ++ [.fsync]) := h₁.storage trivial
  exact wp_afterCommand (fun h => absurd (h.symm.trans hw) (by simp))
    (fun h => absurd (h.symm.trans hw) (by simp))
    fun _ => ⟨h₁, h₂, fun p' hp => hok p' _ hp h₂, fun _ p' _ => hfail p' _ h₁⟩

end

end BootableRecovery.BlockImg
