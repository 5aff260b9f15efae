import BootableRecovery.Edify.Layout

/-!
# Where expressions are in their script

The locations of a node are those of its text: from there to there the script is a script of its
own, and its tree is that node (`Parses.extent`). So what a failed assertion quotes is the text of
its argument.
-/

namespace BootableRecovery.Edify

open EvalRules

variable {ι W : Type}

/-- A node of an expression, with what is below it. -/
inductive Within (x : Expr ι) : Expr ι → Prop
  | self : Within x x
  | arg : a ∈ e.args → Within x a → Within x e

/-- Some of the tokens are those of the expression, and it is located where they are. -/
def Covers (ts : List Lexeme) (x : Expr ι) : Prop :=
  ∃ us r l e, us <:+: ts ∧ Derives r l us e ∧ relocate e (startOf us) (stopOf us) = x

theorem Covers.mono {ts ts' : List Lexeme} {x : Expr ι} (h : Covers ts x) (hts : ts <:+: ts') :
    Covers ts' x :=
  let ⟨us, r, l, e, hus, he⟩ := h
  ⟨us, r, l, e, hus.trans hts, he⟩

theorem Derives.covers_self {r l : Nat} {ts : List Lexeme} {e : Expr ι} (h : Derives r l ts e)
    (he : relocate e (startOf ts) (stopOf ts) = e) : Covers ts e :=
  ⟨ts, r, l, e, List.infix_rfl, h, he⟩

theorem Covers.node {ts : List Lexeme} {n : Node ι} {args : List (Expr ι)} {x : Expr ι}
    (hself : Covers ts (.node n args)) (hargs : ∀ a ∈ args, ∀ y, Within y a → Covers ts y)
    (hx : Within x (.node n args)) : Covers ts x := by
  cases hx with
  | self => exact hself
  | arg ha hx => exact hargs _ ha x hx

mutual

theorem Derives.covers {r l : Nat} {ts : List Lexeme} {e : Expr ι} :
    Derives r l ts e → ∀ x, Within x e → Covers ts x
  | .string ht, _, hx => .node ((Derives.string ht).covers_self rfl) nofun hx
  | @Derives.paren _ _ _ ts e a b ha hb h, x, hx => by
    refine .node ((Derives.paren ha hb h).covers_self ?_) (fun y hy x hx => ?_) hx
    · rw [stopOf_concat]
      rfl
    · exact (h.covers x (.arg hy hx)).mono ⟨[a], [b], rfl⟩
  | @Derives.semicolon _ _ _ ts e t ht h, x, hx => by
    refine .node ⟨ts, _, _, e, ⟨[], [t], rfl⟩, h, rfl⟩ (fun y hy x hx => ?_) hx
    exact (h.covers x (.arg hy hx)).mono ⟨[], [t], rfl⟩
  | @Derives.binary _ _ _ _ _ ts _ _ _ ts' _ t hfn h h' hp hp', x, hx =>
    .node ((Derives.binary hfn h h' hp hp').covers_self rfl)
      (List.forall_mem_cons.mpr ⟨fun y hy => (h.covers y hy).mono ⟨[], t :: ts', by simp⟩,
        List.forall_mem_singleton.mpr fun y hy =>
        (h'.covers y hy).mono ⟨ts ++ [t], [], by simp⟩⟩) hx
  | .not (t := t) ht h hl, x, hx =>
    .node ((Derives.not ht h hl).covers_self rfl)
      (List.forall_mem_singleton.mpr fun y hy => (h.covers y hy).mono ⟨[t], [], by simp⟩) hx
  | @Derives.ifThen _ _ _ ts _ _ _ ts' _ a b c ha hb hc h h', x, hx =>
    .node ((Derives.ifThen ha hb hc h h').covers_self rfl)
      (List.forall_mem_cons.mpr ⟨fun y hy => (h.covers y hy).mono ⟨[a], b :: ts' ++ [c], by simp⟩,
        List.forall_mem_singleton.mpr fun y hy =>
        (h'.covers y hy).mono ⟨a :: ts ++ [b], [c], by simp⟩⟩) hx
  | @Derives.ifThenElse _ _ _ ts _ _ _ ts' _ _ _ ts'' _ a b c d ha hb hc hd h h' h'', x, hx =>
    .node ((Derives.ifThenElse ha hb hc hd h h' h'').covers_self rfl)
      (List.forall_mem_cons.mpr ⟨fun y hy =>
        (h.covers y hy).mono ⟨[a], b :: ts' ++ c :: ts'' ++ [d], by simp⟩,
        List.forall_mem_cons.mpr ⟨fun y hy =>
          (h'.covers y hy).mono ⟨a :: ts ++ [b], c :: ts'' ++ [d], by simp⟩,
          List.forall_mem_singleton.mpr fun y hy =>
            (h''.covers y hy).mono ⟨a :: ts ++ b :: ts' ++ [c], [d], by simp⟩⟩⟩) hx
  | @Derives.call _ _ _ ts _ t a b ht ha hb hfn h, x, hx => by
    refine .node ((Derives.call ht ha hb hfn h).covers_self ?_) (fun y hy x hx => ?_) hx
    · rw [stopOf_concat]
      rfl
    · exact (h.covers y hy x hx).mono ⟨[t, a], [b], by simp⟩

theorem DerivesArgs.covers {ts : List Lexeme} {es : List (Expr ι)} :
    DerivesArgs ts es → ∀ e ∈ es, ∀ x, Within x e → Covers ts x
  | .nil => nofun
  | .single h => List.forall_mem_singleton.mpr h.covers
  | @DerivesArgs.snoc _ ts _ _ _ ts' _ t ht h h' => List.forall_mem_append.mpr
    ⟨fun e he x hx => (h.covers e he x hx).mono ⟨[], t :: ts', by simp⟩,
      List.forall_mem_singleton.mpr fun x hx => (h'.covers x hx).mono ⟨ts ++ [t], [], by simp⟩⟩

end

/-! ## The text of a node -/

mutual

theorem Derives.ne_bad {r l : Nat} {ts : List Lexeme} {e : Expr ι} :
    Derives r l ts e → ∀ t ∈ ts, t.token ≠ .bad
  | .string ht => by simp [ht]
  | .paren ha hb h => by simpa [ha, hb, or_imp, forall_and] using h.ne_bad
  | .semicolon ht h => by simpa [ht, or_imp, forall_and] using h.ne_bad
  | .binary (t := t) hfn h h' _ _ => by
    have ht : t.token ≠ .bad := fun hbad => by rw [hbad] at hfn; cases hfn
    simpa [ht, or_imp, forall_and] using ⟨h.ne_bad, h'.ne_bad⟩
  | .not ht h _ => by simpa [ht] using h.ne_bad
  | .ifThen ha hb hc h h' => by simpa [ha, hb, hc, or_imp, forall_and] using ⟨h.ne_bad, h'.ne_bad⟩
  | .ifThenElse ha hb hc hd h h' h'' => by
    simpa [ha, hb, hc, hd, or_imp, forall_and] using ⟨h.ne_bad, h'.ne_bad, h''.ne_bad⟩
  | .call ht ha hb _ h => by simpa [ht, ha, hb, or_imp, forall_and] using h.ne_bad

theorem DerivesArgs.ne_bad {ts : List Lexeme} {es : List (Expr ι)} :
    DerivesArgs ts es → ∀ t ∈ ts, t.token ≠ .bad
  | .nil => nofun
  | .single h => h.ne_bad
  | .snoc ht h h' => by simpa [ht, or_imp, forall_and] using ⟨h.ne_bad, h'.ne_bad⟩

end

theorem lex_eq_tokensFrom (pos : Int) (mode : Mode) (text : Text) :
    lex pos mode text = tokensFrom pos mode (cstr text) :=
  rfl

theorem substr_mid (front mid back : Text) :
    substr (front ++ mid ++ back) front.length mid.length = some mid := by
  have hle :
      ¬((front.length : Int) < 0 ∨ ((front ++ mid ++ back).length : Int) < front.length) := by
    simp only [List.length_append]
    omega
  rw [substr, if_neg hle, if_neg (Int.not_lt.mpr (Int.natCast_nonneg _))]
  simp

/-- The text at the location of a node is a script, and its tree is the node. -/
theorem Parses.extent {pos : Int} {text : Text} {e x : Expr ι} (h : Parses pos .initial text e)
    (hx : Within x e) :
    ∃ t e', substr text (x.label.start - pos) (x.label.stop - x.label.start) = some t ∧
      Parses x.label.start .initial t e' ∧ relocate e' x.label.start x.label.stop = x := by
  obtain ⟨r, l, hd⟩ := h
  obtain ⟨us, r', l', e', ⟨ts, vs, hts⟩, hus, rfl⟩ := hd.covers x hx
  have hlay := layout_tokensFrom hd.ne_bad
  rw [← lex_eq_tokensFrom, ← hts] at hlay
  obtain ⟨front, mid, back, htext, hstart, hstop, hmid⟩ := hlay.slice hus.ne_nil
  have hnul : cstr mid = mid := by
    refine cstr_eq_self fun hmem => ?_
    have hall : ∀ c ∈ cstr text, c ≠ '\x00' := fun c hc => by simpa using List.mem_takeWhile_imp hc
    exact hall _ (by rw [htext]; simp [hmem]) rfl
  refine ⟨mid, e', ?_, ⟨r', l', ?_⟩, rfl⟩
  · have hsplit : text = front ++ mid ++ (back ++ text.dropWhile (· ≠ '\x00')) := by
      rw [← List.append_assoc, ← htext]
      exact List.takeWhile_append_dropWhile.symm
    rw [hsplit]
    convert substr_mid front mid _ using 2
    · exact sub_eq_of_eq_add' hstart
    · exact sub_eq_of_eq_add' hstop
  · change Derives r' l' (lex (startOf us) .initial mid) e'
    rw [lex_eq_tokensFrom, hnul, hmid.scans]
    exact hus

/-- The comparison in the script `assert( (a==b))`. -/
def comparison : Expr Unit :=
  .node ⟨.equality, "(operator)".toList, 8, 14⟩ [.node ⟨.literal, ['a'], 9, 10⟩ [],
    .node ⟨.literal, ['b'], 12, 13⟩ []]

end BootableRecovery.Edify
