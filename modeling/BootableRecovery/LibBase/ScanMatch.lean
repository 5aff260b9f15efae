import BootableRecovery.LibBase.Scanf

/-!
# Texts of a format

`fscanf` returns the number of conversions, so it does not tell whether what stands behind the last
of them in the format was found. `matchFormat` reads a text that has the whole of a format. The two
agree on formats that end in a conversion (`runFormat_of_match`, `length_runFormat_lt`).
-/

namespace BootableRecovery

/-- The numbers of a text that starts with the whole of a format, and the rest. -/
def matchFormat : List Directive → Text → Option (List Int × Text)
  | [], s => some ([], s)
  | .space :: fmt, s => matchFormat fmt (s.dropWhile isSpace)
  | .literal _ :: _, [] => none
  | .literal c :: fmt, c' :: s => if c' = c then matchFormat fmt s else none
  | .char :: _, [] => none
  | .char :: fmt, c :: s => (matchFormat fmt s).map fun p => ((c.toNat : Int) :: p.1, p.2)
  | .number conv :: fmt, s => (scanNumber conv (s.dropWhile isSpace)).bind fun q =>
    (matchFormat fmt q.2).map fun p => (q.1 :: p.1, p.2)

def Directive.converts : Directive → Bool
  | .space | .literal _ => false
  | .char | .number _ => true

/-- The number of conversions of a format. -/
def conversions (fmt : List Directive) : Nat := fmt.countP Directive.converts

/-- The last directive is a conversion. -/
def EndsInConversion (fmt : List Directive) : Prop := fmt.getLast?.any Directive.converts = true

instance : Decidable (EndsInConversion fmt) := inferInstanceAs (Decidable (_ = true))

/-- The rest behind a format without conversions, as far as it was found, unless the text ended too
early. -/
def skipFormat (fmt : List Directive) (s : Text) : Option Text :=
  if (runFormat fmt [] s).ended then none else some (runFormat fmt [] s).rest

section
variable {fmt fmt' : List Directive} {values vs : List Int} {s t : Text}

theorem scanNumber_nil (conv : Conversion) : scanNumber conv [] = none := by
  cases conv <;> rfl

theorem matchFormat_append (fmt fmt' : List Directive) (s : Text) :
    matchFormat (fmt ++ fmt') s = (matchFormat fmt s).bind fun p =>
      (matchFormat fmt' p.2).map fun q => (p.1 ++ q.1, q.2) := by
  induction fmt generalizing s with
  | nil => simp [matchFormat]
  | cons d fmt ih =>
    cases d with
    | space => exact ih _
    | literal c =>
      cases s with
      | nil => rfl
      | cons c' s =>
        simp only [List.cons_append, matchFormat]
        split
        · exact ih s
        · rfl
    | char =>
      cases s with
      | nil => rfl
      | cons c s =>
        simp only [List.cons_append, matchFormat, ih]
        cases matchFormat fmt s <;> simp [Function.comp_def]
    | number conv =>
      simp only [List.cons_append, matchFormat, ih]
      cases scanNumber conv (s.dropWhile isSpace) with
      | none => rfl
      | some q => cases h : matchFormat fmt q.2 <;> simp [h, Function.comp_def]

theorem matchFormat_append_eq_some :
    matchFormat (fmt ++ fmt') s = some (vs, t) ↔
      ∃ us ws s', matchFormat fmt s = some (us, s') ∧ matchFormat fmt' s' = some (ws, t) ∧
      vs = us ++ ws := by
  rw [matchFormat_append]
  constructor
  · intro h
    obtain ⟨⟨us, s'⟩, hfst, h⟩ := Option.bind_eq_some_iff.mp h
    obtain ⟨⟨ws, t'⟩, hsnd, h⟩ := Option.map_eq_some_iff.mp h
    cases h
    exact ⟨us, ws, s', hfst, hsnd, rfl⟩
  · rintro ⟨us, ws, s', hfst, hsnd, rfl⟩
    rw [hfst, Option.bind_some, hsnd]
    rfl

theorem conversions_cons (d : Directive) (fmt : List Directive) :
    conversions (d :: fmt) = conversions fmt + if d.converts then 1 else 0 := List.countP_cons

theorem length_of_matchFormat (h : matchFormat fmt s = some (vs, t)) :
    vs.length = conversions fmt := by
  induction fmt generalizing s vs with
  | nil =>
    cases h
    rfl
  | cons d fmt ih =>
    cases d with
    | space => exact ih h
    | literal c =>
      cases s with
      | nil => cases h
      | cons c' s =>
        rw [matchFormat] at h
        split at h
        · exact ih h
        · cases h
    | char =>
      cases s with
      | nil => cases h
      | cons c s =>
        obtain ⟨⟨us, t'⟩, hrest, h⟩ := Option.map_eq_some_iff.mp h
        cases h
        rw [List.length_cons, ih hrest, conversions_cons]
        rfl
    | number conv =>
      obtain ⟨⟨v, s'⟩, -, h⟩ := Option.bind_eq_some_iff.mp h
      obtain ⟨⟨us, t'⟩, hrest, h⟩ := Option.map_eq_some_iff.mp h
      cases h
      rw [List.length_cons, ih hrest, conversions_cons]
      rfl

theorem runFormat_of_match (h : matchFormat fmt s = some (vs, t)) (values : List Int) :
    runFormat fmt values s = ⟨values ++ vs, t, false⟩ := by
  induction fmt generalizing s vs values with
  | nil =>
    cases h
    rw [runFormat_nil, List.append_nil]
  | cons d fmt ih =>
    cases d with
    | space => exact ih h values
    | literal c =>
      cases s with
      | nil => cases h
      | cons c' s =>
        rw [matchFormat] at h
        rw [runFormat]
        split at h
        · rename_i hc
          rw [if_pos hc]
          exact ih h values
        · cases h
    | char =>
      cases s with
      | nil => cases h
      | cons c s =>
        obtain ⟨⟨us, t'⟩, hrest, h⟩ := Option.map_eq_some_iff.mp h
        cases h
        rw [runFormat_char, ih hrest, List.append_assoc]
        rfl
    | number conv =>
      obtain ⟨⟨v, s'⟩, hscan, h⟩ := Option.bind_eq_some_iff.mp h
      obtain ⟨⟨us, t'⟩, hrest, h⟩ := Option.map_eq_some_iff.mp h
      cases h
      have hne : s.dropWhile isSpace ≠ [] := by
        intro hnil
        rw [hnil, scanNumber_nil] at hscan
        cases hscan
      rw [runFormat, if_neg hne, hscan]
      dsimp only
      rw [ih hrest, List.append_assoc]
      rfl

theorem conversions_pos (h : EndsInConversion fmt) : 0 < conversions fmt := by
  obtain ⟨d, hlast, hd⟩ := Option.any_eq_true _ _ |>.mp h
  exact List.countP_pos_iff.mpr ⟨d, List.mem_of_getLast? hlast, hd⟩

theorem EndsInConversion.tail {d : Directive} (h : EndsInConversion (d :: fmt)) (hne : fmt ≠ []) :
    EndsInConversion fmt := by
  rwa [EndsInConversion, List.getLast?_cons_of_ne_nil hne] at h

/-- A format that ends in a conversion is found whole, or some conversion is missing. -/
theorem length_runFormat_lt (hend : EndsInConversion fmt) (h : matchFormat fmt s = none)
    (values : List Int) :
    (runFormat fmt values s).values.length < values.length + conversions fmt := by
  induction fmt generalizing s values with
  | nil => cases h
  | cons d fmt ih =>
    -- the format stops here
    have hstop : values.length < values.length + conversions (d :: fmt) := by
      have := conversions_pos hend
      omega
    have hnext {s' : Text} (hrest : matchFormat fmt s' = none) (values' : List Int) :
        (runFormat fmt values' s').values.length < values'.length + conversions fmt := by
      refine ih (hend.tail ?_) hrest values'
      rintro rfl
      cases hrest
    rw [conversions_cons] at hstop ⊢
    cases d with
    | space => exact hnext h values
    | literal c =>
      cases s with
      | nil => exact hstop
      | cons c' s =>
        rw [matchFormat] at h
        rw [runFormat]
        split at h
        · rename_i hc
          rw [if_pos hc]
          exact hnext h values
        · rename_i hc
          rw [if_neg hc]
          exact hstop
    | char =>
      cases s with
      | nil => exact hstop
      | cons c s =>
        have hlt := hnext (Option.map_eq_none_iff.mp h) (values ++ [(c.toNat : Int)])
        rw [List.length_append, List.length_singleton] at hlt
        rw [runFormat_char]
        simp only [Directive.converts, if_true]
        omega
    | number conv =>
      rw [runFormat]
      split
      · exact hstop
      · cases hscan : scanNumber conv (s.dropWhile isSpace) with
        | none => exact hstop
        | some q =>
          rw [matchFormat, hscan, Option.bind_some, Option.map_eq_none_iff] at h
          have hlt := hnext h (values ++ [q.1])
          rw [List.length_append, List.length_singleton] at hlt
          simp only [Directive.converts, if_true]
          omega

theorem runFormat_values (fmt : List Directive) (values : List Int) (s : Text) :
    runFormat fmt values s =
      ⟨values ++ (runFormat fmt [] s).values, (runFormat fmt [] s).rest,
        (runFormat fmt [] s).ended⟩ := by
  induction fmt generalizing values s with
  | nil => simp [runFormat]
  | cons d fmt ih =>
    cases d with
    | space => exact ih values _
    | literal c =>
      cases s with
      | nil => simp [runFormat]
      | cons c' s =>
        rw [runFormat, runFormat]
        split
        · exact ih values s
        · simp
    | char =>
      cases s with
      | nil => simp [runFormat]
      | cons c s =>
        rw [runFormat_char, runFormat_char, ih (values ++ _), ih ([] ++ _)]
        simp
    | number conv =>
      rw [runFormat, runFormat]
      split
      · simp
      · split
        · simp
        · rename_i v t _
          rw [ih (values ++ [v]), ih ([] ++ [v])]
          simp

theorem values_runFormat (h : conversions fmt = 0) (values : List Int) (s : Text) :
    (runFormat fmt values s).values = values := by
  induction fmt generalizing s with
  | nil => rfl
  | cons d fmt ih =>
    rw [conversions_cons] at h
    cases d with
    | space => exact ih (by omega) _
    | literal c =>
      cases s with
      | nil => rfl
      | cons c' s =>
        rw [runFormat]
        split
        · exact ih (by omega) s
        · rfl
    | char => cases h
    | number conv => cases h

/-! ### What is left is shorter -/

theorem length_scanDigits {base n : Nat} (h : scanDigits base s = some (n, t)) :
    t.length ≤ s.length := by
  unfold scanDigits at h
  dsimp only at h
  split at h
  · cases h
  · cases h
    exact List.length_dropWhile_le _ _

theorem length_scanNumber {conv : Conversion} {v : Int} (h : scanNumber conv s = some (v, t)) :
    t.length ≤ s.length := by
  have hsign : (signOf s).2.length ≤ s.length := by
    unfold signOf
    split <;> simp
  have hbase (conv : Conversion) (s : Text) : (conv.base s).2.length ≤ s.length := by
    cases conv with
    | d | u => exact Nat.le_refl _
    | i =>
      unfold Conversion.base strtoulBase
      dsimp only
      split
      · split <;> simp; omega
      · split <;> simp; omega
      · simp
      · simp
    | x =>
      unfold Conversion.base
      dsimp only
      split
      · simp; omega
      · simp; omega
      · simp
  unfold scanNumber at h
  obtain ⟨⟨n, u⟩, hdigits, heq⟩ := Option.map_eq_some_iff.mp h
  obtain ⟨-, rfl⟩ := Prod.mk.inj heq
  exact (length_scanDigits hdigits).trans ((hbase conv _).trans hsign)

theorem length_rest_runFormat (fmt : List Directive) (values : List Int) (s : Text) :
    (runFormat fmt values s).rest.length ≤ s.length := by
  induction fmt generalizing values s with
  | nil => exact Nat.le_refl _
  | cons d fmt ih =>
    cases d with
    | space => exact (ih values _).trans (List.length_dropWhile_le _ _)
    | literal c =>
      cases s with
      | nil => exact Nat.le_refl _
      | cons c' s =>
        rw [runFormat]
        split
        · exact (ih values s).trans (Nat.le_succ _)
        · exact Nat.le_refl _
    | char =>
      cases s with
      | nil => exact Nat.le_refl _
      | cons c s => exact (ih _ s).trans (Nat.le_succ _)
    | number conv =>
      have hspace := List.length_dropWhile_le isSpace s
      rw [runFormat]
      split
      · exact Nat.zero_le _
      · split
        · exact hspace
        · rename_i v t hscan
          exact (ih _ t).trans ((length_scanNumber hscan).trans hspace)

theorem length_matchFormat (h : matchFormat fmt s = some (vs, t)) : t.length ≤ s.length := by
  have hle := length_rest_runFormat fmt [] s
  rwa [runFormat_of_match h] at hle

theorem length_skipFormat (h : skipFormat fmt s = some t) : t.length ≤ s.length := by
  unfold skipFormat at h
  split at h
  · cases h
  · cases h
    exact length_rest_runFormat fmt [] s

theorem skipFormat_of_match (h : matchFormat fmt s = some (vs, t)) : skipFormat fmt s = some t := by
  rw [skipFormat, runFormat_of_match h]
  rfl

end

end BootableRecovery
