import BootableRecovery.ScreenUI.Menu

/-!
# Touching what is drawn

Drawing and `SelectMenu(const Point&)` have a layout each. For every menu and every point: when the
call finds the item that the last draw placed there, or none where there is none (`touchRight_iff`).
-/

namespace BootableRecovery.ScreenUI

open RecoveryUI (Point)

/-! ## What is drawn -/

section
variable (screen : Screen) (m : Menu)

/-- The area of an item: its line in a list, its cell in a grid. -/
def Placed.Mem (c : Placed) (p : Point) : Prop :=
  match m.menuType with
  | .list => c.y ≤ p.y ∧ p.y < c.y + screen.menuCharHeight
  | .grid => c.x ≤ p.x ∧ p.x < c.x + screen.gridW ∧ c.y ≤ p.y ∧ p.y < c.y + screen.gridH
  | .none => False

def Menu.OnItem (p : Point) : Prop := ∃ c ∈ m.drawn, c.Mem screen m p

def Menu.OnBackIcon (p : Point) : Prop :=
  ∃ b ∈ m.drawnBack, b.x ≤ p.x ∧ p.x < b.x + b.icon.width ∧ b.y ≤ p.y ∧ p.y < b.y + b.icon.height

/-- The entry for a touch: the item at the point; and no item where there is none, and no back
icon. -/
structure Finds (p : Point) (sel : Int) : Prop where
  drawn : ∀ c ∈ m.drawn, c.Mem screen m p → sel = c.item
  blank : ¬m.OnItem screen p → ¬m.OnBackIcon p → ¬(0 ≤ sel ∧ sel < m.menuItems.length)

/-- A touch selects what is drawn. -/
def TouchRight (p : Point) : Prop := ∃ r, screen.selectPoint p m = some r ∧ Finds screen m p r.2

/-! ## The condition -/

/-- The first line, or three times as far below the start as the items would be. -/
def LineGuard (p : Point) : Prop :=
  0 < screen.menuCharHeight ∧
    (p.y - m.menuStartY < m.menuShowCount * screen.menuCharHeight →
      p.y - m.menuStartY < screen.menuCharHeight) ∧
    (m.menuShowCount * screen.menuCharHeight ≤ p.y - m.menuStartY →
      m.OnBackIcon p ∨ 3 * screen.menuCharHeight * (m.menuItems.length - m.menuShowStart : Nat) ≤
      p.y - m.menuStartY)

/-- The columns of `SelectMenu`: from the left edge of the screen strips of three units, a unit
between them, and to the left of the screen the same with the strips at the other side. -/
def TouchColumn (hUnit : Nat) (x column : Int) : Prop :=
  if 0 ≤ x then (4 * column + 1) * hUnit ≤ x ∧ x < (4 * column + 4) * hUnit
  else ∃ a : Nat, a * hUnit ≤ -x ∧ -x < (a + 1) * hUnit ∧ a % 4 ≠ 0 ∧ column = -((a + 1) / 4 : Nat)

/-- The area in which `SelectMenu` looks for an item of a grid: rows of 3/16 of the screen, from
item 0 on. -/
def TouchCell (j : Int) (p : Point) : Prop :=
  ∃ (row : Nat) (column : Int), 2 * row + column = j ∧ TouchColumn screen.hUnit p.x column ∧
    (screen.fbHeight * 3 / 16 : Nat) * (row : Int) ≤ p.y - m.menuStartY ∧
    p.y - m.menuStartY < (screen.fbHeight * 3 / 16 : Nat) * ((row : Int) + 1)

/-- The two layouts of a grid agree at the point. -/
def GridGuard (p : Point) : Prop :=
  0 < screen.hUnit ∧ 0 < screen.fbHeight * 3 / 16 ∧
    (∀ c ∈ m.drawn, c.Mem screen m p → TouchCell screen m c.item p) ∧
    (¬m.OnItem screen p → m.OnBackIcon p ∨ ∀ j < m.menuItems.length, ¬TouchCell screen m j p)

def TouchGuard (p : Point) : Prop :=
  m.showMenu = true → m.menuStartY ≤ p.y →
    match m.menuType with
    | .list => LineGuard screen m p
    | .grid => GridGuard screen m p
    | .none => True

end

section
variable {screen : Screen} {m m' : Menu} {p : Point}

/-! ## What a touch finds -/

/-- A menu that is shown after a draw: the call returns iff a division by 0 does not stop it. -/
theorem selectPoint_iff (hdraw : screen.draw m = some m') (hshow : m'.showMenu = true)
    {Q : Int → Prop} :
    (∃ r, screen.selectPoint p m' = some r ∧ Q r.2) ↔
    ∃ sel, screen.touchedEntry m' p = some sel ∧ Q sel := by
  rw [Screen.selectPoint, if_pos hshow]
  constructor
  · rintro ⟨r, hr, hQ⟩
    obtain ⟨sel, hsel, hr⟩ := Option.bind_eq_some_iff.mp hr
    refine ⟨sel, hsel, ?_⟩
    split at hr
    · obtain ⟨m'', -, hr⟩ := Option.bind_eq_some_iff.mp hr
      cases hr
      exact hQ
    · cases hr
      exact hQ
  · rintro ⟨sel, hsel, hQ⟩
    simp only [hsel, Option.bind_eq_bind, Option.bind_some]
    split
    · obtain ⟨m'', hm''⟩ := Screen.draw_menuSel hdraw sel
      exact ⟨(m'', sel), by simp [hm''], hQ⟩
    · exact ⟨(m', sel), rfl, hQ⟩

theorem touchedEntry_above (hy : p.y < m.menuStartY) :
    ∃ sel, screen.touchedEntry m p = some sel ∧ sel < 0 := by
  rw [Screen.touchedEntry, if_pos hy]
  split
  · exact ⟨kGoBack, rfl, by decide⟩
  · exact ⟨kNoAction, rfl, by decide⟩

/-- The entry for a number that `SelectMenu` has computed. -/
def entryOf (m : Menu) (sel : Int) : Int := if m.menuItems.length ≤ sel then kNoAction else sel

theorem entryOf_eq_iff {sel : Int} {j : Nat} (hj : j < m.menuItems.length) : entryOf m sel = j ↔
    sel = j := by
  rw [entryOf]
  split
  · simp only [kNoAction]
    omega
  · rfl

theorem entryOf_item_iff {sel : Int} :
    0 ≤ entryOf m sel ∧ entryOf m sel < m.menuItems.length ↔
    0 ≤ sel ∧ sel < m.menuItems.length := by
  rw [entryOf]
  split
  · simp only [kNoAction]
    omega
  · rfl

theorem touchedEntry_list (htype : m.menuType = .list) {d : Nat} (hy : p.y = m.menuStartY + d)
    {sel : Int} :
    screen.touchedEntry m p = some sel ↔
      0 < screen.menuCharHeight ∧
        sel = entryOf m ((d / (3 * screen.menuCharHeight) + m.menuShowStart : Nat) : Int) := by
  rw [Screen.touchedEntry, if_neg (by omega)]
  have hd : (m.menuStartY : Int) + d - m.menuStartY = d := by omega
  simp only [htype, hy, hd]
  split
  · rename_i hzero
    constructor
    · rintro ⟨⟩
    · intro h
      omega
  · rename_i hpos
    have hdiv : (d : Int).tdiv ((screen.menuCharHeight * 3 : Nat) : Int) + m.menuShowStart =
        ((d / (3 * screen.menuCharHeight) + m.menuShowStart : Nat) : Int) := by
      rw [Int.tdiv_eq_ediv_of_nonneg (by omega), Nat.mul_comm 3]
      norm_cast
    rw [hdiv]
    constructor
    · intro h
      exact ⟨by omega, (Option.some.inj h).symm⟩
    · rintro ⟨-, rfl⟩
      rfl

/-! ## The columns and rows of a grid -/

theorem touchColumn_iff {hUnit : Nat} (hpos : 0 < hUnit) (x column : Int) :
    TouchColumn hUnit x column ↔
    (x.tdiv hUnit).tmod 4 ≠ 0 ∧ (x.tdiv hUnit - 1).tdiv 4 = column := by
  have hpos' : (0 : Int) < hUnit := by omega
  rw [TouchColumn]
  split
  · rename_i hx
    -- on the screen: the number of the unit is between `4 * column + 1` and `4 * column + 3`
    have hunit : 0 ≤ x / (hUnit : Int) := Int.ediv_nonneg hx (by omega)
    rw [Int.tdiv_eq_ediv_of_nonneg hx, ← Int.le_ediv_iff_mul_le hpos',
      ← Int.ediv_lt_iff_lt_mul hpos', Int.tmod_eq_emod_of_nonneg hunit]
    generalize x / (hUnit : Int) = unit at hunit ⊢
    rcases Int.lt_or_le 0 unit with hunit | hunit
    · rw [Int.tdiv_eq_ediv_of_nonneg (by omega)]
      omega
    · omega
  · rename_i hx
    obtain ⟨y, hy⟩ : ∃ y : Nat, x = -(y : Int) := ⟨x.natAbs, by omega⟩
    subst hy
    have hdiv : (-(y : Int)).tdiv hUnit = -((y / hUnit : Nat) : Int) := by
      rw [Int.neg_tdiv, Int.tdiv_eq_ediv_of_nonneg (by omega)]
      norm_cast
    have hcolumn : ∀ a : Nat, (-(a : Int) - 1).tdiv 4 = -((a + 1) / 4 : Nat) := by
      intro a
      rw [show (-(a : Int) - 1) = -((a + 1 : Nat) : Int) by omega, Int.neg_tdiv,
        Int.tdiv_eq_ediv_of_nonneg (by omega)]
      norm_cast
    have hmod : ∀ a : Nat, (-(a : Int)).tmod 4 ≠ 0 ↔ a % 4 ≠ 0 := by
      intro a
      rw [Int.neg_tmod, Int.tmod_eq_emod_of_nonneg (by omega)]
      omega
    rw [hdiv, hcolumn, hmod, Int.neg_neg]
    constructor
    · rintro ⟨a, hle, hlt, ha, rfl⟩
      have heq : y / hUnit = a := by
        apply Nat.div_eq_of_lt_le
        · exact_mod_cast hle
        · exact_mod_cast hlt
      rw [heq]
      exact ⟨ha, rfl⟩
    · rintro ⟨ha, rfl⟩
      refine ⟨y / hUnit, ?_, ?_, ha, rfl⟩
      · exact_mod_cast Nat.div_mul_le_self y hUnit
      · exact_mod_cast Nat.lt_mul_of_div_lt (Nat.lt_succ_self _) hpos

/-- The number that `SelectMenu` computes for a point of a grid. -/
def gridNumber (screen : Screen) (m : Menu) (p : Point) : Int :=
  if (p.x.tdiv (screen.fbWidth / 9 : Nat)).tmod 4 ≠ 0 then
    (p.y - m.menuStartY).tdiv (screen.fbHeight * 3 / 16 : Nat) * 2 +
      (p.x.tdiv (screen.fbWidth / 9 : Nat) - 1).tdiv 4
  else kNoAction

theorem touchedEntry_grid (htype : m.menuType = .grid) (hy : m.menuStartY ≤ p.y) {sel : Int} :
    screen.touchedEntry m p = some sel ↔
      0 < screen.hUnit ∧ 0 < screen.fbHeight * 3 / 16 ∧
      sel = entryOf m (gridNumber screen m p) := by
  rw [Screen.touchedEntry, if_neg (by omega)]
  simp only [htype]
  split
  · rename_i hzero
    constructor
    · rintro ⟨⟩
    · rintro ⟨hunit, hrow, -⟩
      rw [Screen.hUnit] at hunit
      omega
  · rename_i hpos
    constructor
    · intro h
      exact ⟨Nat.pos_of_ne_zero fun h => hpos (.inr h), by omega, (Option.some.inj h).symm⟩
    · rintro ⟨-, -, rfl⟩
      rfl

theorem gridNumber_eq_iff (hunit : 0 < screen.hUnit) (hrow : 0 < screen.fbHeight * 3 / 16)
    (hy : m.menuStartY ≤ p.y) {j : Int} (hj : j ≠ kNoAction) :
    gridNumber screen m p = j ↔ TouchCell screen m j p := by
  obtain ⟨d, hd⟩ : ∃ d : Nat, p.y - m.menuStartY = d := ⟨(p.y - m.menuStartY).toNat, by omega⟩
  have hdiv :
      (d : Int).tdiv (screen.fbHeight * 3 / 16 : Nat) = (d / (screen.fbHeight * 3 / 16) : Nat) := by
    rw [Int.tdiv_eq_ediv_of_nonneg (by omega)]
    norm_cast
  rw [gridNumber, TouchCell, hd, hdiv]
  generalize screen.fbHeight * 3 / 16 = pitch at hrow ⊢
  constructor
  · intro h
    split at h
    · rename_i hcolumn
      refine ⟨d / pitch, (p.x.tdiv (screen.fbWidth / 9 : Nat) - 1).tdiv 4, by omega,
        (touchColumn_iff hunit _ _).mpr ⟨hcolumn, rfl⟩, ?_, ?_⟩
      · exact_mod_cast Nat.mul_div_le d pitch
      · exact_mod_cast Nat.lt_mul_div_succ d hrow
    · exact absurd h.symm hj
  · rintro ⟨row, column, hj, hcolumn, hle, hlt⟩
    obtain ⟨hmod, rfl⟩ := (touchColumn_iff hunit _ _).mp hcolumn
    have heq : d / pitch = row := by
      apply Nat.div_eq_of_lt_le
      · rw [Nat.mul_comm]
        exact_mod_cast hle
      · rw [Nat.mul_comm]
        exact_mod_cast hlt
    rw [Screen.hUnit] at hmod hj
    rw [heq, if_pos hmod]
    omega

theorem natCast_ne_kNoAction (j : Nat) : (j : Int) ≠ kNoAction := by
  simp only [kNoAction]
  omega

theorem Screen.menuStartY_le_of_mem (hdraw : screen.draw m = some m') (hshow : m'.showMenu = true)
    {c : Placed}
    (hc : c ∈ m'.drawn) (hmem : c.Mem screen m' p) : m'.menuStartY ≤ p.y := by
  cases htype : m'.menuType with
  | none => simp only [Placed.Mem, htype] at hmem
  | list =>
    rw [(drawn_of_list hdraw hshow htype).2] at hc
    obtain ⟨k, -, rfl⟩ := List.mem_map.mp hc
    simp only [Placed.Mem, htype] at hmem
    omega
  | grid =>
    rw [(drawn_of_grid hdraw hshow htype).2] at hc
    obtain ⟨k, -, rfl⟩ := List.mem_map.mp hc
    simp only [Placed.Mem, htype] at hmem
    omega

/-! ## Lists -/

theorem mem_drawn_list (hdraw : screen.draw m = some m') (hshow : m'.showMenu = true)
    (htype : m'.menuType = .list) {d : Nat} (hy : p.y = m'.menuStartY + d) {i : Nat} :
    (∃ c ∈ m'.drawn, c.Mem screen m' p ∧ c.item = i) ↔
      d < m'.menuShowCount * screen.menuCharHeight ∧
      i = m'.menuShowStart + d / screen.menuCharHeight := by
  rw [(Screen.drawn_of_list hdraw hshow htype).2]
  constructor
  · rintro ⟨c, hc, hmem, rfl⟩
    obtain ⟨k, hk, rfl⟩ := List.mem_map.mp hc
    rw [List.mem_range] at hk
    simp only [Placed.Mem, htype, hy] at hmem
    have hle : k * screen.menuCharHeight ≤ d := by
      have := hmem.1
      push_cast at this
      exact_mod_cast Int.le_of_add_le_add_left this
    have hlt : d < (k + 1) * screen.menuCharHeight := by
      rw [Nat.succ_mul]
      omega
    refine ⟨hlt.trans_le (Nat.mul_le_mul_right _ hk), ?_⟩
    rw [Nat.div_eq_of_lt_le hle hlt]
  · rintro ⟨hlt, rfl⟩
    have hpos : 0 < screen.menuCharHeight := Nat.pos_of_mul_pos_left (Nat.zero_lt_of_lt hlt)
    refine ⟨_, List.mem_map.mpr ⟨d / screen.menuCharHeight, ?_, rfl⟩, ?_, rfl⟩
    · exact List.mem_range.mpr (Nat.div_lt_of_lt_mul (by rwa [Nat.mul_comm]))
    · simp only [Placed.Mem, htype, hy]
      have hle := Nat.div_mul_le_self d screen.menuCharHeight
      have hlt := Nat.lt_div_mul_add hpos (a := d)
      omega

/-- Lines that are three times as high hold the same one only at the first. -/
theorem div_three_eq_iff {d h : Nat} (hpos : 0 < h) : d / (3 * h) = d / h ↔ d < h := by
  constructor
  · intro heq
    have hle := Nat.div_mul_le_self d (3 * h)
    have hlt := Nat.lt_div_mul_add hpos (a := d)
    rw [heq, Nat.mul_left_comm] at hle
    apply Nat.lt_of_div_eq_zero hpos
    generalize d / h = q at hle hlt ⊢
    by_contra hne
    have hone : 1 * h ≤ q * h := Nat.mul_le_mul_right _ (Nat.pos_of_ne_zero hne)
    omega
  · intro h
    rw [Nat.div_eq_of_lt h, Nat.div_eq_of_lt (by omega)]

theorem touchRight_list (hdraw : screen.draw m = some m') (hshow : m'.showMenu = true)
    (htype : m'.menuType = .list) (hy : m'.menuStartY ≤ p.y) : TouchRight screen m' p ↔
    LineGuard screen m' p := by
  obtain ⟨d, hd⟩ : ∃ d : Nat, p.y = m'.menuStartY + d := ⟨(p.y - m'.menuStartY).toNat, by omega⟩
  have hcount := (Screen.drawn_of_list hdraw hshow htype).1
  have hmem := @mem_drawn_list screen m m' p hdraw hshow htype d hd
  have hsub : p.y - m'.menuStartY = d := by omega
  rw [TouchRight, selectPoint_iff hdraw hshow, LineGuard, hsub]
  simp only [touchedEntry_list htype hd]
  by_cases hpos : 0 < screen.menuCharHeight
  · -- the line drawn at the point, and the one that a touch counts
    have hsame := @div_three_eq_iff d _ hpos
    have hline : d / screen.menuCharHeight < m'.menuShowCount ↔
        d < m'.menuShowCount * screen.menuCharHeight :=
      Nat.div_lt_iff_lt_mul hpos
    have hfar : ∀ n, n ≤ d / (3 * screen.menuCharHeight) ↔ 3 * screen.menuCharHeight * n ≤ d := by
      intro n
      rw [Nat.le_div_iff_mul_le (by omega), Nat.mul_comm]
    generalize d / (3 * screen.menuCharHeight) = touched at hsame hfar ⊢
    generalize d / screen.menuCharHeight = line at hsame hline hmem
    constructor
    · rintro ⟨sel, ⟨-, rfl⟩, hfinds⟩
      refine ⟨hpos, fun hlt => ?_, fun hle => ?_⟩
      · have hlt : d < m'.menuShowCount * screen.menuCharHeight := by exact_mod_cast hlt
        obtain ⟨c, hc, hcmem, hitem⟩ := hmem.mpr ⟨hlt, rfl⟩
        have hsel := hfinds.drawn c hc hcmem
        have hshown := hline.mpr hlt
        rw [hitem, entryOf_eq_iff (by omega)] at hsel
        exact_mod_cast hsame.mp (by omega)
      · by_cases hback : m'.OnBackIcon p
        · exact .inl hback
        · right
          have hle : m'.menuShowCount * screen.menuCharHeight ≤ d := by exact_mod_cast hle
          have hblank := hfinds.blank
            (fun ⟨c, hc, hcmem⟩ => absurd (hmem.mp ⟨c, hc, hcmem, rfl⟩).1 (Nat.not_lt_of_le hle))
              hback
          rw [entryOf_item_iff] at hblank
          exact_mod_cast (hfar (m'.menuItems.length - m'.menuShowStart)).mp (by omega)
    · rintro ⟨-, hfirst, hbelow⟩
      refine ⟨_, ⟨hpos, rfl⟩, fun c hc hcmem => ?_, fun hitem hback => ?_⟩
      · obtain ⟨hlt, hi⟩ := hmem.mp ⟨c, hc, hcmem, rfl⟩
        have hsmall : d < screen.menuCharHeight := by
          have := hfirst (by exact_mod_cast hlt)
          exact_mod_cast this
        have hshown := hline.mpr hlt
        have heq := hsame.mpr hsmall
        rw [entryOf_eq_iff (by omega)]
        omega
      · have hle : m'.menuShowCount * screen.menuCharHeight ≤ d := by
          by_contra hlt
          obtain ⟨c, hc, hcmem, -⟩ := hmem.mpr ⟨Nat.lt_of_not_le hlt, rfl⟩
          exact hitem ⟨c, hc, hcmem⟩
        have hbehind := (hfar (m'.menuItems.length - m'.menuShowStart)).mpr
          (by exact_mod_cast (hbelow (by exact_mod_cast hle)).resolve_left hback)
        rw [entryOf_item_iff]
        omega
  · exact iff_of_false (fun ⟨_, ⟨h, _⟩, _⟩ => hpos h) fun h => hpos h.1

/-! ## Grids -/

theorem touchRight_grid (hdraw : screen.draw m = some m') (hshow : m'.showMenu = true)
    (htype : m'.menuType = .grid) (hy : m'.menuStartY ≤ p.y) : TouchRight screen m' p ↔
    GridGuard screen m' p := by
  obtain ⟨hcount, hdrawn⟩ := Screen.drawn_of_grid hdraw hshow htype
  have hindex : ∀ c ∈ m'.drawn, c.item < m'.menuItems.length := by
    intro c hc
    rw [hdrawn] at hc
    obtain ⟨k, hk, rfl⟩ := List.mem_map.mp hc
    have := List.mem_range.mp hk
    dsimp only
    omega
  rw [TouchRight, selectPoint_iff hdraw hshow, GridGuard]
  simp only [touchedEntry_grid htype hy]
  constructor
  · rintro ⟨sel, ⟨hunit, hrow, rfl⟩, hfinds⟩
    refine ⟨hunit, hrow, fun c hc hcmem => ?_, fun hitem => ?_⟩
    · have hsel := hfinds.drawn c hc hcmem
      rw [entryOf_eq_iff (hindex c hc)] at hsel
      exact (gridNumber_eq_iff hunit hrow hy (natCast_ne_kNoAction _)).mp hsel
    · by_cases hback : m'.OnBackIcon p
      · exact .inl hback
      · right
        intro j hj hcell
        have hblank := hfinds.blank hitem hback
        rw [entryOf_item_iff, (gridNumber_eq_iff hunit hrow hy (natCast_ne_kNoAction _)).mpr hcell]
          at hblank
        omega
  · rintro ⟨hunit, hrow, hcells, hblank⟩
    refine ⟨_, ⟨hunit, hrow, rfl⟩, fun c hc hcmem => ?_, fun hitem hback => ?_⟩
    · rw [entryOf_eq_iff (hindex c hc)]
      exact (gridNumber_eq_iff hunit hrow hy (natCast_ne_kNoAction _)).mpr (hcells c hc hcmem)
    · rw [entryOf_item_iff]
      rintro ⟨hle, hlt⟩
      obtain ⟨j, hj⟩ := Int.eq_ofNat_of_zero_le hle
      exact (hblank hitem).resolve_left hback j (by omega)
        ((gridNumber_eq_iff hunit hrow hy (natCast_ne_kNoAction _)).mp hj)

/-! ## All menus -/

/-- A touch selects what the last draw has placed at the point iff the two layouts agree there. -/
theorem touchRight_iff (hdraw : screen.draw m = some m') (p : Point) :
    TouchRight screen m' p ↔ TouchGuard screen m' p := by
  by_cases hshow : m'.showMenu = true
  · by_cases hy : m'.menuStartY ≤ p.y
    · rw [TouchGuard]
      simp only [hshow, hy, forall_const]
      cases htype : m'.menuType with
      | none =>
        refine iff_of_true ?_ trivial
        rw [TouchRight, selectPoint_iff hdraw hshow]
        refine ⟨kNoAction, ?_, ?_, fun _ _ h => absurd h.1 (by decide)⟩
        · rw [Screen.touchedEntry, if_neg (by omega)]
          simp [htype]
        · rw [Screen.drawn_of_none hdraw htype]
          exact nofun
      | list => exact touchRight_list hdraw hshow htype hy
      | grid => exact touchRight_grid hdraw hshow htype hy
    · refine iff_of_true ?_ fun _ h => absurd h hy
      rw [TouchRight, selectPoint_iff hdraw hshow]
      obtain ⟨sel, hsel, hneg⟩ := @touchedEntry_above screen m' p (by omega)
      refine ⟨sel, hsel, fun c hc hcmem => ?_, fun _ _ h => by omega⟩
      -- items are drawn below the start of the menu
      exact absurd (Screen.menuStartY_le_of_mem hdraw hshow hc hcmem) hy
  · refine iff_of_true ?_ fun h => absurd h hshow
    have hnone : ¬(0 ≤ kNoAction) := by decide
    refine ⟨(m', kNoAction), if_neg hshow, ?_, fun _ _ h => hnone h.1⟩
    rw [Screen.drawn_of_not_showMenu hdraw hshow]
    exact nofun

end

/-! ## A list of two items -/

def smallScreen : Screen := ⟨1080, 2160, 0, 0, 32, 60, none, none, none⟩

def twoItems : Menu :=
  { Menu.init with menuType := .list, menuItems := ["one".toList, "two".toList], showMenu := true }

/-- The first item is found. -/
theorem touchRight_iff_firstLine :
    ∃ m', smallScreen.draw twoItems = some m' ∧ TouchRight smallScreen m' ⟨10, 140⟩ :=
  ⟨_, rfl, (@touchRight_iff smallScreen twoItems _ rfl _).mpr fun _ _ =>
    ⟨by decide, fun _ => by decide, fun h => absurd h (by decide)⟩⟩

/-- The second line is three times as far down for a touch. -/
theorem not_touchRight : ¬∀ (screen : Screen) (m m' : Menu) (p : Point), screen.draw m = some m' →
    TouchRight screen m' p := by
  intro h
  have hright := h smallScreen twoItems _ ⟨10, 170⟩ rfl
  have hguard :=
    (@touchRight_list smallScreen twoItems _ ⟨10, 170⟩ rfl rfl rfl (by decide)).mp hright
  exact absurd (hguard.2.1 (by decide)) (by decide)

end BootableRecovery.ScreenUI
