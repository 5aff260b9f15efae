import BootableRecovery.Theory.System
import BootableRecovery.ScreenUI.TouchTarget

/-!
# The selection stays visible

The window of a menu is as large as the last draw has made it, and a grid holds an item less when it
starts with the second one of a row. Which calls keep the selection in the window
(`visible_of_guarded`).
-/

namespace BootableRecovery.ScreenUI

open RecoveryUI (Point)

/-! ## The calls -/

/-- The calls of a menu. -/
inductive MenuCall
  | startMenu (isMain : Bool) (type : MenuType) (headers : Option (List Text)) (items : List Text)
      (initialSelection : Int)
  | selectMenu (sel : Int)
  | selectPoint (point : Point)
  | scrollMenu (down : Bool)

section
variable (screen : Screen) (m : Menu)

/-- A call with its redraw. -/
def MenuCall.run : MenuCall → Menu → Option Menu
  | startMenu isMain type headers items initialSelection =>
    screen.startMenu isMain type headers items initialSelection
  | selectMenu sel => screen.selectMenu sel
  | selectPoint point => fun m => (screen.selectPoint point m).map Prod.fst
  | scrollMenu down => screen.scrollMenu down

/-- The window is in the list, and the selection is the back entry of a menu that has one, or an
item that is shown. -/
structure Menu.Visible : Prop where
  window : m.menuShowStart + m.menuShowCount ≤ m.menuItems.length
  selected : (m.menuSel = -1 ∧ m.menuIsMain = false) ∨ ∃ c ∈ m.drawn, m.menuSel = c.item

/-! ## The condition -/

/-- The place of an item in a window that starts at `start` fits on the screen, where the items
start at `y`. -/
def Screen.RowFits (type : MenuType) (y start i : Nat) : Prop :=
  match type with
  | .list => y + (i - start) * screen.menuCharHeight + screen.kMinItemHeight < screen.fbHeight
  | .grid => y + (i / 2 - start / 2) * screen.gridH + screen.gridH < screen.fbHeight
  | .none => False

instance (type : MenuType) (y start i : Nat) : Decidable (screen.RowFits type y start i) :=
  match type with
  | .list => inferInstanceAs (Decidable (_ < _))
  | .grid => inferInstanceAs (Decidable (_ < _))
  | .none => inferInstanceAs (Decidable False)

/-- Where the items of a menu start, if its header can be drawn. -/
def Screen.itemsStart : Option Nat :=
  match m.menuType with
  | .list => screen.textMenuStart m
  | _ => some (screen.drawHeader m screen.kMarginHeight)

/-- A menu that is started: its selection is the back entry or an item, in a grid one that is odd or
on the first page; the back icon has its image for the selected entry, if it has the other; and one
row fits below the header. -/
structure StartGuard : Prop where
  selection : (m.menuSel = -1 ∧ m.menuIsMain = false) ∨
    (0 ≤ m.menuSel ∧ m.menuSel < m.menuItems.length)
  page : m.menuType = .grid → m.menuSel % 2 = 1 ∨
    ∀ y ∈ screen.itemsStart m, screen.RowFits .grid y 0 m.menuSel.toNat
  icons : m.menuIsMain = true ∨ (screen.icBack.isSome → screen.icBackSel.isSome)
  fits : ∃ y ∈ screen.itemsStart { m with menuSel := -1 }, screen.RowFits m.menuType y 0 0

/-- A touch finds no entry, or an item that is shown: it is not on the back icon, ... -/
def TouchKept (p : Point) : Prop :=
  if p.y < m.menuStartY then
    ¬(m.menuIsMain = false ∧ (screen.hUnit / 2 : Nat) ≤ p.x ∧ p.x < (screen.hUnit * 3 / 2 : Nat) ∧
      (screen.vUnit * 1 / 2 : Nat) ≤ p.y ∧ p.y < (screen.vUnit * 3 / 2 : Nat))
  else match m.menuType with
    | .list =>
      0 < screen.menuCharHeight ∧
        (p.y - m.menuStartY < 3 * screen.menuCharHeight * m.menuShowCount ∨
          3 * screen.menuCharHeight * (m.menuItems.length - m.menuShowStart : Nat) ≤ p.y -
          m.menuStartY)
    | .grid =>
      0 < screen.hUnit ∧ 0 < screen.fbHeight * 3 / 16 ∧
        ∀ j < (m.menuItems.length : Int), TouchCell screen m j p →
        j = -1 ∨ ∃ c ∈ m.drawn, j = c.item
    | .none => True

/-- The item that is selected after a grid has been scrolled up. -/
def raised : Nat := min m.menuSel.toNat (m.menuShowStart + m.menuShowCount - 2)

/-- What a call needs in the state before it. -/
def MenuCall.Guard : MenuCall → Prop
  | startMenu isMain type headers items initialSelection =>
    StartGuard screen { m with
      menuIsMain := isMain, menuType := type, menuHeaders := headers, menuItems :=
        m.menuItems ++ items,
      showMenu := true, menuSel := initialSelection, menuShowStart := 0 }
  | selectMenu sel =>
    m.menuType = .grid → m.menuShowStart + m.menuShowCount ≤ Screen.wrapSelection m sel →
      m.menuShowStart % 2 = 1 ∨ Screen.wrapSelection m sel % 2 = 1
  | selectPoint p => TouchKept screen m p
  | scrollMenu down =>
    down = false → m.menuType = .grid → m.menuShowStart % 2 = 1 ∨ m.menuSel = -1 ∨
      screen.RowFits .grid m.menuStartY (m.menuShowStart - 1) (raised m)

end

section
variable {screen : Screen} {m m' : Menu} {p : Point}

/-! ## Drawn menus -/

theorem length_textItems_iff (y i : Nat) (items : List Text) (k : Nat) :
    k < (screen.textItems y i items).length ↔
      k < items.length ∧ y + k * screen.menuCharHeight + screen.kMinItemHeight <
      screen.fbHeight := by
  induction items generalizing y i k with
  | nil => simp [Screen.textItems]
  | cons item items ih =>
    rw [Screen.textItems]
    split
    · rename_i hfits
      cases k with
      | zero => simp [hfits]
      | succ k =>
        rw [List.length_cons, List.length_cons, Nat.add_lt_add_iff_right, Nat.add_lt_add_iff_right,
          ih, Nat.succ_mul]
        apply and_congr_right
        intro _
        omega
    · rename_i hfits
      simp only [List.length_nil, Nat.not_lt_zero, false_iff]
      omega

theorem length_gridItems_iff (y i : Nat) (items : List Text) (k : Nat) :
    k < (screen.gridItems y i items).length ↔
      k < items.length ∧ y + ((i + k) / 2 - i / 2) * screen.gridH + screen.gridH <
      screen.fbHeight := by
  induction items generalizing y i k with
  | nil => simp [Screen.gridItems]
  | cons item items ih =>
    rw [Screen.gridItems]
    split
    · rename_i hfits
      cases k with
      | zero => simp [hfits]
      | succ k =>
        rw [List.length_cons, List.length_cons, Nat.add_lt_add_iff_right,
          Nat.add_lt_add_iff_right, ih]
        apply and_congr_right
        intro _
        have hik : i + 1 + k = i + (k + 1) := by omega
        rw [hik]
        split
        · rename_i hodd
          have hrow : (i + (k + 1)) / 2 - i / 2 = (i + (k + 1)) / 2 - (i + 1) / 2 + 1 := by omega
          rw [hrow, Nat.succ_mul]
          omega
        · rename_i heven
          have hrow : (i + (k + 1)) / 2 - i / 2 = (i + (k + 1)) / 2 - (i + 1) / 2 := by omega
          rw [hrow]
    · rename_i hfits
      simp only [List.length_nil, Nat.not_lt_zero, false_iff]
      omega

theorem Screen.draw_draw (h : screen.draw m = some m') : screen.draw m' = some m' := by
  obtain ⟨startY, count, drawn, drawnBack, rfl⟩ := draw_menu h
  obtain ⟨isMain, type, headers, items, startY₀, shown, start, count₀, sel, drawn₀, drawnBack₀⟩ := m
  cases shown with
  | false =>
    cases h
    rfl
  | true =>
    cases type with
    | none =>
      cases h
      rfl
    | list =>
      obtain ⟨y, hy, hplace⟩ := Option.bind_eq_some_iff.mp h
      cases hplace
      exact Option.bind_eq_some_iff.mpr ⟨_, hy, rfl⟩
    | grid =>
      cases h
      rfl

theorem Screen.lt_menuShowCount_iff (h : screen.draw m = some m') (hshow : m'.showMenu = true)
    (htype : m'.menuType ≠ .none) (k : Nat) :
    k < m'.menuShowCount ↔ m'.menuShowStart + k < m'.menuItems.length ∧
      screen.RowFits m'.menuType m'.menuStartY m'.menuShowStart (m'.menuShowStart + k) := by
  obtain ⟨startY, count, drawn, drawnBack, rfl⟩ := draw_menu h
  rw [draw, if_pos hshow] at h
  split at h
  · rename_i hnone
    exact absurd hnone htype
  · rename_i hlist
    obtain ⟨y, -, hplace⟩ := Option.bind_eq_some_iff.mp h
    cases hplace
    simp only [RowFits, hlist, length_textItems_iff, List.length_drop, Nat.add_sub_cancel_left]
    apply and_congr_left
    intro _
    omega
  · rename_i hgrid
    cases h
    simp only [RowFits, hgrid, length_gridItems_iff, List.length_drop]
    apply and_congr_left
    intro _
    omega

theorem mem_drawn_iff (h : screen.draw m = some m') (hshow : m'.showMenu = true)
    (htype : m'.menuType ≠ .none) {i : Nat} : (∃ c ∈ m'.drawn, c.item = i) ↔
      m'.menuShowStart ≤ i ∧ i < m'.menuShowStart + m'.menuShowCount := by
  have hmap :
      m'.drawn.map Placed.item = (List.range m'.menuShowCount).map (m'.menuShowStart + ·) := by
    cases htype' : m'.menuType with
    | none => exact absurd htype' htype
    | list =>
      rw [(Screen.drawn_of_list h hshow htype').2, List.map_map]
      rfl
    | grid =>
      rw [(Screen.drawn_of_grid h hshow htype').2, List.map_map]
      rfl
  rw [← List.mem_map, hmap, List.mem_map]
  constructor
  · rintro ⟨k, hk, rfl⟩
    have := List.mem_range.mp hk
    omega
  · rintro ⟨hle, hlt⟩
    exact ⟨i - m'.menuShowStart, List.mem_range.mpr (by omega), by omega⟩

/-! ## Redrawing -/

/-- A menu on the screen, with any selection. -/
structure Laid (screen : Screen) (m : Menu) : Prop where
  shown : m.showMenu = true
  drawn : screen.draw m = some m
  icons : m.menuIsMain = true ∨ (screen.icBack.isSome → screen.icBackSel.isSome)
  fits : ∃ y ∈ screen.itemsStart { m with menuSel := -1 }, screen.RowFits m.menuType y 0 0
  start : m.menuShowStart = 0 ∨ m.menuShowStart < m.menuItems.length

/-- What each call leaves. -/
structure Ready (screen : Screen) (m : Menu) : Prop extends Laid screen m where
  visible : m.Visible

/-- A selection for a window that starts at `start`. -/
def Selected (screen : Screen) (m : Menu) (start : Nat) (sel : Int) : Prop :=
  (sel = -1 ∧ m.menuIsMain = false) ∨
    ∃ i : Nat, sel = i ∧ start ≤ i ∧ i < m.menuItems.length ∧
    screen.RowFits m.menuType m.menuStartY start i

theorem Screen.RowFits.of_le {type : MenuType} {y y' start i : Nat}
    (h : screen.RowFits type y start i) (hle : y' ≤ y) : screen.RowFits type y' start i := by
  cases type with
  | none => exact h
  | list =>
    rw [RowFits] at h ⊢
    omega
  | grid =>
    rw [RowFits] at h ⊢
    omega

theorem visible_of_selected (h : screen.draw m = some m') (hshow : m'.showMenu = true)
    (htype : m'.menuType ≠ .none)
    (hstart : m'.menuShowStart = 0 ∨ m'.menuShowStart < m'.menuItems.length)
    (hsel : Selected screen m' m'.menuShowStart m'.menuSel) : m'.Visible := by
  have hcount := Screen.lt_menuShowCount_iff h hshow htype
  constructor
  · by_contra hlt
    have := (hcount (m'.menuShowCount - 1)).mp (by omega)
    omega
  · refine hsel.imp id ?_
    rintro ⟨i, hi, hle, hlt, hfits⟩
    obtain ⟨k, rfl⟩ := Nat.exists_eq_add_of_le hle
    obtain ⟨c, hc, hitem⟩ := (mem_drawn_iff h hshow htype).mpr
      ⟨hle, Nat.add_lt_add_left ((hcount k).mpr ⟨hlt, hfits⟩) _⟩
    exact ⟨c, hc, by rw [hi, hitem]⟩

theorem Laid.menuType_ne (h : Laid screen m) : m.menuType ≠ .none := by
  intro hnone
  obtain ⟨y, -, hfits⟩ := h.fits
  rw [hnone] at hfits
  exact hfits

theorem itemsStart_eq (h : screen.draw m = some m') (hshow : m.showMenu = true)
    (htype : m.menuType ≠ .none) : screen.itemsStart m = some m'.menuStartY := by
  obtain ⟨isMain, type, headers, items, startY, shown, start, count, sel, drawn, drawnBack⟩ := m
  obtain rfl : shown = true := hshow
  cases type with
  | none => exact absurd rfl htype
  | list =>
    obtain ⟨y, hy, hplace⟩ := Option.bind_eq_some_iff.mp h
    cases hplace
    exact hy
  | grid =>
    cases h
    rfl

theorem draw_of_itemsStart {y : Nat} (h : screen.itemsStart m = some y) :
    ∃ m', screen.draw m = some m' := by
  obtain ⟨isMain, type, headers, items, startY, shown, start, count, sel, drawn, drawnBack⟩ := m
  cases shown with
  | false => exact ⟨_, rfl⟩
  | true =>
    cases type with
    | none => exact ⟨_, rfl⟩
    | list => exact ⟨_, Option.bind_eq_some_iff.mpr ⟨y, h, rfl⟩⟩
    | grid => exact ⟨_, rfl⟩

/-- What the headers of a list take. -/
def Screen.headersHeight (screen : Screen) (m : Menu) : Option Nat :=
  match m.menuType, m.menuHeaders with
  | .list, some headers => (screen.drawWrappedTextLines headers).map (· + (8 + 4))
  | _, _ => some 0

theorem itemsStart_eq_map (screen : Screen) (m : Menu) : screen.itemsStart m =
    (screen.headersHeight m).map (screen.drawHeader m screen.kMarginHeight + ·) := by
  obtain ⟨isMain, type, headers, items, startY, shown, start, count, sel, drawn, drawnBack⟩ := m
  cases type with
  | none => rfl
  | grid => rfl
  | list =>
    cases headers with
    | none => rfl
    | some headers =>
      simp only [Screen.itemsStart, Screen.textMenuStart, Screen.headersHeight]
      cases screen.drawWrappedTextLines headers with
      | none => rfl
      | some height =>
        simp only [Option.bind_eq_bind, Option.bind_some, Option.map_some, Option.pure_def,
          Option.some.injEq]
        exact Nat.add_assoc _ _ _

/-- The header is highest for the back entry, and equally high for all items. -/
theorem drawHeader_le
    (hicons : m.menuIsMain = true ∨ (screen.icBack.isSome → screen.icBackSel.isSome))
    {sel sel' : Int} (hsel : sel' ≠ -1 ∨ sel = -1) (y : Nat) :
    screen.drawHeader { m with menuSel := sel' } y ≤
    screen.drawHeader { m with menuSel := sel } y := by
  have hback : (screen.backIcon { m with menuSel := sel' }).isSome →
      (screen.backIcon { m with menuSel := sel }).isSome := by
    rw [Screen.backIcon, Screen.backIcon]
    rcases hicons with hmain | hicons
    · simp [hmain]
    · dsimp only
      split
      · exact id
      · rcases Decidable.em (sel = -1) with rfl | hsel'
        · split
          · exact id
          · exact hicons
        · rw [if_neg (hsel.resolve_right hsel'), if_neg hsel']
          exact id
  have hle :
      (if (screen.backIcon { m with menuSel := sel' }).isSome then y + screen.vUnit / 2 +
        screen.vUnit else y) ≤
      if (screen.backIcon { m with menuSel := sel }).isSome then y + screen.vUnit / 2 + screen.vUnit
      else y := by
    split
    · rename_i hsome
      rw [if_pos (hback hsome)]
    · split <;> omega
  simp only [Screen.drawHeader]
  revert hle
  generalize (if (screen.backIcon { m with menuSel := sel' }).isSome then _ else y) = low
  generalize (if (screen.backIcon { m with menuSel := sel }).isSome then _ else y) = high
  intro hle
  split <;> omega

theorem itemsStart_menuSel
    (hicons : m.menuIsMain = true ∨ (screen.icBack.isSome → screen.icBackSel.isSome)) {y : Nat}
    (h : screen.itemsStart m = some y) (sel : Int) :
    ∃ y', screen.itemsStart { m with menuSel := sel } = some y' ∧
      (sel ≠ -1 ∨ m.menuSel = -1 → y' ≤ y) ∧ (sel = -1 → y ≤ y') := by
  rw [itemsStart_eq_map] at h
  obtain ⟨height, hheight, rfl⟩ := Option.map_eq_some_iff.mp h
  refine ⟨screen.drawHeader { m with menuSel := sel } screen.kMarginHeight + height, ?_, fun hsel =>
    ?_, fun hsel => ?_⟩
  · rw [itemsStart_eq_map]
    exact Option.map_eq_some_iff.mpr ⟨height, hheight, rfl⟩
  · exact Nat.add_le_add_right (drawHeader_le hicons hsel _) height
  · exact Nat.add_le_add_right (@drawHeader_le screen m hicons sel m.menuSel (.inr hsel) _) height

theorem Laid.itemsStart (h : Laid screen m) : screen.itemsStart m = some m.menuStartY :=
  itemsStart_eq h.drawn h.shown h.menuType_ne

theorem Laid.rowFits (h : Laid screen m) : screen.RowFits m.menuType m.menuStartY 0 0 := by
  obtain ⟨y, hy, hfits⟩ := h.fits
  obtain ⟨y', hy', -, hle⟩ := itemsStart_menuSel h.icons h.itemsStart (-1)
  obtain rfl : y' = y := Option.some.inj (hy'.symm.trans hy)
  exact hfits.of_le (hle rfl)

theorem Laid.redraw (h : Laid screen m) {sel : Int} {start : Nat}
    (hstart : start = 0 ∨ start < m.menuItems.length) (hsel : Selected screen m start sel) :
    ∃ m', screen.draw { m with menuSel := sel, menuShowStart := start } = some m' ∧
    Ready screen m' := by
  obtain ⟨y, hy, hle, -⟩ := itemsStart_menuSel h.icons h.itemsStart sel
  obtain ⟨m', hdraw⟩ :=
    @draw_of_itemsStart screen { m with menuSel := sel, menuShowStart := start } y hy
  have hy : screen.itemsStart { m with menuSel := sel, menuShowStart := start } = some y := hy
  obtain rfl : y = m'.menuStartY :=
    Option.some.inj (hy.symm.trans (itemsStart_eq hdraw h.shown h.menuType_ne))
  refine ⟨m', hdraw, ?_⟩
  obtain ⟨startY, count, drawn, drawnBack, rfl⟩ := Screen.draw_menu hdraw
  refine ⟨⟨h.shown, Screen.draw_draw hdraw, h.icons, h.fits, hstart⟩,
    visible_of_selected hdraw h.shown h.menuType_ne hstart (hsel.imp id ?_)⟩
  rintro ⟨i, rfl, hi, hlt, hfits⟩
  exact ⟨i, rfl, hi, hlt, hfits.of_le (hle (.inl (by omega)))⟩

/-! ## Windows -/

theorem Screen.RowFits.mono {type : MenuType} {y start start' i j : Nat}
    (h : screen.RowFits type y start i) (hline : type = .list → j - start' ≤ i - start)
    (hrow : type = .grid → j / 2 - start' / 2 ≤ i / 2 - start / 2) :
    screen.RowFits type y start' j := by
  cases type with
  | none => exact h
  | list =>
    have hle : (j - start') * screen.menuCharHeight ≤ (i - start) * screen.menuCharHeight :=
      Nat.mul_le_mul_right _ (hline rfl)
    rw [RowFits] at h ⊢
    omega
  | grid =>
    have hle : (j / 2 - start' / 2) * screen.gridH ≤ (i / 2 - start / 2) * screen.gridH :=
      Nat.mul_le_mul_right _ (hrow rfl)
    rw [RowFits] at h ⊢
    omega

theorem Laid.first (h : Laid screen m) (i : Nat) : screen.RowFits m.menuType m.menuStartY i i :=
  h.rowFits.mono (fun _ => by omega) fun _ => by omega

theorem Laid.last (h : Laid screen m) (hpos : 0 < m.menuShowCount) :
    screen.RowFits m.menuType m.menuStartY m.menuShowStart
    (m.menuShowStart + (m.menuShowCount - 1)) :=
  ((Screen.lt_menuShowCount_iff h.drawn h.shown h.menuType_ne _).mp (by omega)).2

theorem Laid.menuShowCount_pos (h : Laid screen m) (hlt : m.menuShowStart < m.menuItems.length) :
    0 < m.menuShowCount :=
  (Screen.lt_menuShowCount_iff h.drawn h.shown h.menuType_ne 0).mpr ⟨hlt, h.first _⟩

theorem Ready.menuSel_cases (h : Ready screen m) :
    (m.menuSel = -1 ∧ m.menuIsMain = false) ∨
      ∃ i : Nat, m.menuSel = i ∧ m.menuShowStart ≤ i ∧ i < m.menuShowStart + m.menuShowCount := by
  refine h.visible.selected.imp id ?_
  rintro ⟨c, hc, hsel⟩
  exact ⟨c.item, hsel, (mem_drawn_iff h.drawn h.shown h.menuType_ne).mp ⟨c, hc, rfl⟩⟩

theorem Laid.selected_of_mem (h : Laid screen m) {i : Nat} (hle : m.menuShowStart ≤ i)
    (hlt : i < m.menuShowStart + m.menuShowCount) : Selected screen m m.menuShowStart i := by
  obtain ⟨k, rfl⟩ := Nat.exists_eq_add_of_le hle
  have := (Screen.lt_menuShowCount_iff h.drawn h.shown h.menuType_ne k).mp (by omega)
  exact .inr ⟨_, rfl, hle, this.1, this.2⟩

/-! ## SelectMenu(int) -/

theorem Ready.wrapSelection_cases (h : Ready screen m) (sel : Int) :
    (Screen.wrapSelection m sel = -1 ∧ m.menuIsMain = false) ∨
      ∃ i : Nat, Screen.wrapSelection m sel = i ∧ i < m.menuItems.length := by
  have hitems : m.menuIsMain = true → 0 < m.menuItems.length := by
    intro hmain
    have hwindow := h.visible.window
    rcases h.menuSel_cases with ⟨-, hback⟩ | ⟨i, -, -, hlt⟩
    · simp [hmain] at hback
    · omega
  rw [Screen.wrapSelection]
  cases hmain : m.menuIsMain with
  | false =>
    simp only [Bool.false_eq_true, false_or, if_false, and_true]
    split
    · exact .inl rfl
    · split
      · rcases Nat.eq_zero_or_pos m.menuItems.length with hzero | hpos
        · exact .inl (by omega)
        · exact .inr ⟨m.menuItems.length - 1, by omega, by omega⟩
      · rcases Decidable.em (sel = -1) with hback | hitem
        · exact .inl hback
        · exact .inr ⟨sel.toNat, by omega, by omega⟩
  | true =>
    have hpos := hitems hmain
    right
    simp only [true_or, and_true, if_true]
    split
    · exact ⟨0, rfl, hpos⟩
    · split
      · exact ⟨m.menuItems.length - 1, by omega, by omega⟩
      · exact ⟨sel.toNat, by omega, by omega⟩

/-- Scrolling to a selection: the window then has it, and it stays where it was if it has it
already. -/
theorem Laid.scroll (h : Laid screen m) {i : Nat} (hi : i < m.menuItems.length)
    (hguard : m.menuType = .grid → m.menuShowStart + m.menuShowCount ≤ i → m.menuShowStart % 2 = 1 ∨
      i % 2 = 1) : ∃ start, Screen.scrollDown (Screen.scrollUp { m with menuSel := i }) =
        { m with menuSel := i, menuShowStart := start } ∧ start < m.menuItems.length ∧
        Selected screen m start i ∧
      (m.menuShowStart ≤ i → i < m.menuShowStart + m.menuShowCount → start = m.menuShowStart) := by
  have hpos := h.menuShowCount_pos (h.start.elim (fun hzero => by omega) id)
  rcases Nat.lt_or_ge i m.menuShowStart with hlt | hge
  · -- up: the selection is the first item
    have hup :
        Screen.scrollUp { m with menuSel := i } = { m with menuSel := i, menuShowStart := i } :=
      if_pos ⟨by dsimp only; omega, by dsimp only; omega⟩
    refine ⟨i, ?_, by omega, .inr ⟨i, rfl, Nat.le_refl i, hi, h.first i⟩, by omega⟩
    rw [hup]
    exact if_neg (by dsimp only; omega)
  · have hup : Screen.scrollUp { m with menuSel := i } = { m with menuSel := i } :=
      if_neg (by dsimp only; omega)
    rw [hup]
    rcases Nat.lt_or_ge i (m.menuShowStart + m.menuShowCount) with hin | hbelow
    · refine ⟨m.menuShowStart, if_neg (by dsimp only; omega),
        by omega, h.selected_of_mem hge hin, fun _ _ => rfl⟩
    · -- down: the selection is where the last item of the window was
      refine ⟨i - (m.menuShowCount - 1), ?_, by omega, .inr ⟨i, rfl, by omega, hi, ?_⟩, by omega⟩
      · rw [Screen.scrollDown, if_pos (by dsimp only; omega)]
        congr 1
        dsimp only
        omega
      · refine (h.last hpos).mono (fun _ => by omega) fun hgrid => ?_
        have := hguard hgrid hbelow
        omega

theorem Ready.redraw_or_same (h : Ready screen m) {sel : Int} {start : Nat}
    (hstart : start = 0 ∨ start < m.menuItems.length) (hsel : Selected screen m start sel)
    (hsame : sel = m.menuSel → start = m.menuShowStart) :
    ∃ m', (if sel ≠ m.menuSel then screen.draw { m with menuSel := sel, menuShowStart := start }
      else pure { m with menuSel := sel, menuShowStart := start }) = some m' ∧ Ready screen m' := by
  by_cases hchange : sel ≠ m.menuSel
  · rw [if_pos hchange]
    exact h.redraw hstart hsel
  · obtain rfl := Decidable.not_not.mp hchange
    obtain rfl := hsame rfl
    exact ⟨m, if_neg hchange, h⟩

theorem Ready.selectMenu (h : Ready screen m) (sel : Int)
    (hguard : (MenuCall.selectMenu sel).Guard screen m) :
    ∃ m', screen.selectMenu sel m = some m' ∧ Ready screen m' := by
  rw [Screen.selectMenu, if_pos h.shown]
  rw [MenuCall.Guard] at hguard
  rcases h.wrapSelection_cases sel with ⟨hback, hmain⟩ | ⟨i, hi, hlt⟩
  · rw [hback]
    have hup : Screen.scrollUp { m with menuSel := -1 } = { m with menuSel := -1 } :=
      if_neg fun hup => hup.1 rfl
    have hdown : Screen.scrollDown { m with menuSel := -1 } = { m with menuSel := -1 } :=
      if_neg (by dsimp only; omega)
    rw [hup, hdown]
    exact h.redraw_or_same h.start (.inl ⟨rfl, hmain⟩) fun _ => rfl
  · rw [hi] at hguard ⊢
    obtain ⟨start, heq, hstart, hsel, hsame⟩ := h.scroll hlt fun hgrid hle =>
      (hguard hgrid (by exact_mod_cast hle)).imp id fun hodd => by exact_mod_cast hodd
    rw [heq]
    refine h.redraw_or_same (.inr hstart) hsel fun hold => ?_
    have hold : (i : Int) = m.menuSel := hold
    rcases h.menuSel_cases with ⟨hback, -⟩ | ⟨j, hj, hle, hlt⟩
    · omega
    · obtain rfl : i = j := by omega
      exact hsame hle hlt

/-! ## SelectMenu(const Point&) -/

theorem touchedEntry_of_kept (h : TouchKept screen m p)
    (hcount : m.menuShowStart + m.menuShowCount ≤ m.menuItems.length) :
    ∃ sel, screen.touchedEntry m p = some sel ∧
      (sel = -1 ∨ (m.menuType = .list ∧ ∃ i : Nat, sel = i ∧ m.menuShowStart ≤ i ∧
        i < m.menuShowStart + m.menuShowCount) ∨ ∃ c ∈ m.drawn, sel = c.item) := by
  rw [TouchKept] at h
  by_cases hy : p.y < m.menuStartY
  · rw [if_pos hy] at h
    exact ⟨kNoAction, by rw [Screen.touchedEntry, if_pos hy, if_neg h], .inl rfl⟩
  · rw [if_neg hy] at h
    cases htype : m.menuType with
    | none =>
      refine ⟨kNoAction, ?_, .inl rfl⟩
      rw [Screen.touchedEntry, if_neg hy]
      simp [htype]
    | list =>
      simp only [htype] at h
      obtain ⟨hpos, hline⟩ := h
      obtain ⟨d, hd⟩ : ∃ d : Nat, p.y = m.menuStartY + d := ⟨(p.y - m.menuStartY).toNat, by omega⟩
      have hsub : p.y - m.menuStartY = d := by omega
      rw [hsub] at hline
      refine ⟨_, (touchedEntry_list htype hd).mpr ⟨hpos, rfl⟩, ?_⟩
      have hin : d / (3 * screen.menuCharHeight) < m.menuShowCount ∨
          m.menuItems.length - m.menuShowStart ≤ d / (3 * screen.menuCharHeight) := by
        refine hline.imp (fun hlt => ?_) fun hle => ?_
        · exact Nat.div_lt_of_lt_mul (by exact_mod_cast hlt)
        · rw [Nat.le_div_iff_mul_le (by omega), Nat.mul_comm]
          exact_mod_cast hle
      generalize d / (3 * screen.menuCharHeight) = touched at hin ⊢
      rw [entryOf]
      split
      · exact .inl rfl
      · exact .inr (.inl ⟨rfl, _, rfl, by omega, by omega⟩)
    | grid =>
      simp only [htype] at h
      obtain ⟨hunit, hrow, hcells⟩ := h
      refine ⟨_, (touchedEntry_grid htype (by omega)).mpr ⟨hunit, hrow, rfl⟩, ?_⟩
      rw [entryOf]
      split
      · exact .inl rfl
      · rename_i hlt
        rcases Decidable.em (gridNumber screen m p = kNoAction) with hnone | hsome
        · exact .inl hnone
        · have hcell := (gridNumber_eq_iff hunit hrow (by omega) hsome).mp rfl
          exact (hcells _ (by omega) hcell).imp id .inr

theorem Ready.selectPoint (h : Ready screen m) (hguard : TouchKept screen m p) :
    ∃ m', (screen.selectPoint p m).map Prod.fst = some m' ∧ Ready screen m' := by
  obtain ⟨sel, hsel, hfound⟩ := touchedEntry_of_kept hguard h.visible.window
  rw [Screen.selectPoint, if_pos h.shown]
  simp only [hsel, Option.bind_eq_bind, Option.bind_some]
  by_cases hchange : sel ≠ -1 ∧ sel ≠ m.menuSel
  · rw [if_pos hchange]
    have hitem :
        ∃ i : Nat, sel = i ∧ m.menuShowStart ≤ i ∧ i < m.menuShowStart + m.menuShowCount := by
      rcases hfound with hnone | ⟨-, hitem⟩ | ⟨c, hc, hitem⟩
      · exact absurd hnone hchange.1
      · exact hitem
      · exact ⟨c.item, hitem, (mem_drawn_iff h.drawn h.shown h.menuType_ne).mp ⟨c, hc, rfl⟩⟩
    obtain ⟨i, rfl, hle, hlt⟩ := hitem
    obtain ⟨m', hdraw, hready⟩ := h.redraw h.start (h.selected_of_mem hle hlt)
    have hdraw : screen.draw { m with menuSel := i } = some m' := hdraw
    exact ⟨m', by simp [hdraw], hready⟩
  · rw [if_neg hchange]
    exact ⟨m, rfl, h⟩

/-! ## ScrollMenu -/

theorem clampSelection_eq (start : Nat) : Screen.clampSelection { m with menuShowStart := start } =
    { m with
      menuShowStart := start
      menuSel := if m.menuSel < start then (start : Int)
        else if start + m.menuShowCount ≤ m.menuSel then start + m.menuShowCount - 1
        else m.menuSel } := by
  rw [Screen.clampSelection]
  split
  · rfl
  · split <;> rfl

theorem Ready.scrollDown (h : Ready screen m) :
    ∃ m', screen.scrollMenu true m = some m' ∧ Ready screen m' := by
  rw [Screen.scrollMenu, if_pos rfl]
  split
  · rename_i hmore
    rw [clampSelection_eq]
    have hpos := h.menuShowCount_pos (by omega)
    refine h.redraw (.inr (by omega)) (.inr ?_)
    have hsel :
        ∃ i : Nat,
        (if m.menuSel < (m.menuShowStart + 1 : Nat) then ((m.menuShowStart + 1 : Nat) : Int)
          else if (m.menuShowStart + 1 : Nat) + m.menuShowCount ≤ m.menuSel then
          (m.menuShowStart + 1 : Nat) + m.menuShowCount - 1 else m.menuSel) = i ∧
        m.menuShowStart + 1 ≤ i ∧
        (i ≤ m.menuShowStart + 1 ∨ i < m.menuShowStart + m.menuShowCount) := by
      rcases h.menuSel_cases with ⟨hback, -⟩ | ⟨i, hi, hle, hlt⟩
      · exact ⟨m.menuShowStart + 1, if_pos (by omega), Nat.le_refl _, .inl (Nat.le_refl _)⟩
      · rcases Nat.eq_or_lt_of_le hle with rfl | hle
        · exact ⟨m.menuShowStart + 1, if_pos (by omega), Nat.le_refl _, .inl (Nat.le_refl _)⟩
        · exact ⟨i, by rw [if_neg (by omega), if_neg (by omega), hi], by omega, .inr hlt⟩
    obtain ⟨i, hi, hle, hlt⟩ := hsel
    exact ⟨i, hi, hle, by omega, (h.last hpos).mono (fun _ => by omega) fun _ => by omega⟩
  · exact ⟨m, rfl, h⟩

theorem Ready.scrollUp (h : Ready screen m) (hguard : (MenuCall.scrollMenu false).Guard screen m) :
    ∃ m', screen.scrollMenu false m = some m' ∧ Ready screen m' := by
  rw [Screen.scrollMenu, if_neg (by decide)]
  split
  · rename_i hstart
    rw [clampSelection_eq]
    have hitems : m.menuShowStart < m.menuItems.length := h.start.resolve_left (by omega)
    have hpos := h.menuShowCount_pos hitems
    refine h.redraw (.inr (by omega)) (.inr ?_)
    rcases h.menuSel_cases with ⟨hback, -⟩ | ⟨i, hi, hle, hlt⟩
    · exact ⟨m.menuShowStart - 1, if_pos (by omega), Nat.le_refl _, by omega, h.first _⟩
    · have hwindow := h.visible.window
      refine ⟨min i (m.menuShowStart + m.menuShowCount - 2), ?_, by omega, by omega, ?_⟩
      · rw [if_neg (by omega)]
        split <;> omega
      · rcases Decidable.em (m.menuType = .grid) with hgrid | hlist
        · rcases hguard rfl hgrid with hodd | hback | hfits
          · exact (h.last hpos).mono (fun _ => by omega) fun _ => by omega
          · omega
          · rw [raised, hi, Int.toNat_natCast] at hfits
            rwa [hgrid]
        · exact (h.last hpos).mono (fun _ => by omega) fun hgrid => absurd hgrid hlist
  · exact ⟨m, rfl, h⟩

/-! ## StartMenu -/

theorem StartGuard.laid (h : StartGuard screen m) (hshow : m.showMenu = true)
    (hstart : m.menuShowStart = 0) : ∃ m₁, screen.draw m = some m₁ ∧ Laid screen m₁ ∧
    m₁.menuShowStart = 0 ∧
      ((m₁.menuSel = -1 ∧ m₁.menuIsMain = false) ∨ ∃ i : Nat, m₁.menuSel = i ∧
        i < m₁.menuItems.length ∧
        (m₁.menuType = .grid → i % 2 = 1 ∨ screen.RowFits .grid m₁.menuStartY 0 i)) := by
  obtain ⟨y, hy, hfits⟩ := h.fits
  have htype : m.menuType ≠ .none := by
    intro hnone
    rw [hnone] at hfits
    exact hfits
  obtain ⟨y', hy', -⟩ := @itemsStart_menuSel screen { m with menuSel := -1 } h.icons y hy m.menuSel
  obtain ⟨m₁, hdraw⟩ := draw_of_itemsStart hy'
  have hstartY := itemsStart_eq hdraw hshow htype
  have hpage := fun hgrid => (h.page hgrid).imp_right fun hfits => hfits _ hstartY
  refine ⟨m₁, hdraw, ?_⟩
  obtain ⟨startY, count, drawn, drawnBack, rfl⟩ := Screen.draw_menu hdraw
  refine ⟨⟨hshow, Screen.draw_draw hdraw, h.icons, ⟨y, hy, hfits⟩, .inl hstart⟩, hstart,
    h.selection.imp id ?_⟩
  rintro ⟨hnonneg, hlt⟩
  obtain ⟨i, hi⟩ := Int.eq_ofNat_of_zero_le hnonneg
  rw [hi] at hpage hlt
  exact ⟨i, hi, by exact_mod_cast hlt, fun hgrid => (hpage hgrid).imp (fun hodd => by omega) id⟩

theorem StartGuard.ready (h : StartGuard screen m) (hshow : m.showMenu = true)
    (hstart : m.menuShowStart = 0) :
    ∃ m', (screen.draw m).bind (fun m₁ => screen.draw (Screen.scrollDown m₁)) = some m' ∧
    Ready screen m' := by
  obtain ⟨m₁, hdraw, hlaid, hzero, hselection⟩ := h.laid hshow hstart
  rw [hdraw, Option.bind_some]
  rcases hselection with hback | ⟨i, hi, hlt, hfirst⟩
  · have hdown : Screen.scrollDown m₁ = m₁ := if_neg (by omega)
    rw [hdown]
    exact @Laid.redraw screen m₁ hlaid m₁.menuSel m₁.menuShowStart hlaid.start (.inl hback)
  · obtain ⟨start, heq, hstart', hsel, -⟩ := hlaid.scroll hlt fun hgrid hle => by
      refine (hfirst hgrid).elim .inr fun hfits => ?_
      have hshown := (Screen.lt_menuShowCount_iff hlaid.drawn hlaid.shown hlaid.menuType_ne i).mpr
        ⟨by omega, by rwa [hgrid, hzero, Nat.zero_add]⟩
      omega
    have hsame : { m₁ with menuSel := (i : Int) } = m₁ := by rw [← hi]
    have hup : Screen.scrollUp m₁ = m₁ := if_neg (by omega)
    rw [hsame, hup] at heq
    rw [heq]
    exact hlaid.redraw (.inr hstart') hsel

/-! ## Runs -/

theorem Ready.call (h : Ready screen m) {call : MenuCall} (hguard : call.Guard screen m) :
    ∃ m', call.run screen m = some m' ∧ Ready screen m' := by
  cases call with
  | startMenu isMain type headers items initialSelection => exact StartGuard.ready hguard rfl rfl
  | selectMenu sel => exact h.selectMenu sel hguard
  | selectPoint point => exact h.selectPoint hguard
  | scrollMenu down =>
    cases down with
    | true => exact h.scrollDown
    | false => exact h.scrollUp hguard

end

/-- The menus after some calls, the first of which starts a menu. -/
def menus (screen : Screen) : System Menu where
  init m := ∃ isMain type headers items initialSelection,
    (MenuCall.startMenu isMain type headers items initialSelection).run screen .init = some m
  step m m' := ∃ call : MenuCall, call.run screen m = some m'

/-- The menus after calls that meet their conditions. -/
def guardedMenus (screen : Screen) : System Menu where
  init m := ∃ isMain type headers items initialSelection,
    (MenuCall.startMenu isMain type headers items initialSelection).Guard screen .init ∧
      (MenuCall.startMenu isMain type headers items initialSelection).run screen .init = some m
  step m m' := ∃ call : MenuCall, call.Guard screen m ∧ call.run screen m = some m'

/-- The selection stays visible, and every call that meets its condition returns. -/
theorem visible_of_guarded {screen : Screen} {m : Menu} (h : (guardedMenus screen).Reach m) :
    m.Visible ∧ ∀ call : MenuCall, call.Guard screen m → ∃ m', call.run screen m = some m' := by
  have hinductive : (guardedMenus screen).Inductive (Ready screen) := by
    constructor
    · rintro m ⟨isMain, type, headers, items, initialSelection, hguard, hrun⟩
      obtain ⟨m', hrun', hready⟩ := StartGuard.ready hguard rfl rfl
      cases Option.some.inj (hrun'.symm.trans hrun)
      exact hready
    · rintro m m' hready ⟨call, hguard, hrun⟩
      obtain ⟨m'', hrun', hready'⟩ := hready.call hguard
      cases Option.some.inj (hrun'.symm.trans hrun)
      exact hready'
  have hready := hinductive.reach h
  exact ⟨hready.visible, fun call hguard => (hready.call hguard).imp fun _ => And.left⟩

/-- The second of two items is selected. -/
theorem visible_of_guarded_second : ∃ m : Menu, m.menuSel = 1 ∧ m.Visible := by
  have hstart :
      (MenuCall.startMenu true .list none ["one".toList, "two".toList] 0).Guard smallScreen .init :=
    ⟨.inr ⟨by decide, by decide⟩, nofun, .inl rfl, _, rfl, by decide⟩
  have hinit := System.Reach.init (S := guardedMenus smallScreen) ⟨_, _, _, _, _, hstart, rfl⟩
  have hselect := hinit.step ⟨.selectMenu 1, nofun, rfl⟩
  exact ⟨_, rfl, (visible_of_guarded hselect).1⟩

/-- A grid of four rows and nine items: with the last one selected the window starts with the second
one, and has no place for the last. -/
theorem not_visible : ¬∀ (screen : Screen) (m : Menu), (menus screen).Reach m →
    screen.RowFits m.menuType m.menuStartY 0 0 → m.Visible := by
  intro h
  obtain ⟨m₁, m₂, hstart, hselect, hfits, hsel, hdrawn⟩ : ∃ m₁ m₂,
      (MenuCall.startMenu true .grid none (List.replicate 9 "item".toList) 0).run smallScreen
      .init = some m₁ ∧ (MenuCall.selectMenu 8).run smallScreen m₁ = some m₂ ∧
      smallScreen.RowFits m₂.menuType m₂.menuStartY 0 0 ∧ m₂.menuSel = 8 ∧
      m₂.drawn.map Placed.item = [1, 2, 3, 4, 5, 6, 7] :=
    ⟨_, _, rfl, rfl, by decide, rfl, by decide⟩
  have hinit : (menus smallScreen).Reach m₁ := .init ⟨_, _, _, _, _, hstart⟩
  have hreach : (menus smallScreen).Reach m₂ := hinit.step ⟨_, hselect⟩
  rcases (h smallScreen m₂ hreach hfits).selected with ⟨hback, -⟩ | ⟨c, hc, hitem⟩
  · omega
  · have hmem := List.mem_map_of_mem (f := Placed.item) hc
    rw [hdrawn] at hmem
    have height : c.item = 8 := by omega
    rw [height] at hmem
    exact absurd hmem (by decide)

end BootableRecovery.ScreenUI
