import BootableRecovery.LibBase.Strings
import BootableRecovery.RecoveryUI.EventQueue
import Mathlib.Tactic.Ring

/-!
# Menus

The menus of `screen_ui.cpp`: where `draw_text_menu_locked` and `draw_grid_menu_locked` place the
items, and the calls that select and scroll. The state has what the last draw left, in the members
of `ScreenRecoveryUI` and on the screen. A call without a result does not return (it divides by 0,
or wraps a header to no columns).
-/

namespace BootableRecovery.ScreenUI

open RecoveryUI (Point)

def kNoAction : Int := -1
def kGoBack : Int := -5

/-- `menu_type_t` -/
inductive MenuType
  | none
  | list
  | grid
  deriving DecidableEq

/-- The size of an image. -/
structure Icon where
  width : Nat
  height : Nat

/-- The screen, its font and the images of the header, which may not have been found. -/
structure Screen where
  fbWidth : Nat
  fbHeight : Nat
  kMarginWidth : Nat
  kMarginHeight : Nat
  menuCharHeight : Nat
  textCols : Nat
  icBack : Option Icon
  icBackSel : Option Icon
  logoImage : Option Icon

/-- An item on the screen, with its upper left corner. -/
structure Placed where
  item : Nat
  x : Nat
  y : Nat
  deriving DecidableEq

/-- An image on the screen. -/
structure PlacedIcon where
  x : Int
  y : Int
  icon : Icon

/-- The menu of `ScreenRecoveryUI`; `drawn` and `drawnBack` are the items and the back icon of the
last draw. -/
structure Menu where
  menuIsMain : Bool
  menuType : MenuType
  menuHeaders : Option (List Text)
  menuItems : List Text
  menuStartY : Nat
  showMenu : Bool
  menuShowStart : Nat
  menuShowCount : Nat
  menuSel : Int
  drawn : List Placed
  drawnBack : Option PlacedIcon

/-- `ScreenRecoveryUI()` -/
def Menu.init : Menu := ⟨true, .none, none, [], 0, false, 0, 0, 0, [], none⟩

namespace Screen
variable (screen : Screen)

def hUnit : Nat := screen.fbWidth / 9

def vUnit : Nat := screen.fbHeight / 16

def menuItemHeight : Nat := 3 * screen.menuCharHeight

def kMinItemHeight : Nat := screen.menuItemHeight * 3 / 4

def kMenuIndent : Nat := 4

def gridW : Nat := screen.hUnit * 3

def gridH : Nat := screen.vUnit * 3

/-! ## Headers -/

/-- `find_last_of(" \t\n")` -/
def lastSpace : Text → Option Nat
  | [] => none
  | c :: cs =>
    match lastSpace cs with
    | some i => some (i + 1)
    | none => if c = ' ' ∨ c = '\t' ∨ c = '\n' then some 0 else none

/-- The number of lines that a line of `DrawWrappedTextLines` takes. -/
def wrappedLines (textCols : Nat) : (fuel : Nat) → Text → Option Nat
  | _, [] => some 0
  | 0, _ => none
  | fuel + 1, line =>
    let sub := line.take (textCols + 1)
    let next :=
      if sub.length ≤ textCols then sub.length
      else match lastSpace sub with
        | none => textCols
        | some last => last + 1
    (wrappedLines textCols fuel (line.drop next)).map (· + 1)

def drawWrappedTextLines (lines : List Text) : Option Nat := do
  let counts ← lines.mapM fun line => wrappedLines screen.textCols line.length line
  pure (counts.sum * (screen.menuCharHeight + 4))

/-- The icon that `draw_header_locked` takes for the back entry. -/
def backIcon (m : Menu) : Option Icon :=
  if m.menuIsMain then none else if m.menuSel = -1 then screen.icBackSel else screen.icBack

/-- The back icon of `draw_header_locked`. -/
def placedBack (m : Menu) : Option PlacedIcon :=
  (screen.backIcon m).map fun icon =>
    ⟨screen.kMarginWidth + (screen.hUnit / 2 : Nat) + ((screen.hUnit : Int) - icon.width).tdiv 2,
      screen.kMarginHeight + (screen.vUnit / 2 : Nat) + ((screen.vUnit : Int) - icon.height).tdiv 2,
      icon⟩

/-- `draw_header_locked`: where the header ends. -/
def drawHeader (m : Menu) (y : Nat) : Nat :=
  let y := if (screen.backIcon m).isSome then y + screen.vUnit / 2 + screen.vUnit else y
  let y := if screen.logoImage.isSome then y + screen.vUnit / 2 + screen.vUnit * 4 else y
  y + screen.vUnit

/-! ## Items -/

/-- The loop of `draw_text_menu_locked`. -/
def textItems : (y i : Nat) → List Text → List Placed
  | _, _, [] => []
  | y, i, _ :: items =>
    if y + screen.kMinItemHeight < screen.fbHeight then
      ⟨i, screen.kMarginWidth + kMenuIndent, y⟩ ::
        textItems (y + screen.menuCharHeight) (i + 1) items
    else []

/-- The loop of `draw_grid_menu_locked`. -/
def gridItems : (y i : Nat) → List Text → List Placed
  | _, _, [] => []
  | y, i, _ :: items =>
    if y + screen.gridH < screen.fbHeight then
      ⟨i, screen.kMarginWidth + (if i % 2 = 1 then screen.hUnit * 5 else screen.hUnit * 1), y⟩ ::
        gridItems (if i % 2 = 1 then y + screen.gridH else y) (i + 1) items
    else []

/-- `draw_text_menu_locked` from the end of the header on: where the items start. -/
def textMenuStart (m : Menu) : Option Nat := do
  let y := screen.drawHeader m screen.kMarginHeight
  match m.menuHeaders with
  | none => pure y
  | some headers =>
    let height ← screen.drawWrappedTextLines headers
    pure (y + height + (8 + 4))

/-- The menu with the items that have been drawn from `y` on. -/
def place (m : Menu) (y : Nat) (drawn : List Placed) : Menu :=
  { m with
    menuStartY := y, menuShowCount := drawn.length, drawn := drawn
    drawnBack := screen.placedBack m }

/-- `draw_screen_locked` -/
def draw (m : Menu) : Option Menu :=
  if m.showMenu then
    match m.menuType with
    | .none => pure { m with drawn := [], drawnBack := none }
    | .list => do
      let y ← screen.textMenuStart m
      pure (screen.place m y
        (screen.textItems y m.menuShowStart (m.menuItems.drop m.menuShowStart)))
    | .grid =>
      let y := screen.drawHeader m screen.kMarginHeight
      pure (screen.place m y
        (screen.gridItems y m.menuShowStart (m.menuItems.drop m.menuShowStart)))
  else pure { m with drawn := [], drawnBack := none }

/-! ## Calls -/

/-- `menu_show_start = menu_sel - (menu_show_count - 1)`, for a selection behind the items that are
shown. -/
def scrollDown (m : Menu) : Menu :=
  if m.menuShowStart + m.menuShowCount ≤ m.menuSel then
    { m with menuShowStart := (m.menuSel - (m.menuShowCount - 1)).toNat }
  else m

def startMenu (isMain : Bool) (type : MenuType) (headers : Option (List Text)) (items : List Text)
    (initialSelection : Int) (m : Menu) : Option Menu := do
  let m ← screen.draw { m with
    menuIsMain := isMain, menuType := type, menuHeaders := headers, menuItems :=
      m.menuItems ++ items,
    showMenu := true, menuSel := initialSelection, menuShowStart := 0 }
  screen.draw (scrollDown m)

/-- Wrapping and the back item of `SelectMenu(int)`. -/
def wrapSelection (m : Menu) (sel : Int) : Int :=
  if m.menuItems.length ≤ sel then (if m.menuIsMain then 0 else -1)
  else if sel < 0 ∧ (m.menuIsMain ∨ sel < -1) then m.menuItems.length - 1
  else sel

/-- `if (menu_sel != -1 && menu_sel < menu_show_start) menu_show_start = menu_sel` -/
def scrollUp (m : Menu) : Menu :=
  if m.menuSel ≠ -1 ∧ m.menuSel < m.menuShowStart then { m with menuShowStart := m.menuSel.toNat }
  else m

/-- `SelectMenu(int)`; the result is `menu_sel`. -/
def selectMenu (sel : Int) (m : Menu) : Option Menu :=
  if m.showMenu then
    let m' := scrollDown (scrollUp { m with menuSel := wrapSelection m sel })
    if m'.menuSel ≠ m.menuSel then screen.draw m' else pure m'
  else pure m

/-- The entry that `SelectMenu(const Point&)` finds at a point. -/
def touchedEntry (m : Menu) (point : Point) : Option Int :=
  if point.y < m.menuStartY then
    if m.menuIsMain = false ∧ (screen.hUnit / 2 : Nat) ≤ point.x ∧
      point.x < (screen.hUnit * 3 / 2 : Nat) ∧
        (screen.vUnit * 1 / 2 : Nat) ≤ point.y ∧ point.y < (screen.vUnit * 3 / 2 : Nat)
        then some kGoBack
    else some kNoAction
  else do
    let sel ← match m.menuType with
      | .list =>
        if screen.menuCharHeight * 3 = 0 then none
        else pure ((point.y - m.menuStartY).tdiv (screen.menuCharHeight * 3 : Nat) +
          m.menuShowStart)
      | .grid =>
        if screen.fbHeight * 3 / 16 = 0 ∨ screen.fbWidth / 9 = 0 then none
        else
          let row := (point.y - m.menuStartY).tdiv (screen.fbHeight * 3 / 16 : Nat)
          let col := point.x.tdiv (screen.fbWidth / 9 : Nat)
          pure (if col.tmod 4 ≠ 0 then row * 2 + (col - 1).tdiv 4 else kNoAction)
      | .none => pure kNoAction
    pure (if m.menuItems.length ≤ sel then kNoAction else sel)

/-- `SelectMenu(const Point&)` -/
def selectPoint (point : Point) (m : Menu) : Option (Menu × Int) :=
  if m.showMenu then do
    let sel ← screen.touchedEntry m point
    if sel ≠ -1 ∧ sel ≠ m.menuSel then
      let m ← screen.draw { m with menuSel := sel }
      pure (m, sel)
    else pure (m, sel)
  else pure (m, kNoAction)

/-- The selection that `ScrollMenu` keeps on the screen. -/
def clampSelection (m : Menu) : Menu :=
  if m.menuSel < m.menuShowStart then { m with menuSel := m.menuShowStart }
  else if m.menuShowStart + m.menuShowCount ≤ m.menuSel then
    { m with menuSel := m.menuShowStart + m.menuShowCount - 1 }
  else m

/-- `ScrollMenu` by one item, down or up; the result is `menu_sel`. -/
def scrollMenu (down : Bool) (m : Menu) : Option Menu :=
  if down then
    if m.menuShowStart + m.menuShowCount < m.menuItems.length then
      screen.draw (clampSelection { m with menuShowStart := m.menuShowStart + 1 })
    else pure m
  else
    if 0 < m.menuShowStart
      then screen.draw (clampSelection { m with menuShowStart := m.menuShowStart - 1 })
    else pure m

end Screen

section
variable {screen : Screen} {m m' : Menu}

/-! ## Placing items -/

theorem textItems_eq (y i : Nat) (items : List Text) :
    screen.textItems y i items = (List.range (screen.textItems y i items).length).map fun k =>
      ⟨i + k, screen.kMarginWidth + Screen.kMenuIndent, y + k * screen.menuCharHeight⟩ := by
  induction items generalizing y i with
  | nil => rfl
  | cons item items ih =>
    rw [Screen.textItems]
    split
    · rw [List.length_cons, List.range_succ_eq_map, List.map_cons, List.map_map]
      conv_lhs => rw [ih]
      congr 1
      · simp
      · apply List.map_congr_left
        intro k _
        simp only [Function.comp_apply, Placed.mk.injEq, true_and]
        constructor
        · omega
        · rw [Nat.succ_eq_add_one]
          ring
    · rfl

theorem gridItems_eq (y i : Nat) (items : List Text) :
    screen.gridItems y i items = (List.range (screen.gridItems y i items).length).map fun k =>
      ⟨i + k, screen.kMarginWidth +
        (if (i + k) % 2 = 1 then screen.hUnit * 5 else screen.hUnit * 1),
        y + ((i + k) / 2 - i / 2) * screen.gridH⟩ := by
  induction items generalizing y i with
  | nil => rfl
  | cons item items ih =>
    rw [Screen.gridItems]
    split
    · rw [List.length_cons, List.range_succ_eq_map, List.map_cons, List.map_map]
      conv_lhs => rw [ih]
      congr 1
      · simp
      · apply List.map_congr_left
        intro k _
        simp only [Function.comp_apply, Placed.mk.injEq]
        have hik : i + 1 + k = i + (k + 1) := by omega
        refine ⟨hik, by rw [hik], ?_⟩
        rw [hik]
        split
        · rename_i hodd
          have hrow : (i + (k + 1)) / 2 - i / 2 = (i + (k + 1)) / 2 - (i + 1) / 2 + 1 := by omega
          rw [Nat.succ_eq_add_one, hrow]
          ring
        · rename_i heven
          have hrow : (i + (k + 1)) / 2 - i / 2 = (i + (k + 1)) / 2 - (i + 1) / 2 := by omega
          rw [Nat.succ_eq_add_one, hrow]
    · rfl

theorem length_textItems_le (y i : Nat) (items : List Text) :
    (screen.textItems y i items).length ≤ items.length := by
  induction items generalizing y i with
  | nil => exact Nat.le_refl _
  | cons item items ih =>
    rw [Screen.textItems]
    split
    · exact Nat.succ_le_succ (ih _ _)
    · exact Nat.zero_le _

theorem length_gridItems_le (y i : Nat) (items : List Text) :
    (screen.gridItems y i items).length ≤ items.length := by
  induction items generalizing y i with
  | nil => exact Nat.le_refl _
  | cons item items ih =>
    rw [Screen.gridItems]
    split
    · exact Nat.succ_le_succ (ih _ _)
    · exact Nat.zero_le _

/-! ## What a draw leaves -/

theorem Screen.draw_menu (h : screen.draw m = some m') :
    ∃ startY count drawn drawnBack, m' = { m with
      menuStartY := startY, menuShowCount := count, drawn := drawn, drawnBack := drawnBack } := by
  rw [draw] at h
  split at h
  · split at h
    · cases h
      exact ⟨_, _, _, _, rfl⟩
    · obtain ⟨y, -, hplace⟩ := Option.bind_eq_some_iff.mp h
      cases hplace
      exact ⟨_, _, _, _, rfl⟩
    · cases h
      exact ⟨_, _, _, _, rfl⟩
  · cases h
    exact ⟨_, _, _, _, rfl⟩

theorem Screen.drawn_of_not_showMenu (h : screen.draw m = some m') (hshow : m'.showMenu ≠ true) :
    m'.drawn = [] := by
  obtain ⟨startY, count, drawn, drawnBack, rfl⟩ := draw_menu h
  rw [draw, if_neg hshow] at h
  exact congrArg Menu.drawn (Option.some.inj h).symm

theorem Screen.drawn_of_none (h : screen.draw m = some m') (htype : m'.menuType = .none) :
    m'.drawn = [] := by
  obtain ⟨startY, count, drawn, drawnBack, rfl⟩ := draw_menu h
  rw [draw] at h
  split at h
  · split at h
    · exact congrArg Menu.drawn (Option.some.inj h).symm
    · rename_i hlist
      cases hlist.symm.trans htype
    · rename_i hgrid
      cases hgrid.symm.trans htype
  · exact congrArg Menu.drawn (Option.some.inj h).symm

theorem Screen.drawn_of_list (h : screen.draw m = some m') (hshow : m'.showMenu = true)
    (htype : m'.menuType = .list) : m'.menuShowCount ≤ m'.menuItems.length - m'.menuShowStart ∧
      m'.drawn = (List.range m'.menuShowCount).map fun k =>
        ⟨m'.menuShowStart + k, screen.kMarginWidth + Screen.kMenuIndent,
          m'.menuStartY + k * screen.menuCharHeight⟩ := by
  obtain ⟨startY, count, drawn, drawnBack, rfl⟩ := draw_menu h
  rw [draw, if_pos hshow] at h
  split at h
  · rename_i hnone
    cases hnone.symm.trans htype
  · obtain ⟨y, -, hplace⟩ := Option.bind_eq_some_iff.mp h
    cases hplace
    exact ⟨(length_textItems_le _ _ _).trans_eq List.length_drop, textItems_eq _ _ _⟩
  · rename_i hgrid
    cases hgrid.symm.trans htype

theorem Screen.drawn_of_grid (h : screen.draw m = some m') (hshow : m'.showMenu = true)
    (htype : m'.menuType = .grid) : m'.menuShowCount ≤ m'.menuItems.length - m'.menuShowStart ∧
      m'.drawn = (List.range m'.menuShowCount).map fun k =>
        ⟨m'.menuShowStart + k,
          screen.kMarginWidth +
            (if (m'.menuShowStart + k) % 2 = 1 then screen.hUnit * 5 else screen.hUnit * 1),
          m'.menuStartY + ((m'.menuShowStart + k) / 2 - m'.menuShowStart / 2) * screen.gridH⟩ := by
  obtain ⟨startY, count, drawn, drawnBack, rfl⟩ := draw_menu h
  rw [draw, if_pos hshow] at h
  split at h
  · rename_i hnone
    cases hnone.symm.trans htype
  · rename_i hlist
    cases hlist.symm.trans htype
  · cases h
    exact ⟨(length_gridItems_le _ _ _).trans_eq List.length_drop, gridItems_eq _ _ _⟩

theorem Screen.draw_menuSel (h : screen.draw m = some m') (sel : Int) :
    ∃ m'', screen.draw { m' with menuSel := sel } = some m'' := by
  obtain ⟨startY, count, drawn, drawnBack, rfl⟩ := draw_menu h
  rw [draw] at h ⊢
  by_cases hshow : m.showMenu = true
  · rw [if_pos hshow] at h ⊢
    cases htype : m.menuType with
    | none => exact ⟨_, rfl⟩
    | list =>
      simp only [htype] at h ⊢
      obtain ⟨y, hy, -⟩ := Option.bind_eq_some_iff.mp h
      cases hheaders : m.menuHeaders with
      | none => exact ⟨_, rfl⟩
      | some headers =>
        rw [textMenuStart] at hy ⊢
        simp only [hheaders] at hy ⊢
        obtain ⟨height, hheight, -⟩ := Option.bind_eq_some_iff.mp hy
        simp only [hheight]
        exact ⟨_, rfl⟩
    | grid => exact ⟨_, rfl⟩
  · rw [if_neg hshow]
    exact ⟨_, rfl⟩

end

end BootableRecovery.ScreenUI
