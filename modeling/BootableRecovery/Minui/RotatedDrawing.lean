import BootableRecovery.Minui.Graphics
import Mathlib.Tactic.Ring
import Mathlib.Tactic.Linarith

/-!
# Rotated drawing

Every pixel of a rectangle that passes `outside` should be a pixel of the surface, and the one that
the unrotated drawing has at the rotated coordinates. With `ROTATION_RIGHT` `pixel_at` is one pixel
too far to the right.
-/

namespace BootableRecovery.Minui

variable (g : Graphics)

/-! ## Rotation -/

/-- The column and the row of a point in the surface. -/
def unrotated (x y : Int) : Int × Int :=
  match g.rotation with
  | .none => (x, y)
  | .right => (g.grDraw.width - 1 - y, x)
  | .down => (g.grDraw.width - 1 - x, g.grDraw.height - 1 - y)
  | .left => (y, g.grDraw.height - 1 - x)

/-- A pixel of the surface. -/
def Inside (surf : DrawSurface) (a : Int) : Prop :=
  ∃ row < surf.height, ∃ col < surf.width, a = row * surf.rowPixels + col

/-- A rectangle in the coordinates of the rotation. -/
structure Rect where
  x : Int
  y : Int
  w : Int
  h : Int

def Rect.Mem (r : Rect) (x y : Int) : Prop := r.x ≤ x ∧ x < r.x + r.w ∧ r.y ≤ y ∧ y < r.y + r.h

/-- The rectangle passes the tests of `gr_fill`, `gr_blit` and `gr_text`. -/
def Rect.Passes (r : Rect) : Prop := ¬Outside g r.x r.y ∧ ¬Outside g (r.x + r.w - 1) (r.y + r.h - 1)

inductive Step
  | x
  | y
  deriving DecidableEq

def Step.run : Step → Int → Int
  | .x => incrX g
  | .y => incrY g

/-- Some calls of `incr_x` and `incr_y`. -/
def walk (steps : List Step) (p : Int) : Int := steps.foldl (fun p step => step.run g p) p

/-- What the addresses of a rectangle should be. -/
structure RectRight (r : Rect) : Prop where
  inside : ∀ steps : List Step, r.Mem (r.x + steps.count .x) (r.y + steps.count .y) →
    Inside g.grDraw (walk g steps (pixelAt g r.x r.y))
  distinct : ∀ x y x' y', r.Mem x y → r.Mem x' y' → pixelAt g x y = pixelAt g x' y' →
    x = x' ∧ y = y'
  step_x : ∀ x y, r.Mem x y → incrX g (pixelAt g x y) = pixelAt g (x + 1) y
  step_y : ∀ x y, r.Mem x y → incrY g (pixelAt g x y) = pixelAt g x (y + 1)
  rotated : ∀ x y, r.Mem x y →
    pixelAt g x y = pixelAt { g with rotation := .none } (unrotated g x y).1 (unrotated g x y).2

/-- The pixel that `ROTATION_RIGHT` puts outside of the surface: it is behind the last column, where
the next row does not follow at once. -/
def Stray (x y : Int) : Prop :=
  g.rotation = .right ∧ y = 0 ∧ (g.grDraw.width < g.grDraw.rowPixels ∨ g.grDraw.height ≤ x + 1)

/-- The rectangle has no such pixel. -/
def Rect.Clean (r : Rect) : Prop :=
  g.rotation = .right → 0 < r.w → 0 < r.h →
    r.y ≠ 0 ∨ g.grDraw.rowPixels = g.grDraw.width ∧ r.x + r.w < g.grDraw.height

/-! ## Calls -/

inductive Call
  | fill (x1 y1 x2 y2 : Int)
  | blit (source : Option Source) (sx sy w h dx dy : Int)
  | text (font : Option GRFont) (x y : Int) (s : List UInt8) (bold : Bool)

def Call.run : Call → Drawing → Drawing
  | .fill x1 y1 x2 y2 => grFill g x1 y1 x2 y2
  | .blit source sx sy w h dx dy => grBlit g source sx sy w h dx dy
  | .text font x y s bold => grText g font x y s bold

/-- Nothing was written outside of the surface. -/
def AllInside (d : Drawing) : Prop := ∀ a ∈ d.written, Inside g.grDraw a

/-- The rectangle of the `k`-th character of a text. -/
def charRect (font : GRFont) (x y : Int) (k : Nat) : Rect :=
  ⟨x + k * font.charWidth, y, font.charWidth, font.charHeight⟩

/-- The condition of a call: each rectangle that is drawn is clean, and no negative width is
copied. -/
def Call.Guard : Call → Prop
  | .fill x1 y1 x2 y2 =>
    let r : Rect := ⟨x1 + g.overscanOffsetX, y1 + g.overscanOffsetY, x2 - x1, y2 - y1⟩
    r.Passes g → 0 < alphaOf g.grCurrent → r.Clean g
  | .blit source _ _ w h dx dy =>
    let r : Rect := ⟨dx + g.overscanOffsetX, dy + g.overscanOffsetY, w, h⟩
    ∀ image ∈ source, image.pixelBytes = 4 → r.Passes g →
      r.Clean g ∧ (g.rotation = .none → 0 < h → 0 ≤ w)
  | .text font x y s _ =>
    ∀ f ∈ font, g.grCurrent &&& alphaMask ≠ 0 → f.pixelBytes = 1 → ∀ k < s.length,
      (∀ l ≤ k, (charRect f (x + g.overscanOffsetX) (y + g.overscanOffsetY) l).Passes g) →
        (charRect f (x + g.overscanOffsetX) (y + g.overscanOffsetY) k).Clean g

/-! ## Steps -/

section
variable {g}

theorem incrX_pixelAt (x y : Int) : incrX g (pixelAt g x y) = pixelAt g (x + 1) y := by
  cases h : g.rotation <;> simp only [incrX, pixelAt, h, GRRotation.odd] <;> simp <;> ring

theorem incrY_pixelAt (x y : Int) : incrY g (pixelAt g x y) = pixelAt g x (y + 1) := by
  cases h : g.rotation <;> simp only [incrY, pixelAt, h, GRRotation.odd] <;> simp <;> ring

theorem iterate_incrX_pixelAt (n : Nat) (x y : Int) :
    (incrX g)^[n] (pixelAt g x y) = pixelAt g (x + n) y := by
  induction n with
  | zero => simp
  | succ n ih => rw [Function.iterate_succ_apply', ih, incrX_pixelAt, Nat.cast_succ, add_assoc]

theorem iterate_incrY_pixelAt (n : Nat) (x y : Int) :
    (incrY g)^[n] (pixelAt g x y) = pixelAt g x (y + n) := by
  induction n with
  | zero => simp
  | succ n ih => rw [Function.iterate_succ_apply', ih, incrY_pixelAt, Nat.cast_succ, add_assoc]

theorem walk_pixelAt (steps : List Step) (x y : Int) :
    walk g steps (pixelAt g x y) = pixelAt g (x + steps.count .x) (y + steps.count .y) := by
  induction steps generalizing x y with
  | nil => simp [walk]
  | cons step steps ih =>
    cases step with
    | x =>
      rw [walk, List.foldl_cons, Step.run, incrX_pixelAt, ← walk, ih]
      simp [add_assoc, add_comm (1 : Int)]
    | y =>
      rw [walk, List.foldl_cons, Step.run, incrY_pixelAt, ← walk, ih]
      simp [add_assoc, add_comm (1 : Int)]

/-! ## Addresses -/

/-- A row and a column are determined by an address: the rows do not overlap. -/
theorem address_inj {n row col row' col' : Int} (h : row * n + col = row' * n + col') (h₀ : 0 ≤ col)
    (h₁ : col < n) (h₀' : 0 ≤ col') (h₁' : col' < n) : row = row' ∧ col = col' := by
  have hrow : row = row' := by
    have := congrArg (· / n) h
    simp only [add_comm _ col, add_comm _ col'] at this
    rwa [Int.add_mul_ediv_right _ _ (by omega), Int.add_mul_ediv_right _ _ (by omega),
      Int.ediv_eq_zero_of_lt h₀ h₁, Int.ediv_eq_zero_of_lt h₀' h₁', zero_add, zero_add] at this
  rw [hrow] at h
  exact ⟨hrow, add_left_cancel h⟩

/-- The coordinates in the surface of the pixels that `outside` accepts. -/
theorem not_outside_iff (x y : Int) : ¬Outside g x y ↔
    (0 ≤ (unrotated g x y).1 ∧ (unrotated g x y).1 < g.grDraw.width) ∧
      0 ≤ (unrotated g x y).2 ∧ (unrotated g x y).2 < g.grDraw.height := by
  cases h : g.rotation <;> simp only [Outside, unrotated, h, GRRotation.odd] <;> simp <;> omega

theorem unrotated_inj {x y x' y' : Int} (h : unrotated g x y = unrotated g x' y') :
    x = x' ∧ y = y' := by
  cases hrot : g.rotation <;> simp only [unrotated, hrot, Prod.mk.injEq] at h <;> omega

/-- The address is that of the coordinates in the surface, or the next one. -/
theorem pixelAt_eq (x y : Int) : pixelAt g x y =
    (unrotated g x y).2 * g.grDraw.rowPixels + (unrotated g x y).1 + if g.rotation = .right then 1
    else 0 := by
  cases h : g.rotation <;> simp only [pixelAt, unrotated, h] <;> simp
  omega

theorem rotated_iff (x y : Int) :
    pixelAt g x y = pixelAt { g with rotation := .none } (unrotated g x y).1 (unrotated g x y).2 ↔
      g.rotation ≠ .right := by
  rw [pixelAt_eq]
  show _ = (unrotated g x y).2 * (g.grDraw.rowPixels : Int) + (unrotated g x y).1 ↔ _
  split
  · rename_i h
    exact iff_of_false (by omega) (not_not_intro h)
  · rename_i h
    exact iff_of_true (add_zero _) h

theorem pixelAt_inj {x y x' y' : Int} (hin : ¬Outside g x y) (hin' : ¬Outside g x' y')
    (h : pixelAt g x y = pixelAt g x' y') : x = x' ∧ y = y' := by
  rw [pixelAt_eq, pixelAt_eq] at h
  have hwidth := g.grDraw.width_le
  obtain ⟨⟨h₀, h₁⟩, -⟩ := (not_outside_iff x y).mp hin
  obtain ⟨⟨h₀', h₁'⟩, -⟩ := (not_outside_iff x' y').mp hin'
  obtain ⟨hrow, hcol⟩ := address_inj (add_right_cancel h) h₀ (by omega) h₀' (by omega)
  exact unrotated_inj (Prod.ext hcol hrow)

theorem inside_address {surf : DrawSurface} {row col : Int} (hcol : 0 ≤ col ∧ col < surf.width)
    (hrow : 0 ≤ row ∧ row < surf.height) : Inside surf (row * surf.rowPixels + col) :=
  ⟨row.toNat,
    by omega, col.toNat, by omega, by rw [Int.toNat_of_nonneg hrow.1, Int.toNat_of_nonneg hcol.1]⟩

/-- Behind the last column is the next row, if the rows have no padding. -/
theorem inside_next_iff {surf : DrawSurface} {row : Int} (hrow : 0 ≤ row ∧ row < surf.height)
    (hne : 0 < surf.width) : Inside surf (row * surf.rowPixels + surf.width) ↔
    ¬(surf.width < surf.rowPixels ∨ surf.height ≤ row + 1) := by
  have hwidth := surf.width_le
  rcases Nat.lt_or_eq_of_le hwidth with hlt | heq
  · refine iff_of_false ?_ (not_not_intro (.inl hlt))
    rintro ⟨row', -, col', hcol', h⟩
    obtain ⟨-, hcol⟩ := address_inj h (by omega) (by omega) (by omega) (by omega)
    omega
  · have hnext : row * (surf.rowPixels : Int) + surf.width = (row + 1) * surf.rowPixels + 0 := by
      rw [heq]
      ring
    rw [hnext, or_iff_right (by omega), not_le]
    constructor
    · rintro ⟨row', hrow', col', hcol', h⟩
      obtain ⟨hrows, -⟩ := address_inj h (by omega) (by omega) (by omega) (by omega)
      omega
    · intro h
      exact inside_address ⟨by omega, by omega⟩ ⟨by omega, h⟩

theorem inside_pixelAt_iff {x y : Int} (hin : ¬Outside g x y) : Inside g.grDraw (pixelAt g x y) ↔
    ¬Stray g x y := by
  obtain ⟨hcol, hrow⟩ := (not_outside_iff x y).mp hin
  rw [pixelAt_eq, Stray]
  split
  · rename_i hright
    rw [and_iff_right hright]
    simp only [unrotated, hright] at hcol hrow ⊢
    rcases Decidable.em (y = 0) with rfl | hne
    · have hedge : x * (g.grDraw.rowPixels : Int) + (g.grDraw.width - 1 - 0) + 1 =
          x * g.grDraw.rowPixels + g.grDraw.width := by omega
      rw [hedge, inside_next_iff hrow (by omega), and_iff_right rfl]
    · rw [add_assoc]
      exact iff_of_true (inside_address ⟨by omega, by omega⟩ hrow) fun h => hne h.1
  · rename_i hright
    rw [add_zero]
    exact iff_of_true (inside_address hcol hrow) fun h => hright h.1

/-! ## Rectangles -/

variable {r : Rect}

theorem Rect.Passes.not_outside (h : r.Passes g) {x y : Int} (hmem : r.Mem x y) :
    ¬Outside g x y := by
  obtain ⟨hfirst, hlast⟩ := h
  obtain ⟨hx, hx', hy, hy'⟩ := hmem
  rw [Outside] at hfirst hlast ⊢
  omega

theorem Rect.Passes.inside_iff (h : r.Passes g) :
    (∀ x y, r.Mem x y → Inside g.grDraw (pixelAt g x y)) ↔ r.Clean g := by
  have hstray : (∀ x y, r.Mem x y → Inside g.grDraw (pixelAt g x y)) ↔
      ∀ x y, r.Mem x y → ¬Stray g x y :=
    forall₃_congr fun x y hmem => inside_pixelAt_iff (h.not_outside hmem)
  rw [hstray]
  have hwidth := g.grDraw.width_le
  constructor
  · intro hall hright hw hh
    have hlast := hall (r.x + r.w - 1) r.y ⟨by omega, by omega, by omega, by omega⟩
    by_contra hnot
    exact hlast ⟨hright, by omega, by omega⟩
  · rintro hclean x y ⟨hx, hx', hy, hy'⟩ ⟨hright, rfl, hstray⟩
    have hfirst := h.1
    rw [Outside] at hfirst
    have := hclean hright (by omega) (by omega)
    omega

/-- The addresses of a rectangle are right in each rotation but `ROTATION_RIGHT`. -/
theorem rectRight_iff (h : r.Passes g) : RectRight g r ↔
    g.rotation ≠ .right ∨ r.w ≤ 0 ∨ r.h ≤ 0 := by
  constructor
  · intro hright
    by_contra hnot
    exact hnot
      (.inl ((rotated_iff _ _).mp
        (hright.rotated r.x r.y ⟨by omega, by omega, by omega, by omega⟩)))
  · intro hcond
    have hrotation {x y : Int} (hmem : r.Mem x y) : g.rotation ≠ .right :=
      hcond.resolve_right fun hempty => by
        obtain ⟨hx, hx', hy, hy'⟩ := hmem
        omega
    constructor
    case inside =>
      intro steps hmem
      rw [walk_pixelAt, inside_pixelAt_iff (h.not_outside hmem)]
      exact fun hstray => hrotation hmem hstray.1
    case distinct =>
      exact fun x y x' y' hmem hmem' => pixelAt_inj (h.not_outside hmem) (h.not_outside hmem')
    case step_x => exact fun x y _ => incrX_pixelAt x y
    case step_y => exact fun x y _ => incrY_pixelAt x y
    case rotated => exact fun x y hmem => (rotated_iff x y).mpr (hrotation hmem)

/-! ## What the calls write -/

variable {d : Drawing}

theorem Rect.mem_paintRows {value : Nat → Nat → UInt32 → UInt32} {a : Int} :
    a ∈ (paintRows g value r.w.toNat r.h.toNat j (pixelAt g r.x r.y) d).written ↔
      a ∈ d.written ∨ ∃ x y, r.Mem x y ∧ a = pixelAt g x y := by
  rw [Minui.mem_paintRows]
  simp only [iterate_incrY_pixelAt, iterate_incrX_pixelAt]
  refine or_congr_right ⟨?_, ?_⟩
  · rintro ⟨l, hl, k, hk, rfl⟩
    exact ⟨_, _, ⟨by omega, by omega, by omega, by omega⟩, rfl⟩
  · rintro ⟨x, y, ⟨hx, hx', hy, hy'⟩, rfl⟩
    refine ⟨(y - r.y).toNat, by omega, (x - r.x).toNat, by omega, ?_⟩
    rw [Int.toNat_of_nonneg (by omega), Int.toNat_of_nonneg (by omega), add_sub_cancel,
      add_sub_cancel]

theorem allInside_paintRows {value : Nat → Nat → UInt32 → UInt32} (h : r.Passes g) :
    AllInside g (paintRows g value r.w.toNat r.h.toNat j (pixelAt g r.x r.y) d) ↔
    AllInside g d ∧ r.Clean g := by
  rw [← h.inside_iff, AllInside]
  simp only [Rect.mem_paintRows, or_imp, forall_and, forall_exists_index, and_imp]
  refine and_congr_right' ⟨fun hall x y hmem => hall _ x y hmem rfl, ?_⟩
  rintro hall _ x y hmem rfl
  exact hall x y hmem

theorem memcpyPixels_of_nonneg {w : Int} (h : 0 ≤ w) (hlt : w < 2 ^ 31) :
    memcpyPixels w = w.toNat := by
  rw [memcpyPixels, Int.emod_eq_of_lt (by omega) (by omega)]
  omega

theorem memcpyPixels_of_neg {w : Int} (h : w < 0) (hlt : -2 ^ 31 < w) :
    2 ^ 61 < memcpyPixels w := by
  rw [memcpyPixels]
  omega

theorem Inside.lt {surf : DrawSurface} {a : Int} (h : Inside surf a) : a < 2 ^ 61 := by
  obtain ⟨row, hrow, col, hcol, rfl⟩ := h
  have hheight := surf.height_lt
  have hwidth := surf.width_le
  have hbytes := surf.rowBytes_lt
  have hprod : row * surf.rowPixels ≤ 2 ^ 31 * 2 ^ 29 := Nat.mul_le_mul (by omega) (by omega)
  omega

/-- Without a rotation, the rows are copied where they should be unless the width is negative. -/
theorem allInside_memcpyRows {source : Source} (hrot : g.rotation = .none) (h : r.Passes g) :
    AllInside g (memcpyRows g source r.w r.h.toNat (r.y * g.grDraw.rowPixels + r.x) src d) ↔
      AllInside g d ∧ (0 < r.h → 0 ≤ r.w) := by
  have hbounds : (0 ≤ r.x ∧ 0 ≤ r.y) ∧ r.x < g.grDraw.width ∧ 0 ≤ r.x + r.w - 1 ∧
      r.x + r.w - 1 < g.grDraw.width := by
    obtain ⟨hfirst, hlast⟩ := h
    simp only [Outside, hrot, GRRotation.odd] at hfirst hlast
    simp only [Bool.false_eq_true, if_false] at hfirst hlast
    omega
  have hwidth := g.grDraw.width_le
  have hbytes := g.grDraw.rowBytes_lt
  simp only [AllInside, mem_memcpyRows, or_imp, forall_and, forall_exists_index, and_imp]
  refine and_congr_right' ⟨fun hall hh => ?_, ?_⟩
  · by_contra hneg
    have hmany := memcpyPixels_of_neg (not_le.mp hneg) (by omega)
    have hfar := (hall _ 0 (by omega) (2 ^ 61) hmany rfl).lt
    have hstart : 0 ≤ r.y * (g.grDraw.rowPixels : Int) :=
      Int.mul_nonneg hbounds.1.2 (Int.natCast_nonneg _)
    push_cast at hfar
    omega
  · rintro hnonneg _ l hl k hk rfl
    rw [memcpyPixels_of_nonneg (hnonneg (by omega)) (by omega)] at hk
    have hmem : r.Mem (r.x + k) (r.y + l) := ⟨by omega, by omega, by omega, by omega⟩
    have haddress : r.y * (g.grDraw.rowPixels : Int) + r.x + l * g.grDraw.rowPixels + k =
        pixelAt g (r.x + k) (r.y + l) := by
      rw [pixelAt, hrot]
      ring
    rw [haddress, inside_pixelAt_iff (h.not_outside hmem)]
    exact fun hstray => GRRotation.noConfusion (hrot.symm.trans hstray.1)

theorem allInside_grTextFrom {font : GRFont} (s : List UInt8) (x y : Int) :
    AllInside g (grTextFrom g font bold y s i x d) ↔ AllInside g d ∧ ∀ k < s.length,
      (∀ l ≤ k, (charRect font x y l).Passes g) → (charRect font x y k).Clean g := by
  induction s generalizing i x d with
  | nil => exact (and_iff_left nofun).symm
  | cons ch s ih =>
    have hfirst :
        charRect font x y 0 = ⟨x, y, font.charWidth, font.charHeight⟩ := by simp [charRect]
    have hnext (k : Nat) : charRect font x y (k + 1) = charRect font (x + font.charWidth) y k := by
      simp only [charRect, Rect.mk.injEq, and_true]
      push_cast
      ring
    rw [List.length_cons, Nat.forall_lt_succ_left, grTextFrom]
    split
    · rename_i hout
      have hnot : ¬(charRect font x y 0).Passes g := by
        rw [hfirst]
        exact fun hpass => hout.elim hpass.1 hpass.2
      exact (and_iff_left ⟨fun hpass => absurd (hpass 0 le_rfl) hnot,
        fun k _ hpass => absurd (hpass 0 (Nat.zero_le _)) hnot⟩).symm
    · rename_i hin
      have hpass : (charRect font x y 0).Passes g := by
        rw [hfirst]
        exact not_or.mp hin
      have hpaint := fun value => @allInside_paintRows g (charRect font x y 0) d 0 value hpass
      rw [hfirst] at hpaint
      rw [ih, textBlend, hpaint, ← hfirst, and_assoc]
      refine and_congr_right' (and_congr ?_ (forall₂_congr fun k _ => ?_))
      · exact ⟨fun hclean _ => hclean, fun hclean => hclean fun l hl => Nat.le_zero.mp hl ▸ hpass⟩
      · rw [hnext]
        refine imp_congr_left ⟨fun hpasses l hl => ?_, fun hpasses l hl => ?_⟩
        · cases l with
          | zero => exact hpass
          | succ l => exact hnext l ▸ hpasses l (Nat.le_of_succ_le_succ hl)
        · exact hnext l ▸ hpasses (l + 1) (Nat.succ_le_succ hl)

theorem allInside_grFill (x1 y1 x2 y2 : Int) :
    AllInside g (grFill g x1 y1 x2 y2 d) ↔ AllInside g d ∧ (Call.fill x1 y1 x2 y2).Guard g := by
  have hx : x2 + g.overscanOffsetX = x1 + g.overscanOffsetX + (x2 - x1) := by ring
  have hy : y2 + g.overscanOffsetY = y1 + g.overscanOffsetY + (y2 - y1) := by ring
  rw [grFill, Call.Guard, hx, hy]
  split
  · rename_i hout
    exact (and_iff_left fun hpass => absurd hout (not_or.mpr hpass)).symm
  · rename_i hin
    have hpass : Rect.Passes g ⟨x1 + g.overscanOffsetX, y1 + g.overscanOffsetY, x2 - x1, y2 - y1⟩ :=
      not_or.mp hin
    rw [forall_prop_of_true hpass]
    split
    · rename_i halpha
      rw [forall_prop_of_true halpha, add_sub_cancel_left, add_sub_cancel_left]
      exact allInside_paintRows hpass
    · rename_i halpha
      exact (and_iff_left fun h => absurd h halpha).symm

theorem allInside_grBlit (source : Option Source) (sx sy w h dx dy : Int) :
    AllInside g (grBlit g source sx sy w h dx dy d) ↔
    AllInside g d ∧ (Call.blit source sx sy w h dx dy).Guard g := by
  cases source with
  | none => exact (and_iff_left nofun).symm
  | some source =>
    rw [grBlit, Call.Guard]
    simp only [Option.mem_some_iff, forall_eq']
    split
    · rename_i hformat
      exact (and_iff_left fun h => absurd h hformat).symm
    · rename_i hformat
      rw [forall_prop_of_true (not_not.mp hformat)]
      split
      · rename_i hout
        exact (and_iff_left fun hpass => absurd hout (not_or.mpr hpass)).symm
      · rename_i hin
        have hpass : Rect.Passes g ⟨dx + g.overscanOffsetX, dy + g.overscanOffsetY, w, h⟩ :=
          not_or.mp hin
        rw [forall_prop_of_true hpass]
        split
        · rename_i hrot
          rw [and_iff_left fun hnone => absurd hnone hrot]
          exact allInside_paintRows hpass
        · rename_i hrot
          have hnone := not_not.mp hrot
          have hclean : Rect.Clean g ⟨dx + g.overscanOffsetX, dy + g.overscanOffsetY, w, h⟩ :=
            fun hright => GRRotation.noConfusion (hnone.symm.trans hright)
          rw [and_iff_right hclean, forall_prop_of_true hnone]
          exact allInside_memcpyRows hnone hpass

theorem allInside_grText (font : Option GRFont) (x y : Int) (s : List UInt8) (bold : Bool) :
    AllInside g (grText g font x y s bold d) ↔
    AllInside g d ∧ (Call.text font x y s bold).Guard g := by
  cases font with
  | none => exact (and_iff_left nofun).symm
  | some font =>
    rw [grText, Call.Guard]
    simp only [Option.mem_some_iff, forall_eq']
    split
    · rename_i halpha
      exact (and_iff_left fun h => absurd halpha h).symm
    · rename_i halpha
      rw [forall_prop_of_true halpha]
      split
      · rename_i hformat
        exact (and_iff_left fun h => absurd h hformat).symm
      · rename_i hformat
        rw [forall_prop_of_true (not_not.mp hformat)]
        exact allInside_grTextFrom s _ _

end

/-- The addresses of each rectangle and the pixels that each call writes, on a surface with nothing
written before. -/
theorem drawing_iff (g : Graphics) :
    (∀ r : Rect, r.Passes g → (RectRight g r ↔ g.rotation ≠ .right ∨ r.w ≤ 0 ∨ r.h ≤ 0)) ∧
      ∀ (call : Call) (data : Int → UInt32), AllInside g (call.run g ⟨data, []⟩) ↔
      call.Guard g := by
  refine ⟨fun r => rectRight_iff, fun call data => ?_⟩
  have hnew : AllInside g ⟨data, []⟩ := nofun
  cases call with
  | fill x1 y1 x2 y2 => exact (allInside_grFill x1 y1 x2 y2).trans (and_iff_right hnew)
  | blit source sx sy w h dx dy =>
    exact (allInside_grBlit source sx sy w h dx dy).trans (and_iff_right hnew)
  | text font x y s bold => exact (allInside_grText font x y s bold).trans (and_iff_right hnew)

/-- A white screen of four pixels, turned to the right. -/
def turned : Graphics where
  grDraw := ⟨2, 2, 2, by decide, by decide, by decide, by decide⟩
  rotation := .right
  overscanOffsetX := 0
  overscanOffsetY := 0
  grCurrent := 0xffffffff
  rainbow := none

/-- Filling the screen writes the pixel behind its last row. -/
theorem not_drawing : ¬∀ g : Graphics, (∀ r : Rect, r.Passes g → RectRight g r) ∧
    ∀ (call : Call) (data : Int → UInt32), AllInside g (call.run g ⟨data, []⟩) := by
  intro h
  obtain ⟨row, hrow, col, hcol, heq⟩ :=
    (h turned).2 (.fill 0 0 2 2) (fun _ => 0) 4 (by decide +kernel)
  have hlast : (row : Int) * 2 ≤ 1 * 2 :=
    Int.mul_le_mul_of_nonneg_right (by exact_mod_cast Nat.le_of_lt_succ hrow) (by decide)
  change (4 : Int) = row * 2 + col at heq
  change col < 2 at hcol
  omega

end BootableRecovery.Minui
