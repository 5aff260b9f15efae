import Mathlib.Data.Set.Insert

/-!
# Mapped regions

Regions of memory are mapped, overlaid in part, and unmapped piece by piece. `AllReleased` says of a
trace of such events that nothing is unmapped or overlaid that is not mapped, and that nothing is
left mapped at the end: every byte of every region is unmapped exactly once. Each region has a
number of its own, also where the address of an earlier one is used again.
-/

namespace BootableRecovery

/-- Some bytes of a region. -/
structure Piece where
  region : Nat
  offset : Nat
  length : Nat
  deriving DecidableEq

/-- The bytes of a piece, each with its region. -/
def Piece.bytes (piece : Piece) : Set (Nat × Nat) :=
  { x | x.1 = piece.region ∧ piece.offset ≤ x.2 ∧ x.2 < piece.offset + piece.length }

inductive RegionEvent
  /-- A new region is mapped. -/
  | map (region length : Nat)
  /-- Something else is mapped in place of a piece. -/
  | overlay (piece : Piece)
  | unmap (piece : Piece)
  deriving DecidableEq

/-- From a state where the bytes `live` are mapped, all are unmapped in the end, and none that is
not mapped. -/
def AllReleased : List RegionEvent → (live : Set (Nat × Nat)) → Prop
  | [], live => live = ∅
  | .map region length :: es, live => AllReleased es (live ∪ (Piece.mk region 0 length).bytes)
  | .overlay piece :: es, live => piece.bytes ⊆ live ∧ AllReleased es live
  | .unmap piece :: es, live => piece.bytes ⊆ live ∧ AllReleased es (live \ piece.bytes)

/-- The pieces lie one behind the other in a region, from one place to another. -/
inductive Adjacent (region : Nat) : Nat → List Piece → Nat → Prop
  | nil : Adjacent region offset [] offset
  | cons : 0 < length → Adjacent region (offset + length) pieces stop →
    Adjacent region offset (⟨region, offset, length⟩ :: pieces) stop

section
variable {region offset stop : Nat} {pieces : List Piece} {live : Set (Nat × Nat)}
    {es : List RegionEvent}

theorem Adjacent.le (h : Adjacent region offset pieces stop) : offset ≤ stop := by
  induction h with
  | nil => exact Nat.le_refl _
  | cons _ _ ih => exact Nat.le_trans (Nat.le_add_right _ _) ih

theorem Adjacent.of_mem (h : Adjacent region offset pieces stop) {piece : Piece}
    (hp : piece ∈ pieces) : piece.region = region ∧ 0 < piece.length ∧ offset ≤ piece.offset ∧
    piece.offset + piece.length ≤ stop := by
  induction h with
  | nil => cases hp
  | cons hlength htail ih =>
    rcases List.mem_cons.mp hp with rfl | hp
    · exact ⟨rfl, hlength, Nat.le_refl _, htail.le⟩
    · obtain ⟨hregion, hpos, hle, hstop⟩ := ih hp
      exact ⟨hregion, hpos, by omega, hstop⟩

theorem Adjacent.bytes_sub (h : Adjacent region offset pieces stop) {piece : Piece}
    (hp : piece ∈ pieces) : piece.bytes ⊆ (Piece.mk region offset (stop - offset)).bytes := by
  obtain ⟨hregion, -, hle, hstop⟩ := h.of_mem hp
  intro x hx
  simp only [Piece.bytes, Set.mem_ofPred_eq] at hx ⊢
  omega

theorem allReleased_overlay_append (hpieces : ∀ piece ∈ pieces, piece.bytes ⊆ live) :
    AllReleased (pieces.map .overlay ++ es) live ↔ AllReleased es live := by
  induction pieces with
  | nil => exact Iff.rfl
  | cons piece pieces ih =>
    rw [List.forall_mem_cons] at hpieces
    rw [List.map_cons, List.cons_append, AllReleased, ih hpieces.2, and_iff_right hpieces.1]

theorem Adjacent.allReleased (h : Adjacent region offset pieces stop) :
    AllReleased (pieces.map .unmap) (Piece.mk region offset (stop - offset)).bytes := by
  induction h with
  | nil =>
    show Piece.bytes _ = ∅
    ext x
    simp only [Piece.bytes, Set.mem_ofPred_eq, Set.mem_empty_iff_false, iff_false]
    omega
  | @cons length offset pieces stop hlength htail ih =>
    have hle := htail.le
    refine ⟨fun x hx => ?_, ?_⟩
    · simp only [Piece.bytes, Set.mem_ofPred_eq] at hx ⊢
      omega
    · have hrest :
          (Piece.mk region offset (stop - offset)).bytes \ (Piece.mk region offset length).bytes =
          (Piece.mk region (offset + length) (stop - (offset + length))).bytes := by
        ext x
        simp only [Piece.bytes, Set.mem_sdiff, Set.mem_ofPred_eq]
        omega
      rw [hrest]
      exact ih

theorem AllReleased.unmap_mem (h : AllReleased es live) {x : Nat × Nat} (hx : x ∈ live) :
    ∃ piece, .unmap piece ∈ es ∧ x ∈ piece.bytes := by
  induction es generalizing live with
  | nil =>
    rw [AllReleased] at h
    rw [h] at hx
    cases hx
  | cons e es ih =>
    have hlater : (∃ piece, .unmap piece ∈ es ∧ x ∈ piece.bytes) →
        ∃ piece, .unmap piece ∈ e :: es ∧ x ∈ piece.bytes := by
      rintro ⟨piece, hmem, hpiece⟩
      exact ⟨piece, List.mem_cons_of_mem _ hmem, hpiece⟩
    cases e with
    | map region length => exact hlater (ih h (Or.inl hx))
    | overlay piece => exact hlater (ih h.2 hx)
    | unmap piece =>
      by_cases hpiece : x ∈ piece.bytes
      · exact ⟨piece, List.mem_cons_self, hpiece⟩
      · exact hlater (ih h.2 ⟨hx, hpiece⟩)

end

end BootableRecovery
