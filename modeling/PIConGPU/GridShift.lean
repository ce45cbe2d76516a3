import PIConGPU.RowMajor

/-!
# Moves on a grid of blocks

The points of a grid move by at most one cell along every axis. If the grid is divided into blocks, a point either
stays in its block or enters the block next to it. Every block keeps the points that leave it in a layer of cells
around it, and hands each side of the layer over to the block on that side.
-/
namespace PIConGPU.GridShift

variable {D : ℕ}

/-- A move by at most one cell along every axis. -/
def IsStep (δ : Fin D → ℤ) : Prop := ∀ d, δ d = -1 ∨ δ d = 0 ∨ δ d = 1

/-- The cells of a block; those with a coordinate 0 or `n d + 1` are the layer around it. -/
def Inner (n s : Fin D → ℤ) : Prop := ∀ d, 1 ≤ s d ∧ s d ≤ n d

instance (n s : Fin D → ℤ) : Decidable (Inner n s) := inferInstanceAs (Decidable (∀ _, _))

/-- The side across which a move `δ` to the cell `s` enters the block. -/
def crossing (n s δ : Fin D → ℤ) : Fin D → ℤ := fun d => if s d - δ d < 1 then 1 else if n d < s d - δ d then -1 else 0

/-- The cell is the first one for moves across the side `κ`. -/
def AtEntry (n κ s : Fin D → ℤ) : Prop := ∀ d, (κ d = 1 → s d = 1) ∧ (κ d = -1 → s d = n d)

instance (n κ s : Fin D → ℤ) : Decidable (AtEntry n κ s) := inferInstanceAs (Decidable (∀ _, _))

/-- The cell in the layer of the block behind the side `κ` that covers `s`. -/
def layerCell (n' κ s : Fin D → ℤ) : Fin D → ℤ := fun d => if κ d = 1 then n' d + 1 else if κ d = -1 then 0 else s d

section Crossing

variable {n n' s δ κ : Fin D → ℤ}

theorem isStep_crossing (n s δ : Fin D → ℤ) : IsStep (crossing n s δ) := by
  intro d
  unfold crossing
  split_ifs <;> simp

theorem layerCell_zero (n' s : Fin D → ℤ) : layerCell n' 0 s = s := by
  funext d
  simp [layerCell]

theorem atEntry_zero (n s : Fin D → ℤ) : AtEntry n 0 s := fun d => by simp

theorem entry_axis {n n' s δ κ : ℤ} (hs : 1 ≤ s ∧ s ≤ n) (hδ : δ = -1 ∨ δ = 0 ∨ δ = 1)
    (hκ : κ = -1 ∨ κ = 0 ∨ κ = 1) (hsame : κ = 0 → n' = n) (hpos : 1 ≤ n') :
    (((κ = 1 → s = 1) ∧ (κ = -1 → s = n)) ∧ 1 ≤ (if κ = 1 then n' + 1 else if κ = -1 then 0 else s) - δ ∧
      (if κ = 1 then n' + 1 else if κ = -1 then 0 else s) - δ ≤ n') ↔
      κ = if s - δ < 1 then 1 else if n < s - δ then -1 else 0 := by
  have hside : (κ = 1 ∧ s - δ < 1 ∨ κ = -1 ∧ n < s - δ ∨ κ = 0 ∧ 1 ≤ s - δ ∧ s - δ ≤ n) ↔
      κ = if s - δ < 1 then 1 else if n < s - δ then -1 else 0 := by
    split_ifs <;> omega
  refine Iff.trans ?_ hside
  rcases hκ with rfl | rfl | rfl
  · norm_num
    omega
  · norm_num
    have := hsame rfl
    omega
  · norm_num
    omega

/-- A point comes from the block behind the side that its move crosses, and from no other block. -/
theorem atEntry_and_inner_iff (hs : Inner n s) (hδ : IsStep δ) (hκ : IsStep κ) (hsame : ∀ d, κ d = 0 → n' d = n d)
    (hpos : ∀ d, 1 ≤ n' d) : AtEntry n κ s ∧ Inner n' (layerCell n' κ s - δ) ↔ κ = crossing n s δ := by
  have haxis := fun d => entry_axis (hs d) (hδ d) (hκ d) (hsame d) (hpos d)
  rw [funext_iff]
  constructor
  · intro h d
    exact (haxis d).mp ⟨h.1 d, h.2 d⟩
  · intro h
    exact ⟨fun d => ((haxis d).mpr (h d)).1, fun d => ((haxis d).mpr (h d)).2⟩

end Crossing

/-- Numbered moves, each one once. -/
structure Enumerates {ι : Type*} (I : Finset ι) (dir : ι → Fin D → ℤ) : Prop where
  isStep : ∀ i ∈ I, IsStep (dir i)
  injOn : Set.InjOn dir I
  exists_dir : ∀ δ, IsStep δ → ∃ i ∈ I, dir i = δ

/-- Blocks of a grid. Across the side of a move the block may have a neighbor. -/
structure Blocks (D : ℕ) (β ι : Type*) where
  extent : β → Fin D → ℤ
  origin : β → Fin D → ℤ
  neighbor : β → ι → Option β

namespace Blocks

variable {β ι A : Type*} [AddCommMonoid A] (B : Blocks D β ι) (I : Finset ι) (dir : ι → Fin D → ℤ)

def position (r : β) (s : Fin D → ℤ) : Fin D → ℤ := fun d => B.origin r d + s d - 1

/-- What the moves bring to the cells of a block and of its layer, with the content `C s i` of a cell for move `i`. -/
def moved (C : β → (Fin D → ℤ) → ι → A) (r : β) (s : Fin D → ℤ) : A :=
  ∑ i ∈ I, if Inner (B.extent r) (s - dir i) then C r (s - dir i) i else 0

def handed (S : β → (Fin D → ℤ) → A) (r : β) (s : Fin D → ℤ) (j : ι) : A :=
  (B.neighbor r j).elim 0 fun p =>
    if AtEntry (B.extent r) (dir j) s then S p (layerCell (B.extent p) (dir j) s) else 0

/-- The contents `N X i` at the positions of the whole grid fit to the neighbors of the blocks: they are the same at
the two positions of a cell, and there is nothing behind a side without neighbor. -/
structure Fits (N : (Fin D → ℤ) → ι → A) (blocks : Set β) : Prop where
  extent_pos : ∀ r ∈ blocks, ∀ d, 1 ≤ B.extent r d
  mem : ∀ r ∈ blocks, ∀ j ∈ I, ∀ p, B.neighbor r j = some p → p ∈ blocks
  self : ∀ r ∈ blocks, ∀ j ∈ I, dir j = 0 → B.neighbor r j = some r
  same : ∀ r ∈ blocks, ∀ j ∈ I, ∀ p, B.neighbor r j = some p → ∀ d, dir j d = 0 → B.extent p d = B.extent r d
  covers : ∀ r ∈ blocks, ∀ j ∈ I, ∀ p, B.neighbor r j = some p → ∀ s δ, AtEntry (B.extent r) (dir j) s → ∀ i,
    N (B.position p (layerCell (B.extent p) (dir j) s - δ)) i = N (B.position r s - δ) i
  outside : ∀ r ∈ blocks, ∀ j ∈ I, B.neighbor r j = none → ∀ s δ, crossing (B.extent r) s δ = dir j →
    Inner (B.extent r) s → IsStep δ → ∀ i, N (B.position r s - δ) i = 0

variable {B I dir} {blocks : Set β} {N : (Fin D → ℤ) → ι → A} {C : β → (Fin D → ℤ) → ι → A}

/-- The moves in the blocks and the hand-over between them are the moves on the whole grid. -/
theorem Fits.sum_handed (h : B.Fits I dir N blocks) (hdir : Enumerates I dir)
    (hC : ∀ r ∈ blocks, ∀ s, Inner (B.extent r) s → ∀ i ∈ I, C r s i = N (B.position r s) i) {r : β} (hr : r ∈ blocks)
    {s : Fin D → ℤ} (hs : Inner (B.extent r) s) :
    ∑ j ∈ I, B.handed dir (B.moved I dir C) r s j = ∑ i ∈ I, N (B.position r s - dir i) i := by
  have hterm : ∀ j ∈ I, B.handed dir (B.moved I dir C) r s j =
      ∑ i ∈ I, if dir j = crossing (B.extent r) s (dir i) then N (B.position r s - dir i) i else 0 := by
    intro j hj
    unfold handed
    cases hp : B.neighbor r j with
    | none =>
      rw [Option.elim_none]
      refine (Finset.sum_eq_zero fun i hi => ?_).symm
      split
      case isTrue heq => exact h.outside r hr j hj hp s _ heq.symm hs (hdir.isStep i hi) i
      case isFalse => rfl
    | some p =>
      have hiff : ∀ i ∈ I, AtEntry (B.extent r) (dir j) s ∧
          Inner (B.extent p) (layerCell (B.extent p) (dir j) s - dir i) ↔ dir j = crossing (B.extent r) s (dir i) :=
        fun i hi => atEntry_and_inner_iff hs (hdir.isStep i hi) (hdir.isStep j hj) (h.same r hr j hj p hp)
          (h.extent_pos p (h.mem r hr j hj p hp))
      rw [Option.elim_some]
      by_cases hentry : AtEntry (B.extent r) (dir j) s
      · rw [if_pos hentry]
        refine Finset.sum_congr rfl fun i hi => ?_
        by_cases hinner : Inner (B.extent p) (layerCell (B.extent p) (dir j) s - dir i)
        · rw [if_pos hinner, if_pos ((hiff i hi).mp ⟨hentry, hinner⟩), hC p (h.mem r hr j hj p hp) _ hinner i hi]
          exact h.covers r hr j hj p hp s (dir i) hentry i
        · rw [if_neg hinner, if_neg fun heq => hinner ((hiff i hi).mpr heq).2]
      · rw [if_neg hentry]
        exact (Finset.sum_eq_zero fun i hi => if_neg fun heq => hentry ((hiff i hi).mpr heq).1).symm
  rw [Finset.sum_congr rfl hterm, Finset.sum_comm]
  refine Finset.sum_congr rfl fun i hi => ?_
  obtain ⟨j, hj, hcross⟩ := hdir.exists_dir _ (isStep_crossing (B.extent r) s (dir i))
  rw [Finset.sum_eq_single j, if_pos hcross]
  · intro j' hj' hne
    exact if_neg fun heq => hne (hdir.injOn hj' hj (heq.trans hcross.symm))
  · intro hnot
    exact absurd hj hnot

end Blocks

end PIConGPU.GridShift
