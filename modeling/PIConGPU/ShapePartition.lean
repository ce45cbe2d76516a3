import PIConGPU.EvalAssignmentFunction

/-!
# Shapes as a partition of unity

For every shape, the one with jumps included, the values at all nodes of the grid are nonnegative and add
up to one, wherever the particle is.
-/
namespace PIConGPU

/-- What charge deposition needs of a shape. A shape with jumps may be nonzero at an end of its support. -/
structure Shape.IsPartition (S : Shape) : Prop where
  nonneg : ∀ x, 0 ≤ S.chargeAssignment x
  eq_zero : ∀ x : ℚ, (S.support : ℚ) / 2 < |x| → S.chargeAssignment x = 0
  sum_nodes : ∀ x : ℚ, ∑ᶠ n : ℤ, S.chargeAssignment (n - x) = 1

namespace Shape.IsPartition

variable {S : Shape} (hS : S.IsPartition)

include hS

theorem sum_of_mem (x : ℚ) {W : Finset ℤ} (hW : ∀ n : ℤ, S.chargeAssignment (n - x) ≠ 0 → n ∈ W) :
    ∑ n ∈ W, S.chargeAssignment (n - x) = 1 := by
  rw [← hS.sum_nodes x, finsum_eq_sum_of_support_subset]
  exact fun n hn => hW n hn

theorem abs_sub_le {x : ℚ} {n : ℤ} (hn : S.chargeAssignment (n - x) ≠ 0) :
    |(n : ℚ) - x| ≤ (S.support : ℚ) / 2 :=
  not_lt.mp fun h => hn (hS.eq_zero _ h)

end Shape.IsPartition

namespace NGP

theorem chargeAssignment_nonneg (x : ℚ) : 0 ≤ chargeAssignment x := by
  unfold chargeAssignment boolWeight
  split_ifs <;> norm_num

theorem chargeAssignment_eq_zero_iff {x : ℚ} : chargeAssignment x = 0 ↔ ¬ (-1 / 2 ≤ x ∧ x < 1 / 2) := by
  rw [chargeAssignment, boolWeight, ite_eq_right_iff]
  exact ⟨fun h h' => one_ne_zero (h h'), fun h h' => absurd h' h⟩

/-- The node of a particle. At a tie it is the lower one. -/
def node (x : ℚ) : ℤ := ⌈x - 1 / 2⌉

theorem chargeAssignment_node (x : ℚ) (n : ℤ) : chargeAssignment (n - x) = if n = node x then 1 else 0 := by
  have hnode : n = node x ↔ -1 / 2 ≤ n - x ∧ n - x < 1 / 2 := by
    rw [node, eq_comm, Int.ceil_eq_iff]
    constructor
    · rintro ⟨h1, h2⟩
      constructor <;> linarith
    · rintro ⟨h1, h2⟩
      constructor <;> linarith
  simp only [chargeAssignment, boolWeight, hnode]

theorem isPartition : SupportShape.NGP.shape.IsPartition where
  nonneg := chargeAssignment_nonneg
  eq_zero x hx := by
    simp only [SupportShape.shape, Nat.cast_one] at hx
    refine chargeAssignment_eq_zero_iff.mpr fun h => absurd hx (not_lt.mpr ?_)
    exact abs_le.mpr ⟨by linarith, by linarith⟩
  sum_nodes x := by
    simp only [SupportShape.shape, chargeAssignment_node]
    rw [finsum_eq_single _ (node x) fun n hn => if_neg hn, if_pos rfl]

end NGP

namespace CIC

theorem chargeAssignment_nonneg (x : ℚ) : 0 ≤ chargeAssignment x := by
  rcases le_total |x| 1 with h | h
  · rw [chargeAssignment_of_le h]
    linarith
  · rw [chargeAssignment_of_ge h]

end CIC

namespace TSC

theorem chargeAssignment_nonneg (x : ℚ) : 0 ≤ chargeAssignment x := by
  have h0 := abs_nonneg x
  rcases le_total |x| (1 / 2) with h | h
  · rw [chargeAssignment_1st h, ff_1st_radius]
    nlinarith
  · rcases le_total |x| (3 / 2) with h' | h'
    · rw [chargeAssignment_2nd h h', ff_2nd_radius]
      positivity
    · rw [chargeAssignment_of_ge h']

end TSC

namespace PCS

theorem chargeAssignment_nonneg (x : ℚ) : 0 ≤ chargeAssignment x := by
  have h0 := abs_nonneg x
  rcases le_total |x| 1 with h | h
  · rw [chargeAssignment_1st h, ff_1st_radius]
    have h2 : |x| * |x| ≤ 1 := mul_le_one₀ h h0 h
    have h3 : 0 ≤ |x| * |x| * (1 - |x|) := mul_nonneg (mul_nonneg h0 h0) (by linarith)
    nlinarith
  · rcases le_total |x| 2 with h' | h'
    · have h3 : 0 ≤ 2 - |x| := by linarith
      rw [chargeAssignment_2nd h h', ff_2nd_radius]
      positivity
    · rw [chargeAssignment_of_ge h']

end PCS

namespace P4S

theorem chargeAssignment_nonneg (x : ℚ) : 0 ≤ chargeAssignment x := by
  have h0 := abs_nonneg x
  rcases le_total |x| (1 / 2) with h | h
  · have h2 : |x| * |x| ≤ 1 / 4 := by nlinarith
    rw [chargeAssignment_1st h, ff_1st_radius]
    nlinarith [mul_nonneg h0 h0]
  rcases le_total |x| (3 / 2) with h' | h'
  · have hy : 0 ≤ 3 / 2 - |x| := by linarith
    have hcubic : 0 ≤ (3 / 2 - |x|) * (3 / 2 - |x|) * (3 / 2 - |x|) * (1 - (3 / 2 - |x|)) :=
      mul_nonneg (mul_nonneg (mul_nonneg hy hy) hy) (by linarith)
    rw [chargeAssignment_2nd h h', ff_2nd_radius]
    nlinarith [mul_nonneg hy hy]
  rcases le_total |x| (5 / 2) with h'' | h''
  · have hsq := mul_self_nonneg (5 - 2 * |x|)
    rw [chargeAssignment_3rd h' h'', ff_3rd_radius]
    positivity
  · rw [chargeAssignment_of_ge h'']

end P4S

namespace ContinuousShape

theorem chargeAssignment_nonneg (s : ContinuousShape) (x : ℚ) : 0 ≤ s.shape.chargeAssignment x :=
  match s with
  | .CIC => CIC.chargeAssignment_nonneg x
  | .TSC => TSC.chargeAssignment_nonneg x
  | .PCS => PCS.chargeAssignment_nonneg x
  | .P4S => P4S.chargeAssignment_nonneg x

theorem isPartition (s : ContinuousShape) : s.shape.IsPartition where
  nonneg := s.chargeAssignment_nonneg
  eq_zero x hx := s.isAssignment.eq_zero x hx.le
  sum_nodes x := by
    have hmem : ∀ n : ℤ, |(n : ℚ) - x| < (s.shape.support : ℚ) / 2 →
        n ∈ Finset.Icc ⌊x - (s.shape.support : ℚ) / 2⌋ ⌈x + (s.shape.support : ℚ) / 2⌉ := fun n hn => by
      obtain ⟨hlo, hhi⟩ := abs_lt.mp hn
      refine Finset.mem_Icc.mpr ⟨Int.cast_le.mp ((Int.floor_le _).trans ?_), Int.cast_le.mp (le_trans ?_ (Int.le_ceil _))⟩
      · linarith
      · linarith
    rw [finsum_eq_sum_of_support_subset _ fun n hn => ?_, s.isAssignment.sum_window x hmem]
    exact hmem n (not_le.mp fun h => hn (s.isAssignment.eq_zero _ h))

end ContinuousShape

theorem SupportShape.isPartition : ∀ s : SupportShape, s.shape.IsPartition
  | .NGP => NGP.isPartition
  | .continuous s => s.isPartition

@[simp] theorem SupportShape.support_shape (s : SupportShape) : s.shape.support = s.support := by
  cases s <;> rfl

end PIConGPU
