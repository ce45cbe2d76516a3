import PIConGPU.Shapes

/-!
# Shapes at fixed nodes

With a position in the range of a shifted coordinate system the branch of a shape is known for every
node of its support. The specialisations evaluate that branch directly.
-/
namespace PIConGPU

inductive SupportShape
  | NGP
  | continuous (s : ContinuousShape)
  deriving DecidableEq, Repr

namespace SupportShape

def support : SupportShape → ℕ
  | .NGP => 1
  | .continuous s => s.shape.support

/-- The shape with its values outside of the support. -/
def shape : SupportShape → Shape
  | .NGP => ⟨1, PIConGPU.NGP.chargeAssignment⟩
  | .continuous s => s.shape

def chargeAssignmentOnSupport : SupportShape → ℚ → ℚ
  | .NGP => PIConGPU.NGP.chargeAssignmentOnSupport
  | .continuous s => s.onSupport.chargeAssignment

end SupportShape

/-- The shape of the particle cloud, one order below the assignment shape. -/
def ContinuousShape.cloudShape : ContinuousShape → SupportShape
  | .CIC => .NGP
  | .TSC => .continuous .CIC
  | .PCS => .continuous .TSC
  | .P4S => .continuous .PCS

def evalAssignmentFunction (s : SupportShape) (gridPos : ℤ) (parPos : ℚ) : ℚ :=
  match s with
  | .continuous .P4S =>
    if gridPos = 0 then P4S.ff_1st_radius parPos
    else if gridPos = 1 then P4S.ff_2nd_radius (1 - parPos)
    else if gridPos = -1 then P4S.ff_2nd_radius |-1 - parPos|
    else if gridPos = 2 then P4S.ff_3rd_radius (2 - parPos)
    else if gridPos = -2 then P4S.ff_3rd_radius |-2 - parPos|
    else s.chargeAssignmentOnSupport (gridPos - parPos)
  | .continuous .TSC =>
    if gridPos = 0 then TSC.ff_1st_radius parPos
    else if gridPos = 1 then TSC.ff_2nd_radius (1 - parPos)
    else if gridPos = -1 then TSC.ff_2nd_radius |-1 - parPos|
    else s.chargeAssignmentOnSupport (gridPos - parPos)
  | .continuous .PCS =>
    if gridPos = 0 then PCS.ff_1st_radius |parPos|
    else if gridPos = 1 then PCS.ff_1st_radius (1 - parPos)
    else if gridPos = 2 then PCS.ff_2nd_radius (2 - parPos)
    else if gridPos = -1 then PCS.ff_2nd_radius |-1 - parPos|
    else s.chargeAssignmentOnSupport (gridPos - parPos)
  | _ => s.chargeAssignmentOnSupport (gridPos - parPos)

namespace EvalAssignmentFunction

variable {gridPos : ℤ} {p : ℚ}

theorem eval_TSC (hlo : -1 / 2 ≤ p) (hhi : p < 1 / 2) :
    evalAssignmentFunction (.continuous .TSC) gridPos p = TSC.chargeAssignmentOnSupport (gridPos - p) := by
  have hon : ∀ x : ℚ, |x| ≤ 3 / 2 → TSC.chargeAssignmentOnSupport x = TSC.chargeAssignment x := fun x hx =>
    ContinuousShape.TSC.chargeAssignment_onSupport (by simpa [ContinuousShape.shape] using hx)
  simp only [evalAssignmentFunction]
  split_ifs with h0 h1 h2
  · have habs : |((0 : ℤ) : ℚ) - p| ≤ 1 / 2 := abs_le.mpr (by constructor <;> push_cast <;> linarith)
    rw [h0, hon _ (by linarith), TSC.chargeAssignment_1st habs]
    simp [TSC.ff_1st_radius]
  · have habs : |((1 : ℤ) : ℚ) - p| = 1 - p := abs_eq_of_nonneg (by push_cast; ring) (by linarith)
    rw [h1, hon _ (by rw [habs]; linarith), TSC.chargeAssignment_2nd (by rw [habs]; linarith)
      (by rw [habs]; linarith), habs]
  · have habs : |((-1 : ℤ) : ℚ) - p| = 1 + p := abs_eq_of_nonpos (by push_cast; ring) (by linarith)
    rw [h2, hon _ (by rw [habs]; linarith), TSC.chargeAssignment_2nd (by rw [habs]; linarith)
      (by rw [habs]; linarith)]
    norm_num
  · rfl

theorem eval_PCS (hlo : 0 ≤ p) (hhi : p < 1) :
    evalAssignmentFunction (.continuous .PCS) gridPos p = PCS.chargeAssignmentOnSupport (gridPos - p) := by
  have hon : ∀ x : ℚ, |x| ≤ 2 → PCS.chargeAssignmentOnSupport x = PCS.chargeAssignment x := fun x hx =>
    ContinuousShape.PCS.chargeAssignment_onSupport (by norm_num [ContinuousShape.shape]; exact hx)
  simp only [evalAssignmentFunction]
  split_ifs with h0 h1 h2 h3
  · have habs : |((0 : ℤ) : ℚ) - p| = p := abs_eq_of_nonpos (by push_cast; ring) hlo
    rw [h0, hon _ (by rw [habs]; linarith), PCS.chargeAssignment_1st (by rw [habs]; linarith), habs,
      abs_of_nonneg hlo]
  · have habs : |((1 : ℤ) : ℚ) - p| = 1 - p := abs_eq_of_nonneg (by push_cast; ring) (by linarith)
    rw [h1, hon _ (by rw [habs]; linarith), PCS.chargeAssignment_1st (by rw [habs]; linarith), habs]
  · have habs : |((2 : ℤ) : ℚ) - p| = 2 - p := abs_eq_of_nonneg (by push_cast; ring) (by linarith)
    rw [h2, hon _ (by rw [habs]; linarith), PCS.chargeAssignment_2nd (by rw [habs]; linarith)
      (by rw [habs]; linarith), habs]
  · have habs : |((-1 : ℤ) : ℚ) - p| = 1 + p := abs_eq_of_nonpos (by push_cast; ring) (by linarith)
    rw [h3, hon _ (by rw [habs]; linarith), PCS.chargeAssignment_2nd (by rw [habs]; linarith)
      (by rw [habs]; linarith)]
    norm_num
  · rfl

theorem eval_P4S (hlo : -1 / 2 ≤ p) (hhi : p < 1 / 2) :
    evalAssignmentFunction (.continuous .P4S) gridPos p = P4S.chargeAssignmentOnSupport (gridPos - p) := by
  have hon : ∀ x : ℚ, |x| ≤ 5 / 2 → P4S.chargeAssignmentOnSupport x = P4S.chargeAssignment x := fun x hx =>
    ContinuousShape.P4S.chargeAssignment_onSupport (by simpa [ContinuousShape.shape] using hx)
  simp only [evalAssignmentFunction]
  split_ifs with h0 h1 h2 h3 h4
  · have habs : |((0 : ℤ) : ℚ) - p| ≤ 1 / 2 := abs_le.mpr (by constructor <;> push_cast <;> linarith)
    rw [h0, hon _ (by linarith), P4S.chargeAssignment_1st habs]
    simp [P4S.ff_1st_radius]
  · have habs : |((1 : ℤ) : ℚ) - p| = 1 - p := abs_eq_of_nonneg (by push_cast; ring) (by linarith)
    rw [h1, hon _ (by rw [habs]; linarith), P4S.chargeAssignment_2nd (by rw [habs]; linarith)
      (by rw [habs]; linarith), habs]
  · have habs : |((-1 : ℤ) : ℚ) - p| = 1 + p := abs_eq_of_nonpos (by push_cast; ring) (by linarith)
    rw [h2, hon _ (by rw [habs]; linarith), P4S.chargeAssignment_2nd (by rw [habs]; linarith)
      (by rw [habs]; linarith)]
    norm_num
  · have habs : |((2 : ℤ) : ℚ) - p| = 2 - p := abs_eq_of_nonneg (by push_cast; ring) (by linarith)
    rw [h3, hon _ (by rw [habs]; linarith), P4S.chargeAssignment_3rd (by rw [habs]; linarith)
      (by rw [habs]; linarith), habs]
  · have habs : |((-2 : ℤ) : ℚ) - p| = 2 + p := abs_eq_of_nonpos (by push_cast; ring) (by linarith)
    rw [h4, hon _ (by rw [habs]; linarith), P4S.chargeAssignment_3rd (by rw [habs]; linarith)
      (by rw [habs]; linarith)]
    norm_num
  · rfl

theorem eval_eq (s : SupportShape) (hlo : -((s.support % 2 : ℕ) : ℚ) / 2 ≤ p)
    (hhi : p < 1 - ((s.support % 2 : ℕ) : ℚ) / 2) :
    evalAssignmentFunction s gridPos p = s.chargeAssignmentOnSupport (gridPos - p) := by
  cases s with
  | NGP => rfl
  | continuous s =>
    cases s with
    | CIC => rfl
    | TSC =>
      norm_num [SupportShape.support, ContinuousShape.shape] at hlo hhi
      exact eval_TSC (by linarith) hhi
    | PCS =>
      norm_num [SupportShape.support, ContinuousShape.shape] at hlo hhi
      exact eval_PCS hlo hhi
    | P4S =>
      norm_num [SupportShape.support, ContinuousShape.shape] at hlo hhi
      exact eval_P4S (by linarith) hhi

end EvalAssignmentFunction

end PIConGPU
