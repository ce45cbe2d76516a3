import PIConGPU.PeriodicSum
import PIConGPU.YeeSolver

/-!
# The energy of the fields

The differences to the lower and to the upper neighbor are adjoint to each other, and so are the two curls. A
quadratic form of the fields therefore changes in a step by the work of the current only. The condition on the time
step makes this form bound the field energy.
-/
namespace PIConGPU.YeeSolver

open PeriodicSum

variable {D : ℕ}

/-- The sum of the products of two fields over all cells. -/
def pairing (size : DataSpace D) (F G : VectorField D) : ℚ := ∑ x ∈ period size, ∑ c, F x c * G x c

def curlLeftField (u : FieldUnits) (F : VectorField D) : VectorField D := fun x => curlLeft u (shiftBox F x)

def curlRightField (u : FieldUnits) (F : VectorField D) : VectorField D := fun x => curlRight u (shiftBox F x)

/-- `INV_CELL2_SUM` -/
def invCell2Sum (D : ℕ) (u : FieldUnits) : ℚ :=
  ∑ direction : Fin 3, if (direction : ℕ) < D then 1 / (u.cellSize direction * u.cellSize direction) else 0

section Pairing

variable {size : DataSpace D} {F G H : VectorField D}

theorem pairing_comm (F G : VectorField D) : pairing size F G = pairing size G F := by
  simp only [pairing, mul_comm]

theorem pairing_self_nonneg (F : VectorField D) : 0 ≤ pairing size F F :=
  Finset.sum_nonneg fun x _ => Finset.sum_nonneg fun c _ => mul_self_nonneg (F x c)

theorem pairing_add_mul_left (F G H : VectorField D) (a : ℚ) :
    pairing size (fun x c => F x c + a * G x c) H = pairing size F H + a * pairing size G H := by
  simp only [pairing, Finset.mul_sum, ← Finset.sum_add_distrib]
  refine Finset.sum_congr rfl fun x _ => Finset.sum_congr rfl fun c _ => ?_
  ring

theorem pairing_add_mul_right (F G H : VectorField D) (a : ℚ) :
    pairing size H (fun x c => F x c + a * G x c) = pairing size H F + a * pairing size H G := by
  rw [pairing_comm, pairing_add_mul_left, pairing_comm F, pairing_comm G]

theorem pairing_eq (F G : VectorField D) : pairing size F G = ∑ x ∈ period size, F x 0 * G x 0 +
    ∑ x ∈ period size, F x 1 * G x 1 + ∑ x ∈ period size, F x 2 * G x 2 := by
  simp only [pairing, Fin.sum_univ_three, Finset.sum_add_distrib]

end Pairing

section Adjoint

variable {size : DataSpace D} (hsize : ∀ d, 0 < size d) (u : FieldUnits) {f g : DataSpace D → ℚ}

theorem directionIndex_zero (direction : Fin 3) : (directionIndex direction 0 : DataSpace D) = 0 := by
  funext d
  simp [directionIndex]

theorem directionIndex_neg (direction : Fin 3) :
    (directionIndex direction (-1) : DataSpace D) = -directionIndex direction 1 := by
  funext d
  simp only [directionIndex, Pi.neg_apply]
  split_ifs <;> rfl

theorem isPeriodic_scalarDifference (hf : IsPeriodic size f) (lower upper : ℤ) (direction : Fin 3) :
    IsPeriodic size (scalarDifference lower upper u.toGridUnits direction f) := by
  intro x y h
  have hshift : ∀ n, f (x + n) = f (y + n) := fun n => hf.add_right n h
  simp only [scalarDifference, hshift]

include hsize

theorem sum_mul_scalarDifference (hf : IsPeriodic size f) (hg : IsPeriodic size g) (direction : Fin 3) :
    ∑ x ∈ period size, f x * scalarDifference (-1) 0 u.toGridUnits direction g x =
      -∑ x ∈ period size, scalarDifference 0 1 u.toGridUnits direction f x * g x := by
  have hparts := sum_mul_sub hsize hf hg (directionIndex direction 1)
  unfold scalarDifference
  simp only [directionIndex_zero, directionIndex_neg, add_zero, ← sub_eq_add_neg]
  split_ifs
  · simp only [mul_div_assoc', div_mul_eq_mul_div, ← Finset.sum_div]
    rw [hparts, neg_div]
  · simp

theorem pairing_curl {F G : VectorField D} (hF : IsPeriodic size F) (hG : IsPeriodic size G) :
    pairing size F (curlLeftField u G) = pairing size (curlRightField u F) G := by
  have hparts : ∀ direction c c', ∑ x ∈ period size,
      F x c * scalarDifference (-1) 0 u.toGridUnits direction (fun y => G y c') x =
        -∑ x ∈ period size, scalarDifference 0 1 u.toGridUnits direction (fun y => F y c) x * G x c' :=
    fun direction c c' => sum_mul_scalarDifference hsize u (hF.map (· c)) (hG.map (· c')) direction
  simp only [pairing_eq, curlLeftField, curlRightField, curl, difference_shiftBox, Matrix.cons_val_zero,
    Matrix.cons_val_one, Matrix.cons_val, mul_sub, sub_mul, Finset.sum_sub_distrib, hparts]
  ring

theorem sum_scalarDifference_mul (hf : IsPeriodic size f) (hg : IsPeriodic size g) (a b : Fin 3) :
    ∑ x ∈ period size, scalarDifference 0 1 u.toGridUnits a f x * scalarDifference 0 1 u.toGridUnits b g x =
      ∑ x ∈ period size, scalarDifference (-1) 0 u.toGridUnits b f x *
        scalarDifference (-1) 0 u.toGridUnits a g x := by
  have hleft := sum_mul_scalarDifference hsize u hf (isPeriodic_scalarDifference u hg 0 1 b) a
  have hright := sum_mul_scalarDifference hsize u (isPeriodic_scalarDifference u hg (-1) 0 a) hf b
  have hcomm : ∀ x, scalarDifference (-1) 0 u.toGridUnits a (scalarDifference 0 1 u.toGridUnits b g) x =
      scalarDifference 0 1 u.toGridUnits b (scalarDifference (-1) 0 u.toGridUnits a g) x := by
    intro x
    unfold scalarDifference
    split_ifs
    · simp only [add_right_comm x (directionIndex b _)]
      ring
    · simp
    · simp
    · rfl
  simp only [mul_comm (scalarDifference (-1) 0 u.toGridUnits a g _)] at hright
  simp only [hcomm, mul_comm (f _)] at hleft
  rw [hright, hleft, neg_neg]

/-- The curl and the divergence together have the sum of squares of all differences. -/
theorem pairing_curl_add_divergence {F : VectorField D} (hF : IsPeriodic size F) :
    pairing size (curlRightField u F) (curlRightField u F) +
        ∑ x ∈ period size, divergence (-1) 0 u.toGridUnits F x^2 =
      ∑ c, ∑ direction, ∑ x ∈ period size, scalarDifference 0 1 u.toGridUnits direction (fun y => F y c) x^2 := by
  have hmixed : ∀ a b c c', ∑ x ∈ period size, scalarDifference 0 1 u.toGridUnits a (fun y => F y c) x *
        scalarDifference 0 1 u.toGridUnits b (fun y => F y c') x =
      ∑ x ∈ period size, scalarDifference (-1) 0 u.toGridUnits b (fun y => F y c) x *
        scalarDifference (-1) 0 u.toGridUnits a (fun y => F y c') x := fun a b c c' =>
    sum_scalarDifference_mul hsize u (hF.map (· c)) (hF.map (· c')) a b
  -- each product of two components of the curl is a product of two terms of the divergence
  have hpair : ∀ a b, ∑ x ∈ period size, scalarDifference 0 1 u.toGridUnits a (fun y => F y b) x *
        scalarDifference 0 1 u.toGridUnits b (fun y => F y a) x +
      ∑ x ∈ period size, scalarDifference 0 1 u.toGridUnits b (fun y => F y a) x *
        scalarDifference 0 1 u.toGridUnits a (fun y => F y b) x =
      ∑ x ∈ period size, scalarDifference (-1) 0 u.toGridUnits a (fun y => F y a) x *
        scalarDifference (-1) 0 u.toGridUnits b (fun y => F y b) x +
      ∑ x ∈ period size, scalarDifference (-1) 0 u.toGridUnits b (fun y => F y b) x *
        scalarDifference (-1) 0 u.toGridUnits a (fun y => F y a) x := fun a b => by
    rw [hmixed a b b a, hmixed b a a b, add_comm]
  have h01 := hpair 0 1
  have h12 := hpair 1 2
  have h20 := hpair 2 0
  have h0 := hmixed 0 0 0 0
  have h1 := hmixed 1 1 1 1
  have h2 := hmixed 2 2 2 2
  simp only [pairing_eq, curlRightField, curl, difference_shiftBox, divergence_eq, Fin.sum_univ_three, sq,
    Matrix.cons_val_zero, Matrix.cons_val_one, Matrix.cons_val]
  simp only [sub_mul, mul_sub, add_mul, mul_add, Finset.sum_sub_distrib, Finset.sum_add_distrib]
  linarith

theorem sum_scalarDifference_sq_le (hf : IsPeriodic size f) (direction : Fin 3) :
    ∑ x ∈ period size, scalarDifference 0 1 u.toGridUnits direction f x^2 ≤
      4 * (if (direction : ℕ) < D then 1 / (u.cellSize direction * u.cellSize direction) else 0) *
        ∑ x ∈ period size, f x^2 := by
  have hle := sum_sub_sq_le hsize hf (directionIndex direction 1)
  have hpos := mul_pos (u.cellSize_pos direction) (u.cellSize_pos direction)
  unfold scalarDifference
  simp only [directionIndex_zero, add_zero]
  split_ifs
  · simp only [div_pow, ← Finset.sum_div, sq (u.cellSize direction)]
    rw [div_le_iff₀ hpos]
    refine hle.trans (le_of_eq ?_)
    have hne := (u.cellSize_pos direction).ne'
    field_simp
  · simp

theorem pairing_curl_le {F : VectorField D} (hF : IsPeriodic size F) :
    pairing size (curlRightField u F) (curlRightField u F) ≤ 4 * invCell2Sum D u * pairing size F F := by
  have hidentity := pairing_curl_add_divergence hsize u hF
  have hdivergence : 0 ≤ ∑ x ∈ period size, divergence (-1) 0 u.toGridUnits F x^2 :=
    Finset.sum_nonneg fun x _ => sq_nonneg _
  have hterms : ∀ c : Fin 3,
      ∑ direction, ∑ x ∈ period size, scalarDifference 0 1 u.toGridUnits direction (fun y => F y c) x^2 ≤
        4 * invCell2Sum D u * ∑ x ∈ period size, F x c^2 := fun c => by
    refine (Finset.sum_le_sum fun direction _ =>
      sum_scalarDifference_sq_le hsize u (hF.map (· c)) direction).trans (le_of_eq ?_)
    rw [invCell2Sum, ← Finset.sum_mul, ← Finset.mul_sum]
  have hpairing : pairing size F F = ∑ c, ∑ x ∈ period size, F x c^2 := by
    rw [pairing, Finset.sum_comm]
    simp only [sq]
  calc pairing size (curlRightField u F) (curlRightField u F)
      ≤ ∑ c, ∑ direction, ∑ x ∈ period size, scalarDifference 0 1 u.toGridUnits direction (fun y => F y c) x^2 := by
        linarith
    _ ≤ ∑ c, 4 * invCell2Sum D u * ∑ x ∈ period size, F x c^2 := Finset.sum_le_sum fun c _ => hterms c
    _ = 4 * invCell2Sum D u * pairing size F F := by rw [← Finset.mul_sum, hpairing]

end Adjoint

section Energy

variable {size : DataSpace D} (u : FieldUnits)

/-- The field energy with a correction for the time step. -/
def quadraticForm (f : Fields size) : ℚ :=
  pairing size f.E.value f.E.value + u.speedOfLight * u.speedOfLight *
    (pairing size f.B.value f.B.value -
      (1 / 2 * u.deltaT)^2 * pairing size (curlRightField u f.E.value) (curlRightField u f.E.value))

/-- Up to a factor, the sum of `E² + c² B²` over all cells. -/
def fieldEnergy (f : Fields size) : ℚ :=
  pairing size f.E.value f.E.value + u.speedOfLight * u.speedOfLight * pairing size f.B.value f.B.value

theorem quadraticForm_le_fieldEnergy (f : Fields size) : quadraticForm u f ≤ fieldEnergy u f := by
  have hcurl : 0 ≤ pairing size _ _ := pairing_self_nonneg (curlRightField u f.E.value)
  have hc := mul_self_nonneg u.speedOfLight
  have hterm := mul_nonneg hc (mul_nonneg (sq_nonneg (1 / 2 * u.deltaT)) hcurl)
  unfold quadraticForm fieldEnergy
  linarith

/-- What the condition on the time step leaves of the electric field bounds the field energy. -/
theorem le_quadraticForm (hsize : ∀ d, 0 < size d) (f : Fields size) :
    (1 - u.speedOfLight * u.speedOfLight * u.deltaT * u.deltaT * invCell2Sum D u) * pairing size f.E.value f.E.value +
      u.speedOfLight * u.speedOfLight * pairing size f.B.value f.B.value ≤ quadraticForm u f := by
  have hcurl := pairing_curl_le hsize u (F := f.E.value) fun x y h => f.E.periodic h
  have hfactor : 0 ≤ u.speedOfLight * u.speedOfLight * (1 / 2 * u.deltaT)^2 :=
    mul_nonneg (mul_self_nonneg _) (sq_nonneg _)
  have hterm := mul_le_mul_of_nonneg_left hcurl hfactor
  unfold quadraticForm
  linarith

theorem updateBHalf_value (B E : PeriodicField size) : (B.updateBHalf u E).value =
    fun x c => B.value x c + -(1 / 2 * u.deltaT) * curlRightField u E.value x c := by
  funext x c
  simp only [PeriodicField.updateBHalf, kernelUpdateBHalf, curlRightField]
  ring

/-- The magnetic part before a half step and after it, in terms of the field in between. -/
theorem magnetic_before (B E : PeriodicField size) :
    pairing size B.value B.value -
        (1 / 2 * u.deltaT)^2 * pairing size (curlRightField u E.value) (curlRightField u E.value) =
      pairing size (B.updateBHalf u E).value (B.updateBHalf u E).value +
        u.deltaT * pairing size (curlRightField u E.value) (B.updateBHalf u E).value := by
  rw [updateBHalf_value]
  simp only [pairing_add_mul_left, pairing_add_mul_right, pairing_comm B.value]
  ring

theorem magnetic_after (B E : PeriodicField size) :
    pairing size (B.updateBHalf u E).value (B.updateBHalf u E).value -
        (1 / 2 * u.deltaT)^2 * pairing size (curlRightField u E.value) (curlRightField u E.value) =
      pairing size B.value B.value - u.deltaT * pairing size (curlRightField u E.value) B.value := by
  rw [updateBHalf_value]
  simp only [pairing_add_mul_left, pairing_add_mul_right, pairing_comm B.value]
  ring

theorem step_E_value (f : Fields size) (J : PeriodicField size) : (f.step u J).E.value = fun x c =>
    f.E.value x c + u.speedOfLight * u.speedOfLight * u.deltaT * curlLeftField u (f.B.updateBHalf u f.E).value x c +
      -(u.deltaT / u.eps0) * J.value x c := by
  funext x c
  simp only [Fields.step, Fields.update_afterCurrent, Fields.addCurrentToEMF, Fields.update_beforeCurrent,
    PeriodicField.addCurrent, PeriodicField.updateE, addCurrent, kernelUpdateE, curlLeftField]
  ring

/-- The work of the current in one step, with the electric field before and after it. -/
def work (f : Fields size) (J : PeriodicField size) : ℚ :=
  u.deltaT / u.eps0 * (pairing size J.value f.E.value + pairing size J.value (f.step u J).E.value)

theorem quadraticForm_step (hsize : ∀ d, 0 < size d) (f : Fields size) (J : PeriodicField size) :
    quadraticForm u (f.step u J) = quadraticForm u f - work u f J := by
  set half := f.B.updateBHalf u f.E with hhalf
  have hB : (f.step u J).B = half.updateBHalf u (f.step u J).E := rfl
  have hbefore := magnetic_before u f.B f.E
  have hafter := magnetic_after u half (f.step u J).E
  have hadjoint : ∀ X : PeriodicField size,
      pairing size X.value (curlLeftField u half.value) = pairing size (curlRightField u X.value) half.value := fun X =>
    pairing_curl hsize u (fun _ _ h => X.periodic h) fun _ _ h => half.periodic h
  have hleft : ∀ X : PeriodicField size, pairing size (f.step u J).E.value X.value = pairing size f.E.value X.value +
      u.speedOfLight * u.speedOfLight * u.deltaT * pairing size (curlRightField u X.value) half.value +
        -(u.deltaT / u.eps0) * pairing size J.value X.value := fun X => by
    rw [step_E_value, pairing_add_mul_left, pairing_add_mul_left, pairing_comm (curlLeftField u _), hadjoint]
  have hnew := hleft (f.step u J).E
  have hold := hleft f.E
  rw [pairing_comm f.E.value (f.step u J).E.value] at hnew
  unfold quadraticForm work
  rw [hB, hafter, hbefore]
  linear_combination hnew + hold

variable (J : ℕ → PeriodicField size) (f : Fields size)

theorem quadraticForm_run (hsize : ∀ d, 0 < size d) (n : ℕ) : quadraticForm u (f.run u J n) =
    quadraticForm u f - ∑ k ∈ Finset.range n, work u (f.run u J k) (J k) := by
  induction n with
  | zero => simp [Fields.run]
  | succ n ih =>
    rw [Fields.run, quadraticForm_step u hsize, ih, Finset.sum_range_succ]
    ring

/-- In every run the quadratic form changes by the work of the current only. It bounds the field energy: without current the
magnetic field stays bounded for all times if the condition on the time step is met, and both fields do if it is met
strictly. -/
theorem energy_balance (hsize : ∀ d, 0 < size d) (n : ℕ) :
    quadraticForm u (f.run u J n) = quadraticForm u f - ∑ k ∈ Finset.range n, work u (f.run u J k) (J k) ∧
    (1 - u.speedOfLight * u.speedOfLight * u.deltaT * u.deltaT * invCell2Sum D u) *
        pairing size (f.run u J n).E.value (f.run u J n).E.value +
      u.speedOfLight * u.speedOfLight * pairing size (f.run u J n).B.value (f.run u J n).B.value ≤
    fieldEnergy u f - ∑ k ∈ Finset.range n, work u (f.run u J k) (J k) ∧
    (u.speedOfLight * u.speedOfLight * u.deltaT * u.deltaT * invCell2Sum D u ≤ 1 →
      u.speedOfLight * u.speedOfLight * pairing size (f.run u J n).B.value (f.run u J n).B.value ≤
        fieldEnergy u f - ∑ k ∈ Finset.range n, work u (f.run u J k) (J k)) ∧
    (u.speedOfLight * u.speedOfLight * u.deltaT * u.deltaT * invCell2Sum D u < 1 →
      pairing size (f.run u J n).E.value (f.run u J n).E.value ≤
        (fieldEnergy u f - ∑ k ∈ Finset.range n, work u (f.run u J k) (J k)) /
          (1 - u.speedOfLight * u.speedOfLight * u.deltaT * u.deltaT * invCell2Sum D u)) := by
  have hrun := quadraticForm_run u J f hsize n
  have hle := le_quadraticForm u hsize (f.run u J n)
  have hstart := quadraticForm_le_fieldEnergy u f
  have hbound := hle.trans (hrun.trans_le (sub_le_sub_right hstart _))
  have hE : 0 ≤ pairing size (f.run u J n).E.value (f.run u J n).E.value := pairing_self_nonneg _
  have hB : 0 ≤ pairing size (f.run u J n).B.value (f.run u J n).B.value := pairing_self_nonneg _
  refine ⟨hrun, hbound, fun hcfl => ?_, fun hcfl => ?_⟩
  · have hrest := mul_nonneg (sub_nonneg.mpr hcfl) hE
    linarith
  · have hmagnetic := mul_nonneg (mul_self_nonneg u.speedOfLight) hB
    apply (le_div_iff₀ (sub_pos.mpr hcfl)).mpr
    linarith

def halfStepUnits : FieldUnits := { unitUnits with deltaT := 1 / 2, deltaT_pos := by norm_num }

/-- The sawtooth of the magnetic field with a uniform current. -/
theorem energy_balance_sawtooth :
    quadraticForm halfStepUnits (sawtooth.run halfStepUnits (fun _ => ⟨fun _ => ![1, 0, 0], fun _ => rfl⟩) 3) =
      quadraticForm halfStepUnits sawtooth - ∑ k ∈ Finset.range 3, work halfStepUnits
        (sawtooth.run halfStepUnits (fun _ => ⟨fun _ => ![1, 0, 0], fun _ => rfl⟩) k)
        ⟨fun _ => ![1, 0, 0], fun _ => rfl⟩ ∧
    pairing (fun _ => 4) (sawtooth.run halfStepUnits (fun _ => ⟨fun _ => 0, fun _ => rfl⟩) 1000).E.value
        (sawtooth.run halfStepUnits (fun _ => ⟨fun _ => 0, fun _ => rfl⟩) 1000).E.value ≤
      2 * fieldEnergy halfStepUnits sawtooth := by
  have hcfl : halfStepUnits.speedOfLight * halfStepUnits.speedOfLight * halfStepUnits.deltaT * halfStepUnits.deltaT *
      invCell2Sum 2 halfStepUnits = 1 / 2 := by
    rw [invCell2Sum, Fin.sum_univ_three]
    norm_num [halfStepUnits, unitUnits, VillaBune.unitCells]
  have hbound := (energy_balance halfStepUnits (fun _ => ⟨fun _ => 0, fun _ => rfl⟩) sawtooth
    (fun _ => by norm_num) 1000).2.2.2
  rw [hcfl] at hbound
  have hwork : ∀ f : Fields (D := 2) fun _ => 4, work halfStepUnits f ⟨fun _ => 0, fun _ => rfl⟩ = 0 := fun f => by
    simp [work, pairing]
  refine ⟨(energy_balance halfStepUnits (fun _ => ⟨fun _ => ![1, 0, 0], fun _ => rfl⟩) sawtooth
    (fun _ => by norm_num) 3).1, (hbound (by norm_num)).trans_eq ?_⟩
  simp only [hwork, Finset.sum_const_zero, sub_zero]
  ring

end Energy

end PIConGPU.YeeSolver
