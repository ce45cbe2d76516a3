import PIConGPU.Mask
import PIConGPU.Shapes

/-!
# Charge and current on the grid

The setting of the current solvers: a current field with three components on the nodes, the
charge density of one macro particle, and the discrete continuity equation between them.
-/
namespace PIConGPU

/-- The constants of the units that the current solvers use. -/
structure GridUnits where
  cellSize : Fin 3 → ℚ
  deltaT : ℚ
  cellSize_pos : ∀ d, 0 < cellSize d
  deltaT_pos : 0 < deltaT

def GridUnits.cellVolume (u : GridUnits) : ℚ := u.cellSize 0 * u.cellSize 1 * u.cellSize 2

theorem GridUnits.cellVolume_pos (u : GridUnits) : 0 < u.cellVolume :=
  mul_pos (mul_pos (u.cellSize_pos 0) (u.cellSize_pos 1)) (u.cellSize_pos 2)

abbrev FieldJ (D : ℕ) := DataSpace D → Fin 3 → ℚ

def atomicAdd {D : ℕ} (node : DataSpace D) (c : Fin 3) (v : ℚ) (J : FieldJ D) : FieldJ D :=
  fun n e => if n = node ∧ e = c then J n e + v else J n e

theorem atomicAdd_apply {D : ℕ} (node : DataSpace D) (c : Fin 3) (v : ℚ) (J : FieldJ D)
    (n : DataSpace D) (e : Fin 3) :
    atomicAdd node c v J n e = J n e + if n = node ∧ e = c then v else 0 := by
  unfold atomicAdd
  split_ifs <;> simp

/-- Charge density on node `n` of a particle at in-cell position `p`. -/
def chargeDensity {D : ℕ} (S : Shape) (u : GridUnits) (charge : ℚ) (p : Fin D → ℚ) (n : DataSpace D) : ℚ :=
  charge / u.cellVolume * ∏ d, S.chargeAssignment (n d - p d)

def divergence {D : ℕ} (hD : D ≤ 3) (u : GridUnits) (J : FieldJ D) (n : DataSpace D) : ℚ :=
  ∑ d : Fin D, (J n (Fin.castLE hD d) - J (n - Pi.single d 1) (Fin.castLE hD d)) /
    u.cellSize (Fin.castLE hD d)

/-- The change of charge on a node is what the deposited current carries away. -/
def Continuity {D : ℕ} (hD : D ≤ 3) (S : Shape) (u : GridUnits) (dt charge : ℚ) (oldPos pos : Fin D → ℚ)
    (J J' : FieldJ D) : Prop :=
  ∀ n, (chargeDensity S u charge pos n - chargeDensity S u charge oldPos n) / dt +
    divergence hD u (fun m e => J' m e - J m e) n = 0

/-- The values of a loop variable from `a` up to, but excluding, `b`. -/
def intLoop (a b : ℤ) : List ℤ := (List.range (b - a).toNat).map fun k : ℕ => a + (k : ℤ)

theorem sum_Ico_eq_sum_range {M : Type*} [AddCommMonoid M] (f : ℤ → M) (a b : ℤ) :
    ∑ i ∈ Finset.Ico a b, f i = ∑ k ∈ Finset.range (b - a).toNat, f (a + k) := by
  refine Finset.sum_nbij' (fun i => (i - a).toNat) (fun k => a + (k : ℤ)) ?_ ?_ ?_ ?_ ?_
  · intro i hi
    rw [Finset.mem_Ico] at hi
    exact Finset.mem_range.mpr (by omega)
  · intro k hk
    rw [Finset.mem_range] at hk
    exact Finset.mem_Ico.mpr ⟨by omega, by omega⟩
  · intro i hi
    rw [Finset.mem_Ico] at hi
    omega
  · intro k _
    omega
  · intro i hi
    rw [Finset.mem_Ico] at hi
    congr 1
    omega

/-- A loop whose body adds a term of its own adds the sum of the terms. -/
theorem foldl_intLoop {M : Type*} [AddCommMonoid M] {body : M → ℤ → M} {f : ℤ → M}
    (hbody : ∀ x i, body x i = x + f i) (a b : ℤ) (x : M) :
    (intLoop a b).foldl body x = x + ∑ i ∈ Finset.Ico a b, f i := by
  rw [sum_Ico_eq_sum_range, intLoop]
  generalize (b - a).toNat = m
  induction m with
  | zero => simp
  | succ m ih =>
    rw [List.range_succ, List.map_append, List.foldl_append, ih, Finset.sum_range_succ]
    simp [hbody, add_assoc]

/-- The innermost loop of a solver: the current of a node is accumulated from the start of the
line, and zeros are not written. -/
def accumulateAlong {D : ℕ} (node : ℤ → DataSpace D) (component : Fin 3) (w : ℤ → ℚ) (a b : ℤ)
    (J : FieldJ D) : FieldJ D :=
  ((intLoop a b).foldl (fun st k =>
    let accumulated_J := st.1 + w k
    (accumulated_J, if accumulated_J ≠ 0 then
      atomicAdd (node k) component accumulated_J st.2 else st.2)) (0, J)).2

theorem accumulateAlong_apply {D : ℕ} (node : ℤ → DataSpace D) (component : Fin 3) (w : ℤ → ℚ)
    (a b : ℤ) (J : FieldJ D) :
    accumulateAlong node component w a b J = J + fun n e => ∑ k ∈ Finset.Ico a b,
      if n = node k ∧ e = component then ∑ i ∈ Finset.Ico a (k + 1), w i else 0 := by
  have hloop : ∀ m : ℕ, ((List.range m).map fun k : ℕ => a + (k : ℤ)).foldl (fun st k =>
      let accumulated_J := st.1 + w k
      (accumulated_J, if accumulated_J ≠ 0 then
        atomicAdd (node k) component accumulated_J st.2 else st.2)) (0, J) =
      (∑ k ∈ Finset.range m, w (a + k), J + fun n e => ∑ k ∈ Finset.range m,
        if n = node (a + k) ∧ e = component then ∑ i ∈ Finset.range (k + 1), w (a + i) else 0) := by
    intro m
    induction m with
    | zero => simp; rfl
    | succ m ih =>
      rw [List.range_succ, List.map_append, List.foldl_append, ih]
      simp only [List.map_cons, List.map_nil, List.foldl_cons, List.foldl_nil,
        ← Finset.sum_range_succ (fun k : ℕ => w (a + k))]
      refine Prod.ext rfl ?_
      funext n e
      simp only [Pi.add_apply, Finset.sum_range_succ (fun k => if n = node (a + (k : ℤ)) ∧ e = component
        then ∑ i ∈ Finset.range (k + 1), w (a + i) else 0)]
      split_ifs with h0 h1 h1
      · rw [atomicAdd_apply, if_pos h1, Pi.add_apply, Pi.add_apply, add_assoc]
      · rw [atomicAdd_apply, if_neg h1, Pi.add_apply, Pi.add_apply, add_assoc]
      · rw [not_not.mp h0, add_zero]
        rfl
      · rw [add_zero]
        rfl
  rw [accumulateAlong, intLoop, hloop]
  funext n e
  simp only [Pi.add_apply, sum_Ico_eq_sum_range _ a]
  congr 1
  refine Finset.sum_congr rfl fun k _ => ?_
  rw [show (a + (k : ℤ) + 1 - a).toNat = k + 1 by omega]

end PIConGPU
