import PIConGPU.RowMajor

/-!
# Rotations by the Cayley transform

The equation `w - w ⨯₃ t = v + v ⨯₃ t` determines the vector `w`, which is as long as `v`. There are two well-known
formulas for it.
-/
namespace PIConGPU.VectorRotation

open Matrix

variable {K : Type*} [Field K] [LinearOrder K] [IsStrictOrderedRing K]

section Components

variable {R : Type*} [CommRing R] (v w : Fin 3 → R)

theorem cross_zero : (v ⨯₃ w) 0 = v 1 * w 2 - v 2 * w 1 := by
  rw [cross_apply]
  rfl

theorem cross_one : (v ⨯₃ w) 1 = v 2 * w 0 - v 0 * w 2 := by
  rw [cross_apply]
  rfl

theorem cross_two : (v ⨯₃ w) 2 = v 0 * w 1 - v 1 * w 0 := by
  rw [cross_apply]
  rfl

end Components

/-- The vector `w` is `v` after a rotation about `t`. -/
def IsRotation (t v w : Fin 3 → K) : Prop := w - w ⨯₃ t = v + v ⨯₃ t

theorem one_add_dot_pos (t : Fin 3 → K) : 0 < 1 + t ⬝ᵥ t := by
  have h : 0 ≤ t ⬝ᵥ t := Finset.sum_nonneg fun d _ => mul_self_nonneg (t d)
  linarith

/-- A vector is determined by its difference to its cross product with `t`. -/
theorem sub_cross_injective (t : Fin 3 → K) : Function.Injective fun w : Fin 3 → K => w - w ⨯₃ t := by
  intro w w' h
  have hdiff : w - w' = (w - w') ⨯₃ t := by
    have hsub : w - w' - (w ⨯₃ t - w' ⨯₃ t) = 0 := by
      rw [sub_sub_sub_comm]
      exact sub_eq_zero.mpr h
    rw [map_sub, LinearMap.sub_apply]
    exact sub_eq_zero.mp hsub
  have hzero : (w - w') ⬝ᵥ (w - w') = 0 :=
    (congrArg ((w - w') ⬝ᵥ ·) hdiff).trans (dot_self_cross (w - w') t)
  exact sub_eq_zero.mp (dotProduct_self_eq_zero.mp hzero)

theorem IsRotation.unique {t v w w' : Fin 3 → K} (h : IsRotation t v w) (h' : IsRotation t v w') : w = w' :=
  sub_cross_injective t (h.trans h'.symm)

omit [LinearOrder K] [IsStrictOrderedRing K] in
theorem IsRotation.symm {t v w : Fin 3 → K} (h : IsRotation t v w) : IsRotation (-t) w v := by
  unfold IsRotation at h ⊢
  rw [map_neg, map_neg, sub_neg_eq_add, ← sub_eq_add_neg]
  exact Eq.symm h

omit [LinearOrder K] [IsStrictOrderedRing K] in
theorem IsRotation.neg {t v w : Fin 3 → K} (h : IsRotation t v w) : IsRotation t (-v) (-w) := by
  unfold IsRotation at h ⊢
  rw [map_neg, map_neg, LinearMap.neg_apply, LinearMap.neg_apply, ← neg_sub', ← neg_add, h]

theorem IsRotation.dot_self {t v w : Fin 3 → K} (h : IsRotation t v w) : w ⬝ᵥ w = v ⬝ᵥ v := by
  have hdiff : w - v = (w + v) ⨯₃ t := by
    rw [map_add, LinearMap.add_apply, sub_eq_iff_eq_add, add_assoc, add_comm _ v, ← sub_eq_iff_eq_add']
    exact h
  have horthogonal : (w + v) ⬝ᵥ (w - v) = 0 := by rw [hdiff, dot_self_cross]
  rw [add_dotProduct, dotProduct_sub, dotProduct_sub, dotProduct_comm w v] at horthogonal
  linarith

/-- Two cross products, the second one with a shortened `t`. -/
theorem isRotation_cross_cross (t v : Fin 3 → K) :
    IsRotation t v (v + (v + v ⨯₃ t) ⨯₃ ((2 * (1 / (1 + t ⬝ᵥ t))) • t)) := by
  have hpos := (one_add_dot_pos t).ne'
  simp only [vec3_dotProduct] at hpos
  unfold IsRotation
  funext d
  match d with
  | 0 | 1 | 2 =>
    simp only [Pi.add_apply, Pi.sub_apply, Pi.smul_apply, smul_eq_mul, cross_zero, cross_one, cross_two, vec3_dotProduct]
    field_simp
    ring

/-- The vector whose difference to its cross product with `t` is `q`. -/
theorem sub_cross_eq (t q : Fin 3 → K) (w : Fin 3 → K)
    (hw : w = (1 / (1 + t ⬝ᵥ t)) • (q + (q ⬝ᵥ t) • t + q ⨯₃ t)) : w - w ⨯₃ t = q := by
  have hpos := (one_add_dot_pos t).ne'
  simp only [vec3_dotProduct] at hpos
  subst hw
  funext d
  match d with
  | 0 | 1 | 2 =>
    simp only [Pi.add_apply, Pi.sub_apply, Pi.smul_apply, smul_eq_mul, cross_zero, cross_one, cross_two, vec3_dotProduct]
    field_simp
    ring

/-- The length of a vector with its cross product. -/
theorem dot_self_add_cross (v t : Fin 3 → K) (e : K) (he : e * e = 1) :
    (v + e • (v ⨯₃ t)) ⬝ᵥ (v + e • (v ⨯₃ t)) = v ⬝ᵥ v + ((v ⬝ᵥ v) * (t ⬝ᵥ t) - (v ⬝ᵥ t)^2) := by
  rw [add_dotProduct, dotProduct_add, dotProduct_add, dotProduct_smul, smul_dotProduct, smul_dotProduct, dotProduct_smul,
    dotProduct_comm (v ⨯₃ t) v, dot_self_cross, cross_dot_cross, dotProduct_comm t v]
  simp only [smul_eq_mul]
  linear_combination ((v ⬝ᵥ v) * (t ⬝ᵥ t) - (v ⬝ᵥ t)^2) * he

end PIConGPU.VectorRotation
