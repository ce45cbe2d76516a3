import PIConGPU.CurrentWrites
import PIConGPU.ShapePartition

/-!
# The shape with jumps

A particle that is exactly half a cell from two nodes belongs to the lower one, but the coordinate system of
an odd support is already shifted to the upper one. Where the lower node is not in the windows of a solver the
charge is not conserved, and the interpolation reads the field of the wrong node.
-/
namespace PIConGPU.NearestGridPoint

open Esirkepov

abbrev ngp : Shape := SupportShape.NGP.shape

theorem windowBegin_ngp : windowBegin ngp = -1 := by
  simp [windowBegin, currentLowerMargin, SupportShape.support]

theorem windowEnd_ngp : windowEnd ngp = 1 := by
  rw [windowEnd, windowBegin_ngp]
  simp [SupportShape.support]

theorem ngp_eq_zero_iff {n : ℤ} {x : ℚ} : ngp.chargeAssignment (n - x) = 0 ↔ n ≠ NGP.node x := by
  change NGP.chargeAssignment (n - x) = 0 ↔ _
  rw [NGP.chargeAssignment_node]
  simp

section Axis

variable {D : ℕ} {oldPos pos : Fin D → ℚ} (hpos : ∀ d, 0 ≤ pos d ∧ pos d < 1)
  (hmoved : ∀ d, |pos d - oldPos d| < 1) (d : Fin D)

include hpos

theorem coordinateShift_ngp : coordinateShift ngp pos d = if pos d < 1 / 2 then 0 else 1 := by
  obtain ⟨h0, h1⟩ := hpos d
  rw [coordinateShift, if_pos (by decide)]
  split_ifs with h
  · exact Int.floor_eq_iff.mpr ⟨by push_cast; linarith, by push_cast; linarith⟩
  · exact Int.floor_eq_iff.mpr ⟨by push_cast; linarith, by push_cast; linarith⟩

include hmoved

/-- The windows of one axis miss a node only if the particle moved down to a tie. -/
theorem node_mem_window_iff :
    (NGP.node (oldPos d) - coordinateShift ngp pos d ∈ windowLoop ngp (shiftedLine ngp oldPos pos) d ∧
      NGP.node (pos d) - coordinateShift ngp pos d ∈ windowLoop ngp (shiftedLine ngp oldPos pos) d) ↔
    ¬ (pos d = 1 / 2 ∧ pos d < oldPos d) := by
  obtain ⟨h0, h1⟩ := hpos d
  obtain ⟨hm0, hm1⟩ := abs_lt.mp (hmoved d)
  have hold0 := Int.le_ceil (oldPos d - 1 / 2)
  have hold1 := Int.ceil_lt_add_one (oldPos d - 1 / 2)
  have hoff : offset (shiftedLine ngp oldPos pos) d = if pos d < oldPos d then 1 else 0 := by
    simp only [offset, shiftedLine, sub_lt_sub_iff_right]
  rw [windowLoop, mem_intLoop, mem_intLoop, Finset.mem_Ico, Finset.mem_Ico, windowBegin_ngp, windowEnd_ngp, hoff,
    coordinateShift_ngp hpos, NGP.node, NGP.node]
  rcases lt_trichotomy (pos d) (1 / 2) with hlt | heq | hgt
  · have hnode : ⌈pos d - 1 / 2⌉ = 0 := Int.ceil_eq_zero_iff.mpr ⟨by linarith, by linarith⟩
    have hlow : -1 ≤ ⌈oldPos d - 1 / 2⌉ := Int.le_ceil_iff.mpr (by push_cast; linarith)
    rw [hnode, if_pos hlt]
    split_ifs with hdown
    · have h2 : 0 ≤ ⌈oldPos d - 1 / 2⌉ := Int.le_ceil_iff.mpr (by push_cast; linarith)
      have h3 : ⌈oldPos d - 1 / 2⌉ ≤ 1 := Int.ceil_le.mpr (by push_cast; linarith)
      have hne : pos d ≠ 1 / 2 := hlt.ne
      simp only [hne, false_and, not_false_eq_true, iff_true]
      omega
    · have h3 : ⌈oldPos d - 1 / 2⌉ ≤ 0 := Int.ceil_le.mpr (by push_cast; linarith)
      simp only [hdown, and_false, not_false_eq_true, iff_true]
      omega
  · have hnode : ⌈pos d - 1 / 2⌉ = 0 := by rw [heq]; norm_num
    rw [hnode, if_neg heq.not_lt]
    split_ifs with hdown
    · simp only [heq, heq ▸ hdown, and_self, not_true_eq_false, iff_false]
      omega
    · have h2 : 0 ≤ ⌈oldPos d - 1 / 2⌉ := Int.le_ceil_iff.mpr (by push_cast; linarith)
      have h3 : ⌈oldPos d - 1 / 2⌉ ≤ 0 := Int.ceil_le.mpr (by push_cast; linarith)
      simp only [hdown, and_false, not_false_eq_true, iff_true]
      omega
  · have hnode : ⌈pos d - 1 / 2⌉ = 1 := Int.ceil_eq_iff.mpr ⟨by push_cast; linarith, by push_cast; linarith⟩
    have hne : pos d ≠ 1 / 2 := hgt.ne'
    rw [hnode, if_neg hgt.not_gt]
    simp only [hne, false_and, not_false_eq_true, iff_true]
    split_ifs with hdown
    · have h2 : 1 ≤ ⌈oldPos d - 1 / 2⌉ := Int.le_ceil_iff.mpr (by push_cast; linarith)
      have h3 : ⌈oldPos d - 1 / 2⌉ ≤ 2 := Int.ceil_le.mpr (by push_cast; linarith)
      omega
    · have h2 : 0 ≤ ⌈oldPos d - 1 / 2⌉ := Int.le_ceil_iff.mpr (by push_cast; linarith)
      have h3 : ⌈oldPos d - 1 / 2⌉ ≤ 1 := Int.ceil_le.mpr (by push_cast; linarith)
      omega

omit d in
theorem windowsCover_iff : WindowsCover ngp oldPos pos ↔ ∀ d, ¬ (pos d = 1 / 2 ∧ pos d < oldPos d) := by
  refine forall_congr' fun d => ?_
  rw [← node_mem_window_iff hpos hmoved d]
  constructor
  · intro h
    exact ⟨h _ (.inl fun h0 => ngp_eq_zero_iff.mp h0 rfl), h _ (.inr fun h0 => ngp_eq_zero_iff.mp h0 rfl)⟩
  · rintro ⟨h0, h1⟩ n (hn | hn)
    · rwa [not_not.mp fun h => hn (ngp_eq_zero_iff.mpr h)]
    · rwa [not_not.mp fun h => hn (ngp_eq_zero_iff.mpr h)]

end Axis

theorem coversWindow_of_windowsCover {D : ℕ} {S : Shape} (hS : S.IsPartition) {oldPos pos : Fin D → ℚ}
    (h : WindowsCover S oldPos pos) : CoversWindow S (shiftedLine S oldPos pos) := by
  have hcast : ∀ (n : ℤ) (d : Fin D) (x : ℚ),
      (n : ℚ) - (x - coordinateShift S pos d) = ((n + coordinateShift S pos d : ℤ) : ℚ) - x := fun n d x => by
    push_cast
    ring
  have hmem : ∀ (n : ℤ) (d : Fin D), S.chargeAssignment (n - (shiftedLine S oldPos pos).pos0 d) ≠ 0 ∨
      S.chargeAssignment (n - (shiftedLine S oldPos pos).pos1 d) ≠ 0 →
      n ∈ Finset.Ico (windowBegin S + offset (shiftedLine S oldPos pos) d)
        (windowEnd S + offset (shiftedLine S oldPos pos) d) := by
    intro n d hn
    simp only [shiftedLine, hcast] at hn
    have hwindow := h d (n + coordinateShift S pos d) hn
    rwa [add_sub_cancel_right, windowLoop, mem_intLoop] at hwindow
  refine ⟨fun {n d} hn => ?_, fun {n d} hn => ?_, fun d => ?_⟩
  · exact not_not.mp fun h0 => hn (hmem n d (.inl h0))
  · rw [DS, not_not.mp fun h1 => hn (hmem n d (.inr h1)), not_not.mp fun h0 => hn (hmem n d (.inl h0)), sub_zero]
  · simp only [DS, Finset.sum_sub_distrib]
    rw [hS.sum_of_mem _ fun n hn => hmem n d (.inr hn), hS.sum_of_mem _ fun n hn => hmem n d (.inl hn), sub_self]

section Continuity

variable {D : ℕ} (hD : D ≤ 3) (u : GridUnits)

/-- After a step down to a tie the node of the particle gets charge, but no current reaches it. -/
theorem not_continuity {dt charge : ℚ} {oldPos pos : Fin D → ℚ} {J J' : FieldJ D} (hdt : dt ≠ 0) (hcharge : charge ≠ 0)
    (hpos : ∀ d, 0 ≤ pos d ∧ pos d < 1) {d : Fin D}
    (htie : pos d = 1 / 2) (hdown : pos d < oldPos d)
    (hout : ∀ n, ¬ InWindows ngp oldPos pos n → J' n = J n) :
    ¬ Continuity hD ngp u dt charge oldPos pos J J' := by
  intro hcontinuity
  have hnode : NGP.node (pos d) = 0 := by
    rw [NGP.node, htie]
    norm_num
  have hold : NGP.node (oldPos d) ≠ 0 := by
    have h : 0 < NGP.node (oldPos d) := Int.lt_ceil.mpr (by push_cast; linarith)
    exact h.ne'
  have hlow : ∀ n : DataSpace D, n d ≤ 0 → J' n = J n := fun n hn => hout n fun hin => by
    have h := hin d
    have hoff : offset (shiftedLine ngp oldPos pos) d = 1 := if_pos (by simpa [shiftedLine] using hdown)
    rw [windowLoop, mem_intLoop, Finset.mem_Ico, windowBegin_ngp, hoff, coordinateShift_ngp hpos, if_neg htie.not_lt] at h
    omega
  set n : DataSpace D := fun e => NGP.node (pos e)
  have hdivergence : divergence hD u (fun m e => J' m e - J m e) n = 0 := by
    refine Finset.sum_eq_zero fun e _ => ?_
    have h1 : J' (n - Pi.single e 1) = J (n - Pi.single e 1) := hlow _ (by
      have : (0 : ℤ) ≤ (Pi.single e 1 : DataSpace D) d := by
        by_cases h : d = e
        · subst h
          simp
        · simp [h]
      have hnd : n d = 0 := hnode
      rw [Pi.sub_apply]
      omega)
    dsimp only
    rw [hlow n hnode.le, h1, sub_self, sub_self, sub_self, zero_div]
  have hnew : chargeDensity ngp u charge pos n = charge / u.cellVolume := by
    rw [chargeDensity, Finset.prod_eq_one, mul_one]
    intro e _
    change NGP.chargeAssignment _ = 1
    rw [NGP.chargeAssignment_node, if_pos rfl]
  have hgone : chargeDensity ngp u charge oldPos n = 0 := by
    rw [chargeDensity, Finset.prod_eq_zero (Finset.mem_univ d), mul_zero]
    exact ngp_eq_zero_iff.mpr fun h => hold (h.symm.trans hnode)
  have h := hcontinuity n
  rw [hdivergence, hnew, hgone, sub_zero, add_zero] at h
  exact div_ne_zero (div_ne_zero hcharge u.cellVolume_pos.ne') hdt h

theorem continuity_of_charge_eq_zero {S : Shape} {dt : ℚ} {oldPos pos : Fin D → ℚ} {J J' : FieldJ D}
    (h : ∀ n d, J' n (Fin.castLE hD d) = J n (Fin.castLE hD d)) : Continuity hD S u dt 0 oldPos pos J J' := by
  intro n
  simp [chargeDensity, divergence, h]

theorem deposit3_zero (S : Shape) (J : FieldJ 3) (pos velocity : Fin 3 → ℚ) (deltaTime : ℚ) :
    deposit3 S u J pos velocity 0 deltaTime = J := by
  have haxis : ∀ cursorJ line cellEdgeLength (J : FieldJ 3), cptCurrent1D S u 0 cursorJ line cellEdgeLength J = J := by
    intro cursorJ line cellEdgeLength J
    have hzero : ∀ (J : FieldJ 3) node c a b, accumulateAlong node c (fun _ => 0) a b J = J := fun J node c a b => by
      rw [accumulateAlong_apply]
      funext n e
      simp
    simp [cptCurrent1D, hzero]
  simp only [deposit3, haxis]

theorem deposit2_zero (S : Shape) (J : FieldJ 2) (pos : Fin 2 → ℚ) (velocity : Fin 3 → ℚ) (deltaTime : ℚ) :
    deposit2 S u J pos velocity 0 deltaTime = J := by
  have haxis : ∀ cursorJ line cellEdgeLength (J : FieldJ 2), cptCurrent1D2 S u 0 cursorJ line cellEdgeLength J = J := by
    intro cursorJ line cellEdgeLength J
    have hzero : ∀ (J : FieldJ 2) node c a b, accumulateAlong node c (fun _ => 0) a b J = J := fun J node c a b => by
      rw [accumulateAlong_apply]
      funext n e
      simp
    simp [cptCurrent1D2, hzero]
  simp only [deposit2, haxis]
  simp [cptCurrentZ]

/-- A deposit within the windows conserves the charge exactly if the particle did not move down to a tie. -/
theorem ngp_continuity_iff {oldPos pos : Fin D → ℚ} (hpos : ∀ d, 0 ≤ pos d ∧ pos d < 1)
    (hmoved : ∀ d, |pos d - oldPos d| < 1) {charge : ℚ} {J J' : FieldJ D} (hout : ∀ n, ¬ InWindows ngp oldPos pos n → J' n = J n) (hzero : charge = 0 → J' = J)
    (hcover : WindowsCover ngp oldPos pos → Continuity hD ngp u u.deltaT charge oldPos pos J J') :
    Continuity hD ngp u u.deltaT charge oldPos pos J J' ↔ charge = 0 ∨ WindowsCover ngp oldPos pos := by
  constructor
  · intro h
    by_contra hbad
    obtain ⟨hcharge, hbad⟩ := not_or.mp hbad
    rw [windowsCover_iff hpos hmoved] at hbad
    push Not at hbad
    obtain ⟨d, htie, hdown⟩ := hbad
    exact not_continuity hD u u.deltaT_pos.ne' hcharge hpos htie hdown hout h
  · rintro (rfl | h)
    · exact continuity_of_charge_eq_zero hD u fun n d => by rw [hzero rfl]
    · exact hcover h

theorem sub_oldPos (pos : Fin D → ℚ) (velocity : Fin 3 → ℚ) (deltaTime : ℚ) (d : Fin D) :
    pos d - oldPos u hD pos velocity deltaTime d =
      velocity (Fin.castLE hD d) * deltaTime / u.cellSize (Fin.castLE hD d) := by
  rw [oldPos, sub_sub_cancel]

theorem deposit3_continuity_iff {pos velocity : Fin 3 → ℚ} (charge deltaTime : ℚ) (J : FieldJ 3)
    (hpos : ∀ d, 0 ≤ pos d ∧ pos d < 1)
    (hmoved : ∀ d, |pos d - oldPos u le_rfl pos velocity deltaTime d| < 1) :
    Continuity le_rfl ngp u u.deltaT charge (oldPos u le_rfl pos velocity deltaTime) pos J
        (deposit3 ngp u J pos velocity charge deltaTime) ↔
      charge = 0 ∨ WindowsCover ngp (oldPos u le_rfl pos velocity deltaTime) pos := by
  refine ngp_continuity_iff le_rfl u hpos hmoved (fun n hn => ?_) (fun h => by rw [h, deposit3_zero]) fun hcover =>
    deposit3_continuity u charge deltaTime J (coversWindow_of_windowsCover NGP.isPartition hcover)
  exact (performs_deposit3 ngp u pos velocity charge deltaTime).apply_of_not_mem
    (fun w hw hnode => hn (by rw [← hnode]; exact inWindows_writes3 ngp u hw)) J

theorem deposit2_continuity_iff {pos : Fin 2 → ℚ} {velocity : Fin 3 → ℚ} (charge deltaTime : ℚ) (J : FieldJ 2)
    (hpos : ∀ d, 0 ≤ pos d ∧ pos d < 1)
    (hmoved : ∀ d, |pos d - oldPos u (by decide) pos velocity deltaTime d| < 1) :
    Continuity (by decide) ngp u u.deltaT charge (oldPos u (by decide) pos velocity deltaTime) pos J
        (deposit2 ngp u J pos velocity charge deltaTime) ↔
      charge = 0 ∨ WindowsCover ngp (oldPos u (by decide) pos velocity deltaTime) pos := by
  refine ngp_continuity_iff (by decide) u hpos hmoved (fun n hn => ?_) (fun h => by rw [h, deposit2_zero]) fun hcover =>
    deposit2_continuity u charge deltaTime J (coversWindow_of_windowsCover NGP.isPartition hcover)
  exact (performs_deposit2 ngp u pos velocity charge deltaTime).apply_of_not_mem
    (fun w hw hnode => hn (by rw [← hnode]; exact inWindows_writes2 ngp u hw)) J

end Continuity

section Interpolation

open AssignedTrilinearInterpolation ShiftCoordinateSystem

variable {D : ℕ} {particlePos fieldPos : Fin D → ℚ}

abbrev ngpOnSupport : Shape := ⟨1, NGP.chargeAssignmentOnSupport⟩

theorem getOffset_eq_node_iff {v : ℚ} (hlo : -1 / 2 ≤ v) (hhi : v < 1) :
    getOffsetToStaticShapeSystem false v = NGP.node v ↔ v ≠ 1 / 2 ∧ v ≠ -1 / 2 := by
  have hceil : ∀ k : ℤ, NGP.node v = k ↔ (k : ℚ) - 1 < v - 1 / 2 ∧ v - 1 / 2 ≤ k := fun k => Int.ceil_eq_iff
  simp only [getOffsetToStaticShapeSystem, Bool.false_eq_true, if_false]
  rw [eq_comm]
  split_ifs with h
  · rw [hceil]
    push_cast
    constructor
    · rintro ⟨h1, -⟩
      exact ⟨by linarith, by linarith⟩
    · rintro ⟨h1, -⟩
      exact ⟨by linarith [lt_of_le_of_ne h h1.symm], by linarith⟩
  · rw [hceil]
    push_cast
    constructor
    · rintro ⟨h1, -⟩
      exact ⟨by linarith, by linarith⟩
    · rintro ⟨-, h1⟩
      exact ⟨by linarith [lt_of_le_of_ne hlo h1.symm], by linarith⟩

theorem getOffset_mem_Ico (v : ℚ) : getOffsetToStaticShapeSystem false v ∈ Finset.Ico (0 : ℤ) 2 := by
  simp only [getOffsetToStaticShapeSystem, Bool.false_eq_true, if_false]
  split_ifs <;> decide

theorem interpolateComponent_onSupport (hD : D = 2 ∨ D = 3) (F : DataSpace D → ℚ) :
    FieldToParticleInterpolation.interpolateComponent ngpOnSupport (fun x => some (F x)) particlePos fieldPos =
      some (F (offset (fun _ => 1) fieldPos particlePos)) := by
  have hbegin : FieldToParticleInterpolation.supportBegin ngpOnSupport = 0 := by decide
  have hend : FieldToParticleInterpolation.supportEnd ngpOnSupport = 0 := by decide
  have hone : Finset.Ico (0 : ℤ) (0 + 1) = {0} := by decide
  rw [FieldToParticleInterpolation.interpolateComponent]
  simp only [shift_eq, hbegin, hend, zero_add]
  rcases hD with rfl | rfl
  · rw [interpolate, interpolate2_eq (F := F) fun _ _ => rfl, hone]
    have hzero : (![0, 0] : DataSpace 2) = 0 := by decide
    simp only [Finset.sum_singleton, NGP.chargeAssignmentOnSupport, mul_one, hzero, add_zero]
  · rw [interpolate, interpolate3_eq (F := F) fun _ _ => rfl, hone]
    have hzero : (![0, 0, 0] : DataSpace 3) = 0 := by decide
    simp only [Finset.sum_singleton, NGP.chargeAssignmentOnSupport, mul_one, hzero, add_zero]

/-- The native version reads the node of the particle, if it is within the margins. -/
theorem interpolateComponent_native (hD : D = 2 ∨ D = 3) (F : DataSpace D → ℚ) :
    FieldToParticleInterpolationNative.interpolateComponent ngp (fun x => some (F x)) particlePos fieldPos =
      some (if ∀ d, NGP.node (particlePos d - fieldPos d) ∈ Finset.Ico (0 : ℤ) 2 then
        F (fun d => NGP.node (particlePos d - fieldPos d)) else 0) := by
  have hlower : FieldToParticleInterpolationNative.lowerMargin ngp = 0 := by decide
  have hupper : FieldToParticleInterpolationNative.upperMargin ngp = 1 := by decide
  have hW : ∀ (n : ℤ) x, ngp.chargeAssignment (n - x) = if n = NGP.node x then 1 else 0 := fun n x =>
    NGP.chargeAssignment_node x n
  have hshift : FieldToParticleInterpolationNative.shiftNative particlePos fieldPos =
      fun d => particlePos d - fieldPos d := rfl
  rw [FieldToParticleInterpolationNative.interpolateComponent, hlower, hupper, neg_zero, hshift]
  rcases hD with rfl | rfl
  · rw [interpolate, interpolate2_eq (F := F) fun _ _ => rfl]
    simp only [hW, zero_add, mul_ite, mul_one, mul_zero, Finset.sum_ite_eq', one_add_one_eq_two]
    have hall : (∀ d : Fin 2, NGP.node (particlePos d - fieldPos d) ∈ Finset.Ico (0 : ℤ) 2) ↔
        NGP.node (particlePos 1 - fieldPos 1) ∈ Finset.Ico (0 : ℤ) 2 ∧
          NGP.node (particlePos 0 - fieldPos 0) ∈ Finset.Ico (0 : ℤ) 2 := Fin.forall_fin_two.trans and_comm
    have hvec : (fun d : Fin 2 => NGP.node (particlePos d - fieldPos d)) =
        ![NGP.node (particlePos 0 - fieldPos 0), NGP.node (particlePos 1 - fieldPos 1)] := by
      funext d
      fin_cases d <;> rfl
    rw [hvec, if_congr hall rfl rfl]
    simp only [ite_and]
  · rw [interpolate, interpolate3_eq (F := F) fun _ _ => rfl]
    simp only [hW, zero_add, mul_ite, mul_one, mul_zero, Finset.sum_ite_eq', one_add_one_eq_two]
    have hall : (∀ d : Fin 3, NGP.node (particlePos d - fieldPos d) ∈ Finset.Ico (0 : ℤ) 2) ↔
        NGP.node (particlePos 2 - fieldPos 2) ∈ Finset.Ico (0 : ℤ) 2 ∧
          NGP.node (particlePos 1 - fieldPos 1) ∈ Finset.Ico (0 : ℤ) 2 ∧
            NGP.node (particlePos 0 - fieldPos 0) ∈ Finset.Ico (0 : ℤ) 2 :=
      ⟨fun h => ⟨h 2, h 1, h 0⟩, fun h d => by fin_cases d; exacts [h.2.2, h.2.1, h.1]⟩
    have hvec : (fun d : Fin 3 => NGP.node (particlePos d - fieldPos d)) =
        ![NGP.node (particlePos 0 - fieldPos 0), NGP.node (particlePos 1 - fieldPos 1),
          NGP.node (particlePos 2 - fieldPos 2)] := by
      funext d
      fin_cases d <;> rfl
    rw [hvec, if_congr hall rfl rfl]
    simp only [ite_and]

theorem interpolateComponent_eq_iff (hD : D = 2 ∨ D = 3) (hpos : ∀ d, 0 ≤ particlePos d ∧ particlePos d < 1)
    (hfieldPos : ∀ d, fieldPos d = 0 ∨ fieldPos d = 1 / 2) :
    (∀ F : DataSpace D → ℚ,
      FieldToParticleInterpolation.interpolateComponent ngpOnSupport (fun x => some (F x)) particlePos fieldPos =
        FieldToParticleInterpolationNative.interpolateComponent ngp (fun x => some (F x)) particlePos fieldPos) ↔
    ∀ d, particlePos d - fieldPos d ≠ 1 / 2 ∧ particlePos d - fieldPos d ≠ -1 / 2 := by
  have hnode : ∀ d, offset (fun _ => 1) fieldPos particlePos d = NGP.node (particlePos d - fieldPos d) ↔
      particlePos d - fieldPos d ≠ 1 / 2 ∧ particlePos d - fieldPos d ≠ -1 / 2 := fun d =>
    have hbounds := FieldToParticleInterpolation.position_bounds hpos hfieldPos d
    getOffset_eq_node_iff hbounds.1 hbounds.2
  simp only [interpolateComponent_onSupport hD, interpolateComponent_native hD, Option.some_inj, ← hnode]
  constructor
  · intro h
    -- a field that is one at the node of the shifted version only
    have hF := h fun x => if x = offset (fun _ => 1) fieldPos particlePos then 1 else 0
    rw [if_pos rfl] at hF
    split_ifs at hF with hin heq
    · exact fun d => (congrFun heq d).symm
    · exact absurd hF one_ne_zero
    · exact absurd hF one_ne_zero
  · intro h F
    have hvec : (fun d => NGP.node (particlePos d - fieldPos d)) = offset (fun _ => 1) fieldPos particlePos :=
      funext fun d => (h d).symm
    rw [if_pos fun d => by rw [← h d]; exact getOffset_mem_Ico _, hvec]

theorem fieldToParticle_eq_iff (hD : D = 2 ∨ D = 3) (hpos : ∀ d, 0 ≤ particlePos d ∧ particlePos d < 1)
    {fieldPos : Fin 3 → Fin D → ℚ} (hfieldPos : ∀ c d, fieldPos c d = 0 ∨ fieldPos c d = 1 / 2) :
    (∀ F : DataSpace D → Fin 3 → ℚ,
      FieldToParticleInterpolation.fieldToParticle ngpOnSupport (fun x => some (F x)) particlePos fieldPos =
        FieldToParticleInterpolationNative.fieldToParticle ngp (fun x => some (F x)) particlePos fieldPos) ↔
    ∀ c d, particlePos d - fieldPos c d ≠ 1 / 2 ∧ particlePos d - fieldPos c d ≠ -1 / 2 := by
  have hcomponent : ∀ (F : DataSpace D → Fin 3 → ℚ) c, fieldComponent (fun x => some (F x)) c = fun x => some (F x c) :=
    fun _ _ => rfl
  have hiff := fun c => interpolateComponent_eq_iff hD hpos (hfieldPos c)
  rw [← forall_congr' hiff]
  constructor
  · intro h c F
    have hF := h fun x _ => F x
    simp only [FieldToParticleInterpolation.fieldToParticle, FieldToParticleInterpolationNative.fieldToParticle,
      hcomponent, interpolateComponent_onSupport hD, interpolateComponent_native hD, Option.bind_eq_bind,
      Option.bind_some, Option.pure_def, Option.some_inj] at hF ⊢
    have hc := congrFun hF c
    fin_cases c
    · exact hc
    · exact hc
    · exact hc
  · intro h F
    simp only [FieldToParticleInterpolation.fieldToParticle, FieldToParticleInterpolationNative.fieldToParticle,
      hcomponent, h]

end Interpolation

/-- What the windows contain, what is conserved and what is interpolated: all three are right for the shape with
jumps unless a coordinate is at a tie, for the deposit after a step down. -/
theorem ngp_correct_iff (u : GridUnits) (velocity : Fin 3 → ℚ) (charge deltaTime : ℚ) :
    (∀ (pos : Fin 3 → ℚ) (J : FieldJ 3), (∀ d, 0 ≤ pos d ∧ pos d < 1) →
      (∀ d, |velocity d * deltaTime / u.cellSize d| < 1) →
      (WindowsCover ngp (oldPos u le_rfl pos velocity deltaTime) pos ↔
        ∀ d, ¬ (pos d = 1 / 2 ∧ velocity d * deltaTime / u.cellSize d < 0)) ∧
      (Continuity le_rfl ngp u u.deltaT charge (oldPos u le_rfl pos velocity deltaTime) pos J
          (deposit3 ngp u J pos velocity charge deltaTime) ↔
        charge = 0 ∨ ∀ d, ¬ (pos d = 1 / 2 ∧ velocity d * deltaTime / u.cellSize d < 0))) ∧
    (∀ (pos : Fin 2 → ℚ) (J : FieldJ 2), (∀ d, 0 ≤ pos d ∧ pos d < 1) →
      (∀ d : Fin 2, |velocity (Fin.castLE (by decide) d) * deltaTime / u.cellSize (Fin.castLE (by decide) d)| < 1) →
      (WindowsCover ngp (oldPos u (by decide) pos velocity deltaTime) pos ↔
        ∀ d, ¬ (pos d = 1 / 2 ∧
          velocity (Fin.castLE (by decide) d) * deltaTime / u.cellSize (Fin.castLE (by decide) d) < 0)) ∧
      (Continuity (by decide) ngp u u.deltaT charge (oldPos u (by decide) pos velocity deltaTime) pos J
          (deposit2 ngp u J pos velocity charge deltaTime) ↔
        charge = 0 ∨ ∀ d, ¬ (pos d = 1 / 2 ∧
          velocity (Fin.castLE (by decide) d) * deltaTime / u.cellSize (Fin.castLE (by decide) d) < 0))) ∧
    ∀ {D : ℕ}, D = 2 ∨ D = 3 → ∀ (particlePos : Fin D → ℚ) (fieldPos : Fin 3 → Fin D → ℚ),
      (∀ d, 0 ≤ particlePos d ∧ particlePos d < 1) → (∀ c d, fieldPos c d = 0 ∨ fieldPos c d = 1 / 2) →
      ((∀ F : DataSpace D → Fin 3 → ℚ,
        FieldToParticleInterpolation.fieldToParticle ngpOnSupport (fun x => some (F x)) particlePos fieldPos =
          FieldToParticleInterpolationNative.fieldToParticle ngp (fun x => some (F x)) particlePos fieldPos) ↔
      ∀ c d, particlePos d - fieldPos c d ≠ 1 / 2 ∧ particlePos d - fieldPos c d ≠ -1 / 2) := by
  refine ⟨fun pos J hpos hdelta => ?_, fun pos J hpos hdelta => ?_, fun hD particlePos fieldPos hpos hfieldPos =>
    fieldToParticle_eq_iff hD hpos hfieldPos⟩
  · have hstep : ∀ d, pos d - oldPos u le_rfl pos velocity deltaTime d = velocity d * deltaTime / u.cellSize d :=
      sub_oldPos le_rfl u pos velocity deltaTime
    have hmoved : ∀ d, |pos d - oldPos u le_rfl pos velocity deltaTime d| < 1 := fun d => by
      rw [hstep]
      exact hdelta d
    have hdown : ∀ d, pos d < oldPos u le_rfl pos velocity deltaTime d ↔
        velocity d * deltaTime / u.cellSize d < 0 := fun d => by
      rw [← hstep, sub_neg]
    rw [deposit3_continuity_iff u charge deltaTime J hpos hmoved, windowsCover_iff hpos hmoved]
    simp only [hdown, and_self]
  · have hstep := sub_oldPos (show 2 ≤ 3 by decide) u pos velocity deltaTime
    have hmoved : ∀ d, |pos d - oldPos u (by decide) pos velocity deltaTime d| < 1 := fun d => by
      rw [hstep]
      exact hdelta d
    have hdown : ∀ d, pos d < oldPos u (by decide) pos velocity deltaTime d ↔
        velocity (Fin.castLE (by decide) d) * deltaTime / u.cellSize (Fin.castLE (by decide) d) < 0 := fun d => by
      rw [← hstep, sub_neg]
    rw [deposit2_continuity_iff u charge deltaTime J hpos hmoved, windowsCover_iff hpos hmoved]
    simp only [hdown, and_self]

/-- A particle that moves down along x to the middle of its cell. -/
theorem ngp_step_down_to_tie :
    ¬ WindowsCover ngp (![3 / 4, 1 / 4, 1 / 4] : Fin 3 → ℚ) ![1 / 2, 1 / 4, 1 / 4] ∧
    FieldToParticleInterpolation.interpolateComponent ngpOnSupport (fun x => some (x 0 : ℚ))
      (![1 / 2, 1 / 4, 1 / 4] : Fin 3 → ℚ) 0 = some 1 ∧
    FieldToParticleInterpolationNative.interpolateComponent ngp (fun x => some (x 0 : ℚ))
      (![1 / 2, 1 / 4, 1 / 4] : Fin 3 → ℚ) 0 = some 0 := by
  refine ⟨fun h => ?_, by decide +kernel, by decide +kernel⟩
  have hpos : ∀ d, 0 ≤ (![1 / 2, 1 / 4, 1 / 4] : Fin 3 → ℚ) d ∧ (![1 / 2, 1 / 4, 1 / 4] : Fin 3 → ℚ) d < 1 := by
    decide +kernel
  rw [windowsCover_iff hpos (by decide +kernel)] at h
  exact h 0 (by decide +kernel)

/-- A particle that moves up to the middle of its cell, and one that is at no tie. -/
theorem ngp_correct_of_step_up :
    (∀ d, 0 ≤ (![1 / 2, 1 / 4, 0] : Fin 3 → ℚ) d ∧ (![1 / 2, 1 / 4, 0] : Fin 3 → ℚ) d < 1) ∧
    (∀ d, |(![1 / 4, -1 / 2, 0] : Fin 3 → ℚ) d * 1 / 1| < 1) ∧
    WindowsCover ngp (oldPos ⟨fun _ => 1, 1, fun _ => one_pos, one_pos⟩ le_rfl ![1 / 2, 1 / 4, 0] ![1 / 4, -1 / 2, 0] 1)
      (![1 / 2, 1 / 4, 0] : Fin 3 → ℚ) := by
  have hpos : ∀ d, 0 ≤ (![1 / 2, 1 / 4, 0] : Fin 3 → ℚ) d ∧ (![1 / 2, 1 / 4, 0] : Fin 3 → ℚ) d < 1 := by
    decide +kernel
  have hdelta : ∀ d, |(![1 / 4, -1 / 2, 0] : Fin 3 → ℚ) d * 1 / 1| < 1 := by
    decide +kernel
  refine ⟨hpos, hdelta, ((ngp_correct_iff ⟨fun _ => 1, 1, fun _ => one_pos, one_pos⟩ ![1 / 4, -1 / 2, 0] 1 1).1
    ![1 / 2, 1 / 4, 0] (fun _ _ => 0) hpos hdelta).1.mpr ?_⟩
  decide +kernel

end PIConGPU.NearestGridPoint
