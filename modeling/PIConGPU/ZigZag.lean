import PIConGPU.CurrentDeposition
import PIConGPU.EvalAssignmentFunction
import PIConGPU.ShiftCoordinateSystem

/-!
# The ZigZag current solver

The trajectory of a particle is split at a relay point on the face between two cells. Each part deposits
one current for each axis, with the cloud shape along the axis and the assignment shape across it, both
evaluated at the middle of the part. In the plane the deposited charge is conserved. In space a term of
third order is missing, and the solver conserves charge only if both parts lie in planes.
-/
namespace PIConGPU.ZigZag

def getJFieldPosition {D : ℕ} (component : Fin 3) : Fin D → ℚ :=
  fun d => if (d : ℕ) = component then 1 / 2 else 0

/-- All vectors that take each of their entries from the list of that dimension. -/
def allCombinations : {D : ℕ} → (Fin D → List ℤ) → List (DataSpace D)
  | 0, _ => [![]]
  | D + 1, ranges =>
    (ranges (Fin.last D)).flatMap fun x => (allCombinations fun d => ranges d.castSucc).map (Fin.snoc · x)

section Solver

variable {D : ℕ} (s : ContinuousShape)

/-- The first node of a support in shifted coordinates. -/
def gridBegin (supp : ℕ) : ℤ := (-(supp : ℤ)).tdiv 2 + (supp + 1) % 2

def supports (dir : Fin 3) : Fin D → ℕ :=
  fun d => if (d : ℕ) = dir then s.shape.support - 1 else s.shape.support

def gridPoints (dir : Fin 3) : Fin D → List ℤ :=
  fun d => intLoop (gridBegin (supports s dir d)) (gridBegin (supports s dir d) + supports s dir d)

/-- `EvalAssignmentFunctionOfDirection`, which multiplies its result to `result`. -/
def evalAssignmentFunctionOfDirection (dir : Fin 3) (gridPoint : DataSpace D) (pos : Fin D → ℚ) (result : ℚ)
    (component : Fin D) : ℚ :=
  result * evalAssignmentFunction (if (component : ℕ) = dir then s.cloudShape else .continuous s)
    (gridPoint component) (pos component)

def assignChargeToCell (dir : Fin 3) (gridPoint cursor : DataSpace D) (pos : Fin D → ℚ) (flux : ℚ)
    (J : FieldJ D) : FieldJ D :=
  let j := (List.finRange D).foldl (evalAssignmentFunctionOfDirection s dir gridPoint pos) flux
  atomicAdd (cursor + gridPoint) dir j J

def assignOneDirection (dir : Fin 3) (cursor : DataSpace D) (pos : Fin D → ℚ) (flux : Fin 3 → ℚ)
    (J : FieldJ D) : FieldJ D :=
  -- without a flux there is no current to deposit
  if flux dir = 0 then J
  else
    let shifted := ShiftCoordinateSystem.shift (supports s dir) (getJFieldPosition dir) cursor pos
    (allCombinations (gridPoints s dir)).foldl
      (fun J gridPoint => assignChargeToCell s dir gridPoint shifted.1 shifted.2 (flux dir) J) J

/-- A trajectory within a cell is not split: its relay point is the current position. -/
def calc_relayPoint (i_1 i_2 : ℤ) (_x_1 x_2 : ℚ) : ℚ := if i_1 = i_2 then x_2 else (max i_1 i_2 : ℤ)

def calc_InCellPos (x x_r : ℚ) (i : ℤ) : ℚ := (x + x_r) / 2 - i

def calc_chargeFlux (x x_r delta_t q : ℚ) : ℚ := q * (x_r - x) / delta_t

variable (u : GridUnits) (hD : D ≤ 3)

def deltaPos (velocity : Fin 3 → ℚ) (deltaTime : ℚ) : Fin D → ℚ :=
  fun d => velocity (Fin.castLE hD d) * deltaTime / u.cellSize (Fin.castLE hD d)

/-- The flux of one part of the trajectory; the second part runs backwards. In two dimensions the whole
flux out of the plane belongs to the first part. -/
def partFlux (parId : Fin 2) (pos relayPoint : Fin D → ℚ) (velocity : Fin 3 → ℚ) (charge deltaTime : ℚ) :
    Fin 3 → ℚ :=
  let volume_reci := 1 / u.cellVolume
  let sign : ℚ := 1 - 2 * (parId : ℕ)
  fun c =>
    if h : (c : ℕ) < D then
      sign * calc_chargeFlux (pos ⟨c, h⟩) (relayPoint ⟨c, h⟩) deltaTime charge * volume_reci * u.cellSize c
    else if parId = 0 then charge * velocity c * volume_reci else 0

/-- One part of the trajectory, between `pos` and the relay point. -/
def depositPart (parId : Fin 2) (I : DataSpace D) (pos relayPoint : Fin D → ℚ) (velocity : Fin 3 → ℚ)
    (charge deltaTime : ℚ) (J : FieldJ D) : FieldJ D :=
  let inCellPos := fun d => calc_InCellPos (pos d) (relayPoint d) (I d)
  let flux := partFlux u parId pos relayPoint velocity charge deltaTime
  (List.finRange 3).foldl (fun J dir => assignOneDirection s dir I inCellPos flux J) J

def deposit (J : FieldJ D) (pos1 : Fin D → ℚ) (velocity : Fin 3 → ℚ) (charge deltaTime : ℚ) : FieldJ D :=
  let pos : Fin 2 → Fin D → ℚ := ![pos1 - deltaPos u hD velocity deltaTime, pos1]
  let I : Fin 2 → DataSpace D := fun l d => ⌊pos l d⌋
  let relayPoint := fun d => calc_relayPoint (I 0 d) (I 1 d) (pos 0 d) (pos 1 d)
  (List.finRange 2).foldl
    (fun J parId => depositPart s u parId (I parId) (pos parId) relayPoint velocity charge deltaTime J) J

end Solver

section Evaluation

theorem gridBegin_eq (supp : ℕ) : gridBegin supp = 1 - (supp / 2 : ℕ) - (supp % 2 : ℕ) := by
  simp only [gridBegin, Int.neg_tdiv, Int.tdiv_eq_ediv_of_nonneg (Int.natCast_nonneg _)]
  omega

theorem abs_gridPoint_sub_le {supp : ℕ} {gridPoint : ℤ} {p : ℚ}
    (hgrid : gridPoint ∈ intLoop (gridBegin supp) (gridBegin supp + supp))
    (hlo : -((supp % 2 : ℕ) : ℚ) / 2 ≤ p) (hhi : p < 1 - ((supp % 2 : ℕ) : ℚ) / 2) :
    |(gridPoint : ℚ) - p| ≤ (supp : ℚ) / 2 := by
  have hhalf : (supp : ℚ) = 2 * (supp / 2 : ℕ) + (supp % 2 : ℕ) := by
    exact_mod_cast (Nat.div_add_mod supp 2).symm
  obtain ⟨k, hk, rfl⟩ := List.mem_map.mp hgrid
  rw [List.mem_range, gridBegin_eq] at hk
  rw [gridBegin_eq]
  have hk' : (k : ℤ) ≤ 2 * (supp / 2 : ℕ) + (supp % 2 : ℕ) - 1 := by omega
  generalize supp / 2 = h, supp % 2 = r at *
  have h0 : (0 : ℚ) ≤ k := Nat.cast_nonneg k
  have h1 := Int.cast_mono (R := ℚ) hk'
  push_cast at h1 ⊢
  rw [abs_le]
  constructor <;> linarith

/-- The shifted position is in the range of its support, at the same place of the grid; and in this range
the specialised, the restricted and the full shape agree on all nodes of the loops. -/
theorem evalAssignmentFunction_eq_chargeAssignment :
    (∀ {D : ℕ} (supports : Fin D → ℕ) (cursor : DataSpace D) (pos fieldPos : Fin D → ℚ),
      (∀ d, 0 ≤ pos d ∧ pos d < 1) → (∀ d, 0 ≤ fieldPos d ∧ fieldPos d ≤ 1 / 2) → ∀ d,
      let shifted := ShiftCoordinateSystem.shift supports fieldPos cursor pos
      (if supports d % 2 = 0 then 0 ≤ shifted.2 d ∧ shifted.2 d < 1
        else -1 / 2 ≤ shifted.2 d ∧ shifted.2 d < 1 / 2) ∧
      shifted.1 d + shifted.2 d = cursor d + pos d - fieldPos d) ∧
    ∀ (s : ContinuousShape) (p : ℚ),
      (if s.shape.support % 2 = 0 then 0 ≤ p ∧ p < 1 else -1 / 2 ≤ p ∧ p < 1 / 2) →
      ∀ gridPoint ∈ intLoop (gridBegin s.shape.support) (gridBegin s.shape.support + s.shape.support),
        evalAssignmentFunction (.continuous s) gridPoint p = s.onSupport.chargeAssignment (gridPoint - p) ∧
        s.onSupport.chargeAssignment (gridPoint - p) = s.shape.chargeAssignment (gridPoint - p) := by
  refine ⟨fun supports cursor pos fieldPos hpos hfieldPos d => ?_, fun s p hp gridPoint hgrid => ?_⟩
  · obtain ⟨h0, h1⟩ := hpos d
    obtain ⟨h2, h3⟩ := hfieldPos d
    obtain ⟨hlo, hhi⟩ := ShiftCoordinateSystem.getOffset_bounds (supports d) (v := pos d - fieldPos d)
      (by linarith) (by linarith)
    simp only [ShiftCoordinateSystem.shift_eq, Pi.add_apply, ShiftCoordinateSystem.offset]
    refine ⟨?_, by push_cast; ring⟩
    rcases Nat.mod_two_eq_zero_or_one (supports d) with h | h
    · simp only [h, if_true, decide_true] at hlo hhi ⊢
      norm_num at hlo hhi
      exact ⟨by linarith, hhi⟩
    · simp only [h, one_ne_zero, if_false, decide_false] at hlo hhi ⊢
      norm_num at hlo hhi
      exact ⟨by linarith, hhi⟩
  · have hrange : -((s.shape.support % 2 : ℕ) : ℚ) / 2 ≤ p ∧ p < 1 - ((s.shape.support % 2 : ℕ) : ℚ) / 2 := by
      rcases Nat.mod_two_eq_zero_or_one s.shape.support with h | h
      · rw [if_pos h] at hp
        rw [h]
        norm_num
        exact hp
      · rw [if_neg (by omega)] at hp
        rw [h]
        norm_num
        exact ⟨by linarith [hp.1], hp.2⟩
    exact ⟨EvalAssignmentFunction.eval_eq (.continuous s) hrange.1 hrange.2,
      s.chargeAssignment_onSupport (abs_gridPoint_sub_le hgrid hrange.1 hrange.2)⟩

/-- The outermost node and the lower end of the range of the widest shape, reached from the middle of a cell. -/
theorem evalAssignmentFunction_P4S :
    ShiftCoordinateSystem.getOffsetToStaticShapeSystem false (1 / 2) = 1 ∧
    ((ShiftCoordinateSystem.shift (fun _ : Fin 3 => 5) (fun _ => 0) 0 fun _ => 1 / 2).1 0 : ℚ) +
      (ShiftCoordinateSystem.shift (fun _ : Fin 3 => 5) (fun _ => 0) 0 fun _ => 1 / 2).2 0 =
        ((0 : DataSpace 3) 0 : ℚ) + 1 / 2 - 0 ∧
    evalAssignmentFunction (.continuous .P4S) 2 (-1 / 2) = P4S.chargeAssignmentOnSupport ((2 : ℤ) - -1 / 2) ∧
    P4S.chargeAssignmentOnSupport ((2 : ℤ) - -1 / 2) = P4S.chargeAssignment ((2 : ℤ) - -1 / 2) :=
  ⟨by norm_num [ShiftCoordinateSystem.getOffsetToStaticShapeSystem],
    (evalAssignmentFunction_eq_chargeAssignment.1 (fun _ => 5) 0 (fun _ => 1 / 2) (fun _ => 0)
      (fun _ => by norm_num) (fun _ => by norm_num) 0).2,
    evalAssignmentFunction_eq_chargeAssignment.2 .P4S (-1 / 2) (by norm_num [ContinuousShape.shape]) 2
      (by decide)⟩

end Evaluation

section Combinations

variable {D : ℕ}

theorem sum_allCombinations (ranges : Fin D → List ℤ) (f : Fin D → ℤ → ℚ) :
    ((allCombinations ranges).map fun g => ∏ d, f d (g d)).sum = ∏ d, ((ranges d).map (f d)).sum := by
  induction D with
  | zero => simp [allCombinations]
  | succ D ih =>
    rw [Fin.prod_univ_castSucc, ← ih (fun d => ranges d.castSucc) fun d => f d.castSucc, mul_comm,
      allCombinations]
    induction ranges (Fin.last D) with
    | nil => simp
    | cons x l ihl =>
      rw [List.flatMap_cons, List.map_append, List.sum_append, ihl, List.map_cons, List.sum_cons, add_mul]
      congr 1
      simp [Fin.prod_univ_castSucc, List.map_map, Function.comp_def, List.sum_map_mul_left, mul_comm]

theorem foldl_atomicAdd {ι : Type*} (l : List ι) (node : ι → DataSpace D) (c : Fin 3) (v : ι → ℚ) (J : FieldJ D) :
    l.foldl (fun J i => atomicAdd (node i) c (v i) J) J =
      J + fun n e => if e = c then (l.map fun i => if n = node i then v i else 0).sum else 0 := by
  induction l generalizing J with
  | nil =>
    funext n e
    simp
  | cons i l ih =>
    rw [List.foldl_cons, ih]
    funext n e
    simp only [Pi.add_apply, atomicAdd_apply, List.map_cons, List.sum_cons]
    by_cases he : e = c <;> by_cases hn : n = node i <;> simp [he, hn, add_assoc]

end Combinations

section Weights

abbrev weight (n : ℤ) (x : ℚ) : ℚ := ContinuousShape.CIC.shape.chargeAssignment (n - x)

theorem weight_of_le {n : ℤ} {x : ℚ} (h : |(n : ℚ) - x| ≤ 1) : weight n x = 1 - |(n : ℚ) - x| :=
  CIC.chargeAssignment_of_le h

def nodeSign (i n : ℤ) : ℚ := (if n = i then 1 else 0) - if n = i + 1 then 1 else 0

/-- In a cell the weight of a node is linear in the position. -/
theorem weight_eq {i : ℤ} {x : ℚ} (hlo : (i : ℚ) ≤ x) (hhi : x ≤ i + 1) (n : ℤ) :
    weight n x = (if n = i then 1 else 0) - nodeSign i n * (x - i) := by
  by_cases h0 : n = i
  · have habs : |(n : ℚ) - x| = x - i := abs_eq_of_nonpos (by rw [h0]; ring) (by linarith)
    rw [weight_of_le (by rw [habs]; linarith), habs]
    simp [nodeSign, h0]
  · by_cases h1 : n = i + 1
    · have habs : |(n : ℚ) - x| = i + 1 - x := abs_eq_of_nonneg (by rw [h1]; push_cast; ring) (by linarith)
      rw [weight_of_le (by rw [habs]; linarith), habs]
      simp [nodeSign, h1]
      ring_nf
    · have hfar : 1 ≤ |(n : ℚ) - x| := by
        rcases lt_or_gt_of_ne h0 with h | h
        · have hle : (n : ℚ) + 1 ≤ i := by exact_mod_cast h
          exact le_abs.mpr (.inr (by linarith))
        · have hle : ((i + 1 + 1 : ℤ) : ℚ) ≤ n := Int.cast_mono (by omega)
          push_cast at hle
          exact le_abs.mpr (.inl (by linarith))
      rw [show weight n x = 0 from CIC.chargeAssignment_of_ge hfar]
      simp [nodeSign, h0, h1]

theorem weight_sub {i : ℤ} {x x_r : ℚ} (hx : (i : ℚ) ≤ x ∧ x ≤ i + 1) (hr : (i : ℚ) ≤ x_r ∧ x_r ≤ i + 1) (n : ℤ) :
    weight n x_r - weight n x = -(nodeSign i n * (x_r - x)) := by
  rw [weight_eq hx.1 hx.2, weight_eq hr.1 hr.2]
  ring

theorem weight_middle {i : ℤ} {x x_r : ℚ} (hx : (i : ℚ) ≤ x ∧ x ≤ i + 1) (hr : (i : ℚ) ≤ x_r ∧ x_r ≤ i + 1)
    (n : ℤ) : weight n ((x + x_r) / 2) = (weight n x + weight n x_r) / 2 := by
  rw [weight_eq hx.1 hx.2, weight_eq hr.1 hr.2, weight_eq (i := i) (by linarith) (by linarith)]
  ring

end Weights

section OneDirection

variable {D : ℕ}

theorem foldl_mul_finRange (f : Fin D → ℚ) (a : ℚ) :
    (List.finRange D).foldl (fun r d => r * f d) a = a * ∏ d, f d := by
  have hlist : ∀ (l : List (Fin D)) (a : ℚ), l.foldl (fun r d => r * f d) a = a * (l.map f).prod := by
    intro l
    induction l with
    | nil => simp
    | cons d l ih =>
      intro a
      rw [List.foldl_cons, ih, List.map_cons, List.prod_cons, mul_assoc]
  rw [hlist, Fin.prod_univ_def]

theorem foldl_evalAssignmentFunction (s : ContinuousShape) (dir : Fin 3) (gridPoint : DataSpace D)
    (pos : Fin D → ℚ) (flux : ℚ) :
    (List.finRange D).foldl (evalAssignmentFunctionOfDirection s dir gridPoint pos) flux =
      flux * ∏ d : Fin D, evalAssignmentFunction (if (d : ℕ) = dir then s.cloudShape else .continuous s)
        (gridPoint d) (pos d) :=
  foldl_mul_finRange _ _

theorem offset_CIC (dir : Fin 3) {inCellPos : Fin D → ℚ} (hin : ∀ d, 0 ≤ inCellPos d ∧ inCellPos d < 1) :
    ShiftCoordinateSystem.offset (supports .CIC dir) (getJFieldPosition dir) inCellPos = 0 := by
  funext d
  have h := hin d
  by_cases hd : (d : ℕ) = dir
  · simp only [ShiftCoordinateSystem.offset, ShiftCoordinateSystem.getOffsetToStaticShapeSystem, supports,
      getJFieldPosition, hd, ContinuousShape.shape, if_true]
    norm_num
    linarith
  · simp only [ShiftCoordinateSystem.offset, ShiftCoordinateSystem.getOffsetToStaticShapeSystem, supports,
      getJFieldPosition, hd, ContinuousShape.shape, if_false]
    norm_num
    exact h

/-- The weights of one dimension: along the current the node of the cell, across it both nodes. -/
def axisWeight (dir : Fin 3) (I : DataSpace D) (pos : Fin D → ℚ) (n : DataSpace D) (d : Fin D) : ℚ :=
  if (d : ℕ) = dir then if n d = I d then 1 else 0 else weight (n d) (pos d)

theorem sum_gridPoints_CIC (dir : Fin 3) {I : DataSpace D} {inCellPos : Fin D → ℚ}
    (hin : ∀ d, 0 ≤ inCellPos d ∧ inCellPos d < 1) (n : DataSpace D) (d : Fin D) :
    ((gridPoints .CIC dir d).map fun x => if x = n d - I d then
      evalAssignmentFunction (if (d : ℕ) = dir then ContinuousShape.CIC.cloudShape else .continuous .CIC) x
        (inCellPos d - getJFieldPosition dir d) else 0).sum =
      axisWeight dir I (fun d => I d + inCellPos d) n d := by
  have h := hin d
  by_cases hd : (d : ℕ) = dir
  · have hpoints : gridPoints .CIC dir d = [0] := by
      simp only [gridPoints, supports, hd, if_true]
      rfl
    rw [hpoints]
    simp only [List.map_cons, List.map_nil, List.sum_cons, List.sum_nil, add_zero, axisWeight, hd, if_true]
    by_cases hn : n d = I d
    · simp [hn, ContinuousShape.cloudShape, evalAssignmentFunction, SupportShape.chargeAssignmentOnSupport,
        NGP.chargeAssignmentOnSupport]
    · rw [if_neg (by omega), if_neg hn]
  · have hpoints : gridPoints .CIC dir d = [0, 1] := by
      simp only [gridPoints, supports, hd, if_false]
      rfl
    have e0 : |((0 : ℤ) : ℚ) - (inCellPos d - getJFieldPosition dir d)| = inCellPos d :=
      abs_eq_of_nonpos (by simp [getJFieldPosition, hd]) h.1
    have e1 : |((1 : ℤ) : ℚ) - (inCellPos d - getJFieldPosition dir d)| = 1 - inCellPos d :=
      abs_eq_of_nonneg (by simp [getJFieldPosition, hd]) (by linarith)
    rw [hpoints]
    simp only [List.map_cons, List.map_nil, List.sum_cons, List.sum_nil, add_zero, axisWeight, hd, if_false,
      evalAssignmentFunction, SupportShape.chargeAssignmentOnSupport, ContinuousShape.onSupport,
      CIC.chargeAssignmentOnSupport, e0, e1]
    rw [weight_eq (i := I d) (by linarith) (by linarith), nodeSign]
    by_cases h0 : n d = I d
    · simp [h0]
    · by_cases h1 : n d = I d + 1
      · simp [h1]
      · rw [if_neg (by omega), if_neg (by omega), if_neg h0, if_neg h1]
        ring

theorem assignOneDirection_CIC (dir : Fin 3) {I : DataSpace D} {inCellPos : Fin D → ℚ}
    (hin : ∀ d, 0 ≤ inCellPos d ∧ inCellPos d < 1) (flux : Fin 3 → ℚ) (J : FieldJ D) :
    assignOneDirection .CIC dir I inCellPos flux J = J + fun n e => if e = dir then
      flux dir * ∏ d, axisWeight dir I (fun d => I d + inCellPos d) n d else 0 := by
  unfold assignOneDirection
  by_cases hflux : flux dir = 0
  · rw [if_pos hflux, hflux]
    funext n e
    simp
  rw [if_neg hflux]
  simp only [ShiftCoordinateSystem.shift_eq, offset_CIC dir hin, add_zero, Pi.zero_apply, Int.cast_zero, sub_zero,
    assignChargeToCell, foldl_evalAssignmentFunction]
  rw [foldl_atomicAdd]
  congr 1
  funext n e
  by_cases he : e = dir
  · rw [if_pos he, if_pos he]
    have hterm : ∀ g : DataSpace D, (if n = I + g then flux dir * ∏ d : Fin D, evalAssignmentFunction
        (if (d : ℕ) = dir then ContinuousShape.CIC.cloudShape else .continuous .CIC) (g d)
          (inCellPos d - getJFieldPosition dir d) else 0) =
        flux dir * ∏ d : Fin D, if g d = n d - I d then evalAssignmentFunction
          (if (d : ℕ) = dir then ContinuousShape.CIC.cloudShape else .continuous .CIC) (g d)
            (inCellPos d - getJFieldPosition dir d) else 0 := by
      intro g
      by_cases hn : n = I + g
      · rw [if_pos hn]
        congr 1
        refine Finset.prod_congr rfl fun d _ => (if_pos ?_).symm
        rw [hn, Pi.add_apply, add_sub_cancel_left]
      · obtain ⟨d, hd⟩ := Function.ne_iff.mp hn
        have hg : g d ≠ n d - I d := fun h => hd (by rw [Pi.add_apply, h, add_sub_cancel])
        rw [if_neg hn, Finset.prod_eq_zero (Finset.mem_univ d) (if_neg hg), mul_zero]
    simp only [hterm, List.sum_map_mul_left]
    rw [sum_allCombinations (gridPoints .CIC dir) fun d x => if x = n d - I d then evalAssignmentFunction
      (if (d : ℕ) = dir then ContinuousShape.CIC.cloudShape else .continuous .CIC) x
        (inCellPos d - getJFieldPosition dir d) else 0]
    simp only [sum_gridPoints_CIC dir hin]
  · rw [if_neg he, if_neg he]

end OneDirection

section Part

variable {D : ℕ}

/-- A part of a trajectory stays in one cell and does not begin on its upper faces. -/
structure InCell (I : DataSpace D) (pos relayPoint : Fin D → ℚ) : Prop where
  pos : ∀ d, (I d : ℚ) ≤ pos d ∧ pos d < I d + 1
  relay : ∀ d, (I d : ℚ) ≤ relayPoint d ∧ relayPoint d ≤ I d + 1

theorem InCell.inCellPos_mem {I : DataSpace D} {pos relayPoint : Fin D → ℚ} (h : InCell I pos relayPoint) (d : Fin D) :
    0 ≤ calc_InCellPos (pos d) (relayPoint d) (I d) ∧ calc_InCellPos (pos d) (relayPoint d) (I d) < 1 := by
  have h1 := h.pos d
  have h2 := h.relay d
  unfold calc_InCellPos
  constructor <;> linarith

def middleChange (a b : Fin D → ℚ) : ℚ := ∑ d, (b d - a d) * ∏ e ∈ Finset.univ.erase d, (a e + b e) / 2

theorem middleChange_two (a b : Fin 2 → ℚ) : middleChange a b = ∏ d, b d - ∏ d, a d := by
  rw [middleChange, Fin.sum_univ_two, show Finset.univ.erase (0 : Fin 2) = {1} by decide,
    show Finset.univ.erase (1 : Fin 2) = {0} by decide, Finset.prod_singleton, Finset.prod_singleton,
    Fin.prod_univ_two, Fin.prod_univ_two]
  ring

/-- With three factors the product of all changes is missing. -/
theorem middleChange_three (a b : Fin 3 → ℚ) :
    middleChange a b = ∏ d, b d - ∏ d, a d - (∏ d, (b d - a d)) / 4 := by
  rw [middleChange, Fin.sum_univ_three, show Finset.univ.erase (0 : Fin 3) = {1, 2} by decide,
    show Finset.univ.erase (1 : Fin 3) = {0, 2} by decide, show Finset.univ.erase (2 : Fin 3) = {0, 1} by decide,
    Finset.prod_pair (by decide), Finset.prod_pair (by decide), Finset.prod_pair (by decide),
    Fin.prod_univ_three, Fin.prod_univ_three, Fin.prod_univ_three]
  ring

variable (u : GridUnits) (hD : D ≤ 3) (parId : Fin 2) {I : DataSpace D} {pos relayPoint : Fin D → ℚ}
  (velocity : Fin 3 → ℚ) (charge deltaTime : ℚ) (J : FieldJ D)

theorem depositPart_apply (h : InCell I pos relayPoint) (n : DataSpace D) (d : Fin D) :
    depositPart .CIC u parId I pos relayPoint velocity charge deltaTime J n (Fin.castLE hD d) =
      J n (Fin.castLE hD d) + (1 - 2 * (parId : ℕ)) * calc_chargeFlux (pos d) (relayPoint d) deltaTime charge *
        (1 / u.cellVolume) * u.cellSize (Fin.castLE hD d) *
          ∏ e, axisWeight (Fin.castLE hD d) I (fun e => (pos e + relayPoint e) / 2) n e := by
  have hmiddle : ∀ e, (I e : ℚ) + calc_InCellPos (pos e) (relayPoint e) (I e) = (pos e + relayPoint e) / 2 :=
    fun e => by
      unfold calc_InCellPos
      ring
  have hthree : ∀ (x : ℚ) (X : Fin 3 → ℚ) (c : Fin 3), x + (if c = 0 then X 0 else 0) +
      (if c = 1 then X 1 else 0) + (if c = 2 then X 2 else 0) = x + X c := by
    intro x X c
    fin_cases c <;> simp
  simp only [depositPart, show List.finRange 3 = [0, 1, 2] by decide, List.foldl_cons, List.foldl_nil,
    assignOneDirection_CIC _ h.inCellPos_mem, hmiddle, Pi.add_apply]
  rw [hthree (J n _) fun c => partFlux u parId pos relayPoint velocity charge deltaTime c *
    ∏ e, axisWeight c I (fun e => (pos e + relayPoint e) / 2) n e]
  simp [partFlux]

theorem current_sub (h : InCell I pos relayPoint) (n : DataSpace D) (d : Fin D) :
    ∏ e, axisWeight (Fin.castLE hD d) I (fun e => (pos e + relayPoint e) / 2) n e -
        ∏ e, axisWeight (Fin.castLE hD d) I (fun e => (pos e + relayPoint e) / 2) (n - Pi.single d 1) e =
      nodeSign (I d) (n d) *
        ∏ e ∈ Finset.univ.erase d, (weight (n e) (pos e) + weight (n e) (relayPoint e)) / 2 := by
  have haxis : ∀ (m : DataSpace D), (∀ e ≠ d, m e = n e) →
      ∏ e, axisWeight (Fin.castLE hD d) I (fun e => (pos e + relayPoint e) / 2) m e =
        (if m d = I d then 1 else 0) *
          ∏ e ∈ Finset.univ.erase d, (weight (n e) (pos e) + weight (n e) (relayPoint e)) / 2 := by
    intro m hm
    rw [← Finset.mul_prod_erase Finset.univ _ (Finset.mem_univ d)]
    congr 1
    · simp [axisWeight]
    · refine Finset.prod_congr rfl fun e he => ?_
      have hne : e ≠ d := (Finset.mem_erase.mp he).1
      have hval : (e : ℕ) ≠ (Fin.castLE hD d : Fin 3) := fun h => hne (Fin.ext h)
      rw [axisWeight, if_neg hval, hm e hne,
        weight_middle ⟨(h.pos e).1, (h.pos e).2.le⟩ (h.relay e)]
  rw [haxis n fun _ _ => rfl, haxis (n - Pi.single d 1) fun e he => by simp [Pi.single_eq_of_ne he], nodeSign,
    sub_mul]
  simp only [Pi.sub_apply, Pi.single_eq_same, sub_eq_iff_eq_add]

theorem divergence_depositPart (h : InCell I pos relayPoint) (n : DataSpace D) :
    divergence hD u (fun m e => depositPart .CIC u parId I pos relayPoint velocity charge deltaTime J m e - J m e) n =
      -((1 - 2 * (parId : ℕ)) * (charge / deltaTime) * (1 / u.cellVolume)) *
        middleChange (fun d => weight (n d) (pos d)) fun d => weight (n d) (relayPoint d) := by
  rw [divergence, middleChange, Finset.mul_sum]
  refine Finset.sum_congr rfl fun d _ => ?_
  have hsize := (u.cellSize_pos (Fin.castLE hD d)).ne'
  have hsub := current_sub hD h n d
  have hweight := weight_sub ⟨(h.pos d).1, (h.pos d).2.le⟩ (h.relay d) (n d)
  rw [depositPart_apply u hD parId velocity charge deltaTime J h, depositPart_apply u hD parId velocity charge
    deltaTime J h, add_sub_cancel_left, add_sub_cancel_left, ← mul_sub, hsub, hweight, calc_chargeFlux]
  field_simp

end Part

section Relay

variable {old pos : ℚ} (h0 : 0 ≤ pos) (h1 : pos < 1) (hmoved : |pos - old| < 1)

include h0 h1 hmoved

theorem floor_cases : ⌊pos⌋ = 0 ∧ (⌊old⌋ = -1 ∧ old < 0 ∨ ⌊old⌋ = 0 ∧ 0 ≤ old ∧ old < 1 ∨ ⌊old⌋ = 1 ∧ 1 ≤ old ∧ 0 < pos) := by
  obtain ⟨hm0, hm1⟩ := abs_lt.mp hmoved
  refine ⟨Int.floor_eq_zero_iff.mpr ⟨h0, h1⟩, ?_⟩
  rcases lt_or_ge old 0 with hneg | hneg
  · exact .inl ⟨Int.floor_eq_iff.mpr ⟨by push_cast; linarith, by push_cast; linarith⟩, hneg⟩
  · rcases lt_or_ge old 1 with hone | hone
    · exact .inr (.inl ⟨Int.floor_eq_zero_iff.mpr ⟨hneg, hone⟩, hneg, hone⟩)
    · exact .inr (.inr ⟨Int.floor_eq_iff.mpr ⟨by push_cast; linarith, by push_cast; linarith⟩, hone, by linarith⟩)

theorem relayPoint_mem :
    (⌊old⌋ ≤ calc_relayPoint ⌊old⌋ ⌊pos⌋ old pos ∧ calc_relayPoint ⌊old⌋ ⌊pos⌋ old pos ≤ ⌊old⌋ + 1) ∧
      ⌊pos⌋ ≤ calc_relayPoint ⌊old⌋ ⌊pos⌋ old pos ∧ calc_relayPoint ⌊old⌋ ⌊pos⌋ old pos ≤ ⌊pos⌋ + 1 := by
  obtain ⟨hpos, ⟨hold, -⟩ | ⟨hold, -, -⟩ | ⟨hold, -, -⟩⟩ := floor_cases h0 h1 hmoved
  · rw [hpos, hold, calc_relayPoint]
    norm_num
  · rw [hpos, hold, calc_relayPoint]
    norm_num
    exact ⟨h0, h1.le⟩
  · rw [hpos, hold, calc_relayPoint]
    norm_num

theorem relayPoint_eq_old : calc_relayPoint ⌊old⌋ ⌊pos⌋ old pos = old ↔ pos = old ∨ old = 1 := by
  obtain ⟨hpos, ⟨hold, h⟩ | ⟨hold, h, h'⟩ | ⟨hold, h, -⟩⟩ := floor_cases h0 h1 hmoved
  · rw [hpos, hold, calc_relayPoint, if_neg (by decide)]
    norm_num
    exact ⟨fun h' => by linarith, fun h' => by rcases h' with h' | h' <;> linarith⟩
  · rw [hpos, hold, calc_relayPoint, if_pos rfl]
    exact ⟨.inl, fun h'' => h''.elim id fun h'' => by linarith⟩
  · rw [hpos, hold, calc_relayPoint, if_neg (by decide)]
    norm_num
    exact ⟨fun h' => .inr h'.symm, fun h' => by rcases h' with h' | h' <;> linarith⟩

theorem relayPoint_eq_pos : calc_relayPoint ⌊old⌋ ⌊pos⌋ old pos = pos ↔ (0 ≤ old ∧ old < 1) ∨ pos = 0 := by
  obtain ⟨hpos, ⟨hold, h⟩ | ⟨hold, h⟩ | ⟨hold, h, h'⟩⟩ := floor_cases h0 h1 hmoved
  · rw [hpos, hold, calc_relayPoint, if_neg (by decide)]
    norm_num
    exact ⟨fun h' => .inr h'.symm, fun h' => by rcases h' with h' | h' <;> linarith⟩
  · rw [hpos, hold, calc_relayPoint, if_pos rfl]
    exact ⟨fun _ => .inl h, fun _ => rfl⟩
  · rw [hpos, hold, calc_relayPoint, if_neg (by decide)]
    norm_num
    exact ⟨fun h'' => by linarith, fun h'' => by rcases h'' with h'' | h'' <;> linarith⟩

end Relay

section Trajectory

variable {D : ℕ} (u : GridUnits) (hD : D ≤ 3) {pos : Fin D → ℚ} {velocity : Fin 3 → ℚ} (charge deltaTime : ℚ)
  (J : FieldJ D)

def relay (old pos : Fin D → ℚ) : Fin D → ℚ := fun d => calc_relayPoint ⌊old d⌋ ⌊pos d⌋ (old d) (pos d)

theorem inCell_parts {old : Fin D → ℚ} (hpos : ∀ d, 0 ≤ pos d ∧ pos d < 1) (hmoved : ∀ d, |pos d - old d| < 1) :
    InCell (fun d => ⌊old d⌋) old (relay old pos) ∧ InCell (fun d => ⌊pos d⌋) pos (relay old pos) := by
  have hrelay := fun d => relayPoint_mem (hpos d).1 (hpos d).2 (hmoved d)
  exact ⟨⟨fun d => ⟨Int.floor_le _, Int.lt_floor_add_one _⟩, fun d => (hrelay d).1⟩,
    fun d => ⟨Int.floor_le _, Int.lt_floor_add_one _⟩, fun d => (hrelay d).2⟩

theorem divergence_add (A B : FieldJ D) (n : DataSpace D) :
    divergence hD u (fun m e => A m e + B m e) n = divergence hD u A n + divergence hD u B n := by
  rw [divergence, divergence, divergence, ← Finset.sum_add_distrib]
  refine Finset.sum_congr rfl fun d _ => ?_
  ring

/-- What is missing in the continuity equation: the shape at the relay point is reached and left, both
times with the other factors in the middle. -/
theorem residual_deposit (hpos : ∀ d, 0 ≤ pos d ∧ pos d < 1)
    (hdelta : ∀ d, |deltaPos u hD velocity deltaTime d| < 1) (n : DataSpace D) :
    (chargeDensity ContinuousShape.CIC.shape u charge pos n -
        chargeDensity ContinuousShape.CIC.shape u charge (pos - deltaPos u hD velocity deltaTime) n) / deltaTime +
      divergence hD u (fun m e => deposit .CIC u hD J pos velocity charge deltaTime m e - J m e) n =
    charge / u.cellVolume / deltaTime *
      (∏ d, weight (n d) (pos d) - ∏ d, weight (n d) ((pos - deltaPos u hD velocity deltaTime) d) -
        middleChange (fun d => weight (n d) ((pos - deltaPos u hD velocity deltaTime) d))
          (fun d => weight (n d) (relay (pos - deltaPos u hD velocity deltaTime) pos d)) +
        middleChange (fun d => weight (n d) (pos d))
          fun d => weight (n d) (relay (pos - deltaPos u hD velocity deltaTime) pos d)) := by
  set old := pos - deltaPos u hD velocity deltaTime with hold
  have hmoved : ∀ d, |pos d - old d| < 1 := fun d => by simpa [hold] using hdelta d
  obtain ⟨hfirst, hsecond⟩ := inCell_parts hpos hmoved
  set J₁ := depositPart .CIC u 0 (fun d => ⌊old d⌋) old (relay old pos) velocity charge deltaTime J with hJ₁
  have hdeposit : deposit .CIC u hD J pos velocity charge deltaTime =
      depositPart .CIC u 1 (fun d => ⌊pos d⌋) pos (relay old pos) velocity charge deltaTime J₁ := rfl
  have hsplit : (fun (m : DataSpace D) e => deposit .CIC u hD J pos velocity charge deltaTime m e - J m e) =
      fun m e => (J₁ m e - J m e) +
        (depositPart .CIC u 1 (fun d => ⌊pos d⌋) pos (relay old pos) velocity charge deltaTime J₁ m e - J₁ m e) := by
    rw [hdeposit]
    funext m e
    ring
  rw [hsplit, divergence_add, hJ₁, divergence_depositPart u hD 0 velocity charge deltaTime J hfirst, ← hJ₁,
    divergence_depositPart u hD 1 velocity charge deltaTime J₁ hsecond]
  simp only [chargeDensity, Fin.val_zero, Fin.val_one, Nat.cast_zero, Nat.cast_one]
  ring

end Trajectory

section Cells

variable {D : ℕ}

/-- The sign with which a node of a cell enters the product of all changes. -/
def cellSign (I n : DataSpace D) : ℚ := ∏ d, nodeSign (I d) (n d)

theorem cellSign_self (I : DataSpace D) : cellSign I I ≠ 0 :=
  Finset.prod_ne_zero_iff.mpr fun d _ => by simp [nodeSign]

/-- Two cells do not have all their nodes in common. -/
theorem exists_cellSign {I I' : DataSpace D} (h : I ≠ I') : ∃ n, cellSign I n ≠ 0 ∧ cellSign I' n = 0 := by
  obtain ⟨d, hd⟩ := Function.ne_iff.mp h
  by_cases hlo : I d = I' d + 1
  · refine ⟨Function.update I d (I d + 1), Finset.prod_ne_zero_iff.mpr fun e _ => ?_,
      Finset.prod_eq_zero (Finset.mem_univ d) ?_⟩
    · by_cases he : e = d
      · subst he
        simp [nodeSign]
      · simp [nodeSign, he]
    · have h1 : I d + 1 ≠ I' d := by omega
      have h2 : I d + 1 ≠ I' d + 1 := by omega
      simp only [Function.update_self, nodeSign, if_neg h1, if_neg h2, sub_zero]
  · refine ⟨I, cellSign_self I, Finset.prod_eq_zero (Finset.mem_univ d) ?_⟩
    simp only [nodeSign, if_neg hd, if_neg hlo, sub_zero]

theorem prod_weight_sub {I : DataSpace D} {pos relayPoint : Fin D → ℚ} (h : InCell I pos relayPoint)
    (n : DataSpace D) :
    ∏ d, (weight (n d) (relayPoint d) - weight (n d) (pos d)) =
      (-1)^D * cellSign I n * ∏ d, (relayPoint d - pos d) := by
  have hfactor : ∀ d, weight (n d) (relayPoint d) - weight (n d) (pos d) =
      -1 * nodeSign (I d) (n d) * (relayPoint d - pos d) := fun d => by
    rw [weight_sub ⟨(h.pos d).1, (h.pos d).2.le⟩ (h.relay d)]
    ring
  simp only [hfactor, Finset.prod_mul_distrib, cellSign]
  simp

end Cells

/-- The part before the relay point lies in a plane across an axis. -/
def FirstPlanar {D : ℕ} (old pos : Fin D → ℚ) : Prop := ∃ d, pos d = old d ∨ old d = 1

/-- The part after the relay point lies in a plane across an axis. -/
def SecondPlanar {D : ℕ} (old pos : Fin D → ℚ) : Prop := ∃ d, (0 ≤ old d ∧ old d < 1) ∨ pos d = 0

section Planar

variable {D : ℕ} {old pos : Fin D → ℚ} (hpos : ∀ d, 0 ≤ pos d ∧ pos d < 1) (hmoved : ∀ d, |pos d - old d| < 1)

include hpos hmoved

theorem firstPlanar_iff : FirstPlanar old pos ↔ ∏ d, (relay old pos d - old d) = 0 := by
  simp only [FirstPlanar, Finset.prod_eq_zero_iff, Finset.mem_univ, true_and, sub_eq_zero]
  exact exists_congr fun d => (relayPoint_eq_old (hpos d).1 (hpos d).2 (hmoved d)).symm

theorem secondPlanar_iff : SecondPlanar old pos ↔ ∏ d, (relay old pos d - pos d) = 0 := by
  simp only [SecondPlanar, Finset.prod_eq_zero_iff, Finset.mem_univ, true_and, sub_eq_zero]
  exact exists_congr fun d => (relayPoint_eq_pos (hpos d).1 (hpos d).2 (hmoved d)).symm

theorem prod_weight_sub_eq_iff [NeZero D] :
    (∀ n : DataSpace D, ∏ d, (weight (n d) (relay old pos d) - weight (n d) (old d)) =
      ∏ d, (weight (n d) (relay old pos d) - weight (n d) (pos d))) ↔ FirstPlanar old pos ∧ SecondPlanar old pos := by
  obtain ⟨hfirst, hsecond⟩ := inCell_parts hpos hmoved
  simp only [prod_weight_sub hfirst, prod_weight_sub hsecond, firstPlanar_iff hpos hmoved,
    secondPlanar_iff hpos hmoved]
  have hone : ((-1 : ℚ))^D ≠ 0 := pow_ne_zero D (by norm_num)
  constructor
  · intro h
    by_cases hcell : (fun d => ⌊old d⌋) = fun d => ⌊pos d⌋
    · have hzero : ∏ d, (relay old pos d - pos d) = 0 :=
        (secondPlanar_iff hpos hmoved).mp ⟨0, .inl (Int.floor_eq_zero_iff.mp
          ((congrFun hcell 0).trans (Int.floor_eq_zero_iff.mpr (hpos 0))))⟩
      have hnode := h fun d => ⌊old d⌋
      rw [hzero, mul_zero, mul_eq_zero, mul_eq_zero] at hnode
      exact ⟨hnode.resolve_left fun h' => h'.elim hone (cellSign_self _), hzero⟩
    · obtain ⟨n, hn, hn'⟩ := exists_cellSign hcell
      obtain ⟨m, hm, hm'⟩ := exists_cellSign (Ne.symm hcell)
      have hnode := h n
      have hnode' := h m
      rw [hn', mul_zero, zero_mul, mul_eq_zero, mul_eq_zero] at hnode
      rw [hm', mul_zero, zero_mul, eq_comm, mul_eq_zero, mul_eq_zero] at hnode'
      exact ⟨hnode.resolve_left fun h' => h'.elim hone hn, hnode'.resolve_left fun h' => h'.elim hone hm⟩
  · rintro ⟨h, h'⟩ n
    rw [h, h', mul_zero, mul_zero]

end Planar

/-- In the plane the solver conserves charge. In space it does so for a charged particle exactly if both
parts of the trajectory lie in planes across an axis. -/
theorem deposit_continuity_iff (u : GridUnits) (velocity : Fin 3 → ℚ) (charge deltaTime : ℚ) :
    (∀ (pos : Fin 2 → ℚ) (J : FieldJ 2), (∀ d, 0 ≤ pos d ∧ pos d < 1) →
      (∀ d, |deltaPos u (by decide : 2 ≤ 3) velocity deltaTime d| < 1) →
      Continuity (by decide) ContinuousShape.CIC.shape u deltaTime charge
        (pos - deltaPos u (by decide) velocity deltaTime) pos J
        (deposit .CIC u (by decide) J pos velocity charge deltaTime)) ∧
    ∀ (pos : Fin 3 → ℚ) (J : FieldJ 3), (∀ d, 0 ≤ pos d ∧ pos d < 1) →
      (∀ d, |deltaPos u le_rfl velocity deltaTime d| < 1) →
      (Continuity le_rfl ContinuousShape.CIC.shape u deltaTime charge (pos - deltaPos u le_rfl velocity deltaTime)
          pos J (deposit .CIC u le_rfl J pos velocity charge deltaTime) ↔
        charge = 0 ∨ FirstPlanar (pos - deltaPos u le_rfl velocity deltaTime) pos ∧
          SecondPlanar (pos - deltaPos u le_rfl velocity deltaTime) pos) := by
  refine ⟨fun pos J hpos hdelta n => ?_, fun pos J hpos hdelta => ?_⟩
  · rw [residual_deposit u _ charge deltaTime J hpos hdelta, middleChange_two, middleChange_two]
    ring
  · have hmoved : ∀ d, |pos d - (pos - deltaPos u le_rfl velocity deltaTime) d| < 1 := fun d => by
      simpa using hdelta d
    have hres : ∀ n, (chargeDensity ContinuousShape.CIC.shape u charge pos n - chargeDensity
        ContinuousShape.CIC.shape u charge (pos - deltaPos u le_rfl velocity deltaTime) n) / deltaTime +
        divergence le_rfl u (fun m e => deposit .CIC u le_rfl J pos velocity charge deltaTime m e - J m e) n =
        charge / u.cellVolume / deltaTime / 4 *
          (∏ d, (weight (n d) (relay (pos - deltaPos u le_rfl velocity deltaTime) pos d) -
            weight (n d) ((pos - deltaPos u le_rfl velocity deltaTime) d)) -
          ∏ d, (weight (n d) (relay (pos - deltaPos u le_rfl velocity deltaTime) pos d) - weight (n d) (pos d))) :=
      fun n => by
        rw [residual_deposit u _ charge deltaTime J hpos hdelta, middleChange_three, middleChange_three]
        ring
    simp only [Continuity, hres]
    rw [← prod_weight_sub_eq_iff hpos hmoved]
    by_cases hcharge : charge = 0
    · simp [hcharge]
    by_cases htime : deltaTime = 0
    · have hstay : pos - deltaPos u le_rfl velocity deltaTime = pos := by
        funext d
        simp [deltaPos, htime]
      rw [hstay]
      simp
    · have hfactor : charge / u.cellVolume / deltaTime / 4 ≠ 0 :=
        div_ne_zero (div_ne_zero (div_ne_zero hcharge u.cellVolume_pos.ne') htime) (by norm_num)
      simp [hcharge, hfactor, sub_eq_zero]

/-- A particle that crosses the middle of a cell along all three axes. -/
theorem diagonal_not_continuity :
    ¬Continuity le_rfl ContinuousShape.CIC.shape ⟨fun _ => 1, 1, fun _ => one_pos, one_pos⟩ 1 4
      (![3 / 4, 3 / 4, 3 / 4] - deltaPos ⟨fun _ => 1, 1, fun _ => one_pos, one_pos⟩ le_rfl (fun _ => 1 / 2) 1)
      ![3 / 4, 3 / 4, 3 / 4] (fun _ _ => 0)
      (deposit .CIC ⟨fun _ => 1, 1, fun _ => one_pos, one_pos⟩ le_rfl (fun _ _ => 0) ![3 / 4, 3 / 4, 3 / 4]
        (fun _ => 1 / 2) 4 1) := by
  intro h
  have hnode := h 0
  revert hnode
  decide +kernel

/-- Particles that move in planes across the third axis. -/
theorem deposit_continuity_iff_planar :
    (∀ d, |deltaPos ⟨fun _ => 1, 1, fun _ => one_pos, one_pos⟩ (le_refl 3) ![1 / 2, -1 / 2, 0] 1 d| < 1) ∧
      Continuity (by decide) ContinuousShape.CIC.shape ⟨fun _ => 1, 1, fun _ => one_pos, one_pos⟩ 1 4
        (![1 / 4, 1 / 4] - deltaPos ⟨fun _ => 1, 1, fun _ => one_pos, one_pos⟩ (by decide) ![1 / 2, -1 / 2, 0] 1)
        ![1 / 4, 1 / 4] (fun _ _ => 0)
        (deposit .CIC ⟨fun _ => 1, 1, fun _ => one_pos, one_pos⟩ (by decide) (fun _ _ => 0) ![1 / 4, 1 / 4]
          ![1 / 2, -1 / 2, 0] 4 1) ∧
      Continuity le_rfl ContinuousShape.CIC.shape ⟨fun _ => 1, 1, fun _ => one_pos, one_pos⟩ 1 4
        (![1 / 4, 1 / 4, 0] - deltaPos ⟨fun _ => 1, 1, fun _ => one_pos, one_pos⟩ le_rfl ![1 / 2, -1 / 2, 0] 1)
        ![1 / 4, 1 / 4, 0] (fun _ _ => 0)
        (deposit .CIC ⟨fun _ => 1, 1, fun _ => one_pos, one_pos⟩ le_rfl (fun _ _ => 0) ![1 / 4, 1 / 4, 0]
          ![1 / 2, -1 / 2, 0] 4 1) := by
  have hdelta : ∀ d, |deltaPos ⟨fun _ => 1, 1, fun _ => one_pos, one_pos⟩ (le_refl 3) ![1 / 2, -1 / 2, 0] 1 d| < 1 := by
    decide +kernel
  have h := deposit_continuity_iff ⟨fun _ => 1, 1, fun _ => one_pos, one_pos⟩ ![1 / 2, -1 / 2, 0] 4 1
  refine ⟨hdelta, h.1 ![1 / 4, 1 / 4] (fun _ _ => 0) (by decide +kernel) (by decide +kernel),
    (h.2 ![1 / 4, 1 / 4, 0] (fun _ _ => 0) (by decide +kernel) hdelta).mpr (.inr ⟨⟨2, ?_⟩, 2, ?_⟩)⟩
  · decide +kernel
  · decide +kernel

end PIConGPU.ZigZag
