import PIConGPU.FieldToParticleInterpolation
import PIConGPU.ShapePartition
import PIConGPU.SupercellGrid
import PIConGPU.YeeSolver

/-!
# Attributes of particles on the grid

A particle adds an attribute, weighted with its shape, to the cells around it. A linear loop runs over all
cells up to the margins. Nothing of the attribute is lost.
-/
namespace PIConGPU.ComputeGridValuePerFrame

/-- `ComputeGridValueOptions` -/
inductive CalcType
  | calcDensity
  | calcEnergy
  | calcEnergyDensity
  | calcCounter
  deriving DecidableEq, Repr

structure Particle (D : ℕ) where
  weighting : ℚ
  position : Fin D → ℚ
  momentum : Fin 3 → ℚ
  localCellIdx : ℕ

structure Species (D : ℕ) where
  getMass : ℚ → Particle D → ℚ
  getCharge : ℚ → Particle D → ℚ
  calcGamma : (Fin 3 → ℚ) → ℚ → ℚ
  gammaThresh : ℚ
  typicalNumParticlesPerMacroparticle : ℚ

section Model

variable {D : ℕ} (S : Shape) (u : YeeSolver.FieldUnits) (species : Species D) (calcType : CalcType)

def lowerMargin : ℤ := S.support / 2

def upperMargin : ℤ := (S.support + 1) / 2

def energy (particle : Particle D) : ℚ :=
  let mass := species.getMass particle.weighting particle
  let gamma := species.calcGamma particle.momentum mass
  let c2 := u.speedOfLight * u.speedOfLight
  if gamma ≤ species.gammaThresh then (∑ d, particle.momentum d * particle.momentum d) / (2 * mass)
  else (gamma - 1) * mass * c2

def particleChargeDensity (particle : Particle D) : ℚ :=
  species.getCharge particle.weighting particle / u.cellVolume

def addend (particle : Particle D) (assignComb : ℚ) : ℚ :=
  match calcType with
  | .calcDensity => assignComb * particleChargeDensity u species particle
  | .calcEnergy => assignComb * energy u species particle
  | .calcEnergyDensity => assignComb * particleChargeDensity u species particle * energy u species particle
  | .calcCounter => assignComb * particle.weighting / species.typicalNumParticlesPerMacroparticle

def computeGridValue (superCell : DataSpace D) (particle : Particle D) (tmpBox : DataSpace D → ℚ) : DataSpace D → ℚ :=
  let localCell := DataSpaceOperations.unmap superCell particle.localCellIdx
  let lowMargin : DataSpace D := fun _ => lowerMargin S
  let upMargin : DataSpace D := fun _ => upperMargin S
  let marginSpace := upMargin + lowMargin + 1
  let numWriteCells := (∏ d, marginSpace d).toNat
  (List.range numWriteCells).foldl (fun box (i : ℕ) =>
    let multidimensionalIndex := DataSpaceOperations.unmap marginSpace i
    let offsetToBaseCell := multidimensionalIndex - lowMargin
    let assign := fun d => S.chargeAssignment (offsetToBaseCell d - particle.position d)
    Function.update box (localCell + offsetToBaseCell)
      (box (localCell + offsetToBaseCell) + addend u species calcType particle (∏ d, assign d))) tmpBox

def attributeValue (particle : Particle D) : ℚ := addend u species calcType particle 1

theorem addend_eq (particle : Particle D) (w : ℚ) :
    addend u species calcType particle w = w * attributeValue u species calcType particle := by
  cases calcType <;> simp only [attributeValue, addend] <;> ring

end Model

section Loop

variable {D : ℕ}

theorem foldl_update_add {ι : Type*} (l : List ι) (cell : ι → DataSpace D) (v : ι → ℚ) (box : DataSpace D → ℚ)
    (c : DataSpace D) :
    l.foldl (fun box i => Function.update box (cell i) (box (cell i) + v i)) box c =
      box c + (l.map fun i => if c = cell i then v i else 0).sum := by
  induction l generalizing box with
  | nil => simp
  | cons i l ih =>
    rw [List.foldl_cons, ih, List.map_cons, List.sum_cons, ← add_assoc]
    by_cases h : c = cell i
    · simp [h]
    · simp [h, Function.update_of_ne]

/-- A linear loop over a box visits each cell once. -/
theorem sum_range_unmap (hD : D = 2 ∨ D = 3) {size : DataSpace D} (hsize : ∀ d, 0 < size d) (c : DataSpace D)
    (v : DataSpace D → ℚ) :
    ((List.range (∏ d, size d).toNat).map fun i : ℕ =>
      if c = DataSpaceOperations.unmap size i then v (DataSpaceOperations.unmap size i) else 0).sum =
    if ∀ d, 0 ≤ c d ∧ c d < size d then v c else 0 := by
  have hprod : 0 < ∏ d, size d := Finset.prod_pos fun d _ => hsize d
  have hlist : ((List.range (∏ d, size d).toNat).map fun i : ℕ =>
      if c = DataSpaceOperations.unmap size i then v (DataSpaceOperations.unmap size i) else 0).sum =
      ∑ i ∈ Finset.range (∏ d, size d).toNat,
        if c = DataSpaceOperations.unmap size i then v (DataSpaceOperations.unmap size i) else 0 := rfl
  rw [hlist]
  split_ifs with hc
  · obtain ⟨h0, h1⟩ := DataSpaceOperations.map_mem hD hc
    have hcast : (((DataSpaceOperations.map size c).toNat : ℕ) : ℤ) = DataSpaceOperations.map size c :=
      Int.toNat_of_nonneg h0
    rw [Finset.sum_eq_single (DataSpaceOperations.map size c).toNat, hcast, DataSpaceOperations.unmap_map hD hc,
      if_pos rfl]
    · intro i _ hi
      refine if_neg fun h => hi ?_
      rw [h, DataSpaceOperations.map_unmap hD, Int.toNat_natCast]
    · intro hi
      exact absurd (Finset.mem_range.mpr (by omega)) hi
  · refine Finset.sum_eq_zero fun i hi => if_neg fun h => hc ?_
    rw [Finset.mem_range] at hi
    rw [h]
    exact DataSpaceOperations.unmap_mem hD hsize (Int.natCast_nonneg i) (by omega)

end Loop

section Deposit

variable {D : ℕ} {S : Shape} (u : YeeSolver.FieldUnits) (species : Species D) (calcType : CalcType)

instance (lower upper : ℤ) (n : DataSpace D) : Decidable (InMargin lower upper n) :=
  inferInstanceAs (Decidable (∀ _, _))

def weight (S : Shape) (pos : Fin D → ℚ) (n : DataSpace D) : ℚ := ∏ d, S.chargeAssignment (n d - pos d)

theorem computeGridValue_apply (hD : D = 2 ∨ D = 3) (superCell : DataSpace D) (particle : Particle D)
    (tmpBox : DataSpace D → ℚ) (c : DataSpace D) :
    computeGridValue S u species calcType superCell particle tmpBox c = tmpBox c +
      let n := c - DataSpaceOperations.unmap superCell particle.localCellIdx
      if InMargin (lowerMargin S) (upperMargin S) n then
        weight S particle.position n * attributeValue u species calcType particle else 0 := by
  set localCell := DataSpaceOperations.unmap superCell particle.localCellIdx with hlocal
  set low : DataSpace D := fun _ => lowerMargin S with hlow
  set marginSpace : DataSpace D := (fun _ => upperMargin S) + low + 1 with hspace
  have hsize : ∀ d, 0 < marginSpace d := fun d => by
    simp only [hspace, hlow, Pi.add_apply, Pi.one_apply, lowerMargin, upperMargin]
    omega
  have hcell : ∀ i : ℤ, c = localCell + (DataSpaceOperations.unmap marginSpace i - low) ↔
      c - localCell + low = DataSpaceOperations.unmap marginSpace i := fun i => by
    rw [← add_sub_assoc, eq_sub_iff_add_eq, add_comm localCell, ← sub_eq_iff_eq_add, add_sub_right_comm]
  unfold computeGridValue
  dsimp only
  rw [foldl_update_add, ← hlocal, ← hlow, ← hspace]
  simp only [hcell, addend_eq]
  have hsum := sum_range_unmap hD hsize (c - localCell + low) fun m =>
    weight S particle.position (m - low) * attributeValue u species calcType particle
  rw [add_sub_cancel_right] at hsum
  refine congrArg (tmpBox c + ·) (hsum.trans (if_congr ?_ rfl rfl))
  simp only [InMargin, hspace, hlow, Pi.add_apply, Pi.one_apply]
  refine forall_congr' fun d => ?_
  omega

theorem mem_margin_of_ne_zero (hS : S.IsPartition) {x : ℚ} (h0 : 0 ≤ x) (h1 : x < 1) {n : ℤ}
    (hn : S.chargeAssignment (n - x) ≠ 0) : n ∈ Finset.Icc (-lowerMargin S) (upperMargin S) := by
  have hhalf : (S.support : ℚ) = 2 * (S.support / 2 : ℕ) + (S.support % 2 : ℕ) := by
    exact_mod_cast (Nat.div_add_mod S.support 2).symm
  obtain ⟨hlo, hhi⟩ := abs_le.mp (hS.abs_sub_le hn)
  have hlower : lowerMargin S = (S.support / 2 : ℕ) := by simp [lowerMargin]
  have hupper : upperMargin S = (S.support / 2 : ℕ) + (S.support % 2 : ℕ) := by
    simp only [upperMargin]
    omega
  have hr : S.support % 2 < 2 := Nat.mod_lt _ two_pos
  rw [Finset.mem_Icc, hlower, hupper]
  generalize S.support / 2 = h, S.support % 2 = r at *
  have hr' : (r : ℚ) ≤ 1 := by exact_mod_cast Nat.le_of_lt_succ hr
  have hr0 : (0 : ℚ) ≤ r := Nat.cast_nonneg r
  have h2 : ((-(h : ℤ) - 1 : ℤ) : ℚ) < n := by
    push_cast
    linarith
  have h3 : (n : ℚ) < ((h : ℤ) + r + 1 : ℤ) := by
    push_cast
    linarith
  rw [Int.cast_lt] at h2 h3
  omega

theorem weight_eq_zero (hS : S.IsPartition) {pos : Fin D → ℚ} (hpos : ∀ d, 0 ≤ pos d ∧ pos d < 1) {n : DataSpace D}
    (hn : ¬ InMargin (lowerMargin S) (upperMargin S) n) : weight S pos n = 0 := by
  obtain ⟨d, hd⟩ := not_forall.mp hn
  refine Finset.prod_eq_zero (Finset.mem_univ d) (not_not.mp fun h => hd ?_)
  exact Finset.mem_Icc.mp (mem_margin_of_ne_zero hS (hpos d).1 (hpos d).2 h)

theorem sum_weight (hS : S.IsPartition) {pos : Fin D → ℚ} (hpos : ∀ d, 0 ≤ pos d ∧ pos d < 1) :
    ∑ n ∈ Fintype.piFinset fun _ => Finset.Icc (-lowerMargin S) (upperMargin S), weight S pos n = 1 := by
  simp only [weight]
  rw [← Finset.prod_univ_sum (fun _ => Finset.Icc (-lowerMargin S) (upperMargin S))
    fun d n => S.chargeAssignment (n - pos d)]
  exact Finset.prod_eq_one fun d _ =>
    hS.sum_of_mem (pos d) fun n hn => mem_margin_of_ne_zero hS (hpos d).1 (hpos d).2 hn

theorem finsum_computeGridValue (hD : D = 2 ∨ D = 3) (hS : S.IsPartition) (superCell : DataSpace D)
    {particle : Particle D} (hpos : ∀ d, 0 ≤ particle.position d ∧ particle.position d < 1)
    (tmpBox : DataSpace D → ℚ) :
    ∑ᶠ c, (computeGridValue S u species calcType superCell particle tmpBox c - tmpBox c) =
      attributeValue u species calcType particle := by
  set localCell := DataSpaceOperations.unmap superCell particle.localCellIdx with hlocal
  set margin : Finset (DataSpace D) := Fintype.piFinset fun _ => Finset.Icc (-lowerMargin S) (upperMargin S) with hmargin
  have hdiff : ∀ c, computeGridValue S u species calcType superCell particle tmpBox c - tmpBox c =
      weight S particle.position (c - localCell) * attributeValue u species calcType particle := fun c => by
    rw [computeGridValue_apply u species calcType hD, add_sub_cancel_left, ← hlocal]
    dsimp only
    split_ifs with hc
    · rfl
    · rw [weight_eq_zero hS hpos hc, zero_mul]
  simp only [hdiff]
  rw [← finsum_mul, ← finsum_comp_equiv (Equiv.addRight localCell)]
  simp only [Equiv.coe_addRight, add_sub_cancel_right]
  rw [finsum_eq_sum_of_support_subset (s := margin), sum_weight hS hpos, one_mul]
  intro n hn
  refine Finset.mem_coe.mpr (Fintype.mem_piFinset.mpr fun d => Finset.mem_Icc.mpr ?_)
  exact not_not.mp fun h => hn (weight_eq_zero hS hpos fun hin => h (hin d))

/-- Every shape is a partition of unity, and its weights in the loop over the margins deposit the whole
attribute of a particle. -/
theorem computeGridValue_complete (s : SupportShape) :
    (∀ x : ℚ, ∑ᶠ i : ℤ, s.shape.chargeAssignment (i - x) = 1) ∧
    (∀ x, 0 ≤ s.shape.chargeAssignment x) ∧
    (∀ x : ℚ, (s.shape.support : ℚ) / 2 < |x| → s.shape.chargeAssignment x = 0) ∧
    ∀ {D : ℕ}, D = 2 ∨ D = 3 → ∀ (u : YeeSolver.FieldUnits) (species : Species D) (calcType : CalcType)
      (superCell : DataSpace D) (particle : Particle D) (tmpBox : DataSpace D → ℚ),
      (∀ d, 0 ≤ particle.position d ∧ particle.position d < 1) →
      ∑ n ∈ Fintype.piFinset fun _ => Finset.Icc (-lowerMargin s.shape) (upperMargin s.shape),
        weight s.shape particle.position n = 1 ∧
      (∀ c, computeGridValue s.shape u species calcType superCell particle tmpBox c = tmpBox c +
        let n := c - DataSpaceOperations.unmap superCell particle.localCellIdx
        if InMargin (lowerMargin s.shape) (upperMargin s.shape) n then
          weight s.shape particle.position n * attributeValue u species calcType particle else 0) ∧
      ∑ᶠ c, (computeGridValue s.shape u species calcType superCell particle tmpBox c - tmpBox c) =
        attributeValue u species calcType particle := by
  have hS := s.isPartition
  refine ⟨hS.sum_nodes, hS.nonneg, hS.eq_zero, fun hD u species calcType superCell particle tmpBox hpos => ?_⟩
  exact ⟨sum_weight hS hpos, computeGridValue_apply u species calcType hD superCell particle tmpBox,
    finsum_computeGridValue u species calcType hD hS superCell hpos tmpBox⟩

/-- The shape with jumps, half a cell from its node. -/
theorem computeGridValue_complete_NGP :
    ∑ᶠ i : ℤ, SupportShape.NGP.shape.chargeAssignment (i - 1 / 2) = 1 ∧
    SupportShape.NGP.shape.chargeAssignment 1 = 0 ∧
    ∑ᶠ c, (computeGridValue SupportShape.NGP.shape
      { cellSize := 1, deltaT := 1, speedOfLight := 1, eps0 := 1
        cellSize_pos := fun _ => one_pos, deltaT_pos := one_pos }
      ⟨fun w _ => w, fun w _ => w, fun _ _ => 1, 2, 1⟩ .calcCounter ![8, 8] ⟨3, ![1 / 2, 1 / 4], 0, 9⟩ 0 c - 0) =
      3 := by
  obtain ⟨hsum, -, hzero, hdeposit⟩ := computeGridValue_complete .NGP
  refine ⟨hsum _, hzero 1 (by norm_num [SupportShape.shape]), ?_⟩
  refine (hdeposit (.inl rfl) _ _ .calcCounter ![8, 8] ⟨3, ![1 / 2, 1 / 4], 0, 9⟩ 0 fun d => ?_).2.2.trans ?_
  · fin_cases d <;> norm_num
  · norm_num [attributeValue, addend]

end Deposit

end PIConGPU.ComputeGridValuePerFrame
