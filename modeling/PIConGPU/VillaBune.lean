import PIConGPU.CurrentDeposition

/-!
# The current solver of Villasenor and Buneman

The trajectory is meant to be split at every cell face it crosses. The single-cell formula is
the divergence of the trilinear weights of one cell, continued beyond the cell.
-/
namespace PIConGPU.VillaBune

variable (u : GridUnits)

/-- `mem[z][y][x]` is the node at `x, y, z` relative to the cell of `meanPos`. -/
def addCurrentToSingleCell (meanPos deltaPos : Fin 3 → ℚ) (charge : ℚ) (memIn : FieldJ 3)
    (deltaTime : ℚ) : FieldJ 3 :=
  let off : DataSpace 3 := fun d => ⌊meanPos d⌋
  let mx := meanPos 0 - ⌊meanPos 0⌋
  let my := meanPos 1 - ⌊meanPos 1⌋
  let mz := meanPos 2 - ⌊meanPos 2⌋
  let tmp := deltaPos 0 * deltaPos 1 * deltaPos 2 * (1 / 12)
  let rho_dtX := charge * (1 / (u.cellSize 1 * u.cellSize 2 * deltaTime))
  let rho_dtY := charge * (1 / (u.cellSize 0 * u.cellSize 2 * deltaTime))
  let rho_dtZ := charge * (1 / (u.cellSize 0 * u.cellSize 1 * deltaTime))
  memIn
  |> atomicAdd (off + ![0, 1, 1]) 0 (rho_dtX * (deltaPos 0 * my * mz + tmp))
  |> atomicAdd (off + ![0, 0, 1]) 0 (rho_dtX * (deltaPos 0 * (1 - my) * mz - tmp))
  |> atomicAdd (off + ![0, 1, 0]) 0 (rho_dtX * (deltaPos 0 * my * (1 - mz) - tmp))
  |> atomicAdd (off + ![0, 0, 0]) 0 (rho_dtX * (deltaPos 0 * (1 - my) * (1 - mz) + tmp))
  |> atomicAdd (off + ![1, 0, 1]) 1 (rho_dtY * (deltaPos 1 * mz * mx + tmp))
  |> atomicAdd (off + ![1, 0, 0]) 1 (rho_dtY * (deltaPos 1 * (1 - mz) * mx - tmp))
  |> atomicAdd (off + ![0, 0, 1]) 1 (rho_dtY * (deltaPos 1 * mz * (1 - mx) - tmp))
  |> atomicAdd (off + ![0, 0, 0]) 1 (rho_dtY * (deltaPos 1 * (1 - mz) * (1 - mx) + tmp))
  |> atomicAdd (off + ![1, 1, 0]) 2 (rho_dtZ * (deltaPos 2 * mx * my + tmp))
  |> atomicAdd (off + ![0, 1, 0]) 2 (rho_dtZ * (deltaPos 2 * (1 - mx) * my - tmp))
  |> atomicAdd (off + ![1, 0, 0]) 2 (rho_dtZ * (deltaPos 2 * mx * (1 - my) - tmp))
  |> atomicAdd (off + ![0, 0, 0]) 2 (rho_dtZ * (deltaPos 2 * (1 - mx) * (1 - my) + tmp))

/-- `intersectXPlane`, `intersectYPlane` and `intersectZPlane`: the point of the beam where
coordinate `d` is `x0`. -/
def intersectPlane (d : Fin 3) (pos1 pos2 : Fin 3 → ℚ) (x0 : ℚ) : Fin 3 → ℚ :=
  let t := (x0 - pos1 d) / (pos2 d - pos1 d)
  fun e => if e = d then x0 else pos1 e + t * (pos2 e - pos1 e)

/-- Both cell indices are taken from `oldPos`, here and in the other two splits. -/
def addCurrentSplitZ (oldPos newPos : Fin 3 → ℚ) (charge : ℚ) (mem : FieldJ 3) (deltaTime : ℚ) :
    FieldJ 3 :=
  let oldZ := ⌊oldPos 2⌋
  let newZ := ⌊oldPos 2⌋
  if oldZ ≠ newZ then
    let interPos := intersectPlane 2 oldPos newPos (max oldZ newZ : ℤ)
    let deltaPos := fun d => interPos d - oldPos d
    let meanPos := fun d => oldPos d + 1 / 2 * deltaPos d
    let mem := addCurrentToSingleCell u meanPos deltaPos charge mem deltaTime
    let deltaPos := fun d => newPos d - interPos d
    let meanPos := fun d => interPos d + 1 / 2 * deltaPos d
    addCurrentToSingleCell u meanPos deltaPos charge mem deltaTime
  else
    let deltaPos := fun d => newPos d - oldPos d
    let meanPos := fun d => oldPos d + 1 / 2 * deltaPos d
    addCurrentToSingleCell u meanPos deltaPos charge mem deltaTime

def addCurrentSplitY (oldPos newPos : Fin 3 → ℚ) (charge : ℚ) (mem : FieldJ 3) (deltaTime : ℚ) :
    FieldJ 3 :=
  let oldY := ⌊oldPos 1⌋
  let newY := ⌊oldPos 1⌋
  if oldY ≠ newY then
    let interPos := intersectPlane 1 oldPos newPos (max oldY newY : ℤ)
    let mem := addCurrentSplitZ u oldPos interPos charge mem deltaTime
    addCurrentSplitZ u interPos newPos charge mem deltaTime
  else addCurrentSplitZ u oldPos newPos charge mem deltaTime

def addCurrentSplitX (oldPos newPos : Fin 3 → ℚ) (charge : ℚ) (mem : FieldJ 3) (deltaTime : ℚ) :
    FieldJ 3 :=
  let oldX := ⌊oldPos 0⌋
  let newX := ⌊oldPos 0⌋
  if oldX ≠ newX then
    let interPos := intersectPlane 0 oldPos newPos (max oldX newX : ℤ)
    let mem := addCurrentSplitY u oldPos interPos charge mem deltaTime
    addCurrentSplitY u interPos newPos charge mem deltaTime
  else addCurrentSplitY u oldPos newPos charge mem deltaTime

def oldPos (pos velocity : Fin 3 → ℚ) (deltaTime : ℚ) : Fin 3 → ℚ :=
  fun d => pos d - velocity d * deltaTime / u.cellSize d

def deposit (boxJ : FieldJ 3) (pos velocity : Fin 3 → ℚ) (charge deltaTime : ℚ) : FieldJ 3 :=
  addCurrentSplitX u (oldPos u pos velocity deltaTime) pos charge boxJ deltaTime

/-- Weight of node `n` at `x`, the linear function of the cell at `k` continued to all `x`. -/
def cellWeight (k n : ℤ) (x : ℚ) : ℚ :=
  if n = k then 1 - (x - k) else if n = k + 1 then x - k else 0

def cellSlope (k n : ℤ) : ℚ := if n = k then -1 else if n = k + 1 then 1 else 0

theorem cellWeight_add (k n : ℤ) (x y : ℚ) :
    cellWeight k n (x + y) = cellWeight k n x + cellSlope k n * y := by
  unfold cellWeight cellSlope
  split_ifs <;> ring

theorem node_eq_iff (n off : DataSpace 3) (a b c : ℤ) :
    n = off + ![a, b, c] ↔ n 0 = off 0 + a ∧ n 1 = off 1 + b ∧ n 2 = off 2 + c := by
  rw [funext_iff, Fin.forall_fin_succ, Fin.forall_fin_succ, Fin.forall_fin_one]
  rfl

theorem node_cases (k n : ℤ) : n = k ∨ n = k + 1 ∨ (n ≠ k ∧ n ≠ k + 1) := by
  omega

/-- The four additions to one component: the weights of the two dimensions across it, with the
correction `t` for a beam that is not parallel to an axis. -/
theorem corner_sum (r v t : ℚ) {j k m n : ℤ} (x y : ℚ) :
    (((if m = j + 1 ∧ n = k + 1 then r * (v * (x - j) * (y - k) + t) else 0) +
      (if m = j + 0 ∧ n = k + 1 then r * (v * (1 - (x - j)) * (y - k) - t) else 0)) +
      (if m = j + 1 ∧ n = k + 0 then r * (v * (x - j) * (1 - (y - k)) - t) else 0)) +
      (if m = j + 0 ∧ n = k + 0 then r * (v * (1 - (x - j)) * (1 - (y - k)) + t) else 0) =
    r * (v * cellWeight j m x * cellWeight k n y + cellSlope j m * cellSlope k n * t) := by
  simp only [cellWeight, cellSlope, add_zero]
  rcases node_cases j m with h1 | h1 | h1 <;> rcases node_cases k n with h2 | h2 | h2 <;>
    simp [h1, h2, -mul_eq_mul_left_iff]
  all_goals ring

section SingleCell

variable {u} (meanPos deltaPos : Fin 3 → ℚ) (charge deltaTime : ℚ) (J : FieldJ 3) (n : DataSpace 3)

theorem addCurrentToSingleCell_apply (d : Fin 3) :
    addCurrentToSingleCell u meanPos deltaPos charge J deltaTime n d - J n d =
      (if n d = ⌊meanPos d⌋ then 1 else 0) *
        (charge * (1 / (u.cellSize (d + 1) * u.cellSize (d + 2) * deltaTime)) *
          (deltaPos d * cellWeight ⌊meanPos (d + 1)⌋ (n (d + 1)) (meanPos (d + 1)) *
              cellWeight ⌊meanPos (d + 2)⌋ (n (d + 2)) (meanPos (d + 2)) +
            cellSlope ⌊meanPos (d + 1)⌋ (n (d + 1)) * cellSlope ⌊meanPos (d + 2)⌋ (n (d + 2)) *
              (deltaPos 0 * deltaPos 1 * deltaPos 2 * (1 / 12)))) := by
  rw [← corner_sum]
  simp only [addCurrentToSingleCell, atomicAdd_apply, node_eq_iff]
  fin_cases d
  · by_cases h0 : n 0 = ⌊meanPos 0⌋
    · simp [h0]
      ring
    · simp [h0]
  · by_cases h0 : n 1 = ⌊meanPos 1⌋
    · simp [h0, and_comm]
      ring_nf
    · simp [h0]
  · by_cases h0 : n 2 = ⌊meanPos 2⌋
    · simp [h0]
      ring
    · simp [h0]

/-- Backward difference of the indicator of a cell. -/
theorem indicator_sub (k n : ℤ) :
    (if n = k then (1 : ℚ) else 0) - (if n - 1 = k then 1 else 0) = -cellSlope k n := by
  unfold cellSlope
  rcases node_cases k n with h | h | ⟨h, h'⟩
  · simp [h]
  · simp [h]
  · simp [h, h', show ¬ n - 1 = k by omega]

/-- The divergence of one segment is the difference of the continued trilinear weights between
its two ends. -/
theorem divergence_singleCell (hdt : deltaTime ≠ 0) :
    divergence le_rfl u
      (fun m e => addCurrentToSingleCell u meanPos deltaPos charge J deltaTime m e - J m e) n =
    -(charge / (u.cellVolume * deltaTime)) *
      (∏ d, cellWeight ⌊meanPos d⌋ (n d) (meanPos d + 1 / 2 * deltaPos d) -
        ∏ d, cellWeight ⌊meanPos d⌋ (n d) (meanPos d + -(1 / 2) * deltaPos d)) := by
  have h0 := (u.cellSize_pos 0).ne'
  have h1 := (u.cellSize_pos 1).ne'
  have h2 := (u.cellSize_pos 2).ne'
  have hs := fun d => indicator_sub ⌊meanPos d⌋ (n d)
  simp only [divergence, addCurrentToSingleCell_apply, Fin.sum_univ_three, Fin.prod_univ_three,
    cellWeight_add, GridUnits.cellVolume, Fin.castLE_refl, Pi.sub_apply]
  have e12 : (1 : Fin 3) + 1 = 2 := rfl
  have e13 : (1 : Fin 3) + 2 = 0 := rfl
  have e22 : (2 : Fin 3) + 1 = 0 := rfl
  have e23 : (2 : Fin 3) + 2 = 1 := rfl
  simp only [zero_add, e12, e13, e22, e23, Pi.single_eq_same, Pi.single_eq_of_ne (show (1 : Fin 3) ≠ 0 by decide),
    Pi.single_eq_of_ne (show (2 : Fin 3) ≠ 0 by decide), Pi.single_eq_of_ne (show (0 : Fin 3) ≠ 1 by decide),
    Pi.single_eq_of_ne (show (2 : Fin 3) ≠ 1 by decide), Pi.single_eq_of_ne (show (0 : Fin 3) ≠ 2 by decide),
    Pi.single_eq_of_ne (show (1 : Fin 3) ≠ 2 by decide), sub_zero, ← sub_mul, hs]
  field_simp
  ring

end SingleCell

/-- No segment is ever split. -/
theorem deposit_eq (boxJ : FieldJ 3) (pos velocity : Fin 3 → ℚ) (charge deltaTime : ℚ) :
    deposit u boxJ pos velocity charge deltaTime =
      addCurrentToSingleCell u
        (fun d => oldPos u pos velocity deltaTime d + 1 / 2 * (pos d - oldPos u pos velocity deltaTime d))
        (fun d => pos d - oldPos u pos velocity deltaTime d) charge boxJ deltaTime := by
  simp only [deposit, addCurrentSplitX, addCurrentSplitY, addCurrentSplitZ, ne_eq, not_true_eq_false,
    if_false]

/-- Inside of the cell the continued weight is the shape. -/
theorem cic_eq_cellWeight {k : ℤ} {x : ℚ} (h0 : k ≤ x) (h1 : x ≤ k + 1) (n : ℤ) :
    CIC.chargeAssignment (n - x) = cellWeight k n x := by
  unfold cellWeight
  rcases node_cases k n with h | h | ⟨h, h'⟩
  · rw [if_pos h, h, CIC.chargeAssignment_of_le, abs_eq_of_nonpos (b := x - k) (by ring) (by linarith)]
    rw [abs_eq_of_nonpos (b := x - k) (by ring) (by linarith)]
    linarith
  · rw [if_neg (by omega), if_pos h, h, CIC.chargeAssignment_of_le,
      abs_eq_of_nonneg (b := k + 1 - x) (by push_cast; ring) (by linarith)]
    · ring
    · rw [abs_eq_of_nonneg (b := k + 1 - x) (by push_cast; ring) (by linarith)]
      linarith
  · rw [if_neg h, if_neg h', CIC.chargeAssignment_of_ge]
    rcases lt_or_gt_of_ne h with h | h
    · have : (n : ℚ) + 1 ≤ k := by exact_mod_cast h
      rw [abs_eq_of_nonpos (b := x - n) (by ring) (by linarith)]
      linarith
    · have : (k : ℚ) + 2 ≤ n := by exact_mod_cast (show k + 2 ≤ n by omega)
      rw [abs_eq_of_nonneg (b := n - x) rfl (by linarith)]
      linarith

/-- One dimension of a trajectory that the solver handles: it stays in one cell, or it ends on
the lower face of the new cell. -/
def Unsplit (old new : ℚ) : Prop := (0 ≤ old ∧ old ≤ 1) ∨ new = 0

theorem cic_eq_of_unsplit {old new : ℚ} (h : Unsplit old new) (h0 : 0 ≤ new) (h1 : new < 1)
    (hd : |new - old| < 1) (n : ℤ) :
    CIC.chargeAssignment (n - new) = cellWeight ⌊old + 1 / 2 * (new - old)⌋ n new ∧
      CIC.chargeAssignment (n - old) = cellWeight ⌊old + 1 / 2 * (new - old)⌋ n old := by
  obtain ⟨hd0, hd1⟩ := abs_lt.mp hd
  by_cases hold : 0 ≤ old
  · have hle : old ≤ 1 := by
      rcases h with h | h
      · exact h.2
      · linarith
    have hk : ⌊old + 1 / 2 * (new - old)⌋ = 0 := by
      rw [Int.floor_eq_zero_iff]
      constructor <;> linarith
    rw [hk]
    exact ⟨cic_eq_cellWeight (by simpa using h0) (by push_cast; linarith) n,
      cic_eq_cellWeight (by simpa using hold) (by push_cast; linarith) n⟩
  · have hnew : new = 0 := h.resolve_left (fun h' => hold h'.1)
    have hk : ⌊old + 1 / 2 * (new - old)⌋ = -1 := by
      rw [Int.floor_eq_iff]
      push_cast
      constructor <;> linarith
    rw [hk]
    exact ⟨cic_eq_cellWeight (by push_cast; linarith) (by push_cast; linarith) n,
      cic_eq_cellWeight (by push_cast; linarith) (by push_cast; linarith) n⟩

/-- In every other case the weight of one node differs. -/
theorem unsplit_of_cic_eq {old new : ℚ} (h0 : 0 ≤ new) (h1 : new < 1) (hd : |new - old| < 1)
    (h : ∀ n : ℤ, CIC.chargeAssignment (n - new) - CIC.chargeAssignment (n - old) =
      cellWeight ⌊old + 1 / 2 * (new - old)⌋ n new - cellWeight ⌊old + 1 / 2 * (new - old)⌋ n old) :
    Unsplit old new := by
  obtain ⟨hd0, hd1⟩ := abs_lt.mp hd
  by_contra hbad
  obtain ⟨hold, hnew⟩ := not_or.mp hbad
  have hpos : 0 < new := lt_of_le_of_ne h0 (Ne.symm hnew)
  rcases lt_or_ge old 0 with hneg | hnonneg
  · rcases lt_or_ge (old + 1 / 2 * (new - old)) 0 with hmean | hmean
    · have hk : ⌊old + 1 / 2 * (new - old)⌋ = -1 := by
        rw [Int.floor_eq_iff]
        push_cast
        constructor <;> linarith
      have hn := h (-1)
      rw [hk, cic_eq_cellWeight (k := -1) (x := old) (by push_cast; linarith) (by push_cast; linarith),
        CIC.chargeAssignment_of_ge (by
          rw [abs_eq_of_nonpos (b := new + 1) (by push_cast; ring) (by linarith)]
          linarith)] at hn
      simp only [cellWeight, if_true] at hn
      push_cast at hn
      linarith
    · have hk : ⌊old + 1 / 2 * (new - old)⌋ = 0 := by
        rw [Int.floor_eq_zero_iff]
        constructor <;> linarith
      have hn := h 1
      rw [hk, cic_eq_cellWeight (k := 0) (x := new) (by push_cast; linarith) (by push_cast; linarith),
        CIC.chargeAssignment_of_ge (x := ((1 : ℤ) : ℚ) - old) (by
          rw [abs_eq_of_nonneg (b := 1 - old) (by push_cast; ring) (by linarith)]
          linarith)] at hn
      simp [cellWeight] at hn
      linarith
  · have hgt : 1 < old := by
      by_contra hle
      exact hold ⟨hnonneg, not_lt.mp hle⟩
    rcases lt_or_ge (old + 1 / 2 * (new - old)) 1 with hmean | hmean
    · have hk : ⌊old + 1 / 2 * (new - old)⌋ = 0 := by
        rw [Int.floor_eq_zero_iff]
        constructor <;> linarith
      have hn := h 0
      rw [hk, cic_eq_cellWeight (k := 0) (x := new) (by push_cast; linarith) (by push_cast; linarith),
        CIC.chargeAssignment_of_ge (x := ((0 : ℤ) : ℚ) - old) (by
          rw [abs_eq_of_nonpos (b := old) (by push_cast; ring) (by linarith)]
          linarith)] at hn
      simp [cellWeight] at hn
      linarith
    · have hk : ⌊old + 1 / 2 * (new - old)⌋ = 1 := by
        rw [Int.floor_eq_iff]
        push_cast
        constructor <;> linarith
      have hn := h 2
      rw [hk, cic_eq_cellWeight (k := 1) (x := old) (by push_cast; linarith) (by push_cast; linarith),
        CIC.chargeAssignment_of_ge (x := ((2 : ℤ) : ℚ) - new) (by
          rw [abs_eq_of_nonneg (b := 2 - new) (by push_cast; ring) (by linarith)]
          linarith)] at hn
      simp [cellWeight] at hn
      linarith

theorem sum_cellWeight {k : ℤ} (h0 : -1 ≤ k) (h1 : k ≤ 1) (x : ℚ) :
    ∑ n ∈ Finset.Icc (-1) 2, cellWeight k n x = 1 := by
  have hsplit : ∀ n, cellWeight k n x =
      (if n = k then 1 - (x - k) else 0) + if n = k + 1 then x - k else 0 := by
    intro n
    unfold cellWeight
    split_ifs with h h'
    · omega
    · ring
    · ring
    · ring
  simp only [hsplit]
  rw [Finset.sum_add_distrib, Finset.sum_ite_eq', Finset.sum_ite_eq', if_pos, if_pos]
  · ring
  · exact Finset.mem_Icc.mpr ⟨by omega, by omega⟩
  · exact Finset.mem_Icc.mpr ⟨by omega, by omega⟩

theorem sum_cic {x : ℚ} (h0 : -1 < x) (h1 : x < 2) :
    ∑ n ∈ Finset.Icc (-1 : ℤ) 2, CIC.chargeAssignment (n - x) = 1 := by
  apply ContinuousShape.isAssignment_CIC.sum_window x
  intro n hn
  obtain ⟨hlo, hhi⟩ := abs_lt.mp hn
  simp only [ContinuousShape.shape, Nat.cast_ofNat] at hlo hhi
  have h2 : ((-2 : ℤ) : ℚ) < n := by push_cast; linarith
  have h3 : (n : ℚ) < (3 : ℤ) := by push_cast; linarith
  rw [Int.cast_lt] at h2 h3
  exact Finset.mem_Icc.mpr ⟨by omega, by omega⟩

theorem sum_plane (g : Fin 3 → ℤ → ℚ) (d : Fin 3) (m : ℤ)
    (hg : ∀ e, e ≠ d → ∑ n ∈ Finset.Icc (-1) 2, g e n = 1) :
    ∑ n ∈ Fintype.piFinset (fun e => if e = d then {m} else Finset.Icc (-1) 2), ∏ e, g e (n e) =
      g d m := by
  rw [← Finset.prod_univ_sum, Finset.prod_eq_single_of_mem d (Finset.mem_univ d)]
  · simp
  · intro e _ he
    rw [if_neg he, hg e he]

section Continuity

variable {u} {pos velocity : Fin 3 → ℚ} {charge deltaTime : ℚ} (boxJ : FieldJ 3)

/-- The continuity equation at one node, free of units: the shape on one side, the continued
weights of the cell in the middle of the trajectory on the other. -/
theorem continuity_node (hdt : deltaTime ≠ 0) {old : Fin 3 → ℚ}
    (hold : oldPos u pos velocity deltaTime = old) (n : DataSpace 3) :
    (chargeDensity ContinuousShape.CIC.shape u charge pos n -
        chargeDensity ContinuousShape.CIC.shape u charge old n) / deltaTime +
      divergence le_rfl u (fun m e => deposit u boxJ pos velocity charge deltaTime m e - boxJ m e) n =
    charge / (u.cellVolume * deltaTime) *
      ((∏ d, CIC.chargeAssignment (n d - pos d) - ∏ d, CIC.chargeAssignment (n d - old d)) -
        (∏ d, cellWeight ⌊old d + 1 / 2 * (pos d - old d)⌋ (n d) (pos d) -
          ∏ d, cellWeight ⌊old d + 1 / 2 * (pos d - old d)⌋ (n d) (old d))) := by
  have hV := u.cellVolume_pos.ne'
  have hmean : ∀ d, old d + 1 / 2 * (pos d - old d) + 1 / 2 * (pos d - old d) = pos d := fun d => by ring
  have hmean' : ∀ d, old d + 1 / 2 * (pos d - old d) + -(1 / 2) * (pos d - old d) = old d :=
    fun d => by ring
  rw [deposit_eq, hold, divergence_singleCell _ _ _ _ _ _ hdt]
  simp only [hmean, hmean', chargeDensity, ContinuousShape.shape]
  generalize ∏ d, CIC.chargeAssignment (n d - pos d) = a
  generalize ∏ d, CIC.chargeAssignment (n d - old d) = b
  generalize ∏ d, cellWeight ⌊old d + 1 / 2 * (pos d - old d)⌋ (n d) (pos d) = a'
  generalize ∏ d, cellWeight ⌊old d + 1 / 2 * (pos d - old d)⌋ (n d) (old d) = b'
  field_simp
  ring

theorem abs_pos_sub_oldPos (hdelta : ∀ d, |velocity d * deltaTime / u.cellSize d| < 1) (d : Fin 3) :
    |pos d - oldPos u pos velocity deltaTime d| < 1 := by
  simpa [oldPos] using hdelta d

theorem unsplit_of_continuity (hdt : 0 < deltaTime) (hpos : ∀ d, 0 ≤ pos d ∧ pos d < 1)
    (hdelta : ∀ d, |velocity d * deltaTime / u.cellSize d| < 1) (hq : charge ≠ 0)
    (h : Continuity le_rfl ContinuousShape.CIC.shape u deltaTime charge (oldPos u pos velocity deltaTime)
      pos boxJ (deposit u boxJ pos velocity charge deltaTime)) (d : Fin 3) :
    Unsplit (oldPos u pos velocity deltaTime d) (pos d) := by
  have hd : ∀ d, |pos d - oldPos u pos velocity deltaTime d| < 1 := abs_pos_sub_oldPos hdelta
  set old := oldPos u pos velocity deltaTime with hold
  apply unsplit_of_cic_eq (hpos d).1 (hpos d).2 (hd d)
  intro m
  have hc : charge / (u.cellVolume * deltaTime) ≠ 0 :=
    div_ne_zero hq (mul_ne_zero u.cellVolume_pos.ne' hdt.ne')
  have hzero := fun n => (mul_eq_zero.mp ((continuity_node boxJ hdt.ne' hold.symm n).symm.trans
    (h n))).resolve_left hc
  have hsum := Finset.sum_congr rfl fun n
    (_ : n ∈ Fintype.piFinset (fun e => if e = d then {m} else Finset.Icc (-1) 2)) => hzero n
  have hrange : ∀ e, -1 < old e ∧ old e < 2 := by
    intro e
    have := hpos e
    obtain ⟨h1, h2⟩ := abs_lt.mp (hd e)
    constructor <;> linarith
  have hk : ∀ e, -1 ≤ ⌊old e + 1 / 2 * (pos e - old e)⌋ ∧ ⌊old e + 1 / 2 * (pos e - old e)⌋ ≤ 1 := by
    intro e
    have h1 := hpos e
    have h2 := hrange e
    constructor
    · rw [Int.le_floor]
      push_cast
      linarith
    · have : ⌊old e + 1 / 2 * (pos e - old e)⌋ < 2 := by
        rw [Int.floor_lt]
        push_cast
        linarith
      omega
  simp only [Finset.sum_sub_distrib, Finset.sum_const_zero] at hsum
  rw [sum_plane (fun e n => CIC.chargeAssignment (n - pos e)) d m
      (fun e _ => sum_cic (by have := hpos e; linarith) (by have := hpos e; linarith)),
    sum_plane (fun e n => CIC.chargeAssignment (n - old e)) d m
      (fun e _ => sum_cic (hrange e).1 (hrange e).2),
    sum_plane (fun e n => cellWeight ⌊old e + 1 / 2 * (pos e - old e)⌋ n (pos e)) d m
      (fun e _ => sum_cellWeight (hk e).1 (hk e).2 _),
    sum_plane (fun e n => cellWeight ⌊old e + 1 / 2 * (pos e - old e)⌋ n (old e)) d m
      (fun e _ => sum_cellWeight (hk e).1 (hk e).2 _)] at hsum
  linarith

/-- For every in-cell position and every displacement of less than a cell the deposited current
is continuous with the trilinear charge density exactly when no split was needed, or when there
is no charge. -/
theorem continuity_iff (hdt : 0 < deltaTime) (hpos : ∀ d, 0 ≤ pos d ∧ pos d < 1)
    (hdelta : ∀ d, |velocity d * deltaTime / u.cellSize d| < 1) :
    Continuity le_rfl ContinuousShape.CIC.shape u deltaTime charge (oldPos u pos velocity deltaTime) pos
        boxJ (deposit u boxJ pos velocity charge deltaTime) ↔
      charge = 0 ∨ ∀ d, Unsplit (oldPos u pos velocity deltaTime d) (pos d) := by
  constructor
  · intro h
    rcases eq_or_ne charge 0 with hq | hq
    · exact .inl hq
    · exact .inr (unsplit_of_continuity boxJ hdt hpos hdelta hq h)
  · intro h n
    rw [continuity_node boxJ hdt.ne' rfl n]
    rcases h with h | h
    · rw [h, zero_div, zero_mul]
    · have heq := fun d => cic_eq_of_unsplit (h d) (hpos d).1 (hpos d).2
        (abs_pos_sub_oldPos hdelta d) (n d)
      simp only [(heq _).1, (heq _).2, sub_self, mul_zero]

end Continuity

def unitCells : GridUnits := ⟨fun _ => 1, 1, fun _ => one_pos, one_pos⟩

/-- A beam across the lower x face, from -1/4 to 1/4. -/
theorem crossing_not_continuous :
    ¬ Continuity le_rfl ContinuousShape.CIC.shape unitCells 1 1
      (oldPos unitCells ![1 / 4, 1 / 2, 1 / 2] ![1 / 2, 0, 0] 1) ![1 / 4, 1 / 2, 1 / 2]
      (fun _ _ => 0) (deposit unitCells (fun _ _ => 0) ![1 / 4, 1 / 2, 1 / 2] ![1 / 2, 0, 0] 1 1) := by
  intro h
  have hx := unsplit_of_continuity _ one_pos (by decide +kernel)
    (by intro d; fin_cases d <;> norm_num [unitCells, abs_lt]) one_ne_zero h 0
  norm_num [Unsplit, oldPos, unitCells] at hx

theorem continuity_iff_unitCells :
    Continuity le_rfl ContinuousShape.CIC.shape unitCells 1 1
      (oldPos unitCells ![3 / 4, 1 / 2, 1 / 2] ![1 / 2, 1 / 4, -1 / 4] 1) ![3 / 4, 1 / 2, 1 / 2]
      (fun _ _ => 0)
      (deposit unitCells (fun _ _ => 0) ![3 / 4, 1 / 2, 1 / 2] ![1 / 2, 1 / 4, -1 / 4] 1 1) := by
  refine (continuity_iff (fun _ _ => 0) one_pos (by decide +kernel) ?_).mpr (.inr ?_)
  · intro d
    fin_cases d <;> norm_num [unitCells, abs_lt]
  · intro d
    left
    fin_cases d <;> norm_num [oldPos, unitCells]

end PIConGPU.VillaBune
