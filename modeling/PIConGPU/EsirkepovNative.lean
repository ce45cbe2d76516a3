import PIConGPU.Esirkepov

/-!
# The solver of Esirkepov without windows

The native solver evaluates the decomposed shape on all nodes within the margins of a shape,
independent of the cell and the direction of a particle. It deposits the same current as the solver
with shifted windows.
-/
namespace PIConGPU.EsirkepovNative

open Esirkepov

section Solver

variable (S : Shape) (u : GridUnits)

theorem simDim_le : 3 ≤ 3 := le_rfl

def currentLowerMargin : ℤ := S.support / 2 + 1

def currentUpperMargin : ℤ := (S.support + 1) / 2 + 1

def loopBegin : ℤ := -currentLowerMargin S

def loopEnd : ℤ := currentUpperMargin S + 1

/-- The innermost loop: the accumulated current of every node is written, zeros too. -/
def accumulateAlong {D : ℕ} (node : ℤ → DataSpace D) (component : Fin 3) (w : ℤ → ℚ) (a b : ℤ)
    (J : FieldJ D) : FieldJ D :=
  ((intLoop a b).foldl (fun st k =>
    let accumulated_J := st.1 + w k
    (accumulated_J, atomicAdd (node k) component accumulated_J st.2)) (0, J)).2

def cptCurrent1D (charge : ℚ) (cursorJ : Cursor 3) (line : Line 3) (cellEdgeLength : ℚ)
    (J : FieldJ 3) : FieldJ 3 :=
  (intLoop (loopBegin S) (loopEnd S)).foldl (fun J i =>
    (intLoop (loopBegin S) (loopEnd S)).foldl (fun J j =>
      let tmp := S0 S line i 0 * S0 S line j 1 + 1 / 2 * DS S line i 0 * S0 S line j 1 +
        1 / 2 * S0 S line i 0 * DS S line j 1 + 1 / 3 * DS S line i 0 * DS S line j 1
      accumulateAlong (fun k => cursorJ.node ![i, j, k]) (cursorJ.axes 2)
        (fun k => -charge * (1 / (u.cellVolume * u.deltaT)) * (DS S line k 2 * tmp) * cellEdgeLength)
        (loopBegin S) (loopEnd S) J) J) J

/-- The call operator. The cursor stays at the cell of the particle. -/
def deposit (J : FieldJ 3) (pos velocity : Fin 3 → ℚ) (charge deltaTime : ℚ) : FieldJ 3 :=
  let line : Line 3 := ⟨oldPos u simDim_le pos velocity deltaTime, pos⟩
  let cursorJ : Cursor 3 := ⟨0, 1⟩
  J
  |> cptCurrent1D S u charge (twistVectorFieldAxes axes120 cursorJ) (rotateOrigin axes120 line)
    (u.cellSize 0)
  |> cptCurrent1D S u charge (twistVectorFieldAxes axes201 cursorJ) (rotateOrigin axes201 line)
    (u.cellSize 1)
  |> cptCurrent1D S u charge cursorJ line (u.cellSize 2)

end Solver

theorem atomicAdd_zero {D : ℕ} (node : DataSpace D) (c : Fin 3) (J : FieldJ D) : atomicAdd node c 0 J = J := by
  funext n e
  simp [atomicAdd]

/-- Zeros may be written or left out. -/
theorem accumulateAlong_eq {D : ℕ} (node : ℤ → DataSpace D) (component : Fin 3) (w : ℤ → ℚ) (a b : ℤ)
    (J : FieldJ D) : accumulateAlong node component w a b J = PIConGPU.accumulateAlong node component w a b J := by
  unfold accumulateAlong PIConGPU.accumulateAlong
  congr 2
  funext st k
  refine Prod.ext rfl ?_
  dsimp only
  split_ifs with h
  · rfl
  · rw [not_not.mp h, atomicAdd_zero]

/-- What the call operator guarantees for the line: the current position lies in the cell of the
cursor, and the particle moved by less than a cell. -/
structure InCell {D : ℕ} (line : Line D) : Prop where
  lower : ∀ d, 0 ≤ line.pos1 d
  upper : ∀ d, line.pos1 d < 1
  moved : ∀ d, |line.pos1 d - line.pos0 d| < 1

theorem InCell.rotate {D : ℕ} {line : Line D} (hl : InCell line) (axes : Equiv.Perm (Fin D)) :
    InCell (rotateOrigin axes line) :=
  ⟨fun d => hl.lower (axes d), fun d => hl.upper (axes d), fun d => hl.moved (axes d)⟩

section Margins

variable {S : Shape} {D : ℕ} {line : Line D} (hl : InCell line)

include hl

theorem mem_margin {n : ℤ} {d : Fin D}
    (hn : |(n : ℚ) - line.pos0 d| < (S.support : ℚ) / 2 ∨ |(n : ℚ) - line.pos1 d| < (S.support : ℚ) / 2) :
    n ∈ Finset.Ico (loopBegin S) (loopEnd S) := by
  have hlo := hl.lower d
  have hhi := hl.upper d
  obtain ⟨hm0, hm1⟩ := abs_lt.mp (hl.moved d)
  have hhalf : (S.support : ℚ) = 2 * (S.support / 2 : ℕ) + (S.support % 2 : ℕ) := by
    exact_mod_cast (Nat.div_add_mod S.support 2).symm
  have hbegin : loopBegin S = -((S.support / 2 : ℕ) : ℤ) - 1 := by
    simp only [loopBegin, currentLowerMargin]
    omega
  have hend : loopEnd S = ((S.support / 2 : ℕ) : ℤ) + (S.support % 2 : ℕ) + 2 := by
    simp only [loopEnd, currentUpperMargin]
    omega
  have hr : S.support % 2 < 2 := Nat.mod_lt _ (by norm_num)
  rw [Finset.mem_Ico, hbegin, hend]
  generalize (S.support / 2 : ℕ) = h at *
  generalize (S.support % 2 : ℕ) = r at *
  have hr' : (r : ℚ) ≤ 1 := by exact_mod_cast Nat.le_of_lt_succ hr
  have h1 : ((-(h : ℤ) - 2 : ℤ) : ℚ) < n := by
    push_cast
    rcases hn with hn | hn <;> obtain ⟨ha, hb⟩ := abs_lt.mp hn <;> linarith
  have h2 : (n : ℚ) < ((h : ℤ) + r + 2 : ℤ) := by
    have hr0 : (0 : ℚ) ≤ r := Nat.cast_nonneg r
    push_cast
    rcases hn with hn | hn <;> obtain ⟨ha, hb⟩ := abs_lt.mp hn <;> linarith
  rw [Int.cast_lt] at h1 h2
  omega

theorem covers_margin (hS : S.IsAssignment) : Covers S line (fun _ => loopBegin S) fun _ => loopEnd S :=
  .of_mem hS fun _ _ => mem_margin hl

end Margins

section Sums

variable {S : Shape} {D : ℕ} {line : Line D} {a b a' b' : Fin D → ℤ}

theorem sum_DS_of_le (hc : Covers S line a b) {d : Fin D} {m : ℤ} (hm : m ≤ a d) (n : ℤ) :
    ∑ k ∈ Finset.Ico m (n + 1), DS S line k d = ∑ k ∈ Finset.Ico (a d) (n + 1), DS S line k d := by
  refine (Finset.sum_subset (Finset.Ico_subset_Ico_left hm) fun k hk hk' => hc.DS ?_).symm
  rw [Finset.mem_Ico] at hk hk' ⊢
  omega

/-- A running sum over the change of the shape may start at any node before the shapes. -/
theorem sum_DS_unique (hc : Covers S line a b) (hc' : Covers S line a' b') (d : Fin D) (n : ℤ) :
    ∑ k ∈ Finset.Ico (a d) (n + 1), DS S line k d = ∑ k ∈ Finset.Ico (a' d) (n + 1), DS S line k d := by
  rw [← sum_DS_of_le hc (min_le_left (a d) (a' d)) n, ← sum_DS_of_le hc' (min_le_right (a d) (a' d)) n]

/-- The windows of the shifted line, seen from the cell of the particle. -/
theorem covers_shiftedWindow (hS : S.IsAssignment) {oldPos pos : Fin D → ℚ}
    (hl : InBaseCell S (shiftedLine S oldPos pos)) :
    Covers S (⟨oldPos, pos⟩ : Line D)
      (fun d => windowBegin S + offset (shiftedLine S oldPos pos) d + coordinateShift S pos d)
      fun d => windowEnd S + offset (shiftedLine S oldPos pos) d + coordinateShift S pos d := by
  refine .of_mem hS fun n d hn => ?_
  have hcast : ∀ x : ℚ, ((n - coordinateShift S pos d : ℤ) : ℚ) - (x - coordinateShift S pos d) = n - x :=
    fun x => by push_cast; ring
  have hmem := mem_window hl (n := n - coordinateShift S pos d) (d := d) (by simpa [shiftedLine, hcast] using hn)
  rw [Finset.mem_Ico] at hmem ⊢
  omega

/-- In the coordinates of the grid the sums of both solvers agree. -/
theorem flux_shiftedLine (hS : S.IsAssignment) {oldPos pos : Fin D → ℚ} (hpos : ∀ d, 0 ≤ pos d ∧ pos d < 1)
    (hmoved : ∀ d, |pos d - oldPos d| < 1) (n : ℤ) (d : Fin D) :
    flux S (shiftedLine S oldPos pos) d (n - coordinateShift S pos d) =
      ∑ k ∈ Finset.Ico (loopBegin S) (n + 1), DS S (⟨oldPos, pos⟩ : Line D) k d := by
  have hshift := covers_shiftedWindow hS (shiftedLine_inBaseCell (S := S) hpos hmoved)
  have hmargin : Covers S (⟨oldPos, pos⟩ : Line D) (fun _ => loopBegin S) fun _ => loopEnd S :=
    covers_margin ⟨fun d => (hpos d).1, fun d => (hpos d).2, hmoved⟩ hS
  rw [← sum_DS_unique hshift hmargin d n, flux]
  refine Finset.sum_nbij' (· + coordinateShift S pos d) (· - coordinateShift S pos d) ?_ ?_ ?_ ?_ ?_
  · intro k hk
    rw [Finset.mem_Ico] at hk ⊢
    omega
  · intro k hk
    rw [Finset.mem_Ico] at hk ⊢
    omega
  · intro k _
    omega
  · intro k _
    omega
  · intro k _
    rw [← add_sub_cancel_right k (coordinateShift S pos d), DS_shiftedLine, add_sub_cancel_right]
    rfl

end Sums

section Solver

variable {S : Shape} (u : GridUnits)

theorem cptCurrent1D_eq (hS : S.IsAssignment) {line : Line 3} (hl : InCell line) (charge : ℚ)
    (cursorJ : Cursor 3) (cellEdgeLength : ℚ) (J : FieldJ 3) :
    cptCurrent1D S u charge cursorJ line cellEdgeLength J = J + fun n e =>
      if e = cursorJ.axes 2 then
        -charge * (1 / (u.cellVolume * u.deltaT)) * cellEdgeLength *
          (transversal S line (cursorJ.jump n 0) (cursorJ.jump n 1) 0 1 *
            ∑ k ∈ Finset.Ico (loopBegin S) (cursorJ.jump n 2 + 1), DS S line k 2)
      else 0 := by
  simp only [cptCurrent1D, accumulateAlong_eq]
  exact sweep_eq u (covers_margin hl hS) charge cursorJ cellEdgeLength J

/-- One axis of the native solver adds what the same axis of the solver with windows adds. -/
theorem cptCurrent1D_axes (hS : S.IsAssignment) {oldPos pos : Fin 3 → ℚ} (hpos : ∀ d, 0 ≤ pos d ∧ pos d < 1)
    (hmoved : ∀ d, |pos d - oldPos d| < 1) (charge : ℚ) (axes : Equiv.Perm (Fin 3)) (cellEdgeLength : ℚ)
    (J : FieldJ 3) :
    cptCurrent1D S u charge (twistVectorFieldAxes axes ⟨0, 1⟩) (rotateOrigin axes ⟨oldPos, pos⟩) cellEdgeLength J =
      Esirkepov.cptCurrent1D S u charge (twistVectorFieldAxes axes (shiftedCursor S pos))
        (rotateOrigin axes (shiftedLine S oldPos pos)) cellEdgeLength J := by
  have hin : InCell (⟨oldPos, pos⟩ : Line 3) := ⟨fun d => (hpos d).1, fun d => (hpos d).2, hmoved⟩
  rw [cptCurrent1D_eq u hS (hin.rotate axes),
    Esirkepov.cptCurrent1D_axes u (covers_window hS (shiftedLine_inBaseCell hpos hmoved))]
  congr 1
  funext n e
  have hjump : ∀ d, (twistVectorFieldAxes axes (⟨0, 1⟩ : Cursor 3)).jump n d = n (axes d) := fun d => by
    simp [Cursor.jump, twistVectorFieldAxes]
  have hflux := flux_shiftedLine hS hpos hmoved (n (axes 2)) (axes 2)
  simp only [axisCurrent, hjump, hflux, transversal, S0_shiftedLine, DS_shiftedLine]
  rfl

/-- Both solvers deposit the same current, for all continuous shapes. -/
theorem deposit_eq_esirkepov (s : ContinuousShape) (J : FieldJ 3) {pos velocity : Fin 3 → ℚ}
    (charge deltaTime : ℚ) (hpos : ∀ d, 0 ≤ pos d ∧ pos d < 1)
    (hdelta : ∀ d, |velocity d * deltaTime / u.cellSize d| < 1) :
    deposit s.shape u J pos velocity charge deltaTime = deposit3 s.shape u J pos velocity charge deltaTime := by
  have hmoved : ∀ d, |pos d - oldPos u le_rfl pos velocity deltaTime d| < 1 := fun d => by
    simpa [oldPos] using hdelta d
  have haxes := fun axes => cptCurrent1D_axes u s.isAssignment hpos hmoved charge axes
  have hz := haxes 1
  simp only [twistVectorFieldAxes_one, rotateOrigin_one] at hz
  simp only [deposit, deposit3, haxes, hz]

end Solver

/-- A particle with an odd support that entered its cell through two faces. -/
theorem deposit_eq_esirkepov_TSC :
    (∀ d, |(![-1 / 2, 3 / 4, -1 / 3] : Fin 3 → ℚ) d * 1 / 1| < 1) ∧
      deposit ContinuousShape.TSC.shape ⟨fun _ => 1, 1, fun _ => one_pos, one_pos⟩ (fun _ _ => 0)
          ![3 / 4, 1 / 2, 0] ![-1 / 2, 3 / 4, -1 / 3] 2 1 =
        deposit3 ContinuousShape.TSC.shape ⟨fun _ => 1, 1, fun _ => one_pos, one_pos⟩ (fun _ _ => 0)
          ![3 / 4, 1 / 2, 0] ![-1 / 2, 3 / 4, -1 / 3] 2 1 := by
  have hdelta : ∀ d, |(![-1 / 2, 3 / 4, -1 / 3] : Fin 3 → ℚ) d * 1 / 1| < 1 := by
    intro d
    fin_cases d <;> norm_num [abs_lt]
  exact ⟨hdelta, deposit_eq_esirkepov ⟨fun _ => 1, 1, fun _ => one_pos, one_pos⟩ .TSC (fun _ _ => 0) 2 1
    (by decide +kernel) hdelta⟩

end PIConGPU.EsirkepovNative
