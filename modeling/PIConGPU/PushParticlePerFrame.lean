import PIConGPU.FixedWidth
import PIConGPU.KernelShiftParticles
import PIConGPU.SupercellGrid

/-!
# Cells and directions of pushed particles

After the pusher a particle may lie in a cell next to its own, and this cell may belong to another supercell. The
position is brought back into a cell, the cell back into a supercell, and the direction is stored in the mask.
-/
namespace PIConGPU

namespace PushParticlePerFrame

/-- Along one axis: the cells to move, with the correction for a position that was rounded up to 1. -/
def moveDir (pos : ℚ) : ℤ := ⌊pos⌋ + ⌊pos - ⌊pos⌋⌋

def inCell (pos : ℚ) : ℚ := pos - ⌊pos⌋ - ⌊pos - ⌊pos⌋⌋

/-- A direction that stays within the supercell is cleared. Negative cells are large as unsigned numbers. -/
def leaveDir (size localCell dir : ℤ) : ℤ := dir * (if u32 size ≤ u32 localCell then 1 else 0)

structure Moved (D : ℕ) where
  position : Fin D → ℚ
  localCellIdx : ℕ
  multiMask : ℕ

variable {D : ℕ}

/-- The particle at the given position of its cell after the pusher, and the flag for the supercell. -/
def move (superCellSize : Fin D → ℕ) (localCellIdx : ℕ) (pos : Fin D → ℚ) (mustShift : Bool) : Moved D × Bool :=
  let size : DataSpace D := fun i => superCellSize i
  let localCell := DataSpaceOperations.unmap size localCellIdx + fun i => moveDir (pos i)
  let dir : DataSpace D := fun i => leaveDir (size i) (localCell i) (moveDir (pos i))
  let direction := 1 + ∑ i : Fin D, (if dir i = -1 then 2 else dir i) * 3^i.val
  ({ position := fun i => inCell (pos i)
     localCellIdx := (DataSpaceOperations.map size (localCell - dir * size) % 65536).toNat
     multiMask := (direction % 256).toNat },
    if 2 ≤ direction then true else mustShift)

section Axis

variable {pos : ℚ}

theorem inCell_eq (pos : ℚ) : inCell pos = Int.fract pos := by
  rw [inCell, Int.self_sub_floor, Int.self_sub_floor, Int.fract_fract]

theorem moveDir_eq (pos : ℚ) : moveDir pos = ⌊pos⌋ := by
  rw [moveDir, Int.self_sub_floor, Int.floor_fract, add_zero]

theorem moveDir_cases (h0 : -1 ≤ pos) (h1 : pos < 2) : moveDir pos = -1 ∨ moveDir pos = 0 ∨ moveDir pos = 1 := by
  have hlo : -1 ≤ ⌊pos⌋ := Int.le_floor.mpr (by exact_mod_cast h0)
  have hhi : ⌊pos⌋ < 2 := Int.floor_lt.mpr (by exact_mod_cast h1)
  rw [moveDir_eq]
  omega

/-- The direction points out of the supercell exactly if the new cell does. -/
theorem leaveDir_eq {size c dir : ℤ} (hsize : size ≤ 65536) (h0 : 0 ≤ c) (h1 : c < size)
    (hdir : dir = -1 ∨ dir = 0 ∨ dir = 1) :
    leaveDir size (c + dir) dir = if c + dir < 0 then -1 else if size ≤ c + dir then 1 else 0 := by
  unfold leaveDir u32
  rcases hdir with rfl | rfl | rfl <;> split_ifs <;> omega

end Axis

section Spec

variable {superCellSize : Fin D → ℕ} {localCellIdx : ℕ} {pos : Fin D → ℚ}

/-- The digit that a direction along one axis is stored as. -/
def digit (dir : ℤ) : ℕ := if dir = -1 then 2 else dir.toNat

theorem digitOffset_digit {dir : ℤ} (h : dir = -1 ∨ dir = 0 ∨ dir = 1) : digitOffset (digit dir) = dir := by
  rcases h with rfl | rfl | rfl <;> rfl

theorem digit_lt {dir : ℤ} (h : dir = -1 ∨ dir = 0 ∨ dir = 1) : digit dir < 3 := by
  rcases h with rfl | rfl | rfl <;> decide

/-- The mask is a number in base three with the digits of the direction. -/
theorem exists_direction {dir : DataSpace D} (h : ∀ i, dir i = -1 ∨ dir i = 0 ∨ dir i = 1) :
    ∃ k < 3^D, (∑ i : Fin D, (if dir i = -1 then 2 else dir i) * 3^i.val : ℤ) = (k : ℕ) ∧
      getRelativeDirections D k = dir := by
  refine ⟨finFunctionFinEquiv fun i => ⟨digit (dir i), digit_lt (h i)⟩, Fin.isLt _, ?_, funext fun d => ?_⟩
  · rw [finFunctionFinEquiv_apply_val]
    push_cast
    refine Finset.sum_congr rfl fun i _ => ?_
    rcases h i with hi | hi | hi <;> simp [hi, digit]
  · rw [getRelativeDirections, ← finFunctionFinEquiv_symm_apply_val, Equiv.symm_apply_apply]
    exact digitOffset_digit (h d)

variable (hD : D = 2 ∨ D = 3) (hsize : ∀ d, 0 < superCellSize d) (hcells : ∏ d, superCellSize d ≤ 65536)
  (hidx : localCellIdx < ∏ d, superCellSize d) (hpos : ∀ d, -1 ≤ pos d ∧ pos d < 2)
include hD hsize hcells hidx hpos

theorem move_cell (mustShift : Bool) : ∃ dir cell : DataSpace D, (∀ d, dir d = -1 ∨ dir d = 0 ∨ dir d = 1) ∧
    (∀ d, 0 ≤ cell d ∧ cell d < superCellSize d) ∧
    (∀ d, dir d * superCellSize d + cell d =
      DataSpaceOperations.unmap (fun i => (superCellSize i : ℤ)) localCellIdx d + ⌊pos d⌋) ∧
    (move superCellSize localCellIdx pos mustShift).1.localCellIdx =
      (DataSpaceOperations.map (fun i => (superCellSize i : ℤ)) cell).toNat ∧
    ∃ k < 3^D, (move superCellSize localCellIdx pos mustShift).1.multiMask = k + 1 ∧
      getRelativeDirections D k = dir ∧
      (move superCellSize localCellIdx pos mustShift).2 = if 2 ≤ k + 1 then true else mustShift := by
  set size : DataSpace D := fun i => superCellSize i with hsize_def
  have hprod : ∏ d, size d = (∏ d, superCellSize d : ℕ) := (Nat.cast_prod _ _).symm
  have hcell : DataSpaceOperations.unmap size localCellIdx ∈ launchBox size :=
    DataSpaceOperations.unmap_mem hD (fun d => Int.natCast_pos.mpr (hsize d)) (by omega)
      (by rw [hprod]; exact_mod_cast hidx)
  set old := DataSpaceOperations.unmap size localCellIdx with hold
  have hle : ∀ d, size d ≤ 65536 := fun d => by
    have hdvd := Nat.le_of_dvd (by omega) (Finset.dvd_prod_of_mem superCellSize (Finset.mem_univ d))
    simp only [size]
    omega
  have hmove : ∀ d, moveDir (pos d) = -1 ∨ moveDir (pos d) = 0 ∨ moveDir (pos d) = 1 := fun d =>
    moveDir_cases (hpos d).1 (hpos d).2
  set dir : DataSpace D := fun d => leaveDir (size d) (old d + moveDir (pos d)) (moveDir (pos d)) with hdir
  have hdir_eq : ∀ d, dir d = if old d + moveDir (pos d) < 0 then -1 else if size d ≤ old d + moveDir (pos d) then 1 else 0 :=
    fun d => leaveDir_eq (hle d) (hcell d).1 (hcell d).2 (hmove d)
  have hcases : ∀ d, dir d = -1 ∨ dir d = 0 ∨ dir d = 1 := fun d => by
    rw [hdir_eq d]
    split_ifs <;> simp
  set cell : DataSpace D := old + (fun d => moveDir (pos d)) - dir * size with hcell_def
  have hnew : ∀ d, 0 ≤ cell d ∧ cell d < size d := fun d => by
    have := hcell d
    have := hmove d
    simp only [hcell_def, Pi.sub_apply, Pi.add_apply, Pi.mul_apply, hdir_eq d]
    split_ifs <;> omega
  obtain ⟨k, hk, hsum, hk'⟩ := exists_direction hcases
  have hk27 : 3^D ≤ 27 := by rcases hD with rfl | rfl <;> norm_num
  refine ⟨dir, cell, hcases, hnew, fun d => ?_, ?_, k, hk, ?_, hk', ?_⟩
  · simp only [hcell_def, Pi.sub_apply, Pi.add_apply, Pi.mul_apply, moveDir_eq]
    ring
  · obtain ⟨h0, h1⟩ := DataSpaceOperations.map_mem hD hnew
    have hmod : DataSpaceOperations.map size cell % 65536 = DataSpaceOperations.map size cell :=
      Int.emod_eq_of_lt h0 (by rw [hprod] at h1; omega)
    exact congrArg Int.toNat hmod
  · change ((1 + ∑ i : Fin D, (if dir i = -1 then 2 else dir i) * 3^i.val) % 256).toNat = k + 1
    rw [hsum]
    omega
  · change (if 2 ≤ 1 + ∑ i : Fin D, (if dir i = -1 then 2 else dir i) * 3^i.val then true else mustShift) = _
    rw [hsum]
    refine if_congr ?_ rfl rfl
    omega

omit hD hsize hcells hidx hpos

def destination (c : DataSpace D) (multiMask : ℕ) : DataSpace D :=
  match KernelShiftParticles.direction multiMask with
  | some j => KernelShiftParticles.relative c j
  | none => c

theorem destination_succ (c : DataSpace D) (k : ℕ) : destination c (k + 1) = c + getRelativeDirections D k := by
  cases k with
  | zero => simp [destination, KernelShiftParticles.direction]
  | succ k => rfl

/-- A push keeps the position in the global grid, and the particle is moved to the supercell that contains it. The
number of a cell has 16 bits. -/
theorem move_spec (hD : D = 2 ∨ D = 3) (hsize : ∀ d, 0 < superCellSize d) (hcells : ∏ d, superCellSize d ≤ 65536)
    (hidx : localCellIdx < ∏ d, superCellSize d) (hpos : ∀ d, -1 ≤ pos d ∧ pos d < 2) (mustShift : Bool)
    {size old new e : DataSpace D} {moved : Moved D} {flag : Bool} (hsize' : size = fun i => (superCellSize i : ℤ))
    (hold : old = DataSpaceOperations.unmap size localCellIdx)
    (hmove : move superCellSize localCellIdx pos mustShift = (moved, flag))
    (hnew : new = DataSpaceOperations.unmap size moved.localCellIdx)
    (he : e = getRelativeDirections D (moved.multiMask - 1)) :
    (∀ d, 0 ≤ moved.position d ∧ moved.position d < 1) ∧ moved.localCellIdx < ∏ d, superCellSize d ∧
      (∀ d, e d = -1 ∨ e d = 0 ∨ e d = 1) ∧
      (∀ d, (e d * size d + new d : ℤ) + moved.position d = old d + pos d) ∧
      (1 ≤ moved.multiMask ∧ moved.multiMask ≤ 3^D) ∧ (flag = true ↔ mustShift = true ∨ 2 ≤ moved.multiMask) ∧
      ∀ c d, (destination c moved.multiMask d * size d : ℤ) ≤ (c d * size d + old d : ℤ) + pos d ∧
        (c d * size d + old d : ℤ) + pos d < ((destination c moved.multiMask d + 1) * size d : ℤ) := by
  obtain ⟨dir, cell, hcases, hcell, hmoved, hcellIdx, k, hk, hmask, hdir, hflag⟩ :=
    move_cell hD hsize hcells hidx hpos mustShift
  have hposition : ∀ d, (move superCellSize localCellIdx pos mustShift).1.position d = Int.fract (pos d) := fun d =>
    inCell_eq (pos d)
  rw [hmove] at hcellIdx hmask hflag hposition
  dsimp only at hcellIdx hmask hflag hposition
  rw [← hsize'] at hcellIdx hmoved
  rw [← hold] at hmoved
  rw [hmask, Nat.add_sub_cancel, hdir] at he
  have hcell' : ∀ d, 0 ≤ cell d ∧ cell d < size d := by rw [hsize']; exact hcell
  obtain ⟨h0, h1⟩ := DataSpaceOperations.map_mem hD hcell'
  have hnew' : new = cell := by
    rw [hnew, hcellIdx, Int.toNat_of_nonneg h0, DataSpaceOperations.unmap_map hD hcell']
  have hglobal : ∀ d, (e d * size d + new d : ℤ) + moved.position d = old d + pos d := fun d => by
    have hd := hmoved d
    rw [hposition, hnew', he]
    have hcast : ((dir d * size d + cell d : ℤ) : ℚ) = (old d + ⌊pos d⌋ : ℤ) := by
      rw [← hd, hsize']
    rw [hcast]
    push_cast
    rw [add_assoc, Int.floor_add_fract]
  have hfract : ∀ d, 0 ≤ moved.position d ∧ moved.position d < 1 := fun d => by
    rw [hposition]
    exact ⟨Int.fract_nonneg _, Int.fract_lt_one _⟩
  refine ⟨hfract, ?_, by rw [he]; exact hcases, hglobal, by omega, ?_, fun c d => ?_⟩
  · have hprod : ∏ d, size d = (∏ d, superCellSize d : ℕ) := by rw [hsize']; exact (Nat.cast_prod _ _).symm
    rw [hcellIdx]
    omega
  · rw [hflag, hmask]
    by_cases h2 : 2 ≤ k + 1
    · rw [if_pos h2]
      exact iff_of_true rfl (.inr h2)
    · rw [if_neg h2]
      exact (or_iff_left h2).symm
  · have hd := hglobal d
    obtain ⟨hlo, hhi⟩ := hcell' d
    obtain ⟨hlo', hhi'⟩ := hfract d
    have hlo'' : (0 : ℚ) ≤ cell d := by exact_mod_cast hlo
    have hhi'' : (cell d : ℚ) + 1 ≤ size d := by exact_mod_cast hhi
    rw [hmask, destination_succ, hdir, Pi.add_apply]
    rw [he, hnew'] at hd
    push_cast at hd ⊢
    constructor <;> linarith

end Spec

/-- A particle that leaves its supercell to the right and upwards. -/
theorem move_corner : ∃ moved : Moved 3, move (![8, 8, 4] : Fin 3 → ℕ) 7 ![3/2, -1/2, 0] false = (moved, true) ∧
    moved.localCellIdx = 56 ∧ moved.multiMask = 8 ∧ (∀ d, 0 ≤ moved.position d ∧ moved.position d < 1) ∧
    ∀ c d, (destination c 8 d * ![8, 8, 4] d : ℤ) ≤ (c d * ![8, 8, 4] d + ![7, 0, 0] d : ℤ) + (![3/2, -1/2, 0] d : ℚ) ∧
      (c d * ![8, 8, 4] d + ![7, 0, 0] d : ℤ) + (![3/2, -1/2, 0] d : ℚ) <
        ((destination c 8 d + 1) * ![8, 8, 4] d : ℤ) := by
  obtain ⟨moved, hmove, hcell, hmask⟩ : ∃ moved : Moved 3, move (![8, 8, 4] : Fin 3 → ℕ) 7 ![3/2, -1/2, 0] false =
      (moved, true) ∧ moved.localCellIdx = 56 ∧ moved.multiMask = 8 :=
    ⟨_, Prod.ext rfl (by decide +kernel), by decide +kernel, by decide +kernel⟩
  have hsize : (![8, 8, 4] : DataSpace 3) = fun i => ((![8, 8, 4] : Fin 3 → ℕ) i : ℤ) := by decide
  have hold : (![7, 0, 0] : DataSpace 3) = DataSpaceOperations.unmap ![8, 8, 4] 7 := by decide
  obtain ⟨hposition, -, -, -, -, -, hdestination⟩ := move_spec (.inr rfl) (by decide) (by decide) (by decide)
    (fun d => by fin_cases d <;> norm_num) false hsize hold hmove rfl rfl
  rw [hmask] at hdestination
  exact ⟨moved, hmove, hcell, hmask, hposition, hdestination⟩

end PushParticlePerFrame

end PIConGPU
