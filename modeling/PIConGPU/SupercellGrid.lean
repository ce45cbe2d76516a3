import PIConGPU.Mask

/-!
# The grid of supercells of a device

The outermost layers of supercells are the GUARD, the next layers are the BORDER and the rest is the
CORE. A kernel is launched with a box of block indices, and a mapper turns a block index into the
index of a supercell.
-/
namespace PIConGPU

/-- Extent of the grid with the guard, and the widths of border and guard on each side. -/
structure MappingDescription (D : ℕ) where
  gridSuperCells : DataSpace D
  borderSuperCells : ℤ
  guardingSuperCells : ℤ

def launchBox {D : ℕ} (size : DataSpace D) : Set (DataSpace D) := {idx | ∀ d, 0 ≤ idx d ∧ idx d < size d}

theorem finite_launchBox {D : ℕ} {size : DataSpace D} : Finite {idx // idx ∈ launchBox size} := by
  have hfinite : {idx : DataSpace D | ∀ d, idx d ∈ Set.Ico 0 (size d)}.Finite :=
    Set.Finite.pi' fun d => Set.finite_Ico 0 (size d)
  exact hfinite.to_subtype

namespace MappingDescription

variable {D : ℕ} (m : MappingDescription D)

/-- Supercells with at least `w` others between them and the outside. -/
def inner (w : ℤ) : Set (DataSpace D) := {c | ∀ d, w ≤ c d ∧ c d < m.gridSuperCells d - w}

def core : Set (DataSpace D) := m.inner (m.guardingSuperCells + m.borderSuperCells)

def border : Set (DataSpace D) :=
  m.inner m.guardingSuperCells \ m.inner (m.guardingSuperCells + m.borderSuperCells)

def guard : Set (DataSpace D) := m.inner 0 \ m.inner m.guardingSuperCells

theorem inner_zero : m.inner 0 = launchBox m.gridSuperCells := by
  ext c
  simp [inner, launchBox]

variable {m}

theorem inner_anti {v w : ℤ} (h : v ≤ w) : m.inner w ⊆ m.inner v := by
  intro c hc d
  have := hc d
  omega

end MappingDescription

namespace DataSpaceOperations

def map : {D : ℕ} → (size pos : DataSpace D) → ℤ
  | 2, size, pos => pos 1 * size 0 + pos 0
  | 3, size, pos => pos 2 * size 0 * size 1 + pos 1 * size 0 + pos 0
  | _, _, _ => 0

/-- The index at a position of a box. The last component is not reduced. -/
def unmap : {D : ℕ} → (size : DataSpace D) → (pos : ℤ) → DataSpace D
  | 2, size, pos => ![pos % size 0, pos / size 0]
  | 3, size, pos => ![pos % size 0, pos % (size 0 * size 1) / size 0, pos / (size 0 * size 1)]
  | _, _, _ => 0

section Inverse

variable {D : ℕ} (hD : D = 2 ∨ D = 3) {size pos : DataSpace D} {i : ℤ}

include hD

/-- The numbers of a box are its volume many, and both functions are inverse to each other. -/
theorem unmap_mem (hsize : ∀ d, 0 < size d) (h0 : 0 ≤ i) (h1 : i < ∏ d, size d) :
    unmap size i ∈ launchBox size := by
  rcases hD with rfl | rfl
  · rw [Fin.prod_univ_two] at h1
    intro d
    fin_cases d
    · exact ⟨Int.emod_nonneg _ (hsize 0).ne', Int.emod_lt_of_pos _ (hsize 0)⟩
    · exact ⟨Int.ediv_nonneg h0 (hsize 0).le, Int.ediv_lt_of_lt_mul (hsize 0) (h1.trans_eq (mul_comm _ _))⟩
  · rw [Fin.prod_univ_three] at h1
    have hpos : 0 < size 0 * size 1 := mul_pos (hsize 0) (hsize 1)
    intro d
    fin_cases d
    · exact ⟨Int.emod_nonneg _ (hsize 0).ne', Int.emod_lt_of_pos _ (hsize 0)⟩
    · refine ⟨Int.ediv_nonneg (Int.emod_nonneg _ hpos.ne') (hsize 0).le, Int.ediv_lt_of_lt_mul (hsize 0) ?_⟩
      exact (Int.emod_lt_of_pos i hpos).trans_eq (mul_comm _ _)
    · exact ⟨Int.ediv_nonneg h0 hpos.le, Int.ediv_lt_of_lt_mul hpos (h1.trans_eq (mul_comm _ _))⟩

theorem map_unmap : map size (unmap size i) = i := by
  rcases hD with rfl | rfl
  · simp only [map, unmap, Matrix.cons_val_zero, Matrix.cons_val_one]
    exact Int.ediv_mul_add_emod i (size 0)
  · have h1 : i % size 0 = i % (size 0 * size 1) % size 0 := (Int.emod_emod_of_dvd i (dvd_mul_right _ _)).symm
    simp only [map, unmap, Matrix.cons_val_zero, Matrix.cons_val_one, Matrix.cons_val]
    rw [h1, add_assoc, Int.ediv_mul_add_emod, mul_assoc, Int.ediv_mul_add_emod]

theorem unmap_map (hpos : pos ∈ launchBox size) : unmap size (map size pos) = pos := by
  rcases hD with rfl | rfl
  · obtain ⟨h0, h1⟩ := hpos 0
    have hs : size 0 ≠ 0 := by omega
    funext d
    fin_cases d
    · simp only [map, unmap, Fin.zero_eta, Matrix.cons_val_zero]
      rw [Int.add_emod, Int.mul_emod_left, zero_add, Int.emod_emod_of_dvd _ dvd_rfl, Int.emod_eq_of_lt h0 h1]
    · simp only [map, unmap, Fin.mk_one, Matrix.cons_val_one]
      rw [add_comm, Int.add_mul_ediv_right _ _ hs, Int.ediv_eq_zero_of_lt h0 h1, zero_add, Matrix.cons_val_zero]
  · obtain ⟨h0, h1⟩ := hpos 0
    obtain ⟨h2, h3⟩ := hpos 1
    have hs : size 0 ≠ 0 := by omega
    have hlow : 0 ≤ pos 1 * size 0 + pos 0 := add_nonneg (mul_nonneg h2 (h0.trans h1.le)) h0
    have hhigh : pos 1 * size 0 + pos 0 < size 0 * size 1 := by nlinarith
    have hsplit : pos 2 * size 0 * size 1 + pos 1 * size 0 + pos 0 =
        pos 1 * size 0 + pos 0 + pos 2 * (size 0 * size 1) := by ring
    have hprod : size 0 * size 1 ≠ 0 := (hlow.trans_lt hhigh).ne'
    simp only [map, unmap]
    rw [hsplit]
    funext d
    fin_cases d
    · simp only [Fin.zero_eta, Matrix.cons_val_zero]
      rw [← Int.emod_emod_of_dvd _ (dvd_mul_right (size 0) (size 1)), Int.add_mul_emod_self_right,
        Int.emod_eq_of_lt hlow hhigh, Int.add_emod, Int.mul_emod_left, zero_add, Int.emod_emod_of_dvd _ dvd_rfl,
        Int.emod_eq_of_lt h0 h1]
    · simp only [Fin.mk_one, Matrix.cons_val_one]
      rw [Int.add_mul_emod_self_right, Int.emod_eq_of_lt hlow hhigh, add_comm, Int.add_mul_ediv_right _ _ hs,
        Int.ediv_eq_zero_of_lt h0 h1, zero_add, Matrix.cons_val_zero]
    · simp only [Fin.reduceFinMk, Matrix.cons_val]
      rw [Int.add_mul_ediv_right _ _ hprod, Int.ediv_eq_zero_of_lt hlow hhigh, zero_add]

theorem map_mem (hpos : pos ∈ launchBox size) : 0 ≤ map size pos ∧ map size pos < ∏ d, size d := by
  rcases hD with rfl | rfl
  · obtain ⟨h0, h1⟩ := hpos 0
    obtain ⟨h2, h3⟩ := hpos 1
    rw [Fin.prod_univ_two]
    exact ⟨add_nonneg (mul_nonneg h2 (h0.trans h1.le)) h0, by simp only [map]; nlinarith⟩
  · obtain ⟨h0, h1⟩ := hpos 0
    obtain ⟨h2, h3⟩ := hpos 1
    obtain ⟨h4, h5⟩ := hpos 2
    have hlow : 0 ≤ pos 1 * size 0 + pos 0 := add_nonneg (mul_nonneg h2 (h0.trans h1.le)) h0
    have hhigh : pos 1 * size 0 + pos 0 < size 0 * size 1 := by nlinarith
    have hplane : pos 2 * size 0 * size 1 + pos 1 * size 0 + pos 0 =
        pos 2 * (size 0 * size 1) + (pos 1 * size 0 + pos 0) := by ring
    rw [Fin.prod_univ_three]
    simp only [map]
    rw [hplane]
    constructor
    · have := mul_nonneg h4 (hlow.trans hhigh.le)
      linarith
    · have : (pos 2 + 1) * (size 0 * size 1) ≤ size 2 * (size 0 * size 1) :=
        mul_le_mul_of_nonneg_right (by omega) (hlow.trans hhigh.le)
      linarith

end Inverse

end DataSpaceOperations

end PIConGPU
