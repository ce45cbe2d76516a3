import PIConGPU.SlabGrid
import PIConGPU.SupercellGrid

/-!
# Area mappings

A kernel on GUARD or BORDER is launched with a grid of blocks in which the faces of the grid of supercells
lie side by side. Signed and unsigned values are integers here: on a grid with a core no intermediate
value is negative.
-/
namespace PIConGPU

open SlabGrid

inductive MappingArea
  | GUARD
  | BORDER
  | CORE
  | CORE_BORDER
  | CORE_BORDER_GUARD
  deriving DecidableEq, Repr

/-- A launch grid, and the supercell of a block; no supercell stands for a division by zero. -/
structure BlockMapper (D : ℕ) where
  getGridDim : DataSpace D
  getBlockIndex : DataSpace D → Option (DataSpace D)

def BlockMapper.Launches {D : ℕ} (mapper : BlockMapper D) (blocks : List (DataSpace D)) : Prop :=
  blocks.Nodup ∧ ∀ idx, idx ∈ blocks ↔ idx ∈ launchBox mapper.getGridDim

theorem BlockMapper.exists_launches {D : ℕ} (mapper : BlockMapper D) : ∃ blocks, mapper.Launches blocks := by
  have := @finite_launchBox D mapper.getGridDim
  refine ⟨(Set.toFinite (launchBox mapper.getGridDim)).toFinset.toList, Finset.nodup_toList _, fun idx => ?_⟩
  rw [Finset.mem_toList, Set.Finite.mem_toFinset]

namespace AreaMappingMethods

section AllDimensions

variable {D : ℕ} (m : MappingDescription D)

def coreBorderGuard : BlockMapper D where
  getGridDim := m.gridSuperCells
  getBlockIndex := fun blockIdx => some blockIdx

def core : BlockMapper D where
  getGridDim := fun d => m.gridSuperCells d - 2 * (m.guardingSuperCells + m.borderSuperCells)
  getBlockIndex := fun blockIdx => some fun d => blockIdx d + (m.guardingSuperCells + m.borderSuperCells)

def coreBorder : BlockMapper D where
  getGridDim := fun d => m.gridSuperCells d - 2 * m.guardingSuperCells
  getBlockIndex := fun blockIdx => some fun d => blockIdx d + m.guardingSuperCells

end AllDimensions

def guard2 (m : MappingDescription 2) : BlockMapper 2 where
  getGridDim := ![m.gridSuperCells 0 + m.gridSuperCells 1 - 2 * m.guardingSuperCells, 2 * m.guardingSuperCells]
  getBlockIndex := fun blockIdx =>
    if blockIdx 0 < m.gridSuperCells 0 then
      some ![blockIdx 0,
        (blockIdx 1).tdiv 2 + blockIdx 1 % 2 * (m.gridSuperCells 1 - m.guardingSuperCells)]
    else
      some ![(blockIdx 1).tdiv 2 + blockIdx 1 % 2 * (m.gridSuperCells 0 - m.guardingSuperCells),
        m.guardingSuperCells + blockIdx 0 - m.gridSuperCells 0]

def border2 (m : MappingDescription 2) : BlockMapper 2 where
  getGridDim :=
    let xOverhead := 2 * m.guardingSuperCells
    let yOverhead := xOverhead + 2 * m.borderSuperCells
    ![m.gridSuperCells 0 - xOverhead + m.gridSuperCells 1 - yOverhead, 2 * m.borderSuperCells]
  getBlockIndex := fun blockIdx =>
    let width := m.gridSuperCells 0 - 2 * m.guardingSuperCells
    if blockIdx 0 < width then
      some ![m.guardingSuperCells + blockIdx 0,
        m.guardingSuperCells + (blockIdx 1).tdiv 2 +
          blockIdx 1 % 2 * (m.gridSuperCells 1 - 2 * m.guardingSuperCells - m.borderSuperCells)]
    else
      some ![m.guardingSuperCells + (blockIdx 1).tdiv 2 +
          blockIdx 1 % 2 * (m.gridSuperCells 0 - m.borderSuperCells - 2 * m.guardingSuperCells),
        m.guardingSuperCells + m.borderSuperCells + blockIdx 0 - width]

def guard3 (m : MappingDescription 3) : BlockMapper 3 where
  getGridDim :=
    let x := m.gridSuperCells 0
    let x_ := m.gridSuperCells 0 - 2 * m.guardingSuperCells
    let y := m.gridSuperCells 1
    let z_ := m.gridSuperCells 2 - 2 * m.guardingSuperCells
    ![x * y + z_ * y + x_ * z_, 2 * m.guardingSuperCells, 1]
  getBlockIndex := fun blockIdx =>
    let x := m.gridSuperCells 0
    let x_ := m.gridSuperCells 0 - 2 * m.guardingSuperCells
    let y := m.gridSuperCells 1
    let z := m.gridSuperCells 2
    let z_ := m.gridSuperCells 2 - 2 * m.guardingSuperCells
    if blockIdx 0 < x * y then do
      -- area is x*y
      let tmp_x := blockIdx 0
      return ![← modulo tmp_x x, ← divide tmp_x x,
        (blockIdx 1).tdiv 2 + blockIdx 1 % 2 * (z - m.guardingSuperCells)]
    else if x * y ≤ blockIdx 0 ∧ blockIdx 0 < x * y + z_ * y then do
      -- area is z_*y
      let tmp_x := blockIdx 0 - x * y
      return ![(blockIdx 1).tdiv 2 + blockIdx 1 % 2 * (x - m.guardingSuperCells), ← divide tmp_x z_,
        (← modulo tmp_x z_) + m.guardingSuperCells]
    else do
      -- area is x_*z_
      let tmp_x := blockIdx 0 - x * y - z_ * y
      return ![(← modulo tmp_x x_) + m.guardingSuperCells,
        (blockIdx 1).tdiv 2 + blockIdx 1 % 2 * (y - m.guardingSuperCells),
        (← divide tmp_x x_) + m.guardingSuperCells]

def border3 (m : MappingDescription 3) : BlockMapper 3 where
  getGridDim :=
    let g := 2 * m.guardingSuperCells
    let b := 2 * m.borderSuperCells
    let x := m.gridSuperCells 0 - g
    let x_ := m.gridSuperCells 0 - g - b
    let y := m.gridSuperCells 1 - g
    let z_ := m.gridSuperCells 2 - g - b
    ![x * y + z_ * y + x_ * z_, b, 1]
  getBlockIndex := fun blockIdx =>
    let g := m.guardingSuperCells
    let b := m.borderSuperCells
    let x := m.gridSuperCells 0 - 2 * g
    let x_ := m.gridSuperCells 0 - 2 * g - 2 * b
    let y := m.gridSuperCells 1 - 2 * g
    let z := m.gridSuperCells 2 - 2 * g
    let z_ := m.gridSuperCells 2 - 2 * g - 2 * b
    if blockIdx 0 < x * y then do
      -- area is x*y
      let tmp_x := blockIdx 0
      return ![(← modulo tmp_x x) + g, (← divide tmp_x x) + g,
        g + (blockIdx 1).tdiv 2 + blockIdx 1 % 2 * (z - b)]
    else if x * y ≤ blockIdx 0 ∧ blockIdx 0 < x * y + z_ * y then do
      -- area is z_*y
      let tmp_x := blockIdx 0 - x * y
      return ![g + (blockIdx 1).tdiv 2 + blockIdx 1 % 2 * (x - b), (← divide tmp_x z_) + g,
        (← modulo tmp_x z_) + g + b]
    else do
      -- area is x_*z_
      let tmp_x := blockIdx 0 - x * y - z_ * y
      return ![(← modulo tmp_x x_) + g + b, g + (blockIdx 1).tdiv 2 + blockIdx 1 % 2 * (y - b),
        (← divide tmp_x x_) + g + b]

end AreaMappingMethods

/-- The specialisation for an area; GUARD and BORDER exist in two and three dimensions. -/
def areaMapping : {D : ℕ} → MappingDescription D → MappingArea → BlockMapper D
  | _, m, .CORE_BORDER_GUARD => AreaMappingMethods.coreBorderGuard m
  | _, m, .CORE => AreaMappingMethods.core m
  | _, m, .CORE_BORDER => AreaMappingMethods.coreBorder m
  | 2, m, .GUARD => AreaMappingMethods.guard2 m
  | 2, m, .BORDER => AreaMappingMethods.border2 m
  | 3, m, .GUARD => AreaMappingMethods.guard3 m
  | 3, m, .BORDER => AreaMappingMethods.border3 m
  | _, _, _ => ⟨0, fun _ => none⟩

namespace AreaMapping

def region {D : ℕ} (m : MappingDescription D) : MappingArea → Set (DataSpace D)
  | .GUARD => m.guard
  | .BORDER => m.border
  | .CORE => m.core
  | .CORE_BORDER => m.inner m.guardingSuperCells
  | .CORE_BORDER_GUARD => launchBox m.gridSuperCells

/-- The blocks of the launch grid work on the supercells of a set, each block on a supercell of its own. -/
def Enumerates {D : ℕ} (mapper : BlockMapper D) (s : Set (DataSpace D)) : Prop :=
  Numbers mapper.getBlockIndex (launchBox mapper.getGridDim) s

section General

variable {D : ℕ} {m : MappingDescription D}

theorem launchBox_eq_box (n : DataSpace D) : launchBox n = box 0 n := by
  ext c
  simp [launchBox, box]

theorem inner_eq_box (v : ℤ) : m.inner v = box v fun d => m.gridSuperCells d - 2 * v := by
  ext c
  refine forall_congr' fun d => ?_
  dsimp only
  omega

theorem guard_eq_shell : m.guard = shell 0 m.guardingSuperCells m.gridSuperCells := by
  rw [MappingDescription.guard, m.inner_zero, launchBox_eq_box, inner_eq_box, shell, zero_add]

theorem border_eq_shell :
    m.border = shell m.guardingSuperCells m.borderSuperCells fun d => m.gridSuperCells d - 2 * m.guardingSuperCells := by
  rw [MappingDescription.border, inner_eq_box, inner_eq_box, shell]
  congr 2
  funext d
  ring

theorem enumerates_shift (v : ℤ) :
    Enumerates ⟨fun d => m.gridSuperCells d - 2 * v, fun blockIdx => some fun d => blockIdx d + v⟩ (m.inner v) := by
  refine Numbers.of_inverse (fun blockIdx d => blockIdx d + v) (fun c d => c d - v) (fun _ _ => rfl) ?_ ?_
  · intro blockIdx h
    refine ⟨fun d => ?_, funext fun d => by ring⟩
    have := h d
    dsimp only at this ⊢
    omega
  · intro c h
    refine ⟨fun d => ?_, funext fun d => by ring⟩
    have := h d
    dsimp only at this ⊢
    omega

end General

section Plane

variable {m : MappingDescription 2}

theorem guard2_enumerates (hg : 0 ≤ m.guardingSuperCells)
    (hG : ∀ d, 2 * m.guardingSuperCells ≤ m.gridSuperCells d) :
    Enumerates (AreaMappingMethods.guard2 m) m.guard := by
  rw [guard_eq_shell, Enumerates, launchBox_eq_box]
  refine (shell2_numbers hg hG).congr fun blockIdx _ => ?_
  simp only [shell2, AreaMappingMethods.guard2, side, zero_add]
  rw [add_sub_assoc]

theorem border2_enumerates (hb : 0 ≤ m.borderSuperCells)
    (hG : ∀ d, 2 * m.borderSuperCells ≤ m.gridSuperCells d - 2 * m.guardingSuperCells) :
    Enumerates (AreaMappingMethods.border2 m) m.border := by
  have hdim : (AreaMappingMethods.border2 m).getGridDim =
      ![m.gridSuperCells 0 - 2 * m.guardingSuperCells + (m.gridSuperCells 1 - 2 * m.guardingSuperCells) -
        2 * m.borderSuperCells, 2 * m.borderSuperCells] := by
    simp only [AreaMappingMethods.border2]
    congr 1
    ring
  rw [border_eq_shell, Enumerates, launchBox_eq_box, hdim]
  refine (shell2_numbers hb hG).congr fun blockIdx _ => ?_
  simp only [shell2, AreaMappingMethods.border2, side]
  split_ifs
  · rw [add_assoc]
  · rw [add_assoc m.guardingSuperCells ((blockIdx 1).tdiv 2), add_sub_assoc, sub_right_comm]

end Plane

section Space

variable {m : MappingDescription 3}

theorem guard3_enumerates (hg : 0 ≤ m.guardingSuperCells)
    (hG : ∀ d, 2 * m.guardingSuperCells < m.gridSuperCells d) :
    Enumerates (AreaMappingMethods.guard3 m) m.guard := by
  rw [guard_eq_shell, Enumerates, launchBox_eq_box]
  refine (shell3_numbers hg hG).congr fun blockIdx _ => ?_
  simp only [shell3, AreaMappingMethods.guard3, side, zero_add]
  by_cases hx : blockIdx 0 < m.gridSuperCells 0 * m.gridSuperCells 1
  · rw [if_pos hx, if_pos hx]
  · rw [if_neg hx, if_neg hx]
    simp only [not_lt.mp hx, true_and]
    split_ifs
    · refine bind_congr fun q => bind_congr fun r => ?_
      rw [add_comm r]
    · refine bind_congr fun r => bind_congr fun q => ?_
      rw [add_comm r, add_comm q]

theorem border3_enumerates (hb : 0 ≤ m.borderSuperCells)
    (hG : ∀ d, 2 * m.borderSuperCells < m.gridSuperCells d - 2 * m.guardingSuperCells) :
    Enumerates (AreaMappingMethods.border3 m) m.border := by
  rw [border_eq_shell, Enumerates, launchBox_eq_box]
  refine (shell3_numbers hb hG).congr fun blockIdx _ => ?_
  simp only [shell3, AreaMappingMethods.border3, side]
  by_cases hx : blockIdx 0 <
      (m.gridSuperCells 0 - 2 * m.guardingSuperCells) * (m.gridSuperCells 1 - 2 * m.guardingSuperCells)
  · rw [if_pos hx, if_pos hx]
    refine bind_congr fun r => bind_congr fun q => ?_
    rw [add_comm r, add_comm q, add_assoc]
  · rw [if_neg hx, if_neg hx]
    simp only [not_lt.mp hx, true_and]
    split_ifs
    · refine bind_congr fun q => bind_congr fun r => ?_
      rw [add_comm q, add_assoc r, add_comm r, add_assoc m.guardingSuperCells ((blockIdx 1).tdiv 2),
        add_assoc m.guardingSuperCells]
    · refine bind_congr fun r => bind_congr fun q => ?_
      rw [add_assoc r, add_comm r, add_assoc q, add_comm q, add_assoc m.guardingSuperCells ((blockIdx 1).tdiv 2)]

end Space

section Areas

variable {D : ℕ} {m : MappingDescription D}

theorem areaMapping_enumerates (hD : D = 2 ∨ D = 3) (hg : 0 ≤ m.guardingSuperCells) (hb : 0 ≤ m.borderSuperCells)
    (hG : ∀ d, 2 * (m.guardingSuperCells + m.borderSuperCells) < m.gridSuperCells d) (area : MappingArea) :
    Enumerates (areaMapping m area) (region m area) := by
  cases area with
  | GUARD =>
    rcases hD with rfl | rfl
    · exact guard2_enumerates hg fun d => by have := hG d; omega
    · exact guard3_enumerates hg fun d => by have := hG d; omega
  | BORDER =>
    rcases hD with rfl | rfl
    · exact border2_enumerates hb fun d => by have := hG d; omega
    · exact border3_enumerates hb fun d => by have := hG d; omega
  | CORE => exact enumerates_shift _
  | CORE_BORDER => exact enumerates_shift _
  | CORE_BORDER_GUARD =>
    exact Numbers.of_inverse id id (fun _ _ => rfl) (fun _ h => ⟨h, rfl⟩) fun _ h => ⟨h, rfl⟩

/-- Each supercell of the grid belongs to one of GUARD, BORDER and CORE. -/
theorem areas_partition (hg : 0 ≤ m.guardingSuperCells) (hb : 0 ≤ m.borderSuperCells) :
    (Disjoint m.guard m.border ∧ Disjoint m.guard m.core ∧ Disjoint m.border m.core) ∧
      m.guard ∪ m.border ∪ m.core = launchBox m.gridSuperCells := by
  have hbc : m.core ⊆ m.inner m.guardingSuperCells := MappingDescription.inner_anti (by omega)
  have hgb : m.inner m.guardingSuperCells ⊆ launchBox m.gridSuperCells := by
    rw [← m.inner_zero]
    exact MappingDescription.inner_anti hg
  have hcover : m.border ∪ m.core = m.inner m.guardingSuperCells := Set.sdiff_union_of_subset hbc
  refine ⟨⟨?_, ?_, ?_⟩, ?_⟩
  · exact Set.disjoint_left.mpr fun c h h' => h.2 h'.1
  · exact Set.disjoint_left.mpr fun c h h' => h.2 (hbc h')
  · exact Set.disjoint_left.mpr fun c h h' => h.2 h'
  · rw [Set.union_assoc, hcover, MappingDescription.guard, m.inner_zero]
    exact Set.sdiff_union_of_subset hgb

/-- With borders as wide as the guard and at least three guards of supercells inside it, each area is
enumerated by its mapping, and GUARD, BORDER and CORE share the grid. -/
theorem areaMappings_partition_grid (hD : D = 2 ∨ D = 3) (hg : 1 ≤ m.guardingSuperCells)
    (hb : m.borderSuperCells = m.guardingSuperCells)
    (hG : ∀ d, 3 * m.guardingSuperCells ≤ m.gridSuperCells d - 2 * m.guardingSuperCells) :
    (∀ area, Enumerates (areaMapping m area) (region m area)) ∧
      (Disjoint m.guard m.border ∧ Disjoint m.guard m.core ∧ Disjoint m.border m.core) ∧
      m.guard ∪ m.border ∪ m.core = launchBox m.gridSuperCells := by
  refine ⟨areaMapping_enumerates hD (by omega) (by omega) fun d => ?_, areas_partition (by omega) (by omega)⟩
  have := hG d
  omega

theorem areaMappings_partition_grid_five :
    1 ≤ (⟨fun _ => 5, 1, 1⟩ : MappingDescription 3).guardingSuperCells ∧
    ∀ area, Enumerates (areaMapping (⟨fun _ => 5, 1, 1⟩ : MappingDescription 3) area)
        (region ⟨fun _ => 5, 1, 1⟩ area) :=
  ⟨le_rfl, (areaMappings_partition_grid (m := (⟨fun _ => 5, 1, 1⟩ : MappingDescription 3)) (Or.inr rfl) le_rfl rfl
    fun _ => by norm_num).1⟩

end Areas

end AreaMapping

end PIConGPU
