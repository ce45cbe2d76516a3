import PIConGPU.AreaMapping
import PIConGPU.SupercellContents

/-!
# Particles as records of a file

On a device a particle lies in a supercell and knows its cell there. In a file it knows its cell in the domain
of all ranks.
-/
namespace PIConGPU

structure Particle (β : Type*) where
  localCellIdx : ℕ
  attributes : β

structure Record (D : ℕ) (β : Type*) where
  globalCellIdx : DataSpace D
  attributes : β

/-- The grid of supercells of a rank, and the extent of a supercell. -/
structure CellDescription (D : ℕ) extends MappingDescription D where
  superCellSize : Fin D → ℕ

namespace CellDescription

variable {D : ℕ} {β : Type*} (cell : CellDescription D)

def cellsInSuperCell : ℕ := ∏ d, cell.superCellSize d

def size : DataSpace D := fun d => cell.superCellSize d

def superCellPosition (superCell : DataSpace D) : DataSpace D := fun d =>
  (superCell d - cell.guardingSuperCells) * cell.size d

def localDomainSize : DataSpace D := fun d => (cell.gridSuperCells d - 2 * cell.guardingSuperCells) * cell.size d

def superCellsCount : DataSpace D := fun d => cell.gridSuperCells d - cell.guardingSuperCells * 2

def area : Finset (DataSpace D) := Fintype.piFinset fun d =>
  (Finset.range (cell.gridSuperCells d - 2 * cell.guardingSuperCells).toNat).image fun i : ℕ =>
    (i + cell.guardingSuperCells : ℤ)

def getSuperCellIndex (blockIdx : DataSpace D) : DataSpace D := fun d => blockIdx d + cell.guardingSuperCells

theorem getBlockIndex_eq (blockIdx : DataSpace D) :
    (AreaMappingMethods.coreBorder cell.toMappingDescription).getBlockIndex blockIdx =
      some (cell.getSuperCellIndex blockIdx) := rfl

def localCell (particle : Particle β) : DataSpace D := DataSpaceOperations.unmap cell.size particle.localCellIdx

def toRecord (particleOffset superCell : DataSpace D) (particle : Particle β) : Record D β :=
  ⟨particleOffset + cell.superCellPosition superCell + cell.localCell particle, particle.attributes⟩

section Loading

variable (localDomainCellOffset : DataSpace D) (record : Record D β)

def superCellIdx : DataSpace D := fun d =>
  (record.globalCellIdx d - localDomainCellOffset d).tdiv (cell.size d)

def linearSuperCellId : ℤ :=
  DataSpaceOperations.map cell.superCellsCount (cell.superCellIdx localDomainCellOffset record)

def lCellIdx : ℕ :=
  (DataSpaceOperations.map cell.size (fun d => record.globalCellIdx d - localDomainCellOffset d -
    cell.superCellIdx localDomainCellOffset record d * cell.size d) % 65536).toNat

def target : DataSpace D := fun d => cell.superCellIdx localDomainCellOffset record d + cell.guardingSuperCells

def toParticle : Particle β := ⟨cell.lCellIdx localDomainCellOffset record, record.attributes⟩

end Loading

/-- A simulation in two or three dimensions; there are supercells within the guard, and the number of a cell fits
its type. -/
structure Valid : Prop where
  dim : D = 2 ∨ D = 3
  guard_nonneg : 0 ≤ cell.guardingSuperCells
  grid_pos : ∀ d, 2 * cell.guardingSuperCells < cell.gridSuperCells d
  size_pos : ∀ d, 0 < cell.superCellSize d
  cells_le : cell.cellsInSuperCell ≤ 65535

variable {cell} {c offset : DataSpace D} {particle : Particle β}

theorem mem_area : c ∈ cell.area ↔
    ∀ d, cell.guardingSuperCells ≤ c d ∧ c d < cell.gridSuperCells d - cell.guardingSuperCells := by
  simp only [area, Fintype.mem_piFinset, Finset.mem_image, Finset.mem_range]
  refine forall_congr' fun d => ⟨?_, fun hd => ⟨(c d - cell.guardingSuperCells).toNat, ?_, ?_⟩⟩
  · rintro ⟨i, hi, he⟩
    omega
  · omega
  · omega

theorem prod_size : ∏ d, cell.size d = cell.cellsInSuperCell := by
  simp [size, cellsInSuperCell]

theorem localDomainSize_pos (hgrid : ∀ d, 2 * cell.guardingSuperCells < cell.gridSuperCells d)
    (hsize : ∀ d, 0 < cell.superCellSize d) (d : Fin D) : 0 < cell.localDomainSize d :=
  mul_pos (by have := hgrid d; omega) (Int.natCast_pos.mpr (hsize d))

theorem superCellPosition_add_mem (hc : c ∈ cell.area) {x : DataSpace D} (hx : x ∈ launchBox cell.size) :
    cell.superCellPosition c + x ∈ launchBox cell.localDomainSize := by
  intro d
  obtain ⟨hlo, hhi⟩ := mem_area.mp hc d
  obtain ⟨h0, h1⟩ := hx d
  have hle : (c d - cell.guardingSuperCells + 1) * cell.size d ≤
      (cell.gridSuperCells d - 2 * cell.guardingSuperCells) * cell.size d :=
    mul_le_mul_of_nonneg_right (by omega) (h0.trans h1.le)
  have hge : 0 ≤ (c d - cell.guardingSuperCells) * cell.size d := mul_nonneg (by omega) (h0.trans h1.le)
  simp only [Pi.add_apply, superCellPosition, localDomainSize]
  constructor <;> linarith

theorem superCellPosition_add_inj {c' x x' : DataSpace D} (hx : x ∈ launchBox cell.size)
    (hx' : x' ∈ launchBox cell.size) (h : cell.superCellPosition c + x = cell.superCellPosition c' + x') :
    c = c' ∧ x = x' := by
  have hcell : ∀ d, c d = c' d := fun d => by
    obtain ⟨h0, h1⟩ := hx d
    obtain ⟨h0', h1'⟩ := hx' d
    have hsize : cell.size d ≠ 0 := by omega
    have hd : x d + (c d - cell.guardingSuperCells) * cell.size d =
        x' d + (c' d - cell.guardingSuperCells) * cell.size d := by
      have hd := congrFun h d
      simp only [Pi.add_apply, superCellPosition] at hd
      linarith
    have hdiv := congrArg (· / cell.size d) hd
    simp only [Int.add_mul_ediv_right _ _ hsize, Int.ediv_eq_zero_of_lt h0 h1, Int.ediv_eq_zero_of_lt h0' h1'] at hdiv
    omega
  obtain rfl : c = c' := funext hcell
  exact ⟨rfl, add_left_cancel h⟩

theorem exists_superCellPosition_add (hsize : ∀ d, 0 < cell.superCellSize d) {x : DataSpace D}
    (hx : x ∈ launchBox cell.localDomainSize) :
    ∃ c ∈ cell.area, ∃ y ∈ launchBox cell.size, cell.superCellPosition c + y = x := by
  have hpos : ∀ d, 0 < cell.size d := fun d => Int.natCast_pos.mpr (hsize d)
  refine ⟨fun d => x d / cell.size d + cell.guardingSuperCells, mem_area.mpr fun d => ?_,
    fun d => x d % cell.size d, fun d => ⟨Int.emod_nonneg _ (hpos d).ne', Int.emod_lt_of_pos _ (hpos d)⟩, ?_⟩
  · obtain ⟨h0, h1⟩ := hx d
    have hlo := Int.ediv_nonneg h0 (hpos d).le
    have hhi : x d / cell.size d < cell.gridSuperCells d - 2 * cell.guardingSuperCells :=
      Int.ediv_lt_of_lt_mul (hpos d) h1
    omega
  · funext d
    simp only [Pi.add_apply, superCellPosition, add_sub_cancel_right]
    exact Int.ediv_mul_add_emod _ _

variable (h : cell.Valid)
include h

theorem Valid.cells_pos : 0 < cell.cellsInSuperCell := Finset.prod_pos fun d _ => h.size_pos d

theorem Valid.localCell_mem (hp : particle.localCellIdx < cell.cellsInSuperCell) :
    cell.localCell particle ∈ launchBox cell.size :=
  DataSpaceOperations.unmap_mem h.dim (fun d => Int.natCast_pos.mpr (h.size_pos d)) (by positivity)
    (by rw [prod_size]; exact_mod_cast hp)

theorem Valid.cell_mem (hc : c ∈ cell.area) (hp : particle.localCellIdx < cell.cellsInSuperCell) (d : Fin D) :
    0 ≤ cell.superCellPosition c d + cell.localCell particle d ∧
      cell.superCellPosition c d + cell.localCell particle d < cell.localDomainSize d :=
  superCellPosition_add_mem hc (h.localCell_mem hp) d

/-- Loading undoes saving. -/
theorem Valid.superCellIdx_toRecord (hc : c ∈ cell.area) (hp : particle.localCellIdx < cell.cellsInSuperCell)
    (d : Fin D) : cell.superCellIdx offset (cell.toRecord offset c particle) d = c d - cell.guardingSuperCells := by
  obtain ⟨h0, h1⟩ := h.localCell_mem hp d
  have hcell : (cell.toRecord offset c particle).globalCellIdx d - offset d =
      cell.localCell particle d + (c d - cell.guardingSuperCells) * cell.size d := by
    simp only [toRecord, superCellPosition, Pi.add_apply]
    ring
  have hnonneg := (h.cell_mem hc hp d).1
  simp only [superCellPosition] at hnonneg
  rw [superCellIdx, hcell, Int.tdiv_eq_ediv_of_nonneg (by linarith), Int.add_mul_ediv_right _ _ (by omega),
    Int.ediv_eq_zero_of_lt h0 h1, zero_add]

theorem Valid.target_toRecord (hc : c ∈ cell.area) (hp : particle.localCellIdx < cell.cellsInSuperCell) :
    cell.target offset (cell.toRecord offset c particle) = c := by
  funext d
  rw [target, h.superCellIdx_toRecord hc hp, sub_add_cancel]

theorem Valid.toParticle_toRecord (hc : c ∈ cell.area) (hp : particle.localCellIdx < cell.cellsInSuperCell) :
    cell.toParticle offset (cell.toRecord offset c particle) = particle := by
  have hlocal : (fun d => (cell.toRecord offset c particle).globalCellIdx d - offset d -
      cell.superCellIdx offset (cell.toRecord offset c particle) d * cell.size d) = cell.localCell particle := by
    funext d
    rw [h.superCellIdx_toRecord hc hp]
    simp only [toRecord, superCellPosition, Pi.add_apply]
    ring
  have hmod : (particle.localCellIdx : ℤ) % 65536 = particle.localCellIdx := by
    have := h.cells_le
    omega
  rw [toParticle, lCellIdx, hlocal, localCell, DataSpaceOperations.map_unmap h.dim, hmod]
  rfl

/-- Records of one linear supercell belong to one supercell. -/
theorem Valid.target_eq {c' : DataSpace D} {particle' : Particle β} (hc : c ∈ cell.area) (hc' : c' ∈ cell.area)
    (hp : particle.localCellIdx < cell.cellsInSuperCell) (hp' : particle'.localCellIdx < cell.cellsInSuperCell)
    (heq : cell.linearSuperCellId offset (cell.toRecord offset c particle) =
      cell.linearSuperCellId offset (cell.toRecord offset c' particle')) : c = c' := by
  have hmem : ∀ {c : DataSpace D} {particle : Particle β}, c ∈ cell.area →
      particle.localCellIdx < cell.cellsInSuperCell →
      cell.superCellIdx offset (cell.toRecord offset c particle) ∈ launchBox cell.superCellsCount := by
    intro c particle hc hp d
    have hd := mem_area.mp hc d
    rw [h.superCellIdx_toRecord hc hp]
    simp only [superCellsCount]
    omega
  have hidx := congrArg (DataSpaceOperations.unmap cell.superCellsCount) heq
  rw [linearSuperCellId, linearSuperCellId, DataSpaceOperations.unmap_map h.dim (hmem hc hp),
    DataSpaceOperations.unmap_map h.dim (hmem hc' hp')] at hidx
  funext d
  have hd := congrFun hidx d
  rw [h.superCellIdx_toRecord hc hp, h.superCellIdx_toRecord hc' hp'] at hd
  omega

end CellDescription

/-- The cells that a filter lets through when it is switched on. -/
structure PositionFilter (D : ℕ) where
  filterActive : Bool
  offset : DataSpace D
  max : DataSpace D

namespace PositionFilter

variable {D : ℕ} {β : Type*}

def setWindowPosition (filterActive : Bool) (offset size : DataSpace D) : PositionFilter D :=
  ⟨filterActive, offset, offset + size⟩

/-- The filter for a particle, with the position of the supercell that was set before. -/
def accepts (filter : PositionFilter D) (cell : CellDescription D) (superCellPosition : DataSpace D)
    (particle : Particle β) : Bool :=
  !filter.filterActive || decide (∀ d, filter.offset d ≤ superCellPosition d + cell.localCell particle d ∧
    superCellPosition d + cell.localCell particle d < filter.max d)

/-- With the whole local domain as window the filter lets every particle through, whichever supercell was set. -/
theorem accepts_localDomain {cell : CellDescription D} (h : cell.Valid) {c : DataSpace D} (hc : c ∈ cell.area)
    {particle : Particle β} (hp : particle.localCellIdx < cell.cellsInSuperCell) (active : Bool) :
    (setWindowPosition active 0 cell.localDomainSize).accepts cell (cell.superCellPosition c) particle = true := by
  simp only [accepts, setWindowPosition, Pi.zero_apply, zero_add, Bool.or_eq_true, decide_eq_true_eq]
  exact .inr (h.cell_mem hc hp)

end PositionFilter

open ParticlesBox

variable {D : ℕ} {β : Type*}

/-- The frames of the supercells of CORE and BORDER between two steps: every supercell is compact, no particle is
marked to leave its supercell, and every particle is in a cell of its supercell. -/
structure CompactState (cell : CellDescription D) (box : ParticlesBox D cell.cellsInSuperCell (Particle β))
    (L : DataSpace D → List Ptr) : Prop where
  linked : Linked box L
  compact : ∀ c ∈ cell.area, Compact box (L c) (box.sizeLastFrame c)
  multiMask_le : ∀ c ∈ cell.area, ∀ p ∈ L c, ∀ t, box.multiMask p t ≤ 1
  localCellIdx_lt : ∀ c ∈ cell.area, ∀ p ∈ L c, ∀ t, box.multiMask p t = 1 →
    (box.attributes p t).localCellIdx < cell.cellsInSuperCell

def superCellRecords (cell : CellDescription D) (particleOffset : DataSpace D)
    (box : ParticlesBox D cell.cellsInSuperCell (Particle β)) (L : DataSpace D → List Ptr) (c : DataSpace D) :
    Multiset (Record D β) :=
  (box.contents (L c) 1).map (cell.toRecord particleOffset c)

def records (cell : CellDescription D) (particleOffset : DataSpace D)
    (box : ParticlesBox D cell.cellsInSuperCell (Particle β)) (L : DataSpace D → List Ptr) : Multiset (Record D β) :=
  ∑ c ∈ cell.area, superCellRecords cell particleOffset box L c

def numParticles (cell : CellDescription D) (box : ParticlesBox D cell.cellsInSuperCell (Particle β))
    (L : DataSpace D → List Ptr) : ℕ :=
  ∑ c ∈ cell.area, (box.contents (L c) 1).card

theorem card_records (cell : CellDescription D) (particleOffset : DataSpace D)
    (box : ParticlesBox D cell.cellsInSuperCell (Particle β)) (L : DataSpace D → List Ptr) :
    (records cell particleOffset box L).card = numParticles cell box L := by
  simp [records, numParticles, superCellRecords, Multiset.card_sum]

end PIConGPU
