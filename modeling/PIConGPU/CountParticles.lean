import PIConGPU.FixedWidth
import PIConGPU.ParticleRecords

/-!
# Counting the particles of a rank

A block walks through the frames of a supercell from the last to the first. It counts the slots that the size of the
last frame promises to be in use, and does not look at the masks.
-/
namespace PIConGPU

open ParticlesBox

variable {D : ℕ} {β : Type*}

/-- The blocks of a launch on CORE and BORDER work on the supercells of the area. -/
theorem sum_launches {cell : CellDescription D} {blocks : List (DataSpace D)}
    (h : (AreaMappingMethods.coreBorder cell.toMappingDescription).Launches blocks) {A : Type*} [AddCommMonoid A]
    (f : DataSpace D → A) :
    (blocks.map fun idx => f (cell.getSuperCellIndex idx)).sum = ∑ c ∈ cell.area, f c := by
  rw [← List.sum_toFinset _ h.1]
  refine Finset.sum_nbij' cell.getSuperCellIndex (fun c d => c d - cell.guardingSuperCells)
    (fun idx hidx => ?_) (fun c hc => ?_) (fun _ _ => ?_) (fun _ _ => ?_) fun _ _ => rfl
  · rw [List.mem_toFinset, h.2] at hidx
    refine CellDescription.mem_area.mpr fun d => ?_
    have := hidx d
    simp only [AreaMappingMethods.coreBorder, CellDescription.getSuperCellIndex] at this ⊢
    omega
  · rw [List.mem_toFinset, h.2]
    intro d
    have := CellDescription.mem_area.mp hc d
    simp only [AreaMappingMethods.coreBorder]
    omega
  · exact funext fun d => add_sub_cancel_right _ _
  · exact funext fun d => sub_add_cancel _ _

namespace KernelCountParticles

variable (cell : CellDescription D) (box : ParticlesBox D cell.cellsInSuperCell (Particle β)) (filter : PositionFilter D)

def counted (superCellIdx : DataSpace D) (frame : Ptr) (particlesInSuperCell : ℕ) : Finset (Fin cell.cellsInSuperCell) :=
  Finset.univ.filter fun t => t.val < particlesInSuperCell ∧
    filter.accepts cell (cell.superCellPosition superCellIdx) (box.attributes frame t) = true

/-- The loop over the frames, with a bound on the number of rounds. -/
def countFrames (superCellIdx : DataSpace D) : ℕ → Option Ptr → ℕ → ℤ → Option ℤ
  | _, none, _, counter => some counter
  | 0, some _, _, _ => none
  | n + 1, some frame, particlesInSuperCell, counter =>
    countFrames superCellIdx n (box.previousFrame frame) (cell.cellsInSuperCell % 65536)
      (i32 (counter + (counted cell box filter superCellIdx frame particlesInSuperCell).card))

/-- What a block adds to the counter of 64 bits. -/
def block (superCellIdx : DataSpace D) : Option ℕ :=
  (countFrames cell box filter superCellIdx box.allocated.card (box.lastFramePtr superCellIdx)
    (box.sizeLastFrame superCellIdx) 0).map fun counter => (counter % 2^64).toNat

end KernelCountParticles

namespace CountParticles

def countOnDevice (cell : CellDescription D) (box : ParticlesBox D cell.cellsInSuperCell (Particle β))
    (filter : PositionFilter D) (blocks : List (DataSpace D)) : Option ℕ :=
  blocks.foldlM (fun gCounter blockIdx => do
    let superCellIdx ← (AreaMappingMethods.coreBorder cell.toMappingDescription).getBlockIndex blockIdx
    let counter ← KernelCountParticles.block cell box filter superCellIdx
    return (gCounter + counter) % 2^64) 0

end CountParticles

namespace KernelCountParticles

variable {cell : CellDescription D} {box : ParticlesBox D cell.cellsInSuperCell (Particle β)}
  {L : DataSpace D → List Ptr} {c : DataSpace D}

/-- The window of a checkpoint. -/
def localDomainFilter (cell : CellDescription D) (filterActive : Bool) : PositionFilter D :=
  .setWindowPosition filterActive 0 cell.localDomainSize

variable (hcell : cell.Valid) (h : CompactState cell box L) (hc : c ∈ cell.area) (active : Bool)
include hcell h hc

theorem card_counted {p : Ptr} (hp : p ∈ L c) {k : ℕ} (hk : ∀ t, box.multiMask p t ≠ 0 ↔ t.val < k) :
    (counted cell box (localDomainFilter cell active) c p k).card =
      (FrameContents.particles (box.multiMask p) (box.attributes p) 1).card := by
  rw [FrameContents.particles, Multiset.card_map, Finset.card_val, counted]
  congr 1
  ext t
  have hle := h.multiMask_le c hc p hp t
  simp only [Finset.mem_filter, Finset.mem_univ, true_and]
  rw [← hk t]
  constructor
  · rintro ⟨hne, -⟩
    omega
  · intro hone
    exact ⟨by omega, PositionFilter.accepts_localDomain hcell hc (h.localCellIdx_lt c hc p hp t hone) active⟩

theorem countFrames_spec {l r : List Ptr} (hl : L c = l ++ r) {k : ℕ} (hfilled : Filled box l k) {n : ℕ}
    (hn : l.length ≤ n) (x : ℤ) :
    countFrames cell box (localDomainFilter cell active) c n l.getLast? k (i32 x) =
      some (i32 (x + (box.contents l 1).card)) := by
  induction l using List.reverseRecOn generalizing r k n x with
  | nil => cases n <;> simp [countFrames]
  | append_singleton l p ih =>
    obtain ⟨hfull, hlast⟩ := hfilled l p rfl
    obtain ⟨n, rfl⟩ : ∃ m, n = m + 1 := ⟨n - 1, by simp at hn; omega⟩
    have hLc : L c = l ++ p :: r := by simpa using hl
    have hprev := h.linked.previous c l p r hLc
    have hT : cell.cellsInSuperCell % 65536 = cell.cellsInSuperCell := Nat.mod_eq_of_lt (by have := hcell.cells_le; omega)
    rw [List.getLast?_append, List.getLast?_singleton, Option.some_or, countFrames,
      card_counted hcell h hc active (by simp [hLc]) hlast, hprev, hT, i32_add, ih hLc (filled_of_full hfull)
      (by simpa using hn), contents_append, Multiset.card_add, contents_cons, contents_nil, add_zero]
    push_cast
    rw [add_right_comm, add_assoc]

theorem block_spec : block cell box (localDomainFilter cell active) c =
    some (i32 (box.contents (L c) 1).card % 2^64).toNat := by
  have hspec := countFrames_spec hcell h hc active (List.append_nil _).symm (h.compact c hc).filled
    (h.linked.length_le c) 0
  rw [zero_add] at hspec
  rw [block, h.linked.last, show (0 : ℤ) = i32 0 from rfl, hspec]
  rfl

end KernelCountParticles

namespace CountParticles

variable {cell : CellDescription D} {box : ParticlesBox D cell.cellsInSuperCell (Particle β)}
  {L : DataSpace D → List Ptr} (hcell : cell.Valid) (h : CompactState cell box L) (active : Bool)
  {blocks : List (DataSpace D)}
include hcell h

theorem foldlM_count (hN : numParticles cell box L < 2^31) (hmem : ∀ idx ∈ blocks,
    cell.getSuperCellIndex idx ∈ cell.area) (g : ℕ) (hg : g + (blocks.map fun idx =>
      (box.contents (L (cell.getSuperCellIndex idx)) 1).card).sum < 2^31) :
    blocks.foldlM (fun gCounter blockIdx => do
      let superCellIdx ← (AreaMappingMethods.coreBorder cell.toMappingDescription).getBlockIndex blockIdx
      let counter ← KernelCountParticles.block cell box (KernelCountParticles.localDomainFilter cell active) superCellIdx
      return (gCounter + counter) % 2^64) g =
      some (g + (blocks.map fun idx => (box.contents (L (cell.getSuperCellIndex idx)) 1).card).sum) := by
  induction blocks generalizing g with
  | nil => simp
  | cons idx blocks ih =>
    have hc := hmem idx (List.mem_cons_self ..)
    have hle : (box.contents (L (cell.getSuperCellIndex idx)) 1).card ≤ numParticles cell box L :=
      Finset.single_le_sum (f := fun c => (box.contents (L c) 1).card) (fun _ _ => Nat.zero_le _) hc
    rw [List.map_cons, List.sum_cons] at hg ⊢
    have hcount : (i32 (box.contents (L (cell.getSuperCellIndex idx)) 1).card % 2^64).toNat =
        (box.contents (L (cell.getSuperCellIndex idx)) 1).card := by
      rw [i32_eq (by omega) (by omega)]
      omega
    rw [List.foldlM_cons]
    simp only [cell.getBlockIndex_eq, KernelCountParticles.block_spec hcell h hc active,
      Option.bind_eq_bind, Option.bind_some, hcount, Option.pure_def]
    have hmod : (g + (box.contents (L (cell.getSuperCellIndex idx)) 1).card) % 2^64 =
        g + (box.contents (L (cell.getSuperCellIndex idx)) 1).card := Nat.mod_eq_of_lt (by omega)
    rw [hmod, ← add_assoc]
    exact ih (fun i hi => hmem i (List.mem_cons_of_mem _ hi)) _ (by omega)

/-- A rank with less than 2^31 particles is counted. -/
theorem countOnDevice_spec (hN : numParticles cell box L < 2^31)
    (hblocks : (AreaMappingMethods.coreBorder cell.toMappingDescription).Launches blocks) :
    countOnDevice cell box (KernelCountParticles.localDomainFilter cell active) blocks =
      some (numParticles cell box L) := by
  have hsum := sum_launches hblocks fun c => (box.contents (L c) 1).card
  have hmem : ∀ idx ∈ blocks, cell.getSuperCellIndex idx ∈ cell.area := fun idx hidx => by
    have hbox := (hblocks.2 idx).mp hidx
    refine CellDescription.mem_area.mpr fun d => ?_
    have := hbox d
    simp only [AreaMappingMethods.coreBorder, CellDescription.getSuperCellIndex] at this ⊢
    omega
  have hfold := foldlM_count hcell h active hN hmem 0 (by rw [zero_add, hsum]; exact hN)
  rw [zero_add, hsum] at hfold
  exact hfold

end CountParticles

end PIConGPU
