import PIConGPU.FillGaps
import PIConGPU.ShiftSupercell

/-!
# ParticlesBase::shiftParticles

The supercells of CORE and BORDER are visited in phases with a stride of three in every dimension.
A phase runs three kernels; the blocks of one kernel run in any order.
-/
namespace PIConGPU

open BlockThreads ParticlesBox

variable {D T : ℕ} {α : Type*}

structure MappingDesc (D : ℕ) where
  gridSuperCells : DataSpace D
  guardingSuperCells : ℤ

namespace StrideMapping

/-- The mapper over CORE and BORDER has the stride three. A phase is given by its offset. -/
def getGridDim (mapper : MappingDesc D) (offset : DataSpace D) : DataSpace D := fun d =>
  (mapper.gridSuperCells d - 2 * mapper.guardingSuperCells - offset d + 3 - 1) / 3

def getSuperCellIndex (mapper : MappingDesc D) (offset realSuperCellIdx : DataSpace D) : DataSpace D := fun d =>
  realSuperCellIdx d * 3 + offset d + mapper.guardingSuperCells

def next (offset : DataSpace D) : Option (DataSpace D) :=
  let linearOffset : ℤ := (∑ d, offset d * 3^d.val) + 1
  if linearOffset < 3^D then some fun d => linearOffset / 3^d.val % 3 else none

def inArea (mapper : MappingDesc D) (c : DataSpace D) : Prop :=
  ∀ d, mapper.guardingSuperCells ≤ c d ∧ c d < mapper.gridSuperCells d - mapper.guardingSuperCells

def phaseOffset (D k : ℕ) : DataSpace D := fun d => ((k / 3^d.val % 3 : ℕ) : ℤ)

theorem sum_digits (k n : ℕ) : ∑ d ∈ Finset.range n, k / 3^d % 3 * 3^d = k % 3^n := by
  induction n with
  | zero => simp [Nat.mod_one]
  | succ n ih => rw [Finset.sum_range_succ, ih, Nat.mod_pow_succ, Nat.mul_comm]

theorem sum_phaseOffset {k : ℕ} (hk : k < 3^D) : ∑ d, phaseOffset D k d * 3^d.val = (k : ℤ) := by
  have h := sum_digits k D
  rw [Nat.mod_eq_of_lt hk, ← Fin.sum_univ_eq_sum_range fun d => k / 3^d % 3 * 3^d] at h
  have hcast : ((∑ d : Fin D, k / 3^d.val % 3 * 3^d.val : ℕ) : ℤ) = (k : ℤ) := congrArg _ h
  simpa [phaseOffset] using hcast

theorem next_phaseOffset {k : ℕ} (hk : k < 3^D) :
    next (phaseOffset D k) = if k + 1 < 3^D then some (phaseOffset D (k + 1)) else none := by
  unfold next
  rw [sum_phaseOffset hk]
  dsimp only
  have hiff : ((k : ℤ) + 1 < 3^D) ↔ k + 1 < 3^D := by exact_mod_cast Iff.rfl
  by_cases hlt : k + 1 < 3^D
  · rw [if_pos (hiff.mpr hlt), if_pos hlt]
    congr 1
  · rw [if_neg fun h => hlt (hiff.mp h), if_neg hlt]

theorem phaseOffset_zero (D : ℕ) : phaseOffset D 0 = 0 := by
  funext d
  simp [phaseOffset]

theorem exists_block_iff (mapper : MappingDesc D) {offset : DataSpace D} (h0 : ∀ d, 0 ≤ offset d ∧ offset d < 3)
    (c : DataSpace D) :
    (∃ idx, (∀ d, 0 ≤ idx d ∧ idx d < getGridDim mapper offset d) ∧ getSuperCellIndex mapper offset idx = c) ↔
      inArea mapper c ∧ ∀ d, (c d - mapper.guardingSuperCells) % 3 = offset d := by
  constructor
  · rintro ⟨idx, hidx, rfl⟩
    refine ⟨fun d => ?_, fun d => ?_⟩
    · have := hidx d
      have := h0 d
      simp only [getGridDim] at *
      simp only [getSuperCellIndex]
      omega
    · have := h0 d
      simp only [getSuperCellIndex]
      omega
  · rintro ⟨harea, hmod⟩
    refine ⟨fun d => (c d - mapper.guardingSuperCells) / 3, fun d => ?_, ?_⟩
    · have h1 := harea d
      have h2 := hmod d
      have h3 := h0 d
      simp only [getGridDim]
      omega
    · funext d
      have := hmod d
      simp only [getSuperCellIndex]
      omega

theorem getSuperCellIndex_injective (mapper : MappingDesc D) (offset : DataSpace D) :
    Function.Injective (getSuperCellIndex mapper offset) := by
  intro a b h
  funext d
  have := congrFun h d
  simp only [getSuperCellIndex] at this
  omega

/-- Every supercell of the area belongs to one phase. -/
theorem exists_phase (mapper : MappingDesc D) (c : DataSpace D) :
    ∃ k < 3^D, ∀ d, (c d - mapper.guardingSuperCells) % 3 = phaseOffset D k d := by
  have hlt : ∀ d, ((c d - mapper.guardingSuperCells) % 3).toNat < 3 := fun d => by omega
  obtain ⟨k, hk, hdigit⟩ := RowMajor.exists_digits fun d => ⟨((c d - mapper.guardingSuperCells) % 3).toNat, hlt d⟩
  refine ⟨k, hk, fun d => ?_⟩
  simp only [phaseOffset, hdigit d]
  omega

/-- Two supercells of one phase are not neighbours. -/
theorem not_neighbor (mapper : MappingDesc D) {c c' : DataSpace D}
    (h : ∀ d, (c d - mapper.guardingSuperCells) % 3 = (c' d - mapper.guardingSuperCells) % 3) {j : ℕ}
    (hj : j + 1 < numberOfExchanges D) : KernelShiftParticles.relative c j ≠ c' := by
  rintro rfl
  refine KernelShiftParticles.relative_ne_own c hj (funext fun d => ?_)
  have hd := h d
  have hoff := getRelativeDirections_cases D (j + 1) d
  simp only [KernelShiftParticles.relative, Pi.add_apply] at hd ⊢
  omega

end StrideMapping

/-- The orders of the blocks of the three kernels of a phase and of the threads in each block. -/
structure PhaseSchedule (D T : ℕ) where
  shiftBlocks : List (DataSpace D)
  shiftOrder : DataSpace D → ℕ → Equiv.Perm (Fin T)
  gapsBlocks : List (DataSpace D)
  gapsOrder : DataSpace D → ℕ → Equiv.Perm (Fin T) × Equiv.Perm (Fin T)
  lastBlocks : List (DataSpace D)
  lastOrder : DataSpace D → Equiv.Perm (Fin T) × Equiv.Perm (Fin T) × Equiv.Perm (Fin T)

/-- Every block of a kernel runs once. -/
def Launches (mapper : MappingDesc D) (offset : DataSpace D) (blocks : List (DataSpace D)) : Prop :=
  blocks.Nodup ∧ ∀ idx, idx ∈ blocks ↔ ∀ d, 0 ≤ idx d ∧ idx d < StrideMapping.getGridDim mapper offset d

structure PhaseSchedule.Valid (mapper : MappingDesc D) (offset : DataSpace D) (sched : PhaseSchedule D T) :
    Prop where
  shiftBlocks : Launches mapper offset sched.shiftBlocks
  gapsBlocks : Launches mapper offset sched.gapsBlocks
  lastBlocks : Launches mapper offset sched.lastBlocks

namespace ParticlesBase

open StrideMapping

variable (M : MallocMC) (mapper : MappingDesc D)

def runShift (sched : PhaseSchedule D T) (offset : DataSpace D) (blocks : List (DataSpace D))
    (box : ParticlesBox D T α) : Option (ParticlesBox D T α) :=
  blocks.foldlM (fun box idx =>
    KernelShiftParticles.block M (sched.shiftOrder idx) box (getSuperCellIndex mapper offset idx)) box

def runFillGaps (sched : PhaseSchedule D T) (offset : DataSpace D) (box : ParticlesBox D T α) :
    Option (ParticlesBox D T α) :=
  sched.gapsBlocks.foldlM (fun box idx =>
    KernelFillGaps.block (sched.gapsOrder idx) box (getSuperCellIndex mapper offset idx)) box

def runFillGapsLastFrame (sched : PhaseSchedule D T) (offset : DataSpace D) (box : ParticlesBox D T α) :
    Option (ParticlesBox D T α) :=
  sched.lastBlocks.foldlM (fun box idx =>
    KernelFillGapsLastFrame.block (sched.lastOrder idx) box (getSuperCellIndex mapper offset idx)) box

def runPhase (sched : PhaseSchedule D T) (offset : DataSpace D) (box : ParticlesBox D T α) :
    Option (ParticlesBox D T α) := do
  let box ← runShift M mapper sched offset sched.shiftBlocks box
  let box ← runFillGaps mapper sched offset box
  runFillGapsLastFrame mapper sched offset box

/-- The loop over the phases, with a bound on their number. -/
def runPhases (sched : DataSpace D → PhaseSchedule D T) :
    ℕ → DataSpace D → ParticlesBox D T α → Option (ParticlesBox D T α)
  | 0, _, _ => none
  | n + 1, offset, box => do
    let box ← runPhase M mapper (sched offset) offset box
    match next offset with
    | none => some box
    | some offset => runPhases sched n offset box

def shiftParticles (sched : DataSpace D → PhaseSchedule D T) (box : ParticlesBox D T α) :
    Option (ParticlesBox D T α) :=
  runPhases M mapper sched (3^D) 0 box

end ParticlesBase

end PIConGPU
