import PIConGPU.AreaMapping
import PIConGPU.HaloExchange
import PIConGPU.StagedProcesses
import PIConGPU.YeeSolver

/-!
# The field solver on a decomposed grid

Every rank advances the fields of its local domain. While the guard of a field is exchanged, the other
field is advanced in the CORE, which does not read the guard. The BORDER follows when the exchange is
over.
-/
namespace PIConGPU.YeeDecomposition

open GridBuffer HaloExchange StagedProcesses YeeSolver

inductive EMField
  | E
  | B
  deriving DecidableEq, Repr

/-- The field whose curl advances a field. -/
def EMField.other : EMField → EMField
  | .E => .B
  | .B => .E

/-- A kernel and an exchange that may overlap. -/
structure Stage where
  kernel : Option (EMField × MappingArea)
  exchange : Option EMField

/-- The exchange of B starts before the kernel on the CORE, and the kernel on the BORDER waits for both. -/
def update_beforeCurrent : List Stage :=
  [⟨some (.B, .CORE_BORDER), none⟩, ⟨some (.E, .CORE), some .B⟩, ⟨some (.E, .BORDER), none⟩]

/-- Absorber and laser are off. -/
def update_afterCurrent : List Stage :=
  [⟨some (.B, .CORE), some .E⟩, ⟨some (.B, .BORDER), none⟩, ⟨none, some .B⟩]

def step : List Stage := update_beforeCurrent ++ update_afterCurrent

/-- The stages of `n` time steps. -/
def stageAt (n k : ℕ) : Option Stage := if k < n * step.length then step[k % step.length]? else none

def kernelAt (n k : ℕ) : Option (EMField × MappingArea) := (stageAt n k).bind Stage.kernel

def exchangeAt (n k : ℕ) : Option EMField := (stageAt n k).bind Stage.exchange

abbrev Cell (d : ℕ) := EMField × DataSpace (d + 2)

def kernelValue {d : ℕ} (u : FieldUnits) : EMField → DataSpace (d + 2) → (Cell d → Fin 3 → ℚ) → Fin 3 → ℚ
  | .E, x, mem => kernelUpdateE u (fun y => mem (.E, y)) (fun y => mem (.B, y)) x
  | .B, x, mem => kernelUpdateBHalf u (fun y => mem (.B, y)) (fun y => mem (.E, y)) x

/-- A grid of ranks with equal local domains, each with the exchanges of both fields. -/
structure Domain (d : ℕ) where
  g : ProcessGrid (d + 2)
  comm : ℕ → Communicator (d + 2)
  cellDescription : MappingDescription (d + 2)
  superCellSize : DataSpace (d + 2)
  buffer : EMField → ℕ → GridBuffer (d + 2)
  originGuard : EMField → DataSpace (d + 2)
  endGuard : EMField → DataSpace (d + 2)
  communicationTag : EMField → ℕ

namespace Domain

variable {d : ℕ} (D : Domain d)

def localSize : DataSpace (d + 2) := fun j =>
  (D.cellDescription.gridSuperCells j - 2 * D.cellDescription.guardingSuperCells) * D.superCellSize j

def guard : DataSpace (d + 2) := fun j => D.cellDescription.guardingSuperCells * D.superCellSize j

abbrev gridLayout : GridLayout (d + 2) := ⟨D.localSize, D.guard⟩

abbrev globalSize : DataSpace (d + 2) := HaloExchange.globalSize D.g fun j _ => D.localSize j

abbrev globalCell (r : ℕ) (x : DataSpace (d + 2)) : DataSpace (d + 2) :=
  HaloExchange.globalCell D.comm (fun j _ => D.localSize j) D.guard r x

def threadCell (area : MappingArea) (t : DataSpace (d + 2) × DataSpace (d + 2)) : Option (DataSpace (d + 2)) :=
  ((areaMapping D.cellDescription area).getBlockIndex t.1).map fun block j => block j * D.superCellSize j + t.2 j

def threads (area : MappingArea) : Finset (DataSpace (d + 2) × DataSpace (d + 2)) :=
  (boxCells (areaMapping D.cellDescription area).getGridDim).toFinset ×ˢ
    (boxCells D.superCellSize).toFinset

def port (F : EMField) (p : MessagePassing.Post ℕ (DataSpace (d + 2))) : Port ℕ (Cell d) :=
  ⟨p.peer, p.tag, p.cells.map (Prod.mk F)⟩

/-- What each rank does in `n` time steps. The threads of a kernel run in any order. -/
def program (u : FieldUnits) (n : ℕ) :
    Program ℕ (Cell d) (Fin 3 → ℚ) (DataSpace (d + 2) × DataSpace (d + 2)) ℕ where
  length := n * step.length
  tasks k _ := (kernelAt n k).elim ∅ fun kernel => D.threads kernel.2
  write k _ t c := do
    let (F, area) ← kernelAt n k
    let x ← D.threadCell area t
    if c = (F, x) then some (kernelValue u F x) else none
  sends k r := (exchangeAt n k).elim ∅ fun F => (sendDirections (D.comm r) (D.buffer F r)).toFinset
  send k r ex := (exchangeAt n k).elim ⟨0, 0, []⟩ fun F => port F (startSend (D.comm r) (D.buffer F r) r ex)
  receives k r := (exchangeAt n k).elim ∅ fun F => (receiveDirections (D.comm r) (D.buffer F r)).toFinset
  receive k r ex := (exchangeAt n k).elim ⟨0, 0, []⟩ fun F => port F (startReceive (D.comm r) (D.buffer F r) r ex)

/-- All boundaries are periodic, the local domains are wider than the guard on both sides, and the margins of
the exchanges contain those of the curls. -/
structure Valid (slides : ℕ) : Prop where
  periodic : ∀ j, D.g.periodic j = true
  superCellSize_pos : ∀ j, 0 < D.superCellSize j
  guardingSuperCells_pos : 1 ≤ D.cellDescription.guardingSuperCells
  border_eq : D.cellDescription.borderSuperCells = D.cellDescription.guardingSuperCells
  extent : ∀ j, 2 * D.cellDescription.guardingSuperCells <
    D.cellDescription.gridSuperCells j - 2 * D.cellDescription.guardingSuperCells
  setup : ∀ F, Setup D.g D.comm (D.buffer F) (fun j _ => D.localSize j) D.guard slides (D.originGuard F) (D.endGuard F)
    (D.communicationTag F)
  lowerMargin : ∀ j, 1 ≤ D.originGuard .B j
  upperMargin : ∀ j, 1 ≤ D.endGuard .E j

end Domain

def solve {D : ℕ} {size : DataSpace D} (u : FieldUnits) (f : Fields size) (n : ℕ) : Fields size :=
  (fun f => (f.update_beforeCurrent u).update_afterCurrent u)^[n] f

def component {D : ℕ} {size : DataSpace D} (f : Fields size) : EMField → PeriodicField size
  | .E => f.E
  | .B => f.B

/-- The ranks hold the global fields in their interior, and their guards agree with the neighbors. -/
structure Domain.Holds {d : ℕ} (D : Domain d) (f : Fields D.globalSize) (mem : ℕ → Cell d → Fin 3 → ℚ) : Prop where
  interior : ∀ r < D.g.size, ∀ F x, Interior D.gridLayout x → mem r (F, x) = (component f F).value (D.globalCell r x)
  guard : ∀ r < D.g.size, ∀ F i x, 1 ≤ i → i < numberOfExchanges (d + 2) →
    InHalo D.gridLayout (D.originGuard F) (D.endGuard F) i x → ∃ (r' : ℕ) (x' : DataSpace (d + 2)),
      r' < D.g.size ∧ (D.comm r).ranks i = r' ∧ Interior D.gridLayout x' ∧
        (∀ j, D.globalCell r' x' j ≡ D.globalCell r x j [ZMOD D.globalSize j]) ∧ mem r (F, x) = mem r' (F, x')

namespace Domain

variable {d : ℕ} {D : Domain d}

section Areas

variable {slides : ℕ} (h : D.Valid slides)

variable (D) in
def areaCells (area : MappingArea) : Set (DataSpace (d + 2)) :=
  {x | (fun j => x j / D.superCellSize j) ∈ AreaMapping.region D.cellDescription area}

variable (D) in
def Halo (F : EMField) (x : DataSpace (d + 2)) : Prop :=
  ∃ i, 1 ≤ i ∧ i < numberOfExchanges (d + 2) ∧ InHalo D.gridLayout (D.originGuard F) (D.endGuard F) i x

theorem not_halo_of_interior {F : EMField} {x : DataSpace (d + 2)} (hx : Interior D.gridLayout x) : ¬D.Halo F x := by
  rintro ⟨i, hi, hi', hhalo⟩
  exact not_inHalo_of_interior hi hi' hx hhalo

include h

theorem Valid.mem_inner_iff (w : ℤ) (x : DataSpace (d + 2)) :
    (fun j => x j / D.superCellSize j) ∈ D.cellDescription.inner w ↔
      ∀ j, w * D.superCellSize j ≤ x j ∧ x j < (D.cellDescription.gridSuperCells j - w) * D.superCellSize j := by
  refine forall_congr' fun j => ?_
  have hs := h.superCellSize_pos j
  exact and_congr (Int.le_ediv_iff_mul_le hs) (Int.ediv_lt_iff_lt_mul hs)

theorem Valid.mem_coreBorder (x : DataSpace (d + 2)) :
    x ∈ D.areaCells .CORE_BORDER ↔ Interior D.gridLayout x := by
  refine (h.mem_inner_iff _ x).trans (forall_congr' fun j => ?_)
  have hsum : D.guard j + D.localSize j = (D.cellDescription.gridSuperCells j -
      D.cellDescription.guardingSuperCells) * D.superCellSize j := by
    simp only [Domain.guard, localSize]
    ring
  rw [← hsum]
  rfl

theorem Valid.mem_core (x : DataSpace (d + 2)) :
    x ∈ D.areaCells .CORE ↔ ∀ j, D.guard j + D.guard j ≤ x j ∧ x j < D.localSize j := by
  refine (h.mem_inner_iff _ x).trans (forall_congr' fun j => ?_)
  have hguard : D.guard j + D.guard j = (D.cellDescription.guardingSuperCells + D.cellDescription.borderSuperCells) *
      D.superCellSize j := by
    simp only [Domain.guard, h.border_eq]
    ring
  have hsize : D.localSize j = (D.cellDescription.gridSuperCells j -
      (D.cellDescription.guardingSuperCells + D.cellDescription.borderSuperCells)) * D.superCellSize j := by
    simp only [localSize, h.border_eq]
    ring
  rw [hguard, hsize]

theorem Valid.mem_border (x : DataSpace (d + 2)) :
    x ∈ D.areaCells .BORDER ↔ Interior D.gridLayout x ∧ x ∉ D.areaCells .CORE := by
  rw [← h.mem_coreBorder]
  rfl

theorem Valid.guard_pos (j : Fin (d + 2)) : 1 ≤ D.guard j := by
  have h1 := h.guardingSuperCells_pos
  have h2 := h.superCellSize_pos j
  simp only [Domain.guard]
  nlinarith

/-- There is room for two guards in a local domain. -/
theorem Valid.two_guard_lt (j : Fin (d + 2)) : 2 * D.guard j < D.localSize j := by
  have h1 := mul_lt_mul_of_pos_right (h.extent j) (h.superCellSize_pos j)
  simp only [Domain.guard, localSize]
  rwa [← mul_assoc]

theorem Valid.interior_of_core {x : DataSpace (d + 2)} (hx : x ∈ D.areaCells .CORE) : Interior D.gridLayout x := by
  intro j
  have h1 := (h.mem_core x).mp hx j
  have h2 := h.guard_pos j
  have h3 := h.two_guard_lt j
  dsimp only
  omega

end Areas

theorem interior_or_halo (F : EMField) {x : DataSpace (d + 2)} (hx : Interior D.gridLayout x) {v : ℤ}
    (hv : v = 0 ∨ v = -1 ∧ (∀ j, 1 ≤ D.originGuard F j) ∨ v = 1 ∧ ∀ j, 1 ≤ D.endGuard F j) (direction : Fin 3) :
    Interior D.gridLayout (x + directionIndex direction v) ∨ D.Halo F (x + directionIndex direction v) := by
  set y : DataSpace (d + 2) := x + directionIndex direction v with hy
  by_cases hin : Interior D.gridLayout y
  · exact .inl hin
  right
  obtain ⟨j₀, hj₀⟩ := not_forall.mp hin
  have hdir : (j₀ : ℕ) = direction := by
    by_contra hne
    refine hj₀ ?_
    simpa [hy, directionIndex, hne] using hx j₀
  have hother : ∀ j, j ≠ j₀ → y j = x j := fun j hj => by
    have : (j : ℕ) ≠ direction := fun he => hj (Fin.ext (he.trans hdir.symm))
    simp [hy, directionIndex, this]
  have hself : y j₀ = x j₀ + v := by
    simp [hy, directionIndex, hdir]
  have hcases : v = -1 ∨ v = 0 ∨ v = 1 := by
    rcases hv with rfl | ⟨rfl, -⟩ | ⟨rfl, -⟩ <;> simp
  obtain ⟨i, hi, hrel⟩ := exists_getRelativeDirections (r := fun j : Fin (d + 2) => if j = j₀ then v else 0)
    fun j => by
      by_cases hj : j = j₀
      · rwa [if_pos hj]
      · simp [hj]
  have hx₀ := hx j₀
  rw [hself] at hj₀
  have hv0 : v ≠ 0 := by
    rintro rfl
    rw [add_zero] at hj₀
    exact hj₀ hx₀
  refine ⟨i, Nat.one_le_iff_ne_zero.mpr fun h0 => hv0 ?_, hi, fun j => ?_⟩
  · have := congrFun hrel j₀
    simpa [h0] using this.symm
  · have hrelj : getRelativeDirections (d + 2) i j = if j = j₀ then v else 0 := congrFun hrel j
    dsimp only at hj₀ hx₀ ⊢
    by_cases hj : j = j₀
    · subst hj
      rw [if_pos rfl] at hrelj
      rw [hself, hrelj]
      rcases hv with rfl | ⟨rfl, hm⟩ | ⟨rfl, hm⟩
      · exact absurd rfl hv0
      · have := hm j
        norm_num
        omega
      · have := hm j
        norm_num
        omega
    · rw [if_neg hj] at hrelj
      rw [hrelj, hother j hj]
      exact hx j

end Domain

end PIConGPU.YeeDecomposition
