import PIConGPU.KernelFillGridWithParticles
import PIConGPU.ManipulateParticles

/-!
# Random streams of the start positions

Every cell that is filled with particles takes its random numbers from a stream of its own. The number of the stream
is computed from the position of the cell in the total simulation volume, slides of the moving window included.
-/
namespace PIConGPU

/-- The state of the functor that selects the stream. -/
structure RandomImpl (D : ℕ) where
  localCells : DataSpace D
  totalGpuOffset : DataSpace D

variable {d : ℕ}

/-- The cells in front of a GPU, with those that have left the simulation. -/
def Particles.totalGpuCellOffset (localDomainOffset localCells : DataSpace (d + 2)) (numSlides : ℕ) :
    DataSpace (d + 2) :=
  Function.update localDomainOffset 1 (localDomainOffset 1 + numSlides * localCells 1)

namespace RandomImpl

/-- The constructor. Its offset is a local variable, which hides the member; the member keeps its default. -/
def construct (localDomainOffset localCells : DataSpace (d + 2)) (numSlides : ℕ) : RandomImpl (d + 2) :=
  let _totalGpuOffset := Function.update localDomainOffset 1 (localDomainOffset 1 + numSlides * localCells 1)
  ⟨localCells, 0⟩

def cellIdx (functor : RandomImpl (d + 2)) (totalCellOffset : DataSpace (d + 2)) : ℕ :=
  let localCellIdx := totalCellOffset - functor.totalGpuOffset
  DataSpaceOperations.mapU32 functor.localCells localCellIdx

end RandomImpl

namespace KernelFillGridWithParticles

variable (cell : CellDescription (d + 2))

def localCellIndex (superCellIdx : DataSpace (d + 2)) (t : Fin cell.cellsInSuperCell) : DataSpace (d + 2) :=
  let idx : DataSpace (d + 2) := fun e => superCellIdx e * cell.size e + cell.threadIndex t e
  fun e => idx e - cell.guardingSuperCells * cell.size e

/-- The cell that a thread calls `init` with. Threads of guard supercells return before. -/
def totalGpuCellIdx (totalGpuCellOffset superCellIdx : DataSpace (d + 2)) (t : Fin cell.cellsInSuperCell) :
    Option (DataSpace (d + 2)) :=
  if Guarding cell.gridSuperCells superCellIdx then none
  else some (totalGpuCellOffset + localCellIndex cell superCellIdx t)

def streamIdx (localDomainOffset : DataSpace (d + 2)) (numSlides : ℕ) (superCellIdx : DataSpace (d + 2))
    (t : Fin cell.cellsInSuperCell) : Option ℕ :=
  (totalGpuCellIdx cell (Particles.totalGpuCellOffset localDomainOffset cell.localDomainSize numSlides) superCellIdx t).map
    (RandomImpl.construct localDomainOffset cell.localDomainSize numSlides).cellIdx

end KernelFillGridWithParticles

namespace RandomStreams

open KernelFillGridWithParticles

variable {cell : CellDescription (d + 2)}

theorem map_add {D : ℕ} (size a b : DataSpace D) :
    DataSpaceOperations.map size (a + b) = DataSpaceOperations.map size a + DataSpaceOperations.map size b := by
  match D with
  | 0 | 1 => rfl
  | 2 | 3 =>
    simp only [DataSpaceOperations.map, Pi.add_apply]
    ring
  | _ + 4 => rfl

theorem map_zero {D : ℕ} (size : DataSpace D) : DataSpaceOperations.map size 0 = 0 := by
  have h := map_add size 0 0
  rw [add_zero] at h
  omega

/-- The streams of a GPU are the numbers of its cells, and the same ones at every position and after every slide. -/
structure IndexedByLocalCell (cell : CellDescription (d + 2)) (localDomainOffset : DataSpace (d + 2)) (numSlides : ℕ) :
    Prop where
  eq : ∀ c ∈ cell.area, ∀ t, (streamIdx cell localDomainOffset numSlides c t).map Nat.cast =
    some (DataSpaceOperations.map cell.localDomainSize (localCellIndex cell c t))
  bijOn : Set.BijOn (fun x : DataSpace (d + 2) × Fin cell.cellsInSuperCell =>
      streamIdx cell localDomainOffset numSlides x.1 x.2)
    {x | x.1 ∈ cell.area} {s | ∃ i : ℕ, (i : ℤ) < ∏ e, cell.localDomainSize e ∧ s = some i}
  independent : ∀ c ∈ cell.area, ∀ t, streamIdx cell localDomainOffset numSlides c t = streamIdx cell 0 0 c t

section Interior

variable (hd : d + 2 = 2 ∨ d + 2 = 3) (hsize : ∀ e, 0 < cell.superCellSize e)
  (hguard : 1 ≤ cell.guardingSuperCells) (hgrid : ∀ e, 2 * cell.guardingSuperCells < cell.gridSuperCells e)
  (offset : DataSpace (d + 2)) (numSlides : ℕ)

section Cells

include hd hsize

theorem localCellIndex_mem {c : DataSpace (d + 2)} (hc : c ∈ cell.area) (t : Fin cell.cellsInSuperCell) :
    localCellIndex cell c t ∈ launchBox cell.localDomainSize :=
  KernelManipulateAllParticles.localCellIdx_mem hd hsize hc t

include hgrid

theorem bijOn_localCellIndex : Set.BijOn (fun x : DataSpace (d + 2) × Fin cell.cellsInSuperCell =>
      some (DataSpaceOperations.map cell.localDomainSize (localCellIndex cell x.1 x.2)).toNat)
    {x | x.1 ∈ cell.area} {s | ∃ i : ℕ, (i : ℤ) < ∏ e, cell.localDomainSize e ∧ s = some i} := by
  refine ⟨fun x hx => ?_, fun x hx y hy hxy => ?_, fun s hs => ?_⟩
  · obtain ⟨h0, h1⟩ := DataSpaceOperations.map_mem hd (localCellIndex_mem hd hsize hx x.2)
    exact ⟨_, by omega, rfl⟩
  · have hmem := localCellIndex_mem hd hsize hx x.2
    have hmem' := localCellIndex_mem hd hsize hy y.2
    have hmap : DataSpaceOperations.map cell.localDomainSize (localCellIndex cell x.1 x.2) =
        DataSpaceOperations.map cell.localDomainSize (localCellIndex cell y.1 y.2) := by
      have := (DataSpaceOperations.map_mem hd hmem).1
      have := (DataSpaceOperations.map_mem hd hmem').1
      have := Option.some_inj.mp hxy
      omega
    have hidx : localCellIndex cell x.1 x.2 = localCellIndex cell y.1 y.2 := by
      rw [← DataSpaceOperations.unmap_map hd hmem, hmap, DataSpaceOperations.unmap_map hd hmem']
    obtain ⟨hc, ht⟩ := KernelManipulateAllParticles.localCellIdx_inj hd hsize hidx
    exact Prod.ext hc ht
  · obtain ⟨i, hi, rfl⟩ := hs
    have hpos := CellDescription.localDomainSize_pos hgrid hsize
    obtain ⟨c, hc, t, ht⟩ := KernelManipulateAllParticles.exists_localCellIdx hd hsize
      (DataSpaceOperations.unmap_mem hd hpos (Int.natCast_nonneg i) hi)
    refine ⟨(c, t), hc, ?_⟩
    dsimp only
    rw [show localCellIndex cell c t = _ from ht, DataSpaceOperations.map_unmap hd, Int.toNat_natCast]

end Cells

section Streams

include hguard

theorem streamIdx_eq {c : DataSpace (d + 2)} (hc : c ∈ cell.area) (t : Fin cell.cellsInSuperCell) :
    streamIdx cell offset numSlides c t = some ((DataSpaceOperations.map cell.localDomainSize
        (Particles.totalGpuCellOffset offset cell.localDomainSize numSlides) +
      DataSpaceOperations.map cell.localDomainSize (localCellIndex cell c t)) % 2^32).toNat := by
  have hinner : ¬ Guarding cell.gridSuperCells c := by
    rintro ⟨e, he⟩
    have := CellDescription.mem_area.mp hc e
    omega
  rw [streamIdx, totalGpuCellIdx, if_neg hinner, Option.map_some, RandomImpl.cellIdx, RandomImpl.construct]
  dsimp only
  rw [sub_zero, DataSpaceOperations.mapU32, map_add]

include hd hsize

/-- With an offset of number zero the stream is the number of the cell. -/
theorem streamIdx_eq_some (hoffset : DataSpaceOperations.map cell.localDomainSize
      (Particles.totalGpuCellOffset offset cell.localDomainSize numSlides) % 2^32 = 0)
    (hcells : ∏ e, cell.localDomainSize e ≤ 2^32) {c : DataSpace (d + 2)} (hc : c ∈ cell.area)
    (t : Fin cell.cellsInSuperCell) : streamIdx cell offset numSlides c t =
      some (DataSpaceOperations.map cell.localDomainSize (localCellIndex cell c t)).toNat := by
  obtain ⟨h0, h1⟩ := DataSpaceOperations.map_mem hd (localCellIndex_mem hd hsize hc t)
  rw [streamIdx_eq hguard offset numSlides hc]
  congr 2
  omega

include hgrid

theorem IndexedByLocalCell.offset_eq_zero (h : IndexedByLocalCell cell offset numSlides) :
    DataSpaceOperations.map cell.localDomainSize
        (Particles.totalGpuCellOffset offset cell.localDomainSize numSlides) % 2^32 = 0 ∧
      ∏ e, cell.localDomainSize e ≤ 2^32 := by
  have hpos := CellDescription.localDomainSize_pos hgrid hsize
  have hprod : 0 < ∏ e, cell.localDomainSize e := Finset.prod_pos fun e _ => hpos e
  have hstream : ∀ i : ℤ, 0 ≤ i → i < ∏ e, cell.localDomainSize e →
      (DataSpaceOperations.map cell.localDomainSize
        (Particles.totalGpuCellOffset offset cell.localDomainSize numSlides) + i) % 2^32 = i := fun i h0 h1 => by
    obtain ⟨c, hc, t, ht⟩ := KernelManipulateAllParticles.exists_localCellIdx hd hsize
      (DataSpaceOperations.unmap_mem hd hpos h0 h1)
    have heq := h.eq c hc t
    rw [streamIdx_eq hguard offset numSlides hc, Option.map_some, Option.some_inj,
      show localCellIndex cell c t = _ from ht, DataSpaceOperations.map_unmap hd] at heq
    omega
  have hfirst := hstream 0 le_rfl hprod
  have hlast := hstream (∏ e, cell.localDomainSize e - 1) (by omega) (by omega)
  constructor <;> omega

theorem indexedByLocalCell (hoffset : DataSpaceOperations.map cell.localDomainSize
      (Particles.totalGpuCellOffset offset cell.localDomainSize numSlides) % 2^32 = 0)
    (hcells : ∏ e, cell.localDomainSize e ≤ 2^32) : IndexedByLocalCell cell offset numSlides where
  eq c hc t := by
    rw [streamIdx_eq_some hd hsize hguard offset numSlides hoffset hcells hc, Option.map_some,
      Int.toNat_of_nonneg (DataSpaceOperations.map_mem hd (localCellIndex_mem hd hsize hc t)).1]
  bijOn := (bijOn_localCellIndex hd hsize hgrid).congr fun x hx =>
    (streamIdx_eq_some hd hsize hguard offset numSlides hoffset hcells hx x.2).symm
  independent c hc t := by
    have hzero : Particles.totalGpuCellOffset (0 : DataSpace (d + 2)) cell.localDomainSize 0 = 0 := by
      rw [Particles.totalGpuCellOffset, Nat.cast_zero, zero_mul, add_zero, Function.update_eq_self]
    rw [streamIdx_eq_some hd hsize hguard offset numSlides hoffset hcells hc,
      streamIdx_eq_some hd hsize hguard 0 0 (by rw [hzero, map_zero]; rfl) hcells hc]

/-- The member that should hold the offset is zero, so the streams are right only if the offset has the number zero. -/
theorem indexedByLocalCell_iff : IndexedByLocalCell cell offset numSlides ↔
    DataSpaceOperations.map cell.localDomainSize
        (Particles.totalGpuCellOffset offset cell.localDomainSize numSlides) % 2^32 = 0 ∧
      ∏ e, cell.localDomainSize e ≤ 2^32 :=
  ⟨fun h => h.offset_eq_zero hd hsize hguard hgrid offset numSlides,
    fun h => indexedByLocalCell hd hsize hguard hgrid offset numSlides h.1 h.2⟩

end Streams

end Interior

/-- Six by six cells: a GPU with a neighbour in x, and one after a slide. -/
theorem stream_behind_neighbour :
    streamIdx ⟨⟨![5, 5], 1, 1⟩, ![2, 2]⟩ ![6, 0] 0 ![1, 1] ⟨0, by decide⟩ = some 6 ∧
    streamIdx ⟨⟨![5, 5], 1, 1⟩, ![2, 2]⟩ 0 1 ![1, 1] ⟨0, by decide⟩ = some 36 ∧
    ¬ IndexedByLocalCell (⟨⟨![5, 5], 1, 1⟩, ![2, 2]⟩ : CellDescription (0 + 2)) ![6, 0] 0 := by
  refine ⟨by decide, by decide, fun h => ?_⟩
  have heq := h.eq ![1, 1] (CellDescription.mem_area.mpr (by decide)) ⟨0, by decide⟩
  exact absurd heq (by decide)

/-- The first GPU before the first slide. -/
theorem stream_of_first_gpu :
    IndexedByLocalCell (⟨⟨![5, 5], 1, 1⟩, ![2, 2]⟩ : CellDescription (0 + 2)) 0 0 :=
  (indexedByLocalCell_iff (.inl rfl) (by decide) le_rfl (by decide) 0 0).mpr ⟨by decide, by decide⟩

end RandomStreams

end PIConGPU
