import PIConGPU.ExchangeTarget
import PIConGPU.GridShift
import PIConGPU.HaloExchange
import PIConGPU.ShiftParticles

/-!
# Local domains of the devices

The local domains divide a global grid of supercells. The guard of a device covers supercells of its neighbors, or lies
outside of the global grid if there is no neighbor.
-/
namespace PIConGPU.ParticleTransport

open ExchangeMapping GridShift

/-- The devices with the extents of their local domains in supercells, which depend on the positions in the grid of
devices. -/
structure Domain (d : ℕ) where
  g : ProcessGrid (d + 2)
  comm : ℕ → Communicator (d + 2)
  superCells : Fin (d + 2) → ℤ → ℤ

namespace Domain

variable {d : ℕ} (D : Domain d)

def localSuperCells (r : ℕ) : DataSpace (d + 2) := fun j => D.superCells j ((D.comm r).coordinates j)

/-- One supercell of border and guard on each side. -/
def cellDescription (r : ℕ) : MappingDescription (d + 2) := ⟨fun j => D.localSuperCells r j + 2, 1, 1⟩

def mapper (r : ℕ) : MappingDesc (d + 2) := ⟨(D.cellDescription r).gridSuperCells, 1⟩

def guardCells (r i : ℕ) : Set (DataSpace (d + 2)) := (ExchangeMappingMethods.guard (D.cellDescription r) i).image

def hasSendExchange (r i : ℕ) : Bool := (D.comm r).communicationMask.isSet i

/-- The device that sends to `r` in direction `i`. For direction 0 it is the device itself. -/
def sender (r i : ℕ) : Option ℕ :=
  if i = 0 then some r
  else if D.hasSendExchange r (Mask.mirrored i) then some ((D.comm r).ranks (Mask.mirrored i)).toNat
  else none

def blocks : Blocks (d + 2) ℕ ℕ where
  extent := D.localSuperCells
  origin r := fun j => ∑ e ∈ Finset.range ((D.comm r).coordinates j).toNat, D.superCells j e
  neighbor := D.sender

def globalSuperCells : DataSpace (d + 2) := HaloExchange.globalSize D.g D.superCells

abbrev directions (d : ℕ) : Finset ℕ := Finset.range (numberOfExchanges (d + 2))

def exchanges : Set (ℕ × ℕ) := {e | e.1 < D.g.size ∧ e.2 ∈ ExchangeMapping.exchanges (d + 2)}

/-- The state of the communicators after a number of slides, with at least two devices along periodic axes. -/
structure Valid (slides : ℕ) : Prop where
  dim : d ≤ 1
  comm_eq : ∀ r, Communicator.afterSlides D.g r slides = some (D.comm r)
  superCells_pos : ∀ j c, 1 ≤ D.superCells j c
  periodic : ∀ j, D.g.periodic j = true → 2 ≤ D.g.dims j

end Domain

theorem enumerates_directions (d : ℕ) : Enumerates (Domain.directions d) (getRelativeDirections (d + 2)) where
  isStep i _ := getRelativeDirections_cases (d + 2) i
  injOn i hi j hj h := getRelativeDirections_injOn (Finset.mem_range.mp hi) (Finset.mem_range.mp hj) h
  exists_dir δ hδ := by
    obtain ⟨i, hi, hdir⟩ := exists_getRelativeDirections hδ
    exact ⟨i, Finset.mem_range.mpr hi, hdir⟩

section Geometry

variable {d : ℕ} {D : Domain d} {slides r p q i : ℕ}

theorem mem_guardCells {c : DataSpace (d + 2)} : c ∈ D.guardCells r i ↔ ∀ j,
    (getRelativeDirections (d + 2) i j = 0 → 1 ≤ c j ∧ c j ≤ D.localSuperCells r j) ∧
    (getRelativeDirections (d + 2) i j = 1 → c j = D.localSuperCells r j + 1) ∧
    (getRelativeDirections (d + 2) i j = -1 → c j = 0) := by
  rw [Domain.guardCells, guard_image]
  refine forall_congr' fun j => ?_
  simp only [Domain.cellDescription, SlabGrid.Segment]
  rcases getRelativeDirections_cases (d + 2) i j with h | h | h
  · rw [h]
    norm_num
    omega
  · rw [h]
    norm_num
    omega
  · rw [h]
    norm_num
    omega

/-- The supercell that gets the particles of a guard supercell. -/
theorem dstSuperCell_apply (hd : d ≤ 1) (hi : i ∈ ExchangeMapping.exchanges (d + 2)) (c : DataSpace (d + 2))
    (j : Fin (d + 2)) :
    ExchangeTarget.dstSuperCell (D.cellDescription q) c i (Mask.mirrored i) j =
      if getRelativeDirections (d + 2) i j = 1 then 1
      else if getRelativeDirections (d + 2) i j = -1 then D.localSuperCells q j else c j := by
  have hD : d + 2 = 2 ∨ d + 2 = 3 := by omega
  have hmirrored := Mask.getRelativeDirections_mirrored (D := d + 2) (by omega) i
  rw [ExchangeTarget.dstSuperCell,
    DataSpaceOperations.extend_reduce hD (ExchangeTarget.directions_ne_zero hi) hmirrored]
  simp only [DataSpaceOperations.extendEntry, Domain.cellDescription]
  rcases getRelativeDirections_cases (d + 2) i j with h | h | h
  · rw [h]
    norm_num
    omega
  · rw [h]
    norm_num
  · rw [h]
    norm_num

theorem dstSuperCell_eq_iff (hd : d ≤ 1) (hi : i ∈ ExchangeMapping.exchanges (d + 2)) {c s : DataSpace (d + 2)}
    (hc : c ∈ D.guardCells p i) :
    ExchangeTarget.dstSuperCell (D.cellDescription q) c i (Mask.mirrored i) = s ↔
      AtEntry (D.localSuperCells q) (getRelativeDirections (d + 2) i) s ∧
        c = layerCell (D.localSuperCells p) (getRelativeDirections (d + 2) i) s := by
  have hcoords := mem_guardCells.mp hc
  have haxis : ∀ j, ExchangeTarget.dstSuperCell (D.cellDescription q) c i (Mask.mirrored i) j = s j ↔
      ((getRelativeDirections (d + 2) i j = 1 → s j = 1) ∧
        (getRelativeDirections (d + 2) i j = -1 → s j = D.localSuperCells q j)) ∧
      c j = layerCell (D.localSuperCells p) (getRelativeDirections (d + 2) i) s j := by
    intro j
    obtain ⟨-, hone, hneg⟩ := hcoords j
    rw [dstSuperCell_apply hd hi, layerCell]
    rcases getRelativeDirections_cases (d + 2) i j with h | h | h
    · have := hneg h
      rw [h]
      norm_num
      omega
    · rw [h]
      norm_num
    · have := hone h
      rw [h]
      norm_num
      omega
  rw [funext_iff]
  constructor
  · intro h
    exact ⟨fun j => ((haxis j).mp (h j)).1, funext fun j => ((haxis j).mp (h j)).2⟩
  · intro h j
    exact (haxis j).mpr ⟨h.1 j, congrFun h.2 j⟩

theorem inner_dstSuperCell (hd : d ≤ 1) (hi : i ∈ ExchangeMapping.exchanges (d + 2))
    (hpos : ∀ j, 1 ≤ D.localSuperCells q j)
    (hsame : ∀ j, getRelativeDirections (d + 2) i j = 0 → D.localSuperCells p j = D.localSuperCells q j)
    {c : DataSpace (d + 2)} (hc : c ∈ D.guardCells p i) :
    Inner (D.localSuperCells q) (ExchangeTarget.dstSuperCell (D.cellDescription q) c i (Mask.mirrored i)) := by
  intro j
  have hposj := hpos j
  obtain ⟨hzero, -⟩ := mem_guardCells.mp hc j
  rw [dstSuperCell_apply hd hi]
  rcases getRelativeDirections_cases (d + 2) i j with h | h | h
  · rw [h]
    norm_num
    exact hposj
  · have := hzero h
    rw [hsame j h] at this
    rw [h]
    norm_num
    exact this
  · rw [h]
    norm_num
    exact hposj

theorem layerCell_mem_guardCells {s : DataSpace (d + 2)} (hs : Inner (D.localSuperCells q) s)
    (hsame : ∀ j, getRelativeDirections (d + 2) i j = 0 → D.localSuperCells p j = D.localSuperCells q j) :
    layerCell (D.localSuperCells p) (getRelativeDirections (d + 2) i) s ∈ D.guardCells p i := by
  refine mem_guardCells.mpr fun j => ?_
  have hsj := hs j
  have hsamej := hsame j
  simp only [layerCell]
  refine ⟨fun h => ?_, fun h => ?_, fun h => ?_⟩
  · have := hsamej h
    rw [h]
    norm_num
    omega
  · rw [h]
    norm_num
  · rw [h]
    norm_num

theorem not_inner_of_mem_guardCells (hi : i ∈ ExchangeMapping.exchanges (d + 2)) {c : DataSpace (d + 2)}
    (hc : c ∈ D.guardCells r i) : ¬ Inner (D.localSuperCells r) c := by
  intro hinner
  obtain ⟨j, hj⟩ := Function.ne_iff.mp (ExchangeTarget.directions_ne_zero hi)
  have hcj := mem_guardCells.mp hc j
  have := hinner j
  rcases getRelativeDirections_cases (d + 2) i j with h | h | h
  · have := hcj.2.2 h
    omega
  · exact hj h
  · have := hcj.2.1 h
    omega

theorem guardCells_unique {i' : ℕ} (hpos : ∀ j, 1 ≤ D.localSuperCells r j) (hi : i ∈ ExchangeMapping.exchanges (d + 2))
    (hi' : i' ∈ ExchangeMapping.exchanges (d + 2)) {c : DataSpace (d + 2)} (hc : c ∈ D.guardCells r i)
    (hc' : c ∈ D.guardCells r i') : i = i' := by
  by_contra hne
  rw [Domain.guardCells, guard_image] at hc hc'
  have hn : ∀ j, 2 * (D.cellDescription r).guardingSuperCells ≤ (D.cellDescription r).gridSuperCells j := fun j => by
    have := hpos j
    simp only [Domain.cellDescription]
    omega
  exact Set.disjoint_left.mp (disjoint_part (by simp [Domain.cellDescription]) hn hi hi' hne) hc hc'

end Geometry

section Neighbors

variable {d : ℕ} {D : Domain d} {slides r p q i j : ℕ}

theorem mem_directions : i ∈ Domain.directions d ↔ i = 0 ∨ i ∈ ExchangeMapping.exchanges (d + 2) := by
  have hpos : 0 < numberOfExchanges (d + 2) := Nat.pow_pos (by norm_num)
  rw [Finset.mem_range]
  change _ ↔ i = 0 ∨ 1 ≤ i ∧ i < _
  omega

variable (h : D.Valid slides)
include h

theorem Domain.Valid.updated (r : ℕ) :
    Communicator.Updated D.g r (Communicator.slideOffset D.g slides) (D.comm r) := by
  obtain ⟨c, hc, hu⟩ := Communicator.afterSlides_spec h.dim D.g r slides
  obtain rfl := Option.some.inj (hc.symm.trans (h.comm_eq r))
  exact hu

theorem Domain.Valid.inside (hr : r < D.g.size) : D.g.Inside (D.comm r).coordinates := by
  rw [(h.updated r).coordinates_eq]
  exact Communicator.rotatedCoords_inside hr _

theorem Domain.Valid.lt_27 (hi : i ∈ ExchangeMapping.exchanges (d + 2)) : i < 27 :=
  hi.2.trans_le (Communicator.numberOfExchanges_le h.dim)

theorem Domain.Valid.mirrored_mem (hi : i ∈ ExchangeMapping.exchanges (d + 2)) :
    Mask.mirrored i ∈ ExchangeMapping.exchanges (d + 2) := by
  have hdim := h.dim
  exact ⟨Mask.mirrored_pos hi.1 (h.lt_27 hi), Mask.mirrored_lt (by omega) hi.2⟩

theorem Domain.Valid.sender_of_hasSendExchange (hp : p < D.g.size) (hi : i ∈ ExchangeMapping.exchanges (d + 2))
    (hset : D.hasSendExchange p i = true) : ∃ q < D.g.size, (D.comm p).ranks i = q ∧ D.sender q i = some p := by
  obtain ⟨q, hq, hrank, -, hback, hself⟩ := Communicator.Updated.neighbor h.dim h.updated hp hi.1 hi.2 hset
  refine ⟨q, hq, hrank, ?_⟩
  rw [Domain.sender, if_neg (by have := hi.1; omega), Domain.hasSendExchange, if_pos hback, hself]
  rfl

/-- The device that sends in a direction has this device as its neighbor. -/
theorem Domain.Valid.of_sender (hr : r < D.g.size) (hi : i ∈ ExchangeMapping.exchanges (d + 2))
    (hsender : D.sender r i = some p) : p < D.g.size ∧ D.hasSendExchange p i = true ∧ (D.comm p).ranks i = r ∧
      (D.comm p).coordinates = D.g.wrap ((D.comm r).coordinates - getRelativeDirections (d + 2) i) ∧
      D.g.InsideOrPeriodic ((D.comm r).coordinates - getRelativeDirections (d + 2) i) := by
  have hdim := h.dim
  have hmem := h.mirrored_mem hi
  rw [Domain.sender, if_neg (by have := hi.1; omega)] at hsender
  split at hsender
  case isFalse => cases hsender
  case isTrue hset =>
    obtain ⟨p', hp', hrank, hcoords, hback, hself⟩ :=
      Communicator.Updated.neighbor h.dim h.updated hr hmem.1 hmem.2 hset
    have hinside := ((h.updated r).isSet_iff _ hmem.1 hmem.2).mp hset
    rw [hrank] at hsender
    obtain rfl : p' = p := by simpa using hsender
    rw [Mask.mirrored_mirrored (h.lt_27 hi)] at hback hself
    rw [Mask.getRelativeDirections_mirrored (by omega), ← sub_eq_add_neg] at hcoords hinside
    exact ⟨hp', hback, hself, hcoords, hinside⟩

theorem Domain.Valid.not_insideOrPeriodic (hi : i ∈ ExchangeMapping.exchanges (d + 2))
    (hsender : D.sender r i = none) :
    ¬ D.g.InsideOrPeriodic ((D.comm r).coordinates - getRelativeDirections (d + 2) i) := by
  have hdim := h.dim
  have hmem := h.mirrored_mem hi
  intro hinside
  rw [Domain.sender, if_neg (by have := hi.1; omega)] at hsender
  split at hsender
  case isTrue => cases hsender
  case isFalse hset =>
    refine hset (((h.updated r).isSet_iff _ hmem.1 hmem.2).mpr ?_)
    rwa [Mask.getRelativeDirections_mirrored (by omega), ← sub_eq_add_neg]

theorem Domain.Valid.localSuperCells_pos (r : ℕ) (j : Fin (d + 2)) : 1 ≤ D.localSuperCells r j := h.superCells_pos _ _

theorem Domain.Valid.localSuperCells_eq (hr : r < D.g.size) (hi : i ∈ ExchangeMapping.exchanges (d + 2))
    (hsender : D.sender r i = some p) (j : Fin (d + 2)) (hj : getRelativeDirections (d + 2) i j = 0) :
    D.localSuperCells p j = D.localSuperCells r j := by
  obtain ⟨-, -, -, hcoords, -⟩ := h.of_sender hr hi hsender
  have hin := h.inside hr j
  rw [Domain.localSuperCells, Domain.localSuperCells, hcoords, ProcessGrid.wrap, Pi.sub_apply, hj, sub_zero,
    Int.emod_eq_of_lt hin.1 hin.2]

theorem Domain.Valid.sender_ne (hr : r < D.g.size) (hi : i ∈ ExchangeMapping.exchanges (d + 2))
    (hsender : D.sender r i = some p) : r ≠ p := by
  rintro rfl
  obtain ⟨-, -, -, hcoords, hinside⟩ := h.of_sender hr hi hsender
  obtain ⟨j, hj⟩ := Function.ne_iff.mp (ExchangeTarget.directions_ne_zero hi)
  have hin := h.inside hr j
  have hcoord : (D.comm r).coordinates j =
      ((D.comm r).coordinates j - getRelativeDirections (d + 2) i j) % D.g.dims j := congrFun hcoords j
  have hwide : 2 ≤ (D.g.dims j : ℤ) ∨ 0 ≤ (D.comm r).coordinates j - getRelativeDirections (d + 2) i j ∧
      (D.comm r).coordinates j - getRelativeDirections (d + 2) i j < D.g.dims j := by
    rcases hinside j with hrange | hperiodic
    · exact .inr hrange
    · exact .inl (by exact_mod_cast h.periodic j hperiodic)
  have hstep : getRelativeDirections (d + 2) i j = -1 ∨ getRelativeDirections (d + 2) i j = 1 := by
    have := getRelativeDirections_cases (d + 2) i j
    have : getRelativeDirections (d + 2) i j ≠ 0 := hj
    omega
  generalize (D.comm r).coordinates j = x at hin hcoord hwide
  rcases hwide with hwide | hrange
  · have hmod : (x - getRelativeDirections (d + 2) i j) % D.g.dims j = x % D.g.dims j := by
      rw [← hcoord, Int.emod_eq_of_lt hin.1 hin.2]
    have hdvd := Int.ModEq.dvd hmod
    rw [sub_sub_cancel] at hdvd
    rcases hstep with hs | hs
    · rw [hs, Int.dvd_neg] at hdvd
      have := Int.le_of_dvd one_pos hdvd
      omega
    · rw [hs] at hdvd
      have := Int.le_of_dvd one_pos hdvd
      omega
  · rw [Int.emod_eq_of_lt hrange.1 hrange.2] at hcoord
    omega

end Neighbors

section Global

variable {d : ℕ} {α : Type*}

/-- The particles of the global grid of supercells, by the direction in which they leave their supercell. They repeat
along periodic axes, and there are none behind the ends of the other axes. -/
structure Global (D : Domain d) (N : DataSpace (d + 2) → ℕ → Multiset α) : Prop where
  periodic : ∀ X X', (∀ j, X j = X' j ∨ D.g.periodic j = true ∧ X j ≡ X' j [ZMOD D.globalSuperCells j]) → N X = N X'
  outside : ∀ X j, D.g.periodic j = false → ¬ (0 ≤ X j ∧ X j < D.globalSuperCells j) → ∀ i, N X i = 0

def globalStep (N : DataSpace (d + 2) → ℕ → Multiset α) (X : DataSpace (d + 2)) : Multiset α :=
  ∑ i ∈ Domain.directions d, N (X - getRelativeDirections (d + 2) i) i

variable {D : Domain d} {slides r p i : ℕ} {N : DataSpace (d + 2) → ℕ → Multiset α}

theorem sum_range_succ_toNat (f : ℤ → ℤ) {c : ℤ} (hc : 0 ≤ c) :
    ∑ e ∈ Finset.range (c + 1).toNat, f e = ∑ e ∈ Finset.range c.toNat, f e + f c := by
  rw [Int.toNat_add hc zero_le_one, Int.toNat_one, Finset.sum_range_succ, Int.toNat_of_nonneg hc]

theorem sum_range_le (f : ℤ → ℤ) (hf : ∀ c, 1 ≤ f c) {c : ℤ} (hc : 0 ≤ c) {n : ℕ} (hn : c < n) :
    ∑ e ∈ Finset.range c.toNat, f e + f c ≤ ∑ e ∈ Finset.range n, f e := by
  rw [← sum_range_succ_toNat f hc]
  refine Finset.sum_le_sum_of_subset_of_nonneg (Finset.range_subset_range.mpr (by omega)) fun e _ _ => ?_
  have := hf e
  omega

variable (h : D.Valid slides)
include h

/-- A supercell of the guard is at the position of the supercell that it covers. -/
theorem Domain.Valid.position_layerCell (hr : r < D.g.size) (hi : i ∈ ExchangeMapping.exchanges (d + 2))
    (hsender : D.sender r i = some p) {s δ : DataSpace (d + 2)}
    (hs : AtEntry (D.localSuperCells r) (getRelativeDirections (d + 2) i) s) (j : Fin (d + 2)) :
    D.blocks.position p (layerCell (D.localSuperCells p) (getRelativeDirections (d + 2) i) s - δ) j =
        (D.blocks.position r s - δ) j ∨
      D.g.periodic j = true ∧
        D.blocks.position p (layerCell (D.localSuperCells p) (getRelativeDirections (d + 2) i) s - δ) j ≡
          (D.blocks.position r s - δ) j [ZMOD D.globalSuperCells j] := by
  have hdim := h.dim
  obtain ⟨hp, -, -, hcoords, hinside⟩ := h.of_sender hr hi hsender
  have hin := h.inside hr j
  have hcoord : (D.comm p).coordinates j =
      ((D.comm r).coordinates j - getRelativeDirections (d + 2) i j) % D.g.dims j := congrFun hcoords j
  have hentry := hs j
  rcases hinside j with hrange | hperiodic
  · rw [Pi.sub_apply] at hrange
    rw [Int.emod_eq_of_lt hrange.1 hrange.2] at hcoord
    left
    simp only [Blocks.position, Domain.blocks, Pi.sub_apply, layerCell]
    rcases getRelativeDirections_cases (d + 2) i j with hj | hj | hj
    · have hsum := sum_range_succ_toNat (D.superCells j) hin.1
      have hcell := hentry.2 hj
      rw [hj, sub_neg_eq_add] at hcoord
      rw [hj, if_neg (by decide), if_pos rfl, hcoord, hsum, hcell, Domain.localSuperCells]
      ring
    · rw [hj, sub_zero] at hcoord
      rw [hj, if_neg (by decide), if_neg (by decide), hcoord]
      ring
    · rw [hj] at hrange hcoord
      have hsum := sum_range_succ_toNat (D.superCells j) hrange.1
      have hcell := hentry.1 hj
      rw [sub_add_cancel] at hsum
      rw [hj, if_pos rfl, hsum, hcell, Domain.localSuperCells, hcoord]
      ring
  · right
    refine ⟨hperiodic, ?_⟩
    have hmirrored := Mask.getRelativeDirections_mirrored (D := d + 2) (by omega) i
    have hback : (D.comm p).coordinates =
        D.g.wrap ((D.comm r).coordinates + getRelativeDirections (d + 2) (Mask.mirrored i)) := by
      rw [hcoords, hmirrored, sub_eq_add_neg]
    have hmod : HaloExchange.globalCell D.comm D.superCells (fun _ => 1) p
        (layerCell (D.localSuperCells p) (getRelativeDirections (d + 2) i) s - δ) j ≡
        HaloExchange.globalCell D.comm D.superCells (fun _ => 1) r (s - δ) j
        [ZMOD HaloExchange.globalSize D.g D.superCells j] :=
      HaloExchange.globalCell_modEq hback (h.inside hr) j ?_
    · have hright : (D.blocks.position r s - δ) j =
          HaloExchange.globalCell D.comm D.superCells (fun _ => 1) r (s - δ) j := by
        simp only [Blocks.position, Domain.blocks, HaloExchange.globalCell, Pi.sub_apply]
        ring
      rw [hright]
      exact (congrArg (· % D.globalSuperCells j) (add_sub_assoc _ _ _)).trans hmod
    · rw [hmirrored]
      simp only [Pi.sub_apply, Pi.neg_apply, layerCell]
      rcases getRelativeDirections_cases (d + 2) i j with hj | hj | hj
      · simp only [hj, hentry.2 hj, Domain.localSuperCells]
        norm_num
        ring
      · simp [hj]
      · simp only [hj, hentry.1 hj, Domain.localSuperCells]
        norm_num
        ring

/-- What would cross a side without device is outside of the global grid. -/
theorem Domain.Valid.outside_of_crossing (hr : r < D.g.size) (hi : i ∈ ExchangeMapping.exchanges (d + 2))
    (hsender : D.sender r i = none) {s δ : DataSpace (d + 2)}
    (hcross : crossing (D.localSuperCells r) s δ = getRelativeDirections (d + 2) i) :
    ∃ j, D.g.periodic j = false ∧
      ¬ (0 ≤ (D.blocks.position r s - δ) j ∧ (D.blocks.position r s - δ) j < D.globalSuperCells j) := by
  have hnot := h.not_insideOrPeriodic hi hsender
  simp only [ProcessGrid.InsideOrPeriodic, not_forall, not_or] at hnot
  obtain ⟨j, hrange, hperiodic⟩ := hnot
  refine ⟨j, Bool.eq_false_iff.mpr hperiodic, ?_⟩
  have hin := h.inside hr j
  have hcrossj : crossing (D.localSuperCells r) s δ j = getRelativeDirections (d + 2) i j := congrFun hcross j
  have htotal := sum_range_le (D.superCells j) (h.superCells_pos j) hin.1 hin.2
  rw [Pi.sub_apply] at hrange
  simp only [Blocks.position, Domain.blocks, Pi.sub_apply, Domain.globalSuperCells, HaloExchange.globalSize]
  unfold crossing at hcrossj
  split_ifs at hcrossj with hlow hhigh
  · have hzero : (D.comm r).coordinates j = 0 := by omega
    rw [hzero, Int.toNat_zero, Finset.range_zero, Finset.sum_empty]
    omega
  · have hlast : (D.comm r).coordinates j + 1 = D.g.dims j := by omega
    have hsum := sum_range_succ_toNat (D.superCells j) hin.1
    rw [hlast, Int.toNat_natCast] at hsum
    rw [Domain.localSuperCells] at hhigh
    rw [hsum]
    omega
  · omega

theorem Domain.Valid.fits (hN : Global D N) :
    D.blocks.Fits (Domain.directions d) (getRelativeDirections (d + 2)) N {r | r < D.g.size} where
  extent_pos r _ := h.localSuperCells_pos r
  mem r hr j hj p hsender := by
    rcases mem_directions.mp hj with rfl | hj
    · obtain rfl : r = p := Option.some.inj hsender
      exact hr
    · exact (h.of_sender hr hj hsender).1
  self r _ j hj hzero := by
    rcases mem_directions.mp hj with rfl | hj
    · rfl
    · exact absurd hzero (ExchangeTarget.directions_ne_zero hj)
  same r hr j hj p hsender := by
    rcases mem_directions.mp hj with rfl | hj
    · obtain rfl : r = p := Option.some.inj hsender
      exact fun _ _ => rfl
    · exact h.localSuperCells_eq hr hj hsender
  covers r hr j hj p hsender s δ hs i := by
    rcases mem_directions.mp hj with rfl | hj
    · obtain rfl : r = p := Option.some.inj hsender
      rw [getRelativeDirections_zero, layerCell_zero]
      refine congrFun (congrArg N (funext fun j => ?_)) i
      simp only [Blocks.position, Pi.sub_apply]
      ring
    · exact congrFun (hN.periodic _ _ (h.position_layerCell hr hj hsender hs)) i
  outside r hr j hj hsender s δ hcross _ _ i := by
    rcases mem_directions.mp hj with rfl | hj
    · cases hsender
    · obtain ⟨j', hperiodic, hrange⟩ := h.outside_of_crossing hr hj hsender hcross
      exact hN.outside _ j' hperiodic hrange i

end Global

end PIConGPU.ParticleTransport
