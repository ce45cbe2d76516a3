import PIConGPU.ExchangeMapping

/-!
# The target of exchanged particles

The sender leaves out one coordinate of a supercell in its guard, and the receiver puts it in again. The coordinates
that are kept lie in different entries for different directions.
-/
namespace PIConGPU

namespace DataSpaceOperations

def reduce : {D : ℕ} → (ds : DataSpace D) → (ex : ℕ) → DataSpace (D - 1)
  | 2, ds, ex =>
    let directions := getRelativeDirections 2 ex
    if directions 0 ≠ 0 then ![ds 1]
    else if directions 1 ≠ 0 then ![ds 0]
    else ![0]
  | 3, ds, ex =>
    let directions := getRelativeDirections 3 ex
    if directions 0 ≠ 0 then ![ds 1, ds 2]
    else if directions 2 ≠ 0 then ![ds 0, ds 1]
    else if directions 1 ≠ 0 then ![ds 0, ds 2]
    else ![0, 0]
  | _, _, _ => 0

/-- One coordinate of `extend`; a coordinate without direction is taken from an entry. -/
def extendEntry (direction target offset entry : ℤ) : ℤ :=
  if direction = 1 then target - offset - 1 else if direction = -1 then offset else entry

def extend : {D : ℕ} → (ds : DataSpace (D - 1)) → (ex : ℕ) → (target offset : DataSpace D) → DataSpace D
  | 2, ds, ex, target, offset =>
    let directions := getRelativeDirections 2 ex
    ![extendEntry (directions 0) (target 0) (offset 0) (ds 0), extendEntry (directions 1) (target 1) (offset 1) (ds 0)]
  | 3, ds, ex, target, offset =>
    let directions := getRelativeDirections 3 ex
    let y_entry : Fin 2 := if directions 0 = 0 then 1 else 0
    ![extendEntry (directions 0) (target 0) (offset 0) (ds 0),
      extendEntry (directions 1) (target 1) (offset 1) (ds y_entry),
      extendEntry (directions 2) (target 2) (offset 2) (ds 1)]
  | _, _, _, _, _ => 0

theorem extendEntry_congr {direction target offset entry entry' : ℤ}
    (hdir : direction = -1 ∨ direction = 0 ∨ direction = 1) (h : direction = 0 → entry = entry') :
    extendEntry direction target offset entry = extendEntry direction target offset entry' := by
  rcases hdir with rfl | rfl | rfl
  · rfl
  · rw [h rfl]
  · rfl

variable {D : ℕ}

/-- Reducing in one direction and extending in the opposite one keeps the coordinates without direction. -/
theorem extend_reduce (hD : D = 2 ∨ D = 3) {i j : ℕ} (hdir : getRelativeDirections D i ≠ 0)
    (hj : getRelativeDirections D j = -getRelativeDirections D i) (c target offset : DataSpace D) (d : Fin D) :
    extend (reduce c i) j target offset d = extendEntry (-getRelativeDirections D i d) (target d) (offset d) (c d) := by
  have hcases : ∀ d, -getRelativeDirections D i d = -1 ∨ -getRelativeDirections D i d = 0 ∨
      -getRelativeDirections D i d = 1 := fun d => by
    have := getRelativeDirections_cases D i d
    omega
  rcases hD with rfl | rfl
  · have h1 : getRelativeDirections 2 i 0 = 0 → getRelativeDirections 2 i 1 ≠ 0 := fun h0 h1 =>
      hdir (funext fun d => by fin_cases d <;> assumption)
    simp only [extend, reduce, hj, Pi.neg_apply]
    fin_cases d
    · refine extendEntry_congr (hcases 0) fun h0 => ?_
      rw [neg_eq_zero] at h0
      simp [h0, h1 h0]
    · refine extendEntry_congr (hcases 1) fun h1' => ?_
      rw [neg_eq_zero] at h1'
      have h0 : getRelativeDirections 2 i 0 ≠ 0 := fun h0 => h1 h0 h1'
      simp [h0]
  · have h1 : getRelativeDirections 3 i 0 = 0 → getRelativeDirections 3 i 2 = 0 →
        getRelativeDirections 3 i 1 ≠ 0 := fun h0 h2 h1 =>
      hdir (funext fun d => by fin_cases d <;> assumption)
    simp only [extend, reduce, hj, Pi.neg_apply]
    fin_cases d
    · refine extendEntry_congr (hcases 0) fun h0 => ?_
      rw [neg_eq_zero] at h0
      by_cases h2 : getRelativeDirections 3 i 2 = 0
      · simp [h0, h2, h1 h0 h2]
      · simp [h0, h2]
    · refine extendEntry_congr (hcases 1) fun h1' => ?_
      rw [neg_eq_zero] at h1'
      by_cases h0 : getRelativeDirections 3 i 0 = 0
      · have h2 : getRelativeDirections 3 i 2 ≠ 0 := fun h2 => h1 h0 h2 h1'
        simp [h0, h2]
      · simp [h0]
    · refine extendEntry_congr (hcases 2) fun h2 => ?_
      rw [neg_eq_zero] at h2
      by_cases h0 : getRelativeDirections 3 i 0 = 0
      · simp [h0, h2, h1 h0 h2]
      · simp [h0]

end DataSpaceOperations

namespace ExchangeTarget

open DataSpaceOperations ExchangeMapping SlabGrid

variable {D : ℕ}

/-- The sender in a global grid of supercells and the receiver next to it, with the first supercells of their domains.
A grid that wraps around has an extent. -/
structure Neighbors (sender receiver : MappingDescription D) (origin origin' extent : DataSpace D) (i : ℕ) : Prop where
  transversal : ∀ d, getRelativeDirections D i d = 0 → receiver.gridSuperCells d = sender.gridSuperCells d
  beside : ∀ d, origin' d ≡ origin d + (if getRelativeDirections D i d = 1 then
      sender.gridSuperCells d - 2 * sender.guardingSuperCells
    else if getRelativeDirections D i d = -1 then -(receiver.gridSuperCells d - 2 * receiver.guardingSuperCells)
    else 0) [ZMOD extent d]

def dstSuperCell (receiver : MappingDescription D) (c : DataSpace D) (i j : ℕ) : DataSpace D :=
  extend (reduce c i) j receiver.gridSuperCells fun _ => receiver.guardingSuperCells

theorem directions_ne_zero {i : ℕ} (hi : i ∈ exchanges D) : getRelativeDirections D i ≠ 0 := fun h => by
  have hpow : 0 < 3^D := Nat.pow_pos (by norm_num)
  have hzero := getRelativeDirections_injOn hi.2 hpow (h.trans (getRelativeDirections_zero D).symm)
  have := hi.1
  omega

section Target

variable {sender receiver : MappingDescription D} {origin origin' extent : DataSpace D} {i : ℕ}

theorem exchanges_lt (hD : D = 2 ∨ D = 3) (hi : i ∈ exchanges D) : i < 27 := by
  have hlt := hi.2
  rcases hD with rfl | rfl
  · exact hlt.trans (by decide)
  · exact hlt

theorem dstSuperCell_mirrored (hD : D = 2 ∨ D = 3) (hi : i ∈ exchanges D)
    (hguard : sender.guardingSuperCells = 1 ∧ receiver.guardingSuperCells = 1)
    (hborder : 1 ≤ receiver.borderSuperCells) (hgrid : ∀ d, 2 < receiver.gridSuperCells d)
    (hneighbors : Neighbors sender receiver origin origin' extent i) {c : DataSpace D}
    (hc : c ∈ (ExchangeMappingMethods.guard sender i).image) :
    dstSuperCell receiver c i (Mask.mirrored i) ∈ receiver.border ∧
      (∀ d, (getRelativeDirections D i d = 0 → dstSuperCell receiver c i (Mask.mirrored i) d = c d) ∧
        (getRelativeDirections D i d = 1 →
          dstSuperCell receiver c i (Mask.mirrored i) d = receiver.guardingSuperCells) ∧
        (getRelativeDirections D i d = -1 → dstSuperCell receiver c i (Mask.mirrored i) d =
          receiver.gridSuperCells d - receiver.guardingSuperCells - 1)) ∧
      ∀ d, origin' d + (dstSuperCell receiver c i (Mask.mirrored i) d - receiver.guardingSuperCells) ≡
        origin d + (c d - sender.guardingSuperCells) [ZMOD extent d] := by
  have hi27 := exchanges_lt hD hi
  have hj : getRelativeDirections D (Mask.mirrored i) = -getRelativeDirections D i :=
    Mask.getRelativeDirections_mirrored (by omega) i
  have hentry : ∀ d, dstSuperCell receiver c i (Mask.mirrored i) d =
      extendEntry (-getRelativeDirections D i d) (receiver.gridSuperCells d) receiver.guardingSuperCells (c d) :=
    extend_reduce hD (directions_ne_zero hi) hj c receiver.gridSuperCells fun _ => receiver.guardingSuperCells
  have hvalue : ∀ d, (getRelativeDirections D i d = 0 → dstSuperCell receiver c i (Mask.mirrored i) d = c d) ∧
      (getRelativeDirections D i d = 1 →
        dstSuperCell receiver c i (Mask.mirrored i) d = receiver.guardingSuperCells) ∧
      (getRelativeDirections D i d = -1 → dstSuperCell receiver c i (Mask.mirrored i) d =
        receiver.gridSuperCells d - receiver.guardingSuperCells - 1) := fun d => by
    rw [hentry d]
    refine ⟨fun h => ?_, fun h => ?_, fun h => ?_⟩ <;> simp [h, extendEntry]
  rw [guard_image] at hc
  obtain ⟨hsender, hreceiver⟩ := hguard
  simp only [hsender, hreceiver] at hc hvalue ⊢
  refine ⟨⟨fun d => ?_, fun hinner => ?_⟩, hvalue, fun d => ?_⟩
  · have hd := hc d
    have hgrid' := hneighbors.transversal d
    have := hgrid d
    rw [hreceiver]
    rcases getRelativeDirections_cases D i d with h | h | h
    · rw [(hvalue d).2.2 h]
      omega
    · rw [h, Segment, if_pos rfl] at hd
      rw [(hvalue d).1 h, hgrid' h]
      omega
    · rw [(hvalue d).2.1 h]
      omega
  · obtain ⟨d, hd⟩ := Function.ne_iff.mp (directions_ne_zero hi)
    have hin := hinner d
    rw [hreceiver] at hin
    rcases getRelativeDirections_cases D i d with h | h | h
    · rw [(hvalue d).2.2 h] at hin
      omega
    · exact hd h
    · rw [(hvalue d).2.1 h] at hin
      omega
  · have hd := hc d
    have hplace := hneighbors.beside d
    rw [hsender, hreceiver] at hplace
    rcases getRelativeDirections_cases D i d with h | h | h
    · rw [h, Segment, if_neg (by decide), if_neg (by decide)] at hd
      rw [h, if_neg (by decide), if_pos rfl] at hplace
      rw [(hvalue d).2.2 h]
      have hadd := hplace.add_right (receiver.gridSuperCells d - 1 - 1 - 1)
      convert hadd using 1
      omega
    · rw [h, if_neg (by decide), if_neg (by decide), add_zero] at hplace
      rw [(hvalue d).1 h]
      exact hplace.add_right _
    · rw [h, Segment, if_neg (by decide), if_pos rfl] at hd
      rw [h, if_pos rfl] at hplace
      rw [(hvalue d).2.1 h]
      have hadd := hplace.add_right (1 - 1)
      convert hadd using 1
      omega

end Target

/-- The particles of a guard supercell go to the border supercell that covers it. -/
theorem dstSuperCell_spec (hD : D = 2 ∨ D = 3) {sender receiver : MappingDescription D}
    {origin origin' extent : DataSpace D} {i : ℕ} (hi : i ∈ exchanges D)
    (hguard : sender.guardingSuperCells = 1 ∧ receiver.guardingSuperCells = 1)
    (hborder : 1 ≤ receiver.borderSuperCells) (hgrid : ∀ d, 2 < receiver.gridSuperCells d)
    (hneighbors : Neighbors sender receiver origin origin' extent i) {c : DataSpace D}
    (hc : c ∈ (ExchangeMappingMethods.guard sender i).image) :
    ∃ j, Mask.getMirroredExchangeType i = .ok j ∧ dstSuperCell receiver c i j ∈ receiver.border ∧
      (∀ d, (getRelativeDirections D i d = 0 → dstSuperCell receiver c i j d = c d) ∧
        (getRelativeDirections D i d = 1 → dstSuperCell receiver c i j d = receiver.guardingSuperCells) ∧
        (getRelativeDirections D i d = -1 →
          dstSuperCell receiver c i j d = receiver.gridSuperCells d - receiver.guardingSuperCells - 1)) ∧
      ∀ d, origin' d + (dstSuperCell receiver c i j d - receiver.guardingSuperCells) ≡
        origin d + (c d - sender.guardingSuperCells) [ZMOD extent d] :=
  ⟨Mask.mirrored i, Mask.getMirroredExchangeType_eq hi.1 (exchanges_lt hD hi),
    dstSuperCell_mirrored hD hi hguard hborder hgrid hneighbors hc⟩

/-- A device sends over an edge to the right and to the top, where the neighbor has another size. -/
theorem dstSuperCell_edge : ∃ j, Mask.getMirroredExchangeType (RIGHT + TOP) = .ok j ∧
    (∀ d, dstSuperCell (⟨![7, 9, 6], 1, 1⟩ : MappingDescription 3) ![4, 0, 2] (RIGHT + TOP) j d = ![1, 7, 2] d) ∧
    dstSuperCell (⟨![7, 9, 6], 1, 1⟩ : MappingDescription 3) ![4, 0, 2] (RIGHT + TOP) j ∈
      (⟨![7, 9, 6], 1, 1⟩ : MappingDescription 3).border := by
  have hneighbors : Neighbors (⟨![5, 6, 6], 1, 1⟩ : MappingDescription 3) ⟨![7, 9, 6], 1, 1⟩ ![0, 7, 0] ![3, 0, 0] 0
      (RIGHT + TOP) := ⟨by decide, fun d => congrArg (· % (0 : ℤ)) (by revert d; decide)⟩
  have hc : (![4, 0, 2] : DataSpace 3) ∈
      (ExchangeMappingMethods.guard (⟨![5, 6, 6], 1, 1⟩ : MappingDescription 3) (RIGHT + TOP)).image := by
    refine ⟨![0, 0, 1], fun d => ?_, congrArg some (funext fun d => ?_)⟩
    · fin_cases d <;> decide
    · fin_cases d <;> decide
  obtain ⟨j, hj, hborder, hvalue, -⟩ := dstSuperCell_spec (.inr rfl) ⟨by decide, by decide⟩ ⟨rfl, rfl⟩ le_rfl (by decide)
    hneighbors hc
  refine ⟨j, hj, fun d => ?_, hborder⟩
  fin_cases d
  · exact (hvalue 0).2.1 (by decide)
  · exact (hvalue 1).2.2 (by decide)
  · exact (hvalue 2).1 (by decide)

end ExchangeTarget

end PIConGPU
