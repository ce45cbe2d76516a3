import PIConGPU.ShiftParticles
import PIConGPU.SupercellGrid

/-!
# Strided visits of an area

`StrideMapping` visits an area in phases. The supercells of a phase are a stride apart in every
dimension, so that blocks of one phase which touch close neighbours only do not meet.
-/
namespace PIConGPU

/-- The areas that `StrideMappingMethods` is specialised for. -/
inductive StrideArea
  | CORE
  | CORE_BORDER
  | CORE_BORDER_GUARD
  deriving DecidableEq, Repr

namespace StridedArea

variable {D : ℕ} (m : MappingDescription D) (area : StrideArea) (stride : ℕ)

def margin : StrideArea → ℤ
  | .CORE => m.guardingSuperCells + m.borderSuperCells
  | .CORE_BORDER => m.guardingSuperCells
  | .CORE_BORDER_GUARD => 0

def region : Set (DataSpace D) := m.inner (margin m area)

def extent : DataSpace D := fun d => m.gridSuperCells d - 2 * margin m area

def getGridDim (offset : DataSpace D) : DataSpace D := fun d =>
  (extent m area d - offset d + stride - 1).tdiv stride

def getSuperCellIndex (offset realSuperCellIdx : DataSpace D) : DataSpace D := fun d =>
  realSuperCellIdx d * stride + offset d + margin m area

def next (offset : DataSpace D) : DataSpace D × Bool :=
  let linearOffset := DataSpaceOperations.map (fun _ => (stride : ℤ)) offset + 1
  (DataSpaceOperations.unmap (fun _ => (stride : ℤ)) linearOffset,
    linearOffset < ∏ _d : Fin D, (stride : ℤ))

/-- The offsets for which the body of `do … while (mapper.next())` runs, with a bound on their number. -/
def phases : ℕ → DataSpace D → Option (List (DataSpace D))
  | 0, _ => none
  | n + 1, offset =>
    if (next stride offset).2 then (phases n (next stride offset).1).map (offset :: ·) else some [offset]

def phaseOffset (D stride k : ℕ) : DataSpace D := fun d => ((k / stride^d.val % stride : ℕ) : ℤ)

theorem sum_digits (stride k n : ℕ) : ∑ d ∈ Finset.range n, k / stride^d % stride * stride^d = k % stride^n := by
  induction n with
  | zero => simp [Nat.mod_one]
  | succ n ih => rw [Finset.sum_range_succ, ih, Nat.mod_pow_succ, Nat.mul_comm]

variable {stride}

theorem map_phaseOffset (hD : D = 2 ∨ D = 3) {k : ℕ} (hk : k < stride^D) :
    DataSpaceOperations.map (fun _ => (stride : ℤ)) (phaseOffset D stride k) = k := by
  have h := sum_digits stride k D
  rw [Nat.mod_eq_of_lt hk, ← Fin.sum_univ_eq_sum_range fun d => k / stride^d % stride * stride^d] at h
  have hsum : ∑ d, phaseOffset D stride k d * (stride : ℤ)^d.val = k := by
    have hcast : ((∑ d : Fin D, k / stride^d.val % stride * stride^d.val : ℕ) : ℤ) = k := congrArg _ h
    simpa [phaseOffset] using hcast
  rw [← hsum]
  rcases hD with rfl | rfl
  · rw [Fin.sum_univ_two]
    simp only [DataSpaceOperations.map, Fin.val_zero, Fin.val_one]
    ring
  · rw [Fin.sum_univ_three]
    simp only [DataSpaceOperations.map, Fin.val_zero, Fin.val_one, Fin.val_two]
    ring

theorem unmap_eq_phaseOffset (hD : D = 2 ∨ D = 3) {k : ℕ} (hk : k < stride^D) :
    DataSpaceOperations.unmap (fun _ => (stride : ℤ)) k = phaseOffset D stride k := by
  have hs : 0 < stride := Nat.pos_of_ne_zero fun h0 => by
    rcases hD with rfl | rfl <;> simp [h0] at hk
  funext d
  rcases hD with rfl | rfl
  · have hlast : k / stride < stride := Nat.div_lt_of_lt_mul (by rwa [pow_two] at hk)
    fin_cases d <;> simp [DataSpaceOperations.unmap, phaseOffset]
    exact_mod_cast (Nat.mod_eq_of_lt hlast).symm
  · have hlast : k / stride^2 < stride := Nat.div_lt_of_lt_mul (by rwa [pow_succ] at hk)
    fin_cases d <;> simp [DataSpaceOperations.unmap, phaseOffset]
    · exact_mod_cast Nat.mod_mul_left_div_self k stride stride
    · rw [← pow_two]
      exact_mod_cast (Nat.mod_eq_of_lt hlast).symm

theorem phaseOffset_zero : phaseOffset D stride 0 = 0 := by
  funext d
  simp [phaseOffset]

theorem phaseOffset_lt (hs : 1 ≤ stride) (k : ℕ) (d : Fin D) :
    0 ≤ phaseOffset D stride k d ∧ phaseOffset D stride k d < stride := by
  have := Nat.mod_lt (k / stride^d.val) hs
  simp only [phaseOffset]
  omega

/-- The next phase has the next number, and the last phase has none after it. -/
theorem next_phaseOffset (hD : D = 2 ∨ D = 3) {k : ℕ} (hk : k < stride^D) :
    ((next stride (phaseOffset D stride k)).2 ↔ k + 1 < stride^D) ∧
      (k + 1 < stride^D → (next stride (phaseOffset D stride k)).1 = phaseOffset D stride (k + 1)) := by
  simp only [next, map_phaseOffset hD hk]
  refine ⟨?_, fun hlt => unmap_eq_phaseOffset hD hlt⟩
  rw [decide_eq_true_iff, Finset.prod_const, Finset.card_univ, Fintype.card_fin]
  exact_mod_cast Iff.rfl

theorem phases_phaseOffset (hD : D = 2 ∨ D = 3) {k n fuel : ℕ} (hn : k + (n + 1) = stride^D) (hf : n < fuel) :
    phases stride fuel (phaseOffset D stride k) =
      some ((List.range' k (n + 1)).map (phaseOffset D stride)) := by
  induction fuel generalizing k n with
  | zero => omega
  | succ fuel ih =>
    have hk : k < stride^D := by omega
    obtain ⟨hlast, hnext⟩ := next_phaseOffset hD hk
    rw [phases]
    by_cases hlt : k + 1 < stride^D
    · obtain ⟨n, rfl⟩ : ∃ n', n = n' + 1 := ⟨n - 1, by omega⟩
      have hn' : k + 1 + (n + 1) = stride^D := by omega
      rw [if_pos (hlast.mpr hlt), hnext hlt, ih hn' (by omega)]
      simp [List.range'_succ]
    · obtain rfl : n = 0 := by omega
      rw [if_neg (mt hlast.mp hlt)]
      simp

/-- Enough rounds of the loop are the phases in the order of their numbers. -/
theorem phases_eq (hD : D = 2 ∨ D = 3) (hs : 1 ≤ stride) {fuel : ℕ} (hf : stride^D ≤ fuel) :
    phases stride fuel (0 : DataSpace D) = some ((List.range (stride^D)).map (phaseOffset D stride)) := by
  have hpos : 0 < stride^D := Nat.pow_pos hs
  obtain ⟨n, hn⟩ : ∃ n, stride^D = n + 1 := ⟨stride^D - 1, by omega⟩
  have hn' : 0 + (n + 1) = stride^D := by omega
  have h := phases_phaseOffset hD hn' (show n < fuel by omega)
  rwa [phaseOffset_zero, ← hn, ← List.range_eq_range'] at h

section Visits

variable (stride)

/-- Block `idx` of the phase with the given offset works on supercell `c`. -/
def Visits (offset idx c : DataSpace D) : Prop :=
  idx ∈ launchBox (getGridDim m area stride offset) ∧ getSuperCellIndex m area stride offset idx = c

variable {m area stride}

theorem extent_pos (hne : (region m area).Nonempty) (d : Fin D) : 0 < extent m area d := by
  obtain ⟨c, hc⟩ := hne
  have := hc d
  simp only [extent]
  omega

theorem lt_getGridDim_iff (hne : (region m area).Nonempty) (hs : 1 ≤ stride) {offset : DataSpace D} {d : Fin D}
    (ho : 0 ≤ offset d ∧ offset d < stride) (i : ℤ) :
    i < getGridDim m area stride offset d ↔ i * stride + offset d < extent m area d := by
  have he := extent_pos hne d
  have hs' : (0 : ℤ) < stride := by exact_mod_cast hs
  have hnum : 0 ≤ extent m area d - offset d + stride - 1 := by omega
  rw [getGridDim, Int.tdiv_eq_ediv_of_nonneg hnum, ← Int.add_one_le_iff, Int.le_ediv_iff_mul_le hs', add_mul]
  omega

/-- The phase and the block of a supercell are the remainder and the quotient of its position. -/
theorem visits_iff (hne : (region m area).Nonempty) (hs : 1 ≤ stride) {offset : DataSpace D}
    (ho : ∀ d, 0 ≤ offset d ∧ offset d < stride) {idx c : DataSpace D} :
    Visits m area stride offset idx c ↔ c ∈ region m area ∧
      ∀ d, offset d = (c d - margin m area) % stride ∧ idx d = (c d - margin m area) / stride := by
  have hs' : (0 : ℤ) < stride := by exact_mod_cast hs
  constructor
  · rintro ⟨hidx, rfl⟩
    refine ⟨fun d => ?_, fun d => ?_⟩
    · have hlow : 0 ≤ idx d * stride := mul_nonneg (hidx d).1 hs'.le
      have hhigh := (lt_getGridDim_iff hne hs (ho d) (idx d)).mp (hidx d).2
      have := ho d
      simp only [getSuperCellIndex, extent] at *
      omega
    · have hpos : getSuperCellIndex m area stride offset idx d - margin m area =
          offset d + idx d * stride := by
        simp only [getSuperCellIndex]
        ring
      rw [hpos, Int.add_mul_emod_self_right, Int.add_mul_ediv_right _ _ hs'.ne',
        Int.emod_eq_of_lt (ho d).1 (ho d).2, Int.ediv_eq_zero_of_lt (ho d).1 (ho d).2]
      simp
  · rintro ⟨hc, hdig⟩
    have hpos : ∀ d, idx d * stride + offset d = c d - margin m area := fun d => by
      rw [(hdig d).1, (hdig d).2, mul_comm]
      exact Int.mul_ediv_add_emod _ _
    refine ⟨fun d => ⟨?_, ?_⟩, funext fun d => ?_⟩
    · rw [(hdig d).2]
      exact Int.ediv_nonneg (by have := hc d; omega) hs'.le
    · rw [lt_getGridDim_iff hne hs (ho d), hpos, extent]
      have := hc d
      omega
    · simp only [getSuperCellIndex, hpos]
      ring

theorem exists_phaseOffset (hs : 1 ≤ stride) (x : DataSpace D) :
    ∃ k < stride^D, ∀ d, phaseOffset D stride k d = x d % stride := by
  have hs' : (0 : ℤ) < stride := by exact_mod_cast hs
  have hlt : ∀ d, (x d % stride).toNat < stride := fun d => by
    have := Int.emod_nonneg (x d) hs'.ne'
    have := Int.emod_lt_of_pos (x d) hs'
    omega
  obtain ⟨k, hk, hdigit⟩ := RowMajor.exists_digits fun d => ⟨(x d % stride).toNat, hlt d⟩
  refine ⟨k, hk, fun d => ?_⟩
  rw [phaseOffset, hdigit d, Int.toNat_of_nonneg (Int.emod_nonneg _ hs'.ne')]

theorem phaseOffset_inj (hD : D = 2 ∨ D = 3) {k l : ℕ} (hk : k < stride^D) (hl : l < stride^D)
    (h : phaseOffset D stride k = phaseOffset D stride l) : k = l := by
  have hmap := map_phaseOffset hD hk
  rw [h, map_phaseOffset hD hl] at hmap
  exact_mod_cast hmap.symm

theorem existsUnique_visits (hne : (region m area).Nonempty) (hD : D = 2 ∨ D = 3) (hs : 1 ≤ stride)
    {c : DataSpace D} (hc : c ∈ region m area) :
    ∃! v : ℕ × DataSpace D, v.1 < stride^D ∧ Visits m area stride (phaseOffset D stride v.1) v.2 c := by
  obtain ⟨k, hk, hdig⟩ := exists_phaseOffset hs fun d => c d - margin m area
  refine ⟨(k, fun d => (c d - margin m area) / stride), ⟨hk, ?_⟩, ?_⟩
  · exact (visits_iff hne hs (phaseOffset_lt hs k)).mpr ⟨hc, fun d => ⟨hdig d, rfl⟩⟩
  · rintro ⟨l, idx⟩ ⟨hl, hv⟩
    obtain ⟨-, hdig'⟩ := (visits_iff hne hs (phaseOffset_lt hs l)).mp hv
    have hkl : l = k := phaseOffset_inj hD hl hk (funext fun d => by rw [(hdig' d).1, hdig d])
    have hidx : idx = fun d => (c d - margin m area) / stride := funext fun d => (hdig' d).2
    rw [hkl, hidx]

/-- Distinct supercells of a phase are at least a stride apart in some dimension. -/
theorem exists_multiple {offset idx idx' c c' : DataSpace D} (h : Visits m area stride offset idx c)
    (h' : Visits m area stride offset idx' c') (hcc : c ≠ c') : ∃ d, ∃ z : ℤ, z ≠ 0 ∧ c d - c' d = z * stride := by
  obtain ⟨d, hd⟩ := Function.ne_iff.mp hcc
  have hz : c d - c' d = (idx d - idx' d) * stride := by
    rw [← h.2, ← h'.2]
    simp only [getSuperCellIndex]
    ring
  refine ⟨d, idx d - idx' d, fun h0 => hd ?_, hz⟩
  rw [h0, zero_mul] at hz
  omega

end Visits

def neighborhood (c : DataSpace D) : Set (DataSpace D) := {c' | ∀ d, c d - 1 ≤ c' d ∧ c' d ≤ c d + 1}

/-- The cells of a supercell with margins on both sides. -/
def cellBox (size lower upper c : DataSpace D) : Set (DataSpace D) :=
  {x | ∀ d, c d * size d - lower d ≤ x d ∧ x d < c d * size d + size d + upper d}

theorem disjoint_neighborhood {c c' : DataSpace D} {d : Fin D} {z : ℤ} (hz : z ≠ 0) (h : c d - c' d = z * 3) :
    Disjoint (neighborhood c) (neighborhood c') := by
  rw [Set.disjoint_left]
  intro x hx hx'
  have h1 := hx d
  have h2 := hx' d
  omega

theorem disjoint_cellBox {s : ℤ} {size lower upper c c' : DataSpace D} {d : Fin D} {z : ℤ} (hz : z ≠ 0)
    (hs : 0 ≤ s) (hsize : 0 ≤ size d) (h : c d - c' d = z * s)
    (hmargin : lower d + upper d ≤ (s - 1) * size d) :
    Disjoint (cellBox size lower upper c) (cellBox size lower upper c') := by
  rw [Set.disjoint_left]
  intro x hx hx'
  have h1 := hx d
  have h2 := hx' d
  have hdist : c d * size d - c' d * size d = z * (s * size d) := by
    rw [← sub_mul, h, mul_assoc]
  have hss : 0 ≤ s * size d := mul_nonneg hs hsize
  have hmargin' : lower d + upper d ≤ s * size d - size d := by linarith
  -- the two boxes are a positive or a negative number of strides apart
  rcases lt_or_gt_of_ne hz with hneg | hpos
  · have : z * (s * size d) ≤ -1 * (s * size d) := mul_le_mul_of_nonneg_right (by omega) hss
    omega
  · have : 1 * (s * size d) ≤ z * (s * size d) := mul_le_mul_of_nonneg_right (by omega) hss
    omega

/-- The loop of phases ends, visits every supercell of the area once, and keeps the blocks of a phase apart. -/
theorem strided_phases_checkerboard (hD : D = 2 ∨ D = 3) (hs : 1 ≤ stride)
    (hne : (region m area).Nonempty) :
    ∃ offsets : List (DataSpace D), offsets.length = stride^D ∧
      (∀ fuel, stride^D ≤ fuel → phases stride fuel 0 = some offsets) ∧
      (∀ offset ∈ offsets, ∀ idx ∈ launchBox (getGridDim m area stride offset),
        getSuperCellIndex m area stride offset idx ∈ region m area) ∧
      (∀ c ∈ region m area, ∃! v : Fin offsets.length × DataSpace D,
        Visits m area stride (offsets.get v.1) v.2 c) ∧
      ∀ offset ∈ offsets, ∀ idx idx' c c', Visits m area stride offset idx c →
        Visits m area stride offset idx' c' → c ≠ c' →
          (∃ d, ∃ z : ℤ, z ≠ 0 ∧ c d - c' d = z * stride) ∧
          (stride = 3 → Disjoint (neighborhood c) (neighborhood c')) ∧
          ∀ size lower upper : DataSpace D,
            (∀ d, 0 ≤ size d ∧ lower d + upper d ≤ ((stride : ℤ) - 1) * size d) →
              Disjoint (cellBox size lower upper c) (cellBox size lower upper c') := by
  refine ⟨(List.range (stride^D)).map (phaseOffset D stride), by simp, fun fuel hf => phases_eq hD hs hf,
    ?_, ?_, ?_⟩
  · intro offset hoff idx hidx
    obtain ⟨k, -, rfl⟩ := List.mem_map.mp hoff
    exact ((visits_iff hne hs (phaseOffset_lt hs k)).mp ⟨hidx, rfl⟩).1
  · intro c hc
    obtain ⟨⟨k, idx⟩, ⟨hk, hv⟩, huniq⟩ := existsUnique_visits hne hD hs hc
    refine ⟨(⟨k, by simpa using hk⟩, idx), by simpa using hv, ?_⟩
    rintro ⟨⟨l, hl⟩, idx'⟩ hv'
    have h := huniq (l, idx') ⟨by simpa using hl, by simpa using hv'⟩
    simpa using h
  · intro offset _ idx idx' c c' hv hv' hcc
    obtain ⟨d, z, hz, hdist⟩ := exists_multiple hv hv' hcc
    refine ⟨⟨d, z, hz, hdist⟩, fun h3 => ?_, fun size lower upper hm => ?_⟩
    · subst h3
      exact disjoint_neighborhood hz hdist
    · exact disjoint_cellBox hz (by omega) (hm d).1 hdist (hm d).2

/-- A grid of five supercells in each of two dimensions, visited with a stride of three. -/
theorem strided_phases_checkerboard_five :
    (region (⟨fun _ => 5, 1, 1⟩ : MappingDescription 2) .CORE_BORDER).Nonempty ∧
    ∃ offsets : List (DataSpace 2), offsets.length = 3^2 ∧
      (∀ fuel, 3^2 ≤ fuel → phases 3 fuel 0 = some offsets) ∧
      ∀ c ∈ region (⟨fun _ => 5, 1, 1⟩ : MappingDescription 2) .CORE_BORDER,
        ∃! v : Fin offsets.length × DataSpace 2, Visits ⟨fun _ => 5, 1, 1⟩ .CORE_BORDER 3 (offsets.get v.1) v.2 c := by
  have hne : (region (⟨fun _ => 5, 1, 1⟩ : MappingDescription 2) .CORE_BORDER).Nonempty :=
    ⟨fun _ => 2, fun d => by simp [margin]⟩
  obtain ⟨offsets, hlen, hrun, -, hvisit, -⟩ := strided_phases_checkerboard _ _ (Or.inl rfl) (show 1 ≤ 3 by norm_num) hne
  exact ⟨hne, offsets, hlen, hrun, hvisit⟩

end StridedArea

end PIConGPU
