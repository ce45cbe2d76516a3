import Mathlib

/-!
# Particle shapes

The charge assignment functions of the continuous shapes, over exact rationals. Each vanishes
outside of its support and is a partition of unity over the grid nodes.
-/
namespace PIConGPU

/-- A charge assignment function and the width of its support. -/
structure Shape where
  support : ℕ
  chargeAssignment : ℚ → ℚ

/-- Conversion of a condition to a number. -/
def boolWeight (p : Prop) [Decidable p] : ℚ := if p then 1 else 0

theorem boolWeight_pos {p : Prop} [Decidable p] (h : p) : boolWeight p = 1 := if_pos h

theorem boolWeight_neg {p : Prop} [Decidable p] (h : ¬ p) : boolWeight p = 0 := if_neg h

namespace NGP

def chargeAssignment (x : ℚ) : ℚ := boolWeight (-1 / 2 ≤ x ∧ x < 1 / 2)

def chargeAssignmentOnSupport (_ : ℚ) : ℚ := 1

end NGP

namespace CIC

def chargeAssignment (x : ℚ) : ℚ := boolWeight (|x| < 1) * (1 - |x|)

theorem chargeAssignment_of_le {x : ℚ} (h : |x| ≤ 1) : chargeAssignment x = 1 - |x| := by
  rcases h.lt_or_eq with h | h
  · rw [chargeAssignment, boolWeight_pos h, one_mul]
  · rw [chargeAssignment, h, sub_self, mul_zero]

theorem chargeAssignment_of_ge {x : ℚ} (h : 1 ≤ |x|) : chargeAssignment x = 0 := by
  rw [chargeAssignment, boolWeight_neg (not_lt.mpr h), zero_mul]

def chargeAssignmentOnSupport (x : ℚ) : ℚ := 1 - |x|

end CIC

namespace TSC

def ff_1st_radius (x : ℚ) : ℚ := 3 / 4 - x * x

def ff_2nd_radius (x : ℚ) : ℚ := 1 / 2 * ((3 / 2 - x) * (3 / 2 - x))

def chargeAssignment (x : ℚ) : ℚ :=
  boolWeight (|x| < 1 / 2) * ff_1st_radius |x| +
    boolWeight (|x| < 3 / 2 ∧ ¬ |x| < 1 / 2) * ff_2nd_radius |x|

def chargeAssignmentOnSupport (x : ℚ) : ℚ :=
  boolWeight (|x| < 1 / 2) * ff_1st_radius |x| + boolWeight (¬ |x| < 1 / 2) * ff_2nd_radius |x|

theorem chargeAssignment_1st {x : ℚ} (h : |x| ≤ 1 / 2) : chargeAssignment x = ff_1st_radius |x| := by
  rcases h.lt_or_eq with h | h
  · rw [chargeAssignment, boolWeight_pos h, boolWeight_neg (fun h' => h'.2 h), one_mul, zero_mul,
      add_zero]
  · simp only [chargeAssignment, boolWeight, h, ff_1st_radius, ff_2nd_radius]
    norm_num

theorem chargeAssignment_2nd {x : ℚ} (h : 1 / 2 ≤ |x|) (h' : |x| ≤ 3 / 2) :
    chargeAssignment x = ff_2nd_radius |x| := by
  rcases h'.lt_or_eq with h' | h'
  · rw [chargeAssignment, boolWeight_neg (not_lt.mpr h), boolWeight_pos ⟨h', not_lt.mpr h⟩, one_mul,
      zero_mul, zero_add]
  · simp only [chargeAssignment, boolWeight, h', ff_1st_radius, ff_2nd_radius]
    norm_num

theorem chargeAssignment_of_ge {x : ℚ} (h : 3 / 2 ≤ |x|) : chargeAssignment x = 0 := by
  have h' : ¬ |x| < 1 / 2 := by linarith
  rw [chargeAssignment, boolWeight_neg h', boolWeight_neg (fun h'' => not_lt.mpr h h''.1), zero_mul,
    zero_mul, add_zero]

end TSC

namespace PCS

def ff_1st_radius (x : ℚ) : ℚ := 1 / 6 * (4 - 6 * (x * x) + 3 * (x * x * x))

def ff_2nd_radius (x : ℚ) : ℚ := 1 / 6 * ((2 - x) * (2 - x) * (2 - x))

def chargeAssignment (x : ℚ) : ℚ :=
  boolWeight (|x| < 1) * ff_1st_radius |x| +
    boolWeight (|x| < 2 ∧ ¬ |x| < 1) * ff_2nd_radius |x|

def chargeAssignmentOnSupport (x : ℚ) : ℚ :=
  boolWeight (|x| < 1) * ff_1st_radius |x| + boolWeight (¬ |x| < 1) * ff_2nd_radius |x|

theorem chargeAssignment_1st {x : ℚ} (h : |x| ≤ 1) : chargeAssignment x = ff_1st_radius |x| := by
  rcases h.lt_or_eq with h | h
  · rw [chargeAssignment, boolWeight_pos h, boolWeight_neg (fun h' => h'.2 h), one_mul, zero_mul,
      add_zero]
  · simp only [chargeAssignment, boolWeight, h, ff_1st_radius, ff_2nd_radius]
    norm_num

theorem chargeAssignment_2nd {x : ℚ} (h : 1 ≤ |x|) (h' : |x| ≤ 2) :
    chargeAssignment x = ff_2nd_radius |x| := by
  rcases h'.lt_or_eq with h' | h'
  · rw [chargeAssignment, boolWeight_neg (not_lt.mpr h), boolWeight_pos ⟨h', not_lt.mpr h⟩, one_mul,
      zero_mul, zero_add]
  · simp only [chargeAssignment, boolWeight, h', ff_1st_radius, ff_2nd_radius]
    norm_num

theorem chargeAssignment_of_ge {x : ℚ} (h : 2 ≤ |x|) : chargeAssignment x = 0 := by
  have h' : ¬ |x| < 1 := by linarith
  rw [chargeAssignment, boolWeight_neg h', boolWeight_neg (fun h'' => not_lt.mpr h h''.1), zero_mul,
    zero_mul, add_zero]

end PCS

namespace P4S

def ff_1st_radius (x : ℚ) : ℚ := 115 / 192 + x * x * (-5 / 8 + 1 / 4 * (x * x))

def ff_2nd_radius (x : ℚ) : ℚ :=
  1 / 96 * (55 + 4 * x * (5 - 2 * x * (15 + 2 * x * (-5 + x))))

def ff_3rd_radius (x : ℚ) : ℚ :=
  1 / 384 * ((5 - 2 * x) * (5 - 2 * x) * ((5 - 2 * x) * (5 - 2 * x)))

def chargeAssignmentOnSupport (x : ℚ) : ℚ :=
  if |x| < 3 / 2 then
    if |x| < 1 / 2 then ff_1st_radius |x| else ff_2nd_radius |x|
  else ff_3rd_radius |x|

def chargeAssignment (x : ℚ) : ℚ := if |x| < 5 / 2 then chargeAssignmentOnSupport |x| else 0

theorem chargeAssignment_1st {x : ℚ} (h : |x| ≤ 1 / 2) : chargeAssignment x = ff_1st_radius |x| := by
  rcases h.lt_or_eq with h | h
  · rw [chargeAssignment, chargeAssignmentOnSupport, abs_abs, if_pos (by linarith),
      if_pos (by linarith), if_pos h]
  · simp only [chargeAssignment, chargeAssignmentOnSupport, h, ff_1st_radius, ff_2nd_radius]
    norm_num

theorem chargeAssignment_2nd {x : ℚ} (h : 1 / 2 ≤ |x|) (h' : |x| ≤ 3 / 2) :
    chargeAssignment x = ff_2nd_radius |x| := by
  rcases h'.lt_or_eq with h' | h'
  · rw [chargeAssignment, chargeAssignmentOnSupport, abs_abs, if_pos (by linarith), if_pos h',
      if_neg (by linarith)]
  · simp only [chargeAssignment, chargeAssignmentOnSupport, h', ff_2nd_radius, ff_3rd_radius]
    norm_num

theorem chargeAssignment_3rd {x : ℚ} (h : 3 / 2 ≤ |x|) (h' : |x| ≤ 5 / 2) :
    chargeAssignment x = ff_3rd_radius |x| := by
  rcases h'.lt_or_eq with h' | h'
  · rw [chargeAssignment, chargeAssignmentOnSupport, abs_abs, if_pos h', if_neg (by linarith)]
  · simp only [chargeAssignment, h', ff_3rd_radius]
    norm_num

theorem chargeAssignment_of_ge {x : ℚ} (h : 5 / 2 ≤ |x|) : chargeAssignment x = 0 := by
  rw [chargeAssignment, if_neg (not_lt.mpr h)]

end P4S

/-- The shapes without jumps. -/
inductive ContinuousShape
  | CIC
  | TSC
  | PCS
  | P4S
  deriving DecidableEq, Repr

def ContinuousShape.shape : ContinuousShape → Shape
  | .CIC => ⟨2, CIC.chargeAssignment⟩
  | .TSC => ⟨3, TSC.chargeAssignment⟩
  | .PCS => ⟨4, PCS.chargeAssignment⟩
  | .P4S => ⟨5, P4S.chargeAssignment⟩

/-- The functions that may be evaluated on the support only. -/
def ContinuousShape.onSupport : ContinuousShape → Shape
  | .CIC => ⟨2, CIC.chargeAssignmentOnSupport⟩
  | .TSC => ⟨3, TSC.chargeAssignmentOnSupport⟩
  | .PCS => ⟨4, PCS.chargeAssignmentOnSupport⟩
  | .P4S => ⟨5, P4S.chargeAssignmentOnSupport⟩

namespace Shape

/-- What current deposition needs of a shape: it vanishes outside of its support, and at every
position the values on the `support` nodes around it add up to one. -/
structure IsAssignment (S : Shape) : Prop where
  eq_zero : ∀ x : ℚ, (S.support : ℚ) / 2 ≤ |x| → S.chargeAssignment x = 0
  sum_nodes : ∀ x : ℚ, 0 ≤ x → x < 1 →
    ∑ k ∈ Finset.range S.support,
      S.chargeAssignment ((k : ℚ) + 1 - (S.support : ℚ) / 2 - x) = 1

/-- Nodes at which the shape does not vanish may be summed over any larger window. -/
theorem IsAssignment.sum_window {S : Shape} (hS : S.IsAssignment) (y : ℚ) {W : Finset ℤ}
    (hW : ∀ n : ℤ, |(n : ℚ) - y| < (S.support : ℚ) / 2 → n ∈ W) :
    ∑ n ∈ W, S.chargeAssignment (n - y) = 1 := by
  set m : ℤ := ⌊y - (S.support : ℚ) / 2⌋ + 1 with hm
  have hx0 := Int.fract_nonneg (y - (S.support : ℚ) / 2)
  have hx1 := Int.fract_lt_one (y - (S.support : ℚ) / 2)
  have hnode : ∀ k : ℕ, ((m + k : ℤ) : ℚ) - y =
      (k : ℚ) + 1 - (S.support : ℚ) / 2 - Int.fract (y - (S.support : ℚ) / 2) := by
    intro k
    have hf := Int.self_sub_floor (y - (S.support : ℚ) / 2)
    push_cast [hm]
    linarith
  have himage : ∑ n ∈ (Finset.range S.support).image (fun k : ℕ => m + (k : ℤ)),
      S.chargeAssignment (n - y) = 1 := by
    rw [Finset.sum_image (by intro a _ b _ h; simpa using h)]
    simp only [hnode]
    exact hS.sum_nodes _ hx0 hx1
  rw [← himage]
  have hzero : ∀ n : ℤ, ¬ |(n : ℚ) - y| < (S.support : ℚ) / 2 → S.chargeAssignment (n - y) = 0 :=
    fun n hn => hS.eq_zero _ (not_lt.mp hn)
  have hmem : ∀ n : ℤ, |(n : ℚ) - y| < (S.support : ℚ) / 2 →
      n ∈ (Finset.range S.support).image (fun k : ℕ => m + (k : ℤ)) := by
    intro n hn
    obtain ⟨hlo, hhi⟩ := abs_lt.mp hn
    have h0 : m ≤ n := by
      rw [hm, Int.add_one_le_iff, Int.floor_lt]
      linarith
    have h1 : n < m + S.support := by
      have hlt : ((n - S.support : ℤ) : ℚ) < ⌊y - (S.support : ℚ) / 2⌋ + 1 := by
        have := Int.lt_floor_add_one (y - (S.support : ℚ) / 2)
        push_cast
        linarith
      have : n - S.support < m := by
        rw [hm]
        exact_mod_cast hlt
      omega
    exact Finset.mem_image.mpr ⟨(n - m).toNat, Finset.mem_range.mpr (by omega), by omega⟩
  exact (Finset.sum_subset Finset.subset_union_left fun n _ hn => hzero n fun h => hn (hW n h)).trans
    (Finset.sum_subset Finset.subset_union_right fun n _ hn => hzero n fun h => hn (hmem n h)).symm

end Shape

theorem abs_eq_of_nonpos {a b : ℚ} (h : a = -b) (hb : 0 ≤ b) : |a| = b := by
  rw [h, abs_neg, abs_of_nonneg hb]

theorem abs_eq_of_nonneg {a b : ℚ} (h : a = b) (hb : 0 ≤ b) : |a| = b := by
  rw [h, abs_of_nonneg hb]

namespace ContinuousShape

theorem isAssignment_CIC : CIC.shape.IsAssignment := by
  refine ⟨fun x hx => CIC.chargeAssignment_of_ge (by simpa [shape] using hx), fun x h0 h1 => ?_⟩
  have e0 : |(0 : ℚ) + 1 - 2 / 2 - x| = x := abs_eq_of_nonpos (by ring) h0
  have e1 : |(1 : ℚ) + 1 - 2 / 2 - x| = 1 - x := abs_eq_of_nonneg (by ring) (by linarith)
  simp only [shape, Finset.sum_range_succ, Finset.sum_range_zero, Nat.cast_zero, Nat.cast_one,
    Nat.cast_ofNat]
  rw [CIC.chargeAssignment_of_le (by rw [e0]; linarith), e0,
    CIC.chargeAssignment_of_le (by rw [e1]; linarith), e1]
  ring

theorem isAssignment_TSC : TSC.shape.IsAssignment := by
  refine ⟨fun x hx => TSC.chargeAssignment_of_ge (by simpa [shape] using hx), fun x h0 h1 => ?_⟩
  have e0 : |(0 : ℚ) + 1 - 3 / 2 - x| = x + 1 / 2 := abs_eq_of_nonpos (by ring) (by linarith)
  have e2 : |(2 : ℚ) + 1 - 3 / 2 - x| = 3 / 2 - x := abs_eq_of_nonneg (by ring) (by linarith)
  have e1 : |(1 : ℚ) + 1 - 3 / 2 - x| ≤ 1 / 2 := abs_le.mpr ⟨by linarith, by linarith⟩
  simp only [shape, Finset.sum_range_succ, Finset.sum_range_zero, Nat.cast_zero, Nat.cast_one,
    Nat.cast_ofNat]
  rw [TSC.chargeAssignment_2nd (by rw [e0]; linarith) (by rw [e0]; linarith), e0,
    TSC.chargeAssignment_1st e1,
    TSC.chargeAssignment_2nd (by rw [e2]; linarith) (by rw [e2]; linarith), e2]
  simp only [TSC.ff_1st_radius, TSC.ff_2nd_radius, abs_mul_abs_self]
  ring

theorem isAssignment_PCS : PCS.shape.IsAssignment := by
  refine ⟨fun x hx => PCS.chargeAssignment_of_ge (by norm_num [shape] at hx; exact hx), fun x h0 h1 => ?_⟩
  have e0 : |(0 : ℚ) + 1 - 4 / 2 - x| = x + 1 := abs_eq_of_nonpos (by ring) (by linarith)
  have e1 : |(1 : ℚ) + 1 - 4 / 2 - x| = x := abs_eq_of_nonpos (by ring) h0
  have e2 : |(2 : ℚ) + 1 - 4 / 2 - x| = 1 - x := abs_eq_of_nonneg (by ring) (by linarith)
  have e3 : |(3 : ℚ) + 1 - 4 / 2 - x| = 2 - x := abs_eq_of_nonneg (by ring) (by linarith)
  simp only [shape, Finset.sum_range_succ, Finset.sum_range_zero, Nat.cast_zero, Nat.cast_one,
    Nat.cast_ofNat]
  rw [PCS.chargeAssignment_2nd (by rw [e0]; linarith) (by rw [e0]; linarith), e0,
    PCS.chargeAssignment_1st (by rw [e1]; linarith), e1,
    PCS.chargeAssignment_1st (by rw [e2]; linarith), e2,
    PCS.chargeAssignment_2nd (by rw [e3]; linarith) (by rw [e3]; linarith), e3]
  simp only [PCS.ff_1st_radius, PCS.ff_2nd_radius]
  ring

theorem isAssignment_P4S : P4S.shape.IsAssignment := by
  refine ⟨fun x hx => P4S.chargeAssignment_of_ge (by simpa [shape] using hx), fun x h0 h1 => ?_⟩
  have e0 : |(0 : ℚ) + 1 - 5 / 2 - x| = x + 3 / 2 := abs_eq_of_nonpos (by ring) (by linarith)
  have e1 : |(1 : ℚ) + 1 - 5 / 2 - x| = x + 1 / 2 := abs_eq_of_nonpos (by ring) (by linarith)
  have e2 : |(2 : ℚ) + 1 - 5 / 2 - x| ≤ 1 / 2 := abs_le.mpr ⟨by linarith, by linarith⟩
  have e3 : |(3 : ℚ) + 1 - 5 / 2 - x| = 3 / 2 - x := abs_eq_of_nonneg (by ring) (by linarith)
  have e4 : |(4 : ℚ) + 1 - 5 / 2 - x| = 5 / 2 - x := abs_eq_of_nonneg (by ring) (by linarith)
  simp only [shape, Finset.sum_range_succ, Finset.sum_range_zero, Nat.cast_zero, Nat.cast_one,
    Nat.cast_ofNat]
  rw [P4S.chargeAssignment_3rd (by rw [e0]; linarith) (by rw [e0]; linarith), e0,
    P4S.chargeAssignment_2nd (by rw [e1]; linarith) (by rw [e1]; linarith), e1,
    P4S.chargeAssignment_1st e2,
    P4S.chargeAssignment_2nd (by rw [e3]; linarith) (by rw [e3]; linarith), e3,
    P4S.chargeAssignment_3rd (by rw [e4]; linarith) (by rw [e4]; linarith), e4]
  simp only [P4S.ff_1st_radius, P4S.ff_2nd_radius, P4S.ff_3rd_radius, abs_mul_abs_self]
  ring

theorem isAssignment : ∀ s : ContinuousShape, s.shape.IsAssignment
  | .CIC => isAssignment_CIC
  | .TSC => isAssignment_TSC
  | .PCS => isAssignment_PCS
  | .P4S => isAssignment_P4S

@[simp] theorem support_onSupport (s : ContinuousShape) : s.onSupport.support = s.shape.support := by
  cases s <;> rfl

/-- On the support, its boundary included, both functions of a shape agree. -/
theorem chargeAssignment_onSupport (s : ContinuousShape) {x : ℚ} (hx : |x| ≤ (s.shape.support : ℚ) / 2) :
    s.onSupport.chargeAssignment x = s.shape.chargeAssignment x := by
  cases s with
  | CIC =>
    have hx' : |x| ≤ 1 := by simpa [shape] using hx
    exact (CIC.chargeAssignment_of_le hx').symm
  | TSC =>
    have hx' : |x| ≤ 3 / 2 := by simpa [shape] using hx
    rcases lt_or_ge |x| (1 / 2) with h | h
    · simp only [onSupport, shape, TSC.chargeAssignmentOnSupport, TSC.chargeAssignment_1st h.le, boolWeight,
        h, not_true_eq_false, if_true, if_false]
      ring
    · simp only [onSupport, shape, TSC.chargeAssignmentOnSupport, TSC.chargeAssignment_2nd h hx', boolWeight,
        not_lt.mpr h, not_false_eq_true, if_true, if_false]
      ring
  | PCS =>
    have hx' : |x| ≤ 2 := by norm_num [shape] at hx; exact hx
    rcases lt_or_ge |x| 1 with h | h
    · simp only [onSupport, shape, PCS.chargeAssignmentOnSupport, PCS.chargeAssignment_1st h.le, boolWeight,
        h, not_true_eq_false, if_true, if_false]
      ring
    · simp only [onSupport, shape, PCS.chargeAssignmentOnSupport, PCS.chargeAssignment_2nd h hx', boolWeight,
        not_lt.mpr h, not_false_eq_true, if_true, if_false]
      ring
  | P4S =>
    have hx' : |x| ≤ 5 / 2 := by simpa [shape] using hx
    rcases hx'.lt_or_eq with h | h
    · simp [onSupport, shape, P4S.chargeAssignment, P4S.chargeAssignmentOnSupport, h]
    · rw [show P4S.shape.chargeAssignment x = 0 from P4S.chargeAssignment_of_ge h.ge]
      simp only [onSupport, P4S.chargeAssignmentOnSupport, h, P4S.ff_3rd_radius]
      norm_num

end ContinuousShape

end PIConGPU
