import Mathlib

/-!
# Loops with a stride

Several workers share the indices below a bound: each one starts at its own number and moves on by their number.
-/
namespace PIConGPU

/-- The indices of `for (i = start; i < bound; i += stride)`. -/
def strided (stride : ℕ) (hstride : 0 < stride) (bound start : ℕ) : List ℕ :=
  if start < bound then start :: strided stride hstride bound (start + stride) else []
termination_by bound - start

section Strided

variable {stride : ℕ} (hstride : 0 < stride) {bound start : ℕ}

theorem strided_of_lt (h : start < bound) :
    strided stride hstride bound start = start :: strided stride hstride bound (start + stride) := by
  rw [strided, if_pos h]

theorem strided_of_le (h : bound ≤ start) : strided stride hstride bound start = [] := by
  rw [strided, if_neg h.not_gt]

/-- An index of the residue class is met once. -/
theorem count_strided (i : ℕ) : (strided stride hstride bound start).count i =
    if start ≤ i ∧ i < bound ∧ i % stride = start % stride then 1 else 0 := by
  induction start using strided.induct stride hstride bound with
  | case1 start h ih =>
    rw [strided_of_lt hstride h, List.count_cons, ih, Nat.add_mod_right]
    by_cases hi : start = i
    · subst hi
      simp [h, hstride.ne']
    · have hiff : start + stride ≤ i ∧ i < bound ∧ i % stride = start % stride ↔
          start ≤ i ∧ i < bound ∧ i % stride = start % stride := by
        refine ⟨fun hle => ⟨by omega, hle.2⟩, fun ⟨hle, hlt, hmod⟩ => ⟨?_, hlt, hmod⟩⟩
        have hdvd : stride ∣ i - start := (Nat.modEq_iff_dvd' hle).mp hmod.symm
        have := Nat.le_of_dvd (by omega) hdvd
        omega
      simp only [hiff, beq_eq_false_iff_ne.mpr hi, Bool.false_eq_true, if_false, add_zero]
  | case2 start h =>
    rw [strided_of_le hstride (not_lt.mp h), List.count_nil, if_neg (by omega)]

theorem lt_of_mem_strided {i : ℕ} (h : i ∈ strided stride hstride bound start) : i < bound := by
  by_contra hle
  have hcount := List.count_pos_iff.mpr h
  rw [count_strided, if_neg fun hi => hle hi.2.1] at hcount
  exact absurd hcount (lt_irrefl 0)

/-- The workers meet every index below the bound once. -/
theorem sum_count_strided (i : ℕ) :
    ∑ start ∈ Finset.range stride, (strided stride hstride bound start).count i = if i < bound then 1 else 0 := by
  simp only [count_strided]
  rw [Finset.sum_eq_single (i % stride)]
  · simp [Nat.mod_le]
  · intro start hstart hne
    rw [Finset.mem_range] at hstart
    refine if_neg fun h => hne ?_
    rw [h.2.2, Nat.mod_eq_of_lt hstart]
  · intro h
    exact absurd (Finset.mem_range.mpr (Nat.mod_lt _ hstride)) h

end Strided

end PIConGPU
