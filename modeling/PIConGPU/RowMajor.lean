import Mathlib

/-!
# Row-major numbering of a box

The cells of a box with the given extents are numbered so that the last coordinate runs
fastest. `rowMajor` and `rowMajorCoords` are inverse to each other on the box.
-/
namespace PIConGPU.RowMajor

/-! The literals for the axes of a grid rest on these instances. -/
instance (priority := 2000) neZero_add_two (d : ℕ) : NeZero (d + 2) := ⟨by omega⟩
instance (priority := 3000) neZero_two : NeZero 2 := ⟨by decide⟩
instance (priority := 3000) neZero_three : NeZero 3 := ⟨by decide⟩

def rowMajor : {D : ℕ} → (Fin D → ℕ) → (Fin D → ℕ) → ℕ
  | 0, _, _ => 0
  | _ + 1, dims, c => c 0 * ∏ j, Fin.tail dims j + rowMajor (Fin.tail dims) (Fin.tail c)

def rowMajorCoords : {D : ℕ} → (Fin D → ℕ) → ℕ → Fin D → ℕ
  | 0, _, _ => Fin.elim0
  | _ + 1, dims, r =>
      Fin.cons (r / ∏ j, Fin.tail dims j) (rowMajorCoords (Fin.tail dims) (r % ∏ j, Fin.tail dims j))

theorem pos_of_lt_mul {r a b : ℕ} (h : r < a * b) : 0 < b := by
  rcases Nat.eq_zero_or_pos b with rfl | hb
  · simp at h
  · exact hb

theorem rowMajor_lt {D : ℕ} (dims c : Fin D → ℕ) (hc : ∀ j, c j < dims j) :
    rowMajor dims c < ∏ j, dims j := by
  induction D with
  | zero => simp [rowMajor]
  | succ D ih =>
    have ht := ih (Fin.tail dims) (Fin.tail c) (fun j => hc j.succ)
    rw [Fin.prod_univ_succ]
    change c 0 * (∏ j, Fin.tail dims j) + _ < dims 0 * ∏ j, Fin.tail dims j
    have h0 : (c 0 + 1) * (∏ j, Fin.tail dims j) ≤ dims 0 * ∏ j, Fin.tail dims j :=
      Nat.mul_le_mul_right _ (hc 0)
    rw [Nat.succ_mul] at h0
    omega

theorem rowMajorCoords_lt {D : ℕ} (dims : Fin D → ℕ) (r : ℕ) (hr : r < ∏ j, dims j) (j : Fin D) :
    rowMajorCoords dims r j < dims j := by
  induction D generalizing r with
  | zero => exact j.elim0
  | succ D ih =>
    rw [Fin.prod_univ_succ] at hr
    have hP : 0 < ∏ j, Fin.tail dims j := pos_of_lt_mul hr
    refine Fin.cases ?_ (fun i => ?_) j
    · simp only [rowMajorCoords, Fin.cons_zero]
      exact Nat.div_lt_of_lt_mul (by rw [Nat.mul_comm]; exact hr)
    · simp only [rowMajorCoords, Fin.cons_succ]
      exact ih (Fin.tail dims) _ (Nat.mod_lt _ hP) i

theorem rowMajorCoords_rowMajor {D : ℕ} (dims c : Fin D → ℕ) (hc : ∀ j, c j < dims j) :
    rowMajorCoords dims (rowMajor dims c) = c := by
  induction D with
  | zero => exact funext fun j => j.elim0
  | succ D ih =>
    have hlt := rowMajor_lt (Fin.tail dims) (Fin.tail c) (fun j => hc j.succ)
    have hP : 0 < ∏ j, Fin.tail dims j := lt_of_le_of_lt (Nat.zero_le _) hlt
    simp only [rowMajorCoords, rowMajor]
    rw [Nat.mul_comm, Nat.mul_add_div hP, Nat.div_eq_of_lt hlt, Nat.mul_add_mod,
      Nat.mod_eq_of_lt hlt, ih (Fin.tail dims) (Fin.tail c) (fun j => hc j.succ)]
    exact Fin.cons_self_tail c

theorem rowMajor_rowMajorCoords {D : ℕ} (dims : Fin D → ℕ) (r : ℕ) (hr : r < ∏ j, dims j) :
    rowMajor dims (rowMajorCoords dims r) = r := by
  induction D generalizing r with
  | zero =>
    simp only [Finset.univ_eq_empty, Finset.prod_empty, Nat.lt_one_iff] at hr
    simp [rowMajor, hr]
  | succ D ih =>
    rw [Fin.prod_univ_succ] at hr
    have hP : 0 < ∏ j, Fin.tail dims j := pos_of_lt_mul hr
    simp only [rowMajorCoords, rowMajor, Fin.cons_zero, Fin.tail_cons]
    rw [ih (Fin.tail dims) _ (Nat.mod_lt _ hP), Nat.mul_comm]
    exact Nat.div_add_mod r _

/-- Every choice of digits in base `s` is a number. -/
theorem exists_digits {s D : ℕ} (x : Fin D → Fin s) : ∃ k < s^D, ∀ d, k / s^d.val % s = x d := by
  refine ⟨finFunctionFinEquiv x, (finFunctionFinEquiv x).isLt, fun d => ?_⟩
  rw [← finFunctionFinEquiv_symm_apply_val, Equiv.symm_apply_apply]

end PIConGPU.RowMajor
