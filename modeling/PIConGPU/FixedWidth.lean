import Mathlib

/-!
# Conversions to 32-bit integers
-/
namespace PIConGPU

/-- Reduction to an unsigned 32-bit value. -/
def u32 (x : ℤ) : ℕ := (x % 4294967296).toNat

theorem u32_add (a b : ℕ) : u32 (a + b) = (a + b) % 4294967296 := by
  simp only [u32]
  omega

/-- Reduction to a signed 32-bit value. -/
def i32 (x : ℤ) : ℤ := x.bmod 4294967296

theorem i32_eq {x : ℤ} (h0 : -2147483648 ≤ x) (h1 : x < 2147483648) : i32 x = x := by
  apply Int.bmod_eq_of_le <;> omega

theorem i32_lt (x : ℤ) : i32 x < 2147483648 := by
  have := Int.bmod_lt (x := x) (m := 4294967296) (by decide)
  simp only [i32]
  omega

theorem i32_ge (x : ℤ) : -2147483648 ≤ i32 x := by
  have := Int.le_bmod (x := x) (m := 4294967296) (by decide)
  simp only [i32]
  omega

theorem i32_emod (x : ℤ) : i32 x % 4294967296 = x % 4294967296 := by
  simp only [i32, Int.bmod_def]
  split_ifs <;> omega

theorem i32_congr {x y : ℤ} (h : x % 4294967296 = y % 4294967296) : i32 x = i32 y := by
  simp only [i32, Int.bmod_def]
  push_cast
  rw [h]

theorem i32_u32 (x : ℤ) : i32 (u32 x) = i32 x := by
  apply i32_congr
  rw [u32, Int.toNat_of_nonneg (by omega), Int.emod_emod]

theorem i32_add (x y : ℤ) : i32 (i32 x + y) = i32 (x + y) := by
  apply i32_congr
  rw [Int.add_emod, i32_emod, ← Int.add_emod]

theorem i32_pos {x : ℕ} (hx : x < 4294967296) (h : 0 < i32 x) : x < 2147483648 := by
  simp only [i32, Int.bmod_def] at h
  split_ifs at h <;> omega

end PIConGPU
