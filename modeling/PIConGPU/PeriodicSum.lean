import Mathlib.Algebra.BigOperators.Pi
import Mathlib.Algebra.Order.BigOperators.Group.Finset
import Mathlib.Data.Fintype.Pi
import Mathlib.Algebra.Order.BigOperators.Ring.Finset
import Mathlib.Data.Int.Interval
import Mathlib.Data.Int.ModEq
import Mathlib.Tactic.Ring
import Mathlib.Tactic.Abel
import Mathlib.Tactic.Linarith

/-!
# Sums over a period

The sum of a periodic function over the cells of one period does not change if the function is shifted. Sums of products
are therefore summed by parts without boundary terms.
-/
namespace PIConGPU.PeriodicSum

variable {D : ℕ}

/-- Arguments that differ by multiples of the extents have the same value. -/
def IsPeriodic {A : Type*} (size : Fin D → ℤ) (f : (Fin D → ℤ) → A) : Prop :=
  ∀ ⦃x y⦄, (∀ d, x d ≡ y d [ZMOD size d]) → f x = f y

def period (size : Fin D → ℤ) : Finset (Fin D → ℤ) :=
  Fintype.piFinset fun d => (Finset.range (size d).toNat).map Nat.castEmbedding

variable {size : Fin D → ℤ}

section Periodic

variable {A B C : Type*} {f : (Fin D → ℤ) → A} {g : (Fin D → ℤ) → B}

theorem IsPeriodic.map₂ (hf : IsPeriodic size f) (hg : IsPeriodic size g) (op : A → B → C) :
    IsPeriodic size fun x => op (f x) (g x) := fun _ _ h => congrArg₂ op (hf h) (hg h)

theorem IsPeriodic.map (hf : IsPeriodic size f) (op : A → B) : IsPeriodic size fun x => op (f x) := fun _ _ h =>
  congrArg op (hf h)

theorem IsPeriodic.add_right (hf : IsPeriodic size f) (n : Fin D → ℤ) : IsPeriodic size fun x => f (x + n) :=
  fun _ _ h => hf fun d => (h d).add_right (n d)

end Periodic

theorem mem_period {x : Fin D → ℤ} : x ∈ period size ↔ ∀ d, 0 ≤ x d ∧ x d < size d := by
  simp only [period, Fintype.mem_piFinset, Finset.mem_map, Finset.mem_range, Nat.castEmbedding_apply]
  refine forall_congr' fun d => ⟨?_, fun h => ⟨(x d).toNat, by omega, by omega⟩⟩
  rintro ⟨n, hn, hx⟩
  omega

theorem emod_mem_period (hsize : ∀ d, 0 < size d) (x : Fin D → ℤ) : (fun d => x d % size d) ∈ period size :=
  mem_period.mpr fun d => ⟨Int.emod_nonneg _ (hsize d).ne', Int.emod_lt_of_pos _ (hsize d)⟩

section Sum

variable {A : Type*} [AddCommMonoid A] {f : (Fin D → ℤ) → A}

/-- The shift is a bijection of the period up to multiples of the extents. -/
theorem sum_add_right (hsize : ∀ d, 0 < size d) (hf : IsPeriodic size f) (n : Fin D → ℤ) :
    ∑ x ∈ period size, f (x + n) = ∑ x ∈ period size, f x := by
  have hback : ∀ x ∈ period size, ∀ n : Fin D → ℤ, (fun d => ((x d + n d) % size d - n d) % size d) = x := by
    intro x hx n
    funext d
    obtain ⟨h0, h1⟩ := mem_period.mp hx d
    rw [Int.emod_sub_emod, add_sub_cancel_right, Int.emod_eq_of_lt h0 h1]
  refine Finset.sum_bij' (fun x _ d => (x d + n d) % size d) (fun x _ d => (x d - n d) % size d)
    (fun x _ => emod_mem_period hsize _) (fun x _ => emod_mem_period hsize _) (fun x hx => hback x hx n)
    (fun x hx => ?_) fun x _ => hf fun d => (Int.mod_modEq _ _).symm
  have := hback x hx (-n)
  simpa only [Pi.neg_apply, ← sub_eq_add_neg, sub_neg_eq_add] using this

end Sum

section Parts

variable {R : Type*} [CommRing R] {f g : (Fin D → ℤ) → R}

/-- Summation by parts, with differences to the upper neighbor on one side and to the lower one on the other. -/
theorem sum_mul_sub (hsize : ∀ d, 0 < size d) (hf : IsPeriodic size f) (hg : IsPeriodic size g) (e : Fin D → ℤ) :
    ∑ x ∈ period size, f x * (g x - g (x - e)) = -∑ x ∈ period size, (f (x + e) - f x) * g x := by
  have hshift := sum_add_right hsize ((hf.map₂ (hg.add_right (-e))) (· * ·)) e
  simp only [add_assoc, add_neg_cancel, add_zero] at hshift
  simp only [mul_sub, sub_mul, Finset.sum_sub_distrib, sub_eq_add_neg _ e, ← hshift]
  ring

end Parts

section Order

variable {R : Type*} [CommRing R] [LinearOrder R] [IsStrictOrderedRing R] {f : (Fin D → ℤ) → R}

/-- The square of a difference adds up to at most four times the square. -/
theorem sum_sub_sq_le (hsize : ∀ d, 0 < size d) (hf : IsPeriodic size f) (e : Fin D → ℤ) :
    ∑ x ∈ period size, (f (x + e) - f x)^2 ≤ 4 * ∑ x ∈ period size, f x^2 := by
  have hshift := sum_add_right hsize (hf.map (·^2)) e
  calc ∑ x ∈ period size, (f (x + e) - f x)^2
      ≤ ∑ x ∈ period size, (2 * f (x + e)^2 + 2 * f x^2) :=
        Finset.sum_le_sum fun x _ => by nlinarith [sq_nonneg (f (x + e) + f x)]
    _ = 4 * ∑ x ∈ period size, f x^2 := by
        rw [Finset.sum_add_distrib, ← Finset.mul_sum, ← Finset.mul_sum, hshift]
        ring

end Order

end PIConGPU.PeriodicSum
