import Mathlib

/-!
# Rounds of a block

A block works in rounds, and the order of its threads in each round is not known.
-/
namespace PIConGPU.BlockRounds

variable {S O : Type*} (next : O → S → Option S)

def rounds (orders : ℕ → O) : ℕ → S → Option S
  | 0, s => some s
  | n + 1, s => (next (orders 0) s).bind (rounds (fun k => orders (k + 1)) n)

/-- With every order of the threads the block comes to an end, in a state as described. -/
def Ends (P : S → Prop) (s : S) : Prop := ∀ orders, ∃ n s', rounds next orders n s = some s' ∧ P s'

variable {next} {P Q : S → Prop} {s : S}

theorem ends_of (h : P s) : Ends next P s := fun _ => ⟨0, s, rfl, h⟩

theorem Ends.step (h : ∀ o, ∃ s', next o s = some s' ∧ Ends next P s') : Ends next P s := fun orders => by
  obtain ⟨s₁, hstep, hends⟩ := h (orders 0)
  obtain ⟨n, s', hrounds, hP⟩ := hends fun k => orders (k + 1)
  exact ⟨n + 1, s', by rw [rounds, hstep, Option.bind_some, hrounds], hP⟩

theorem Ends.mono (h : Ends next P s) (hPQ : ∀ s, P s → Q s) : Ends next Q s := fun orders => by
  obtain ⟨n, s', hrounds, hP⟩ := h orders
  exact ⟨n, s', hrounds, hPQ s' hP⟩

theorem rounds_add (orders : ℕ → O) (m n : ℕ) (s : S) :
    rounds next orders (m + n) s = (rounds next orders m s).bind (rounds next (fun k => orders (m + k)) n) := by
  induction m generalizing orders s with
  | zero => simp only [Nat.zero_add, rounds, Option.bind_some]
  | succ m ih =>
    rw [Nat.succ_add, rounds, rounds, Option.bind_assoc]
    congr 1
    funext s'
    rw [ih]
    congr 3
    funext k
    rw [Nat.add_right_comm]

theorem Ends.bind (h : Ends next P s) (hQ : ∀ s, P s → Ends next Q s) : Ends next Q s := fun orders => by
  obtain ⟨m, s₁, hm, hP⟩ := h orders
  obtain ⟨n, s', hn, hQ'⟩ := hQ s₁ hP fun k => orders (m + k)
  exact ⟨m + n, s', by rw [rounds_add, hm, Option.bind_some, hn], hQ'⟩

end PIConGPU.BlockRounds
