import Mathlib

/-!
# Counted users of a resource

Every user of a resource adds one to a counter before it looks at the resource, and takes it back at the end. Whoever
finds the counter at zero may lock the resource, by a number `K` in the counter. A user that meets a counter from `K`
on was too late, and leaves again. The others are admitted, and the resource is not locked while one of them is there.
-/
namespace PIConGPU.UsageCounter

/-- What a user has in the counter. -/
inductive Role
  | out
  | entered
  | admitted
  | locking
  deriving DecidableEq

section Population

variable {ι ρ : Type*} [Fintype ι] [DecidableEq ρ]

def population (role : ι → ρ) (r : ρ) : ℕ := (Finset.univ.filter fun i => role i = r).card

theorem population_pos {role : ι → ρ} {r : ρ} {i : ι} (h : role i = r) : 0 < population role r :=
  Finset.card_pos.mpr ⟨i, by simp [h]⟩

theorem population_eq_zero {role : ι → ρ} {r : ρ} (h : ∀ i, role i ≠ r) : population role r = 0 := by
  rw [population, Finset.card_eq_zero, Finset.filter_eq_empty_iff]
  exact fun i _ => h i

theorem exists_of_population_pos {role : ι → ρ} {r : ρ} (h : 0 < population role r) : ∃ i, role i = r := by
  obtain ⟨i, hi⟩ := Finset.card_pos.mp h
  exact ⟨i, (Finset.mem_filter.mp hi).2⟩

theorem population_add_le (role : ι → ρ) {r r' : ρ} (h : r ≠ r') :
    population role r + population role r' ≤ Fintype.card ι := by
  classical
  rw [population, population, ← Finset.card_union_of_disjoint]
  · exact Finset.card_le_univ _
  · rw [Finset.disjoint_filter]
    exact fun i _ hi hi' => h (hi.symm.trans hi')

theorem population_change [DecidableEq ι] {role role' : ι → ρ} {i : ι} (h : ∀ j ≠ i, role' j = role j) (r : ρ) :
    population role' r + (if role i = r then 1 else 0) = population role r + (if role' i = r then 1 else 0) := by
  have hsum : ∀ f : ι → ρ, population f r = ∑ j, if f j = r then 1 else 0 := fun f => by
    rw [population, Finset.card_filter]
  have hrest : ∑ j ∈ Finset.univ.erase i, (if role' j = r then 1 else 0) =
      ∑ j ∈ Finset.univ.erase i, if role j = r then 1 else 0 :=
    Finset.sum_congr rfl fun j hj => by rw [h j (Finset.ne_of_mem_erase hj)]
  rw [hsum, hsum, ← Finset.add_sum_erase _ _ (Finset.mem_univ i), ← Finset.add_sum_erase _ _ (Finset.mem_univ i), hrest]
  omega

end Population

/-- The counter adds up, and a locked resource has no admitted user. -/
def Guarded (K count entered admitted locking : ℕ) : Prop :=
  locking = 0 ∧ count = entered + admitted ∨ locking = 1 ∧ admitted = 0 ∧ count = entered + K

/-- What a user can do; some of the admitted users are not members of the family but counted in `rest`. -/
inductive Move (K : ℕ) : ℕ → ℕ → Role → ℕ → ℕ → Role → Prop
  | same {count rest r} : Move K count rest r count rest r
  | enter {count rest} : Move K count rest .out (count + 1) rest .entered
  | join {count rest} (h : count < K) : Move K count rest .out (count + 1) rest .admitted
  | dismiss {count rest} : Move K count rest .admitted count rest .entered
  | leave {count rest} : Move K count rest .entered (count - 1) rest .out
  | release {count rest} : Move K count rest .admitted (count - 1) rest .out
  | lock {rest} : Move K 0 rest .out K rest .locking
  | unlock {count rest} : Move K count rest .locking (count - K) rest .out
  | handOut {count rest} : Move K count rest .admitted count (rest + 1) .out
  | takeBack {count rest} : Move K count (rest + 1) .out count rest .admitted

section Counts

variable {ι : Type*} [Fintype ι] {K count rest count' rest' : ℕ} {role role' : ι → Role} {i : ι}

/-- The counter counts the users of a family, and `rest` further admitted ones. -/
def Counts (K count rest : ℕ) (role : ι → Role) : Prop :=
  Guarded K count (population role .entered) (population role .admitted + rest) (population role .locking)

namespace Counts

theorem zero (h : ∀ i, role i = .out) : Counts K 0 0 role := by
  have hzero : ∀ r ≠ Role.out, population role r = 0 := fun r hr =>
    population_eq_zero fun i hi => hr (hi.symm.trans (h i))
  rw [Counts, hzero _ (by decide), hzero _ (by decide), hzero _ (by decide)]
  exact .inl ⟨rfl, rfl⟩

theorem le (h : Counts K count rest role) : count ≤ Fintype.card ι + rest + K := by
  have hle := population_add_le role (by decide : Role.entered ≠ .admitted)
  rcases h with ⟨-, hcount⟩ | ⟨-, -, hcount⟩ <;> omega

/-- Nobody is admitted to a locked resource. -/
theorem exclusive (h : Counts K count rest role) (hi : role i = .locking) : (∀ j, role j ≠ .admitted) ∧ rest = 0 := by
  have hlocking := population_pos hi
  have hzero : population role .admitted + rest = 0 := by
    rcases h with ⟨h0, -⟩ | ⟨-, h0, -⟩ <;> omega
  refine ⟨fun j hj => ?_, by omega⟩
  have hadmitted := population_pos hj
  omega

theorem pos (h : Counts K count rest role) (hi : role i = .entered ∨ role i = .admitted) : 0 < count := by
  rcases hi with hi | hi <;> have hpos := population_pos hi <;> rcases h with ⟨-, hcount⟩ | ⟨-, h0, hcount⟩ <;> omega

theorem le_of_locking (h : Counts K count rest role) (hi : role i = .locking) : K ≤ count := by
  have hlocking := population_pos hi
  rcases h with ⟨h0, -⟩ | ⟨-, -, hcount⟩ <;> omega

theorem move [DecidableEq ι] (h : Counts K count rest role) (hK : 0 < K) (hother : ∀ j ≠ i, role' j = role j)
    (hmove : Move K count rest (role i) count' rest' (role' i)) : Counts K count' rest' role' := by
  have hentered := population_change hother .entered
  have hadmitted := population_change hother .admitted
  have hlocking := population_change hother .locking
  generalize role i = r, role' i = r' at hmove hentered hadmitted hlocking
  unfold Counts Guarded at h ⊢
  cases hmove with
  | same => split_ifs at * <;> omega
  | enter | join | dismiss | leave | release | lock | unlock | handOut | takeBack =>
    simp only [reduceCtorEq, ↓reduceIte, add_zero] at hentered hadmitted hlocking
    omega

end Counts

end Counts

end PIConGPU.UsageCounter
