import Mathlib

/-!
# Blocks of one kernel launch

The blocks of a kernel work on shared memory, and every block is in a phase of its own. A step of the launch
is a step of one block, and the blocks take their steps in any order.
-/
namespace PIConGPU.KernelLaunch

variable {ι μ φ : Type*} [DecidableEq ι] {block : ι → μ → φ → μ → φ → Prop}

inductive Step (block : ι → μ → φ → μ → φ → Prop) : μ × (ι → φ) → μ × (ι → φ) → Prop
  | mk {b : ι} {m m' : μ} {phases : ι → φ} {phase : φ} (h : block b m (phases b) m' phase) :
    Step block (m, phases) (m', Function.update phases b phase)

def Run (block : ι → μ → φ → μ → φ → Prop) : μ × (ι → φ) → μ × (ι → φ) → Prop := Relation.ReflTransGen (Step block)

/-- What every step of a block preserves. -/
def Preserved (block : ι → μ → φ → μ → φ → Prop) (I : μ × (ι → φ) → Prop) : Prop :=
  ∀ b m m' phases phase, I (m, phases) → block b m (phases b) m' phase → I (m', Function.update phases b phase)

theorem Run.invariant {I : μ × (ι → φ) → Prop} (hI : Preserved block I) {s s' : μ × (ι → φ)} (h : Run block s s')
    (h0 : I s) : I s' := by
  induction h with
  | refl => exact h0
  | tail _ hstep ih =>
    cases hstep with
    | mk h => exact hI _ _ _ _ _ ih h

/-- A block that is not through can take a step, and has fewer steps left then. -/
def Progress (block : ι → μ → φ → μ → φ → Prop) (rank : ι → φ → ℕ) (I : μ × (ι → φ) → Prop) : Prop :=
  ∀ m phases, I (m, phases) → ∀ b, rank b (phases b) ≠ 0 →
    ∃ m' phase, block b m (phases b) m' phase ∧ rank b phase < rank b (phases b)

variable [Fintype ι]

theorem sum_update_lt {rank : ι → φ → ℕ} {phases : ι → φ} {b : ι} {phase : φ} (h : rank b phase < rank b (phases b)) :
    ∑ b', rank b' (Function.update phases b phase b') < ∑ b', rank b' (phases b') := by
  refine Finset.sum_lt_sum (fun b' _ => ?_) ⟨b, Finset.mem_univ b, by simpa using h⟩
  by_cases hb : b' = b
  · subst hb
    simpa using h.le
  · rw [Function.update_of_ne hb]

theorem exists_complete {rank : ι → φ → ℕ} {I : μ × (ι → φ) → Prop} (hI : Preserved block I)
    (hprogress : Progress block rank I) {s : μ × (ι → φ)} (h : I s) :
    ∃ s', Run block s s' ∧ ∀ b, rank b (s'.2 b) = 0 := by
  induction hn : ∑ b, rank b (s.2 b) using Nat.strong_induction_on generalizing s with
  | _ n ih =>
    obtain ⟨m, phases⟩ := s
    by_cases hdone : ∀ b, rank b (phases b) = 0
    · exact ⟨_, .refl, hdone⟩
    · push Not at hdone
      obtain ⟨b, hb⟩ := hdone
      obtain ⟨m', phase, hblock, hlt⟩ := hprogress m phases h b hb
      obtain ⟨s', hrun, hend⟩ := ih _ (hn ▸ sum_update_lt hlt) (hI _ _ _ _ _ h hblock) rfl
      exact ⟨s', .head (.mk hblock) hrun, hend⟩

section Rank

variable {S R : Type*} [Preorder R] {step : S → S → Prop} {I : S → R → Prop}

theorem exists_rank (hI : ∀ s s' r, I s r → step s s' → ∃ r' < r, I s' r') {s s' : S}
    (hrun : Relation.ReflTransGen step s s') {r : R} (h : I s r) : ∃ r', I s' r' := by
  induction hrun with
  | refl => exact ⟨r, h⟩
  | tail _ hlast ih =>
    obtain ⟨r₁, h₁⟩ := ih
    obtain ⟨r', -, h'⟩ := hI _ _ _ h₁ hlast
    exact ⟨r', h'⟩

/-- Steps that lower a rank lead to a state without further steps. -/
theorem exists_terminal [WellFoundedLT R] (hI : ∀ s s' r, I s r → step s s' → ∃ r' < r, I s' r') {s : S} {r : R}
    (h : I s r) : ∃ s', Relation.ReflTransGen step s s' ∧ ∀ s'', ¬ step s' s'' := by
  induction r using WellFoundedLT.induction generalizing s with
  | ind r ih =>
    by_cases hend : ∀ s', ¬ step s s'
    · exact ⟨s, .refl, hend⟩
    · push Not at hend
      obtain ⟨s₁, hstep⟩ := hend
      obtain ⟨r₁, hlt, h₁⟩ := hI _ _ _ h hstep
      obtain ⟨s', hrun, hend⟩ := ih r₁ hlt h₁
      exact ⟨s', .head hstep hrun, hend⟩

/-- Steps that lower a rank come to an end. -/
theorem not_infinite [WellFoundedLT R] (hI : ∀ s s' r, I s r → step s s' → ∃ r' < r, I s' r') {run : ℕ → S} {r : R}
    (h : I (run 0) r) : ¬ ∀ n, step (run n) (run (n + 1)) := by
  intro hrun
  have hnone : ∀ r n, ¬ I (run n) r := fun r => by
    induction r using WellFoundedLT.induction with
    | ind r ih =>
      intro n hn
      obtain ⟨r', hlt, hnext⟩ := hI _ _ _ hn (hrun n)
      exact ih r' hlt (n + 1) hnext
  exact hnone r 0 h

end Rank

theorem sum_update_erase {A : Type*} [AddCommMonoid A] (f : ι → φ → A) (phases : ι → φ) (b : ι) (phase : φ) :
    ∑ b', f b' (Function.update phases b phase b') = f b phase + ∑ b' ∈ Finset.univ.erase b, f b' (phases b') := by
  rw [← Finset.add_sum_erase _ _ (Finset.mem_univ b), Function.update_self]
  congr 1
  exact Finset.sum_congr rfl fun b' hb' => by rw [Function.update_of_ne (Finset.ne_of_mem_erase hb')]

theorem sum_update {A : Type*} [AddCommMonoid A] (f : ι → φ → A) (phases : ι → φ) (b : ι) (phase : φ) :
    ∑ b', f b' (Function.update phases b phase b') + f b (phases b) = ∑ b', f b' (phases b') + f b phase := by
  rw [sum_update_erase, ← Finset.add_sum_erase _ (fun b' => f b' (phases b')) (Finset.mem_univ b), add_right_comm,
    add_comm (f b phase), add_right_comm]

theorem sum_update_add {A : Type*} [AddCommMonoid A] {f : ι → φ → A} {phases : ι → φ} {b : ι} {phase : φ} {a : A}
    (h : f b phase = f b (phases b) + a) :
    ∑ b', f b' (Function.update phases b phase b') = ∑ b', f b' (phases b') + a := by
  rw [sum_update_erase, ← Finset.add_sum_erase _ (fun b' => f b' (phases b')) (Finset.mem_univ b), h, add_right_comm]

end PIConGPU.KernelLaunch
