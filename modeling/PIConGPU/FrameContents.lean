import Mathlib

/-!
# Contents of one frame

The particles of a frame with a given `multiMask`, as a multiset of their attributes, and how
it changes when slots are filled and emptied.
-/
namespace PIConGPU.FrameContents

variable {T : ℕ} {α : Type*}

def particles (mask : Fin T → ℕ) (attr : Fin T → α) (m : ℕ) : Multiset α :=
  (Finset.univ.filter fun i => mask i = m).val.map attr

theorem particles_congr {mask mask' : Fin T → ℕ} {attr attr' : Fin T → α} {m : ℕ}
    (hmask : ∀ i, mask' i = m ↔ mask i = m) (hattr : ∀ i, mask i = m → attr' i = attr i) :
    particles mask' attr' m = particles mask attr m := by
  have hfilter : (Finset.univ.filter fun i => mask' i = m) = Finset.univ.filter fun i => mask i = m := by
    ext i
    simp [hmask i]
  rw [particles, hfilter]
  exact Multiset.map_congr rfl fun i hi => hattr i (by simpa using hi)

theorem particles_eq_zero {mask : Fin T → ℕ} (attr : Fin T → α) {m : ℕ} (h : ∀ i, mask i ≠ m) :
    particles mask attr m = 0 := by
  rw [particles, Finset.filter_eq_empty_iff.mpr fun i _ => h i]
  rfl

theorem particles_store {mask mask' : Fin T → ℕ} {attr attr' : Fin T → α} {S : Finset (Fin T)}
    (hempty : ∀ i ∈ S, mask i = 0) (hstored : ∀ i ∈ S, mask' i = 1)
    (hkept : ∀ i ∉ S, mask' i = mask i ∧ attr' i = attr i) :
    particles mask' attr' 1 = particles mask attr 1 + S.val.map attr' := by
  have hfilter : (Finset.univ.filter fun i => mask' i = 1) =
      (Finset.univ.filter fun i => mask i = 1).disjUnion S (by
        rw [Finset.disjoint_left]
        intro i hi hS
        have := hempty i hS
        simp [this] at hi) := by
    ext i
    by_cases hi : i ∈ S
    · simp [hi, hstored i hi]
    · simp [hi, (hkept i hi).1]
  rw [particles, hfilter, Finset.disjUnion_val, Multiset.map_add]
  congr 1
  refine Multiset.map_congr rfl fun i hi => (hkept i fun hS => ?_).2
  have := hempty i hS
  simp [this] at hi

theorem particles_store_of_ne {mask mask' : Fin T → ℕ} {attr attr' : Fin T → α} {S : Finset (Fin T)}
    {m : ℕ} (hm : 2 ≤ m) (hempty : ∀ i ∈ S, mask i = 0) (hstored : ∀ i ∈ S, mask' i = 1)
    (hkept : ∀ i ∉ S, mask' i = mask i ∧ attr' i = attr i) :
    particles mask' attr' m = particles mask attr m := by
  refine particles_congr (fun i => ?_) fun i hi => ?_
  · by_cases hi : i ∈ S
    · rw [hempty i hi, hstored i hi]
      omega
    · rw [(hkept i hi).1]
  · by_cases hS : i ∈ S
    · have := hempty i hS
      omega
    · exact (hkept i hS).2

theorem particles_clear (attr : Fin T → α) {mask : Fin T → ℕ} (mask' : Fin T → ℕ) {S : Finset (Fin T)}
    (hone : ∀ i ∈ S, mask i = 1) (hcleared : ∀ i ∈ S, mask' i = 0)
    (hkept : ∀ i ∉ S, mask' i = mask i) :
    particles mask attr 1 = particles mask' attr 1 + S.val.map attr :=
  particles_store hcleared hone fun i hi => ⟨(hkept i hi).symm, rfl⟩

theorem map_eq_map_of_matching {ι κ : Type*} [Fintype ι] [Fintype κ] {R : ι → κ → Prop}
    [DecidablePred fun t => ∃ i, R t i] [DecidablePred fun i => ∃ t, R t i] {f : κ → α} {g : ι → α}
    (hfun : ∀ t i i', R t i → R t i' → i = i') (hinj : ∀ t t' i, R t i → R t' i → t = t')
    (h : ∀ t i, R t i → g t = f i) :
    (Finset.univ.filter fun t => ∃ i, R t i).val.map g = (Finset.univ.filter fun i => ∃ t, R t i).val.map f := by
  have hex : ∀ t ∈ (Finset.univ.filter fun t => ∃ i, R t i).val, ∃ i, R t i := fun t ht => by simpa using ht
  choose partner hpartner using hex
  refine Multiset.map_eq_map_of_bij_of_nodup _ _ (Finset.nodup _) (Finset.nodup _) partner (fun t ht => ?_)
    (fun t ht t' ht' he => ?_) (fun i hi => ?_) fun t ht => h t _ (hpartner t ht)
  · simpa using ⟨t, hpartner t ht⟩
  · have hd := hpartner t ht
    rw [he] at hd
    exact hinj t t' _ hd (hpartner t' ht')
  · obtain ⟨t, ht⟩ : ∃ t, R t i := by simpa using hi
    have hmem : t ∈ (Finset.univ.filter fun t => ∃ i, R t i).val := by simpa using ⟨i, ht⟩
    exact ⟨t, hmem, hfun t _ i (hpartner t hmem) ht⟩

end PIConGPU.FrameContents
