import Mathlib

/-!
# Tilings of an integer interval

A finite family of half-open integer intervals tiles an interval when it covers exactly that
interval and no two members overlap.
-/
namespace PIConGPU.IntervalTiling

structure Tiles {n : ℕ} (offset size : Fin n → ℤ) (lo hi : ℤ) : Prop where
  covers : ∀ x, (∃ i, offset i ≤ x ∧ x < offset i + size i) ↔ lo ≤ x ∧ x < hi
  disjoint : ∀ i j x, (offset i ≤ x ∧ x < offset i + size i) →
    (offset j ≤ x ∧ x < offset j + size j) → i = j

theorem exists_between {b : ℕ → ℤ} {n : ℕ} {x : ℤ} (h0 : b 0 ≤ x) (hn : x < b n) :
    ∃ i < n, b i ≤ x ∧ x < b (i + 1) := by
  induction n with
  | zero => omega
  | succ n ih =>
    by_cases h : b n ≤ x
    · exact ⟨n, Nat.lt_succ_self n, h, hn⟩
    · obtain ⟨i, hi, hx⟩ := ih (by omega)
      exact ⟨i, by omega, hx⟩

/-- Intervals between consecutive members of a monotone sequence tile. -/
theorem tiles_of_boundaries {n : ℕ} {offset size : Fin n → ℤ} {b : ℕ → ℤ} (hb : Monotone b)
    (ho : ∀ i : Fin n, offset i = b i) (hs : ∀ i : Fin n, size i = b (i + 1) - b i) :
    Tiles offset size (b 0) (b n) := by
  have hend : ∀ i : Fin n, offset i + size i = b (i + 1) := fun i => by rw [ho, hs]; ring
  have horder : ∀ i j : Fin n, i < j → offset i + size i ≤ offset j := by
    intro i j hij
    rw [hend, ho]
    exact hb (Nat.succ_le_of_lt hij)
  constructor
  · intro x
    constructor
    · rintro ⟨i, h1, h2⟩
      rw [hend] at h2
      rw [ho] at h1
      exact ⟨(hb (Nat.zero_le _)).trans h1, lt_of_lt_of_le h2 (hb i.isLt)⟩
    · rintro ⟨h1, h2⟩
      obtain ⟨i, hi, hx1, hx2⟩ := exists_between h1 h2
      refine ⟨⟨i, hi⟩, ?_⟩
      rw [hend, ho]
      exact ⟨hx1, hx2⟩
  · intro i j x hi hj
    rcases lt_trichotomy i j with h | h | h
    · have := horder i j h
      omega
    · exact h
    · have := horder j i h
      omega

theorem Tiles.sum_size {n : ℕ} {offset size : Fin n → ℤ} {lo hi : ℤ} (h : Tiles offset size lo hi)
    (hs : ∀ i, 0 ≤ size i) (hlo : lo ≤ hi) : ∑ i, size i = hi - lo := by
  have hunion : Finset.univ.biUnion (fun i => Finset.Ico (offset i) (offset i + size i)) =
      Finset.Ico lo hi := by
    ext x
    simp only [Finset.mem_biUnion, Finset.mem_univ, true_and, Finset.mem_Ico]
    exact h.covers x
  have hdisj : ∀ i ∈ Finset.univ, ∀ j ∈ Finset.univ, i ≠ j →
      Disjoint (Finset.Ico (offset i) (offset i + size i))
        (Finset.Ico (offset j) (offset j + size j)) := by
    intro i _ j _ hij
    rw [Finset.disjoint_left]
    intro x hi hj
    exact hij (h.disjoint i j x (Finset.mem_Ico.mp hi) (Finset.mem_Ico.mp hj))
  have hcard := Finset.card_biUnion hdisj
  rw [hunion] at hcard
  simp only [Int.card_Ico, add_sub_cancel_left] at hcard
  have hcast := congrArg (Nat.cast : ℕ → ℤ) hcard
  rw [Nat.cast_sum, Int.toNat_of_nonneg (by omega)] at hcast
  rw [hcast]
  exact Finset.sum_congr rfl fun i _ => (Int.toNat_of_nonneg (hs i)).symm

theorem Tiles.lt {n : ℕ} {offset size : Fin n → ℤ} {lo hi : ℤ} (h : Tiles offset size lo hi) {i : Fin n}
    (hs : 0 < size i) : lo < hi := by
  have := (h.covers (offset i)).mp ⟨i, le_rfl, by omega⟩
  omega

theorem countP_le_eq (s : Multiset ℤ) (x : ℤ) :
    s.countP (· ≤ x) = s.countP (· ≤ x - 1) + s.count x := by
  induction s using Multiset.induction_on with
  | empty => simp
  | cons a s ih =>
    rw [Multiset.countP_cons, Multiset.countP_cons, Multiset.count_cons, ih]
    split_ifs <;> omega

/-- A multiset of integers is determined by the numbers of its members up to each bound. -/
theorem eq_of_countP_le {s t : Multiset ℤ} (h : ∀ x, s.countP (· ≤ x) = t.countP (· ≤ x)) : s = t := by
  ext x
  have h1 := countP_le_eq s x
  have h2 := countP_le_eq t x
  rw [h, h (x - 1)] at h1
  omega

def containing {n : ℕ} (offset size : Fin n → ℤ) (x : ℤ) : Finset (Fin n) :=
  Finset.univ.filter fun i => offset i ≤ x ∧ x < offset i + size i

theorem tiles_iff_card {n : ℕ} {offset size : Fin n → ℤ} {lo hi : ℤ} :
    Tiles offset size lo hi ↔ ∀ x, (containing offset size x).card = if lo ≤ x ∧ x < hi then 1 else 0 := by
  have hmem : ∀ i x, i ∈ containing offset size x ↔ offset i ≤ x ∧ x < offset i + size i := by
    simp [containing]
  constructor
  · intro h x
    split_ifs with hx
    · obtain ⟨i, hi⟩ := (h.covers x).mpr hx
      refine Finset.card_eq_one.mpr ⟨i, Finset.eq_singleton_iff_unique_mem.mpr ⟨(hmem i x).mpr hi, fun j hj => ?_⟩⟩
      exact h.disjoint j i x ((hmem j x).mp hj) hi
    · rw [Finset.card_eq_zero, Finset.eq_empty_iff_forall_notMem]
      exact fun i hi => hx ((h.covers x).mp ⟨i, (hmem i x).mp hi⟩)
  · intro h
    refine ⟨fun x => ⟨fun ⟨i, hi⟩ => ?_, fun hx => ?_⟩, fun i j x hi hj => ?_⟩
    · by_contra hx
      have h0 := h x
      rw [if_neg hx, Finset.card_eq_zero] at h0
      exact Finset.notMem_empty i (h0 ▸ (hmem i x).mpr hi)
    · have h1 := h x
      rw [if_pos hx] at h1
      obtain ⟨i, hi⟩ := Finset.card_pos.mp (h1 ▸ one_pos)
      exact ⟨i, (hmem i x).mp hi⟩
    · have h1 : (containing offset size x).card ≤ 1 := by
        rw [h x]
        split_ifs <;> omega
      exact Finset.card_le_one.mp h1 i ((hmem i x).mpr hi) j ((hmem j x).mpr hj)

/-- A family tiles exactly if its members begin and end at the same points, apart from the ends of the interval. -/
theorem tiles_iff_starts_eq_ends {n : ℕ} {offset size : Fin n → ℤ} {lo hi : ℤ} (hs : ∀ i, 0 ≤ size i) (h : lo ≤ hi) :
    Tiles offset size lo hi ↔ hi ::ₘ Finset.univ.val.map offset =
      lo ::ₘ Finset.univ.val.map fun i => offset i + size i := by
  -- up to a point there are as many starts more than ends as members contain the point
  have hcount : ∀ x, (containing offset size x).card +
      (Finset.univ.val.map fun i => offset i + size i).countP (· ≤ x) =
        (Finset.univ.val.map offset).countP (· ≤ x) := by
    intro x
    rw [Multiset.countP_map, Multiset.countP_map]
    change _ + (Finset.univ.filter fun i => offset i + size i ≤ x).card =
      (Finset.univ.filter fun i => offset i ≤ x).card
    rw [containing, ← Finset.card_union_of_disjoint]
    · congr 1
      ext i
      have := hs i
      simp only [Finset.mem_union, Finset.mem_filter, Finset.mem_univ, true_and]
      omega
    · rw [Finset.disjoint_filter]
      intro i _ hi
      omega
  have hiff : ∀ x, ((containing offset size x).card = if lo ≤ x ∧ x < hi then 1 else 0) ↔
      (hi ::ₘ Finset.univ.val.map offset).countP (· ≤ x) =
        (lo ::ₘ Finset.univ.val.map fun i => offset i + size i).countP (· ≤ x) := by
    intro x
    have := hcount x
    rw [Multiset.countP_cons, Multiset.countP_cons]
    split_ifs <;> omega
  rw [tiles_iff_card]
  refine ⟨fun hx => eq_of_countP_le fun x => (hiff x).mp (hx x), fun he x => (hiff x).mpr ?_⟩
  rw [he]

theorem le_of_starts_eq_ends {n : ℕ} {offset size : Fin n → ℤ} {lo hi : ℤ} (hs : ∀ i, 0 ≤ size i)
    (h : hi ::ₘ Finset.univ.val.map offset = lo ::ₘ Finset.univ.val.map fun i => offset i + size i) : lo ≤ hi := by
  have hsum := congrArg Multiset.sum h
  rw [Multiset.sum_cons, Multiset.sum_cons] at hsum
  change hi + ∑ i, offset i = lo + ∑ i, (offset i + size i) at hsum
  rw [Finset.sum_add_distrib] at hsum
  have := Finset.sum_nonneg fun i (_ : i ∈ Finset.univ) => hs i
  omega

end PIConGPU.IntervalTiling
