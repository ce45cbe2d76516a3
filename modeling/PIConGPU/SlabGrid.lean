import PIConGPU.RowMajor

/-!
# Numbering the shell of a box by slabs

The shell of width `w` of a box is cut into slabs: the layers on the near and the far side of one
axis, then of the next axis without the cells already counted. A slab is numbered by a row-major
number of its position and by a second number whose parity selects the side.
-/
namespace PIConGPU.SlabGrid

/-- `f` numbers the set `t` by `s`: it succeeds on `s`, and each element of `t` has one number. -/
def Numbers {α β : Type*} (f : α → Option β) (s : Set α) (t : Set β) : Prop := Set.BijOn f s (some '' t)

namespace Numbers

variable {α β : Type*} {f : α → Option β} {s s' : Set α} {t t' : Set β}

theorem of_inverse (φ : α → β) (g : β → α) (hf : ∀ a ∈ s, f a = some (φ a))
    (hφ : ∀ a ∈ s, φ a ∈ t ∧ g (φ a) = a) (hg : ∀ b ∈ t, g b ∈ s ∧ φ (g b) = b) : Numbers f s t := by
  refine ⟨fun a ha => ?_, fun a ha a' ha' h => ?_, ?_⟩
  · rw [hf a ha]
    exact ⟨φ a, (hφ a ha).1, rfl⟩
  · rw [hf a ha, hf a' ha', Option.some_inj] at h
    rw [← (hφ a ha).2, h, (hφ a' ha').2]
  · rintro _ ⟨b, hb, rfl⟩
    exact ⟨g b, (hg b hb).1, by rw [hf _ (hg b hb).1, (hg b hb).2]⟩

theorem union (h : Numbers f s t) (h' : Numbers f s' t') (hd : Disjoint t t') : Numbers f (s ∪ s') (t ∪ t') := by
  have hdisj : Disjoint (some '' t) (some '' t') :=
    (Set.disjoint_image_iff (Option.some_injective β)).mpr hd
  rw [Numbers, Set.image_union]
  refine Set.BijOn.union h h' ?_
  rintro a (ha | ha) a' (ha' | ha') heq
  · exact h.injOn ha ha' heq
  · exact absurd (heq ▸ h'.mapsTo ha') (Set.disjoint_left.mp hdisj (h.mapsTo ha))
  · exact absurd (heq ▸ h'.mapsTo ha) (Set.disjoint_left.mp hdisj (h.mapsTo ha'))
  · exact h'.injOn ha ha' heq

theorem congr {f' : α → Option β} (h : Numbers f s t) (hf : ∀ a ∈ s, f a = f' a) : Numbers f' s t :=
  Set.BijOn.congr h hf

/-- Each element of the target has exactly one number. -/
theorem existsUnique (h : Numbers f s t) {b : β} (hb : b ∈ t) : ∃! a, a ∈ s ∧ f a = some b := by
  obtain ⟨a, ha, hab⟩ := h.surjOn ⟨b, hb, rfl⟩
  exact ⟨a, ⟨ha, hab⟩, fun a' ⟨ha', hab'⟩ => h.injOn ha' ha (hab'.trans hab.symm)⟩

end Numbers

section Coordinates

/-- The layer with number `k`: even numbers count from the near side and odd ones from the far side. -/
def side (n w k : ℤ) : ℤ := k.tdiv 2 + k % 2 * (n - w)

def sideIndex (n w c : ℤ) : ℤ := if c < w then 2 * c else 2 * (c - (n - w)) + 1

/-- The layers of width `w` at both ends of an axis. -/
def AtSide (n w c : ℤ) : Prop := 0 ≤ c ∧ c < w ∨ n - w ≤ c ∧ c < n

variable {n w k c : ℤ}

theorem side_even {m : ℤ} (hm : 0 ≤ m) : side n w (2 * m) = m := by
  rw [side, Int.tdiv_eq_ediv_of_nonneg (by omega), Int.mul_ediv_cancel_left _ two_ne_zero, Int.mul_emod_right]
  ring

theorem side_odd {m : ℤ} (hm : 0 ≤ m) : side n w (2 * m + 1) = m + (n - w) := by
  have hdiv : (2 * m + 1) / 2 = m := by omega
  have hmod : (2 * m + 1) % 2 = 1 := by omega
  rw [side, Int.tdiv_eq_ediv_of_nonneg (by omega), hdiv, hmod, one_mul]

theorem side_spec (hn : 2 * w ≤ n) (hk : 0 ≤ k) (hkw : k < 2 * w) :
    AtSide n w (side n w k) ∧ sideIndex n w (side n w k) = k := by
  rcases Int.even_or_odd' k with ⟨m, rfl | rfl⟩
  · rw [side_even (by omega)]
    refine ⟨Or.inl (by omega), ?_⟩
    rw [sideIndex, if_pos (by omega)]
  · rw [side_odd (by omega)]
    refine ⟨Or.inr (by omega), ?_⟩
    rw [sideIndex, if_neg (by omega)]
    ring

theorem sideIndex_spec (hn : 2 * w ≤ n) (hc : AtSide n w c) :
    (0 ≤ sideIndex n w c ∧ sideIndex n w c < 2 * w) ∧ side n w (sideIndex n w c) = c := by
  rcases hc with hc | hc
  · rw [sideIndex, if_pos hc.2, side_even hc.1]
    omega
  · have hge : ¬c < w := by omega
    have hm : 0 ≤ c - (n - w) := by omega
    rw [sideIndex, if_neg hge, side_odd hm]
    omega

variable {x y a b t : ℤ}

theorem row_spec (ht : 0 ≤ t) (htx : t < x * y) (hx : 0 < x) :
    (0 ≤ t % x ∧ t % x < x) ∧ (0 ≤ t / x ∧ t / x < y) ∧ t / x * x + t % x = t := by
  refine ⟨⟨Int.emod_nonneg _ hx.ne', Int.emod_lt_of_pos _ hx⟩,
    ⟨Int.ediv_nonneg ht hx.le, Int.ediv_lt_of_lt_mul hx (by rwa [mul_comm] at htx)⟩, ?_⟩
  rw [mul_comm]
  exact Int.mul_ediv_add_emod t x

theorem index_spec (ha : 0 ≤ a) (hax : a < x) (hb : 0 ≤ b) (hby : b < y) :
    (0 ≤ b * x + a ∧ b * x + a < x * y) ∧ (b * x + a) % x = a ∧ (b * x + a) / x = b := by
  have hx : 0 < x := by omega
  have hbx : 0 ≤ b * x := mul_nonneg hb hx.le
  have hlast : (b + 1) * x ≤ y * x := mul_le_mul_of_nonneg_right (by omega) hx.le
  rw [add_mul, one_mul, mul_comm y x] at hlast
  refine ⟨⟨by omega, by omega⟩, ?_, ?_⟩
  · rw [add_comm, Int.add_mul_emod_self_right, Int.emod_eq_of_lt ha hax]
  · rw [add_comm, Int.add_mul_ediv_right _ _ hx.ne', Int.ediv_eq_zero_of_lt ha hax, zero_add]

end Coordinates

def box {D : ℕ} (o : ℤ) (n : Fin D → ℤ) : Set (Fin D → ℤ) := {c | ∀ d, o ≤ c d ∧ c d < o + n d}

/-- The cells of the box with fewer than `w` cells between them and the outside. -/
def shell {D : ℕ} (o w : ℤ) (n : Fin D → ℤ) : Set (Fin D → ℤ) := box o n \ box (o + w) fun d => n d - 2 * w

variable {o w : ℤ}

section Parts

/-- The part of an axis in direction `r`: the layers at one of its ends, or the cells between them. -/
def Segment (o n w r x : ℤ) : Prop :=
  if r = 0 then o + w ≤ x ∧ x < o + n - w else if r = 1 then o + n - w ≤ x ∧ x < o + n else o ≤ x ∧ x < o + w

def segmentOf (o n w x : ℤ) : ℤ := if x < o + w then -1 else if x < o + n - w then 0 else 1

theorem segment_iff {n r x : ℤ} (hw : 0 ≤ w) (hn : 2 * w ≤ n) (hr : r = -1 ∨ r = 0 ∨ r = 1) :
    Segment o n w r x ↔ (o ≤ x ∧ x < o + n) ∧ r = segmentOf o n w x := by
  unfold Segment segmentOf
  rcases hr with rfl | rfl | rfl <;> norm_num <;> split_ifs <;> norm_num <;> omega

/-- The part of a box in the given direction. -/
def part {D : ℕ} (o w : ℤ) (n r : Fin D → ℤ) : Set (Fin D → ℤ) := {c | ∀ d, Segment o (n d) w (r d) (c d)}

variable {D : ℕ} {n r : Fin D → ℤ}

theorem mem_part_iff (hw : 0 ≤ w) (hn : ∀ d, 2 * w ≤ n d) (hr : ∀ d, r d = -1 ∨ r d = 0 ∨ r d = 1)
    {c : Fin D → ℤ} : c ∈ part o w n r ↔ c ∈ box o n ∧ r = fun d => segmentOf o (n d) w (c d) := by
  rw [funext_iff]
  exact (forall_congr' fun d => segment_iff hw (hn d) (hr d)).trans forall_and

theorem segmentOf_cases (n x : ℤ) : segmentOf o n w x = -1 ∨ segmentOf o n w x = 0 ∨ segmentOf o n w x = 1 := by
  unfold segmentOf
  split_ifs <;> simp

theorem mem_shell_iff {c : Fin D → ℤ} :
    c ∈ shell o w n ↔ c ∈ box o n ∧ (fun d => segmentOf o (n d) w (c d)) ≠ 0 := by
  refine and_congr_right fun _ => not_congr ?_
  rw [funext_iff]
  refine forall_congr' fun d => ?_
  simp only [segmentOf, Pi.zero_apply]
  split_ifs <;> norm_num <;> omega

end Parts

section Plane

/-- Two slabs: the layers of the second axis, and those of the first axis between them. -/
def shell2 (o w : ℤ) (n idx : Fin 2 → ℤ) : Option (Fin 2 → ℤ) :=
  if idx 0 < n 0 then some ![o + idx 0, o + side (n 1) w (idx 1)]
  else some ![o + side (n 0) w (idx 1), o + w + (idx 0 - n 0)]

variable {n : Fin 2 → ℤ}

theorem shell2_first (hn : 2 * w ≤ n 1) :
    Numbers (shell2 o w n) {idx | (0 ≤ idx 0 ∧ idx 0 < n 0) ∧ 0 ≤ idx 1 ∧ idx 1 < 2 * w}
      {c | (o ≤ c 0 ∧ c 0 < o + n 0) ∧ AtSide (n 1) w (c 1 - o)} := by
  refine Numbers.of_inverse (fun idx => ![o + idx 0, o + side (n 1) w (idx 1)])
    (fun c => ![c 0 - o, sideIndex (n 1) w (c 1 - o)]) ?_ ?_ ?_
  · rintro idx ⟨h0, -⟩
    rw [shell2, if_pos h0.2]
  · rintro idx ⟨h0, h1⟩
    obtain ⟨hside, hindex⟩ := side_spec (n := n 1) hn h1.1 h1.2
    refine ⟨⟨by simp [h0], by simpa using hside⟩, funext fun d => ?_⟩
    fin_cases d <;> simp [hindex]
  · rintro c ⟨h0, h1⟩
    obtain ⟨hindex, hside⟩ := sideIndex_spec hn h1
    refine ⟨⟨?_, by simpa using hindex⟩, funext fun d => ?_⟩
    · simp only [Matrix.cons_val_zero]
      omega
    · fin_cases d <;> simp [hside]

theorem shell2_second (hn : 2 * w ≤ n 0) :
    Numbers (shell2 o w n) {idx | (n 0 ≤ idx 0 ∧ idx 0 < n 0 + n 1 - 2 * w) ∧ 0 ≤ idx 1 ∧ idx 1 < 2 * w}
      {c | AtSide (n 0) w (c 0 - o) ∧ o + w ≤ c 1 ∧ c 1 < o + n 1 - w} := by
  refine Numbers.of_inverse (fun idx => ![o + side (n 0) w (idx 1), o + w + (idx 0 - n 0)])
    (fun c => ![n 0 + (c 1 - o - w), sideIndex (n 0) w (c 0 - o)]) ?_ ?_ ?_
  · rintro idx ⟨h0, -⟩
    have hge : ¬idx 0 < n 0 := by omega
    rw [shell2, if_neg hge]
  · rintro idx ⟨h0, h1⟩
    obtain ⟨hside, hindex⟩ := side_spec (n := n 0) hn h1.1 h1.2
    refine ⟨⟨by simpa using hside, ?_⟩, funext fun d => ?_⟩
    · simp only [Matrix.cons_val_one, Matrix.cons_val_fin_one]
      omega
    · fin_cases d
      · simp only [Fin.zero_eta, Matrix.cons_val_zero, Matrix.cons_val_one, Matrix.cons_val_fin_one]
        ring
      · simp [hindex]
  · rintro c ⟨h0, h1⟩
    obtain ⟨hindex, hside⟩ := sideIndex_spec hn h0
    refine ⟨⟨?_, by simpa using hindex⟩, funext fun d => ?_⟩
    · simp only [Matrix.cons_val_zero]
      omega
    · fin_cases d <;> simp [hside]

theorem shell2_numbers (hw : 0 ≤ w) (hn : ∀ d, 2 * w ≤ n d) :
    Numbers (shell2 o w n) (box 0 ![n 0 + n 1 - 2 * w, 2 * w]) (shell o w n) := by
  have h0 := hn 0
  have h1 := hn 1
  have hd : Disjoint {c : Fin 2 → ℤ | (o ≤ c 0 ∧ c 0 < o + n 0) ∧ AtSide (n 1) w (c 1 - o)}
      {c | AtSide (n 0) w (c 0 - o) ∧ o + w ≤ c 1 ∧ c 1 < o + n 1 - w} := by
    rw [Set.disjoint_left]
    rintro c ⟨-, hc⟩ ⟨-, hc'⟩
    unfold AtSide at hc
    omega
  convert (shell2_first h1).union (shell2_second h0) hd using 1
  · ext idx
    simp only [box, Fin.forall_fin_two, Set.mem_ofPred_eq, Set.mem_union, Matrix.cons_val_zero, Matrix.cons_val_one]
    omega
  · ext c
    simp only [shell, box, Fin.forall_fin_two, Set.mem_sdiff, Set.mem_ofPred_eq, Set.mem_union, AtSide]
    omega

end Plane

section Space

def divide (a b : ℤ) : Option ℤ := if b = 0 then none else some (a.tdiv b)

def modulo (a b : ℤ) : Option ℤ := if b = 0 then none else some (a.tmod b)

theorem divide_eq {a b : ℤ} (ha : 0 ≤ a) (hb : 0 < b) : divide a b = some (a / b) := by
  rw [divide, if_neg hb.ne', Int.tdiv_eq_ediv_of_nonneg ha]

theorem modulo_eq {a b : ℤ} (ha : 0 ≤ a) (hb : 0 < b) : modulo a b = some (a % b) := by
  rw [modulo, if_neg hb.ne', Int.tmod_eq_emod_of_nonneg ha]

/-- Three slabs: the layers of the third axis, those of the first axis between them, and those of the
second axis within both. -/
def shell3 (o w : ℤ) (n idx : Fin 3 → ℤ) : Option (Fin 3 → ℤ) :=
  if idx 0 < n 0 * n 1 then do
    return ![o + (← modulo (idx 0) (n 0)), o + (← divide (idx 0) (n 0)), o + side (n 2) w (idx 1)]
  else if idx 0 < n 0 * n 1 + (n 2 - 2 * w) * n 1 then do
    let t := idx 0 - n 0 * n 1
    return ![o + side (n 0) w (idx 1), o + (← divide t (n 2 - 2 * w)), o + w + (← modulo t (n 2 - 2 * w))]
  else do
    let t := idx 0 - n 0 * n 1 - (n 2 - 2 * w) * n 1
    return ![o + w + (← modulo t (n 0 - 2 * w)), o + side (n 1) w (idx 1), o + w + (← divide t (n 0 - 2 * w))]

variable {n : Fin 3 → ℤ}

theorem inner_sub (t : ℤ) : o + w + t - o - w = t := by
  ring

/-- The numbers of a slab: `size` positions from `start`, and a side. -/
def slabIndices (w start size : ℤ) : Set (Fin 3 → ℤ) :=
  {idx | (start ≤ idx 0 ∧ idx 0 < start + size) ∧ (0 ≤ idx 1 ∧ idx 1 < 2 * w) ∧ idx 2 = 0}

theorem shell3_first (hx : 0 < n 0) (hn : 2 * w ≤ n 2) :
    Numbers (shell3 o w n) (slabIndices w 0 (n 0 * n 1))
      {c | (o ≤ c 0 ∧ c 0 < o + n 0) ∧ (o ≤ c 1 ∧ c 1 < o + n 1) ∧ AtSide (n 2) w (c 2 - o)} := by
  refine Numbers.of_inverse
    (fun idx => ![o + idx 0 % n 0, o + idx 0 / n 0, o + side (n 2) w (idx 1)])
    (fun c => ![(c 1 - o) * n 0 + (c 0 - o), sideIndex (n 2) w (c 2 - o), 0]) ?_ ?_ ?_
  · rintro idx ⟨h0, -, -⟩
    have hlt : idx 0 < n 0 * n 1 := by omega
    rw [shell3, if_pos hlt, modulo_eq h0.1 hx, divide_eq h0.1 hx]
    rfl
  · rintro idx ⟨h0, h1, h2⟩
    obtain ⟨hside, hindex⟩ := side_spec (n := n 2) hn h1.1 h1.2
    obtain ⟨hcol, hrow, hpos⟩ := row_spec h0.1 (show idx 0 < n 0 * n 1 by omega) hx
    refine ⟨⟨by simp [hcol], by simp [hrow], by simpa using hside⟩, funext fun d => ?_⟩
    fin_cases d <;> simp [hpos, hindex, h2]
  · rintro c ⟨h0, h1, h2⟩
    obtain ⟨hindex, hside⟩ := sideIndex_spec hn h2
    obtain ⟨hlt, hcol, hrow⟩ := index_spec (a := c 0 - o) (x := n 0) (b := c 1 - o) (y := n 1) (by omega) (by omega)
      (by omega) (by omega)
    refine ⟨⟨by simpa using hlt, by simpa using hindex, by simp⟩, funext fun d => ?_⟩
    fin_cases d <;> simp [hcol, hrow, hside]

theorem shell3_second (hz : 0 < n 2 - 2 * w) (hn : 2 * w ≤ n 0) :
    Numbers (shell3 o w n) (slabIndices w (n 0 * n 1) ((n 2 - 2 * w) * n 1))
      {c | AtSide (n 0) w (c 0 - o) ∧ (o ≤ c 1 ∧ c 1 < o + n 1) ∧ o + w ≤ c 2 ∧ c 2 < o + n 2 - w} := by
  refine Numbers.of_inverse
    (fun idx => ![o + side (n 0) w (idx 1), o + (idx 0 - n 0 * n 1) / (n 2 - 2 * w),
      o + w + (idx 0 - n 0 * n 1) % (n 2 - 2 * w)])
    (fun c => ![n 0 * n 1 + ((c 1 - o) * (n 2 - 2 * w) + (c 2 - o - w)), sideIndex (n 0) w (c 0 - o), 0]) ?_ ?_ ?_
  · rintro idx ⟨h0, -, -⟩
    have hge : ¬idx 0 < n 0 * n 1 := by omega
    have hpos : 0 ≤ idx 0 - n 0 * n 1 := by omega
    rw [shell3, if_neg hge, if_pos h0.2]
    dsimp only
    rw [modulo_eq hpos hz, divide_eq hpos hz]
    rfl
  · rintro idx ⟨h0, h1, h2⟩
    obtain ⟨hside, hindex⟩ := side_spec (n := n 0) hn h1.1 h1.2
    obtain ⟨hcol, hrow, hpos⟩ := row_spec (show 0 ≤ idx 0 - n 0 * n 1 by omega)
      (show idx 0 - n 0 * n 1 < (n 2 - 2 * w) * n 1 by omega) hz
    refine ⟨⟨by simpa using hside, by simp [hrow], ?_⟩, funext fun d => ?_⟩
    · simp only [Matrix.cons_val_two, Matrix.tail_cons, Matrix.head_cons]
      omega
    · fin_cases d <;> simp [inner_sub, hpos, hindex, h2]
  · rintro c ⟨h0, h1, h2⟩
    obtain ⟨hindex, hside⟩ := sideIndex_spec hn h0
    obtain ⟨hlt, hcol, hrow⟩ := index_spec (a := c 2 - o - w) (x := n 2 - 2 * w) (b := c 1 - o) (y := n 1)
      (by omega) (by omega) (by omega) (by omega)
    refine ⟨⟨by simpa using hlt, by simpa using hindex, by simp⟩, funext fun d => ?_⟩
    fin_cases d <;> simp [hcol, hrow, hside]

theorem shell3_third (hx : 0 < n 0 - 2 * w) (hz : 0 ≤ (n 2 - 2 * w) * n 1) (hn : 2 * w ≤ n 1) :
    Numbers (shell3 o w n)
      (slabIndices w (n 0 * n 1 + (n 2 - 2 * w) * n 1) ((n 0 - 2 * w) * (n 2 - 2 * w)))
      {c | (o + w ≤ c 0 ∧ c 0 < o + n 0 - w) ∧ AtSide (n 1) w (c 1 - o) ∧ o + w ≤ c 2 ∧ c 2 < o + n 2 - w} := by
  refine Numbers.of_inverse
    (fun idx => ![o + w + (idx 0 - (n 0 * n 1 + (n 2 - 2 * w) * n 1)) % (n 0 - 2 * w), o + side (n 1) w (idx 1),
      o + w + (idx 0 - (n 0 * n 1 + (n 2 - 2 * w) * n 1)) / (n 0 - 2 * w)])
    (fun c => ![n 0 * n 1 + (n 2 - 2 * w) * n 1 + ((c 2 - o - w) * (n 0 - 2 * w) + (c 0 - o - w)),
      sideIndex (n 1) w (c 1 - o), 0]) ?_ ?_ ?_
  · rintro idx ⟨h0, -, -⟩
    have hge : ¬idx 0 < n 0 * n 1 := by omega
    have hge' : ¬idx 0 < n 0 * n 1 + (n 2 - 2 * w) * n 1 := by omega
    have hpos : 0 ≤ idx 0 - (n 0 * n 1 + (n 2 - 2 * w) * n 1) := by omega
    rw [shell3, if_neg hge, if_neg hge']
    dsimp only
    rw [sub_sub, modulo_eq hpos hx, divide_eq hpos hx]
    rfl
  · rintro idx ⟨h0, h1, h2⟩
    obtain ⟨hside, hindex⟩ := side_spec (n := n 1) hn h1.1 h1.2
    obtain ⟨hcol, hrow, hpos⟩ := row_spec (show 0 ≤ idx 0 - (n 0 * n 1 + (n 2 - 2 * w) * n 1) by omega)
      (show idx 0 - (n 0 * n 1 + (n 2 - 2 * w) * n 1) < (n 0 - 2 * w) * (n 2 - 2 * w) by omega) hx
    refine ⟨⟨?_, by simpa using hside, ?_⟩, funext fun d => ?_⟩
    · simp only [Matrix.cons_val_zero]
      omega
    · simp only [Matrix.cons_val_two, Matrix.tail_cons, Matrix.head_cons]
      omega
    · fin_cases d <;> simp [inner_sub, hpos, hindex, h2]
  · rintro c ⟨h0, h1, h2⟩
    obtain ⟨hindex, hside⟩ := sideIndex_spec hn h1
    obtain ⟨hlt, hcol, hrow⟩ := index_spec (a := c 0 - o - w) (x := n 0 - 2 * w) (b := c 2 - o - w) (y := n 2 - 2 * w)
      (by omega) (by omega) (by omega) (by omega)
    refine ⟨⟨by simpa using hlt, by simpa using hindex, by simp⟩, funext fun d => ?_⟩
    fin_cases d <;> simp [add_sub_cancel_left, hcol, hrow, hside]

theorem forall_fin_three {P : Fin 3 → Prop} : (∀ d, P d) ↔ P 0 ∧ P 1 ∧ P 2 := by
  simp [Fin.forall_fin_succ]

theorem shell3_numbers (hw : 0 ≤ w) (hn : ∀ d, 2 * w < n d) :
    Numbers (shell3 o w n)
      (box 0 ![n 0 * n 1 + (n 2 - 2 * w) * n 1 + (n 0 - 2 * w) * (n 2 - 2 * w), 2 * w, 1]) (shell o w n) := by
  have h0 := hn 0
  have h1 := hn 1
  have h2 := hn 2
  have hxy : 0 ≤ n 0 * n 1 := mul_nonneg (by omega) (by omega)
  have hzy : 0 ≤ (n 2 - 2 * w) * n 1 := mul_nonneg (by omega) (by omega)
  have hxz : 0 ≤ (n 0 - 2 * w) * (n 2 - 2 * w) := mul_nonneg (by omega) (by omega)
  have hfirst := shell3_first (o := o) (w := w) (n := n) (by omega) (by omega)
  have hsecond := shell3_second (o := o) (w := w) (n := n) (by omega) (by omega)
  have hthird := shell3_third (o := o) (w := w) (n := n) (by omega) hzy (by omega)
  convert (hfirst.union hsecond ?_).union hthird ?_ using 1
  · ext idx
    simp only [box, slabIndices, forall_fin_three, Set.mem_ofPred_eq, Set.mem_union, Matrix.cons_val]
    omega
  · ext c
    simp only [shell, box, forall_fin_three, Set.mem_sdiff, Set.mem_ofPred_eq, Set.mem_union, AtSide]
    omega
  · rw [Set.disjoint_left]
    rintro c ⟨-, -, hc⟩ ⟨-, -, hc'⟩
    unfold AtSide at hc
    omega
  · rw [Set.disjoint_left]
    rintro c hc ⟨hc0, hc1, hc2⟩
    simp only [Set.mem_union, Set.mem_ofPred_eq, AtSide] at hc hc1
    omega

end Space

end PIConGPU.SlabGrid
