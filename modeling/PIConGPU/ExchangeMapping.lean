import PIConGPU.AreaMapping

/-!
# Exchange mappings

For each exchange direction a kernel runs on the part of GUARD or BORDER in that direction. The source
has one specialisation for each area and dimension; they treat every coordinate alike.
-/
namespace PIConGPU

open SlabGrid

namespace ExchangeMappingMethods

variable {D : ℕ} (m : MappingDescription D) (exchangeType : ℕ)

def guard : BlockMapper D where
  getGridDim := fun d =>
    if getRelativeDirections D exchangeType d ≠ 0 then m.guardingSuperCells
    else m.gridSuperCells d - 2 * m.guardingSuperCells
  getBlockIndex := fun blockIdx => some fun d =>
    if getRelativeDirections D exchangeType d = 0 then blockIdx d + m.guardingSuperCells
    else if getRelativeDirections D exchangeType d = 1 then
      blockIdx d + (m.gridSuperCells d - m.guardingSuperCells)
    else blockIdx d

def border : BlockMapper D where
  getGridDim := fun d =>
    if getRelativeDirections D exchangeType d ≠ 0 then m.borderSuperCells
    else m.gridSuperCells d - 2 * m.guardingSuperCells - 2 * m.borderSuperCells
  getBlockIndex := fun blockIdx => some fun d =>
    match getRelativeDirections D exchangeType d with
    | 0 => blockIdx d + (m.guardingSuperCells + m.borderSuperCells)
    | -1 => blockIdx d + m.guardingSuperCells
    | 1 => blockIdx d + (m.gridSuperCells d - m.guardingSuperCells - m.borderSuperCells)
    | _ => blockIdx d

end ExchangeMappingMethods

/-- The supercells that the blocks of a launch work on. -/
def BlockMapper.image {D : ℕ} (mapper : BlockMapper D) : Set (DataSpace D) :=
  {c | ∃ blockIdx ∈ launchBox mapper.getGridDim, mapper.getBlockIndex blockIdx = some c}

namespace ExchangeMapping

variable {D : ℕ} {m : MappingDescription D}

theorem image_eq_of_enumerates {mapper : BlockMapper D} {s : Set (DataSpace D)}
    (h : AreaMapping.Enumerates mapper s) : mapper.image = s := by
  ext c
  constructor
  · rintro ⟨blockIdx, hidx, hc⟩
    obtain ⟨c', hc', heq⟩ := h.mapsTo hidx
    rw [hc, Option.some_inj] at heq
    rwa [← heq]
  · intro hc
    obtain ⟨blockIdx, ⟨hidx, heq⟩, -⟩ := h.existsUnique hc
    exact ⟨blockIdx, hidx, heq⟩

theorem mem_image_shift {size o : DataSpace D} {mapper : BlockMapper D} (hsize : mapper.getGridDim = size)
    (hstart : ∀ blockIdx, mapper.getBlockIndex blockIdx = some (blockIdx + o)) {c : DataSpace D} :
    c ∈ mapper.image ↔ ∀ d, o d ≤ c d ∧ c d < o d + size d := by
  constructor
  · rintro ⟨blockIdx, hidx, hc⟩ d
    rw [hstart, Option.some_inj] at hc
    have := hidx d
    rw [hsize] at this
    rw [← hc, Pi.add_apply]
    omega
  · intro h
    refine ⟨c - o, fun d => ?_, by rw [hstart, sub_add_cancel]⟩
    have := h d
    rw [hsize, Pi.sub_apply]
    omega

theorem guard_image (i : ℕ) :
    (ExchangeMappingMethods.guard m i).image =
      part 0 m.guardingSuperCells m.gridSuperCells (getRelativeDirections D i) := by
  ext c
  refine (mem_image_shift (o := fun d => if getRelativeDirections D i d = 0 then m.guardingSuperCells
    else if getRelativeDirections D i d = 1 then m.gridSuperCells d - m.guardingSuperCells else 0) rfl ?_).trans ?_
  · intro blockIdx
    rw [ExchangeMappingMethods.guard, Option.some_inj]
    funext d
    rw [Pi.add_apply]
    split_ifs <;> simp
  · refine forall_congr' fun d => ?_
    simp only [ExchangeMappingMethods.guard, Segment]
    split_ifs <;> omega

theorem border_image (i : ℕ) :
    (ExchangeMappingMethods.border m i).image =
      part m.guardingSuperCells m.borderSuperCells (fun d => m.gridSuperCells d - 2 * m.guardingSuperCells)
        (getRelativeDirections D i) := by
  ext c
  refine (mem_image_shift (o := fun d =>
    if getRelativeDirections D i d = 0 then m.guardingSuperCells + m.borderSuperCells
    else if getRelativeDirections D i d = 1 then m.gridSuperCells d - m.guardingSuperCells - m.borderSuperCells
    else m.guardingSuperCells) rfl ?_).trans ?_
  · intro blockIdx
    rw [ExchangeMappingMethods.border, Option.some_inj]
    funext d
    rw [Pi.add_apply]
    rcases getRelativeDirections_cases D i d with h | h | h <;> simp [h]
  · refine forall_congr' fun d => ?_
    simp only [ExchangeMappingMethods.border, Segment]
    split_ifs <;> omega

section Directions

/-- The directions of `part` that are exchanges: all but the one of the inside. -/
def exchanges (D : ℕ) : Set ℕ := {i | 1 ≤ i ∧ i < numberOfExchanges D}

variable {o w : ℤ} {n : DataSpace D}

theorem disjoint_part (hw : 0 ≤ w) (hn : ∀ d, 2 * w ≤ n d) {i j : ℕ} (hi : i ∈ exchanges D)
    (hj : j ∈ exchanges D) (hij : i ≠ j) :
    Disjoint (part o w n (getRelativeDirections D i)) (part o w n (getRelativeDirections D j)) := by
  rw [Set.disjoint_left]
  intro c hc hc'
  have h := ((mem_part_iff hw hn (getRelativeDirections_cases D i)).mp hc).2
  have h' := ((mem_part_iff hw hn (getRelativeDirections_cases D j)).mp hc').2
  exact hij (getRelativeDirections_injOn hi.2 hj.2 (h.trans h'.symm))

theorem iUnion_part (hw : 0 ≤ w) (hn : ∀ d, 2 * w ≤ n d) :
    ⋃ i ∈ exchanges D, part o w n (getRelativeDirections D i) = shell o w n := by
  ext c
  rw [mem_shell_iff]
  simp only [Set.mem_iUnion, exists_prop]
  constructor
  · rintro ⟨i, hi, hc⟩
    obtain ⟨hbox, hdir⟩ := (mem_part_iff hw hn (getRelativeDirections_cases D i)).mp hc
    refine ⟨hbox, fun h0 => ?_⟩
    rw [← hdir, ← getRelativeDirections_zero D] at h0
    have := getRelativeDirections_injOn hi.2 (Nat.pow_pos (by norm_num)) h0
    have := hi.1
    omega
  · rintro ⟨hbox, hne⟩
    obtain ⟨i, hi, hdir⟩ := exists_getRelativeDirections fun d => segmentOf_cases (o := o) (w := w) (n d) (c d)
    have hpos : i ≠ 0 := by
      rintro rfl
      exact hne (by rw [← hdir, getRelativeDirections_zero])
    exact ⟨i, ⟨by omega, hi⟩, (mem_part_iff hw hn (getRelativeDirections_cases D i)).mpr ⟨hbox, hdir⟩⟩

end Directions

section Neighbor

variable (m)

/-- A guard supercell in the grid of the neighbor in direction `i`. -/
def toNeighbor (i : ℕ) (c : DataSpace D) : DataSpace D := fun d =>
  c d - getRelativeDirections D i d * (m.gridSuperCells d - 2 * m.guardingSuperCells)

variable {m}

/-- The guard in a direction arrives inside the neighbor if and only if the inside is as wide as the guard. -/
theorem toNeighbor_mem_inner_iff (hg : 1 ≤ m.guardingSuperCells)
    (hG : ∀ d, 2 * m.guardingSuperCells < m.gridSuperCells d) (i : ℕ) :
    (∀ c ∈ (ExchangeMappingMethods.guard m i).image, toNeighbor m i c ∈ m.inner m.guardingSuperCells) ↔
      ∀ d, getRelativeDirections D i d ≠ 0 →
        m.guardingSuperCells ≤ m.gridSuperCells d - 2 * m.guardingSuperCells := by
  rw [guard_image]
  constructor
  · intro h d hd
    have hcorner : (fun d => if getRelativeDirections D i d = 0 then m.guardingSuperCells
        else if getRelativeDirections D i d = 1 then m.gridSuperCells d - 1 else 0) ∈
        part 0 m.guardingSuperCells m.gridSuperCells (getRelativeDirections D i) := by
      intro e
      have := hG e
      simp only [Segment]
      split_ifs <;> omega
    have hin := h _ hcorner d
    simp only [toNeighbor, if_neg hd] at hin
    rcases getRelativeDirections_cases D i d with hr | hr | hr
    · simp only [hr] at hin
      norm_num at hin
      omega
    · exact absurd hr hd
    · simp only [hr] at hin
      norm_num at hin
      omega
  · intro h c hc d
    have hd := hc d
    have hwide := h d
    simp only [toNeighbor]
    rcases getRelativeDirections_cases D i d with hr | hr | hr
    · simp only [hr, Segment] at hd hwide ⊢
      norm_num at hd hwide ⊢
      omega
    · simp only [hr, Segment] at hd ⊢
      norm_num at hd ⊢
      omega
    · simp only [hr, Segment] at hd hwide ⊢
      norm_num at hd hwide ⊢
      omega

/-- A guard wider than the inside reaches beyond the neighbor. -/
theorem wide_guard_leaves_neighbor :
    ¬ ∀ m : MappingDescription 2, 1 ≤ m.guardingSuperCells → 1 ≤ m.borderSuperCells → m.core.Nonempty →
      ∀ i ∈ exchanges 2, ∀ c ∈ (ExchangeMappingMethods.guard m i).image,
        toNeighbor m i c ∈ m.inner m.guardingSuperCells := by
  intro h
  have hcore : (⟨fun _ => 13, 1, 5⟩ : MappingDescription 2).core.Nonempty :=
    ⟨fun _ => 6, fun d => by norm_num⟩
  have hmem : (![0, 5] : DataSpace 2) ∈ (ExchangeMappingMethods.guard ⟨fun _ => 13, 1, 5⟩ LEFT).image := by
    refine ⟨![0, 0], fun d => ?_, ?_⟩
    · fin_cases d <;> decide
    · refine congrArg some (funext fun d => ?_)
      fin_cases d <;> decide
  have := h ⟨fun _ => 13, 1, 5⟩ (by norm_num) (by norm_num) hcore LEFT ⟨by decide, by decide⟩ _ hmem 0
  revert this
  decide

/-- The exchange mappings share the guard and the border of a grid with a core. -/
theorem exchangeMappings_partition (hD : D = 2 ∨ D = 3) (hg : 1 ≤ m.guardingSuperCells)
    (hb : 1 ≤ m.borderSuperCells) (hcore : m.core.Nonempty) :
    ((∀ i ∈ exchanges D, ∀ j ∈ exchanges D, i ≠ j →
        Disjoint (ExchangeMappingMethods.guard m i).image (ExchangeMappingMethods.guard m j).image) ∧
      ⋃ i ∈ exchanges D, (ExchangeMappingMethods.guard m i).image = (areaMapping m .GUARD).image) ∧
    ((∀ i ∈ exchanges D, ∀ j ∈ exchanges D, i ≠ j →
        Disjoint (ExchangeMappingMethods.border m i).image (ExchangeMappingMethods.border m j).image) ∧
      ⋃ i ∈ exchanges D, (ExchangeMappingMethods.border m i).image = (areaMapping m .BORDER).image) ∧
    ∀ i ∈ exchanges D,
      ((∀ c ∈ (ExchangeMappingMethods.guard m i).image, toNeighbor m i c ∈ m.inner m.guardingSuperCells) ↔
        ∀ d, getRelativeDirections D i d ≠ 0 →
          m.guardingSuperCells ≤ m.gridSuperCells d - 2 * m.guardingSuperCells) := by
  have hG : ∀ d, 2 * (m.guardingSuperCells + m.borderSuperCells) < m.gridSuperCells d := fun d => by
    obtain ⟨c, hc⟩ := hcore
    have := hc d
    omega
  have hguard : ∀ d, 2 * m.guardingSuperCells ≤ m.gridSuperCells d := fun d => by
    have := hG d
    omega
  have hborder : ∀ d, 2 * m.borderSuperCells ≤ m.gridSuperCells d - 2 * m.guardingSuperCells := fun d => by
    have := hG d
    omega
  have harea := AreaMapping.areaMapping_enumerates hD (by omega) (by omega) hG
  rw [image_eq_of_enumerates (harea .GUARD), image_eq_of_enumerates (harea .BORDER)]
  simp only [guard_image, border_image]
  refine ⟨⟨fun i hi j hj hij => disjoint_part (by omega) hguard hi hj hij, ?_⟩,
    ⟨fun i hi j hj hij => disjoint_part (by omega) hborder hi hj hij, ?_⟩, fun i _ => ?_⟩
  · rw [iUnion_part (by omega) hguard]
    exact AreaMapping.guard_eq_shell.symm
  · rw [iUnion_part (by omega) hborder]
    exact AreaMapping.border_eq_shell.symm
  · rw [← guard_image]
    exact toNeighbor_mem_inner_iff hg (fun d => by have := hG d; omega) i

theorem exchangeMappings_partition_five :
    (⟨fun _ => 5, 1, 1⟩ : MappingDescription 2).core.Nonempty ∧
    ⋃ i ∈ exchanges 2, (ExchangeMappingMethods.guard (⟨fun _ => 5, 1, 1⟩ : MappingDescription 2) i).image =
      (areaMapping (⟨fun _ => 5, 1, 1⟩ : MappingDescription 2) .GUARD).image := by
  have hcore : (⟨fun _ => 5, 1, 1⟩ : MappingDescription 2).core.Nonempty :=
    ⟨fun _ => 2, fun d => by norm_num⟩
  exact ⟨hcore, (exchangeMappings_partition (Or.inl rfl) (by norm_num) (by norm_num) hcore).1.2⟩

end Neighbor

end ExchangeMapping

end PIConGPU
