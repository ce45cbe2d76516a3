import PIConGPU.SupercellGrid

/-!
# Start positions of macro particles

A functor decides how many macro particles represent the real particles of a cell, and where in the cell they start.
If their weighting would be too small there are fewer of them. RandomImpl reduces their number, QuietImpl the lattice
that they form.
-/
namespace PIConGPU

structure MacroParticleCfg where
  weighting : ℚ
  numParticlesPerCell : ℕ

/-- A position functor with its state. A position that needs a division by zero is `none`. -/
structure PositionFunctor (D : ℕ) (σ : Type*) where
  mapRealToMacroParticle : (minWeighting realParticlesPerCell : ℚ) → σ → MacroParticleCfg × σ
  position : σ → (curParticle : ℕ) → Option (Fin D → ℚ) × σ

def macroWeighting (realParticlesPerCell : ℚ) (numParsPerCell : ℕ) : ℚ :=
  if 0 < numParsPerCell then realParticlesPerCell / numParsPerCell else 0

variable {D : ℕ}

namespace RandomImpl

def mapRealToMacroParticle (minWeighting realParticlesPerCell : ℚ) (numParsPerCell : ℕ) : MacroParticleCfg :=
  if macroWeighting realParticlesPerCell numParsPerCell < minWeighting ∧ 0 < numParsPerCell then
    mapRealToMacroParticle minWeighting realParticlesPerCell (numParsPerCell - 1)
  else ⟨macroWeighting realParticlesPerCell numParsPerCell, numParsPerCell⟩
termination_by numParsPerCell

def position {γ : Type*} (dist : γ → ℚ × γ) (gen : γ) : (Fin D → ℚ) × γ :=
  (fun i => (dist ((fun gen => (dist gen).2)^[i] gen)).1, (fun gen => (dist gen).2)^[D] gen)

def functor {γ : Type*} (dist : γ → ℚ × γ) (numParticlesPerCell : ℕ) : PositionFunctor D γ where
  mapRealToMacroParticle minWeighting realParticlesPerCell gen :=
    (RandomImpl.mapRealToMacroParticle minWeighting realParticlesPerCell numParticlesPerCell, gen)
  position gen _ :=
    let drawn : (Fin D → ℚ) × γ := RandomImpl.position dist gen
    (some drawn.1, drawn.2)

end RandomImpl

namespace QuietImpl

/-- The component with the greatest value, the first one of several. -/
def maxComponent [NeZero D] (numParInCell : Fin D → ℕ) : Fin D :=
  (List.finRange D).foldl (fun max i => if numParInCell max < numParInCell i then i else max) 0

def decrement [NeZero D] (numParInCell : Fin D → ℕ) : Fin D → ℕ :=
  Function.update numParInCell (maxComponent numParInCell) (numParInCell (maxComponent numParInCell) - 1)

theorem sum_decrement_lt [NeZero D] {numParInCell : Fin D → ℕ} (h : 0 < ∏ d, numParInCell d) :
    ∑ d, decrement numParInCell d < ∑ d, numParInCell d := by
  have hpos : 0 < numParInCell (maxComponent numParInCell) :=
    Nat.pos_of_ne_zero fun hzero => h.ne' (Finset.prod_eq_zero (Finset.mem_univ _) hzero)
  refine Finset.sum_lt_sum (fun d _ => ?_) ⟨maxComponent numParInCell, Finset.mem_univ _, ?_⟩
  · unfold decrement
    by_cases hd : d = maxComponent numParInCell
    · subst hd
      rw [Function.update_self]
      exact Nat.sub_le _ _
    · rw [Function.update_of_ne hd]
  · rw [decrement, Function.update_self]
    omega

def mapRealToMacroParticle [NeZero D] (minWeighting realElPerCell : ℚ) (numParInCell : Fin D → ℕ) :
    MacroParticleCfg × (Fin D → ℕ) :=
  let numParsPerCell := ∏ d, numParInCell d
  if macroWeighting realElPerCell numParsPerCell < minWeighting ∧ 0 < numParsPerCell then
    mapRealToMacroParticle minWeighting realElPerCell (decrement numParInCell)
  else (⟨macroWeighting realElPerCell numParsPerCell, numParsPerCell⟩, numParInCell)
termination_by ∑ d, numParInCell d
decreasing_by exact sum_decrement_lt (by assumption : _ ∧ _).2

/-- The divisors of `DataSpaceOperations::map(size, pos)`. -/
def moduli : {D : ℕ} → (size : DataSpace D) → List ℤ
  | 2, size => [size 0]
  | 3, size => [size 0, size 0 * size 1]
  | _, _ => []

/-- All that `operator()` divides by is not zero. -/
def DivisorsNonzero (numParInCell : Fin D → ℕ) : Prop :=
  (∀ d, numParInCell d ≠ 0) ∧ ∀ n ∈ moduli fun d => (numParInCell d : ℤ), n ≠ 0

instance (numParInCell : Fin D → ℕ) : Decidable (DivisorsNonzero numParInCell) :=
  inferInstanceAs (Decidable (_ ∧ _))

def position (numParInCell : Fin D → ℕ) (curParticle : ℕ) : Option (Fin D → ℚ) :=
  if DivisorsNonzero numParInCell then
    let spacing := fun d => (1 / numParInCell d : ℚ)
    let inCellCoordinate := DataSpaceOperations.unmap (fun d => (numParInCell d : ℤ)) curParticle
    some fun d => inCellCoordinate d * spacing d + spacing d * (1 / 2)
  else none

def functor [NeZero D] : PositionFunctor D (Fin D → ℕ) where
  mapRealToMacroParticle := QuietImpl.mapRealToMacroParticle
  position numParInCell curParticle := (QuietImpl.position numParInCell curParticle, numParInCell)

end QuietImpl

/-- There are no macro particles if the real particles are fewer than the smallest weighting; otherwise the macro
particles represent all of them, and none is too light. -/
def MacroParticleLaw (minWeighting realParticlesPerCell : ℚ) (cfg : MacroParticleCfg) : Prop :=
  (cfg.numParticlesPerCell = 0 ↔ realParticlesPerCell < minWeighting) ∧
    (minWeighting ≤ realParticlesPerCell →
      cfg.weighting * cfg.numParticlesPerCell = realParticlesPerCell ∧ minWeighting ≤ cfg.weighting)

section Spec

variable {minWeighting r : ℚ} {n : ℕ}

theorem macroWeighting_mul (hn : 0 < n) : macroWeighting r n * n = r := by
  have hne : (n : ℚ) ≠ 0 := by exact_mod_cast hn.ne'
  rw [macroWeighting, if_pos hn, div_mul_cancel₀ _ hne]

theorem macroWeighting_one : macroWeighting r 1 = r := by simp [macroWeighting]

theorem macroWeighting_le (hr : 0 ≤ r) : macroWeighting r n ≤ r := by
  unfold macroWeighting
  split_ifs with hn
  · exact div_le_self hr (by exact_mod_cast hn)
  · exact hr

theorem macroParticleLaw_of_lt (hr : r < minWeighting) : MacroParticleLaw minWeighting r ⟨0, 0⟩ :=
  ⟨iff_of_true rfl hr, fun hle => absurd hr (not_lt.mpr hle)⟩

theorem macroParticleLaw_of_le (hn : 0 < n) (hr : minWeighting ≤ r) (hle : minWeighting ≤ macroWeighting r n) :
    MacroParticleLaw minWeighting r ⟨macroWeighting r n, n⟩ :=
  ⟨iff_of_false hn.ne' (not_lt.mpr hr), fun _ => ⟨macroWeighting_mul hn, hle⟩⟩

theorem RandomImpl.mapRealToMacroParticle_of_lt (h0 : 0 ≤ r) (hr : r < minWeighting) (n : ℕ) :
    RandomImpl.mapRealToMacroParticle minWeighting r n = ⟨0, 0⟩ := by
  induction n with
  | zero => rw [RandomImpl.mapRealToMacroParticle, if_neg (by simp)]; rfl
  | succ n ih =>
    rw [RandomImpl.mapRealToMacroParticle, if_pos ⟨(macroWeighting_le h0).trans_lt hr, Nat.succ_pos n⟩]
    exact ih

/-- With one particle the weighting is large enough. -/
theorem RandomImpl.mapRealToMacroParticle_of_le (hr : minWeighting ≤ r) (hn : 0 < n) :
    MacroParticleLaw minWeighting r (RandomImpl.mapRealToMacroParticle minWeighting r n) := by
  induction n with
  | zero => exact absurd hn (lt_irrefl 0)
  | succ n ih =>
    rw [RandomImpl.mapRealToMacroParticle]
    split_ifs with h
    · refine ih (Nat.pos_of_ne_zero fun hzero => ?_)
      subst hzero
      rw [macroWeighting_one] at h
      exact absurd h.1 (not_lt.mpr hr)
    · exact macroParticleLaw_of_le hn hr (not_lt.mp fun hlt => h ⟨hlt, hn⟩)

theorem RandomImpl.mapRealToMacroParticle_law (h0 : 0 ≤ r) (hn : 0 < n) :
    MacroParticleLaw minWeighting r (RandomImpl.mapRealToMacroParticle minWeighting r n) := by
  rcases lt_or_ge r minWeighting with hr | hr
  · rw [RandomImpl.mapRealToMacroParticle_of_lt h0 hr]
    exact macroParticleLaw_of_lt hr
  · exact RandomImpl.mapRealToMacroParticle_of_le hr hn

namespace QuietImpl

variable [NeZero D] {lattice : Fin D → ℕ}

theorem le_maxComponent (lattice : Fin D → ℕ) (d : Fin D) : lattice d ≤ lattice (maxComponent lattice) := by
  have hfold : ∀ (l : List (Fin D)) (m : Fin D),
      lattice m ≤ lattice (l.foldl (fun max i => if lattice max < lattice i then i else max) m) ∧
      ∀ i ∈ l, lattice i ≤ lattice (l.foldl (fun max i => if lattice max < lattice i then i else max) m) := by
    intro l
    induction l with
    | nil => exact fun m => ⟨le_rfl, fun i hi => absurd hi (List.not_mem_nil)⟩
    | cons j l ih =>
      intro m
      rw [List.foldl_cons]
      obtain ⟨hm, hl⟩ := ih (if lattice m < lattice j then j else m)
      have hboth : lattice m ≤ lattice (if lattice m < lattice j then j else m) ∧
          lattice j ≤ lattice (if lattice m < lattice j then j else m) := by
        split_ifs with h
        · exact ⟨h.le, le_rfl⟩
        · exact ⟨le_rfl, not_lt.mp h⟩
      refine ⟨hboth.1.trans hm, fun i hi => ?_⟩
      rcases List.mem_cons.mp hi with rfl | hi
      · exact hboth.2.trans hm
      · exact hl i hi
  exact (hfold (List.finRange D) 0).2 d (List.mem_finRange d)

/-- A lattice with more than one particle keeps its components positive. -/
theorem decrement_pos (hpos : ∀ d, 0 < lattice d) (hone : 1 < ∏ d, lattice d) (d : Fin D) : 0 < decrement lattice d := by
  have hmax : 1 < lattice (maxComponent lattice) := by
    by_contra hle
    refine hone.not_ge (Finset.prod_le_one' fun i _ => ?_)
    exact (le_maxComponent lattice i).trans (not_lt.mp hle)
  unfold decrement
  by_cases hd : d = maxComponent lattice
  · subst hd
    rw [Function.update_self]
    omega
  · rw [Function.update_of_ne hd]
    exact hpos d

omit [NeZero D] in
theorem prod_pos (hpos : ∀ d, 0 < lattice d) : 0 < ∏ d, lattice d := Finset.prod_pos fun d _ => hpos d

/-- The reduced lattice of a cell with enough particles. -/
theorem mapRealToMacroParticle_of_le (hr : minWeighting ≤ r) (hpos : ∀ d, 0 < lattice d) :
    (∀ d, 0 < (mapRealToMacroParticle minWeighting r lattice).2 d) ∧
      (mapRealToMacroParticle minWeighting r lattice).1.numParticlesPerCell =
        ∏ d, (mapRealToMacroParticle minWeighting r lattice).2 d ∧
      MacroParticleLaw minWeighting r (mapRealToMacroParticle minWeighting r lattice).1 := by
  fun_induction mapRealToMacroParticle minWeighting r lattice with
  | case1 lattice n h ih =>
    refine ih (decrement_pos hpos (Nat.lt_of_le_of_ne h.2 fun hone => ?_))
    rw [show n = 1 from hone.symm, macroWeighting_one] at h
    exact absurd h.1 (not_lt.mpr hr)
  | case2 lattice n h =>
    have hn : 0 < n := prod_pos hpos
    exact ⟨hpos, rfl, macroParticleLaw_of_le hn hr (not_lt.mp fun hlt => h ⟨hlt, hn⟩)⟩

/-- A cell with too few particles loses a whole component of its lattice. -/
theorem mapRealToMacroParticle_of_lt (h0 : 0 ≤ r) (hr : r < minWeighting) (lattice : Fin D → ℕ) :
    (mapRealToMacroParticle minWeighting r lattice).1 = ⟨0, 0⟩ ∧
      ∃ d, (mapRealToMacroParticle minWeighting r lattice).2 d = 0 := by
  fun_induction mapRealToMacroParticle minWeighting r lattice with
  | case1 lattice n h ih => exact ih
  | case2 lattice n h =>
    have hzero : n = 0 := Nat.eq_zero_of_not_pos fun hn => h ⟨(macroWeighting_le h0).trans_lt hr, hn⟩
    obtain ⟨d, -, hd⟩ := Finset.prod_eq_zero_iff.mp hzero
    refine ⟨?_, d, hd⟩
    rw [hzero]
    rfl

theorem mapRealToMacroParticle_law (h0 : 0 ≤ r) (hpos : ∀ d, 0 < lattice d) :
    MacroParticleLaw minWeighting r (mapRealToMacroParticle minWeighting r lattice).1 := by
  rcases lt_or_ge r minWeighting with hr | hr
  · rw [(mapRealToMacroParticle_of_lt h0 hr lattice).1]
    exact macroParticleLaw_of_lt hr
  · exact (mapRealToMacroParticle_of_le hr hpos).2.2

omit [NeZero D] in
theorem divisorsNonzero_iff : DivisorsNonzero lattice ↔ ∀ d, 0 < lattice d := by
  refine ⟨fun h d => Nat.pos_of_ne_zero (h.1 d), fun h => ⟨fun d => (h d).ne', fun n hn => ?_⟩⟩
  unfold moduli at hn
  split at hn
  · rw [List.mem_singleton.mp hn]
    exact Nat.cast_ne_zero.mpr (h 0).ne'
  · rcases List.mem_cons.mp hn with rfl | hn
    · exact Nat.cast_ne_zero.mpr (h 0).ne'
    · rw [List.mem_singleton.mp hn]
      exact mul_ne_zero (Nat.cast_ne_zero.mpr (h 0).ne') (Nat.cast_ne_zero.mpr (h 1).ne')
  · exact absurd hn List.not_mem_nil

/-- The lattice of a cell can be divided by exactly if the cell has enough particles. -/
theorem divisorsNonzero_mapRealToMacroParticle (h0 : 0 ≤ r) (hpos : ∀ d, 0 < lattice d) :
    DivisorsNonzero (mapRealToMacroParticle minWeighting r lattice).2 ↔ minWeighting ≤ r := by
  rw [divisorsNonzero_iff]
  refine ⟨fun h => not_lt.mp fun hr => ?_, fun hr => (mapRealToMacroParticle_of_le hr hpos).1⟩
  obtain ⟨d, hd⟩ := (mapRealToMacroParticle_of_lt h0 hr lattice).2
  exact (h d).ne' hd

section Position

omit [NeZero D]

variable (lattice) in
def centre (coordinate : ∀ d, Fin (lattice d)) : Fin D → ℚ := fun d => (coordinate d + 1 / 2) / lattice d

theorem centre_mem (coordinate : ∀ d, Fin (lattice d)) (d : Fin D) :
    0 < centre lattice coordinate d ∧ centre lattice coordinate d < 1 := by
  have hlt : ((coordinate d : ℕ) : ℚ) + 1 ≤ lattice d := by exact_mod_cast (coordinate d).isLt
  have h0 : (0 : ℚ) ≤ (coordinate d : ℕ) := Nat.cast_nonneg _
  have hn : (0 : ℚ) < lattice d := by linarith
  constructor
  · exact div_pos (by linarith) hn
  · rw [centre, div_lt_one hn]
    linarith

theorem centre_injective : Function.Injective (centre lattice) := fun a b h => by
  funext d
  have hd := congrFun h d
  have hn : (lattice d : ℚ) ≠ 0 := Nat.cast_ne_zero.mpr (a d).pos.ne'
  rw [centre, centre, div_left_inj' hn, add_left_inj, Nat.cast_inj] at hd
  exact Fin.ext hd

theorem map_position (hD : D = 2 ∨ D = 3) (hpos : ∀ d, 0 < lattice d) :
    (Multiset.range (∏ d, lattice d)).map (position lattice) =
      (Finset.univ : Finset (∀ d, Fin (lattice d))).val.map fun coordinate => some (centre lattice coordinate) := by
  set size : DataSpace D := fun d => lattice d with hsize
  have hprod : ∏ d, size d = (∏ d, lattice d : ℕ) := (Nat.cast_prod _ _).symm
  have hmem : ∀ k ∈ Multiset.range (∏ d, lattice d), DataSpaceOperations.unmap size k ∈ launchBox size := fun k hk =>
    DataSpaceOperations.unmap_mem hD (fun d => Int.natCast_pos.mpr (hpos d)) (Int.natCast_nonneg k)
      (by rw [hprod]; exact_mod_cast Multiset.mem_range.mp hk)
  refine Multiset.map_eq_map_of_bij_of_nodup _ _ (Multiset.nodup_range _) (Finset.nodup _)
    (fun k hk d => ⟨(DataSpaceOperations.unmap size k d).toNat, ?_⟩) (fun k hk => Finset.mem_univ _)
    (fun k hk k' hk' he => ?_) (fun coordinate _ => ?_) fun k hk => ?_
  · have hd : 0 ≤ DataSpaceOperations.unmap size k d ∧ DataSpaceOperations.unmap size k d < lattice d := hmem k hk d
    omega
  · have hunmap : DataSpaceOperations.unmap size k = DataSpaceOperations.unmap size k' := funext fun d => by
      have hd := congrArg Fin.val (congrFun he d)
      have := hmem k hk d
      have := hmem k' hk' d
      dsimp only at hd
      omega
    have hmap := congrArg (DataSpaceOperations.map size) hunmap
    rw [DataSpaceOperations.map_unmap hD, DataSpaceOperations.map_unmap hD] at hmap
    exact_mod_cast hmap
  · have hbox : (fun d => ((coordinate d : ℕ) : ℤ)) ∈ launchBox size := fun d =>
      ⟨Int.natCast_nonneg _, Int.ofNat_lt.mpr (coordinate d).isLt⟩
    obtain ⟨h0, h1⟩ := DataSpaceOperations.map_mem hD hbox
    rw [hprod] at h1
    refine ⟨(DataSpaceOperations.map size fun d => ((coordinate d : ℕ) : ℤ)).toNat, Multiset.mem_range.mpr (by omega),
      funext fun d => Fin.ext ?_⟩
    dsimp only
    rw [Int.toNat_of_nonneg h0, DataSpaceOperations.unmap_map hD hbox, Int.toNat_natCast]
  · rw [position, if_pos (divisorsNonzero_iff.mpr hpos)]
    refine congrArg some (funext fun d => ?_)
    obtain ⟨h0, -⟩ := hmem k hk d
    have hcast : ((DataSpaceOperations.unmap size k d).toNat : ℚ) = (DataSpaceOperations.unmap size k d : ℤ) := by
      exact_mod_cast Int.toNat_of_nonneg h0
    rw [centre, hcast]
    ring

end Position

end QuietImpl

end Spec

end PIConGPU
