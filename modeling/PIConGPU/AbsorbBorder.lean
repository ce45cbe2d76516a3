import PIConGPU.ExchangeMapping
import PIConGPU.FixedWidth

/-!
# Absorber at the outer faces

The blocks of a face start in the guard and walk inwards, supercell by supercell, until a thread has no positive factor
any more. In every supercell each thread damps one cell. The factor is a sum of signed and unsigned values, and thus
it is unsigned before it is converted to a floating point number.
-/
namespace PIConGPU.AbsorbBorder

variable {D : ℕ}

/-- The axis that `absorb` is called for. The call for z is only compiled if `SDIMDIM` is `DIM3`, and no `SDIMDIM` is
defined. -/
def absorbAxis (direction : DataSpace D) : Option (Fin D) :=
  (List.finRange D).find? fun pos => pos.val < 2 ∧ direction pos ≠ 0

section Kernel

variable (m : MappingDescription D) (superCellSize : DataSpace D) (thickness : ℕ) (damp : ℕ → ℚ)
  (direction : DataSpace D) (pos : Fin D)

def gCells : DataSpace D := m.gridSuperCells * superCellSize

def factor (cell : DataSpace D) : ℕ :=
  if direction pos < 0 then u32 (superCellSize pos + thickness - cell pos - 1)
  else if 0 < direction pos then u32 (superCellSize pos + cell pos - gCells m superCellSize pos + thickness)
  else 0

def tile (base : DataSpace D) : Set (DataSpace D) := {cell | ∀ d, base d ≤ cell d ∧ cell d < base d + superCellSize d}

instance (base : DataSpace D) : DecidablePred (· ∈ tile superCellSize base) :=
  fun cell => inferInstanceAs (Decidable (∀ d, base d ≤ cell d ∧ cell d < base d + superCellSize d))

def advance (base : DataSpace D) : DataSpace D :=
  Function.update base pos (base pos + superCellSize pos * (direction pos * -1))

/-- Every thread damps its cell, unless its factor is zero. -/
def dampTile (base : DataSpace D) (field : DataSpace D → Fin 3 → ℚ) : DataSpace D → Fin 3 → ℚ := fun cell =>
  if cell ∈ tile superCellSize base ∧ factor m superCellSize thickness direction pos cell ≠ 0 then
    fun i => field cell i * damp (factor m superCellSize thickness direction pos cell)
  else field cell

/-- The loop of a block; it ends with the supercell in which a thread has no positive factor. -/
inductive Walk : DataSpace D → (DataSpace D → Fin 3 → ℚ) → (DataSpace D → Fin 3 → ℚ) → Prop
  | last {base : DataSpace D} {field : DataSpace D → Fin 3 → ℚ}
    (h : ∃ cell ∈ tile superCellSize (advance superCellSize direction pos base),
      factor m superCellSize thickness direction pos cell = 0) :
    Walk base field (dampTile m superCellSize thickness damp direction pos (advance superCellSize direction pos base) field)
  | next {base : DataSpace D} {field field' : DataSpace D → Fin 3 → ℚ}
    (h : ∀ cell ∈ tile superCellSize (advance superCellSize direction pos base),
      factor m superCellSize thickness direction pos cell ≠ 0)
    (hrest : Walk (advance superCellSize direction pos base)
      (dampTile m superCellSize thickness damp direction pos (advance superCellSize direction pos base) field) field') :
    Walk base field field'

def Block (superCellIdx : DataSpace D) (field field' : DataSpace D → Fin 3 → ℚ) : Prop :=
  match absorbAxis direction with
  | some pos => Walk m superCellSize thickness damp direction pos (superCellIdx * superCellSize) field field'
  | none => field' = field

inductive Launch (exchangeType : ℕ) :
    List (DataSpace D) → (DataSpace D → Fin 3 → ℚ) → (DataSpace D → Fin 3 → ℚ) → Prop
  | nil {field : DataSpace D → Fin 3 → ℚ} : Launch exchangeType [] field field
  | cons {blockIdx superCellIdx : DataSpace D} {blocks : List (DataSpace D)}
    {field field' field'' : DataSpace D → Fin 3 → ℚ}
    (hidx : (ExchangeMappingMethods.guard m exchangeType).getBlockIndex blockIdx = some superCellIdx)
    (hblock : Block m superCellSize thickness damp (getRelativeDirections D exchangeType) superCellIdx field field')
    (hrest : Launch exchangeType blocks field' field'') : Launch exchangeType (blockIdx :: blocks) field field''

def depth (cell : DataSpace D) : ℤ :=
  if direction pos < 0 then cell pos - superCellSize pos
  else gCells m superCellSize pos - superCellSize pos - 1 - cell pos

def interior : Set (DataSpace D) :=
  {cell | ∀ d, superCellSize d ≤ cell d ∧ cell d < gCells m superCellSize d - superCellSize d}

instance : DecidablePred (· ∈ interior m superCellSize) :=
  fun cell => inferInstanceAs (Decidable (∀ d, superCellSize d ≤ cell d ∧
    cell d < gCells m superCellSize d - superCellSize d))

/-- Every launch for the face ends, and damps each cell of the absorber once and no other cell. -/
def Absorbs (exchangeType : ℕ) : Prop :=
  ∀ damp : ℕ → ℚ, damp 0 = 1 → ∀ (field : DataSpace D → Fin 3 → ℚ) (blocks : List (DataSpace D)),
    (ExchangeMappingMethods.guard m exchangeType).Launches blocks →
      (∃ field', Launch m superCellSize thickness damp exchangeType blocks field field') ∧
      ∀ field', Launch m superCellSize thickness damp exchangeType blocks field field' → ∀ cell i,
        field' cell i =
          if cell ∈ interior m superCellSize ∧
              depth m superCellSize (getRelativeDirections D exchangeType) pos cell < thickness then
            field cell i *
              damp (thickness - 1 - depth m superCellSize (getRelativeDirections D exchangeType) pos cell).toNat
          else field cell i

end Kernel

/-- An absorber of some cells at a face of a grid with one supercell of guard. -/
structure Face (m : MappingDescription D) (superCellSize : DataSpace D) (thickness : ℕ) (direction : DataSpace D)
    (pos : Fin D) : Prop where
  guarding : m.guardingSuperCells = 1
  size_pos : ∀ d, 0 < superCellSize d
  grid : ∀ d, 3 ≤ m.gridSuperCells d
  cells : gCells m superCellSize pos < 2147483648
  direction_pos : direction pos = -1 ∨ direction pos = 1
  direction_of_ne : ∀ d, d ≠ pos → direction d = 0
  thickness_pos : 0 < thickness
  thickness_le : (thickness : ℤ) ≤ gCells m superCellSize pos - 2 * superCellSize pos

section Block

variable {m : MappingDescription D} {superCellSize : DataSpace D} {thickness : ℕ} {damp : ℕ → ℚ}
  {direction : DataSpace D} {pos : Fin D} {c cell : DataSpace D} {field field' : DataSpace D → Fin 3 → ℚ}

theorem factor_eq (h : direction pos = -1 ∨ direction pos = 1) :
    factor m superCellSize thickness direction pos cell =
      u32 (thickness - 1 - depth m superCellSize direction pos cell) := by
  unfold factor depth
  rcases h with h | h
  · rw [if_pos (by omega), if_pos (by omega)]
    congr 1
    ring
  · rw [if_neg (by omega), if_pos (by omega), if_neg (by omega)]
    congr 1
    ring

/-- Supercells at the distance of `j` supercells from the guard. -/
def baseAt (superCellSize direction : DataSpace D) (pos : Fin D) (c : DataSpace D) (j : ℕ) : DataSpace D :=
  Function.update (c * superCellSize) pos (c pos * superCellSize pos - direction pos * (superCellSize pos * j))

theorem baseAt_zero : baseAt superCellSize direction pos c 0 = c * superCellSize := by
  simp [baseAt]

theorem advance_baseAt (j : ℕ) :
    advance superCellSize direction pos (baseAt superCellSize direction pos c j) =
      baseAt superCellSize direction pos c (j + 1) := by
  simp only [advance, baseAt, Function.update_self, Function.update_idem]
  congr 1
  push_cast
  ring

def Column (superCellSize : DataSpace D) (pos : Fin D) (c cell : DataSpace D) : Prop :=
  ∀ d, d ≠ pos → c d * superCellSize d ≤ cell d ∧ cell d < (c d + 1) * superCellSize d

instance : Decidable (Column superCellSize pos c cell) := inferInstanceAs (Decidable (∀ _, _ → _))

/-- The supercells of a block are at the given depths. -/
theorem mem_tile_iff (hdir : direction pos = -1 ∨ direction pos = 1)
    (hc : c pos = if direction pos = -1 then 0 else m.gridSuperCells pos - 1) (j : ℕ) :
    cell ∈ tile superCellSize (baseAt superCellSize direction pos c (j + 1)) ↔ Column superCellSize pos c cell ∧
      superCellSize pos * j ≤ depth m superCellSize direction pos cell ∧
      depth m superCellSize direction pos cell < superCellSize pos * (j + 1) := by
  have hpos : (baseAt superCellSize direction pos c (j + 1) pos ≤ cell pos ∧
      cell pos < baseAt superCellSize direction pos c (j + 1) pos + superCellSize pos) ↔
      superCellSize pos * j ≤ depth m superCellSize direction pos cell ∧
      depth m superCellSize direction pos cell < superCellSize pos * (j + 1) := by
    have hmul : superCellSize pos * ((j + 1 : ℕ) : ℤ) = superCellSize pos * j + superCellSize pos := by
      push_cast
      ring
    have hmul' : superCellSize pos * ((j : ℤ) + 1) = superCellSize pos * j + superCellSize pos := by ring
    simp only [baseAt, Function.update_self, depth, gCells, Pi.mul_apply, hmul, hmul']
    rcases hdir with h | h
    · rw [hc, h, if_pos rfl, if_pos (by norm_num)]
      constructor <;> rintro ⟨h1, h2⟩ <;> constructor <;> linarith
    · have hgrid : (m.gridSuperCells pos - 1) * superCellSize pos =
          m.gridSuperCells pos * superCellSize pos - superCellSize pos := by ring
      rw [hc, h, if_neg (by norm_num), if_neg (by norm_num), hgrid]
      constructor <;> rintro ⟨h1, h2⟩ <;> constructor <;> omega
  have hother : ∀ d, d ≠ pos → baseAt superCellSize direction pos c (j + 1) d = c d * superCellSize d := fun d hd => by
    rw [baseAt, Function.update_of_ne hd, Pi.mul_apply]
  constructor
  · intro h
    refine ⟨fun d hd => ?_, hpos.mp (h pos)⟩
    have hcell := h d
    rw [hother d hd] at hcell
    exact ⟨hcell.1, by linarith [hcell.2]⟩
  · rintro ⟨hcolumn, hdepth⟩ d
    by_cases hd : d = pos
    · subst hd
      exact hpos.mpr hdepth
    · rw [hother d hd]
      have hcell := hcolumn d hd
      exact ⟨hcell.1, by linarith [hcell.2]⟩

def lastSuperCell (superCellSize : DataSpace D) (thickness : ℕ) (pos : Fin D) : ℕ :=
  ((thickness - 1) / superCellSize pos).toNat

theorem lastSuperCell_bounds (hsize : 0 < superCellSize pos) (hthickness : 0 < thickness) :
    superCellSize pos * lastSuperCell superCellSize thickness pos ≤ thickness - 1 ∧
      (thickness - 1 : ℤ) < superCellSize pos * (lastSuperCell superCellSize thickness pos + 1) := by
  have hcast : (lastSuperCell superCellSize thickness pos : ℤ) = (thickness - 1) / superCellSize pos :=
    Int.toNat_of_nonneg (Int.ediv_nonneg (by omega) hsize.le)
  rw [hcast, mul_add, mul_one]
  have hdiv := Int.mul_ediv_add_emod (thickness - 1 : ℤ) (superCellSize pos)
  have hlt := Int.emod_lt_of_pos (thickness - 1 : ℤ) hsize
  have hnonneg := Int.emod_nonneg (thickness - 1 : ℤ) hsize.ne'
  omega

theorem Face.lastSuperCell_le (hface : Face m superCellSize thickness direction pos) :
    superCellSize pos * (lastSuperCell superCellSize thickness pos + 1) ≤
      gCells m superCellSize pos - 2 * superCellSize pos := by
  have hsize := hface.size_pos pos
  have hle := hface.thickness_le
  have hbounds := (lastSuperCell_bounds hsize hface.thickness_pos).1
  have hcells : gCells m superCellSize pos - 2 * superCellSize pos =
      superCellSize pos * (m.gridSuperCells pos - 2) := by
    rw [gCells, Pi.mul_apply]
    ring
  rw [hcells] at hle ⊢
  have hlt : (lastSuperCell superCellSize thickness pos : ℤ) < m.gridSuperCells pos - 2 :=
    lt_of_mul_lt_mul_left (by omega) hsize.le
  exact mul_le_mul_of_nonneg_left (by omega) hsize.le

/-- As far as a block walks, a factor is zero only in the last layer of the absorber. -/
theorem Face.factor_eq_zero_iff (hface : Face m superCellSize thickness direction pos)
    (h0 : 0 ≤ depth m superCellSize direction pos cell)
    (h1 : depth m superCellSize direction pos cell <
      superCellSize pos * (lastSuperCell superCellSize thickness pos + 1)) :
    factor m superCellSize thickness direction pos cell = 0 ↔
      depth m superCellSize direction pos cell = thickness - 1 := by
  have hle := hface.lastSuperCell_le
  have hcells := hface.cells
  have hsize := hface.size_pos pos
  have hthickness := hface.thickness_le
  rw [factor_eq hface.direction_pos, u32]
  omega

/-- The cells that a block damps from supercell `j` on. -/
def damped (m : MappingDescription D) (superCellSize : DataSpace D) (thickness : ℕ) (damp : ℕ → ℚ)
    (direction : DataSpace D) (pos : Fin D) (c : DataSpace D) (j : ℕ) (field : DataSpace D → Fin 3 → ℚ) :
    DataSpace D → Fin 3 → ℚ := fun cell i =>
  if Column superCellSize pos c cell ∧ superCellSize pos * j ≤ depth m superCellSize direction pos cell ∧
      depth m superCellSize direction pos cell < superCellSize pos * (lastSuperCell superCellSize thickness pos + 1) then
    field cell i * damp (factor m superCellSize thickness direction pos cell)
  else field cell i

theorem Face.dampTile_eq (hface : Face m superCellSize thickness direction pos) (hdamp : damp 0 = 1)
    (hc : c pos = if direction pos = -1 then 0 else m.gridSuperCells pos - 1) (j : ℕ)
    (field : DataSpace D → Fin 3 → ℚ) (cell : DataSpace D) (i : Fin 3) :
    dampTile m superCellSize thickness damp direction pos (baseAt superCellSize direction pos c (j + 1)) field cell i =
      if Column superCellSize pos c cell ∧ superCellSize pos * j ≤ depth m superCellSize direction pos cell ∧
          depth m superCellSize direction pos cell < superCellSize pos * (j + 1) then
        field cell i * damp (factor m superCellSize thickness direction pos cell)
      else field cell i := by
  simp only [dampTile, mem_tile_iff hface.direction_pos hc]
  by_cases hmem : Column superCellSize pos c cell ∧ superCellSize pos * j ≤ depth m superCellSize direction pos cell ∧
      depth m superCellSize direction pos cell < superCellSize pos * (j + 1)
  · by_cases hzero : factor m superCellSize thickness direction pos cell = 0
    · rw [if_neg fun h => h.2 hzero, if_pos hmem, hzero, hdamp, mul_one]
    · rw [if_pos ⟨hmem, hzero⟩, if_pos hmem]
  · rw [if_neg fun h => hmem h.1, if_neg hmem]

theorem exists_depth (hsize : ∀ d, 0 < superCellSize d) (c : DataSpace D) (k : ℤ) :
    ∃ cell, Column superCellSize pos c cell ∧ depth m superCellSize direction pos cell = k := by
  refine ⟨Function.update (c * superCellSize) pos (if direction pos < 0 then superCellSize pos + k
    else gCells m superCellSize pos - superCellSize pos - 1 - k), fun d hd => ?_, ?_⟩
  · have := hsize d
    rw [Function.update_of_ne hd, Pi.mul_apply]
    exact ⟨le_rfl, by linarith⟩
  · rw [depth, Function.update_self]
    split_ifs <;> ring

theorem Face.walk_iff (hface : Face m superCellSize thickness direction pos) (hdamp : damp 0 = 1)
    (hc : c pos = if direction pos = -1 then 0 else m.gridSuperCells pos - 1) {j : ℕ}
    (hj : j ≤ lastSuperCell superCellSize thickness pos) :
    Walk m superCellSize thickness damp direction pos (baseAt superCellSize direction pos c j) field field' ↔
      field' = damped m superCellSize thickness damp direction pos c j field := by
  have hsize := hface.size_pos pos
  obtain ⟨hlast, hlast'⟩ := lastSuperCell_bounds hsize hface.thickness_pos
  have hmem := fun cell j => @mem_tile_iff D m superCellSize direction pos c cell hface.direction_pos hc j
  have hnonneg : ∀ k : ℕ, 0 ≤ superCellSize pos * (k : ℤ) := fun k => mul_nonneg hsize.le (Int.natCast_nonneg k)
  induction hn : lastSuperCell superCellSize thickness pos - j generalizing j field with
  | zero =>
    obtain rfl : j = lastSuperCell superCellSize thickness pos := by omega
    have hzero : ∃ cell ∈ tile superCellSize (advance superCellSize direction pos
        (baseAt superCellSize direction pos c (lastSuperCell superCellSize thickness pos))),
        factor m superCellSize thickness direction pos cell = 0 := by
      obtain ⟨cell, hcolumn, hdepth⟩ := @exists_depth D m _ direction pos hface.size_pos c (thickness - 1)
      refine ⟨cell, ?_, (hface.factor_eq_zero_iff ?_ ?_).mpr hdepth⟩
      · rw [advance_baseAt, hmem]
        exact ⟨hcolumn, by omega, by omega⟩
      · have := hnonneg (lastSuperCell superCellSize thickness pos)
        omega
      · omega
    have hresult : dampTile m superCellSize thickness damp direction pos (advance superCellSize direction pos
        (baseAt superCellSize direction pos c (lastSuperCell superCellSize thickness pos))) field =
        damped m superCellSize thickness damp direction pos c (lastSuperCell superCellSize thickness pos) field := by
      funext cell i
      rw [advance_baseAt, hface.dampTile_eq hdamp hc]
      rfl
    constructor
    · intro h
      cases h with
      | last => exact hresult
      | next hne =>
        obtain ⟨cell, hcell, hfactor⟩ := hzero
        exact absurd hfactor (hne cell hcell)
    · rintro rfl
      rw [← hresult]
      exact .last hzero
  | succ n ih =>
    have hlt : j + 1 ≤ lastSuperCell superCellSize thickness pos := by omega
    have hstep : superCellSize pos * ((j : ℤ) + 1) ≤ superCellSize pos * lastSuperCell superCellSize thickness pos :=
      mul_le_mul_of_nonneg_left (by exact_mod_cast hlt) hsize.le
    have hlast'' : superCellSize pos * (lastSuperCell superCellSize thickness pos : ℤ) <
        superCellSize pos * (lastSuperCell superCellSize thickness pos + 1) :=
      mul_lt_mul_of_pos_left (lt_add_one _) hsize
    have hne : ∀ cell ∈ tile superCellSize (advance superCellSize direction pos
        (baseAt superCellSize direction pos c j)), factor m superCellSize thickness direction pos cell ≠ 0 := by
      intro cell hcell hfactor
      rw [advance_baseAt, hmem] at hcell
      have := hnonneg j
      have := (hface.factor_eq_zero_iff (by omega) (by omega)).mp hfactor
      omega
    have hresult : damped m superCellSize thickness damp direction pos c (j + 1)
        (dampTile m superCellSize thickness damp direction pos (advance superCellSize direction pos
          (baseAt superCellSize direction pos c j)) field) =
        damped m superCellSize thickness damp direction pos c j field := by
      funext cell i
      have hsucc : superCellSize pos * ((j + 1 : ℕ) : ℤ) = superCellSize pos * ((j : ℤ) + 1) := by push_cast; ring
      have hle : superCellSize pos * (j : ℤ) ≤ superCellSize pos * ((j : ℤ) + 1) :=
        mul_le_mul_of_nonneg_left (by omega) hsize.le
      rw [damped, damped, advance_baseAt, hface.dampTile_eq hdamp hc, hsucc]
      by_cases hcolumn : Column superCellSize pos c cell
      · simp only [hcolumn, true_and]
        split_ifs <;> first | rfl | omega
      · simp only [hcolumn, false_and, if_false]
    rw [← hresult]
    refine ⟨fun h => ?_, fun h => .next hne ?_⟩
    · cases h with
      | last hzero =>
        obtain ⟨cell, hcell, hfactor⟩ := hzero
        exact absurd hfactor (hne cell hcell)
      | next _ hrest =>
        rw [advance_baseAt] at hrest ⊢
        exact (ih hlt (by omega)).mp hrest
    · rw [advance_baseAt] at h ⊢
      exact (ih hlt (by omega)).mpr h

end Block

section Launch

variable {m : MappingDescription D} {superCellSize : DataSpace D} {thickness : ℕ} {damp : ℕ → ℚ} {exchangeType : ℕ}
  {pos : Fin D} {cell : DataSpace D} {field field' : DataSpace D → Fin 3 → ℚ} {blocks : List (DataSpace D)}

theorem Face.absorbAxis_eq {direction : DataSpace D} (hface : Face m superCellSize thickness direction pos) :
    absorbAxis direction = if pos.val < 2 then some pos else none := by
  have hiff : ∀ d, decide (d.val < 2 ∧ direction d ≠ 0) = true ↔ d = pos ∧ pos.val < 2 := fun d => by
    rw [decide_eq_true_iff]
    constructor
    · rintro ⟨hd, hne⟩
      obtain rfl : d = pos := by
        by_contra hdp
        exact hne (hface.direction_of_ne d hdp)
      exact ⟨rfl, hd⟩
    · rintro ⟨rfl, hd⟩
      exact ⟨hd, by rcases hface.direction_pos with h | h <;> omega⟩
  cases hfind : absorbAxis direction with
  | none =>
    have hnone := List.find?_eq_none.mp hfind pos (List.mem_finRange pos)
    rw [hiff pos] at hnone
    rw [if_neg fun h => hnone ⟨rfl, h⟩]
  | some d =>
    have hd := List.find?_some (p := fun pos : Fin D => decide (pos.val < 2 ∧ direction pos ≠ 0)) hfind
    obtain ⟨rfl, hlt⟩ := (hiff d).mp hd
    rw [if_pos hlt]

def superCell (m : MappingDescription D) (exchangeType : ℕ) (blockIdx : DataSpace D) : DataSpace D := fun d =>
  if getRelativeDirections D exchangeType d = 0 then blockIdx d + 1
  else if getRelativeDirections D exchangeType d = 1 then blockIdx d + (m.gridSuperCells d - 1)
  else blockIdx d

variable (hface : Face m superCellSize thickness (getRelativeDirections D exchangeType) pos)
include hface

theorem Face.getBlockIndex (blockIdx : DataSpace D) :
    (ExchangeMappingMethods.guard m exchangeType).getBlockIndex blockIdx = some (superCell m exchangeType blockIdx) := by
  simp only [ExchangeMappingMethods.guard, hface.guarding]
  rfl

theorem Face.mem_launchBox_iff {blockIdx : DataSpace D} :
    blockIdx ∈ launchBox (ExchangeMappingMethods.guard m exchangeType).getGridDim ↔
      blockIdx pos = 0 ∧ ∀ d, d ≠ pos → 0 ≤ blockIdx d ∧ blockIdx d < m.gridSuperCells d - 2 := by
  have hpos : (ExchangeMappingMethods.guard m exchangeType).getGridDim pos = 1 := by
    simp only [ExchangeMappingMethods.guard, hface.guarding]
    rw [if_pos]
    rcases hface.direction_pos with h | h <;> omega
  have hother : ∀ d, d ≠ pos →
      (ExchangeMappingMethods.guard m exchangeType).getGridDim d = m.gridSuperCells d - 2 := fun d hd => by
    simp only [ExchangeMappingMethods.guard, hface.guarding]
    rw [if_neg fun h => h (hface.direction_of_ne d hd), mul_one]
  constructor
  · intro h
    have hp := h pos
    rw [hpos] at hp
    refine ⟨by omega, fun d hd => ?_⟩
    have hd' := h d
    rwa [hother d hd] at hd'
  · rintro ⟨hp, h⟩ d
    by_cases hd : d = pos
    · subst hd
      rw [hpos]
      omega
    · rw [hother d hd]
      exact h d hd

theorem Face.superCell_pos {blockIdx : DataSpace D}
    (h : blockIdx ∈ launchBox (ExchangeMappingMethods.guard m exchangeType).getGridDim) :
    superCell m exchangeType blockIdx pos =
      if getRelativeDirections D exchangeType pos = -1 then 0 else m.gridSuperCells pos - 1 := by
  have hp := (hface.mem_launchBox_iff.mp h).1
  rw [superCell]
  rcases hface.direction_pos with hdir | hdir <;> simp [hdir, hp]

theorem Face.superCell_of_ne (blockIdx : DataSpace D) {d : Fin D} (hd : d ≠ pos) :
    superCell m exchangeType blockIdx d = blockIdx d + 1 := if_pos (hface.direction_of_ne d hd)

theorem Face.column_inj {b b' : DataSpace D}
    (hb : b ∈ launchBox (ExchangeMappingMethods.guard m exchangeType).getGridDim)
    (hb' : b' ∈ launchBox (ExchangeMappingMethods.guard m exchangeType).getGridDim)
    (h : Column superCellSize pos (superCell m exchangeType b) cell)
    (h' : Column superCellSize pos (superCell m exchangeType b') cell) : b = b' := by
  funext d
  by_cases hd : d = pos
  · subst hd
    rw [(hface.mem_launchBox_iff.mp hb).1, (hface.mem_launchBox_iff.mp hb').1]
  · have hcell := h d hd
    have hcell' := h' d hd
    rw [hface.superCell_of_ne _ hd] at hcell hcell'
    have hsize := hface.size_pos d
    have h1 : b d + 1 < b' d + 1 + 1 := lt_of_mul_lt_mul_right (hcell.1.trans_lt hcell'.2) hsize.le
    have h2 : b' d + 1 < b d + 1 + 1 := lt_of_mul_lt_mul_right (hcell'.1.trans_lt hcell.2) hsize.le
    omega

/-- The columns of all blocks are the cells between the other faces. -/
theorem Face.exists_column_iff (hblocks : (ExchangeMappingMethods.guard m exchangeType).Launches blocks) :
    (∃ b ∈ blocks, Column superCellSize pos (superCell m exchangeType b) cell) ↔
      ∀ d, d ≠ pos → superCellSize d ≤ cell d ∧ cell d < gCells m superCellSize d - superCellSize d := by
  have hgrid : ∀ d, gCells m superCellSize d - superCellSize d = (m.gridSuperCells d - 1) * superCellSize d := fun d => by
    rw [gCells, Pi.mul_apply]
    ring
  constructor
  · rintro ⟨b, hb, hcolumn⟩ d hd
    have hbox := (hface.mem_launchBox_iff.mp ((hblocks.2 b).mp hb)).2 d hd
    have hcell := hcolumn d hd
    rw [hface.superCell_of_ne _ hd] at hcell
    have hsize := hface.size_pos d
    have hlow : 1 * superCellSize d ≤ (b d + 1) * superCellSize d := mul_le_mul_of_nonneg_right (by omega) hsize.le
    have hhigh : (b d + 1 + 1) * superCellSize d ≤ (m.gridSuperCells d - 1) * superCellSize d :=
      mul_le_mul_of_nonneg_right (by omega) hsize.le
    rw [hgrid d]
    constructor <;> linarith
  · intro h
    have hdiv : ∀ d, d ≠ pos → 1 ≤ cell d / superCellSize d ∧ cell d / superCellSize d < m.gridSuperCells d - 1 :=
      fun d hd => by
        have hcell := h d hd
        rw [hgrid d] at hcell
        exact ⟨(Int.le_ediv_iff_mul_le (hface.size_pos d)).mpr (by linarith),
          Int.ediv_lt_of_lt_mul (hface.size_pos d) hcell.2⟩
    refine ⟨fun d => if d = pos then 0 else cell d / superCellSize d - 1, (hblocks.2 _).mpr
      (hface.mem_launchBox_iff.mpr ⟨if_pos rfl, fun d hd => ?_⟩), fun d hd => ?_⟩
    · have := hdiv d hd
      rw [if_neg hd]
      omega
    · rw [hface.superCell_of_ne _ hd, if_neg hd, sub_add_cancel]
      have := Int.mul_ediv_add_emod (cell d) (superCellSize d)
      have := Int.emod_lt_of_pos (cell d) (hface.size_pos d)
      have := Int.emod_nonneg (cell d) (hface.size_pos d).ne'
      constructor <;> linarith

theorem Face.mem_interior_iff : cell ∈ interior m superCellSize ↔
    (∀ d, d ≠ pos → superCellSize d ≤ cell d ∧ cell d < gCells m superCellSize d - superCellSize d) ∧
      0 ≤ depth m superCellSize (getRelativeDirections D exchangeType) pos cell ∧
      depth m superCellSize (getRelativeDirections D exchangeType) pos cell <
        gCells m superCellSize pos - 2 * superCellSize pos := by
  have hpos : (superCellSize pos ≤ cell pos ∧ cell pos < gCells m superCellSize pos - superCellSize pos) ↔
      0 ≤ depth m superCellSize (getRelativeDirections D exchangeType) pos cell ∧
      depth m superCellSize (getRelativeDirections D exchangeType) pos cell <
        gCells m superCellSize pos - 2 * superCellSize pos := by
    unfold depth
    rcases hface.direction_pos with h | h
    · rw [if_pos (by omega)]
      omega
    · rw [if_neg (by omega)]
      omega
  constructor
  · exact fun h => ⟨fun d _ => h d, hpos.mp (h pos)⟩
  · rintro ⟨h, hd⟩ d
    by_cases hdp : d = pos
    · subst hdp
      exact hpos.mpr hd
    · exact h d hdp

theorem Face.launch_iff_of_not_lt (hpos : ¬ pos.val < 2) :
    Launch m superCellSize thickness damp exchangeType blocks field field' ↔ field' = field := by
  have hblock : ∀ c field field', Block m superCellSize thickness damp (getRelativeDirections D exchangeType) c field field' ↔
      field' = field := fun c field field' => by rw [Block, hface.absorbAxis_eq, if_neg hpos]
  induction blocks generalizing field with
  | nil => exact ⟨fun h => by cases h; rfl, fun h => h ▸ .nil⟩
  | cons b blocks ih =>
    constructor
    · intro h
      cases h with
      | cons hidx hb hrest =>
        rw [(hblock _ _ _).mp hb] at hrest
        exact ih.mp hrest
    · exact fun h => .cons (hface.getBlockIndex b) ((hblock _ _ _).mpr rfl) (ih.mpr h)

theorem Face.launch_iff (hpos : pos.val < 2) (hdamp : damp 0 = 1) (hnodup : blocks.Nodup)
    (hblocks : ∀ b ∈ blocks, b ∈ launchBox (ExchangeMappingMethods.guard m exchangeType).getGridDim) :
    Launch m superCellSize thickness damp exchangeType blocks field field' ↔ ∀ cell i, field' cell i =
      if (∃ b ∈ blocks, Column superCellSize pos (superCell m exchangeType b) cell) ∧
          0 ≤ depth m superCellSize (getRelativeDirections D exchangeType) pos cell ∧
          depth m superCellSize (getRelativeDirections D exchangeType) pos cell <
            superCellSize pos * (lastSuperCell superCellSize thickness pos + 1) then
        field cell i * damp (factor m superCellSize thickness (getRelativeDirections D exchangeType) pos cell)
      else field cell i := by
  have hblock : ∀ b field field', b ∈ launchBox (ExchangeMappingMethods.guard m exchangeType).getGridDim →
      (Block m superCellSize thickness damp (getRelativeDirections D exchangeType) (superCell m exchangeType b) field field' ↔
        field' = damped m superCellSize thickness damp (getRelativeDirections D exchangeType) pos
          (superCell m exchangeType b) 0 field) := fun b field field' hb => by
    rw [Block, hface.absorbAxis_eq, if_pos hpos]
    dsimp only
    rw [← baseAt_zero, hface.walk_iff hdamp (hface.superCell_pos hb) (Nat.zero_le _)]
  induction blocks generalizing field with
  | nil =>
    constructor
    · intro h
      cases h
      simp
    · intro h
      have heq : field' = field := by
        funext cell i
        rw [h cell i, if_neg (by simp)]
      exact heq ▸ .nil
  | cons b blocks ih =>
    obtain ⟨hb, hrest⟩ := List.nodup_cons.mp hnodup
    have hbox := hblocks b (List.mem_cons_self ..)
    have hstep : Launch m superCellSize thickness damp exchangeType (b :: blocks) field field' ↔
        Launch m superCellSize thickness damp exchangeType blocks (damped m superCellSize thickness damp
          (getRelativeDirections D exchangeType) pos (superCell m exchangeType b) 0 field) field' := by
      constructor
      · intro h
        cases h with
        | cons hidx hwalk hlaunch =>
          obtain rfl := Option.some_inj.mp ((hface.getBlockIndex b).symm.trans hidx)
          rwa [(hblock b _ _ hbox).mp hwalk] at hlaunch
      · exact fun h => .cons (hface.getBlockIndex b) ((hblock b _ _ hbox).mpr rfl) h
    refine hstep.trans ((ih hrest fun b hb => hblocks b (List.mem_cons_of_mem _ hb)).trans ?_)
    refine forall₂_congr fun cell i => ?_
    have hcast : superCellSize pos * ((0 : ℕ) : ℤ) = 0 := by rw [Nat.cast_zero, mul_zero]
    rw [damped, hcast]
    by_cases hcolumn : Column superCellSize pos (superCell m exchangeType b) cell
    · have hother : ¬ ∃ b' ∈ blocks, Column superCellSize pos (superCell m exchangeType b') cell := by
        rintro ⟨b', hb', hcolumn'⟩
        exact hb (hface.column_inj hbox (hblocks b' (List.mem_cons_of_mem _ hb')) hcolumn hcolumn' ▸ hb')
      have hsome : ∃ b' ∈ b :: blocks, Column superCellSize pos (superCell m exchangeType b') cell :=
        ⟨b, List.mem_cons_self .., hcolumn⟩
      simp only [hother, hsome, hcolumn, false_and, true_and, if_false]
    · have hsome : (∃ b' ∈ b :: blocks, Column superCellSize pos (superCell m exchangeType b') cell) ↔
          ∃ b' ∈ blocks, Column superCellSize pos (superCell m exchangeType b') cell := by
        simp [hcolumn]
      simp only [hsome, hcolumn, false_and, if_false]

/-- A launch damps the cells up to the end of the supercell in which the absorber ends. -/
theorem Face.launch_spec (hpos : pos.val < 2) (hdamp : damp 0 = 1)
    (hblocks : (ExchangeMappingMethods.guard m exchangeType).Launches blocks) :
    Launch m superCellSize thickness damp exchangeType blocks field field' ↔ ∀ cell i, field' cell i =
      if cell ∈ interior m superCellSize ∧
          depth m superCellSize (getRelativeDirections D exchangeType) pos cell <
            superCellSize pos * (lastSuperCell superCellSize thickness pos + 1) then
        field cell i * damp (u32 (thickness - 1 - depth m superCellSize (getRelativeDirections D exchangeType) pos cell))
      else field cell i := by
  have hle := hface.lastSuperCell_le
  rw [hface.launch_iff hpos hdamp hblocks.1 fun b hb => (hblocks.2 b).mp hb]
  refine forall₂_congr fun cell i => ?_
  rw [factor_eq hface.direction_pos]
  refine iff_of_eq (congrArg (field' cell i = ·) (if_congr ?_ rfl rfl))
  rw [hface.exists_column_iff hblocks, hface.mem_interior_iff, and_assoc]
  refine and_congr_right fun _ => ?_
  omega

theorem Face.exists_interior {k : ℤ} (h0 : 0 ≤ k) (h1 : k < gCells m superCellSize pos - 2 * superCellSize pos) :
    ∃ cell ∈ interior m superCellSize,
      depth m superCellSize (getRelativeDirections D exchangeType) pos cell = k := by
  obtain ⟨cell, hcolumn, hdepth⟩ := @exists_depth D m superCellSize (getRelativeDirections D exchangeType) pos
    hface.size_pos (fun _ => 1) k
  refine ⟨cell, hface.mem_interior_iff.mpr ⟨fun d hd => ?_, by omega, by omega⟩, hdepth⟩
  have hcell := hcolumn d hd
  have hgrid : 3 * superCellSize d ≤ gCells m superCellSize d :=
    mul_le_mul_of_nonneg_right (hface.grid d) (hface.size_pos d).le
  constructor <;> linarith

/-- On the other axes an absorber of whole supercells is right. -/
theorem Face.absorbs_of_dvd (hpos : pos.val < 2) (hdvd : superCellSize pos ∣ thickness) :
    Absorbs m superCellSize thickness pos exchangeType := by
  intro damp hdamp field blocks hblocks
  have hspec := fun field' => @Face.launch_spec D m superCellSize thickness damp exchangeType pos field field' blocks
    hface hpos hdamp hblocks
  refine ⟨⟨_, (hspec _).mpr fun _ _ => rfl⟩, fun field' hlaunch cell i => ?_⟩
  have hend : superCellSize pos * (lastSuperCell superCellSize thickness pos + 1 : ℤ) = thickness := by
    obtain ⟨k, hk⟩ := hdvd
    have hsize := hface.size_pos pos
    obtain ⟨h1, h2⟩ := lastSuperCell_bounds hsize hface.thickness_pos
    rw [hk] at h1 h2 ⊢
    have hlt : (lastSuperCell superCellSize thickness pos : ℤ) < k := lt_of_mul_lt_mul_left (by omega) hsize.le
    have hle : k - 1 < (lastSuperCell superCellSize thickness pos : ℤ) + 1 := by
      refine lt_of_mul_lt_mul_left ?_ hsize.le
      have : superCellSize pos * (k - 1) = superCellSize pos * k - superCellSize pos := by ring
      omega
    congr 1
    omega
  rw [(hspec field').mp hlaunch cell i, hend]
  by_cases hcell : cell ∈ interior m superCellSize ∧
      depth m superCellSize (getRelativeDirections D exchangeType) pos cell < thickness
  · obtain ⟨-, h0, -⟩ := hface.mem_interior_iff.mp hcell.1
    have hcells := hface.cells
    have hsize := hface.size_pos pos
    have hle := hface.thickness_le
    rw [if_pos hcell, if_pos hcell, u32, Int.emod_eq_of_lt (by omega) (by omega)]
  · rw [if_neg hcell, if_neg hcell]

/-- Behind an absorber that ends within a supercell the cells of this supercell are damped too. -/
theorem Face.not_absorbs_of_not_dvd (hpos : pos.val < 2) (hdvd : ¬ superCellSize pos ∣ thickness) :
    ¬ Absorbs m superCellSize thickness pos exchangeType := by
  intro habsorbs
  obtain ⟨blocks, hblocks⟩ := (ExchangeMappingMethods.guard m exchangeType).exists_launches
  obtain ⟨⟨field', hlaunch⟩, hresult⟩ := habsorbs (fun k : ℕ => if k = 0 then (1 : ℚ) else 2) (if_pos rfl) (fun _ _ => 1)
    blocks hblocks
  obtain ⟨h1, h2⟩ := lastSuperCell_bounds (hface.size_pos pos) hface.thickness_pos
  have hlt : (thickness : ℤ) < superCellSize pos * (lastSuperCell superCellSize thickness pos + 1) := by
    refine lt_of_le_of_ne (by omega) fun heq => hdvd ⟨_, heq⟩
  have hle := hface.lastSuperCell_le
  obtain ⟨cell, hcell, hdepth⟩ := @Face.exists_interior D m superCellSize thickness exchangeType pos hface thickness
    (by omega) (by omega)
  have hvalue := (hface.launch_spec hpos (if_pos rfl) hblocks).mp hlaunch cell 0
  rw [hresult field' hlaunch cell 0, hdepth, if_neg fun h => lt_irrefl _ h.2, if_pos ⟨hcell, hlt⟩] at hvalue
  have hne : u32 ((thickness : ℤ) - 1 - thickness) ≠ 0 := by
    rw [u32]
    omega
  rw [if_neg hne] at hvalue
  norm_num at hvalue

/-- For the third axis only an absorber of one layer, which damps nothing, is right. -/
theorem Face.absorbs_iff_of_not_lt (hpos : ¬ pos.val < 2) :
    Absorbs m superCellSize thickness pos exchangeType ↔ thickness = 1 := by
  have hthickness := hface.thickness_pos
  constructor
  · intro habsorbs
    by_contra hne
    obtain ⟨blocks, hblocks⟩ := (ExchangeMappingMethods.guard m exchangeType).exists_launches
    obtain ⟨-, hresult⟩ := habsorbs (fun k : ℕ => if k = 0 then (1 : ℚ) else 2) (if_pos rfl) (fun _ _ => 1) blocks hblocks
    have hle := hface.thickness_le
    obtain ⟨cell, hcell, hdepth⟩ := @Face.exists_interior D m superCellSize thickness exchangeType pos hface 0 le_rfl
      (by omega)
    have hvalue := hresult _ ((hface.launch_iff_of_not_lt hpos).mpr rfl) cell 0
    rw [hdepth, if_pos ⟨hcell, by omega⟩, if_neg (by omega)] at hvalue
    norm_num at hvalue
  · rintro rfl damp hdamp field blocks hblocks
    refine ⟨⟨field, (hface.launch_iff_of_not_lt hpos).mpr rfl⟩, fun field' hlaunch cell i => ?_⟩
    rw [(hface.launch_iff_of_not_lt hpos).mp hlaunch]
    split_ifs with hcell
    · obtain ⟨-, h0, -⟩ := hface.mem_interior_iff.mp hcell.1
      have hzero : ((1 : ℕ) - 1 - depth m superCellSize (getRelativeDirections D exchangeType) pos cell : ℤ).toNat = 0 := by
        omega
      rw [hzero, hdamp, mul_one]
    · rfl

/-- A launch does what the absorber is for exactly if the face is normal to x or y and the absorber consists of whole
supercells, or if it has nothing to damp. -/
theorem absorbs_iff : Absorbs m superCellSize thickness pos exchangeType ↔
    (pos.val < 2 ∧ superCellSize pos ∣ thickness) ∨ (2 ≤ pos.val ∧ thickness = 1) := by
  by_cases hpos : pos.val < 2
  · exact ⟨fun h => .inl ⟨hpos, by_contra fun hdvd => hface.not_absorbs_of_not_dvd hpos hdvd h⟩, fun h =>
      h.elim (fun h => hface.absorbs_of_dvd hpos h.2) fun h => absurd hpos (not_lt.mpr h.1)⟩
  · rw [hface.absorbs_iff_of_not_lt hpos]
    omega

end Launch

/-- Supercells of two by two cells: an absorber of two layers at the left face. -/
theorem absorbs_left : Absorbs (⟨![5, 5], 1, 1⟩ : MappingDescription 2) ![2, 2] 2 0 2 :=
  (absorbs_iff ⟨rfl, by decide, by decide, by decide, by decide, by decide, by decide, by decide⟩).mpr
    (.inl ⟨by decide, by decide⟩)

/-- An absorber of one layer there. -/
theorem not_absorbs_left : ¬ Absorbs (⟨![5, 5], 1, 1⟩ : MappingDescription 2) ![2, 2] 1 0 2 :=
  Face.not_absorbs_of_not_dvd
    ⟨rfl, by decide, by decide, by decide, by decide, by decide, by decide, by decide⟩ (by decide) (by decide)

end PIConGPU.AbsorbBorder
