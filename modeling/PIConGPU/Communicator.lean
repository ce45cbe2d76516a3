import PIConGPU.Mask
import PIConGPU.RowMajor

/-!
# The process grid and its rotation by the moving window

Every rank keeps an offset in y that is decremented at each slide. Its own coordinates are
the Cartesian ones rotated by this offset, and the coordinates of a neighbour are rotated
back before the Cartesian topology is asked for the neighbour's rank.
-/
namespace PIConGPU

open RowMajor

/-- Extents and periodicity of the process grid, fixed when the topology is created. -/
structure ProcessGrid (D : ℕ) where
  dims : Fin D → ℕ
  periodic : Fin D → Bool
  dims_pos : ∀ j, 0 < dims j

namespace ProcessGrid

def size {D : ℕ} (g : ProcessGrid D) : ℕ := ∏ j, g.dims j

/-- `MPI_Cart_coords` of a topology created without reordering. -/
def cartCoords {D : ℕ} (g : ProcessGrid D) (rank : ℕ) : DataSpace D :=
  fun j => rowMajorCoords g.dims rank j

/-- `MPI_Cart_rank`: periodic coordinates are wrapped, other coordinates have to be in range. -/
def cartRank {D : ℕ} (g : ProcessGrid D) (coords : DataSpace D) : Option ℕ :=
  if ∀ j, g.periodic j = true ∨ (0 ≤ coords j ∧ coords j < g.dims j) then
    some (rowMajor g.dims fun j => (coords j % g.dims j).toNat)
  else none

def Inside {D : ℕ} (g : ProcessGrid D) (c : DataSpace D) : Prop :=
  ∀ j, 0 ≤ c j ∧ c j < g.dims j

/-- A position reached across periodic boundaries only. -/
def InsideOrPeriodic {D : ℕ} (g : ProcessGrid D) (c : DataSpace D) : Prop :=
  ∀ j, (0 ≤ c j ∧ c j < g.dims j) ∨ g.periodic j = true

instance {D : ℕ} (g : ProcessGrid D) (c : DataSpace D) : Decidable (g.InsideOrPeriodic c) :=
  inferInstanceAs (Decidable (∀ _, _))

def wrap {D : ℕ} (g : ProcessGrid D) (c : DataSpace D) : DataSpace D :=
  fun j => c j % g.dims j

end ProcessGrid

/-- The loop `while (x < 0) x += n`. -/
def addWhileNegative (n : ℕ) (hn : 0 < n) (x : ℤ) : ℤ :=
  if x < 0 then addWhileNegative n hn (x + n) else x
termination_by (-x).toNat
decreasing_by omega

/-- The part of `CommunicatorMPI` that a slide changes. -/
structure Communicator (D : ℕ) where
  yoffset : ℤ
  coordinates : DataSpace D
  ranks : ℕ → ℤ
  communicationMask : Mask

namespace Communicator

variable {d : ℕ}

def rotatedCoords (g : ProcessGrid (d + 2)) (rank : ℕ) (yoffset : ℤ) : DataSpace (d + 2) :=
  let coords := g.cartCoords rank
  let y := if 1 < g.dims 1 then (coords 1 + yoffset).tmod (g.dims 1) else coords 1
  Function.update coords 1 (addWhileNegative (g.dims 1) (g.dims_pos 1) y)

/-- What the mask of one direction adds to the coordinate of axis `j`. -/
def axisStep (m : Mask) (j : ℕ) : ℤ :=
  if j = 0 then
    (if m.containsExchangeType LEFT then -1 else 0) + (if m.containsExchangeType RIGHT then 1 else 0)
  else if j = 1 then
    (if m.containsExchangeType TOP then -1 else 0) + (if m.containsExchangeType BOTTOM then 1 else 0)
  else if j = 2 then
    (if m.containsExchangeType BACK then 1 else 0) + (if m.containsExchangeType FRONT then -1 else 0)
  else 0

def neighborCoords {D : ℕ} (coords : DataSpace D) (i : ℕ) : DataSpace D :=
  fun j => coords j + axisStep (Mask.ofExchange i) j

/-- Rank in direction `i`; the inner `none` means that there is no neighbour, the outer
`none` that the topology rejects the coordinates. -/
def exchangeRank (g : ProcessGrid (d + 2)) (coords : DataSpace (d + 2)) (yoffset : ℤ) (i : ℕ) :
    Option (Option ℕ) :=
  let mcoords := neighborCoords coords i
  if g.InsideOrPeriodic mcoords then
    let mcoords := if 1 < g.dims 1 then
      Function.update mcoords 1 ((mcoords 1 - yoffset).tmod (g.dims 1)) else mcoords
    (g.cartRank mcoords).map some
  else some none

def exchangeStep (g : ProcessGrid (d + 2)) (coords : DataSpace (d + 2)) (yoffset : ℤ)
    (st : (ℕ → ℤ) × Mask) (i : ℕ) : Option ((ℕ → ℤ) × Mask) :=
  (exchangeRank g coords yoffset i).map fun
    | some r => (Function.update st.1 i r, st.2.add (Mask.ofExchange i))
    | none => (Function.update st.1 i (-1), st.2)

/-- Upper end of the direction loop as the source computes it from the dimension. -/
def exchangeEnd (D : ℕ) : ℕ := (-12 * (D : ℤ) + 6 * D * D + 9).toNat

def updateCoordinates (g : ProcessGrid (d + 2)) (rank : ℕ) (yoffset : ℤ) :
    Option (Communicator (d + 2)) :=
  let coords := rotatedCoords g rank yoffset
  ((List.range' 1 (exchangeEnd (d + 2) - 1)).foldlM (exchangeStep g coords yoffset)
    (fun _ => -1, Mask.empty)).map fun st => ⟨yoffset, coords, st.1, st.2⟩

def init (g : ProcessGrid (d + 2)) (rank : ℕ) : Option (Communicator (d + 2)) :=
  updateCoordinates g rank 0

/-- One slide; the flag says whether this rank moved to the end of the grid. -/
def slide (g : ProcessGrid (d + 2)) (rank : ℕ) (comm : Communicator (d + 2)) :
    Option (Communicator (d + 2) × Bool) :=
  let yoffset := if comm.yoffset - 1 = -g.dims 1 then 0 else comm.yoffset - 1
  (updateCoordinates g rank yoffset).map fun c => (c, c.coordinates 1 = g.dims 1 - 1)

/-- `setStateAfterSlides`, with the flag of the last slide. -/
def setStateAfterSlides (g : ProcessGrid (d + 2)) (rank numSlides : ℕ)
    (comm : Communicator (d + 2)) : Option (Communicator (d + 2) × Bool) :=
  (List.range (numSlides % g.dims 1)).foldlM (fun st _ => slide g rank st.1) (comm, false)

def afterSlides (g : ProcessGrid (d + 2)) (rank : ℕ) : ℕ → Option (Communicator (d + 2))
  | 0 => init g rank
  | k + 1 => (afterSlides g rank k).bind fun comm => (slide g rank comm).map Prod.fst

end Communicator

theorem addWhileNegative_eq {n : ℕ} (hn : 0 < n) {x : ℤ} (hx : -(n : ℤ) < x) (hx' : x < n) :
    addWhileNegative n hn x = x % n := by
  rw [addWhileNegative]
  split_ifs with h
  · rw [addWhileNegative, if_neg (by omega), ← Int.add_emod_right, Int.emod_eq_of_lt] <;> omega
  · rw [Int.emod_eq_of_lt] <;> omega

theorem tmod_emod (x : ℤ) (n : ℕ) : x.tmod n % n = x % n := by
  have h := Int.mul_tdiv_add_tmod x n
  conv_rhs => rw [← h]
  rw [Int.add_comm, Int.add_mul_emod_self_left]

theorem neg_lt_tmod (x : ℤ) {n : ℕ} (hn : 0 < n) : -(n : ℤ) < x.tmod n := by
  have := Int.lt_tmod_of_pos x (b := n) (by omega)
  omega

namespace Communicator

variable {d : ℕ} {g : ProcessGrid (d + 2)}

theorem cartCoords_inside (g : ProcessGrid (d + 2)) {rank : ℕ} (hr : rank < g.size) :
    g.Inside (g.cartCoords rank) := by
  intro j
  have := rowMajorCoords_lt g.dims rank hr j
  simp only [ProcessGrid.cartCoords]
  omega

/-- The rotated y coordinate is the sum modulo the number of processes, for one process too. -/
theorem rotatedCoords_one (g : ProcessGrid (d + 2)) {rank : ℕ} (hr : rank < g.size) (yoffset : ℤ) :
    rotatedCoords g rank yoffset 1 = (g.cartCoords rank 1 + yoffset) % g.dims 1 := by
  have hin := cartCoords_inside g hr 1
  have hpos := g.dims_pos 1
  simp only [rotatedCoords, Function.update_self]
  split_ifs with h
  · rw [addWhileNegative_eq hpos (neg_lt_tmod _ hpos) (Int.tmod_lt_of_pos _ (by omega)), tmod_emod]
  · have h1 : (g.dims 1 : ℤ) = 1 := by omega
    rw [addWhileNegative_eq hpos (by omega) hin.2, h1]
    simp

theorem rotatedCoords_of_ne (g : ProcessGrid (d + 2)) (rank : ℕ) (yoffset : ℤ) {j : Fin (d + 2)}
    (hj : j ≠ 1) : rotatedCoords g rank yoffset j = g.cartCoords rank j := by
  simp [rotatedCoords, Function.update_of_ne hj]

theorem rotatedCoords_inside {rank : ℕ} (hr : rank < g.size) (yoffset : ℤ) :
    g.Inside (rotatedCoords g rank yoffset) := by
  intro j
  have hpos := g.dims_pos 1
  by_cases hj : j = 1
  · subst hj
    rw [rotatedCoords_one g hr]
    exact ⟨Int.emod_nonneg _ (by omega), Int.emod_lt_of_pos _ (by omega)⟩
  · rw [rotatedCoords_of_ne g rank yoffset hj]
    exact cartCoords_inside g hr j

/-- Position in the unrotated topology of a position of the rotated grid. -/
def unrotate (g : ProcessGrid (d + 2)) (yoffset : ℤ) (c : DataSpace (d + 2)) (j : Fin (d + 2)) : ℕ :=
  ((if j = 1 then c j - yoffset else c j) % g.dims j).toNat

theorem unrotate_lt (g : ProcessGrid (d + 2)) (yoffset : ℤ) (c : DataSpace (d + 2)) (j : Fin (d + 2)) :
    unrotate g yoffset c j < g.dims j := by
  have hpos := g.dims_pos j
  have h0 := Int.emod_nonneg (if j = 1 then c j - yoffset else c j)
    (show (g.dims j : ℤ) ≠ 0 by omega)
  have h1 := Int.emod_lt_of_pos (if j = 1 then c j - yoffset else c j)
    (show (0 : ℤ) < g.dims j by omega)
  simp only [unrotate]
  omega

def rankAt (g : ProcessGrid (d + 2)) (yoffset : ℤ) (c : DataSpace (d + 2)) : ℕ :=
  rowMajor g.dims (unrotate g yoffset c)

theorem rankAt_lt (g : ProcessGrid (d + 2)) (yoffset : ℤ) (c : DataSpace (d + 2)) :
    rankAt g yoffset c < g.size :=
  rowMajor_lt _ _ (unrotate_lt g yoffset c)

theorem cartCoords_rankAt (g : ProcessGrid (d + 2)) (yoffset : ℤ) (c : DataSpace (d + 2))
    (j : Fin (d + 2)) :
    g.cartCoords (rankAt g yoffset c) j = (if j = 1 then c j - yoffset else c j) % g.dims j := by
  have hpos := g.dims_pos j
  have h0 := Int.emod_nonneg (if j = 1 then c j - yoffset else c j)
    (show (g.dims j : ℤ) ≠ 0 by omega)
  rw [ProcessGrid.cartCoords, rankAt, rowMajorCoords_rowMajor _ _ (unrotate_lt g yoffset c), unrotate]
  omega

/-- `rankAt` finds the rank with the wrapped coordinates. -/
theorem rotatedCoords_rankAt (g : ProcessGrid (d + 2)) (yoffset : ℤ) (c : DataSpace (d + 2)) :
    rotatedCoords g (rankAt g yoffset c) yoffset = g.wrap c := by
  funext j
  by_cases hj : j = 1
  · subst hj
    rw [rotatedCoords_one g (rankAt_lt g yoffset c), cartCoords_rankAt, if_pos rfl,
      Int.emod_add_emod, sub_add_cancel]
    rfl
  · rw [rotatedCoords_of_ne g _ _ hj, cartCoords_rankAt, if_neg hj]
    rfl

theorem rankAt_rotatedCoords {rank : ℕ} (hr : rank < g.size) (yoffset : ℤ) {c : DataSpace (d + 2)}
    (hc : g.wrap c = rotatedCoords g rank yoffset) : rankAt g yoffset c = rank := by
  have hu : unrotate g yoffset c = rowMajorCoords g.dims rank := by
    funext j
    have hin := cartCoords_inside g hr j
    have hw : c j % g.dims j = rotatedCoords g rank yoffset j := congrFun hc j
    have he : (if j = 1 then c j - yoffset else c j) % g.dims j = g.cartCoords rank j := by
      by_cases hj : j = 1
      · subst hj
        rw [rotatedCoords_one g hr] at hw
        rw [if_pos rfl, ← Int.emod_sub_emod, hw, Int.emod_sub_emod, add_sub_cancel_right,
          Int.emod_eq_of_lt hin.1 hin.2]
      · rw [rotatedCoords_of_ne g rank yoffset hj] at hw
        rw [if_neg hj, hw]
    rw [unrotate, he]
    simp [ProcessGrid.cartCoords]
  rw [rankAt, hu]
  exact rowMajor_rowMajorCoords g.dims rank hr

/-- The mask tests of `updateCoordinates` add up to the relative direction. -/
theorem axisStep_eq {i : ℕ} (hi : 1 ≤ i) (hi' : i < 27) {j : ℕ} (hj : j < 3) :
    axisStep (Mask.ofExchange i) j = digitOffset (i / 3^j % 3) := by
  have hdigit : ∀ e, e < 3 → ((if e = 2 then (-1 : ℤ) else 0) + if e = 1 then 1 else 0) = digitOffset e := by
    intro e he
    interval_cases e <;> rfl
  interval_cases j
  · rw [axisStep, if_pos rfl, Mask.contains_left hi hi', Mask.contains_right hi hi']
    simpa using hdigit (i % 3) (Nat.mod_lt _ (by omega))
  · rw [axisStep, if_neg (by omega), if_pos rfl, Mask.contains_top hi hi',
      Mask.contains_bottom hi hi']
    simpa using hdigit (i / 3 % 3) (Nat.mod_lt _ (by omega))
  · rw [axisStep, if_neg (by omega), if_neg (by omega), if_pos rfl, Mask.contains_back hi hi',
      Mask.contains_front hi hi', add_comm]
    simpa using hdigit (i / 9 % 3) (Nat.mod_lt _ (by omega))

theorem neighborCoords_eq (hd : d ≤ 1) {i : ℕ} (hi : 1 ≤ i) (hi' : i < 27) (c : DataSpace (d + 2)) :
    neighborCoords c i = c + getRelativeDirections (d + 2) i := by
  funext j
  rw [neighborCoords, axisStep_eq hi hi' (by omega)]
  rfl

/-- Every query to the topology is legal and finds the rank at the wrapped position. -/
theorem exchangeRank_eq {yoffset : ℤ} (hy : yoffset ≤ 0) {c : DataSpace (d + 2)} {i : ℕ} :
    exchangeRank g c yoffset i =
      some (if g.InsideOrPeriodic (neighborCoords c i) then
        some (rankAt g yoffset (neighborCoords c i)) else none) := by
  simp only [exchangeRank]
  split_ifs with hin hdim
  · have hlegal : ∀ j, g.periodic j = true ∨
        (0 ≤ Function.update (neighborCoords c i) 1
          ((neighborCoords c i 1 - yoffset).tmod (g.dims 1)) j ∧
        Function.update (neighborCoords c i) 1
          ((neighborCoords c i 1 - yoffset).tmod (g.dims 1)) j < g.dims j) := by
      intro j
      rcases hin j with h | h
      · right
        by_cases hj : j = 1
        · subst hj
          rw [Function.update_self, Int.tmod_eq_emod_of_nonneg (by omega)]
          exact ⟨Int.emod_nonneg _ (by omega), Int.emod_lt_of_pos _ (by omega)⟩
        · rwa [Function.update_of_ne hj]
      · exact .inl h
    rw [ProcessGrid.cartRank, if_pos hlegal, rankAt]
    simp only [Option.map_some]
    congr 3
    funext j
    by_cases hj : j = 1
    · subst hj
      rw [Function.update_self, unrotate, if_pos rfl, tmod_emod]
    · rw [Function.update_of_ne hj, unrotate, if_neg hj]
  · have h1 : g.dims 1 = 1 := by have := g.dims_pos 1; omega
    rw [ProcessGrid.cartRank, if_pos (fun j => (hin j).symm), rankAt]
    simp only [Option.map_some]
    congr 3
    funext j
    by_cases hj : j = 1
    · subst hj
      simp [unrotate, h1]
    · rw [unrotate, if_neg hj]
  · rfl

theorem foldlM_exchangeStep {yoffset : ℤ} (hy : yoffset ≤ 0) (c : DataSpace (d + 2)) (l : List ℕ)
    (st : (ℕ → ℤ) × Mask) :
    ∃ st', l.foldlM (exchangeStep g c yoffset) st = some st' ∧ ∀ k,
      st'.1 k = (if k ∈ l then
        (if g.InsideOrPeriodic (neighborCoords c k) then
          (rankAt g yoffset (neighborCoords c k) : ℤ) else -1) else st.1 k) ∧
      (st'.2.isSet k = true ↔
        st.2.isSet k = true ∨ (k ∈ l ∧ g.InsideOrPeriodic (neighborCoords c k))) := by
  induction l generalizing st with
  | nil => exact ⟨st, rfl, by simp⟩
  | cons i l ih =>
    rw [List.foldlM_cons, exchangeStep, exchangeRank_eq hy]
    by_cases hin : g.InsideOrPeriodic (neighborCoords c i)
    · simp only [if_pos hin, Option.map_some, Option.bind_eq_bind, Option.bind_some]
      obtain ⟨st', hst', hspec⟩ := ih (Function.update st.1 i (rankAt g yoffset (neighborCoords c i)),
        st.2.add (Mask.ofExchange i))
      refine ⟨st', hst', fun k => ?_⟩
      obtain ⟨h1, h2⟩ := hspec k
      rw [h1, h2]
      by_cases hk : k = i
      · subst hk
        simp [hin]
      · simp [hk, Ne.symm hk]
    · simp only [if_neg hin, Option.map_some, Option.bind_eq_bind, Option.bind_some]
      obtain ⟨st', hst', hspec⟩ := ih (Function.update st.1 i (-1), st.2)
      refine ⟨st', hst', fun k => ?_⟩
      obtain ⟨h1, h2⟩ := hspec k
      rw [h1, h2]
      by_cases hk : k = i
      · subst hk
        simp [hin]
      · simp [hk]

theorem exchangeEnd_eq (hd : d ≤ 1) : exchangeEnd (d + 2) = numberOfExchanges (d + 2) := by
  interval_cases d <;> rfl

theorem numberOfExchanges_le (hd : d ≤ 1) : numberOfExchanges (d + 2) ≤ 27 := by
  interval_cases d <;> simp [numberOfExchanges]

/-- What `updateCoordinates` establishes on one rank. -/
structure Updated (g : ProcessGrid (d + 2)) (rank : ℕ) (yoffset : ℤ) (comm : Communicator (d + 2)) :
    Prop where
  yoffset_eq : comm.yoffset = yoffset
  coordinates_eq : comm.coordinates = rotatedCoords g rank yoffset
  isSet_iff : ∀ i, 1 ≤ i → i < numberOfExchanges (d + 2) → (comm.communicationMask.isSet i = true ↔
    g.InsideOrPeriodic (comm.coordinates + getRelativeDirections (d + 2) i))
  ranks_eq : ∀ i, 1 ≤ i → i < numberOfExchanges (d + 2) → comm.communicationMask.isSet i = true →
    comm.ranks i = rankAt g yoffset (comm.coordinates + getRelativeDirections (d + 2) i)

theorem updateCoordinates_spec (hd : d ≤ 1) (g : ProcessGrid (d + 2)) (rank : ℕ) {yoffset : ℤ}
    (hy : yoffset ≤ 0) :
    ∃ comm, updateCoordinates g rank yoffset = some comm ∧ Updated g rank yoffset comm := by
  obtain ⟨st, hst, hspec⟩ := foldlM_exchangeStep (g := g) hy (rotatedCoords g rank yoffset)
    (List.range' 1 (exchangeEnd (d + 2) - 1)) (fun _ => -1, Mask.empty)
  have hmem : ∀ i, 1 ≤ i → i < numberOfExchanges (d + 2) →
      i ∈ List.range' 1 (exchangeEnd (d + 2) - 1) := by
    intro i hi hi'
    rw [List.mem_range'_1, exchangeEnd_eq hd]
    omega
  have hmask : ∀ i, 1 ≤ i → i < numberOfExchanges (d + 2) → (st.2.isSet i = true ↔
      g.InsideOrPeriodic (rotatedCoords g rank yoffset + getRelativeDirections (d + 2) i)) := by
    intro i hi hi'
    have h27 := numberOfExchanges_le hd
    rw [(hspec i).2, ← neighborCoords_eq hd hi (by omega)]
    simp [hmem i hi hi']
  refine ⟨⟨yoffset, rotatedCoords g rank yoffset, st.1, st.2⟩, ?_, rfl, rfl, hmask, ?_⟩
  · rw [updateCoordinates, hst]
    rfl
  · intro i hi hi' hset
    have h27 := numberOfExchanges_le hd
    have hin := (hmask i hi hi').mp hset
    have hrank := (hspec i).1
    rw [if_pos (hmem i hi hi'), neighborCoords_eq hd hi (by omega), if_pos hin] at hrank
    exact hrank

def slideOffset (g : ProcessGrid (d + 2)) (k : ℕ) : ℤ := -((k % g.dims 1 : ℕ) : ℤ)

theorem slideOffset_nonpos (g : ProcessGrid (d + 2)) (k : ℕ) : slideOffset g k ≤ 0 := by
  simp only [slideOffset]
  omega

theorem slideOffset_succ (g : ProcessGrid (d + 2)) (k : ℕ) :
    slideOffset g (k + 1) =
      if slideOffset g k - 1 = -g.dims 1 then 0 else slideOffset g k - 1 := by
  have hpos := g.dims_pos 1
  have hlt := Nat.mod_lt k hpos
  have hk : (k + 1) % g.dims 1 = if k % g.dims 1 + 1 = g.dims 1 then 0 else k % g.dims 1 + 1 := by
    rw [← Nat.mod_add_mod]
    split_ifs with h
    · rw [h, Nat.mod_self]
    · exact Nat.mod_eq_of_lt (by omega)
  unfold slideOffset
  rw [hk]
  split_ifs <;> omega

/-- The state after `k` slides is the state of one update with the offset `k` modulo the extent. -/
theorem afterSlides_eq (hd : d ≤ 1) (g : ProcessGrid (d + 2)) (rank k : ℕ) :
    afterSlides g rank k = updateCoordinates g rank (slideOffset g k) := by
  induction k with
  | zero => simp [afterSlides, init, slideOffset]
  | succ k ih =>
    obtain ⟨comm, hcomm, hu⟩ := updateCoordinates_spec hd g rank (slideOffset_nonpos g k)
    rw [afterSlides, ih, hcomm, Option.bind_some, slide, hu.yoffset_eq, ← slideOffset_succ]
    cases updateCoordinates g rank (slideOffset g (k + 1)) <;> rfl

theorem afterSlides_spec (hd : d ≤ 1) (g : ProcessGrid (d + 2)) (rank k : ℕ) :
    ∃ comm, afterSlides g rank k = some comm ∧ Updated g rank (slideOffset g k) comm := by
  rw [afterSlides_eq hd]
  exact updateCoordinates_spec hd g rank (slideOffset_nonpos g k)

/-- A slide from the state after `k` slides leads to the state after `k + 1`. -/
theorem slide_afterSlides (hd : d ≤ 1) {rank k : ℕ} {comm : Communicator (d + 2)}
    (h : afterSlides g rank k = some comm) :
    ∃ comm', slide g rank comm = some (comm', decide (comm'.coordinates 1 = (g.dims 1 : ℤ) - 1)) ∧
      afterSlides g rank (k + 1) = some comm' := by
  obtain ⟨comm', hcomm', -⟩ := afterSlides_spec hd g rank (k + 1)
  refine ⟨comm', ?_, hcomm'⟩
  rw [afterSlides, h, Option.bind_some] at hcomm'
  unfold slide at hcomm' ⊢
  cases hu : updateCoordinates g rank (if comm.yoffset - 1 = -g.dims 1 then 0 else comm.yoffset - 1) with
  | none => simp [hu] at hcomm'
  | some c =>
    simp only [hu, Option.map_some, Option.some.injEq] at hcomm'
    simp [hu, hcomm']

theorem foldlM_slide (hd : d ≤ 1) {rank : ℕ} (l : List ℕ) {k : ℕ} {comm : Communicator (d + 2)}
    (flag : Bool) (h : afterSlides g rank k = some comm) :
    ∃ st, l.foldlM (fun st _ => slide g rank st.1) (comm, flag) = some st ∧
      afterSlides g rank (k + l.length) = some st.1 := by
  induction l generalizing k comm flag with
  | nil => exact ⟨(comm, flag), rfl, h⟩
  | cons i l ih =>
    obtain ⟨comm', hslide, hafter⟩ := slide_afterSlides hd h
    obtain ⟨st, hst, hst'⟩ := ih (decide (comm'.coordinates 1 = (g.dims 1 : ℤ) - 1)) hafter
    refine ⟨st, ?_, ?_⟩
    · rw [List.foldlM_cons, hslide]
      exact hst
    · rw [List.length_cons, ← hst']
      congr 1
      omega

/-- Restoring a number of slides at once gives the state after that many slides. -/
theorem setStateAfterSlides_init (hd : d ≤ 1) {rank : ℕ} (numSlides : ℕ) {comm : Communicator (d + 2)}
    (h : init g rank = some comm) :
    ∃ st, setStateAfterSlides g rank numSlides comm = some st ∧
      afterSlides g rank numSlides = some st.1 := by
  obtain ⟨st, hst, hafter⟩ := foldlM_slide (g := g) (k := 0) hd
    (List.range (numSlides % g.dims 1)) false h
  refine ⟨st, hst, ?_⟩
  rw [← hafter, afterSlides_eq hd, afterSlides_eq hd, slideOffset, slideOffset, List.length_range,
    Nat.zero_add, Nat.mod_mod]

/-- With at least two devices in y a slide always changes the state. -/
theorem afterSlides_succ_ne (hd : d ≤ 1) (hdims : 2 ≤ g.dims 1) {rank k : ℕ}
    {comm comm' : Communicator (d + 2)} (h : afterSlides g rank k = some comm)
    (h' : afterSlides g rank (k + 1) = some comm') : comm' ≠ comm := by
  obtain ⟨c, hc, hu⟩ := afterSlides_spec hd g rank k
  obtain ⟨c', hc', hu'⟩ := afterSlides_spec hd g rank (k + 1)
  obtain rfl : c = comm := Option.some.inj (hc.symm.trans h)
  obtain rfl : c' = comm' := Option.some.inj (hc'.symm.trans h')
  intro he
  have hy : slideOffset g (k + 1) = slideOffset g k := by
    rw [← hu.yoffset_eq, ← hu'.yoffset_eq, he]
  rw [slideOffset_succ] at hy
  split_ifs at hy with h0
  · omega
  · omega

/-- A neighbour across a set direction sees the rank back in the mirrored direction. -/
theorem insideOrPeriodic_back (g : ProcessGrid (d + 2)) {c e : DataSpace (d + 2)} (hc : g.Inside c)
    (he : g.InsideOrPeriodic (c + e)) : g.InsideOrPeriodic (g.wrap (c + e) - e) := by
  intro j
  rcases he j with h | h
  · left
    have hw : g.wrap (c + e) j = c j + e j := Int.emod_eq_of_lt h.1 h.2
    have := hc j
    simp only [Pi.sub_apply, hw]
    omega
  · exact .inr h

theorem wrap_back (g : ProcessGrid (d + 2)) {c e : DataSpace (d + 2)} (hc : g.Inside c) :
    g.wrap (g.wrap (c + e) - e) = c := by
  funext j
  simp only [ProcessGrid.wrap, Pi.sub_apply, Pi.add_apply, Int.emod_sub_emod, add_sub_cancel_right]
  exact Int.emod_eq_of_lt (hc j).1 (hc j).2

theorem Updated.neighbor (hd : d ≤ 1) {yoffset : ℤ} {comm : ℕ → Communicator (d + 2)}
    (hu : ∀ r, Updated g r yoffset (comm r)) {r : ℕ} (hr : r < g.size) {i : ℕ} (hi : 1 ≤ i)
    (hi' : i < numberOfExchanges (d + 2)) (hset : (comm r).communicationMask.isSet i = true) :
    ∃ r' < g.size, (comm r).ranks i = r' ∧
      (comm r').coordinates = g.wrap ((comm r).coordinates + getRelativeDirections (d + 2) i) ∧
      (comm r').communicationMask.isSet (Mask.mirrored i) = true ∧ (comm r').ranks (Mask.mirrored i) = r := by
  have h27 := numberOfExchanges_le hd
  have hD : d + 2 = 2 ∨ d + 2 = 3 := by omega
  have hin : g.Inside (comm r).coordinates := by
    rw [(hu r).coordinates_eq]
    exact rotatedCoords_inside hr _
  have hok := ((hu r).isSet_iff i hi hi').mp hset
  let r' := rankAt g yoffset ((comm r).coordinates + getRelativeDirections (d + 2) i)
  have hr' : (comm r').coordinates =
      g.wrap ((comm r).coordinates + getRelativeDirections (d + 2) i) := by
    rw [(hu r').coordinates_eq, rotatedCoords_rankAt]
  have hm := Mask.mirrored_pos hi (show i < 27 by omega)
  have hm' := Mask.mirrored_lt hD hi'
  have hback : (comm r').coordinates + getRelativeDirections (d + 2) (Mask.mirrored i) =
      g.wrap ((comm r).coordinates + getRelativeDirections (d + 2) i) -
        getRelativeDirections (d + 2) i := by
    rw [hr', Mask.getRelativeDirections_mirrored (by omega), sub_eq_add_neg]
  have hset' : (comm r').communicationMask.isSet (Mask.mirrored i) = true := by
    rw [(hu r').isSet_iff _ hm hm', hback]
    exact insideOrPeriodic_back g hin hok
  refine ⟨r', rankAt_lt _ _ _, (hu r).ranks_eq i hi hi' hset, hr', hset', ?_⟩
  rw [(hu r').ranks_eq _ hm hm' hset', hback]
  have hw := wrap_back g (e := getRelativeDirections (d + 2) i) hin
  rw [rankAt_rotatedCoords hr _ (hw.trans (hu r).coordinates_eq)]

theorem rotatedCoords_injOn (g : ProcessGrid (d + 2)) (yoffset : ℤ) :
    Set.InjOn (fun r => rotatedCoords g r yoffset) {r | r < g.size} := by
  intro r hr r' hr' he
  have hin := rotatedCoords_inside hr yoffset
  have hw : g.wrap (rotatedCoords g r yoffset) = rotatedCoords g r yoffset :=
    funext fun j => Int.emod_eq_of_lt (hin j).1 (hin j).2
  rw [← rankAt_rotatedCoords hr _ hw, ← rankAt_rotatedCoords hr' _ (hw.trans he)]

/-- After any number of slides in lock step the coordinates number the process grid, the
communication mask and the neighbour ranks describe the grid with its periodic boundaries, and
the neighbour relation is symmetric under mirroring. -/
theorem topology_after_slides (hd : d ≤ 1) (g : ProcessGrid (d + 2)) (k : ℕ) :
    ∃ comm : ℕ → Communicator (d + 2),
      (∀ r, afterSlides g r k = some (comm r)) ∧
      Set.BijOn (fun r => (comm r).coordinates) {r | r < g.size} {c | g.Inside c} ∧
      ∀ r < g.size, ∀ i, 1 ≤ i → i < numberOfExchanges (d + 2) →
        ((comm r).communicationMask.isSet i = true ↔
          g.InsideOrPeriodic ((comm r).coordinates + getRelativeDirections (d + 2) i)) ∧
        ((comm r).communicationMask.isSet i = true → ∃ r' < g.size, ∃ m,
          (comm r).ranks i = r' ∧
          (comm r').coordinates = g.wrap ((comm r).coordinates + getRelativeDirections (d + 2) i) ∧
          Mask.getMirroredExchangeType i = .ok m ∧
          (comm r').communicationMask.isSet m = true ∧ (comm r').ranks m = r) := by
  choose comm hcomm hu using fun r => afterSlides_spec hd g r k
  have hcoord : ∀ r, (comm r).coordinates = rotatedCoords g r (slideOffset g k) :=
    fun r => (hu r).coordinates_eq
  refine ⟨comm, hcomm, ⟨?_, ?_, ?_⟩, ?_⟩
  · intro r hr
    simp only [Set.mem_ofPred_eq, hcoord]
    exact rotatedCoords_inside hr _
  · intro r hr r' hr' he
    simp only [hcoord] at he
    exact rotatedCoords_injOn g (slideOffset g k) hr hr' he
  · intro c hc
    refine ⟨rankAt g (slideOffset g k) c, rankAt_lt _ _ _, ?_⟩
    simp only [hcoord, rotatedCoords_rankAt]
    exact funext fun j => Int.emod_eq_of_lt (hc j).1 (hc j).2
  · intro r hr i hi hi'
    refine ⟨(hu r).isSet_iff i hi hi', fun hset => ?_⟩
    have h27 := numberOfExchanges_le hd
    obtain ⟨r', hr', hrank, hcoords, hset', hback⟩ := Updated.neighbor hd hu hr hi hi' hset
    exact ⟨r', hr', Mask.mirrored i, hrank, hcoords, Mask.getMirroredExchangeType_eq hi (by omega), hset', hback⟩

def smallGrid : ProcessGrid 2 := ⟨![3, 2], ![true, false], by decide⟩

theorem topology_after_slides_smallGrid : 0 ≤ 1 ∧ ∃ comm : ℕ → Communicator 2,
    (∀ r, afterSlides smallGrid r 3 = some (comm r)) ∧
    Set.BijOn (fun r => (comm r).coordinates) {r | r < smallGrid.size} {c | smallGrid.Inside c} := by
  obtain ⟨comm, hcomm, hbij, _⟩ := topology_after_slides (d := 0) (by decide) smallGrid 3
  exact ⟨by decide, comm, hcomm, hbij⟩

end Communicator

end PIConGPU
