import PIConGPU.CurrentDeposition

/-!
# The current solver of Esirkepov

The change of the shape product is decomposed into one part for each axis. Each part is summed
up along its axis over a window of `support + 1` nodes; the other axes are reached by rotating
the line and twisting the cursor.
-/
namespace PIConGPU.Esirkepov

structure Line (D : ℕ) where
  pos0 : Fin D → ℚ
  pos1 : Fin D → ℚ

structure Cursor (D : ℕ) where
  origin : DataSpace D
  axes : Equiv.Perm (Fin D)

variable {D : ℕ}

/-- The node that a jump of a cursor reaches: `twistedJump[axes[d]] = jump[d]`. -/
def Cursor.node (c : Cursor D) (jump : DataSpace D) : DataSpace D :=
  c.origin + fun e => jump (c.axes.symm e)

def Cursor.shift (c : Cursor D) (jump : DataSpace D) : Cursor D := { c with origin := c.node jump }

def twistVectorFieldAxes (axes : Equiv.Perm (Fin D)) (c : Cursor D) : Cursor D :=
  { c with axes := c.axes * axes }

def rotateOrigin (axes : Equiv.Perm (Fin D)) (line : Line D) : Line D :=
  ⟨fun d => line.pos0 (axes d), fun d => line.pos1 (axes d)⟩

/-- `CT::Int<1, 2, 0>` -/
def axes120 : Equiv.Perm (Fin 3) := ⟨![1, 2, 0], ![2, 0, 1], by decide, by decide⟩

/-- `CT::Int<2, 0, 1>` -/
def axes201 : Equiv.Perm (Fin 3) := ⟨![2, 0, 1], ![1, 2, 0], by decide, by decide⟩

/-- `CT::Int<1, 0>` -/
def axes10 : Equiv.Perm (Fin 2) := ⟨![1, 0], ![1, 0], by decide, by decide⟩

variable (S : Shape) (u : GridUnits)

def currentLowerMargin : ℤ := S.support / 2 + 1 - (S.support + 1) % 2

def windowBegin : ℤ := -currentLowerMargin S

def windowEnd : ℤ := windowBegin S + S.support + 1

/-- One node further for a particle that moves downwards. -/
def offset (line : Line D) (d : Fin D) : ℤ := if line.pos1 d < line.pos0 d then 1 else 0

def S0 (line : Line D) (gridPoint : ℤ) (d : Fin D) : ℚ := S.chargeAssignment (gridPoint - line.pos0 d)

def DS (line : Line D) (gridPoint : ℤ) (d : Fin D) : ℚ :=
  S.chargeAssignment (gridPoint - line.pos1 d) - S.chargeAssignment (gridPoint - line.pos0 d)

def windowLoop (line : Line D) (d : Fin D) : List ℤ :=
  intLoop (windowBegin S + offset line d) (windowEnd S + offset line d)

/-- `oldPos` of the call operators; the velocity has three components in two dimensions too. -/
def oldPos (hD : D ≤ 3) (pos : Fin D → ℚ) (velocity : Fin 3 → ℚ) (deltaTime : ℚ) : Fin D → ℚ :=
  fun d => pos d - velocity (Fin.castLE hD d) * deltaTime / u.cellSize (Fin.castLE hD d)

/-- `coordinate_shift`, zero for an even support. -/
def coordinateShift (pos : Fin D → ℚ) : DataSpace D :=
  fun d => if S.support % 2 = 1 then ⌊pos d * 2⌋ else 0

def shiftedLine (oldPos pos : Fin D → ℚ) : Line D :=
  ⟨fun d => oldPos d - coordinateShift S pos d, fun d => pos d - coordinateShift S pos d⟩

def shiftedCursor (pos : Fin D → ℚ) : Cursor D :=
  Cursor.shift ⟨0, 1⟩ (coordinateShift S pos)

/-- `cptCurrent1D` in three dimensions: the current in the z direction of the cursor. -/
def cptCurrent1D (charge : ℚ) (cursorJ : Cursor 3) (line : Line 3) (cellEdgeLength : ℚ)
    (J : FieldJ 3) : FieldJ 3 :=
  (windowLoop S line 0).foldl (fun J i =>
    (windowLoop S line 1).foldl (fun J j =>
      let tmp := S0 S line i 0 * S0 S line j 1 + 1 / 2 * DS S line i 0 * S0 S line j 1 +
        1 / 2 * S0 S line i 0 * DS S line j 1 + 1 / 3 * DS S line i 0 * DS S line j 1
      accumulateAlong (fun k => cursorJ.node ![i, j, k]) (cursorJ.axes 2)
        (fun k => -charge * (1 / (u.cellVolume * u.deltaT)) * (DS S line k 2 * tmp) * cellEdgeLength)
        (windowBegin S + offset line 2) (windowEnd S + offset line 2) J) J) J

/-- The call operator in three dimensions. -/
def deposit3 (J : FieldJ 3) (pos velocity : Fin 3 → ℚ) (charge deltaTime : ℚ) : FieldJ 3 :=
  let line := shiftedLine S (oldPos u le_rfl pos velocity deltaTime) pos
  let cursorJ := shiftedCursor S pos
  J
  |> cptCurrent1D S u charge (twistVectorFieldAxes axes120 cursorJ) (rotateOrigin axes120 line)
    (u.cellSize 0)
  |> cptCurrent1D S u charge (twistVectorFieldAxes axes201 cursorJ) (rotateOrigin axes201 line)
    (u.cellSize 1)
  |> cptCurrent1D S u charge cursorJ line (u.cellSize 2)

/-- `cptCurrent1D` in two dimensions: the current in the x direction of the cursor. -/
def cptCurrent1D2 (charge : ℚ) (cursorJ : Cursor 2) (line : Line 2) (cellEdgeLength : ℚ)
    (J : FieldJ 2) : FieldJ 2 :=
  (windowLoop S line 1).foldl (fun J j =>
    let tmp := S0 S line j 1 + 1 / 2 * DS S line j 1
    accumulateAlong (fun i => cursorJ.node ![i, j]) (Fin.castLE (by decide) (cursorJ.axes 0))
      (fun i => -charge * (1 / (u.cellVolume * u.deltaT)) * (DS S line i 0 * tmp) * cellEdgeLength)
      (windowBegin S + offset line 0) (windowEnd S + offset line 0) J) J

/-- `cptCurrentZ`: the current out of the plane. -/
def cptCurrentZ (charge : ℚ) (cursorJ : Cursor 2) (line : Line 2) (v_z : ℚ) (J : FieldJ 2) : FieldJ 2 :=
  (windowLoop S line 1).foldl (fun J j =>
    (windowLoop S line 0).foldl (fun J i =>
      let W := S0 S line i 0 * S0 S line j 1 + 1 / 2 * DS S line i 0 * S0 S line j 1 +
        1 / 2 * S0 S line i 0 * DS S line j 1 + 1 / 3 * DS S line i 0 * DS S line j 1
      let j_z := charge * (1 / u.cellVolume) * W * v_z
      if j_z ≠ 0 then atomicAdd (cursorJ.node ![i, j]) 2 j_z J else J) J) J

/-- The call operator in two dimensions. -/
def deposit2 (J : FieldJ 2) (pos : Fin 2 → ℚ) (velocity : Fin 3 → ℚ) (charge deltaTime : ℚ) : FieldJ 2 :=
  let line := shiftedLine S (oldPos u (by decide) pos velocity deltaTime) pos
  let cursorJ := shiftedCursor S pos
  J
  |> cptCurrent1D2 S u charge cursorJ line (u.cellSize 0)
  |> cptCurrent1D2 S u charge (twistVectorFieldAxes axes10 cursorJ) (rotateOrigin axes10 line)
    (u.cellSize 1)
  |> cptCurrentZ S u charge cursorJ line (velocity 2)

/-- What the call operators guarantee for the line: the current position lies in the base cell
of the shape, and the particle moved by less than a cell. -/
structure InBaseCell (line : Line D) : Prop where
  lower : ∀ d, -((S.support % 2 : ℕ) : ℚ) / 2 ≤ line.pos1 d
  upper : ∀ d, line.pos1 d < 1 - ((S.support % 2 : ℕ) : ℚ) / 2
  moved : ∀ d, |line.pos1 d - line.pos0 d| < 1

variable {S}

theorem shiftedLine_inBaseCell {oldPos pos : Fin D → ℚ} (hpos : ∀ d, 0 ≤ pos d ∧ pos d < 1)
    (hmoved : ∀ d, |pos d - oldPos d| < 1) : InBaseCell S (shiftedLine S oldPos pos) := by
  have hshift : ∀ d, ((coordinateShift S pos d : ℤ) : ℚ) ≤ pos d + ((S.support % 2 : ℕ) : ℚ) / 2 ∧
      pos d - 1 + ((S.support % 2 : ℕ) : ℚ) / 2 < (coordinateShift S pos d : ℤ) := by
    intro d
    have h := hpos d
    unfold coordinateShift
    rcases Nat.mod_two_eq_zero_or_one S.support with hs | hs
    · rw [hs, if_neg (by decide)]
      norm_num
      constructor <;> linarith
    · rw [hs, if_pos rfl]
      have h1 := Int.floor_le (pos d * 2)
      have h2 := Int.lt_floor_add_one (pos d * 2)
      by_cases hhalf : pos d < 1 / 2
      · have : ⌊pos d * 2⌋ = 0 := by
          rw [Int.floor_eq_zero_iff]
          constructor <;> linarith
        rw [this]
        norm_num
        constructor <;> linarith
      · have : ⌊pos d * 2⌋ = 1 := by
          rw [Int.floor_eq_iff]
          push_cast
          constructor <;> linarith
        rw [this]
        norm_num
        constructor <;> linarith
  refine ⟨fun d => ?_, fun d => ?_, fun d => ?_⟩
  · have := (hshift d).1
    simp only [shiftedLine]
    linarith
  · have := (hshift d).2
    simp only [shiftedLine]
    linarith
  · simpa [shiftedLine] using hmoved d

/-- The windows contain every node at which one of the two shapes does not vanish. -/
theorem mem_window {line : Line D} (hl : InBaseCell S line) {n : ℤ} {d : Fin D}
    (hn : |(n : ℚ) - line.pos0 d| < (S.support : ℚ) / 2 ∨ |(n : ℚ) - line.pos1 d| < (S.support : ℚ) / 2) :
    n ∈ Finset.Ico (windowBegin S + offset line d) (windowEnd S + offset line d) := by
  have hlo := hl.lower d
  have hhi := hl.upper d
  obtain ⟨hm0, hm1⟩ := abs_lt.mp (hl.moved d)
  have hhalf : (S.support : ℚ) = 2 * (S.support / 2 : ℕ) + (S.support % 2 : ℕ) := by
    exact_mod_cast (Nat.div_add_mod S.support 2).symm
  have hbegin : windowBegin S = -((S.support / 2 : ℕ) : ℤ) - (S.support % 2 : ℕ) := by
    simp only [windowBegin, currentLowerMargin]
    omega
  have hend : windowEnd S = ((S.support / 2 : ℕ) : ℤ) + 1 := by
    rw [windowEnd, hbegin]
    omega
  rw [Finset.mem_Ico, hbegin, hend]
  generalize (S.support / 2 : ℕ) = h at *
  generalize (S.support % 2 : ℕ) = r at *
  unfold offset
  split_ifs with hdown
  · have h1 : ((-(h : ℤ) - r : ℤ) : ℚ) < n := by
      push_cast
      rcases hn with hn | hn <;> obtain ⟨ha, hb⟩ := abs_lt.mp hn <;> linarith
    have h2 : (n : ℚ) < ((h : ℤ) + 2 : ℤ) := by
      push_cast
      rcases hn with hn | hn <;> obtain ⟨ha, hb⟩ := abs_lt.mp hn <;> linarith
    rw [Int.cast_lt] at h1 h2
    omega
  · have h1 : ((-(h : ℤ) - r - 1 : ℤ) : ℚ) < n := by
      push_cast
      rcases hn with hn | hn <;> obtain ⟨ha, hb⟩ := abs_lt.mp hn <;> linarith
    have h2 : (n : ℚ) < ((h : ℤ) + 1 : ℤ) := by
      push_cast
      rcases hn with hn | hn <;> obtain ⟨ha, hb⟩ := abs_lt.mp hn <;> linarith
    rw [Int.cast_lt] at h1 h2
    omega

/-- Loop windows that contain every node at which one of the two shapes does not vanish. -/
structure Covers (S : Shape) (line : Line D) (a b : Fin D → ℤ) : Prop where
  S0 : ∀ {n : ℤ} {d}, n ∉ Finset.Ico (a d) (b d) → S0 S line n d = 0
  DS : ∀ {n : ℤ} {d}, n ∉ Finset.Ico (a d) (b d) → DS S line n d = 0
  sum_DS : ∀ d, ∑ n ∈ Finset.Ico (a d) (b d), Esirkepov.DS S line n d = 0

theorem Covers.of_mem (hS : S.IsAssignment) {line : Line D} {a b : Fin D → ℤ}
    (hmem : ∀ (n : ℤ) d, |(n : ℚ) - line.pos0 d| < (S.support : ℚ) / 2 ∨
      |(n : ℚ) - line.pos1 d| < (S.support : ℚ) / 2 → n ∈ Finset.Ico (a d) (b d)) : Covers S line a b := by
  have h0 : ∀ (n : ℤ) d, n ∉ Finset.Ico (a d) (b d) → S.chargeAssignment (n - line.pos0 d) = 0 :=
    fun n d hn => hS.eq_zero _ (not_lt.mp fun h => hn (hmem n d (.inl h)))
  have h1 : ∀ (n : ℤ) d, n ∉ Finset.Ico (a d) (b d) → S.chargeAssignment (n - line.pos1 d) = 0 :=
    fun n d hn => hS.eq_zero _ (not_lt.mp fun h => hn (hmem n d (.inr h)))
  refine ⟨fun hn => h0 _ _ hn, fun hn => ?_, fun d => ?_⟩
  · rw [Esirkepov.DS, h0 _ _ hn, h1 _ _ hn, sub_zero]
  · simp only [Esirkepov.DS, Finset.sum_sub_distrib]
    rw [hS.sum_window _ fun n h => hmem n d (.inr h), hS.sum_window _ fun n h => hmem n d (.inl h), sub_self]

abbrev CoversWindow (S : Shape) (line : Line D) : Prop :=
  Covers S line (fun d => windowBegin S + offset line d) fun d => windowEnd S + offset line d

theorem covers_window (hS : S.IsAssignment) {line : Line D} (hl : InBaseCell S line) : CoversWindow S line :=
  .of_mem hS fun _ _ => mem_window hl

theorem Covers.rotate {line : Line D} {a b : Fin D → ℤ} (hc : Covers S line a b) (axes : Equiv.Perm (Fin D)) :
    Covers S (rotateOrigin axes line) (fun d => a (axes d)) fun d => b (axes d) :=
  ⟨fun hn => hc.S0 hn, fun hn => hc.DS hn, fun d => hc.sum_DS (axes d)⟩

/-- The change of the shape, summed up from the start of the window to node `n`. -/
noncomputable def flux (S : Shape) (line : Line D) (d : Fin D) (n : ℤ) : ℚ :=
  ∑ k ∈ Finset.Ico (windowBegin S + offset line d) (n + 1), DS S line k d

theorem flux_sub {line : Line D} (hc : CoversWindow S line) (d : Fin D) (n : ℤ) :
    flux S line d n - flux S line d (n - 1) = DS S line n d := by
  unfold flux
  rw [sub_add_cancel]
  by_cases h : windowBegin S + offset line d ≤ n
  · have hinsert : Finset.Ico (windowBegin S + offset line d) (n + 1) =
        insert n (Finset.Ico (windowBegin S + offset line d) n) := by
      ext k
      simp only [Finset.mem_Ico, Finset.mem_insert]
      omega
    rw [hinsert, Finset.sum_insert (by simp), add_sub_cancel_right]
  · rw [Finset.Ico_eq_empty (by omega), Finset.Ico_eq_empty (by omega), sub_self,
      hc.DS (by simp only [Finset.mem_Ico]; omega)]

def Cursor.jump (c : Cursor D) (n : DataSpace D) : DataSpace D :=
  fun d => n (c.axes d) - c.origin (c.axes d)

theorem Cursor.eq_node_iff (c : Cursor D) (n j : DataSpace D) : n = c.node j ↔ j = c.jump n := by
  constructor
  · rintro rfl
    funext d
    simp [jump, node]
  · rintro rfl
    funext e
    simp [jump, node]

def transversal (S : Shape) (line : Line D) (i j : ℤ) (d e : Fin D) : ℚ :=
  S0 S line i d * S0 S line j e + 1 / 2 * DS S line i d * S0 S line j e +
    1 / 2 * S0 S line i d * DS S line j e + 1 / 3 * DS S line i d * DS S line j e

theorem sum_ite_mem {s : Finset ℤ} {x : ℤ} {f : ℤ → ℚ} (hx : x ∉ s → f x = 0) :
    ∑ i ∈ s, (if i = x then f i else 0) = f x := by
  rw [Finset.sum_ite_eq']
  split_ifs with h
  · rfl
  · exact (hx h).symm

namespace Covers

variable {line : Line D} {a b : Fin D → ℤ} (hc : Covers S line a b)

include hc

theorem transversal_left {i : ℤ} (j : ℤ) {d : Fin D} (e : Fin D) (hi : i ∉ Finset.Ico (a d) (b d)) :
    transversal S line i j d e = 0 := by
  simp only [transversal, hc.S0 hi, hc.DS hi]
  ring

theorem transversal_right (i : ℤ) {j : ℤ} (d : Fin D) {e : Fin D} (hj : j ∉ Finset.Ico (a e) (b e)) :
    transversal S line i j d e = 0 := by
  simp only [transversal, hc.S0 hj, hc.DS hj]
  ring

/-- Outside of the window nothing flows. -/
theorem sum_eq_zero {d : Fin D} {n : ℤ} (hn : n ∉ Finset.Ico (a d) (b d)) :
    ∑ k ∈ Finset.Ico (a d) (n + 1), Esirkepov.DS S line k d = 0 := by
  rw [Finset.mem_Ico, not_and_or] at hn
  rcases hn with hn | hn
  · rw [Finset.Ico_eq_empty (by omega), Finset.sum_empty]
  · rw [← hc.sum_DS d]
    refine (Finset.sum_subset (fun k hk => ?_) fun k _ hk => hc.DS hk).symm
    rw [Finset.mem_Ico] at hk ⊢
    omega

end Covers

/-- What the loops over three covering windows add, at all nodes of the grid. -/
theorem sweep_eq {line : Line 3} {a b : Fin 3 → ℤ} (hc : Covers S line a b) (charge : ℚ) (cursorJ : Cursor 3)
    (cellEdgeLength : ℚ) (J : FieldJ 3) :
    (intLoop (a 0) (b 0)).foldl (fun J i => (intLoop (a 1) (b 1)).foldl (fun J j =>
      accumulateAlong (fun k => cursorJ.node ![i, j, k]) (cursorJ.axes 2)
        (fun k => -charge * (1 / (u.cellVolume * u.deltaT)) * (DS S line k 2 * transversal S line i j 0 1) *
          cellEdgeLength) (a 2) (b 2) J) J) J = J + fun n e =>
      if e = cursorJ.axes 2 then
        -charge * (1 / (u.cellVolume * u.deltaT)) * cellEdgeLength *
          (transversal S line (cursorJ.jump n 0) (cursorJ.jump n 1) 0 1 *
            ∑ k ∈ Finset.Ico (a 2) (cursorJ.jump n 2 + 1), DS S line k 2)
      else 0 := by
  simp only [accumulateAlong_apply]
  rw [foldl_intLoop (fun J i => foldl_intLoop (fun _ _ => rfl) _ _ J)]
  congr 1
  funext n e
  simp only [Finset.sum_apply]
  set C := -charge * (1 / (u.cellVolume * u.deltaT)) * cellEdgeLength with hC
  by_cases he : e = cursorJ.axes 2
  · have hterm : ∀ i j k : ℤ, (if n = cursorJ.node ![i, j, k] ∧ e = cursorJ.axes 2 then
        ∑ k' ∈ Finset.Ico (a 2) (k + 1), -charge * (1 / (u.cellVolume * u.deltaT)) *
          (DS S line k' 2 * transversal S line i j 0 1) * cellEdgeLength else 0) =
        if k = cursorJ.jump n 2 then if j = cursorJ.jump n 1 then if i = cursorJ.jump n 0 then
          C * (transversal S line i j 0 1 * ∑ k' ∈ Finset.Ico (a 2) (k + 1), DS S line k' 2)
            else 0 else 0 else 0 := by
      intro i j k
      have hjump : n = cursorJ.node ![i, j, k] ↔
          k = cursorJ.jump n 2 ∧ j = cursorJ.jump n 1 ∧ i = cursorJ.jump n 0 := by
        rw [Cursor.eq_node_iff, funext_iff, Fin.forall_fin_succ, Fin.forall_fin_succ, Fin.forall_fin_one]
        exact ⟨fun h => ⟨h.2.2, h.2.1, h.1⟩, fun h => ⟨h.2.2, h.2.1, h.1⟩⟩
      simp only [hjump, he, and_true, ite_and, Finset.mul_sum]
      congr 3
      refine Finset.sum_congr rfl fun k' _ => ?_
      rw [hC]
      ring
    simp only [hterm, if_pos he]
    have hk : ∀ i j, ∑ k ∈ Finset.Ico (a 2) (b 2),
        (if k = cursorJ.jump n 2 then if j = cursorJ.jump n 1 then if i = cursorJ.jump n 0 then
          C * (transversal S line i j 0 1 * ∑ k' ∈ Finset.Ico (a 2) (k + 1), DS S line k' 2)
            else 0 else 0 else 0) =
        if j = cursorJ.jump n 1 then if i = cursorJ.jump n 0 then
          C * (transversal S line i j 0 1 *
            ∑ k' ∈ Finset.Ico (a 2) (cursorJ.jump n 2 + 1), DS S line k' 2) else 0 else 0 :=
      fun i j => sum_ite_mem fun h => by simp [hc.sum_eq_zero h]
    have hj : ∀ i, ∑ j ∈ Finset.Ico (a 1) (b 1),
        (if j = cursorJ.jump n 1 then if i = cursorJ.jump n 0 then
          C * (transversal S line i j 0 1 *
            ∑ k' ∈ Finset.Ico (a 2) (cursorJ.jump n 2 + 1), DS S line k' 2) else 0 else 0) =
        if i = cursorJ.jump n 0 then
          C * (transversal S line i (cursorJ.jump n 1) 0 1 *
            ∑ k' ∈ Finset.Ico (a 2) (cursorJ.jump n 2 + 1), DS S line k' 2) else 0 :=
      fun i => sum_ite_mem fun h => by simp [hc.transversal_right i 0 h]
    simp only [hk, hj]
    exact sum_ite_mem fun h => by simp [hc.transversal_left _ 1 h]
  · simp [he]

theorem cptCurrent1D_eq {line : Line 3} (hc : CoversWindow S line) (charge : ℚ)
    (cursorJ : Cursor 3) (cellEdgeLength : ℚ) (J : FieldJ 3) :
    cptCurrent1D S u charge cursorJ line cellEdgeLength J = J + fun n e =>
      if e = cursorJ.axes 2 then
        -charge * (1 / (u.cellVolume * u.deltaT)) * cellEdgeLength *
          (transversal S line (cursorJ.jump n 0) (cursorJ.jump n 1) 0 1 * flux S line 2 (cursorJ.jump n 2))
      else 0 :=
  sweep_eq u hc charge cursorJ cellEdgeLength J

theorem cptCurrent1D2_eq {line : Line 2} (hc : CoversWindow S line) (charge : ℚ)
    (cursorJ : Cursor 2) (cellEdgeLength : ℚ) (J : FieldJ 2) :
    cptCurrent1D2 S u charge cursorJ line cellEdgeLength J = J + fun n e =>
      if e = Fin.castLE (by decide) (cursorJ.axes 0) then
        -charge * (1 / (u.cellVolume * u.deltaT)) * cellEdgeLength *
          ((S0 S line (cursorJ.jump n 1) 1 + 1 / 2 * DS S line (cursorJ.jump n 1) 1) *
            flux S line 0 (cursorJ.jump n 0))
      else 0 := by
  unfold cptCurrent1D2 windowLoop
  simp only [accumulateAlong_apply]
  rw [foldl_intLoop (fun _ _ => rfl)]
  congr 1
  funext n e
  simp only [Finset.sum_apply]
  set C := -charge * (1 / (u.cellVolume * u.deltaT)) * cellEdgeLength with hC
  by_cases he : e = Fin.castLE (by decide) (cursorJ.axes 0)
  · have hterm : ∀ j i : ℤ, (if n = cursorJ.node ![i, j] ∧ e = Fin.castLE (by decide) (cursorJ.axes 0) then
        ∑ i' ∈ Finset.Ico (windowBegin S + offset line 0) (i + 1),
          -charge * (1 / (u.cellVolume * u.deltaT)) *
            (DS S line i' 0 * (S0 S line j 1 + 1 / 2 * DS S line j 1)) * cellEdgeLength else 0) =
        if i = cursorJ.jump n 0 then if j = cursorJ.jump n 1 then
          C * ((S0 S line j 1 + 1 / 2 * DS S line j 1) * flux S line 0 i) else 0 else 0 := by
      intro j i
      have hjump : n = cursorJ.node ![i, j] ↔ i = cursorJ.jump n 0 ∧ j = cursorJ.jump n 1 := by
        rw [Cursor.eq_node_iff, funext_iff, Fin.forall_fin_succ, Fin.forall_fin_one]
        rfl
      simp only [hjump, he, and_true, ite_and, flux, Finset.mul_sum]
      congr 2
      refine Finset.sum_congr rfl fun i' _ => ?_
      rw [hC]
      ring
    simp only [hterm, if_pos he]
    have hi : ∀ j, ∑ i ∈ Finset.Ico (windowBegin S + offset line 0) (windowEnd S + offset line 0),
        (if i = cursorJ.jump n 0 then if j = cursorJ.jump n 1 then
          C * ((S0 S line j 1 + 1 / 2 * DS S line j 1) * flux S line 0 i) else 0 else 0) =
        if j = cursorJ.jump n 1 then
          C * ((S0 S line j 1 + 1 / 2 * DS S line j 1) * flux S line 0 (cursorJ.jump n 0)) else 0 :=
      fun j => sum_ite_mem fun h => by simp [flux, hc.sum_eq_zero h]
    simp only [hi]
    exact sum_ite_mem fun h => by simp [hc.S0 h, hc.DS h]
  · simp [he]

/-- The current out of the plane leaves the other components alone. -/
theorem cptCurrentZ_apply (charge : ℚ) (cursorJ : Cursor 2) (line : Line 2) (v_z : ℚ) (J : FieldJ 2)
    (n : DataSpace 2) {e : Fin 3} (he : e ≠ 2) :
    cptCurrentZ S u charge cursorJ line v_z J n e = J n e := by
  unfold cptCurrentZ
  generalize windowLoop S line 1 = rows
  generalize windowLoop S line 0 = columns
  have hrow : ∀ (j : ℤ) (columns : List ℤ) (J : FieldJ 2), columns.foldl (fun J i =>
      let W := S0 S line i 0 * S0 S line j 1 + 1 / 2 * DS S line i 0 * S0 S line j 1 +
        1 / 2 * S0 S line i 0 * DS S line j 1 + 1 / 3 * DS S line i 0 * DS S line j 1
      let j_z := charge * (1 / u.cellVolume) * W * v_z
      if j_z ≠ 0 then atomicAdd (cursorJ.node ![i, j]) 2 j_z J else J) J n e = J n e := by
    intro j columns
    induction columns with
    | nil => intro J; rfl
    | cons i columns ih =>
      intro J
      rw [List.foldl_cons, ih]
      split_ifs
      · rw [atomicAdd_apply, if_neg (fun h => he h.2), add_zero]
      · rfl
  induction rows generalizing J with
  | nil => rfl
  | cons j rows ih => rw [List.foldl_cons, ih, hrow]

theorem jump_shiftedCursor (pos : Fin D → ℚ) (axes : Equiv.Perm (Fin D)) (n : DataSpace D) (d : Fin D) :
    (twistVectorFieldAxes axes (shiftedCursor S pos)).jump n d =
      n (axes d) - coordinateShift S pos (axes d) := by
  have hone : (Equiv.symm 1 : Equiv.Perm (Fin D)) = 1 := rfl
  simp [Cursor.jump, twistVectorFieldAxes, shiftedCursor, Cursor.shift, Cursor.node, hone]

theorem twistVectorFieldAxes_one (c : Cursor D) : twistVectorFieldAxes 1 c = c := rfl

theorem rotateOrigin_one (line : Line D) : rotateOrigin 1 line = line := rfl

noncomputable def axisCurrent (S : Shape) (line : Line 3) (shift n : DataSpace 3) (axes : Equiv.Perm (Fin 3)) :
    ℚ :=
  transversal S line (n (axes 0) - shift (axes 0)) (n (axes 1) - shift (axes 1)) (axes 0) (axes 1) *
    flux S line (axes 2) (n (axes 2) - shift (axes 2))

theorem cptCurrent1D_axes {line : Line 3} (hc : CoversWindow S line) (charge : ℚ)
    (pos : Fin 3 → ℚ) (axes : Equiv.Perm (Fin 3)) (cellEdgeLength : ℚ) (J : FieldJ 3) :
    cptCurrent1D S u charge (twistVectorFieldAxes axes (shiftedCursor S pos)) (rotateOrigin axes line)
      cellEdgeLength J = J + fun n e => if e = axes 2 then
        -charge * (1 / (u.cellVolume * u.deltaT)) * cellEdgeLength *
          axisCurrent S line (coordinateShift S pos) n axes else 0 := by
  rw [cptCurrent1D_eq u (hc.rotate axes)]
  simp only [jump_shiftedCursor]
  rfl

/-- Along its own axis the current of an axis changes by the decomposed weight. -/
theorem axisCurrent_sub {line : Line 3} (hc : CoversWindow S line)
    (shift n : DataSpace 3) (axes : Equiv.Perm (Fin 3)) :
    axisCurrent S line shift n axes - axisCurrent S line shift (n - Pi.single (axes 2) 1) axes =
      transversal S line (n (axes 0) - shift (axes 0)) (n (axes 1) - shift (axes 1)) (axes 0) (axes 1) *
        DS S line (n (axes 2) - shift (axes 2)) (axes 2) := by
  have h0 : axes 0 ≠ axes 2 := axes.injective.ne (by decide)
  have h1 : axes 1 ≠ axes 2 := axes.injective.ne (by decide)
  rw [← flux_sub hc, mul_sub]
  simp only [axisCurrent, Pi.sub_apply, Pi.single_eq_of_ne h0, Pi.single_eq_of_ne h1, Pi.single_eq_same,
    sub_zero]
  rw [sub_right_comm]

theorem S0_shiftedLine (oldPos pos : Fin D → ℚ) (n : ℤ) (d : Fin D) :
    S0 S (shiftedLine S oldPos pos) (n - coordinateShift S pos d) d =
      S.chargeAssignment (n - oldPos d) := by
  simp only [S0, shiftedLine]
  congr 1
  push_cast
  ring

theorem DS_shiftedLine (oldPos pos : Fin D → ℚ) (n : ℤ) (d : Fin D) :
    DS S (shiftedLine S oldPos pos) (n - coordinateShift S pos d) d =
      S.chargeAssignment (n - pos d) - S.chargeAssignment (n - oldPos d) := by
  simp only [DS, shiftedLine]
  congr 2 <;> · push_cast; ring

/-- A solver whose windows contain all charge conserves it. -/
theorem deposit3_continuity {pos velocity : Fin 3 → ℚ} (charge deltaTime : ℚ) (J : FieldJ 3)
    (hc : CoversWindow S (shiftedLine S (oldPos u le_rfl pos velocity deltaTime) pos)) :
    Continuity le_rfl S u u.deltaT charge (oldPos u le_rfl pos velocity deltaTime) pos J
      (deposit3 S u J pos velocity charge deltaTime) := by
  have hV := u.cellVolume_pos.ne'
  have hdt := u.deltaT_pos.ne'
  have h0 := (u.cellSize_pos 0).ne'
  have h1 := (u.cellSize_pos 1).ne'
  have h2 := (u.cellSize_pos 2).ne'
  intro n
  have hJ : ∀ m e, deposit3 S u J pos velocity charge deltaTime m e - J m e =
      -charge * (1 / (u.cellVolume * u.deltaT)) * u.cellSize e * axisCurrent S
        (shiftedLine S (oldPos u le_rfl pos velocity deltaTime) pos) (coordinateShift S pos) m
        (![axes120, axes201, 1] e) := by
    intro m e
    have hz := fun J => cptCurrent1D_axes u hc charge pos 1 (u.cellSize 2) J
    rw [twistVectorFieldAxes_one, rotateOrigin_one] at hz
    simp only [deposit3, hz, cptCurrent1D_axes u hc]
    fin_cases e <;> simp [show axes120 2 = 0 from rfl, show axes201 2 = 1 from rfl]
  have e120 := axisCurrent_sub hc (coordinateShift S pos) n axes120
  have e201 := axisCurrent_sub hc (coordinateShift S pos) n axes201
  have e012 := axisCurrent_sub hc (coordinateShift S pos) n 1
  rw [show axes120 2 = 0 from rfl] at e120
  rw [show axes201 2 = 1 from rfl] at e201
  simp only [Equiv.Perm.coe_one, id] at e012
  simp only [divergence, hJ, Fin.sum_univ_three, Fin.castLE_refl, ← mul_sub, Matrix.cons_val_zero,
    Matrix.cons_val_one, Matrix.cons_val, e120, e201, e012]
  simp only [show axes120 0 = 1 from rfl, show axes120 1 = 2 from rfl, show axes201 0 = 2 from rfl,
    show axes201 1 = 0 from rfl, transversal, S0_shiftedLine, DS_shiftedLine, chargeDensity,
    Fin.prod_univ_three]
  field_simp
  ring

noncomputable def axisCurrent2 (S : Shape) (line : Line 2) (shift n : DataSpace 2)
    (axes : Equiv.Perm (Fin 2)) : ℚ :=
  (S0 S line (n (axes 1) - shift (axes 1)) (axes 1) +
    1 / 2 * DS S line (n (axes 1) - shift (axes 1)) (axes 1)) *
    flux S line (axes 0) (n (axes 0) - shift (axes 0))

theorem cptCurrent1D2_axes {line : Line 2} (hc : CoversWindow S line) (charge : ℚ)
    (pos : Fin 2 → ℚ) (axes : Equiv.Perm (Fin 2)) (cellEdgeLength : ℚ) (J : FieldJ 2) :
    cptCurrent1D2 S u charge (twistVectorFieldAxes axes (shiftedCursor S pos)) (rotateOrigin axes line)
      cellEdgeLength J = J + fun n e => if e = Fin.castLE (by decide) (axes 0) then
        -charge * (1 / (u.cellVolume * u.deltaT)) * cellEdgeLength *
          axisCurrent2 S line (coordinateShift S pos) n axes else 0 := by
  rw [cptCurrent1D2_eq u (hc.rotate axes)]
  simp only [jump_shiftedCursor]
  rfl

theorem axisCurrent2_sub {line : Line 2} (hc : CoversWindow S line)
    (shift n : DataSpace 2) (axes : Equiv.Perm (Fin 2)) :
    axisCurrent2 S line shift n axes - axisCurrent2 S line shift (n - Pi.single (axes 0) 1) axes =
      (S0 S line (n (axes 1) - shift (axes 1)) (axes 1) +
        1 / 2 * DS S line (n (axes 1) - shift (axes 1)) (axes 1)) *
        DS S line (n (axes 0) - shift (axes 0)) (axes 0) := by
  have h1 : axes 1 ≠ axes 0 := axes.injective.ne (by decide)
  rw [← flux_sub hc (axes 0), mul_sub]
  simp only [axisCurrent2, Pi.sub_apply, Pi.single_eq_of_ne h1, Pi.single_eq_same, sub_zero]
  rw [sub_right_comm]

theorem deposit2_continuity {pos : Fin 2 → ℚ} {velocity : Fin 3 → ℚ} (charge deltaTime : ℚ) (J : FieldJ 2)
    (hc : CoversWindow S (shiftedLine S (oldPos u (by decide) pos velocity deltaTime) pos)) :
    Continuity (by decide) S u u.deltaT charge (oldPos u (by decide) pos velocity deltaTime) pos J
      (deposit2 S u J pos velocity charge deltaTime) := by
  have hV := u.cellVolume_pos.ne'
  have hdt := u.deltaT_pos.ne'
  have h0 := (u.cellSize_pos 0).ne'
  have h1 := (u.cellSize_pos 1).ne'
  intro n
  have hJ : ∀ (m : DataSpace 2) (d : Fin 2),
      deposit2 S u J pos velocity charge deltaTime m (Fin.castLE (by decide) d) -
        J m (Fin.castLE (by decide) d) =
      -charge * (1 / (u.cellVolume * u.deltaT)) * u.cellSize (Fin.castLE (by decide) d) * axisCurrent2 S
        (shiftedLine S (oldPos u (by decide) pos velocity deltaTime) pos) (coordinateShift S pos) m
        (![1, axes10] d) := by
    intro m d
    have hx := fun J => cptCurrent1D2_axes u hc charge pos 1 (u.cellSize 0) J
    rw [twistVectorFieldAxes_one, rotateOrigin_one] at hx
    have hne : (Fin.castLE (by decide) d : Fin 3) ≠ 2 := by
      revert d
      decide
    simp only [deposit2, cptCurrentZ_apply u _ _ _ _ _ _ hne, hx, cptCurrent1D2_axes u hc]
    fin_cases d <;> simp [show axes10 0 = 1 from rfl]
  have e01 := axisCurrent2_sub hc (coordinateShift S pos) n 1
  have e10 := axisCurrent2_sub hc (coordinateShift S pos) n axes10
  rw [show axes10 0 = 1 from rfl] at e10
  simp only [Equiv.Perm.coe_one, id] at e01
  simp only [divergence, hJ, Fin.sum_univ_two, ← mul_sub, Matrix.cons_val_zero, Matrix.cons_val_one,
    Matrix.cons_val_fin_one, e01, e10]
  simp only [show axes10 1 = 0 from rfl, S0_shiftedLine, DS_shiftedLine, chargeDensity, Fin.prod_univ_two,
    show (Fin.castLE (by decide) (0 : Fin 2) : Fin 3) = 0 from rfl,
    show (Fin.castLE (by decide) (1 : Fin 2) : Fin 3) = 1 from rfl]
  field_simp
  ring

/-- Every node with charge before or after the push lies in the loop windows. -/
def WindowsCover (S : Shape) (oldPos pos : Fin D → ℚ) : Prop :=
  ∀ (d : Fin D) (n : ℤ),
    S.chargeAssignment (n - oldPos d) ≠ 0 ∨ S.chargeAssignment (n - pos d) ≠ 0 →
    n - coordinateShift S pos d ∈ windowLoop S (shiftedLine S oldPos pos) d

theorem mem_intLoop {a b n : ℤ} : n ∈ intLoop a b ↔ n ∈ Finset.Ico a b := by
  simp only [intLoop, List.mem_map, List.mem_range, Finset.mem_Ico]
  constructor
  · rintro ⟨k, hk, rfl⟩
    omega
  · intro h
    exact ⟨(n - a).toNat, by omega, by omega⟩

theorem windowsCover (hS : S.IsAssignment) {oldPos pos : Fin D → ℚ} (hpos : ∀ d, 0 ≤ pos d ∧ pos d < 1)
    (hmoved : ∀ d, |pos d - oldPos d| < 1) : WindowsCover S oldPos pos := by
  intro d n hn
  rw [windowLoop, mem_intLoop]
  by_contra hout
  have hl := shiftedLine_inBaseCell (S := S) hpos hmoved
  have h0 := (covers_window hS hl).S0 hout
  have h1 := (covers_window hS hl).DS hout
  rw [S0_shiftedLine] at h0
  rw [DS_shiftedLine, h0, sub_zero] at h1
  exact hn.elim (fun h => h h0) fun h => h h1

/-- The solver conserves charge exactly, for all continuous shapes, in three dimensions and in
the plane of a two-dimensional simulation. -/
theorem continuity_of_deposit (s : ContinuousShape) (u : GridUnits) (velocity : Fin 3 → ℚ)
    (charge deltaTime : ℚ) :
    (∀ (pos : Fin 3 → ℚ) (J : FieldJ 3), (∀ d, 0 ≤ pos d ∧ pos d < 1) →
      (∀ d, |velocity d * deltaTime / u.cellSize d| < 1) →
      Continuity le_rfl s.shape u u.deltaT charge (oldPos u le_rfl pos velocity deltaTime) pos J
        (deposit3 s.shape u J pos velocity charge deltaTime) ∧
      WindowsCover s.shape (oldPos u le_rfl pos velocity deltaTime) pos) ∧
    (∀ (pos : Fin 2 → ℚ) (J : FieldJ 2), (∀ d, 0 ≤ pos d ∧ pos d < 1) →
      (∀ d : Fin 2, |velocity (Fin.castLE (by decide) d) * deltaTime /
        u.cellSize (Fin.castLE (by decide) d)| < 1) →
      Continuity (by decide) s.shape u u.deltaT charge (oldPos u (by decide) pos velocity deltaTime) pos J
        (deposit2 s.shape u J pos velocity charge deltaTime) ∧
      WindowsCover s.shape (oldPos u (by decide) pos velocity deltaTime) pos) := by
  have hS := s.isAssignment
  refine ⟨fun pos J hpos hdelta => ?_, fun pos J hpos hdelta => ?_⟩
  · have hmoved : ∀ d, |pos d - oldPos u le_rfl pos velocity deltaTime d| < 1 := fun d => by
      simpa [oldPos] using hdelta d
    exact ⟨deposit3_continuity u charge deltaTime J (covers_window hS (shiftedLine_inBaseCell hpos hmoved)),
      windowsCover hS hpos hmoved⟩
  · have hmoved : ∀ d, |pos d - oldPos u (by decide) pos velocity deltaTime d| < 1 := fun d => by
      simpa [oldPos] using hdelta d
    exact ⟨deposit2_continuity u charge deltaTime J (covers_window hS (shiftedLine_inBaseCell hpos hmoved)),
      windowsCover hS hpos hmoved⟩

/-- A particle with the widest shape that leaves its cell through two faces. -/
theorem continuity_of_deposit_P4S :
    (∀ d, |(![1 / 2, -3 / 4, 0] : Fin 3 → ℚ) d * 1 / 1| < 1) ∧
      Continuity le_rfl ContinuousShape.P4S.shape ⟨fun _ => 1, 1, fun _ => one_pos, one_pos⟩ 1 2
        (oldPos ⟨fun _ => 1, 1, fun _ => one_pos, one_pos⟩ le_rfl ![1 / 4, 1 / 2, 0] ![1 / 2, -3 / 4, 0] 1)
        ![1 / 4, 1 / 2, 0] (fun _ _ => 0)
        (deposit3 ContinuousShape.P4S.shape ⟨fun _ => 1, 1, fun _ => one_pos, one_pos⟩ (fun _ _ => 0)
          ![1 / 4, 1 / 2, 0] ![1 / 2, -3 / 4, 0] 2 1) := by
  have hdelta : ∀ d, |(![1 / 2, -3 / 4, 0] : Fin 3 → ℚ) d * 1 / 1| < 1 := by
    intro d
    fin_cases d <;> norm_num [abs_lt]
  exact ⟨hdelta, ((continuity_of_deposit .P4S ⟨fun _ => 1, 1, fun _ => one_pos, one_pos⟩
    ![1 / 2, -3 / 4, 0] 2 1).1 ![1 / 4, 1 / 2, 0] (fun _ _ => 0) (by decide +kernel) hdelta).1⟩

end PIConGPU.Esirkepov
