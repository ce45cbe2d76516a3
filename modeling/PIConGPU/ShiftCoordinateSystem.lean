import PIConGPU.Mask
import Mathlib

/-!
# Shifted coordinate systems

Shapes are evaluated on fixed nodes around a cursor. The cursor jumps so that the rest of the position is
in `[0, 1)` for an even support and in `[-1/2, 1/2)` for an odd one.
-/
namespace PIConGPU.ShiftCoordinateSystem

variable {D : ℕ}

/-- The jump along one axis, for an even and for an odd support. -/
def getOffsetToStaticShapeSystem (isEven : Bool) (pos : ℚ) : ℤ :=
  if isEven then ⌊pos⌋ else if 1 / 2 ≤ pos then 1 else 0

variable (supports : Fin D → ℕ) (fieldPos : Fin D → ℚ)

def assignToDim (component : Fin D) (cursor : DataSpace D) (pos : Fin D → ℚ) : DataSpace D × (Fin D → ℚ) :=
  let v_pos := pos component - fieldPos component
  let intShift := getOffsetToStaticShapeSystem (supports component % 2 = 0) v_pos
  (cursor + Pi.single component intShift, Function.update pos component (v_pos - intShift))

def shift (cursor : DataSpace D) (vector : Fin D → ℚ) : DataSpace D × (Fin D → ℚ) :=
  (List.finRange D).foldl (fun st component => assignToDim supports fieldPos component st.1 st.2) (cursor, vector)

def offset (vector : Fin D → ℚ) : DataSpace D :=
  fun d => getOffsetToStaticShapeSystem (supports d % 2 = 0) (vector d - fieldPos d)

variable {supports fieldPos}

/-- The axes are shifted one after the other and do not influence each other. -/
theorem foldl_assignToDim {l : List (Fin D)} (hl : l.Nodup) (cursor : DataSpace D) (pos : Fin D → ℚ) :
    l.foldl (fun st component => assignToDim supports fieldPos component st.1 st.2) (cursor, pos) =
      (fun d => cursor d + (if d ∈ l then offset supports fieldPos pos d else 0),
        fun d => if d ∈ l then pos d - fieldPos d - offset supports fieldPos pos d else pos d) := by
  induction l generalizing cursor pos with
  | nil => simp
  | cons c l ih =>
    obtain ⟨hc, hl⟩ := List.nodup_cons.mp hl
    rw [List.foldl_cons, assignToDim, ih hl]
    have hother : ∀ d ∈ l, d ≠ c := fun d hd h => hc (h ▸ hd)
    refine Prod.ext (funext fun d => ?_) (funext fun d => ?_)
    · by_cases hd : d = c
      · subst hd
        simp [hc, offset]
      · simp [hd, offset]
    · by_cases hd : d = c
      · subst hd
        simp [hc, offset]
      · simp [hd, offset]

theorem shift_eq (cursor : DataSpace D) (vector : Fin D → ℚ) :
    shift supports fieldPos cursor vector =
      (cursor + offset supports fieldPos vector,
        fun d => vector d - fieldPos d - offset supports fieldPos vector d) := by
  rw [shift, foldl_assignToDim (List.nodup_finRange D)]
  simp only [List.mem_finRange, if_true]
  rfl

/-- The interval that the shapes are evaluated in. -/
theorem getOffset_bounds (n : ℕ) {v : ℚ} (hlo : -1 / 2 ≤ v) (hhi : v < 3 / 2) :
    -((n % 2 : ℕ) : ℚ) / 2 ≤ v - getOffsetToStaticShapeSystem (n % 2 = 0) v ∧
      v - getOffsetToStaticShapeSystem (n % 2 = 0) v < 1 - ((n % 2 : ℕ) : ℚ) / 2 := by
  rcases Nat.mod_two_eq_zero_or_one n with hn | hn
  · have h1 := Int.floor_le v
    have h2 := Int.lt_floor_add_one v
    simp only [getOffsetToStaticShapeSystem, hn, decide_true, if_true, Nat.cast_zero]
    constructor <;> linarith
  · simp only [getOffsetToStaticShapeSystem, hn, one_ne_zero, decide_false, Bool.false_eq_true, if_false,
      Nat.cast_one]
    split_ifs <;> push_cast <;> constructor <;> linarith

/-- A position in the cell and a field position in its lower half jump by at most one cell, downwards for
an even and upwards for an odd support. -/
theorem getOffset_mem (n : ℕ) {v : ℚ} (hlo : -1 / 2 ≤ v) (hhi : v < 1) :
    (n % 2 : ℕ) - 1 ≤ getOffsetToStaticShapeSystem (n % 2 = 0) v ∧
      getOffsetToStaticShapeSystem (n % 2 = 0) v ≤ (n % 2 : ℕ) := by
  rcases Nat.mod_two_eq_zero_or_one n with hn | hn
  · simp only [getOffsetToStaticShapeSystem, hn, decide_true, if_true]
    have h1 : -1 ≤ ⌊v⌋ := Int.le_floor.mpr (by push_cast; linarith)
    have h2 : ⌊v⌋ < 1 := Int.floor_lt.mpr (by push_cast; linarith)
    omega
  · simp only [getOffsetToStaticShapeSystem, hn, one_ne_zero, decide_false, Bool.false_eq_true, if_false]
    split_ifs <;> omega

end PIConGPU.ShiftCoordinateSystem
