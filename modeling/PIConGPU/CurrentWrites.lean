import PIConGPU.EsirkepovNative
import PIConGPU.FieldToParticleInterpolation
import PIConGPU.SupercellGrid
import PIConGPU.VillaBune
import PIConGPU.ZigZag

/-!
# The cells that the current solvers write

Each solver is a sequence of additions to cells of the cache of its block. The sequence is built along the
loops of the solver, zeros included where the solver adds them, and all its cells lie within the margins.
-/
namespace PIConGPU

structure Write (D : ℕ) where
  node : DataSpace D
  component : Fin 3
  value : ℚ

/-- The transformation of the field is the given sequence of additions. -/
structure Performs {D : ℕ} (f : FieldJ D → FieldJ D) (writes : List (Write D)) : Prop where
  eq_foldl : ∀ J, f J = writes.foldl (fun J w => atomicAdd w.node w.component w.value J) J

namespace Performs

variable {D : ℕ} {f g : FieldJ D → FieldJ D} {l m : List (Write D)}

theorem nil : Performs (fun J : FieldJ D => J) [] := ⟨fun _ => rfl⟩

theorem single (node : DataSpace D) (c : Fin 3) (v : ℚ) : Performs (atomicAdd node c v) [⟨node, c, v⟩] :=
  ⟨fun _ => rfl⟩

theorem append (hf : Performs f l) (hg : Performs g m) : Performs (fun J => g (f J)) (l ++ m) where
  eq_foldl J := by rw [List.foldl_append, ← hf.eq_foldl, ← hg.eq_foldl]

theorem foldl {ι : Type*} {f : ι → FieldJ D → FieldJ D} {writes : ι → List (Write D)}
    (h : ∀ i, Performs (f i) (writes i)) (L : List ι) :
    Performs (fun J => L.foldl (fun J i => f i J) J) (L.flatMap writes) := by
  induction L with
  | nil => exact nil
  | cons i L ih => exact (h i).append ih

theorem apply_of_not_mem (hf : Performs f l) {n : DataSpace D} (hn : ∀ w ∈ l, w.node ≠ n) (J : FieldJ D) :
    f J n = J n := by
  rw [hf.eq_foldl]
  clear hf
  induction l generalizing J with
  | nil => rfl
  | cons w l ih =>
    obtain ⟨hw, hl⟩ := List.forall_mem_cons.mp hn
    rw [List.foldl_cons, ih hl]
    exact funext fun e => if_neg fun h => hw h.1.symm

end Performs

section Accumulate

variable {D : ℕ} (emits : ℚ → Bool) (node : ℤ → DataSpace D) (component : Fin 3) (w : ℤ → ℚ) (a b : ℤ)

/-- The innermost loop of a solver, with the sums that it writes. -/
def accumulateIf (J : FieldJ D) : FieldJ D :=
  ((intLoop a b).foldl (fun st k =>
    let accumulated_J := st.1 + w k
    (accumulated_J, if emits accumulated_J then atomicAdd (node k) component accumulated_J st.2 else st.2)) (0, J)).2

def accumulateWrites : List (Write D) :=
  ((intLoop a b).foldl (fun st k =>
    let accumulated_J := st.1 + w k
    (accumulated_J, if emits accumulated_J then st.2 ++ [⟨node k, component, accumulated_J⟩] else st.2)) (0, [])).2

theorem performs_accumulateIf :
    Performs (accumulateIf emits node component w a b) (accumulateWrites emits node component w a b) := by
  refine ⟨fun J => ?_⟩
  rw [accumulateIf, accumulateWrites]
  suffices h : ∀ (L : List ℤ) (x : ℚ) (done : List (Write D)) (J' : FieldJ D),
      J' = done.foldl (fun J w => atomicAdd w.node w.component w.value J) J →
      (L.foldl (fun st k =>
        let accumulated_J := st.1 + w k
        (accumulated_J, if emits accumulated_J then atomicAdd (node k) component accumulated_J st.2 else st.2))
          (x, J')).2 =
      (L.foldl (fun st k =>
        let accumulated_J := st.1 + w k
        (accumulated_J, if emits accumulated_J then st.2 ++ [⟨node k, component, accumulated_J⟩] else st.2))
          (x, done)).2.foldl (fun J w => atomicAdd w.node w.component w.value J) J from h _ 0 [] J rfl
  intro L
  induction L with
  | nil => intro x done J' h; exact h
  | cons k L ih =>
    intro x done J' h
    rw [List.foldl_cons, List.foldl_cons]
    refine ih _ _ _ ?_
    dsimp only
    split_ifs
    · rw [List.foldl_append, ← h]
      rfl
    · exact h

theorem performs_accumulateAlong :
    Performs (accumulateAlong node component w a b)
      (accumulateWrites (fun x => decide (x ≠ 0)) node component w a b) := by
  have h : accumulateIf (fun x => decide (x ≠ 0)) node component w a b = accumulateAlong node component w a b := by
    funext J
    simp only [accumulateIf, accumulateAlong, decide_eq_true_eq]
  exact h ▸ performs_accumulateIf ..

variable {emits node component w a b}

theorem mem_accumulateWrites {v : Write D} (hv : v ∈ accumulateWrites emits node component w a b) :
    ∃ k ∈ intLoop a b, v.node = node k := by
  rw [accumulateWrites] at hv
  suffices h : ∀ (L : List ℤ) (x : ℚ) (done : List (Write D)),
      v ∈ (L.foldl (fun st k =>
        let accumulated_J := st.1 + w k
        (accumulated_J, if emits accumulated_J then st.2 ++ [⟨node k, component, accumulated_J⟩] else st.2))
          (x, done)).2 → v ∈ done ∨ ∃ k ∈ L, v.node = node k from (h _ _ _ hv).resolve_left List.not_mem_nil
  intro L
  induction L with
  | nil => intro x done h; exact .inl h
  | cons k L ih =>
    intro x done h
    rw [List.foldl_cons] at h
    rcases ih _ _ h with h | ⟨k', hk', hnode⟩
    · dsimp only at h
      split_ifs at h
      · rcases List.mem_append.mp h with h | h
        · exact .inl h
        · exact .inr ⟨k, List.mem_cons_self .., by rw [List.mem_singleton.mp h]⟩
      · exact .inl h
    · exact .inr ⟨k', List.mem_cons_of_mem _ hk', hnode⟩

end Accumulate

namespace Esirkepov

variable (S : Shape) (u : GridUnits)

def currentUpperMargin : ℤ := (S.support + 1) / 2 + 1

theorem three_le_three : 3 ≤ 3 := le_rfl

theorem two_le_three : 2 ≤ 3 := Nat.le_succ 2

def cptCurrent1DWrites (charge : ℚ) (cursorJ : Cursor 3) (line : Line 3) (cellEdgeLength : ℚ) : List (Write 3) :=
  (windowLoop S line 0).flatMap fun i => (windowLoop S line 1).flatMap fun j =>
    let tmp := S0 S line i 0 * S0 S line j 1 + 1 / 2 * DS S line i 0 * S0 S line j 1 +
      1 / 2 * S0 S line i 0 * DS S line j 1 + 1 / 3 * DS S line i 0 * DS S line j 1
    accumulateWrites (fun x => decide (x ≠ 0)) (fun k => cursorJ.node ![i, j, k]) (cursorJ.axes 2)
      (fun k => -charge * (1 / (u.cellVolume * u.deltaT)) * (DS S line k 2 * tmp) * cellEdgeLength)
      (windowBegin S + offset line 2) (windowEnd S + offset line 2)

theorem performs_cptCurrent1D (charge : ℚ) (cursorJ : Cursor 3) (line : Line 3) (cellEdgeLength : ℚ) :
    Performs (cptCurrent1D S u charge cursorJ line cellEdgeLength)
      (cptCurrent1DWrites S u charge cursorJ line cellEdgeLength) :=
  .foldl (fun _ => .foldl (fun _ => performs_accumulateAlong ..) _) _

def writes3 (pos velocity : Fin 3 → ℚ) (charge deltaTime : ℚ) : List (Write 3) :=
  let line := shiftedLine S (oldPos u three_le_three pos velocity deltaTime) pos
  let cursorJ := shiftedCursor S pos
  cptCurrent1DWrites S u charge (twistVectorFieldAxes axes120 cursorJ) (rotateOrigin axes120 line) (u.cellSize 0) ++
    cptCurrent1DWrites S u charge (twistVectorFieldAxes axes201 cursorJ) (rotateOrigin axes201 line) (u.cellSize 1) ++
    cptCurrent1DWrites S u charge cursorJ line (u.cellSize 2)

theorem performs_deposit3 (pos velocity : Fin 3 → ℚ) (charge deltaTime : ℚ) :
    Performs (fun J => deposit3 S u J pos velocity charge deltaTime) (writes3 S u pos velocity charge deltaTime) :=
  ((performs_cptCurrent1D ..).append (performs_cptCurrent1D ..)).append (performs_cptCurrent1D ..)

def cptCurrent1D2Writes (charge : ℚ) (cursorJ : Cursor 2) (line : Line 2) (cellEdgeLength : ℚ) : List (Write 2) :=
  (windowLoop S line 1).flatMap fun j =>
    let tmp := S0 S line j 1 + 1 / 2 * DS S line j 1
    accumulateWrites (fun x => decide (x ≠ 0)) (fun i => cursorJ.node ![i, j])
      (Fin.castLE two_le_three (cursorJ.axes 0))
      (fun i => -charge * (1 / (u.cellVolume * u.deltaT)) * (DS S line i 0 * tmp) * cellEdgeLength)
      (windowBegin S + offset line 0) (windowEnd S + offset line 0)

theorem performs_cptCurrent1D2 (charge : ℚ) (cursorJ : Cursor 2) (line : Line 2) (cellEdgeLength : ℚ) :
    Performs (cptCurrent1D2 S u charge cursorJ line cellEdgeLength)
      (cptCurrent1D2Writes S u charge cursorJ line cellEdgeLength) :=
  .foldl (fun _ => performs_accumulateAlong ..) _

def cptCurrentZWrites (charge : ℚ) (cursorJ : Cursor 2) (line : Line 2) (v_z : ℚ) : List (Write 2) :=
  (windowLoop S line 1).flatMap fun j => (windowLoop S line 0).flatMap fun i =>
    let W := S0 S line i 0 * S0 S line j 1 + 1 / 2 * DS S line i 0 * S0 S line j 1 +
      1 / 2 * S0 S line i 0 * DS S line j 1 + 1 / 3 * DS S line i 0 * DS S line j 1
    let j_z := charge * (1 / u.cellVolume) * W * v_z
    if j_z ≠ 0 then [⟨cursorJ.node ![i, j], 2, j_z⟩] else []

theorem performs_cptCurrentZ (charge : ℚ) (cursorJ : Cursor 2) (line : Line 2) (v_z : ℚ) :
    Performs (cptCurrentZ S u charge cursorJ line v_z) (cptCurrentZWrites S u charge cursorJ line v_z) := by
  refine .foldl (fun j => .foldl (fun i => ?_) _) _
  dsimp only
  split_ifs
  · exact .single ..
  · exact .nil

def writes2 (pos : Fin 2 → ℚ) (velocity : Fin 3 → ℚ) (charge deltaTime : ℚ) : List (Write 2) :=
  let line := shiftedLine S (oldPos u two_le_three pos velocity deltaTime) pos
  let cursorJ := shiftedCursor S pos
  cptCurrent1D2Writes S u charge cursorJ line (u.cellSize 0) ++
    cptCurrent1D2Writes S u charge (twistVectorFieldAxes axes10 cursorJ) (rotateOrigin axes10 line) (u.cellSize 1) ++
    cptCurrentZWrites S u charge cursorJ line (velocity 2)

theorem performs_deposit2 (pos : Fin 2 → ℚ) (velocity : Fin 3 → ℚ) (charge deltaTime : ℚ) :
    Performs (fun J => deposit2 S u J pos velocity charge deltaTime) (writes2 S u pos velocity charge deltaTime) :=
  ((performs_cptCurrent1D2 ..).append (performs_cptCurrent1D2 ..)).append (performs_cptCurrentZ ..)

section Margins

variable {D : ℕ} {pos : Fin D → ℚ} (hpos : ∀ d, 0 ≤ pos d ∧ pos d < 1)

/-- A node in the windows of the loops, which move along with the cursor. -/
def InWindows (oldPos pos : Fin D → ℚ) (n : DataSpace D) : Prop :=
  ∀ d, n d - coordinateShift S pos d ∈ windowLoop S (shiftedLine S oldPos pos) d

theorem node_inWindows (oldPos pos : Fin D → ℚ) (axes : Equiv.Perm (Fin D)) {jump : DataSpace D}
    (hjump : ∀ d, jump d ∈ windowLoop S (rotateOrigin axes (shiftedLine S oldPos pos)) d) :
    InWindows S oldPos pos ((twistVectorFieldAxes axes (shiftedCursor S pos)).node jump) := by
  intro e
  have hnode := ((twistVectorFieldAxes axes (shiftedCursor S pos)).eq_node_iff _ jump).mp rfl
  have hd := congrFun hnode (axes.symm e)
  have hwindow : jump (axes.symm e) ∈ windowLoop S (shiftedLine S oldPos pos) (axes (axes.symm e)) :=
    hjump (axes.symm e)
  rwa [hd, jump_shiftedCursor, Equiv.apply_symm_apply] at hwindow

include hpos

theorem coordinateShift_mem (d : Fin D) :
    0 ≤ coordinateShift S pos d ∧ coordinateShift S pos d ≤ (S.support % 2 : ℕ) := by
  unfold coordinateShift
  split_ifs with h
  · have h0 : 0 ≤ ⌊pos d * 2⌋ := Int.floor_nonneg.mpr (by linarith [(hpos d).1])
    have h1 : ⌊pos d * 2⌋ < 2 := Int.floor_lt.mpr (by push_cast; linarith [(hpos d).2])
    omega
  · omega

/-- The windows stay within the margins. -/
theorem InWindows.inMargin {oldPos : Fin D → ℚ} {n : DataSpace D} (hn : InWindows S oldPos pos n) :
    InMargin (currentLowerMargin S) (currentUpperMargin S) n := by
  intro d
  have hwindow := hn d
  have hshift := coordinateShift_mem S hpos d
  have hoffset : offset (shiftedLine S oldPos pos) d = 0 ∨ offset (shiftedLine S oldPos pos) d = 1 := by
    unfold offset
    split_ifs
    · exact .inr rfl
    · exact .inl rfl
  rw [windowLoop, mem_intLoop, Finset.mem_Ico] at hwindow
  simp only [windowEnd, windowBegin, currentLowerMargin, currentUpperMargin] at hwindow ⊢
  omega

end Margins

theorem inWindows_cptCurrent1DWrites (oldPos pos : Fin 3 → ℚ) (axes : Equiv.Perm (Fin 3)) (charge cellEdgeLength : ℚ)
    {v : Write 3} (hv : v ∈ cptCurrent1DWrites S u charge (twistVectorFieldAxes axes (shiftedCursor S pos))
      (rotateOrigin axes (shiftedLine S oldPos pos)) cellEdgeLength) : InWindows S oldPos pos v.node := by
  obtain ⟨i, hi, hv⟩ := List.mem_flatMap.mp hv
  obtain ⟨j, hj, hv⟩ := List.mem_flatMap.mp hv
  obtain ⟨k, hk, hnode⟩ := mem_accumulateWrites hv
  rw [hnode]
  refine node_inWindows S oldPos pos axes fun d => ?_
  fin_cases d
  · exact hi
  · exact hj
  · exact hk

theorem inWindows_writes3 {pos velocity : Fin 3 → ℚ} {charge deltaTime : ℚ} {v : Write 3}
    (hv : v ∈ writes3 S u pos velocity charge deltaTime) :
    InWindows S (oldPos u le_rfl pos velocity deltaTime) pos v.node := by
  rcases List.mem_append.mp hv with hv | hv
  · rcases List.mem_append.mp hv with hv | hv
    · exact inWindows_cptCurrent1DWrites S u _ _ axes120 charge _ hv
    · exact inWindows_cptCurrent1DWrites S u _ _ axes201 charge _ hv
  · exact inWindows_cptCurrent1DWrites S u _ _ 1 charge _ hv

theorem inWindows_cptCurrent1D2Writes (oldPos pos : Fin 2 → ℚ) (axes : Equiv.Perm (Fin 2)) (charge cellEdgeLength : ℚ)
    {v : Write 2} (hv : v ∈ cptCurrent1D2Writes S u charge (twistVectorFieldAxes axes (shiftedCursor S pos))
      (rotateOrigin axes (shiftedLine S oldPos pos)) cellEdgeLength) : InWindows S oldPos pos v.node := by
  obtain ⟨j, hj, hv⟩ := List.mem_flatMap.mp hv
  obtain ⟨i, hi, hnode⟩ := mem_accumulateWrites hv
  rw [hnode]
  refine node_inWindows S oldPos pos axes fun d => ?_
  fin_cases d
  · exact hi
  · exact hj

theorem inWindows_cptCurrentZWrites (oldPos pos : Fin 2 → ℚ) (charge v_z : ℚ) {v : Write 2}
    (hv : v ∈ cptCurrentZWrites S u charge (shiftedCursor S pos) (shiftedLine S oldPos pos) v_z) :
    InWindows S oldPos pos v.node := by
  obtain ⟨j, hj, hv⟩ := List.mem_flatMap.mp hv
  obtain ⟨i, hi, hv⟩ := List.mem_flatMap.mp hv
  dsimp only at hv
  split_ifs at hv
  · rw [List.mem_singleton.mp hv]
    refine node_inWindows S oldPos pos 1 fun d => ?_
    fin_cases d
    · exact hi
    · exact hj
  · exact absurd hv List.not_mem_nil

theorem inWindows_writes2 {pos : Fin 2 → ℚ} {velocity : Fin 3 → ℚ} {charge deltaTime : ℚ} {v : Write 2}
    (hv : v ∈ writes2 S u pos velocity charge deltaTime) :
    InWindows S (oldPos u (by decide) pos velocity deltaTime) pos v.node := by
  rcases List.mem_append.mp hv with hv | hv
  · rcases List.mem_append.mp hv with hv | hv
    · exact inWindows_cptCurrent1D2Writes S u _ _ 1 charge _ hv
    · exact inWindows_cptCurrent1D2Writes S u _ _ axes10 charge _ hv
  · exact inWindows_cptCurrentZWrites S u _ _ charge _ hv

end Esirkepov

namespace EsirkepovNative

open Esirkepov

variable (S : Shape) (u : GridUnits)

theorem performs_accumulate {D : ℕ} (node : ℤ → DataSpace D) (component : Fin 3) (w : ℤ → ℚ) (a b : ℤ) :
    Performs (accumulateAlong node component w a b) (accumulateWrites (fun _ => true) node component w a b) :=
  performs_accumulateIf (fun _ => true) node component w a b

def cptCurrent1DWrites (charge : ℚ) (cursorJ : Cursor 3) (line : Line 3) (cellEdgeLength : ℚ) : List (Write 3) :=
  (intLoop (loopBegin S) (loopEnd S)).flatMap fun i => (intLoop (loopBegin S) (loopEnd S)).flatMap fun j =>
    let tmp := S0 S line i 0 * S0 S line j 1 + 1 / 2 * DS S line i 0 * S0 S line j 1 +
      1 / 2 * S0 S line i 0 * DS S line j 1 + 1 / 3 * DS S line i 0 * DS S line j 1
    accumulateWrites (fun _ => true) (fun k => cursorJ.node ![i, j, k]) (cursorJ.axes 2)
      (fun k => -charge * (1 / (u.cellVolume * u.deltaT)) * (DS S line k 2 * tmp) * cellEdgeLength)
      (loopBegin S) (loopEnd S)

theorem performs_cptCurrent1D (charge : ℚ) (cursorJ : Cursor 3) (line : Line 3) (cellEdgeLength : ℚ) :
    Performs (cptCurrent1D S u charge cursorJ line cellEdgeLength)
      (cptCurrent1DWrites S u charge cursorJ line cellEdgeLength) :=
  .foldl (fun _ => .foldl (fun _ => performs_accumulate ..) _) _

def writes (pos velocity : Fin 3 → ℚ) (charge deltaTime : ℚ) : List (Write 3) :=
  let line : Line 3 := ⟨oldPos u simDim_le pos velocity deltaTime, pos⟩
  let cursorJ : Cursor 3 := ⟨0, 1⟩
  cptCurrent1DWrites S u charge (twistVectorFieldAxes axes120 cursorJ) (rotateOrigin axes120 line) (u.cellSize 0) ++
    cptCurrent1DWrites S u charge (twistVectorFieldAxes axes201 cursorJ) (rotateOrigin axes201 line) (u.cellSize 1) ++
    cptCurrent1DWrites S u charge cursorJ line (u.cellSize 2)

theorem performs_deposit (pos velocity : Fin 3 → ℚ) (charge deltaTime : ℚ) :
    Performs (fun J => deposit S u J pos velocity charge deltaTime) (writes S u pos velocity charge deltaTime) :=
  ((performs_cptCurrent1D ..).append (performs_cptCurrent1D ..)).append (performs_cptCurrent1D ..)

theorem inMargin_cptCurrent1DWrites (axes : Equiv.Perm (Fin 3)) (charge : ℚ) (line : Line 3) (cellEdgeLength : ℚ)
    {v : Write 3} (hv : v ∈ cptCurrent1DWrites S u charge (twistVectorFieldAxes axes ⟨0, 1⟩) line cellEdgeLength) :
    InMargin (currentLowerMargin S) (currentUpperMargin S) v.node := by
  obtain ⟨i, hi, hv⟩ := List.mem_flatMap.mp hv
  obtain ⟨j, hj, hv⟩ := List.mem_flatMap.mp hv
  obtain ⟨k, hk, hnode⟩ := mem_accumulateWrites hv
  have hjump : ∀ d, (![i, j, k] : DataSpace 3) d ∈ Finset.Ico (loopBegin S) (loopEnd S) := fun d => by
    fin_cases d
    · exact mem_intLoop.mp hi
    · exact mem_intLoop.mp hj
    · exact mem_intLoop.mp hk
  intro e
  have hmem := Finset.mem_Ico.mp (hjump ((twistVectorFieldAxes axes (⟨0, 1⟩ : Cursor 3)).axes.symm e))
  rw [hnode, Cursor.node, Pi.add_apply]
  simp only [loopBegin, loopEnd] at hmem
  simp only [twistVectorFieldAxes, Pi.zero_apply, zero_add] at hmem ⊢
  omega

theorem inMargin_writes {pos velocity : Fin 3 → ℚ} {charge deltaTime : ℚ} {v : Write 3}
    (hv : v ∈ writes S u pos velocity charge deltaTime) :
    InMargin (currentLowerMargin S) (currentUpperMargin S) v.node := by
  rcases List.mem_append.mp hv with hv | hv
  · rcases List.mem_append.mp hv with hv | hv
    · exact inMargin_cptCurrent1DWrites S u axes120 charge _ _ hv
    · exact inMargin_cptCurrent1DWrites S u axes201 charge _ _ hv
  · exact inMargin_cptCurrent1DWrites S u 1 charge _ _ hv

end EsirkepovNative

namespace ZigZag

variable {D : ℕ} (s : ContinuousShape) (u : GridUnits) (hD : D ≤ 3)

def currentLowerMargin : ℤ := s.shape.support / 2 + 1

def currentUpperMargin : ℤ := (s.shape.support + 1) / 2 + 1

def assignOneDirectionWrites (dir : Fin 3) (cursor : DataSpace D) (pos : Fin D → ℚ) (flux : Fin 3 → ℚ) :
    List (Write D) :=
  if flux dir = 0 then []
  else
    let shifted := ShiftCoordinateSystem.shift (supports s dir) (getJFieldPosition dir) cursor pos
    (allCombinations (gridPoints s dir)).flatMap fun gridPoint =>
      [⟨shifted.1 + gridPoint, dir,
        (List.finRange D).foldl (evalAssignmentFunctionOfDirection s dir gridPoint shifted.2) (flux dir)⟩]

theorem performs_assignOneDirection (dir : Fin 3) (cursor : DataSpace D) (pos : Fin D → ℚ) (flux : Fin 3 → ℚ) :
    Performs (assignOneDirection s dir cursor pos flux) (assignOneDirectionWrites s dir cursor pos flux) := by
  unfold assignOneDirection assignOneDirectionWrites
  split_ifs
  · exact .nil
  · exact .foldl (fun _ => .single ..) _

def depositPartWrites (parId : Fin 2) (I : DataSpace D) (pos relayPoint : Fin D → ℚ) (velocity : Fin 3 → ℚ)
    (charge deltaTime : ℚ) : List (Write D) :=
  let inCellPos := fun d => calc_InCellPos (pos d) (relayPoint d) (I d)
  let flux := partFlux u parId pos relayPoint velocity charge deltaTime
  (List.finRange 3).flatMap fun dir => assignOneDirectionWrites s dir I inCellPos flux

def writes (pos1 : Fin D → ℚ) (velocity : Fin 3 → ℚ) (charge deltaTime : ℚ) : List (Write D) :=
  let pos : Fin 2 → Fin D → ℚ := ![pos1 - deltaPos u hD velocity deltaTime, pos1]
  let I : Fin 2 → DataSpace D := fun l d => ⌊pos l d⌋
  let relayPoint := fun d => calc_relayPoint (I 0 d) (I 1 d) (pos 0 d) (pos 1 d)
  (List.finRange 2).flatMap fun parId =>
    depositPartWrites s u parId (I parId) (pos parId) relayPoint velocity charge deltaTime

theorem performs_deposit (pos : Fin D → ℚ) (velocity : Fin 3 → ℚ) (charge deltaTime : ℚ) :
    Performs (fun J => deposit s u hD J pos velocity charge deltaTime) (writes s u hD pos velocity charge deltaTime) :=
  .foldl (fun _ => .foldl (fun _ => performs_assignOneDirection ..) _) _

theorem mem_of_mem_allCombinations {ranges : Fin D → List ℤ} {g : DataSpace D} (hg : g ∈ allCombinations ranges)
    (d : Fin D) : g d ∈ ranges d := by
  induction D with
  | zero => exact d.elim0
  | succ D ih =>
    obtain ⟨x, hx, hg⟩ := List.mem_flatMap.mp hg
    obtain ⟨g', hg', rfl⟩ := List.mem_map.mp hg
    refine Fin.lastCases ?_ (fun e => ?_) d
    · rwa [Fin.snoc_last]
    · rw [Fin.snoc_castSucc]
      exact ih hg' e

/-- A position in the cell of the cursor, which is the cell of the particle or one next to it. -/
theorem inMargin_assignOneDirectionWrites (dir : Fin 3) {cursor : DataSpace D} {pos : Fin D → ℚ} {flux : Fin 3 → ℚ}
    (hcursor : ∀ d, -1 ≤ cursor d ∧ cursor d ≤ 1) (hpos : ∀ d, 0 ≤ pos d ∧ pos d < 1) {v : Write D}
    (hv : v ∈ assignOneDirectionWrites s dir cursor pos flux) :
    InMargin (currentLowerMargin s) (currentUpperMargin s) v.node := by
  unfold assignOneDirectionWrites at hv
  split_ifs at hv
  · exact absurd hv List.not_mem_nil
  obtain ⟨gridPoint, hgrid, hv⟩ := List.mem_flatMap.mp hv
  rw [List.mem_singleton.mp hv]
  intro d
  have hpoint := mem_of_mem_allCombinations hgrid d
  rw [gridPoints, Esirkepov.mem_intLoop, Finset.mem_Ico, gridBegin_eq] at hpoint
  have hfield : (0 : ℚ) ≤ getJFieldPosition dir d ∧ (getJFieldPosition dir d : ℚ) ≤ 1 / 2 := by
    unfold getJFieldPosition
    split_ifs <;> norm_num
  have hoffset := ShiftCoordinateSystem.getOffset_mem (supports s dir d) (v := pos d - getJFieldPosition dir d)
    (by linarith [(hpos d).1]) (by linarith [(hpos d).2])
  have hc := hcursor d
  have hsupport : supports s dir d = s.shape.support ∨ supports s dir d + 1 = s.shape.support := by
    have : 0 < s.shape.support := by cases s <;> decide
    unfold supports
    split_ifs <;> omega
  simp only [ShiftCoordinateSystem.shift_eq, Pi.add_apply, ShiftCoordinateSystem.offset, currentLowerMargin,
    currentUpperMargin]
  omega

theorem inMargin_writes {velocity : Fin 3 → ℚ} {pos1 : Fin D → ℚ} {charge deltaTime : ℚ}
    (hpos : ∀ d, 0 ≤ pos1 d ∧ pos1 d < 1) (hdelta : ∀ d, |deltaPos u hD velocity deltaTime d| < 1) {v : Write D}
    (hv : v ∈ writes s u hD pos1 velocity charge deltaTime) :
    InMargin (currentLowerMargin s) (currentUpperMargin s) v.node := by
  set old := pos1 - deltaPos u hD velocity deltaTime with hold
  have hmoved : ∀ d, |pos1 d - old d| < 1 := fun d => by simpa [hold] using hdelta d
  obtain ⟨hin0, hin1⟩ := inCell_parts hpos hmoved
  have hcursor : ∀ (parId : Fin 2) (d : Fin D), -1 ≤ ⌊(![old, pos1] : Fin 2 → Fin D → ℚ) parId d⌋ ∧
      ⌊(![old, pos1] : Fin 2 → Fin D → ℚ) parId d⌋ ≤ 1 := by
    intro parId d
    obtain ⟨h1, h2⟩ := floor_cases (hpos d).1 (hpos d).2 (hmoved d)
    fin_cases parId
    · change -1 ≤ ⌊old d⌋ ∧ ⌊old d⌋ ≤ 1
      omega
    · change -1 ≤ ⌊pos1 d⌋ ∧ ⌊pos1 d⌋ ≤ 1
      omega
  obtain ⟨parId, -, hv⟩ := List.mem_flatMap.mp hv
  obtain ⟨dir, -, hv⟩ := List.mem_flatMap.mp hv
  refine inMargin_assignOneDirectionWrites s dir (hcursor parId) (fun d => ?_) hv
  fin_cases parId
  · exact hin0.inCellPos_mem d
  · exact hin1.inCellPos_mem d

end ZigZag

namespace VillaBune

variable (u : GridUnits)

def lowerMargin : ℤ := 1

def upperMargin : ℤ := 2

def singleCellWrites (meanPos deltaPos : Fin 3 → ℚ) (charge deltaTime : ℚ) : List (Write 3) :=
  let off : DataSpace 3 := fun d => ⌊meanPos d⌋
  let mx := meanPos 0 - ⌊meanPos 0⌋
  let my := meanPos 1 - ⌊meanPos 1⌋
  let mz := meanPos 2 - ⌊meanPos 2⌋
  let tmp := deltaPos 0 * deltaPos 1 * deltaPos 2 * (1 / 12)
  let rho_dtX := charge * (1 / (u.cellSize 1 * u.cellSize 2 * deltaTime))
  let rho_dtY := charge * (1 / (u.cellSize 0 * u.cellSize 2 * deltaTime))
  let rho_dtZ := charge * (1 / (u.cellSize 0 * u.cellSize 1 * deltaTime))
  [⟨off + ![0, 1, 1], 0, rho_dtX * (deltaPos 0 * my * mz + tmp)⟩,
    ⟨off + ![0, 0, 1], 0, rho_dtX * (deltaPos 0 * (1 - my) * mz - tmp)⟩,
    ⟨off + ![0, 1, 0], 0, rho_dtX * (deltaPos 0 * my * (1 - mz) - tmp)⟩,
    ⟨off + ![0, 0, 0], 0, rho_dtX * (deltaPos 0 * (1 - my) * (1 - mz) + tmp)⟩,
    ⟨off + ![1, 0, 1], 1, rho_dtY * (deltaPos 1 * mz * mx + tmp)⟩,
    ⟨off + ![1, 0, 0], 1, rho_dtY * (deltaPos 1 * (1 - mz) * mx - tmp)⟩,
    ⟨off + ![0, 0, 1], 1, rho_dtY * (deltaPos 1 * mz * (1 - mx) - tmp)⟩,
    ⟨off + ![0, 0, 0], 1, rho_dtY * (deltaPos 1 * (1 - mz) * (1 - mx) + tmp)⟩,
    ⟨off + ![1, 1, 0], 2, rho_dtZ * (deltaPos 2 * mx * my + tmp)⟩,
    ⟨off + ![0, 1, 0], 2, rho_dtZ * (deltaPos 2 * (1 - mx) * my - tmp)⟩,
    ⟨off + ![1, 0, 0], 2, rho_dtZ * (deltaPos 2 * mx * (1 - my) - tmp)⟩,
    ⟨off + ![0, 0, 0], 2, rho_dtZ * (deltaPos 2 * (1 - mx) * (1 - my) + tmp)⟩]

theorem performs_singleCell (meanPos deltaPos : Fin 3 → ℚ) (charge deltaTime : ℚ) :
    Performs (fun J => addCurrentToSingleCell u meanPos deltaPos charge J deltaTime)
      (singleCellWrites u meanPos deltaPos charge deltaTime) :=
  ⟨fun _ => rfl⟩

/-- The additions of the solver, which never splits a segment. -/
def writes (pos velocity : Fin 3 → ℚ) (charge deltaTime : ℚ) : List (Write 3) :=
  let old := oldPos u pos velocity deltaTime
  let deltaPos := fun d => pos d - old d
  singleCellWrites u (fun d => old d + 1 / 2 * deltaPos d) deltaPos charge deltaTime

theorem performs_deposit (pos velocity : Fin 3 → ℚ) (charge deltaTime : ℚ) :
    Performs (fun J => deposit u J pos velocity charge deltaTime) (writes u pos velocity charge deltaTime) where
  eq_foldl J := by
    rw [deposit_eq]
    exact (performs_singleCell ..).eq_foldl J

theorem inMargin_singleCellWrites {meanPos deltaPos : Fin 3 → ℚ} {charge deltaTime : ℚ}
    (hmean : ∀ d, -1 ≤ meanPos d ∧ meanPos d < 2) {v : Write 3}
    (hv : v ∈ singleCellWrites u meanPos deltaPos charge deltaTime) :
    InMargin lowerMargin upperMargin v.node := by
  have hcorner : ∃ corner : DataSpace 3, (∀ d, 0 ≤ corner d ∧ corner d ≤ 1) ∧
      v.node = (fun d => ⌊meanPos d⌋) + corner := by
    simp only [singleCellWrites, List.mem_cons, List.not_mem_nil, or_false] at hv
    rcases hv with rfl | rfl | rfl | rfl | rfl | rfl | rfl | rfl | rfl | rfl | rfl | rfl <;>
      exact ⟨_, by decide, rfl⟩
  obtain ⟨corner, hcorner, hnode⟩ := hcorner
  intro d
  have hc := hcorner d
  have h0 : -1 ≤ ⌊meanPos d⌋ := Int.le_floor.mpr (by push_cast; exact (hmean d).1)
  have h1 : ⌊meanPos d⌋ < 2 := Int.floor_lt.mpr (by push_cast; exact (hmean d).2)
  rw [hnode, Pi.add_apply]
  unfold lowerMargin upperMargin
  omega

theorem inMargin_writes {pos velocity : Fin 3 → ℚ} {charge deltaTime : ℚ} (hpos : ∀ d, 0 ≤ pos d ∧ pos d < 1)
    (hdelta : ∀ d, |velocity d * deltaTime / u.cellSize d| < 1) {v : Write 3}
    (hv : v ∈ writes u pos velocity charge deltaTime) : InMargin lowerMargin upperMargin v.node := by
  unfold writes at hv
  refine inMargin_singleCellWrites u (fun d => ?_) hv
  obtain ⟨h0, h1⟩ := hpos d
  obtain ⟨h2, h3⟩ := abs_lt.mp (hdelta d)
  dsimp only [oldPos]
  constructor <;> linarith

end VillaBune

/-- A deposit is the given sequence of additions. They are within the margins, seen from the cell of the
particle, and within the cache of the block, for every cell of every supercell. -/
structure DepositsWithin {D : ℕ} (lower upper : ℤ) (f : FieldJ D → FieldJ D) (writes : List (Write D)) : Prop where
  performs : Performs f writes
  inMargin : ∀ w ∈ writes, InMargin lower upper w.node
  inCache : ∀ w ∈ writes, ∀ (superCellSize : DataSpace D), ∀ cell ∈ launchBox superCellSize, ∀ d,
    -lower ≤ (cell + w.node) d ∧ (cell + w.node) d < superCellSize d + upper

theorem DepositsWithin.of_inMargin {D : ℕ} {lower upper : ℤ} {f : FieldJ D → FieldJ D} {writes : List (Write D)}
    (hf : Performs f writes) (h : ∀ w ∈ writes, InMargin lower upper w.node) : DepositsWithin lower upper f writes := by
  refine ⟨hf, h, fun w hw superCellSize cell hcell d => ?_⟩
  have h1 := h w hw d
  have h2 := hcell d
  rw [Pi.add_apply]
  omega

/-- All solvers write within their margins, for every shape, position and displacement. -/
theorem deposits_within_margins (u : GridUnits) (velocity : Fin 3 → ℚ) (charge deltaTime : ℚ) :
    (∀ (S : Shape) (pos : Fin 3 → ℚ), (∀ d, 0 ≤ pos d ∧ pos d < 1) →
      (∀ d, |velocity d * deltaTime / u.cellSize d| < 1) →
      DepositsWithin (Esirkepov.currentLowerMargin S) (Esirkepov.currentUpperMargin S)
        (fun J => Esirkepov.deposit3 S u J pos velocity charge deltaTime)
        (Esirkepov.writes3 S u pos velocity charge deltaTime) ∧
      DepositsWithin (EsirkepovNative.currentLowerMargin S) (EsirkepovNative.currentUpperMargin S)
        (fun J => EsirkepovNative.deposit S u J pos velocity charge deltaTime)
        (EsirkepovNative.writes S u pos velocity charge deltaTime)) ∧
    (∀ (S : Shape) (pos : Fin 2 → ℚ), (∀ d, 0 ≤ pos d ∧ pos d < 1) →
      (∀ d : Fin 2, |velocity (Fin.castLE (by decide) d) * deltaTime / u.cellSize (Fin.castLE (by decide) d)| < 1) →
      DepositsWithin (Esirkepov.currentLowerMargin S) (Esirkepov.currentUpperMargin S)
        (fun J => Esirkepov.deposit2 S u J pos velocity charge deltaTime)
        (Esirkepov.writes2 S u pos velocity charge deltaTime)) ∧
    (∀ (s : ContinuousShape) {D : ℕ} (hD : D ≤ 3) (pos : Fin D → ℚ), (∀ d, 0 ≤ pos d ∧ pos d < 1) →
      (∀ d : Fin D, |velocity (Fin.castLE hD d) * deltaTime / u.cellSize (Fin.castLE hD d)| < 1) →
      DepositsWithin (ZigZag.currentLowerMargin s) (ZigZag.currentUpperMargin s)
        (fun J => ZigZag.deposit s u hD J pos velocity charge deltaTime)
        (ZigZag.writes s u hD pos velocity charge deltaTime)) ∧
    ∀ pos : Fin 3 → ℚ, (∀ d, 0 ≤ pos d ∧ pos d < 1) → (∀ d, |velocity d * deltaTime / u.cellSize d| < 1) →
      DepositsWithin VillaBune.lowerMargin VillaBune.upperMargin
        (fun J => VillaBune.deposit u J pos velocity charge deltaTime)
        (VillaBune.writes u pos velocity charge deltaTime) := by
  refine ⟨fun S pos hpos _ => ⟨?_, ?_⟩, fun S pos hpos _ => ?_, fun s D hD pos hpos hdelta => ?_,
    fun pos hpos hdelta => ?_⟩
  · exact .of_inMargin (Esirkepov.performs_deposit3 ..) fun w hw => (Esirkepov.inWindows_writes3 S u hw).inMargin S hpos
  · exact .of_inMargin (EsirkepovNative.performs_deposit ..) fun w hw => EsirkepovNative.inMargin_writes S u hw
  · exact .of_inMargin (Esirkepov.performs_deposit2 ..) fun w hw => (Esirkepov.inWindows_writes2 S u hw).inMargin S hpos
  · exact .of_inMargin (ZigZag.performs_deposit ..) fun w hw => ZigZag.inMargin_writes s u hD hpos hdelta hw
  · exact .of_inMargin (VillaBune.performs_deposit ..) fun w hw => VillaBune.inMargin_writes u hpos hdelta hw

/-- The widest shape, a step over two faces of the cell to lower coordinates. -/
theorem deposits_within_margins_P4S :
    (∀ d, 0 ≤ (![1 / 2, 0, 3 / 4] : Fin 3 → ℚ) d ∧ (![1 / 2, 0, 3 / 4] : Fin 3 → ℚ) d < 1) ∧
    (∀ d, |(![-3 / 4, -1 / 2, 1 / 3] : Fin 3 → ℚ) d * 1 / 1| < 1) ∧
    ∀ w ∈ Esirkepov.writes3 ContinuousShape.P4S.shape ⟨fun _ => 1, 1, fun _ => one_pos, one_pos⟩ ![1 / 2, 0, 3 / 4]
      ![-3 / 4, -1 / 2, 1 / 3] 2 1, InMargin 3 4 w.node := by
  have hpos : ∀ d, 0 ≤ (![1 / 2, 0, 3 / 4] : Fin 3 → ℚ) d ∧ (![1 / 2, 0, 3 / 4] : Fin 3 → ℚ) d < 1 := by
    decide +kernel
  have hdelta : ∀ d, |(![-3 / 4, -1 / 2, 1 / 3] : Fin 3 → ℚ) d * 1 / 1| < 1 := by
    intro d
    fin_cases d <;> norm_num [abs_lt]
  exact ⟨hpos, hdelta, ((deposits_within_margins ⟨fun _ => 1, 1, fun _ => one_pos, one_pos⟩ ![-3 / 4, -1 / 2, 1 / 3]
    2 1).1 ContinuousShape.P4S.shape ![1 / 2, 0, 3 / 4] hpos hdelta).1.inMargin⟩

end PIConGPU
