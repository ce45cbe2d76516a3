import PIConGPU.SupercellContents

/-!
# KernelShiftParticles

One block moves the marked particles of its supercell into the frame lists of the neighbours.
A particle with `multiMask = m ≥ 2` leaves in direction `m - 2`, whose destination is the neighbour
in the exchange direction `m - 1`. The order in which the threads reach the atomic counter is
a permutation, one for every frame of the supercell.
-/
namespace PIConGPU

structure ShiftBlock (D T : ℕ) (α : Type*) where
  box : ParticlesBox D T α
  destFrames : ℕ → Option Ptr
  destFramesCounter : ℕ → ℕ
  isNeighborFrame : ℕ → Bool

namespace KernelShiftParticles

open BlockThreads ParticlesBox

variable {D T : ℕ} {α : Type*}

def relative (superCellIdx : DataSpace D) (j : ℕ) : DataSpace D :=
  superCellIdx + getRelativeDirections D (j + 1)

def direction (multiMask : ℕ) : Option ℕ := if 2 ≤ multiMask then some (multiMask - 2) else none

/-- Particles go behind the last frame of the destination if that frame has free slots. -/
def usesLastFrame (box : ParticlesBox D T α) (superCellIdx : DataSpace D) (j : ℕ) : Bool :=
  (box.lastFramePtr (relative superCellIdx j)).isSome &&
    box.sizeLastFrame (relative superCellIdx j) != T

def init (box : ParticlesBox D T α) (superCellIdx : DataSpace D) : ShiftBlock D T α where
  box := box
  destFrames j :=
    if usesLastFrame box superCellIdx j then box.lastFramePtr (relative superCellIdx j) else none
  destFramesCounter j :=
    if usesLastFrame box superCellIdx j then box.sizeLastFrame (relative superCellIdx j) else 0
  isNeighborFrame j := usesLastFrame box superCellIdx j

/-- A direction with particles but no frame gets an empty one. -/
def allocate (M : MallocMC) (st : ShiftBlock D T α) (j : ℕ) : ShiftBlock D T α :=
  if 0 < st.destFramesCounter j ∧ st.destFrames j = none then
    { st with
      box := (st.box.getEmptyFrame M).2
      destFrames := Function.update st.destFrames j (st.box.getEmptyFrame M).1 }
  else st

/-- The threads with a target, a direction and a slot, copy their particle of `frame` there. A null
destination or a slot outside of the frame is an error. -/
def copy (σ : Equiv.Perm (Fin T)) (frame : Ptr) (target : Fin T → Option (ℕ × ℕ)) (st : ShiftBlock D T α) :
    Option (ShiftBlock D T α) :=
  if ∀ t, ∀ a ∈ target t, (st.destFrames a.1).isSome = true ∧ a.2 < T then
    let dest : Fin T → Option (Ptr × Fin T) := fun t => (target t).bind fun a =>
      (st.destFrames a.1).bind fun p => if h : a.2 < T then some (p, ⟨a.2, h⟩) else none
    some { st with box := st.box.store (threadOrder σ) dest (st.box.attributes frame) }
  else none

/-- A full frame goes to the destination: the last frame of a list is there already, a new frame
becomes the first one. -/
def handOver (superCellIdx : DataSpace D) (st : ShiftBlock D T α) (j : ℕ) : Option (ParticlesBox D T α) :=
  if st.isNeighborFrame j then some (st.box.setSizeLastFrame (relative superCellIdx j) T)
  else (st.destFrames j).map fun frame => st.box.setAsFirstFrame frame (relative superCellIdx j)

/-- Hand a full frame over and start a new one for the particles that are left. -/
def flush (M : MallocMC) (superCellIdx : DataSpace D) (st : ShiftBlock D T α) (j : ℕ) :
    Option (ShiftBlock D T α) :=
  if T ≤ st.destFramesCounter j then
    let counter := st.destFramesCounter j - T
    (handOver superCellIdx st j).map fun box =>
      let new := if 0 < counter then box.getEmptyFrame M else (none, box)
      { box := new.2
        destFrames := Function.update st.destFrames j new.1
        destFramesCounter := Function.update st.destFramesCounter j counter
        isNeighborFrame := Function.update st.isNeighborFrame j false }
  else some st

def drawn (σ : Equiv.Perm (Fin T)) (frame : Ptr) (st : ShiftBlock D T α) : (ℕ → ℕ) × (Fin T → ℕ) :=
  fetchAddAll (fun t => direction (st.box.multiMask frame t)) (threadOrder σ) st.destFramesCounter

def destParticleIdx (σ : Equiv.Perm (Fin T)) (frame : Ptr) (st : ShiftBlock D T α) (t : Fin T) : ℕ :=
  (drawn σ frame st).2 t % 65536

/-- The marked particles are deleted from the source frame; they are copied without their mask. -/
def deleteMarked (σ : Equiv.Perm (Fin T)) (frame : Ptr) (st : ShiftBlock D T α) : ShiftBlock D T α :=
  { st with
    box := { st.box with multiMask := Function.update st.box.multiMask frame fun t =>
      if 2 ≤ st.box.multiMask frame t then 0 else st.box.multiMask frame t }
    destFramesCounter := (drawn σ frame st).1 }

/-- One source frame. If a destination overflows, the first copy completes the full frames and
the second one goes to the frames that replace them. -/
def shiftFrame (M : MallocMC) (superCellIdx : DataSpace D) (σ : Equiv.Perm (Fin T)) (frame : Ptr)
    (st : ShiftBlock D T α) : Option (ShiftBlock D T α) :=
  if ∀ t, st.box.multiMask frame t < numberOfExchanges D + 2 then
    let dir : Fin T → Option ℕ := fun t => direction (st.box.multiMask frame t)
    let idx := destParticleIdx σ frame st
    let anyDestFrameFull : Bool := decide (∃ t, (dir t).isSome = true ∧ T ≤ idx t)
    let st := (List.range (numberOfExchanges D)).foldl (allocate M) (deleteMarked σ frame st)
    if anyDestFrameFull then do
      let st ← copy σ frame (fun t => (dir t).bind fun d => if idx t < T then some (d, idx t) else none) st
      let st ← (List.range (numberOfExchanges D)).foldlM (flush M superCellIdx) st
      copy σ frame (fun t => (dir t).bind fun d => if T ≤ idx t then some (d, idx t - T) else none) st
    else
      copy σ frame (fun t => (dir t).map fun d => (d, idx t)) st
  else none

/-- The loop over the source frames, with a bound on their number. -/
def shiftFrames (M : MallocMC) (superCellIdx : DataSpace D) (order : ℕ → Equiv.Perm (Fin T)) :
    ℕ → Ptr → ShiftBlock D T α → Option (ShiftBlock D T α)
  | 0, _, _ => none
  | n + 1, frame, st => do
    let st ← shiftFrame M superCellIdx (order n) frame st
    match st.box.nextFrame frame with
    | none => some st
    | some next => shiftFrames M superCellIdx order n next st

/-- What happens to the frame in work of direction `j` after the loop: it goes to the end of
the destination unless it is there already. -/
def finish (superCellIdx : DataSpace D) (st : ShiftBlock D T α) (box : ParticlesBox D T α) (j : ℕ) :
    Option (ParticlesBox D T α) :=
  if 0 < st.destFramesCounter j then
    (if st.isNeighborFrame j then some box
      else (st.destFrames j).map fun frame => box.setAsLastFrame frame (relative superCellIdx j)).map
      fun box => box.setSizeLastFrame (relative superCellIdx j) (st.destFramesCounter j)
  else
    match st.destFrames j with
    | some frame => some (if st.isNeighborFrame j then box else box.removeFrame frame)
    | none => some box

/-- The kernel on one supercell. -/
def block (M : MallocMC) (order : ℕ → Equiv.Perm (Fin T)) (box : ParticlesBox D T α)
    (superCellIdx : DataSpace D) : Option (ParticlesBox D T α) :=
  if box.mustShift superCellIdx then
    let box := box.setMustShift superCellIdx false
    match box.firstFramePtr superCellIdx with
    | none => some box
    | some frame => do
      let st ← shiftFrames M superCellIdx order box.allocated.card frame (init box superCellIdx)
      (List.range (numberOfExchanges D)).foldlM (finish superCellIdx st) st.box
  else some box

theorem relative_inj {c : DataSpace D} {i j : ℕ} (hi : i < numberOfExchanges D)
    (hj : j < numberOfExchanges D) (h : relative c i = relative c j) : i = j := by
  have hmod := mod_eq_of_getRelativeDirections_eq (add_left_cancel h)
  unfold numberOfExchanges at hi hj
  rcases Nat.lt_or_ge (i + 1) (3^D) with hi' | hi' <;> rcases Nat.lt_or_ge (j + 1) (3^D) with hj' | hj'
  · rw [Nat.mod_eq_of_lt hi', Nat.mod_eq_of_lt hj'] at hmod
    omega
  · rw [Nat.mod_eq_of_lt hi', show j + 1 = 3^D by omega, Nat.mod_self] at hmod
    omega
  · rw [Nat.mod_eq_of_lt hj', show i + 1 = 3^D by omega, Nat.mod_self] at hmod
    omega
  · omega

/-- The last entry of the shared arrays stands for the supercell itself. -/
theorem relative_own (c : DataSpace D) : relative c (numberOfExchanges D - 1) = c := by
  have hpos : 0 < 3^D := by positivity
  funext d
  have hdvd : 3^(d.val + 1) ∣ 3^D := pow_dvd_pow 3 d.isLt
  obtain ⟨q, hq⟩ := hdvd
  have hdigit : 3^D / 3^d.val % 3 = 0 := by
    rw [hq, pow_succ, mul_assoc, Nat.mul_div_cancel_left _ (by positivity)]
    exact Nat.mul_mod_right 3 q
  simp [relative, numberOfExchanges, getRelativeDirections, Nat.sub_add_cancel hpos, hdigit, digitOffset]

theorem relative_ne_own (c : DataSpace D) {j : ℕ} (hj : j + 1 < numberOfExchanges D) : relative c j ≠ c := by
  intro he
  have := relative_inj (c := c) (i := j) (j := numberOfExchanges D - 1) (by omega) (by omega)
    (by rw [he, relative_own])
  omega

end KernelShiftParticles

end PIConGPU
