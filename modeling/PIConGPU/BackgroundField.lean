import PIConGPU.Mask

/-!
# Background fields and restarts

A background field that acts on the particle pusher is added to the fields at the start of a time step, is
visible in all output of this step, and is removed after the particles were pushed. The moving window is
off, so that cells keep their place in the domain.
-/
namespace PIConGPU

structure FieldBackground (D : ℕ) (V : Type*) where
  value : DataSpace D → ℕ → V
  influenceParticlePusher : Bool

@[ext]
structure SimulationState (D : ℕ) (V R : Type*) where
  fieldE : DataSpace D → V
  fieldB : DataSpace D → V
  rest : R

/-- The parts of a time step around the background are arbitrary: `updateParticles` stands for ionization
and the particle pusher, `updateFields` for the field solver and the currents. -/
structure MySimulation (D : ℕ) (V R : Type*) where
  fieldBackgroundE : FieldBackground D V
  fieldBackgroundB : FieldBackground D V
  totalCellOffset : DataSpace D
  updateParticles : ℕ → SimulationState D V R → R
  updateFields : ℕ → SimulationState D V R → SimulationState D V R

variable {D : ℕ} {V R : Type*}

def cellwiseOperation (field : DataSpace D → V) (opFunctor : V → V → V) (valFunctor : DataSpace D → ℕ → V)
    (totalCellOffset : DataSpace D) (currentStep : ℕ) (enabled : Bool) : DataSpace D → V :=
  if !enabled then field
  else fun cell => opFunctor (field cell) (valFunctor (cell + totalCellOffset) currentStep)

namespace MySimulation

variable [AddCommGroup V] (sim : MySimulation D V R)

def pushBGField (opFunctor : V → V → V) (currentStep : ℕ) (s : SimulationState D V R) : SimulationState D V R :=
  { s with
    fieldE := cellwiseOperation s.fieldE opFunctor sim.fieldBackgroundE.value sim.totalCellOffset currentStep
      sim.fieldBackgroundE.influenceParticlePusher
    fieldB := cellwiseOperation s.fieldB opFunctor sim.fieldBackgroundB.value sim.totalCellOffset currentStep
      sim.fieldBackgroundB.influenceParticlePusher }

def movingWindowCheck (currentStep : ℕ) (s : SimulationState D V R) : SimulationState D V R :=
  sim.pushBGField (· + ·) currentStep s

def runOneStep (currentStep : ℕ) (s : SimulationState D V R) : SimulationState D V R :=
  let s := { s with rest := sim.updateParticles currentStep s }
  sim.updateFields currentStep (sim.pushBGField (· - ·) currentStep s)

/-- The state that was loaded, or the initial one, without its background; and the first step. -/
def init (loaded : SimulationState D V R) (restartStep : Option ℕ) : SimulationState D V R × ℕ :=
  let step := match restartStep with
    | some restartStep => restartStep + 1
    | none => 0
  (if step ≠ 0 then sim.pushBGField (· - ·) step loaded else loaded, step)

def beforeLoop (loaded : SimulationState D V R) (restartStep : Option ℕ) : SimulationState D V R × ℕ :=
  let (s, currentStep) := sim.init loaded restartStep
  if currentStep = 0 then (sim.movingWindowCheck currentStep s, currentStep)
  else (sim.movingWindowCheck (currentStep - 1) s, currentStep - 1)

def round (st : SimulationState D V R × ℕ) : SimulationState D V R × ℕ :=
  (sim.movingWindowCheck (st.2 + 1) (sim.runOneStep st.2 st.1), st.2 + 1)

/-- What is dumped after `k` rounds, and its step. -/
def startSimulation (loaded : SimulationState D V R) (restartStep : Option ℕ) (k : ℕ) :
    SimulationState D V R × ℕ :=
  sim.round^[k] (sim.beforeLoop loaded restartStep)

def restarted (initial : SimulationState D V R) (n k : ℕ) : SimulationState D V R × ℕ :=
  sim.startSimulation (sim.startSimulation initial none n).1 (some n) k

variable {sim}

theorem startSimulation_step (initial : SimulationState D V R) (k : ℕ) :
    (sim.startSimulation initial none k).2 = k := by
  induction k with
  | zero => rfl
  | succ k ih =>
    rw [startSimulation, Function.iterate_succ_apply']
    exact congrArg (· + 1) ih

theorem startSimulation_add (initial : SimulationState D V R) (n k : ℕ) :
    sim.startSimulation initial none (n + k) = sim.round^[k] (sim.startSimulation initial none n) := by
  rw [startSimulation, Nat.add_comm, Function.iterate_add_apply]
  rfl

/-- A restart removes the background of the step after the checkpoint and adds the one of the checkpoint. -/
theorem beforeLoop_restart (s : SimulationState D V R) (n : ℕ) :
    sim.beforeLoop s (some n) =
      (sim.movingWindowCheck n (sim.pushBGField (· - ·) (n + 1) s), n) := by
  simp [beforeLoop, init]

section Cell

variable (field : DataSpace D → V) (background : FieldBackground D V) (offset cell : DataSpace D) (m n : ℕ)

theorem sub_add_cell : cellwiseOperation (cellwiseOperation field (· - ·) background.value offset m
      background.influenceParticlePusher) (· + ·) background.value offset n
      background.influenceParticlePusher cell = field cell ↔
    (background.influenceParticlePusher = true →
      background.value (cell + offset) m = background.value (cell + offset) n) := by
  cases background.influenceParticlePusher with
  | false => simp [cellwiseOperation]
  | true =>
    simp only [cellwiseOperation, Bool.not_true, Bool.false_eq_true, if_false, forall_const]
    rw [sub_add, sub_eq_self, sub_eq_zero]

end Cell

variable (sim) in
/-- The background of a cell is the same in two steps, as far as it acts on the pusher. -/
def Steady (cell : DataSpace D) (m n : ℕ) (background : FieldBackground D V) : Prop :=
  background.influenceParticlePusher = true →
    background.value (cell + sim.totalCellOffset) m = background.value (cell + sim.totalCellOffset) n

theorem movingWindowCheck_pushBGField_fieldE (s : SimulationState D V R) (n : ℕ) (cell : DataSpace D) :
    (sim.movingWindowCheck n (sim.pushBGField (· - ·) (n + 1) s)).fieldE cell = s.fieldE cell ↔
      sim.Steady cell (n + 1) n sim.fieldBackgroundE :=
  sub_add_cell _ sim.fieldBackgroundE sim.totalCellOffset cell (n + 1) n

theorem movingWindowCheck_pushBGField_fieldB (s : SimulationState D V R) (n : ℕ) (cell : DataSpace D) :
    (sim.movingWindowCheck n (sim.pushBGField (· - ·) (n + 1) s)).fieldB cell = s.fieldB cell ↔
      sim.Steady cell (n + 1) n sim.fieldBackgroundB :=
  sub_add_cell _ sim.fieldBackgroundB sim.totalCellOffset cell (n + 1) n

theorem movingWindowCheck_pushBGField_iff (s : SimulationState D V R) (n : ℕ) :
    sim.movingWindowCheck n (sim.pushBGField (· - ·) (n + 1) s) = s ↔
      ∀ cell, sim.Steady cell (n + 1) n sim.fieldBackgroundE ∧ sim.Steady cell (n + 1) n sim.fieldBackgroundB := by
  constructor
  · intro h cell
    rw [← movingWindowCheck_pushBGField_fieldE s, ← movingWindowCheck_pushBGField_fieldB s, h]
    exact ⟨rfl, rfl⟩
  · intro h
    have hE := funext fun cell => (movingWindowCheck_pushBGField_fieldE s n cell).mpr (h cell).1
    have hB := funext fun cell => (movingWindowCheck_pushBGField_fieldB s n cell).mpr (h cell).2
    exact SimulationState.ext hE hB rfl

theorem restarted_zero (initial : SimulationState D V R) (n : ℕ) : (sim.restarted initial n 0).1 =
    sim.movingWindowCheck n (sim.pushBGField (· - ·) (n + 1) (sim.startSimulation initial none n).1) := by
  change (sim.beforeLoop _ (some n)).1 = _
  rw [beforeLoop_restart]

theorem restarted_zero_fieldE (initial : SimulationState D V R) (n : ℕ) (cell : DataSpace D) :
    (sim.restarted initial n 0).1.fieldE cell = (sim.startSimulation initial none n).1.fieldE cell ↔
      sim.Steady cell (n + 1) n sim.fieldBackgroundE := by
  rw [restarted_zero, movingWindowCheck_pushBGField_fieldE]

theorem restarted_zero_fieldB (initial : SimulationState D V R) (n : ℕ) (cell : DataSpace D) :
    (sim.restarted initial n 0).1.fieldB cell = (sim.startSimulation initial none n).1.fieldB cell ↔
      sim.Steady cell (n + 1) n sim.fieldBackgroundB := by
  rw [restarted_zero, movingWindowCheck_pushBGField_fieldB]

theorem restarted_step (initial : SimulationState D V R) (n : ℕ) : (sim.restarted initial n 0).2 = n := by
  change (sim.beforeLoop _ (some n)).2 = n
  rw [beforeLoop_restart]

theorem pushBGField_sub_inj {n : ℕ} {s s' : SimulationState D V R}
    (h : sim.pushBGField (· - ·) n s = sim.pushBGField (· - ·) n s') : s = s' := by
  have hcell : ∀ {f f' : DataSpace D → V} {background : FieldBackground D V},
      cellwiseOperation f (· - ·) background.value sim.totalCellOffset n background.influenceParticlePusher =
        cellwiseOperation f' (· - ·) background.value sim.totalCellOffset n
          background.influenceParticlePusher → f = f' := by
    intro f f' background he
    cases hb : background.influenceParticlePusher with
    | false => simpa [cellwiseOperation, hb] using he
    | true =>
      simp only [cellwiseOperation, hb, Bool.not_true, Bool.false_eq_true, if_false] at he
      funext cell
      exact sub_left_injective (congrFun he cell)
  obtain ⟨hE, hB, hR⟩ := SimulationState.ext_iff.mp h
  exact SimulationState.ext (hcell hE) (hcell hB) hR

/-- A restart from the checkpoint of step `n` has the fields of the uninterrupted run, in step `n` and
in all later steps, if and only if the background is the same in step `n + 1` as in step `n`. -/
theorem restart_keeps_fields_iff (sim : MySimulation D V R) (initial : SimulationState D V R) (n : ℕ) :
    (∀ cell, ((sim.restarted initial n 0).1.fieldE cell = (sim.startSimulation initial none n).1.fieldE cell ↔
        sim.Steady cell (n + 1) n sim.fieldBackgroundE) ∧
      ((sim.restarted initial n 0).1.fieldB cell = (sim.startSimulation initial none n).1.fieldB cell ↔
        sim.Steady cell (n + 1) n sim.fieldBackgroundB)) ∧
    ((∀ k, sim.restarted initial n k = sim.startSimulation initial none (n + k)) ↔
      ∀ cell, sim.Steady cell (n + 1) n sim.fieldBackgroundE ∧ sim.Steady cell (n + 1) n sim.fieldBackgroundB) ∧
    (sim.pushBGField (· - ·) n (sim.restarted initial n 0).1 =
        sim.pushBGField (· - ·) n (sim.startSimulation initial none n).1 ↔
      ∀ cell, sim.Steady cell (n + 1) n sim.fieldBackgroundE ∧
        sim.Steady cell (n + 1) n sim.fieldBackgroundB) := by
  have hstate : (sim.restarted initial n 0).1 = (sim.startSimulation initial none n).1 ↔
      ∀ cell, sim.Steady cell (n + 1) n sim.fieldBackgroundE ∧
        sim.Steady cell (n + 1) n sim.fieldBackgroundB := by
    rw [restarted_zero]
    exact movingWindowCheck_pushBGField_iff _ n
  refine ⟨fun cell => ⟨restarted_zero_fieldE initial n cell, restarted_zero_fieldB initial n cell⟩, ?_, ?_⟩
  · rw [← hstate]
    constructor
    · intro h
      exact congrArg Prod.fst (h 0)
    · intro h k
      have h0 : sim.restarted initial n 0 = sim.startSimulation initial none n :=
        Prod.ext h ((restarted_step initial n).trans (startSimulation_step initial n).symm)
      rw [startSimulation_add, ← h0]
      rfl
  · rw [← hstate]
    exact ⟨pushBGField_sub_inj, fun h => congrArg _ h⟩

/-- A background that grows with the step number, fields that do not change otherwise. -/
def growing : MySimulation 2 (Fin 3 → ℚ) Unit where
  fieldBackgroundE := ⟨fun _ step _ => step, true⟩
  fieldBackgroundB := ⟨fun _ _ _ => 0, true⟩
  totalCellOffset := 0
  updateParticles _ _ := ()
  updateFields _ s := s

/-- After the checkpoint of step 1 the field is 1, after the restart it is 0. -/
theorem growing_restart_differs : ¬∀ cell,
    (growing.restarted ⟨fun _ => 0, fun _ => 0, ()⟩ 1 0).1.fieldE cell =
      (growing.startSimulation ⟨fun _ => 0, fun _ => 0, ()⟩ none 1).1.fieldE cell := by
  intro h
  have hsteady := (restarted_zero_fieldE _ 1 0).mp (h 0) rfl
  have := congrFun hsteady 0
  norm_num [growing] at this

end MySimulation

end PIConGPU
