import PIConGPU.Esirkepov
import PIConGPU.PushParticlePerFrame
import PIConGPU.YeeSolver

/-!
# Gauss's law in the loop over time steps

In a time step the particles are pushed, their current is deposited, and the fields are advanced with the interpolated
current. The grid has no boundary. What a step keeps is the difference between the divergence of the electric field and
the charge density, which is interpolated as the current is.
-/
namespace PIConGPU.GaussLaw

open YeeSolver

/-- A current solver for which the continuity equation holds exactly. -/
structure CurrentSolver (D : ℕ) (u : GridUnits) where
  shape : Shape
  simDim_le : D ≤ 3
  deposit : FieldJ D → (Fin D → ℚ) → (Fin 3 → ℚ) → ℚ → FieldJ D
  continuity : ∀ J pos velocity charge, (∀ d, 0 ≤ pos d ∧ pos d < 1) →
    (∀ d, |velocity (Fin.castLE simDim_le d) * u.deltaT / u.cellSize (Fin.castLE simDim_le d)| < 1) →
      PIConGPU.Continuity simDim_le shape u u.deltaT charge (Esirkepov.oldPos u simDim_le pos velocity u.deltaT) pos J
        (deposit J pos velocity charge)

namespace CurrentSolver

variable (u : GridUnits) (s : ContinuousShape)

open Esirkepov

theorem dim3_le : 3 ≤ 3 := le_rfl

theorem esirkepov_continuity (J : FieldJ 3) (pos velocity : Fin 3 → ℚ) (charge : ℚ)
    (hpos : ∀ d, 0 ≤ pos d ∧ pos d < 1)
    (hdelta : ∀ d, |velocity (Fin.castLE dim3_le d) * u.deltaT / u.cellSize (Fin.castLE dim3_le d)| < 1) :
    PIConGPU.Continuity dim3_le s.shape u u.deltaT charge (oldPos u dim3_le pos velocity u.deltaT) pos J
      (deposit3 s.shape u J pos velocity charge u.deltaT) := by
  have hmoved : ∀ d, |pos d - oldPos u dim3_le pos velocity u.deltaT d| < 1 := fun d => by
    simpa [oldPos] using hdelta d
  exact deposit3_continuity u charge u.deltaT J (covers_window s.isAssignment (shiftedLine_inBaseCell hpos hmoved))

def esirkepov : CurrentSolver 3 u where
  shape := s.shape
  simDim_le := dim3_le
  deposit J pos velocity charge := deposit3 s.shape u J pos velocity charge u.deltaT
  continuity := esirkepov_continuity u s

end CurrentSolver

section Interpolation

inductive CurrentInterpolation
  | None
  | Binomial

variable {D : ℕ}

/-- The filter of the second order: in every direction the weights 1, 2 and 1. -/
def binomial (f : DataSpace D → ℚ) (x : DataSpace D) : ℚ :=
  (∑ d : Fin D, ((f (x - Pi.single d 1) + f x) + (f (x + Pi.single d 1) + f x))) / (4 * D)

def CurrentInterpolation.apply : CurrentInterpolation → (DataSpace D → ℚ) → DataSpace D → ℚ
  | .None, f => f
  | .Binomial, f => binomial f

def CurrentInterpolation.current (interpolation : CurrentInterpolation) (J : VectorField D) : VectorField D :=
  fun x c => interpolation.apply (fun y => J y c) x

/-- The binomial filter commutes with linear operations that do not depend on the cell. -/
theorem binomial_scalarDifference (lower upper : ℤ) (u : GridUnits) (direction : Fin 3) (f : DataSpace D → ℚ)
    (x : DataSpace D) : scalarDifference lower upper u direction (binomial f) x =
      binomial (scalarDifference lower upper u direction f) x := by
  unfold scalarDifference binomial
  split_ifs
  · rw [← sub_div, ← Finset.sum_sub_distrib, div_right_comm, Finset.sum_div]
    refine congrArg (· / _) (Finset.sum_congr rfl fun d _ => ?_)
    simp only [add_right_comm x _ (Pi.single d 1), add_sub_right_comm]
    ring
  · simp

theorem binomial_add_mul (f g : DataSpace D → ℚ) (a : ℚ) (x : DataSpace D) :
    binomial (fun y => f y + a * g y) x = binomial f x + a * binomial g x := by
  unfold binomial
  rw [← mul_div_assoc, ← add_div, Finset.mul_sum, ← Finset.sum_add_distrib]
  refine congrArg (· / _) (Finset.sum_congr rfl fun d _ => ?_)
  ring

variable (interpolation : CurrentInterpolation)

theorem CurrentInterpolation.apply_scalarDifference (lower upper : ℤ) (u : GridUnits) (direction : Fin 3)
    (f : DataSpace D → ℚ) (x : DataSpace D) :
    scalarDifference lower upper u direction (interpolation.apply f) x =
      interpolation.apply (scalarDifference lower upper u direction f) x := by
  cases interpolation
  · rfl
  · exact binomial_scalarDifference lower upper u direction f x

theorem CurrentInterpolation.apply_add_mul (f g : DataSpace D → ℚ) (a : ℚ) (x : DataSpace D) :
    interpolation.apply (fun y => f y + a * g y) x = interpolation.apply f x + a * interpolation.apply g x := by
  cases interpolation
  · rfl
  · exact binomial_add_mul f g a x

theorem CurrentInterpolation.divergence_current (lower upper : ℤ) (u : GridUnits) (J : VectorField D)
    (x : DataSpace D) : YeeSolver.divergence lower upper u (interpolation.current J) x =
      interpolation.apply (YeeSolver.divergence lower upper u J) x := by
  have hsum : YeeSolver.divergence lower upper u J = fun y =>
      scalarDifference lower upper u 0 (fun z => J z 0) y + 1 * (scalarDifference lower upper u 1 (fun z => J z 1) y +
        1 * scalarDifference lower upper u 2 (fun z => J z 2) y) := by
    funext y
    rw [divergence_eq]
    ring
  rw [hsum, interpolation.apply_add_mul, interpolation.apply_add_mul, divergence_eq]
  simp only [← interpolation.apply_scalarDifference, CurrentInterpolation.current]
  ring

/-- The interpolated current continues the interpolated charge. -/
theorem CurrentInterpolation.continuity {u : FieldUnits} {rho rho' : DataSpace D → ℚ} {J : VectorField D}
    (h : YeeSolver.Continuity u rho rho' J) :
    YeeSolver.Continuity u (interpolation.apply rho) (interpolation.apply rho') (interpolation.current J) := by
  intro x
  have hdt := u.deltaT_pos.ne'
  have hrho : rho' = fun y => rho y + -u.deltaT * YeeSolver.divergence (-1) 0 u.toGridUnits J y := by
    funext y
    have hy := h y
    field_simp at hy
    linarith
  rw [interpolation.divergence_current, hrho, interpolation.apply_add_mul]
  field_simp
  ring

end Interpolation

section Particles

variable {D : ℕ} {α : Type*}

/-- A particle lies within its cell. The attributes are what the pusher reads and writes, such as the momentum. -/
structure Particle (D : ℕ) (α : Type*) where
  cell : DataSpace D
  pos : Fin D → ℚ
  charge : ℚ
  attributes : α
  pos_mem : ∀ d, 0 ≤ pos d ∧ pos d < 1

/-- The position after the push is brought back into a cell. -/
def Particle.move (u : GridUnits) (hD : D ≤ 3) (particle : Particle D α) (velocity : Fin 3 → ℚ) (attributes : α) :
    Particle D α :=
  let pos := fun d => particle.pos d + velocity (Fin.castLE hD d) * u.deltaT / u.cellSize (Fin.castLE hD d)
  { particle with
    cell := fun d => particle.cell d + PushParticlePerFrame.moveDir (pos d)
    pos := fun d => PushParticlePerFrame.inCell (pos d)
    attributes := attributes
    pos_mem := fun d => by
      rw [PushParticlePerFrame.inCell_eq]
      exact ⟨Int.fract_nonneg _, Int.fract_lt_one _⟩ }

def chargeDensity (S : Shape) (u : GridUnits) (particles : List (Particle D α)) (n : DataSpace D) : ℚ :=
  (particles.map fun particle => PIConGPU.chargeDensity S u particle.charge particle.pos (n - particle.cell)).sum

variable {u : GridUnits} (solver : CurrentSolver D u) (velocity : α → Fin 3 → ℚ)

def CurrentSolver.addParticle (J : FieldJ D) (particle : Particle D α) : FieldJ D := fun n =>
  solver.deposit (fun m => J (m + particle.cell)) particle.pos (velocity particle.attributes) particle.charge
    (n - particle.cell)

def CurrentSolver.computeCurrent (particles : List (Particle D α)) : FieldJ D :=
  particles.foldl (solver.addParticle velocity) 0

/-- The field solver takes the divergence as the current solvers do. -/
theorem divergence_eq_divergence (hD : D ≤ 3) (u : GridUnits) (J : VectorField D) (x : DataSpace D) :
    YeeSolver.divergence (-1) 0 u J x = PIConGPU.divergence hD u J x := by
  have hback : ∀ d : Fin D, x + directionIndex (Fin.castLE hD d) (-1) = x - Pi.single d 1 := fun d => by
    funext e
    rcases eq_or_ne e d with rfl | he
    · simp [directionIndex, sub_eq_add_neg]
    · have hval : (e : ℕ) ≠ d := fun h => he (Fin.ext h)
      simp [directionIndex, hval, he]
  have hsame : ∀ direction : Fin 3, x + directionIndex direction 0 = x := fun direction => by
    funext e
    simp [directionIndex]
  have hterm : ∀ d : Fin D, difference (-1) 0 u (Fin.castLE hD d) (shiftBox J x) (Fin.castLE hD d) =
      (J x (Fin.castLE hD d) - J (x - Pi.single d 1) (Fin.castLE hD d)) / u.cellSize (Fin.castLE hD d) := fun d => by
    rw [difference, if_pos (by simp), shiftBox, shiftBox, hback, hsame]
  have hrest : ∀ direction : Fin 3, D ≤ direction → difference (-1) 0 u direction (shiftBox J x) direction = 0 :=
    fun direction h => by
      rw [difference, if_neg (by omega)]
      rfl
  unfold YeeSolver.divergence PIConGPU.divergence
  rw [← Finset.sum_subset (Finset.subset_univ (Finset.univ.map (Fin.castLEEmb hD)))]
  · rw [Finset.sum_map]
    exact Finset.sum_congr rfl fun d _ => hterm d
  · intro direction _ hdirection
    refine hrest direction (not_lt.mp fun h => hdirection ?_)
    exact Finset.mem_map.mpr ⟨⟨direction, h⟩, Finset.mem_univ _, rfl⟩

section Continuity

variable (hD : D ≤ 3) (particle : Particle D α) (v : Fin 3 → ℚ) (a : α)

theorem Particle.oldPos_move (d : Fin D) : Esirkepov.oldPos u hD (particle.move u hD v a).pos v u.deltaT d =
    particle.pos d - (((particle.move u hD v a).cell d - particle.cell d : ℤ) : ℚ) := by
  simp only [Esirkepov.oldPos, Particle.move, PushParticlePerFrame.inCell_eq, PushParticlePerFrame.moveDir_eq]
  rw [add_sub_cancel_left, Int.fract]
  ring

theorem Particle.chargeDensity_oldPos (S : Shape) (n : DataSpace D) :
    PIConGPU.chargeDensity S u particle.charge
        (Esirkepov.oldPos u hD (particle.move u hD v a).pos v u.deltaT) (n - (particle.move u hD v a).cell) =
      PIConGPU.chargeDensity S u particle.charge particle.pos (n - particle.cell) := by
  simp only [PIConGPU.chargeDensity, particle.oldPos_move]
  refine congrArg (_ * ·) (Finset.prod_congr rfl fun d _ => congrArg S.chargeAssignment ?_)
  simp only [Pi.sub_apply]
  push_cast
  ring

/-- What a particle adds to the current carries away the change of its charge density. -/
theorem CurrentSolver.divergence_addParticle {u : FieldUnits} (solver : CurrentSolver D u.toGridUnits)
    (velocity : α → Fin 3 → ℚ) (particle : Particle D α) (a : α)
    (hslow : ∀ d, |velocity a (Fin.castLE solver.simDim_le d) * u.deltaT /
      u.cellSize (Fin.castLE solver.simDim_le d)| < 1) (J : FieldJ D) (x : DataSpace D) :
    let moved := particle.move u.toGridUnits solver.simDim_le (velocity a) a
    YeeSolver.divergence (-1) 0 u.toGridUnits (solver.addParticle velocity J moved) x =
      YeeSolver.divergence (-1) 0 u.toGridUnits J x -
        (PIConGPU.chargeDensity solver.shape u.toGridUnits particle.charge moved.pos (x - moved.cell) -
          PIConGPU.chargeDensity solver.shape u.toGridUnits particle.charge particle.pos (x - particle.cell)) /
          u.deltaT := by
  intro moved
  have hcont := solver.continuity (fun m => J (m + moved.cell)) moved.pos (velocity a) particle.charge moved.pos_mem
    hslow (x - moved.cell)
  rw [particle.chargeDensity_oldPos] at hcont
  have hdiff : PIConGPU.divergence solver.simDim_le u.toGridUnits (fun m e =>
      solver.deposit (fun m => J (m + moved.cell)) moved.pos (velocity a) particle.charge m e - J (m + moved.cell) e)
        (x - moved.cell) = YeeSolver.divergence (-1) 0 u.toGridUnits (solver.addParticle velocity J moved) x -
          YeeSolver.divergence (-1) 0 u.toGridUnits J x := by
    rw [← YeeSolver.divergence_sub, divergence_eq_divergence solver.simDim_le]
    have hback : ∀ d : Fin D, x - moved.cell - Pi.single d 1 + moved.cell = x - Pi.single d 1 := fun d => by
      rw [sub_right_comm, sub_add_cancel]
    refine Finset.sum_congr rfl fun d _ => ?_
    simp only [CurrentSolver.addParticle, sub_right_comm x _ moved.cell, hback, sub_add_cancel]
    rfl
  rw [hdiff] at hcont
  linarith

/-- The current of all particles continues their charge. -/
theorem CurrentSolver.divergence_computeCurrent {u : FieldUnits} (solver : CurrentSolver D u.toGridUnits)
    (velocity : α → Fin 3 → ℚ) (push : Particle D α → α)
    (hslow : ∀ particle d, |velocity (push particle) (Fin.castLE solver.simDim_le d) * u.deltaT /
      u.cellSize (Fin.castLE solver.simDim_le d)| < 1) (particles : List (Particle D α)) :
    let moved := particles.map fun particle =>
      particle.move u.toGridUnits solver.simDim_le (velocity (push particle)) (push particle)
    YeeSolver.Continuity u (chargeDensity solver.shape u.toGridUnits particles)
      (chargeDensity solver.shape u.toGridUnits moved) (solver.computeCurrent velocity moved) := by
  intro moved x
  have hfold : ∀ J : FieldJ D, YeeSolver.divergence (-1) 0 u.toGridUnits
      (moved.foldl (solver.addParticle velocity) J) x = YeeSolver.divergence (-1) 0 u.toGridUnits J x -
        (chargeDensity solver.shape u.toGridUnits moved x - chargeDensity solver.shape u.toGridUnits particles x) /
          u.deltaT := by
    unfold moved
    clear moved
    induction particles with
    | nil => simp [chargeDensity]
    | cons particle particles ih =>
      intro J
      rw [List.map_cons, List.foldl_cons, ih,
        solver.divergence_addParticle velocity particle (push particle) (hslow particle)]
      simp only [chargeDensity, List.map_cons, List.sum_cons]
      rw [show (particle.move u.toGridUnits solver.simDim_le (velocity (push particle)) (push particle)).charge =
        particle.charge from rfl]
      ring
  have hzero : YeeSolver.divergence (-1) 0 u.toGridUnits (0 : FieldJ D) x = 0 := by
    simp [divergence_eq, scalarDifference]
  rw [CurrentSolver.computeCurrent, hfold, hzero]
  ring

end Continuity

end Particles

section Run

variable {D : ℕ} {α : Type*}

structure State (D : ℕ) (α : Type*) where
  E : VectorField D
  B : VectorField D
  particles : List (Particle D α)

structure MySimulation (D : ℕ) (α : Type*) where
  u : FieldUnits
  currentSolver : CurrentSolver D u.toGridUnits
  myCurrentInterpolation : CurrentInterpolation
  pusher : ℕ → VectorField D → VectorField D → Particle D α → α
  velocity : α → Fin 3 → ℚ

namespace MySimulation

variable (sim : MySimulation D α)

def particleUpdate (currentStep : ℕ) (s : State D α) : List (Particle D α) :=
  s.particles.map fun particle =>
    let attributes := sim.pusher currentStep s.E s.B particle
    particle.move sim.u.toGridUnits sim.currentSolver.simDim_le (sim.velocity attributes) attributes

/-- One time step without background fields, laser and absorber. -/
def runOneStep (currentStep : ℕ) (s : State D α) : State D α :=
  let particles := sim.particleUpdate currentStep s
  -- update_beforeCurrent
  let B := kernelUpdateBHalf sim.u s.B s.E
  let E := kernelUpdateE sim.u s.E B
  let fieldJ := sim.currentSolver.computeCurrent sim.velocity particles
  let E := addCurrent sim.u E (sim.myCurrentInterpolation.current fieldJ)
  -- update_afterCurrent
  { E := E, B := kernelUpdateBHalf sim.u B E, particles := particles }

def run (s : State D α) : ℕ → State D α
  | 0 => s
  | n + 1 => sim.runOneStep n (run s n)

/-- The charge density of the particles with the interpolation of the current applied to it. -/
def rho (s : State D α) : DataSpace D → ℚ :=
  sim.myCurrentInterpolation.apply (chargeDensity sim.currentSolver.shape sim.u.toGridUnits s.particles)

/-- No pushed particle crosses a whole cell in a step. -/
def Slow : Prop := ∀ currentStep E B particle d,
  |sim.velocity (sim.pusher currentStep E B particle) (Fin.castLE sim.currentSolver.simDim_le d) * sim.u.deltaT /
    sim.u.cellSize (Fin.castLE sim.currentSolver.simDim_le d)| < 1

theorem gauss_step (hslow : sim.Slow) (currentStep : ℕ) (s : State D α) (x : DataSpace D) :
    YeeSolver.divergence (-1) 0 sim.u.toGridUnits (sim.runOneStep currentStep s).E x -
        sim.rho (sim.runOneStep currentStep s) x / sim.u.eps0 =
      YeeSolver.divergence (-1) 0 sim.u.toGridUnits s.E x - sim.rho s x / sim.u.eps0 := by
  have hcont : YeeSolver.Continuity sim.u (sim.rho s) (sim.rho (sim.runOneStep currentStep s))
      (sim.myCurrentInterpolation.current
        (sim.currentSolver.computeCurrent sim.velocity (sim.particleUpdate currentStep s))) :=
    sim.myCurrentInterpolation.continuity (sim.currentSolver.divergence_computeCurrent sim.velocity
      (sim.pusher currentStep s.E s.B) (hslow currentStep s.E s.B) s.particles)
  refine (hcont.gauss sim.u _ x).trans ?_
  rw [divergence_kernelUpdateE]

theorem divergence_step_B (currentStep : ℕ) (s : State D α) (x : DataSpace D) :
    YeeSolver.divergence 0 1 sim.u.toGridUnits (sim.runOneStep currentStep s).B x =
      YeeSolver.divergence 0 1 sim.u.toGridUnits s.B x :=
  (divergence_kernelUpdateBHalf sim.u _ _ x).trans (divergence_kernelUpdateBHalf sim.u _ _ x)

/-- In every run, whatever the pusher does, what is missing in Gauss's law for the interpolated charge density stays as
it is in every cell, and no magnetic charge arises. -/
theorem gauss_law (hslow : sim.Slow) (s : State D α) (n : ℕ) (x : DataSpace D) :
    YeeSolver.divergence (-1) 0 sim.u.toGridUnits (sim.run s n).E x - sim.rho (sim.run s n) x / sim.u.eps0 =
        YeeSolver.divergence (-1) 0 sim.u.toGridUnits s.E x - sim.rho s x / sim.u.eps0 ∧
      YeeSolver.divergence 0 1 sim.u.toGridUnits (sim.run s n).B x =
        YeeSolver.divergence 0 1 sim.u.toGridUnits s.B x := by
  induction n with
  | zero => exact ⟨rfl, rfl⟩
  | succ n ih =>
    exact ⟨(sim.gauss_step hslow n _ x).trans ih.1, (sim.divergence_step_B n _ x).trans ih.2⟩

end MySimulation

def streaming : MySimulation 3 (Fin 3 → ℚ) where
  u := unitUnits
  currentSolver := CurrentSolver.esirkepov unitUnits.toGridUnits .CIC
  myCurrentInterpolation := .Binomial
  pusher := fun _ _ _ _ => ![1 / 2, -1 / 4, 3 / 4]
  velocity := id

def oneParticle : State 3 (Fin 3 → ℚ) where
  E := 0
  B := 0
  particles := [⟨0, fun _ => 1 / 2, 1, 0, fun _ => by norm_num⟩]

theorem gauss_law_streaming : streaming.Slow ∧ ∀ n x,
    YeeSolver.divergence (-1) 0 streaming.u.toGridUnits (streaming.run oneParticle n).E x -
        streaming.rho (streaming.run oneParticle n) x / streaming.u.eps0 =
      YeeSolver.divergence (-1) 0 streaming.u.toGridUnits oneParticle.E x -
        streaming.rho oneParticle x / streaming.u.eps0 := by
  have hslow : ∀ d, |(![1 / 2, -1 / 4, 3 / 4] : Fin 3 → ℚ) d * 1 / 1| < 1 := by decide +kernel
  exact ⟨fun _ _ _ _ d => hslow d, fun n x =>
    (MySimulation.gauss_law streaming (fun _ _ _ _ d => hslow d) oneParticle n x).1⟩

end Run

end PIConGPU.GaussLaw
