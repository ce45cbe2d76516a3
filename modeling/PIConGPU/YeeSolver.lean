import PIConGPU.VillaBune

/-!
# The field solver of Yee

Electric and magnetic field are advanced by discrete curls, the electric field with differences to the
lower and the magnetic field with differences to the upper neighbor. On a periodic grid the divergence of
the magnetic field and the difference between the divergence of the electric field and the charge density
are constants of motion.
-/
namespace PIConGPU.YeeSolver

structure FieldUnits extends GridUnits where
  speedOfLight : ℚ
  eps0 : ℚ

abbrev VectorField (D : ℕ) := DataSpace D → Fin 3 → ℚ

variable {D : ℕ}

def shiftBox (mem : VectorField D) (x : DataSpace D) : VectorField D := fun n => mem (x + n)

def directionIndex (direction : Fin 3) (v : ℤ) : DataSpace D := fun d => if (d : ℕ) = direction then v else 0

section Differences

variable (lower upper : ℤ) (u : GridUnits)

/-- The difference of two cells along a direction. It is zero in a direction that the grid does not have. -/
def difference (direction : Fin 3) (mem : VectorField D) : Fin 3 → ℚ :=
  if (direction : ℕ) < D then
    fun c => (mem (directionIndex direction upper) c - mem (directionIndex direction lower) c) / u.cellSize direction
  else 0

/-- `Curl<Difference>` -/
def curl (mem : VectorField D) : Fin 3 → ℚ :=
  ![difference lower upper u 1 mem 2 - difference lower upper u 2 mem 1,
    difference lower upper u 2 mem 0 - difference lower upper u 0 mem 2,
    difference lower upper u 0 mem 1 - difference lower upper u 1 mem 0]

variable {lower upper u} in
theorem curl_congr {mem mem' : VectorField D} (h : ∀ direction : Fin 3, (direction : ℕ) < D →
      mem (directionIndex direction lower) = mem' (directionIndex direction lower) ∧
        mem (directionIndex direction upper) = mem' (directionIndex direction upper)) :
    curl lower upper u mem = curl lower upper u mem' := by
  have hdifference : ∀ direction, difference lower upper u direction mem = difference lower upper u direction mem' := by
    intro direction
    unfold difference
    split_ifs with hdir
    · rw [(h direction hdir).1, (h direction hdir).2]
    · rfl
  simp only [curl, hdifference]

def divergence (F : VectorField D) (x : DataSpace D) : ℚ :=
  ∑ direction, difference lower upper u direction (shiftBox F x) direction

end Differences

section Solver

variable (u : FieldUnits)

/-- `DifferenceToUpper` -/
abbrev differenceToUpper (direction : Fin 3) (mem : VectorField D) : Fin 3 → ℚ :=
  difference 0 1 u.toGridUnits direction mem

/-- `DifferenceToLower` -/
abbrev differenceToLower (direction : Fin 3) (mem : VectorField D) : Fin 3 → ℚ :=
  difference (-1) 0 u.toGridUnits direction mem

abbrev curlLeft (mem : VectorField D) : Fin 3 → ℚ := curl (-1) 0 u.toGridUnits mem

abbrev curlRight (mem : VectorField D) : Fin 3 → ℚ := curl 0 1 u.toGridUnits mem

/-- What a thread of `KernelUpdateE` writes to its cell. -/
def kernelUpdateE (fieldE fieldB : VectorField D) (x : DataSpace D) : Fin 3 → ℚ := fun c =>
  fieldE x c + curlLeft u (shiftBox fieldB x) c * (u.speedOfLight * u.speedOfLight) * u.deltaT

/-- What a thread of `KernelUpdateBHalf` writes to its cell. -/
def kernelUpdateBHalf (fieldB fieldE : VectorField D) (x : DataSpace D) : Fin 3 → ℚ := fun c =>
  fieldB x c - curlRight u (shiftBox fieldE x) c * (1 / 2) * u.deltaT

/-- What the interpolation `None` makes of a cell when the current is added. -/
def addCurrent (fieldE fieldJ : VectorField D) (x : DataSpace D) : Fin 3 → ℚ := fun c =>
  fieldE x c - fieldJ x c * (1 / u.eps0) * u.deltaT

end Solver

/-- A field on a periodic grid: cells that differ by multiples of the extents are the same cell. -/
structure PeriodicField (size : DataSpace D) where
  value : VectorField D
  periodic : ∀ {x y}, (∀ d, x d ≡ y d [ZMOD size d]) → value x = value y

namespace PeriodicField

variable {size : DataSpace D}

theorem shiftBox_eq (F : PeriodicField size) {x y : DataSpace D} (h : ∀ d, x d ≡ y d [ZMOD size d]) :
    shiftBox F.value x = shiftBox F.value y :=
  funext fun n => F.periodic fun d => (h d).add_right (n d)

variable (u : FieldUnits)

/-- All cells are updated, each from its neighbors. -/
def updateE (E B : PeriodicField size) : PeriodicField size where
  value := kernelUpdateE u E.value B.value
  periodic h := by
    funext c
    rw [kernelUpdateE, kernelUpdateE, E.periodic h, B.shiftBox_eq h]

def updateBHalf (B E : PeriodicField size) : PeriodicField size where
  value := kernelUpdateBHalf u B.value E.value
  periodic h := by
    funext c
    rw [kernelUpdateBHalf, kernelUpdateBHalf, B.periodic h, E.shiftBox_eq h]

def addCurrent (E J : PeriodicField size) : PeriodicField size where
  value := YeeSolver.addCurrent u E.value J.value
  periodic h := by
    funext c
    rw [YeeSolver.addCurrent, YeeSolver.addCurrent, E.periodic h, J.periodic h]

end PeriodicField

structure Fields (size : DataSpace D) where
  E : PeriodicField size
  B : PeriodicField size

namespace Fields

variable {size : DataSpace D} (u : FieldUnits)

def update_beforeCurrent (f : Fields size) : Fields size :=
  let B := f.B.updateBHalf u f.E
  ⟨f.E.updateE u B, B⟩

def addCurrentToEMF (f : Fields size) (J : PeriodicField size) : Fields size := ⟨f.E.addCurrent u J, f.B⟩

/-- Absorber and laser are off. -/
def update_afterCurrent (f : Fields size) : Fields size := ⟨f.E, f.B.updateBHalf u f.E⟩

def step (f : Fields size) (J : PeriodicField size) : Fields size :=
  ((f.update_beforeCurrent u).addCurrentToEMF u J).update_afterCurrent u

/-- The fields before the step `n`. -/
def run (J : ℕ → PeriodicField size) (f : Fields size) : ℕ → Fields size
  | 0 => f
  | n + 1 => (run J f n).step u (J n)

end Fields

section Divergence

variable (lower upper : ℤ) (u : GridUnits)

/-- Differences of one component, as an operator on functions of a cell. -/
def scalarDifference (direction : Fin 3) (f : DataSpace D → ℚ) (x : DataSpace D) : ℚ :=
  if (direction : ℕ) < D then
    (f (x + directionIndex direction upper) - f (x + directionIndex direction lower)) / u.cellSize direction
  else 0

theorem difference_shiftBox (direction c : Fin 3) (F : VectorField D) (x : DataSpace D) :
    difference lower upper u direction (shiftBox F x) c =
      scalarDifference lower upper u direction (fun y => F y c) x := by
  unfold difference scalarDifference
  split_ifs <;> rfl

theorem scalarDifference_sub (direction : Fin 3) (f g : DataSpace D → ℚ) (x : DataSpace D) :
    scalarDifference lower upper u direction (fun y => f y - g y) x =
      scalarDifference lower upper u direction f x - scalarDifference lower upper u direction g x := by
  unfold scalarDifference
  split_ifs
  · ring
  · rw [sub_zero]

theorem scalarDifference_mul (direction : Fin 3) (f : DataSpace D → ℚ) (a : ℚ) (x : DataSpace D) :
    scalarDifference lower upper u direction (fun y => f y * a) x =
      scalarDifference lower upper u direction f x * a := by
  unfold scalarDifference
  split_ifs
  · ring
  · rw [zero_mul]

theorem scalarDifference_comm (a b : Fin 3) (f : DataSpace D → ℚ) (x : DataSpace D) :
    scalarDifference lower upper u a (scalarDifference lower upper u b f) x =
      scalarDifference lower upper u b (scalarDifference lower upper u a f) x := by
  unfold scalarDifference
  split_ifs
  · simp only [add_right_comm x (directionIndex a _)]
    ring
  · simp
  · simp
  · rfl

theorem divergence_eq (F : VectorField D) (x : DataSpace D) :
    divergence lower upper u F x = scalarDifference lower upper u 0 (fun y => F y 0) x +
      scalarDifference lower upper u 1 (fun y => F y 1) x + scalarDifference lower upper u 2 (fun y => F y 2) x := by
  rw [divergence, Fin.sum_univ_three]
  simp only [difference_shiftBox]

theorem divergence_sub (F G : VectorField D) (x : DataSpace D) :
    divergence lower upper u (fun y c => F y c - G y c) x =
      divergence lower upper u F x - divergence lower upper u G x := by
  simp only [divergence_eq, scalarDifference_sub]
  ring

theorem divergence_mul (F : VectorField D) (a : ℚ) (x : DataSpace D) :
    divergence lower upper u (fun y c => F y c * a) x = divergence lower upper u F x * a := by
  simp only [divergence_eq, scalarDifference_mul]
  ring

theorem divergence_curl (F : VectorField D) (x : DataSpace D) :
    divergence lower upper u (fun y => curl lower upper u (shiftBox F y)) x = 0 := by
  simp only [divergence_eq, curl, difference_shiftBox, Matrix.cons_val_zero, Matrix.cons_val_one, Matrix.cons_val,
    scalarDifference_sub]
  have h01 := scalarDifference_comm lower upper u 0 1 (fun y => F y 2) x
  have h12 := scalarDifference_comm lower upper u 1 2 (fun y => F y 0) x
  have h20 := scalarDifference_comm lower upper u 2 0 (fun y => F y 1) x
  linarith

end Divergence

section Invariants

variable (u : FieldUnits)

theorem divergence_kernelUpdateBHalf (B E : VectorField D) (x : DataSpace D) :
    divergence 0 1 u.toGridUnits (kernelUpdateBHalf u B E) x = divergence 0 1 u.toGridUnits B x := by
  unfold kernelUpdateBHalf
  rw [divergence_sub, divergence_mul, divergence_mul, divergence_curl]
  ring

theorem divergence_kernelUpdateE (E B : VectorField D) (x : DataSpace D) :
    divergence (-1) 0 u.toGridUnits (kernelUpdateE u E B) x = divergence (-1) 0 u.toGridUnits E x := by
  have hsub : kernelUpdateE u E B = fun y c =>
      E y c - curlLeft u (shiftBox B y) c * (-(u.speedOfLight * u.speedOfLight)) * u.deltaT := by
    funext y c
    rw [kernelUpdateE]
    ring
  rw [hsub, divergence_sub, divergence_mul, divergence_mul, divergence_curl]
  ring

theorem divergence_addCurrent (E J : VectorField D) (x : DataSpace D) :
    divergence (-1) 0 u.toGridUnits (addCurrent u E J) x =
      divergence (-1) 0 u.toGridUnits E x - divergence (-1) 0 u.toGridUnits J x * (1 / u.eps0) * u.deltaT := by
  unfold addCurrent
  rw [divergence_sub, divergence_mul, divergence_mul]

/-- The discrete continuity equation of one step. -/
def Continuity (rho rho' : DataSpace D → ℚ) (J : VectorField D) : Prop :=
  ∀ x, (rho' x - rho x) / u.deltaT + divergence (-1) 0 u.toGridUnits J x = 0

theorem Continuity.gauss {rho rho' : DataSpace D → ℚ} {J : VectorField D} (h : Continuity u rho rho' J)
    (E : VectorField D) (x : DataSpace D) :
    divergence (-1) 0 u.toGridUnits (addCurrent u E J) x - rho' x / u.eps0 =
      divergence (-1) 0 u.toGridUnits E x - rho x / u.eps0 := by
  have hdt := u.deltaT_pos.ne'
  have hJ := h x
  have hrho : rho' x = rho x - divergence (-1) 0 u.toGridUnits J x * u.deltaT := by
    field_simp at hJ
    linarith
  rw [divergence_addCurrent, hrho]
  ring

variable {size : DataSpace D} (J : ℕ → PeriodicField size) (f : Fields size)

theorem Fields.divergence_step_B (f : Fields size) (J : PeriodicField size) (x : DataSpace D) :
    divergence 0 1 u.toGridUnits (f.step u J).B.value x = divergence 0 1 u.toGridUnits f.B.value x :=
  (divergence_kernelUpdateBHalf u _ _ x).trans (divergence_kernelUpdateBHalf u _ _ x)

theorem Fields.divergence_run_B (n : ℕ) (x : DataSpace D) :
    divergence 0 1 u.toGridUnits (f.run u J n).B.value x = divergence 0 1 u.toGridUnits f.B.value x := by
  induction n with
  | zero => rfl
  | succ n ih => exact (divergence_step_B u _ _ x).trans ih

theorem Fields.gauss_run_E {rho : ℕ → DataSpace D → ℚ}
    (hcont : ∀ n, Continuity u (rho n) (rho (n + 1)) (J n).value) (n : ℕ) (x : DataSpace D) :
    divergence (-1) 0 u.toGridUnits (f.run u J n).E.value x - rho n x / u.eps0 =
      divergence (-1) 0 u.toGridUnits f.E.value x - rho 0 x / u.eps0 := by
  induction n with
  | zero => rfl
  | succ n ih =>
    refine ((hcont n).gauss u _ x).trans ?_
    rw [← ih]
    exact congrArg (· - rho n x / u.eps0) (divergence_kernelUpdateE u _ _ x)

/-- The divergence of the magnetic field never changes, whatever the current is. If the current fulfils the
continuity equation, the violation of Gauss's law never changes. Both hold within the steps too. -/
theorem maxwell_invariants :
    (∀ n x, divergence 0 1 u.toGridUnits (f.run u J n).B.value x = divergence 0 1 u.toGridUnits f.B.value x ∧
      divergence 0 1 u.toGridUnits ((f.run u J n).update_beforeCurrent u).B.value x =
        divergence 0 1 u.toGridUnits f.B.value x) ∧
    ∀ rho : ℕ → DataSpace D → ℚ, (∀ n, Continuity u (rho n) (rho (n + 1)) (J n).value) →
      ∀ n x, divergence (-1) 0 u.toGridUnits (f.run u J n).E.value x - rho n x / u.eps0 =
          divergence (-1) 0 u.toGridUnits f.E.value x - rho 0 x / u.eps0 ∧
        divergence (-1) 0 u.toGridUnits ((f.run u J n).update_beforeCurrent u).E.value x - rho n x / u.eps0 =
          divergence (-1) 0 u.toGridUnits f.E.value x - rho 0 x / u.eps0 ∧
        divergence (-1) 0 u.toGridUnits
            (((f.run u J n).update_beforeCurrent u).addCurrentToEMF u (J n)).E.value x - rho (n + 1) x / u.eps0 =
          divergence (-1) 0 u.toGridUnits f.E.value x - rho 0 x / u.eps0 := by
  refine ⟨fun n x => ⟨Fields.divergence_run_B u J f n x, ?_⟩, fun rho hcont n x => ⟨?_, ?_, ?_⟩⟩
  · exact (divergence_kernelUpdateBHalf u _ _ x).trans (Fields.divergence_run_B u J f n x)
  · exact Fields.gauss_run_E u J f hcont n x
  · refine Eq.trans ?_ (Fields.gauss_run_E u J f hcont n x)
    exact congrArg (· - rho n x / u.eps0) (divergence_kernelUpdateE u _ _ x)
  · exact Fields.gauss_run_E u J f hcont (n + 1) x

end Invariants

/-- A sawtooth of the magnetic field in a plane of four by four cells. -/
def sawtooth : Fields (D := 2) fun _ => 4 where
  E := ⟨fun _ => 0, fun _ => rfl⟩
  B := ⟨fun x => ![0, 0, (x 0 % 4 : ℤ)], fun h => by rw [h 0]⟩

def unitUnits : FieldUnits := ⟨VillaBune.unitCells, 1, 1⟩

/-- The sawtooth with a uniform current. -/
theorem maxwell_invariants_sawtooth :
    (∀ _ : ℕ, Continuity unitUnits (fun _ : DataSpace 2 => 0) (fun _ => 0) fun _ => ![1, 0, 0]) ∧
      ∀ n x, divergence (-1) 0 unitUnits.toGridUnits
          (sawtooth.run unitUnits (fun _ => ⟨fun _ => ![1, 0, 0], fun _ => rfl⟩) n).E.value x - 0 / unitUnits.eps0 =
        divergence (-1) 0 unitUnits.toGridUnits sawtooth.E.value x - 0 / unitUnits.eps0 := by
  have hcont : ∀ _ : ℕ, Continuity unitUnits (fun _ : DataSpace 2 => 0) (fun _ => 0) fun _ => ![1, 0, 0] := fun _ x => by
    simp [divergence_eq, scalarDifference]
  exact ⟨hcont, fun n x => ((maxwell_invariants unitUnits (fun _ => ⟨fun _ => ![1, 0, 0], fun _ => rfl⟩)
    sawtooth).2 (fun _ _ => 0) hcont n x).1⟩

end PIConGPU.YeeSolver
