import PIConGPU.YeeSolver

/-!
# The curl of the Lehe solver

Each derivative is a weighted sum of differences over neighboring cells. The weights depend on the
direction in which the numerical dispersion is suppressed and add up to one.
-/
namespace PIConGPU.LeheCurl
open YeeSolver

inductive CherenkovFreeDirection
  | X
  | Y
  deriving DecidableEq, Repr

abbrev DataBox := DataSpace 3 → Option (Fin 3 → ℚ)

/-- `mem[z][y][x]` -/
def DataBox.get (mem : DataBox) (z y x : ℤ) : Option (Fin 3 → ℚ) := mem ![x, y, z]

/-- `mem(Space(x,y,z)*(-1))` -/
def DataBox.getMirrored (mem : DataBox) (x y z : ℤ) : Option (Fin 3 → ℚ) := mem.get (-z) (-y) (-x)

/-- The first letter is the direction of differentiation, the second one the direction of averaging. -/
structure Coefficients where
  beta_xy : ℚ
  beta_xz : ℚ
  beta_yx : ℚ
  beta_yz : ℚ
  beta_zx : ℚ
  beta_zy : ℚ
  delta_dir0 : ℚ
  alpha_x : ℚ
  alpha_y : ℚ
  alpha_z : ℚ

section Curl

variable (u : FieldUnits) (M_PI : ℚ) (sin : ℚ → ℚ)

def coefficients (isDir_x isDir_y isDir_z : ℚ) : Coefficients :=
  let isNotDir_x := 1 - isDir_x
  let isNotDir_y := 1 - isDir_y
  let isNotDir_z := 1 - isDir_z
  let dx2 := u.cellSize 0 * u.cellSize 0
  let dy2 := u.cellSize 1 * u.cellSize 1
  let dz2 := u.cellSize 2 * u.cellSize 2
  let dt2 := u.deltaT * u.deltaT
  let c2 := u.speedOfLight * u.speedOfLight
  let beta_xy := 1 / 8 * dx2 / dy2 * isDir_x + 1 / 8 * isNotDir_x * isDir_y
  let beta_xz := 1 / 8 * dx2 / dz2 * isDir_x + 1 / 8 * isNotDir_x * isDir_z
  let beta_yx := 1 / 8 * dy2 / dx2 * isDir_y + 1 / 8 * isNotDir_y * isDir_x
  let beta_yz := 1 / 8 * dy2 / dz2 * isDir_y + 1 / 8 * isNotDir_y * isDir_z
  let beta_zx := 1 / 8 * dz2 / dx2 * isDir_z + 1 / 8 * isNotDir_z * isDir_x
  let beta_zy := 1 / 8 * dz2 / dy2 * isDir_z + 1 / 8 * isNotDir_z * isDir_y
  let d_dir := u.cellSize 0 * isDir_x + u.cellSize 1 * isDir_y + u.cellSize 2 * isDir_z
  let d_dir2 := d_dir * d_dir
  let mySin := sin (1 / 2 * M_PI * u.speedOfLight * u.deltaT / d_dir)
  let delta_dir0 := 1 / 4 * (1 - d_dir2 / (c2 * dt2) * mySin * mySin)
  { beta_xy, beta_xz, beta_yx, beta_yz, beta_zx, beta_zy, delta_dir0
    alpha_x := 1 - 2 * beta_xy * isNotDir_x * isDir_y - 2 * beta_xz * isNotDir_x * isDir_z
      - 2 * beta_xy * isDir_x - 2 * beta_xz * isDir_x - 3 * delta_dir0 * isDir_x
    alpha_y := 1 - 2 * beta_yx * isNotDir_y * isDir_x - 2 * beta_yz * isNotDir_y * isDir_z
      - 2 * beta_yx * isDir_y - 2 * beta_yz * isDir_y - 3 * delta_dir0 * isDir_y
    alpha_z := 1 - 2 * beta_zx * isNotDir_z * isDir_x - 2 * beta_zy * isNotDir_z * isDir_y
      - 2 * beta_zx * isDir_z - 2 * beta_zy * isDir_z - 3 * delta_dir0 * isDir_z }

/-- A sum of weighted differences of one component. Each term has its weight and the two cells. -/
def differences (cell : ℤ → ℤ → ℤ → Option (Fin 3 → ℚ)) (c : Fin 3) :
    List (ℚ × (ℤ × ℤ × ℤ) × (ℤ × ℤ × ℤ)) → Option ℚ
  | [] => some 0
  | (weight, p, q) :: terms => do
    let a ← cell p.1 p.2.1 p.2.2
    let b ← cell q.1 q.2.1 q.2.2
    let rest ← differences cell c terms
    return weight * (a c - b c) + rest

/-- `CurlELehe<CherenkovFreeDirection_X>` -/
def curlELeheX (mem : DataBox) : Option (Fin 3 → ℚ) := do
  let k := coefficients u M_PI sin 1 0 0
  let reci_dx := 1 / u.cellSize 0
  let reci_dy := 1 / u.cellSize 1
  let reci_dz := 1 / u.cellSize 2
  let curl_x := (
    ← differences mem.get 2 [
      (k.alpha_y, (0, 0, 0), (0, -1, 0)),
      (k.beta_yx, (1, 0, 0), (1, -1, 0)),
      (k.beta_yx, (-1, 0, 0), (-1, -1, 0))]) * reci_dy
    - (← differences mem.get 1 [
      (k.alpha_z, (0, 0, 0), (0, 0, -1)),
      (k.beta_zx, (1, 0, 0), (1, 0, -1)),
      (k.beta_zx, (-1, 0, 0), (-1, 0, -1))]) * reci_dz
  let curl_y := (
    ← differences mem.get 0 [
      (k.alpha_z, (0, 0, 0), (0, 0, -1)),
      (k.beta_zx, (1, 0, 0), (1, 0, -1)),
      (k.beta_zx, (-1, 0, 0), (-1, 0, -1))]) * reci_dz
    - (← differences mem.get 2 [
      (k.alpha_x, (0, 0, 0), (-1, 0, 0)),
      (k.delta_dir0, (1, 0, 0), (-2, 0, 0)),
      (k.beta_xy, (0, 1, 0), (-1, 1, 0)),
      (k.beta_xy, (0, -1, 0), (-1, -1, 0)),
      (k.beta_xz, (0, 0, 1), (-1, 0, 1)),
      (k.beta_xz, (0, 0, -1), (-1, 0, -1))]) * reci_dx
  let curl_z := (
    ← differences mem.get 1 [
      (k.alpha_x, (0, 0, 0), (-1, 0, 0)),
      (k.delta_dir0, (1, 0, 0), (-2, 0, 0)),
      (k.beta_xy, (0, 1, 0), (-1, 1, 0)),
      (k.beta_xy, (0, -1, 0), (-1, -1, 0)),
      (k.beta_xz, (0, 0, 1), (-1, 0, 1)),
      (k.beta_xz, (0, 0, -1), (-1, 0, -1))]) * reci_dx
    - (← differences mem.get 0 [
      (k.alpha_y, (0, 0, 0), (0, -1, 0)),
      (k.beta_yx, (1, 0, 0), (1, -1, 0)),
      (k.beta_yx, (-1, 0, 0), (-1, -1, 0))]) * reci_dy
  return ![curl_x, curl_y, curl_z]

/-- `CurlELehe<CherenkovFreeDirection_Y>` -/
def curlELeheY (mem : DataBox) : Option (Fin 3 → ℚ) := do
  let k := coefficients u M_PI sin 0 1 0
  let reci_dx := 1 / u.cellSize 0
  let reci_dy := 1 / u.cellSize 1
  let reci_dz := 1 / u.cellSize 2
  let curl_x := (
    ← differences mem.getMirrored 2 [
      (k.alpha_y, (0, 0, 0), (0, -1, 0)),
      (k.beta_yz, (0, 0, 1), (0, -1, 1)),
      (k.beta_yz, (0, 0, -1), (0, -1, -1)),
      (k.beta_yx, (1, 0, 0), (1, -1, 0)),
      (k.beta_yx, (-1, 0, 0), (-1, -1, 0)),
      (k.delta_dir0, (0, 1, 0), (0, -2, 0))]) * reci_dy
    - (← differences mem.getMirrored 1 [
      (k.alpha_z, (0, 0, 0), (0, 0, -1)),
      (k.beta_zx, (1, 0, 0), (1, 0, -1)),
      (k.beta_zx, (-1, 0, 0), (-1, 0, -1)),
      (k.beta_zy, (0, 1, 0), (0, 1, -1)),
      (k.beta_zy, (0, -1, 0), (0, -1, -1))]) * reci_dz
  let curl_y := (
    ← differences mem.getMirrored 0 [
      (k.alpha_z, (0, 0, 0), (0, 0, -1)),
      (k.beta_zx, (1, 0, 0), (1, 0, -1)),
      (k.beta_zx, (-1, 0, 0), (-1, 0, -1)),
      (k.beta_zy, (0, 1, 0), (0, 1, -1)),
      (k.beta_zy, (0, -1, 0), (0, -1, -1))]) * reci_dz
    - (← differences mem.getMirrored 2 [
      (k.alpha_x, (0, 0, 0), (-1, 0, 0)),
      (k.beta_xy, (0, 1, 0), (-1, 1, 0)),
      (k.beta_xy, (0, -1, 0), (-1, -1, 0)),
      (k.beta_xz, (0, 0, 1), (-1, 0, 1)),
      (k.beta_xz, (0, 0, -1), (-1, 0, -1))]) * reci_dx
  let curl_z := (
    ← differences mem.getMirrored 1 [
      (k.alpha_x, (0, 0, 0), (-1, 0, 0)),
      (k.beta_xy, (0, 1, 0), (-1, 1, 0)),
      (k.beta_xy, (0, -1, 0), (-1, -1, 0)),
      (k.beta_xz, (0, 0, 1), (-1, 0, 1)),
      (k.beta_xz, (0, 0, -1), (-1, 0, -1))]) * reci_dx
    - (← differences mem.getMirrored 0 [
      (k.alpha_y, (0, 0, 0), (0, -1, 0)),
      (k.beta_yz, (0, 0, 1), (0, -1, 1)),
      (k.beta_yz, (0, 0, -1), (0, -1, -1)),
      (k.beta_yx, (1, 0, 0), (1, -1, 0)),
      (k.beta_yx, (-1, 0, 0), (-1, -1, 0)),
      (k.delta_dir0, (0, 1, 0), (0, -2, 0))]) * reci_dy
  return ![-curl_x, -curl_y, -curl_z]

def curlELehe : CherenkovFreeDirection → DataBox → Option (Fin 3 → ℚ)
  | .X => curlELeheX u M_PI sin
  | .Y => curlELeheY u M_PI sin

end Curl

/-- `LowerMargin` and `UpperMargin` -/
def withinMargins (n : DataSpace 3) : Prop := ∀ d, -1 ≤ n d ∧ n d ≤ 2

instance (n : DataSpace 3) : Decidable (withinMargins n) := inferInstanceAs (Decidable (∀ _, _))

def DataBox.restrict (mem : DataBox) : DataBox := fun n => if withinMargins n then mem n else none

/-- A vector field whose components are affine functions of the position. -/
structure AffineField where
  origin : Fin 3 → ℚ
  gradient : Fin 3 → Fin 3 → ℚ

namespace AffineField

variable (F : AffineField)

def value (u : GridUnits) (cell : DataSpace 3) : Fin 3 → ℚ :=
  fun c => F.origin c + ∑ d, F.gradient c d * (cell d * u.cellSize d)

def analyticCurl : Fin 3 → ℚ :=
  ![F.gradient 2 1 - F.gradient 1 2, F.gradient 0 2 - F.gradient 2 0, F.gradient 1 0 - F.gradient 0 1]

/-- The values of the field around a cell. -/
def box (u : GridUnits) (cell : DataSpace 3) : DataBox := fun n => some (F.value u (cell + n))

theorem value_sub (u : GridUnits) (p q : DataSpace 3) (c : Fin 3) :
    F.value u p c - F.value u q c = ∑ d, F.gradient c d * ((p d - q d : ℤ) * u.cellSize d) := by
  rw [value, value, add_sub_add_left_eq_sub, ← Finset.sum_sub_distrib]
  refine Finset.sum_congr rfl fun d _ => ?_
  push_cast
  ring

/-- A difference along the cells is the gradient times the distance. -/
theorem differences_box (u : GridUnits) (cell : DataSpace 3) (place : ℤ → ℤ → ℤ → DataSpace 3) (c : Fin 3)
    (terms : List (ℚ × (ℤ × ℤ × ℤ) × (ℤ × ℤ × ℤ))) :
    differences (fun a b e => F.box u cell (place a b e)) c terms =
      some (terms.map fun t => t.1 * ∑ d, F.gradient c d *
        ((place t.2.1.1 t.2.1.2.1 t.2.1.2.2 d - place t.2.2.1 t.2.2.2.1 t.2.2.2.2 d : ℤ) * u.cellSize d)).sum := by
  induction terms with
  | nil => rfl
  | cons t terms ih =>
    simp only [differences, ih, List.map_cons, List.sum_cons]
    simp only [box, Option.bind_eq_bind, Option.bind_some, Option.pure_def, value_sub, Pi.add_apply,
      add_sub_add_left_eq_sub]

end AffineField

theorem differences_congr {cell cell' : ℤ → ℤ → ℤ → Option (Fin 3 → ℚ)} {c : Fin 3}
    {terms : List (ℚ × (ℤ × ℤ × ℤ) × (ℤ × ℤ × ℤ))}
    (h : ∀ t ∈ terms, cell t.2.1.1 t.2.1.2.1 t.2.1.2.2 = cell' t.2.1.1 t.2.1.2.1 t.2.1.2.2 ∧
      cell t.2.2.1 t.2.2.2.1 t.2.2.2.2 = cell' t.2.2.1 t.2.2.2.1 t.2.2.2.2) :
    differences cell c terms = differences cell' c terms := by
  induction terms with
  | nil => rfl
  | cons t terms ih =>
    obtain ⟨hp, hq⟩ := h t (List.mem_cons_self ..)
    simp only [differences, hp, hq, ih fun t ht => h t (List.mem_cons_of_mem _ ht)]

section Exactness

variable (u : FieldUnits) (M_PI : ℚ) (sin : ℚ → ℚ) (F : AffineField) (cell : DataSpace 3)

theorem curlELeheX_box : curlELeheX u M_PI sin (F.box u.toGridUnits cell) = some
    ![F.gradient 2 1 - u.cellSize 0 / u.cellSize 2 * F.gradient 1 0,
      u.cellSize 0 / u.cellSize 2 * F.gradient 0 0 - u.cellSize 2 / u.cellSize 0 * F.gradient 2 2,
      u.cellSize 2 / u.cellSize 0 * F.gradient 1 2 - F.gradient 0 1] := by
  have hx := (u.cellSize_pos 0).ne'
  have hy := (u.cellSize_pos 1).ne'
  have hz := (u.cellSize_pos 2).ne'
  have hdiff := fun c terms => F.differences_box u.toGridUnits cell (fun a b e => ![e, b, a]) c terms
  have hget : (F.box u.toGridUnits cell).get = fun a b e => F.box u.toGridUnits cell ![e, b, a] := rfl
  simp only [curlELeheX, hget, hdiff, Option.bind_eq_bind, Option.bind_some, Option.pure_def]
  refine congrArg some (funext fun c => ?_)
  fin_cases c <;>
  · simp [Fin.sum_univ_three, coefficients]
    field_simp
    ring

theorem curlELeheY_box : curlELeheY u M_PI sin (F.box u.toGridUnits cell) = some F.analyticCurl := by
  have hx := (u.cellSize_pos 0).ne'
  have hy := (u.cellSize_pos 1).ne'
  have hz := (u.cellSize_pos 2).ne'
  have hdiff := fun c terms => F.differences_box u.toGridUnits cell (fun a b e => ![-a, -b, -e]) c terms
  have hget : (F.box u.toGridUnits cell).getMirrored =
      fun a b e => F.box u.toGridUnits cell ![-a, -b, -e] := rfl
  simp only [curlELeheY, hget, hdiff, Option.bind_eq_bind, Option.bind_some, Option.pure_def]
  refine congrArg some (funext fun c => ?_)
  fin_cases c <;>
  · simp [Fin.sum_univ_three, coefficients, AffineField.analyticCurl]
    field_simp
    ring

variable {u M_PI sin F cell}

theorem restrict_of_within {mem : DataBox} {n : DataSpace 3} (h : withinMargins n) : mem.restrict n = mem n :=
  if_pos h

theorem restrict_of_not_within {mem : DataBox} {n : DataSpace 3} (h : ¬ withinMargins n) : mem.restrict n = none :=
  if_neg h

/-- All cells that are accessed in the free direction y are within the margins. -/
theorem curlELeheY_restrict (mem : DataBox) : curlELeheY u M_PI sin mem.restrict = curlELeheY u M_PI sin mem := by
  have hget : ∀ x y z, withinMargins ![-x, -y, -z] → mem.restrict.getMirrored x y z = mem.getMirrored x y z :=
    fun x y z h => restrict_of_within h
  have hdiff : ∀ c terms,
      (∀ t ∈ terms, withinMargins ![-t.2.1.1, -t.2.1.2.1, -t.2.1.2.2] ∧
        withinMargins ![-t.2.2.1, -t.2.2.2.1, -t.2.2.2.2]) →
      differences mem.restrict.getMirrored c terms = differences mem.getMirrored c terms :=
    fun c terms h => differences_congr fun t ht => ⟨hget _ _ _ (h t ht).1, hget _ _ _ (h t ht).2⟩
  unfold curlELeheY
  dsimp only
  rw [hdiff, hdiff, hdiff, hdiff, hdiff, hdiff] <;>
  · simp only [List.forall_mem_cons]
    decide

/-- In the free direction x the second lower neighbor is accessed. -/
theorem curlELeheX_restrict (mem : DataBox) : curlELeheX u M_PI sin mem.restrict = none := by
  have hget : mem.restrict.get (-2) 0 0 = none := restrict_of_not_within (by decide)
  have hdiff : ∀ c weight p terms t, differences mem.restrict.get c (t :: (weight, p, (-2, 0, 0)) :: terms) = none := by
    intro c weight p terms t
    simp [differences, hget]
  unfold curlELeheX
  simp [hdiff]

/-- The curl of an affine field is computed from the cells within the margins exactly if the free direction
is y. With access to all cells the curl for the free direction x is exact for those fields only that do not
tell its exchanged axes apart. -/
theorem curlELehe_eq_analyticCurl_iff (direction : CherenkovFreeDirection) :
    (curlELehe u M_PI sin direction (F.box u.toGridUnits cell).restrict = some F.analyticCurl ↔ direction = .Y) ∧
    (curlELehe u M_PI sin direction (F.box u.toGridUnits cell) = some F.analyticCurl ↔ direction = .Y ∨
      (u.cellSize 0 * F.gradient 1 0 = u.cellSize 2 * F.gradient 1 2 ∧
        u.cellSize 0 / u.cellSize 2 * F.gradient 0 0 - u.cellSize 2 / u.cellSize 0 * F.gradient 2 2 =
          F.gradient 0 2 - F.gradient 2 0)) := by
  have hx := (u.cellSize_pos 0).ne'
  have hz := (u.cellSize_pos 2).ne'
  cases direction with
  | Y => simp [curlELehe, curlELeheY_restrict, curlELeheY_box]
  | X =>
    refine ⟨by simp [curlELehe, curlELeheX_restrict], ?_⟩
    simp only [curlELehe, curlELeheX_box, Option.some_inj, AffineField.analyticCurl, reduceCtorEq, false_or]
    constructor
    · intro h
      have h0 : F.gradient 2 1 - u.cellSize 0 / u.cellSize 2 * F.gradient 1 0 = F.gradient 2 1 - F.gradient 1 2 :=
        congrFun h 0
      refine ⟨?_, congrFun h 1⟩
      field_simp at h0
      linarith
    · rintro ⟨hxz, hy⟩
      have h0 : u.cellSize 0 / u.cellSize 2 * F.gradient 1 0 = F.gradient 1 2 := by
        field_simp
        exact hxz
      have h2 : u.cellSize 2 / u.cellSize 0 * F.gradient 1 2 = F.gradient 1 0 := by
        field_simp
        exact hxz.symm
      rw [h0, hy, h2]

end Exactness

/-- A field along x that grows along z, on cubic cells. -/
theorem curlELeheX_of_linear_field :
    let u : FieldUnits := { cellSize := 1, deltaT := 1 / 2, speedOfLight := 1, eps0 := 1
                            cellSize_pos := fun _ => one_pos, deltaT_pos := by norm_num }
    let F : AffineField := ⟨0, fun c d => if c = 0 ∧ d = 2 then 1 else 0⟩
    curlELehe u 3 (fun _ => 1 / 2) .X (F.box u.toGridUnits 0).restrict = none ∧
      curlELehe u 3 (fun _ => 1 / 2) .X (F.box u.toGridUnits 0) = some ![0, 0, 0] ∧
      F.analyticCurl = ![0, 1, 0] := by
  refine ⟨curlELeheX_restrict _, ?_, ?_⟩
  · rw [curlELehe, curlELeheX_box]
    simp
  · simp [AffineField.analyticCurl]

end PIConGPU.LeheCurl
