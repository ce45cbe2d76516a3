import PIConGPU.VectorRotation

/-!
# Particle pushers

A pusher advances the momentum of a particle in the electric and magnetic field at its position, and then moves the
particle with the velocity of the new momentum. The numbers are elements of an ordered field with square roots.
-/
namespace PIConGPU

structure SquareRoot (K : Type*) [Field K] [LinearOrder K] where
  sqrt : K → K
  sqrt_nonneg : ∀ x, 0 ≤ sqrt x
  mul_self_sqrt : ∀ x, 0 ≤ x → sqrt x * sqrt x = x

/-- The constants that the pushers use, and the mass and charge of a macro particle. -/
structure PusherUnits (K : Type*) [Field K] [LinearOrder K] where
  cellSize : Fin 3 → K
  deltaT : K
  speedOfLight : K
  mass : K
  charge : K
  cellSize_pos : ∀ d, 0 < cellSize d
  deltaT_pos : 0 < deltaT
  speedOfLight_pos : 0 < speedOfLight
  mass_pos : 0 < mass

structure PushedParticle (D : ℕ) (K : Type*) where
  pos : Fin D → K
  mom : Fin 3 → K

namespace ParticlePusher

open Matrix VectorRotation

variable {K : Type*} [Field K] [LinearOrder K] (R : SquareRoot K) (u : PusherUnits K)

def cross (lhs rhs : Fin 3 → K) : Fin 3 → K :=
  ![lhs 1 * rhs 2 - lhs 2 * rhs 1, lhs 2 * rhs 0 - lhs 0 * rhs 2, lhs 0 * rhs 1 - lhs 1 * rhs 0]

def gamma (mom : Fin 3 → K) : K := R.sqrt (1 + mom ⬝ᵥ mom * (1 / (u.mass * u.mass * (u.speedOfLight * u.speedOfLight))))

/-- The constant `MUE0_EPS0` is `1 / SPEED_OF_LIGHT / SPEED_OF_LIGHT`. -/
def velocity (mom : Fin 3 → K) : Fin 3 → K :=
  (1 / R.sqrt (u.mass * u.mass + mom ⬝ᵥ mom * (1 / u.speedOfLight / u.speedOfLight))) • mom

def move {D : ℕ} (pos : Fin D → K) (vel : Fin 3 → K) : Fin D → K := fun d =>
  pos d + vel (Fin.ofNat 3 d) * u.deltaT / u.cellSize (Fin.ofNat 3 d)

namespace Boris

def momMinus (eField mom : Fin 3 → K) : Fin 3 → K := mom + (1 / 2 * u.charge * u.deltaT) • eField

def t (bField mom_minus : Fin 3 → K) : Fin 3 → K :=
  (1 / 2 * (u.charge / u.mass) * (1 / gamma R u mom_minus) * u.deltaT) • bField

def momPlus (bField mom_minus : Fin 3 → K) : Fin 3 → K :=
  let t := t R u bField mom_minus
  let s := (2 * (1 / (1 + t ⬝ᵥ t))) • t
  let mom_prime := mom_minus + cross mom_minus t
  mom_minus + cross mom_prime s

def newMom (bField eField mom : Fin 3 → K) : Fin 3 → K :=
  momPlus R u bField (momMinus u eField mom) + (1 / 2 * u.charge * u.deltaT) • eField

def push {D : ℕ} (bField eField : Fin 3 → K) (p : PushedParticle D K) : PushedParticle D K :=
  let new_mom := newMom R u bField eField p.mom
  ⟨move u p.pos (velocity R u new_mom), new_mom⟩

end Boris

namespace Vay

def factor : K := 1 / 2 * u.charge * u.deltaT

def momentumPrime (bField eField mom : Fin 3 → K) : Fin 3 → K :=
  let momentum_atZero := mom + factor u • (eField + cross (velocity R u mom) bField)
  momentum_atZero + factor u • eField

def tau (bField : Fin 3 → K) : Fin 3 → K := (factor u / u.mass) • bField

def gammaAtPlusHalf (bField momentum_prime : Fin 3 → K) : K :=
  let gamma_prime := gamma R u momentum_prime
  let tau := tau u bField
  let u_star := momentum_prime ⬝ᵥ tau / (u.speedOfLight * u.mass)
  let sigma := gamma_prime * gamma_prime - tau ⬝ᵥ tau
  R.sqrt (1 / 2 * (sigma + R.sqrt (sigma * sigma + 4 * (tau ⬝ᵥ tau + u_star * u_star))))

def newMom (bField eField mom : Fin 3 → K) : Fin 3 → K :=
  let momentum_prime := momentumPrime R u bField eField mom
  let t := (1 / gammaAtPlusHalf R u bField momentum_prime) • tau u bField
  let s := 1 / (1 + t ⬝ᵥ t)
  s • (momentum_prime + (momentum_prime ⬝ᵥ t) • t + cross momentum_prime t)

def push {D : ℕ} (bField eField : Fin 3 → K) (p : PushedParticle D K) : PushedParticle D K :=
  let momentum_atPlusHalf := newMom R u bField eField p.mom
  ⟨move u p.pos (velocity R u momentum_atPlusHalf), momentum_atPlusHalf⟩

end Vay

def Free.push {D : ℕ} (p : PushedParticle D K) : PushedParticle D K := ⟨move u p.pos (velocity R u p.mom), p.mom⟩

/-- A photon needs a momentum that is not zero. -/
def Photon.push {D : ℕ} (p : PushedParticle D K) : PushedParticle D K :=
  ⟨move u p.pos ((u.speedOfLight / R.sqrt (p.mom ⬝ᵥ p.mom)) • p.mom), p.mom⟩

end ParticlePusher

inductive Pusher
  | None
  | Boris
  | Vay
  | Free
  | Photon

open ParticlePusher in
def Pusher.push {K : Type*} [Field K] [LinearOrder K] (R : SquareRoot K) (u : PusherUnits K) {D : ℕ}
    (bField eField : Fin 3 → K) (p : PushedParticle D K) : Pusher → PushedParticle D K
  | .None => p
  | .Boris => Boris.push R u bField eField p
  | .Vay => Vay.push R u bField eField p
  | .Free => Free.push R u p
  | .Photon => Photon.push R u p

namespace ParticlePusher

open Matrix VectorRotation

variable {K : Type*} [Field K] [LinearOrder K] [IsStrictOrderedRing K] {R : SquareRoot K} {u : PusherUnits K}

section RealNumbers

noncomputable def realRoot : SquareRoot ℝ := ⟨Real.sqrt, Real.sqrt_nonneg, fun _ => Real.mul_self_sqrt⟩

noncomputable def unitParticle : PusherUnits ℝ where
  cellSize _ := 1
  deltaT := 1 / 2
  speedOfLight := 1
  mass := 1
  charge := 1
  cellSize_pos _ := one_pos
  deltaT_pos := by norm_num
  speedOfLight_pos := one_pos
  mass_pos := one_pos

end RealNumbers

omit [LinearOrder K] [IsStrictOrderedRing K] in
theorem cross_eq (v w : Fin 3 → K) : cross v w = v ⨯₃ w := Eq.symm (cross_apply v w)

section Sqrt

omit [IsStrictOrderedRing K] in
theorem sqrt_pos {x : K} (hx : 0 < x) : 0 < R.sqrt x := by
  refine (R.sqrt_nonneg x).lt_of_ne' fun h => ?_
  have hsq := R.mul_self_sqrt x hx.le
  rw [h, zero_mul] at hsq
  exact hx.ne hsq

/-- The root is the only number that is not negative and has this square. -/
theorem sqrt_eq {x y : K} (hy : 0 ≤ y) (h : y * y = x) : R.sqrt x = y := by
  have hx : 0 ≤ x := h ▸ mul_self_nonneg y
  exact (mul_self_inj (R.sqrt_nonneg x) hy).mp ((R.mul_self_sqrt x hx).trans h.symm)

theorem dot_self_nonneg (v : Fin 3 → K) : 0 ≤ v ⬝ᵥ v := Finset.sum_nonneg fun d _ => mul_self_nonneg (v d)

theorem massFactor_pos (u : PusherUnits K) : 0 < 1 / (u.mass * u.mass * (u.speedOfLight * u.speedOfLight)) :=
  one_div_pos.mpr (mul_pos (mul_pos u.mass_pos u.mass_pos) (mul_pos u.speedOfLight_pos u.speedOfLight_pos))

theorem gamma_arg_pos (u : PusherUnits K) (mom : Fin 3 → K) :
    0 < 1 + mom ⬝ᵥ mom * (1 / (u.mass * u.mass * (u.speedOfLight * u.speedOfLight))) := by
  have h := mul_nonneg (dot_self_nonneg mom) (massFactor_pos u).le
  linarith

theorem gamma_pos (mom : Fin 3 → K) : 0 < gamma R u mom := sqrt_pos (gamma_arg_pos u mom)

theorem gamma_mul_self (mom : Fin 3 → K) : gamma R u mom * gamma R u mom =
    1 + mom ⬝ᵥ mom * (1 / (u.mass * u.mass * (u.speedOfLight * u.speedOfLight))) :=
  R.mul_self_sqrt _ (gamma_arg_pos u mom).le

omit [IsStrictOrderedRing K] in
theorem gamma_congr {mom mom' : Fin 3 → K} (h : mom ⬝ᵥ mom = mom' ⬝ᵥ mom') : gamma R u mom = gamma R u mom' := by
  rw [gamma, gamma, h]

/-- The velocity is the momentum over the relativistic mass. -/
theorem velocity_eq (mom : Fin 3 → K) : velocity R u mom = (1 / (u.mass * gamma R u mom)) • mom := by
  have hm := u.mass_pos.ne'
  have hc := u.speedOfLight_pos.ne'
  rw [velocity, sqrt_eq (mul_pos u.mass_pos (gamma_pos mom)).le]
  rw [mul_mul_mul_comm, gamma_mul_self]
  field_simp

end Sqrt

section Boris

variable {bField eField mom : Fin 3 → K}

/-- The magnetic field rotates the momentum. -/
theorem Boris.momPlus_isRotation (bField mom_minus : Fin 3 → K) :
    IsRotation (Boris.t R u bField mom_minus) mom_minus (Boris.momPlus R u bField mom_minus) := by
  rw [Boris.momPlus, cross_eq, cross_eq]
  exact isRotation_cross_cross _ _

theorem Boris.momPlus_dot_self (bField mom_minus : Fin 3 → K) :
    Boris.momPlus R u bField mom_minus ⬝ᵥ Boris.momPlus R u bField mom_minus = mom_minus ⬝ᵥ mom_minus :=
  (Boris.momPlus_isRotation bField mom_minus).dot_self

omit [IsStrictOrderedRing K] in
theorem Boris.newMom_zero (bField mom : Fin 3 → K) : Boris.newMom R u bField 0 mom = Boris.momPlus R u bField mom := by
  rw [Boris.newMom, Boris.momMinus, smul_zero, add_zero, add_zero]

omit [IsStrictOrderedRing K] in
theorem Boris.t_neg (bField mom_minus mom_minus' : Fin 3 → K) (h : mom_minus' ⬝ᵥ mom_minus' = mom_minus ⬝ᵥ mom_minus) :
    Boris.t R u (-bField) mom_minus' = -Boris.t R u bField mom_minus := by
  rw [Boris.t, Boris.t, gamma_congr h, smul_neg]

/-- With the magnetic field turned round, the momentum comes back. -/
theorem Boris.momPlus_reverse (bField mom_minus : Fin 3 → K) :
    Boris.momPlus R u (-bField) (-Boris.momPlus R u bField mom_minus) = -mom_minus := by
  set mom_plus := Boris.momPlus R u bField mom_minus with hplus
  have hlength : -mom_plus ⬝ᵥ -mom_plus = mom_minus ⬝ᵥ mom_minus := by
    rw [neg_dotProduct_neg, hplus, Boris.momPlus_dot_self]
  have hback := Boris.momPlus_isRotation (R := R) (u := u) (-bField) (-mom_plus)
  rw [Boris.t_neg bField mom_minus _ hlength] at hback
  have hrotation : IsRotation (-Boris.t R u bField mom_minus) (-mom_plus) (-mom_minus) :=
    (Boris.momPlus_isRotation bField mom_minus).symm.neg
  exact hback.unique hrotation

theorem Boris.newMom_reverse (bField eField mom : Fin 3 → K) :
    Boris.newMom R u (-bField) eField (-Boris.newMom R u bField eField mom) = -mom := by
  have hminus : Boris.momMinus u eField (-Boris.newMom R u bField eField mom) =
      -Boris.momPlus R u bField (Boris.momMinus u eField mom) := by
    rw [Boris.momMinus, Boris.newMom]
    abel
  rw [Boris.newMom, hminus, Boris.momPlus_reverse, Boris.momMinus]
  abel

def Boris.run (R : SquareRoot K) (u : PusherUnits K) (fields : List ((Fin 3 → K) × (Fin 3 → K))) (mom : Fin 3 → K) :
    Fin 3 → K :=
  fields.foldl (fun mom field => Boris.newMom R u field.1 field.2 mom) mom

/-- Boris' pusher does not change the length of the momentum unless there is an electric field, and its steps can be
undone in any fields: the run back is the one with all momenta and magnetic fields turned round. -/
theorem Boris.run_spec (fields : List ((Fin 3 → K) × (Fin 3 → K))) (mom : Fin 3 → K) :
    ((∀ field ∈ fields, field.2 = 0) → Boris.run R u fields mom ⬝ᵥ Boris.run R u fields mom = mom ⬝ᵥ mom ∧
      gamma R u (Boris.run R u fields mom) = gamma R u mom) ∧
    Boris.run R u (fields.reverse.map fun field => (-field.1, field.2)) (-Boris.run R u fields mom) = -mom := by
  induction fields generalizing mom with
  | nil => exact ⟨fun _ => ⟨rfl, rfl⟩, rfl⟩
  | cons field fields ih =>
    obtain ⟨ihlength, ihback⟩ := ih (Boris.newMom R u field.1 field.2 mom)
    refine ⟨fun hzero => ?_, ?_⟩
    · have hstep : Boris.newMom R u field.1 field.2 mom ⬝ᵥ Boris.newMom R u field.1 field.2 mom = mom ⬝ᵥ mom := by
        rw [hzero field List.mem_cons_self, Boris.newMom_zero, Boris.momPlus_dot_self]
      obtain ⟨hrun, hgamma⟩ := ihlength fun field' hmem => hzero field' (List.mem_cons_of_mem _ hmem)
      exact ⟨hrun.trans hstep, hgamma.trans (gamma_congr hstep)⟩
    · rw [List.reverse_cons, List.map_append, Boris.run, List.foldl_append]
      change Boris.newMom R u (-field.1) field.2 (Boris.run R u _ (-Boris.run R u fields _)) = -mom
      rw [ihback, Boris.newMom_reverse]

theorem Boris.run_spec_twoFields :
    Boris.run realRoot unitParticle [(![0, 0, 1], 0), (![0, 2, 0], 0)] ![1, 0, 0] ⬝ᵥ
      Boris.run realRoot unitParticle [(![0, 0, 1], 0), (![0, 2, 0], 0)] ![1, 0, 0] = 1 := by
  refine (((Boris.run_spec _ _).1 fun field hfield => ?_).1).trans (by simp)
  fin_cases hfield <;> rfl

end Boris

section Vay

variable {bField eField mom : Fin 3 → K}

/-- A solution of the quadratic equation for the square of the new Lorentz factor. -/
theorem Vay.gammaAtPlusHalf_eq {g : K} {momentum_prime : Fin 3 → K} (hg : 0 < g)
    (h : g * g * (g * g) = (gamma R u momentum_prime * gamma R u momentum_prime - Vay.tau u bField ⬝ᵥ Vay.tau u bField) *
        (g * g) + (Vay.tau u bField ⬝ᵥ Vay.tau u bField +
          momentum_prime ⬝ᵥ Vay.tau u bField / (u.speedOfLight * u.mass) *
            (momentum_prime ⬝ᵥ Vay.tau u bField / (u.speedOfLight * u.mass)))) :
    Vay.gammaAtPlusHalf R u bField momentum_prime = g := by
  unfold Vay.gammaAtPlusHalf
  dsimp only
  set tau := Vay.tau u bField
  set u_star := momentum_prime ⬝ᵥ tau / (u.speedOfLight * u.mass)
  set sigma := gamma R u momentum_prime * gamma R u momentum_prime - tau ⬝ᵥ tau
  have hpos : 0 < g * g := mul_pos hg hg
  -- the other factor of the quadratic equation is positive
  have hrest : 0 ≤ tau ⬝ᵥ tau + u_star * u_star := add_nonneg (dot_self_nonneg tau) (mul_self_nonneg u_star)
  have hother : 0 ≤ g * g - sigma := by
    by_contra hneg
    have := mul_neg_of_neg_of_pos (not_le.mp hneg) hpos
    nlinarith
  have hroot : R.sqrt (sigma * sigma + 4 * (tau ⬝ᵥ tau + u_star * u_star)) = 2 * (g * g) - sigma :=
    sqrt_eq (by linarith) (by linear_combination 4 * h)
  rw [hroot]
  exact sqrt_eq hg.le (by ring)

theorem Boris.t_eq_tau (bField mom : Fin 3 → K) :
    Boris.t R u bField mom = (1 / gamma R u mom) • Vay.tau u bField := by
  rw [Boris.t, Vay.tau, Vay.factor, smul_smul]
  congr 1
  ring

theorem Vay.factor_cross (bField mom : Fin 3 → K) :
    Vay.factor u • (velocity R u mom ⨯₃ bField) = mom ⨯₃ Boris.t R u bField mom := by
  have hm := u.mass_pos.ne'
  have hg := (gamma_pos (R := R) (u := u) mom).ne'
  rw [velocity_eq, Boris.t_eq_tau, Vay.tau, map_smul, LinearMap.smul_apply, map_smul, map_smul, smul_smul, smul_smul]
  congr 1
  field_simp

/-- The new Lorentz factor is the old one if half of the step turns the momentum in either direction. -/
theorem Vay.gammaAtPlusHalf_of_cross {e : K} (he : e * e = 1) {momentum_prime : Fin 3 → K}
    (h : momentum_prime = mom + e • (mom ⨯₃ Boris.t R u bField mom)) :
    Vay.gammaAtPlusHalf R u bField momentum_prime = gamma R u mom := by
  have hg := gamma_pos (R := R) (u := u) mom
  have hm := u.mass_pos.ne'
  have hc := u.speedOfLight_pos.ne'
  have hdot : momentum_prime ⬝ᵥ Vay.tau u bField = gamma R u mom * (mom ⬝ᵥ Boris.t R u bField mom) := by
    have htau : Vay.tau u bField = gamma R u mom • Boris.t R u bField mom := by
      rw [Boris.t_eq_tau, smul_smul, mul_one_div_cancel hg.ne', one_smul]
    rw [htau, dotProduct_smul, h, add_dotProduct, smul_dotProduct, dotProduct_comm (mom ⨯₃ _), dot_cross_self, smul_zero,
      add_zero, smul_eq_mul]
  have htau : Vay.tau u bField ⬝ᵥ Vay.tau u bField =
      gamma R u mom * gamma R u mom * (Boris.t R u bField mom ⬝ᵥ Boris.t R u bField mom) := by
    rw [Boris.t_eq_tau, smul_dotProduct, dotProduct_smul, smul_eq_mul, smul_eq_mul]
    field_simp
  have hsquare := gamma_mul_self (R := R) (u := u) mom
  refine Vay.gammaAtPlusHalf_eq hg ?_
  rw [gamma_mul_self momentum_prime, hdot, htau, h, dot_self_add_cross _ _ _ he]
  generalize mom ⬝ᵥ mom = w at hsquare ⊢
  generalize Boris.t R u bField mom ⬝ᵥ Boris.t R u bField mom = q
  generalize mom ⬝ᵥ Boris.t R u bField mom = v
  generalize gamma R u mom = g at hsquare ⊢
  have hstar : g * v / (u.speedOfLight * u.mass) * (g * v / (u.speedOfLight * u.mass)) =
      g * g * v^2 * (1 / (u.mass * u.mass * (u.speedOfLight * u.speedOfLight))) := by
    field_simp
  linear_combination g * g * (1 + q) * hsquare - hstar

theorem Vay.sub_cross_newMom {e : K} (he : e * e = 1)
    (h : Vay.momentumPrime R u bField eField mom = mom + e • (mom ⨯₃ Boris.t R u bField mom)) :
    Vay.newMom R u bField eField mom - Vay.newMom R u bField eField mom ⨯₃ Boris.t R u bField mom =
      Vay.momentumPrime R u bField eField mom := by
  refine sub_cross_eq _ _ _ ?_
  rw [Vay.newMom, Vay.gammaAtPlusHalf_of_cross he h, ← Boris.t_eq_tau, cross_eq]

theorem Vay.momentumPrime_zero (bField mom : Fin 3 → K) :
    Vay.momentumPrime R u bField 0 mom = mom + (1 : K) • (mom ⨯₃ Boris.t R u bField mom) := by
  rw [Vay.momentumPrime, cross_eq, smul_zero, add_zero, zero_add, Vay.factor_cross, one_smul]

/-- Without electric field both pushers rotate the momentum in the same way. -/
theorem Vay.newMom_zero (bField mom : Fin 3 → K) : Vay.newMom R u bField 0 mom = Boris.newMom R u bField 0 mom := by
  have hrotation : IsRotation (Boris.t R u bField mom) mom (Vay.newMom R u bField 0 mom) := by
    refine (Vay.sub_cross_newMom (mul_one 1) (Vay.momentumPrime_zero bField mom)).trans ?_
    rw [Vay.momentumPrime_zero, one_smul]
  rw [Boris.newMom_zero]
  exact hrotation.unique (Boris.momPlus_isRotation bField mom)

/-- A particle on which the two forces cancel keeps its momentum. -/
theorem Vay.newMom_of_force_free (h : eField + velocity R u mom ⨯₃ bField = 0) :
    Vay.newMom R u bField eField mom = mom := by
  have heField : eField = -(velocity R u mom ⨯₃ bField) := eq_neg_of_add_eq_zero_left h
  have hprime : Vay.momentumPrime R u bField eField mom = mom + (-1 : K) • (mom ⨯₃ Boris.t R u bField mom) := by
    rw [Vay.momentumPrime, cross_eq, h, smul_zero, add_zero, heField, smul_neg, Vay.factor_cross, neg_one_smul]
  refine sub_cross_injective (Boris.t R u bField mom) ?_
  dsimp only
  rw [Vay.sub_cross_newMom (by ring) hprime, hprime, neg_one_smul, sub_eq_add_neg]

/-- The pushers of Boris and Vay are the same without electric field, and Vay's pusher moves a particle without force
along a straight line: in constant fields with `E + v × B = 0` for its velocity `v`, every step adds the same. -/
theorem Vay.push_spec {D : ℕ} (bField : Fin 3 → K) (p : PushedParticle D K) :
    Vay.push R u bField 0 p = Boris.push R u bField 0 p ∧
    ∀ eField, eField + velocity R u p.mom ⨯₃ bField = 0 → ∀ n : ℕ,
      ((fun p => Vay.push R u bField eField p)^[n] p).mom = p.mom ∧
      ∀ d, ((fun p => Vay.push R u bField eField p)^[n] p).pos d = p.pos d +
        n * (velocity R u p.mom (Fin.ofNat 3 d) * u.deltaT / u.cellSize (Fin.ofNat 3 d)) := by
  refine ⟨?_, fun eField h n => ?_⟩
  · rw [Vay.push, Boris.push, Vay.newMom_zero]
  · induction n with
    | zero => simp
    | succ n ih =>
      obtain ⟨hmom, hpos⟩ := ih
      rw [Function.iterate_succ_apply']
      generalize (fun p => Vay.push R u bField eField p)^[n] p = q at hmom hpos ⊢
      have hnew : Vay.newMom R u bField eField q.mom = p.mom := by
        rw [hmom, Vay.newMom_of_force_free h]
      refine ⟨hnew, fun d => ?_⟩
      rw [Vay.push, hnew]
      change q.pos d + _ = _
      rw [hpos d]
      push_cast
      ring

/-- Crossed fields in which the particle moves along the first axis. -/
theorem Vay.push_spec_crossedFields :
    ((fun p : PushedParticle 3 ℝ => Vay.push realRoot unitParticle ![0, 0, 1]
      (-(velocity realRoot unitParticle ![1, 0, 0] ⨯₃ ![0, 0, 1])) p)^[5] ⟨0, ![1, 0, 0]⟩).mom = ![1, 0, 0] :=
  ((Vay.push_spec (D := 3) ![0, 0, 1] ⟨0, ![1, 0, 0]⟩).2 _ (neg_add_cancel _) 5).1

end Vay

section Displacement

variable {D : ℕ}

/-- `INV_CELL2_SUM` -/
def invCell2Sum (D : ℕ) (u : PusherUnits K) : K :=
  ∑ d : Fin D, 1 / (u.cellSize (Fin.ofNat 3 d) * u.cellSize (Fin.ofNat 3 d))

/-- What the field solver asserts of the time step. -/
def CourantFriedrichsLevy (D : ℕ) (u : PusherUnits K) : Prop :=
  u.speedOfLight * u.speedOfLight * u.deltaT * u.deltaT * invCell2Sum D u ≤ 1

/-- The square of the velocity of a particle with mass is below that of light. -/
theorem velocity_dot_self_le (mom : Fin 3 → K) :
    velocity R u mom ⬝ᵥ velocity R u mom ≤ u.speedOfLight * u.speedOfLight := by
  have hm := u.mass_pos
  have hc := u.speedOfLight_pos
  have hg := gamma_pos (R := R) (u := u) mom
  have hsquare := gamma_mul_self (R := R) (u := u) mom
  rw [velocity_eq]
  generalize gamma R u mom = g at hg hsquare ⊢
  have hdot : mom ⬝ᵥ mom = (g * g - 1) * (u.mass * u.mass * (u.speedOfLight * u.speedOfLight)) := by
    rw [hsquare]
    field_simp
    ring
  have hvelocity : ((1 / (u.mass * g)) • mom) ⬝ᵥ ((1 / (u.mass * g)) • mom) =
      u.speedOfLight * u.speedOfLight - u.speedOfLight * u.speedOfLight / (g * g) := by
    rw [smul_dotProduct, dotProduct_smul, smul_eq_mul, smul_eq_mul, hdot]
    field_simp
  rw [hvelocity]
  exact sub_le_self _ (div_nonneg (mul_pos hc hc).le (mul_pos hg hg).le)

theorem sqrt_dot_self_pos {mom : Fin 3 → K} (h : mom ≠ 0) : 0 < R.sqrt (mom ⬝ᵥ mom) :=
  sqrt_pos ((dot_self_nonneg mom).lt_of_ne' fun hzero => h (dotProduct_self_eq_zero.mp hzero))

theorem photon_dot_self_le {mom : Fin 3 → K} (h : mom ≠ 0) :
    ((u.speedOfLight / R.sqrt (mom ⬝ᵥ mom)) • mom) ⬝ᵥ ((u.speedOfLight / R.sqrt (mom ⬝ᵥ mom)) • mom) ≤
      u.speedOfLight * u.speedOfLight := by
  have hpos := sqrt_dot_self_pos (R := R) h
  have hsquare := R.mul_self_sqrt _ (dot_self_nonneg mom)
  generalize R.sqrt (mom ⬝ᵥ mom) = r at hpos hsquare ⊢
  rw [smul_dotProduct, dotProduct_smul, smul_eq_mul, smul_eq_mul, ← hsquare]
  refine le_of_eq ?_
  field_simp

/-- In two or three dimensions the time step is too short to cross a cell along an axis. -/
theorem displacement_lt_one (hD : D = 2 ∨ D = 3) (hcfl : CourantFriedrichsLevy D u) {vel : Fin 3 → K}
    (hvel : vel ⬝ᵥ vel ≤ u.speedOfLight * u.speedOfLight) (d : Fin D) :
    |vel (Fin.ofNat 3 d) * u.deltaT / u.cellSize (Fin.ofNat 3 d)| < 1 := by
  have hterm : ∀ d : Fin D, 0 < 1 / (u.cellSize (Fin.ofNat 3 d) * u.cellSize (Fin.ofNat 3 d)) := fun d =>
    one_div_pos.mpr (mul_pos (u.cellSize_pos _) (u.cellSize_pos _))
  have hnontrivial : Nontrivial (Fin D) := by
    rcases hD with rfl | rfl <;> infer_instance
  obtain ⟨d', hne⟩ := exists_ne d
  have hlt : 1 / (u.cellSize (Fin.ofNat 3 d) * u.cellSize (Fin.ofNat 3 d)) < invCell2Sum D u :=
    Finset.single_lt_sum hne (Finset.mem_univ d) (Finset.mem_univ d') (hterm d') fun k _ _ => (hterm k).le
  have hcomponent : vel (Fin.ofNat 3 d) * vel (Fin.ofNat 3 d) ≤ u.speedOfLight * u.speedOfLight :=
    (Finset.single_le_sum (fun k _ => mul_self_nonneg (vel k)) (Finset.mem_univ _)).trans hvel
  have hstep : 0 < u.speedOfLight * u.speedOfLight * u.deltaT * u.deltaT :=
    mul_pos (mul_pos (mul_pos u.speedOfLight_pos u.speedOfLight_pos) u.deltaT_pos) u.deltaT_pos
  rw [← sq_lt_one_iff_abs_lt_one, sq]
  calc vel (Fin.ofNat 3 d) * u.deltaT / u.cellSize (Fin.ofNat 3 d) *
        (vel (Fin.ofNat 3 d) * u.deltaT / u.cellSize (Fin.ofNat 3 d))
      = vel (Fin.ofNat 3 d) * vel (Fin.ofNat 3 d) * (u.deltaT * u.deltaT) *
          (1 / (u.cellSize (Fin.ofNat 3 d) * u.cellSize (Fin.ofNat 3 d))) := by
        have := (u.cellSize_pos (Fin.ofNat 3 d)).ne'
        field_simp
    _ ≤ u.speedOfLight * u.speedOfLight * (u.deltaT * u.deltaT) *
          (1 / (u.cellSize (Fin.ofNat 3 d) * u.cellSize (Fin.ofNat 3 d))) :=
        mul_le_mul_of_nonneg_right (mul_le_mul_of_nonneg_right hcomponent (mul_self_nonneg _)) (hterm d).le
    _ = u.speedOfLight * u.speedOfLight * u.deltaT * u.deltaT *
          (1 / (u.cellSize (Fin.ofNat 3 d) * u.cellSize (Fin.ofNat 3 d))) := by ring
    _ < u.speedOfLight * u.speedOfLight * u.deltaT * u.deltaT * invCell2Sum D u := mul_lt_mul_of_pos_left hlt hstep
    _ ≤ 1 := hcfl

/-- No pusher moves a particle by a cell or more: a particle of a cell ends in this cell or next to it. -/
theorem push_displacement (hD : D = 2 ∨ D = 3) (hcfl : CourantFriedrichsLevy D u) (pusher : Pusher)
    (bField eField : Fin 3 → K) (p : PushedParticle D K) (hphoton : pusher = .Photon → p.mom ≠ 0) (d : Fin D) :
    |(pusher.push R u bField eField p).pos d - p.pos d| < 1 ∧
      (0 ≤ p.pos d → p.pos d < 1 → -1 < (pusher.push R u bField eField p).pos d ∧
        (pusher.push R u bField eField p).pos d < 2) := by
  have hmove : ∀ {vel : Fin 3 → K}, vel ⬝ᵥ vel ≤ u.speedOfLight * u.speedOfLight →
      |move u p.pos vel d - p.pos d| < 1 := fun hvel => by
    rw [move, add_sub_cancel_left]
    exact displacement_lt_one hD hcfl hvel d
  have hlt : |(pusher.push R u bField eField p).pos d - p.pos d| < 1 := by
    cases pusher with
    | None =>
      rw [Pusher.push, sub_self, abs_zero]
      exact one_pos
    | Boris => exact hmove (velocity_dot_self_le _)
    | Vay => exact hmove (velocity_dot_self_le _)
    | Free => exact hmove (velocity_dot_self_le _)
    | Photon => exact hmove (photon_dot_self_le (hphoton rfl))
  obtain ⟨hlo, hhi⟩ := abs_lt.mp hlt
  exact ⟨hlt, fun h0 h1 => ⟨by linarith, by linarith⟩⟩

/-- A photon in a plane. -/
theorem push_displacement_photon :
    |(Pusher.Photon.push realRoot unitParticle 0 0 (⟨0, ![1, 1, 0]⟩ : PushedParticle 2 ℝ)).pos 0 - 0| < 1 := by
  have hcfl : CourantFriedrichsLevy 2 unitParticle := by
    norm_num [CourantFriedrichsLevy, invCell2Sum, unitParticle]
  have hmom : (![1, 1, 0] : Fin 3 → ℝ) ≠ 0 := fun h => one_ne_zero (congrFun h 0)
  exact (push_displacement (.inl rfl) hcfl .Photon 0 0 ⟨0, ![1, 1, 0]⟩ (fun _ => hmom) 0).1

end Displacement

end ParticlePusher

end PIConGPU
