import PIConGPU.CurrentDeposition
import PIConGPU.ShiftCoordinateSystem

/-!
# Interpolation of fields to particles

A field is interpolated at the position of a particle with the shape as weight. The shifted version
evaluates the shape on its support only, the native version on all nodes within the margins. A field
has no value in cells that must not be read.
-/
namespace PIConGPU

namespace AssignedTrilinearInterpolation

def sumLoop (Begin End : ℤ) (term : ℤ → Option ℚ) : Option ℚ :=
  (intLoop Begin (End + 1)).foldlM (fun result x => (term x).map (result + ·)) 0

def interpolate3 (W : ℚ → ℚ) (Begin End : ℤ) (field : DataSpace 3 → Option ℚ) (cursor : DataSpace 3)
    (pos : Fin 3 → ℚ) : Option ℚ :=
  sumLoop Begin End fun z => (sumLoop Begin End fun y => (sumLoop Begin End fun x =>
    (field (cursor + ![x, y, z])).map (· * W (x - pos 0))).map (· * W (y - pos 1))).map (· * W (z - pos 2))

def interpolate2 (W : ℚ → ℚ) (Begin End : ℤ) (field : DataSpace 2 → Option ℚ) (cursor : DataSpace 2)
    (pos : Fin 2 → ℚ) : Option ℚ :=
  sumLoop Begin End fun y => (sumLoop Begin End fun x =>
    (field (cursor + ![x, y])).map (· * W (x - pos 0))).map (· * W (y - pos 1))

def interpolate : {D : ℕ} → (W : ℚ → ℚ) → (Begin End : ℤ) → (field : DataSpace D → Option ℚ) →
    (cursor : DataSpace D) → (pos : Fin D → ℚ) → Option ℚ
  | 2 => interpolate2
  | 3 => interpolate3
  | _ => fun _ _ _ _ _ _ => none

theorem sumLoop_eq {Begin End : ℤ} {term : ℤ → Option ℚ} {f : ℤ → ℚ}
    (h : ∀ x ∈ Finset.Ico Begin (End + 1), term x = some (f x)) :
    sumLoop Begin End term = some (∑ x ∈ Finset.Ico Begin (End + 1), f x) := by
  rw [sumLoop, intLoop, sum_Ico_eq_sum_range]
  have hterm : ∀ k < (End + 1 - Begin).toNat, term (Begin + k) = some (f (Begin + k)) := fun k hk =>
    h _ (Finset.mem_Ico.mpr ⟨by omega, by omega⟩)
  generalize (End + 1 - Begin).toNat = m at hterm
  induction m with
  | zero => rfl
  | succ m ih =>
    rw [List.range_succ, List.map_append, List.foldlM_append, ih fun k hk => hterm k (by omega),
      Finset.sum_range_succ]
    simp [hterm m (by omega)]

/-- All nodes that are read have a value. -/
theorem interpolate3_eq {W : ℚ → ℚ} {Begin End : ℤ} {field : DataSpace 3 → Option ℚ} {cursor : DataSpace 3}
    {pos : Fin 3 → ℚ} {F : DataSpace 3 → ℚ}
    (h : ∀ x : DataSpace 3, (∀ d, x d ∈ Finset.Ico Begin (End + 1)) → field (cursor + x) = some (F (cursor + x))) :
    interpolate3 W Begin End field cursor pos = some (∑ z ∈ Finset.Ico Begin (End + 1),
      (∑ y ∈ Finset.Ico Begin (End + 1), (∑ x ∈ Finset.Ico Begin (End + 1),
        F (cursor + ![x, y, z]) * W (x - pos 0)) * W (y - pos 1)) * W (z - pos 2)) := by
  refine sumLoop_eq fun z hz => ?_
  rw [sumLoop_eq (f := fun y => (∑ x ∈ Finset.Ico Begin (End + 1),
    F (cursor + ![x, y, z]) * W (x - pos 0)) * W (y - pos 1)) fun y hy => ?_]
  · rfl
  rw [sumLoop_eq (f := fun x => F (cursor + ![x, y, z]) * W (x - pos 0)) fun x hx => ?_]
  · rfl
  rw [h ![x, y, z] (by simpa [Fin.forall_fin_succ] using ⟨by simpa using hx, by simpa using hy, by simpa using hz⟩)]
  rfl

theorem interpolate2_eq {W : ℚ → ℚ} {Begin End : ℤ} {field : DataSpace 2 → Option ℚ} {cursor : DataSpace 2}
    {pos : Fin 2 → ℚ} {F : DataSpace 2 → ℚ}
    (h : ∀ x : DataSpace 2, (∀ d, x d ∈ Finset.Ico Begin (End + 1)) → field (cursor + x) = some (F (cursor + x))) :
    interpolate2 W Begin End field cursor pos = some (∑ y ∈ Finset.Ico Begin (End + 1),
      (∑ x ∈ Finset.Ico Begin (End + 1), F (cursor + ![x, y]) * W (x - pos 0)) * W (y - pos 1)) := by
  refine sumLoop_eq fun y hy => ?_
  rw [sumLoop_eq (f := fun x => F (cursor + ![x, y]) * W (x - pos 0)) fun x hx => ?_]
  · rfl
  rw [h ![x, y] (by simpa [Fin.forall_fin_succ] using ⟨by simpa using hx, by simpa using hy⟩)]
  rfl

end AssignedTrilinearInterpolation

open AssignedTrilinearInterpolation

variable {D : ℕ}

def fieldComponent (field : DataSpace D → Option (Fin 3 → ℚ)) (c : Fin 3) : DataSpace D → Option ℚ :=
  fun x => (field x).map (· c)

/-- The cells around the cell of the particle, up to the margins. -/
def InMargin (lowerMargin upperMargin : ℤ) (x : DataSpace D) : Prop := ∀ d, -lowerMargin ≤ x d ∧ x d ≤ upperMargin

namespace FieldToParticleInterpolation

variable (S : Shape)

def lowerMargin : ℤ := S.support / 2

def upperMargin : ℤ := (S.support + 1) / 2

/-- A division of C++, with the quotient rounded towards zero. -/
def supportBegin : ℤ := (-(S.support : ℤ)).tdiv 2 + (S.support + 1) % 2

def supportEnd : ℤ := supportBegin S + S.support - 1

def interpolateComponent (field : DataSpace D → Option ℚ) (particlePos fieldPos : Fin D → ℚ) : Option ℚ :=
  let shifted := ShiftCoordinateSystem.shift (fun _ => S.support) fieldPos 0 particlePos
  interpolate S.chargeAssignment (supportBegin S) (supportEnd S) field shifted.1 shifted.2

def fieldToParticle (field : DataSpace D → Option (Fin 3 → ℚ)) (particlePos : Fin D → ℚ)
    (fieldPos : Fin 3 → Fin D → ℚ) : Option (Fin 3 → ℚ) := do
  let result_x ← interpolateComponent S (fieldComponent field 0) particlePos (fieldPos 0)
  let result_y ← interpolateComponent S (fieldComponent field 1) particlePos (fieldPos 1)
  let result_z ← interpolateComponent S (fieldComponent field 2) particlePos (fieldPos 2)
  return ![result_x, result_y, result_z]

end FieldToParticleInterpolation

namespace FieldToParticleInterpolationNative

variable (S : Shape)

def lowerMargin : ℤ := S.support / 2

def upperMargin : ℤ := (S.support + 1) / 2

/-- `ShiftCoordinateSystemNative`: the cursor stays at the cell of the particle. -/
def shiftNative (vector fieldPos : Fin D → ℚ) : Fin D → ℚ := fun d => vector d - fieldPos d

def interpolateComponent (field : DataSpace D → Option ℚ) (particlePos fieldPos : Fin D → ℚ) : Option ℚ :=
  interpolate S.chargeAssignment (-lowerMargin S) (upperMargin S) field 0 (shiftNative particlePos fieldPos)

def fieldToParticle (field : DataSpace D → Option (Fin 3 → ℚ)) (particlePos : Fin D → ℚ)
    (fieldPos : Fin 3 → Fin D → ℚ) : Option (Fin 3 → ℚ) := do
  let result_x ← interpolateComponent S (fieldComponent field 0) particlePos (fieldPos 0)
  let result_y ← interpolateComponent S (fieldComponent field 1) particlePos (fieldPos 1)
  let result_z ← interpolateComponent S (fieldComponent field 2) particlePos (fieldPos 2)
  return ![result_x, result_y, result_z]

end FieldToParticleInterpolationNative

namespace FieldToParticleInterpolation

open ShiftCoordinateSystem

section Axis

variable (s : ContinuousShape) {v : ℚ} (hlo : -1 / 2 ≤ v) (hhi : v < 1)

/-- The halves of the support, with the remainder of an odd support apart. -/
theorem supportBegin_eq (S : Shape) : supportBegin S = 1 - (S.support / 2 : ℕ) - (S.support % 2 : ℕ) := by
  simp only [supportBegin, Int.neg_tdiv, Int.tdiv_eq_ediv_of_nonneg (Int.natCast_nonneg _)]
  omega

theorem supportEnd_eq (S : Shape) : supportEnd S = (S.support / 2 : ℕ) := by
  rw [supportEnd, supportBegin_eq]
  omega

include hlo hhi

theorem mem_margin {x : ℤ} (hx : x ∈ Finset.Ico (supportBegin s.shape) (supportEnd s.shape + 1)) :
    getOffsetToStaticShapeSystem (s.shape.support % 2 = 0) v + x ∈
      Finset.Ico (-lowerMargin s.shape) (upperMargin s.shape + 1) := by
  have hoffset := getOffset_mem s.shape.support hlo hhi
  simp only [supportBegin_eq, supportEnd_eq, lowerMargin, upperMargin, Finset.mem_Ico] at hx ⊢
  omega

theorem abs_le_support {x : ℤ} (hx : x ∈ Finset.Ico (supportBegin s.shape) (supportEnd s.shape + 1)) :
    |(x : ℚ) - (v - getOffsetToStaticShapeSystem (s.shape.support % 2 = 0) v)| ≤ (s.shape.support : ℚ) / 2 := by
  obtain ⟨h1, h2⟩ := getOffset_bounds s.shape.support hlo (hhi.trans (by norm_num))
  have hhalf : (s.shape.support : ℚ) = 2 * (s.shape.support / 2 : ℕ) + (s.shape.support % 2 : ℕ) := by
    exact_mod_cast (Nat.div_add_mod s.shape.support 2).symm
  rw [supportBegin_eq, supportEnd_eq, Finset.mem_Ico] at hx
  generalize s.shape.support / 2 = h, s.shape.support % 2 = r at hx h1 h2 hhalf ⊢
  have hx1 := Int.cast_mono (R := ℚ) hx.1
  have hx2 := Int.cast_mono (R := ℚ) (Int.le_of_lt_add_one hx.2)
  push_cast at hx1 hx2
  rw [abs_le]
  constructor <;> linarith

/-- Nodes within the margins that the shifted support leaves out have no weight. -/
theorem chargeAssignment_eq_zero {x : ℤ}
    (hx : x - getOffsetToStaticShapeSystem (s.shape.support % 2 = 0) v ∉
      Finset.Ico (supportBegin s.shape) (supportEnd s.shape + 1)) :
    s.shape.chargeAssignment (x - v) = 0 := by
  obtain ⟨h1, h2⟩ := getOffset_bounds s.shape.support hlo (hhi.trans (by norm_num))
  have hhalf : (s.shape.support : ℚ) = 2 * (s.shape.support / 2 : ℕ) + (s.shape.support % 2 : ℕ) := by
    exact_mod_cast (Nat.div_add_mod s.shape.support 2).symm
  rw [supportBegin_eq, supportEnd_eq, Finset.mem_Ico, not_and_or, not_le, not_lt] at hx
  refine s.isAssignment.eq_zero _ (le_abs.mpr ?_)
  generalize s.shape.support / 2 = h, s.shape.support % 2 = r at hx h1 h2 hhalf
  rcases hx with hx | hx
  · have hx' := Int.cast_mono (R := ℚ) (Int.le_sub_one_of_lt hx)
    push_cast at hx'
    right
    linarith
  · have hx' := Int.cast_mono (R := ℚ) hx
    push_cast at hx'
    left
    linarith

/-- Along one axis both versions weight the same values. -/
theorem sum_axis (g : ℤ → ℚ) :
    ∑ x ∈ Finset.Ico (supportBegin s.shape) (supportEnd s.shape + 1),
      g (getOffsetToStaticShapeSystem (s.shape.support % 2 = 0) v + x) * s.onSupport.chargeAssignment
        (x - (v - getOffsetToStaticShapeSystem (s.shape.support % 2 = 0) v)) =
    ∑ x ∈ Finset.Ico (-lowerMargin s.shape) (upperMargin s.shape + 1), g x * s.shape.chargeAssignment (x - v) := by
  set k := getOffsetToStaticShapeSystem (s.shape.support % 2 = 0) v with hk
  have hon : ∀ x ∈ Finset.Ico (supportBegin s.shape) (supportEnd s.shape + 1),
      g (k + x) * s.onSupport.chargeAssignment (x - (v - k)) =
        g (k + x) * s.shape.chargeAssignment ((k + x : ℤ) - v) := fun x hx => by
    rw [s.chargeAssignment_onSupport (abs_le_support s hlo hhi hx)]
    congr 2
    push_cast
    ring
  rw [Finset.sum_congr rfl hon,
    ← Finset.sum_image (f := fun x : ℤ => g x * s.shape.chargeAssignment (x - v)) (g := fun x => k + x)
      fun x _ y _ h => add_left_cancel h]
  refine Finset.sum_subset (fun x hx => ?_) fun x _ hx => ?_
  · obtain ⟨y, hy, rfl⟩ := Finset.mem_image.mp hx
    exact mem_margin s hlo hhi hy
  · have hout : x - k ∉ Finset.Ico (supportBegin s.shape) (supportEnd s.shape + 1) := fun h =>
      hx (Finset.mem_image.mpr ⟨x - k, h, add_sub_cancel k x⟩)
    rw [chargeAssignment_eq_zero s hlo hhi hout, mul_zero]

end Axis

section Component

variable (s : ContinuousShape) {particlePos fieldPos : Fin D → ℚ}

/-- The position relative to the component: where the two versions meet. -/
theorem position_bounds (hpos : ∀ d, 0 ≤ particlePos d ∧ particlePos d < 1)
    (hfieldPos : ∀ d, fieldPos d = 0 ∨ fieldPos d = 1 / 2) (d : Fin D) :
    -1 / 2 ≤ particlePos d - fieldPos d ∧ particlePos d - fieldPos d < 1 := by
  obtain ⟨h0, h1⟩ := hpos d
  rcases hfieldPos d with h | h <;> rw [h] <;> constructor <;> linarith

theorem supportBegin_onSupport : supportBegin s.onSupport = supportBegin s.shape := by
  simp [supportBegin]

theorem supportEnd_onSupport : supportEnd s.onSupport = supportEnd s.shape := by
  simp [supportEnd, supportBegin_onSupport]

/-- A field that has the values of `F` in the cells up to the margins; elsewhere it may have none. -/
def Shows {V : Type*} (lowerMargin upperMargin : ℤ) (field : DataSpace D → Option V) (F : DataSpace D → V) : Prop :=
  ∀ x, InMargin lowerMargin upperMargin x → field x = some (F x)

theorem Shows.fieldComponent {lowerMargin upperMargin : ℤ} {field : DataSpace D → Option (Fin 3 → ℚ)}
    {F : DataSpace D → Fin 3 → ℚ} (h : Shows lowerMargin upperMargin field F) (c : Fin 3) :
    Shows lowerMargin upperMargin (fieldComponent field c) fun x => F x c := fun x hx => by
  rw [PIConGPU.fieldComponent, h x hx]
  rfl

variable (hpos : ∀ d, 0 ≤ particlePos d ∧ particlePos d < 1) (hfieldPos : ∀ d, fieldPos d = 0 ∨ fieldPos d = 1 / 2)

include hpos hfieldPos

theorem Shows.shifted {field : DataSpace D → Option ℚ} {F : DataSpace D → ℚ}
    (h : Shows (lowerMargin s.onSupport) (upperMargin s.onSupport) field F) {x : DataSpace D}
    (hx : ∀ d, x d ∈ Finset.Ico (supportBegin s.shape) (supportEnd s.shape + 1)) :
    field (offset (fun _ => s.shape.support) fieldPos particlePos + x) =
      some (F (offset (fun _ => s.shape.support) fieldPos particlePos + x)) := by
  refine h _ fun d => ?_
  obtain ⟨hlo, hhi⟩ := position_bounds hpos hfieldPos d
  have hmem := mem_margin s hlo hhi (hx d)
  rw [Finset.mem_Ico] at hmem
  simp only [lowerMargin, upperMargin, ContinuousShape.support_onSupport] at hmem ⊢
  exact ⟨hmem.1, Int.le_of_lt_add_one hmem.2⟩

omit hpos hfieldPos in
theorem Shows.native {field : DataSpace D → Option ℚ} {F : DataSpace D → ℚ}
    (h : Shows (FieldToParticleInterpolationNative.lowerMargin s.shape)
      (FieldToParticleInterpolationNative.upperMargin s.shape) field F) {x : DataSpace D}
    (hx : ∀ d, x d ∈ Finset.Ico (-FieldToParticleInterpolationNative.lowerMargin s.shape)
      (FieldToParticleInterpolationNative.upperMargin s.shape + 1)) :
    field (0 + x) = some (F (0 + x)) := by
  refine h _ fun d => ?_
  have hmem := hx d
  rw [Finset.mem_Ico] at hmem
  rw [zero_add]
  exact ⟨hmem.1, Int.le_of_lt_add_one hmem.2⟩

end Component

/-- Both versions return the same value of a component, from the cells within their margins. -/
theorem interpolateComponent_eq_native (hD : D = 2 ∨ D = 3) (s : ContinuousShape) {particlePos fieldPos : Fin D → ℚ}
    (hpos : ∀ d, 0 ≤ particlePos d ∧ particlePos d < 1) (hfieldPos : ∀ d, fieldPos d = 0 ∨ fieldPos d = 1 / 2)
    (F : DataSpace D → ℚ) :
    ∃ v, (∀ field, Shows (lowerMargin s.onSupport) (upperMargin s.onSupport) field F →
        interpolateComponent s.onSupport field particlePos fieldPos = some v) ∧
      ∀ field, Shows (FieldToParticleInterpolationNative.lowerMargin s.shape)
          (FieldToParticleInterpolationNative.upperMargin s.shape) field F →
        FieldToParticleInterpolationNative.interpolateComponent s.shape field particlePos fieldPos = some v := by
  have haxis := fun d g => sum_axis s (position_bounds hpos hfieldPos d).1 (position_bounds hpos hfieldPos d).2 g
  set k := offset (fun _ => s.shape.support) fieldPos particlePos with hk
  have hkd : ∀ d, getOffsetToStaticShapeSystem (s.shape.support % 2 = 0) (particlePos d - fieldPos d) = k d :=
    fun d => rfl
  simp only [hkd] at haxis
  set I := Finset.Ico (-lowerMargin s.shape) (upperMargin s.shape + 1) with hI
  set w : Fin D → ℤ → ℚ := fun d x => s.shape.chargeAssignment (x - (particlePos d - fieldPos d)) with hw
  rcases hD with rfl | rfl
  · refine ⟨_, fun field hfield => ?_, fun field hfield => interpolate2_eq fun x hx => hfield.native s hx⟩
    simp only [interpolateComponent, shift_eq, supportBegin_onSupport, supportEnd_onSupport,
      ContinuousShape.support_onSupport, zero_add, interpolate]
    rw [interpolate2_eq fun x hx => hfield.shifted s hpos hfieldPos hx, ← hk, Option.some_inj]
    have hnode : ∀ x y : ℤ, k + ![x, y] = ![k 0 + x, k 1 + y] := fun x y => by
      funext d
      fin_cases d <;> rfl
    simp only [hnode]
    refine (Finset.sum_congr rfl fun y _ => congrArg (· * _) (haxis 0 fun x => F ![x, k 1 + y])).trans ?_
    exact haxis 1 fun y => ∑ x ∈ I, F ![x, y] * w 0 x
  · refine ⟨_, fun field hfield => ?_, fun field hfield => interpolate3_eq fun x hx => hfield.native s hx⟩
    simp only [interpolateComponent, shift_eq, supportBegin_onSupport, supportEnd_onSupport,
      ContinuousShape.support_onSupport, zero_add, interpolate]
    rw [interpolate3_eq fun x hx => hfield.shifted s hpos hfieldPos hx, ← hk, Option.some_inj]
    have hnode : ∀ x y z : ℤ, k + ![x, y, z] = ![k 0 + x, k 1 + y, k 2 + z] := fun x y z => by
      funext d
      fin_cases d <;> rfl
    simp only [hnode]
    refine (Finset.sum_congr rfl fun z _ => congrArg (· * _) (Finset.sum_congr rfl fun y _ =>
      congrArg (· * _) (haxis 0 fun x => F ![x, k 1 + y, k 2 + z]))).trans ?_
    refine (Finset.sum_congr rfl fun z _ => congrArg (· * _)
      (haxis 1 fun y => ∑ x ∈ I, F ![x, y, k 2 + z] * w 0 x)).trans ?_
    exact haxis 2 fun z => ∑ y ∈ I, (∑ x ∈ I, F ![x, y, z] * w 0 x) * w 1 y

/-- Both versions return the same field at the particle, from the cells within their margins. -/
theorem fieldToParticle_eq_native (hD : D = 2 ∨ D = 3) (s : ContinuousShape) {particlePos : Fin D → ℚ}
    {fieldPos : Fin 3 → Fin D → ℚ} (hpos : ∀ d, 0 ≤ particlePos d ∧ particlePos d < 1)
    (hfieldPos : ∀ c d, fieldPos c d = 0 ∨ fieldPos c d = 1 / 2) (F : DataSpace D → Fin 3 → ℚ) :
    ∃ v, (∀ field, Shows (lowerMargin s.onSupport) (upperMargin s.onSupport) field F →
        fieldToParticle s.onSupport field particlePos fieldPos = some v) ∧
      ∀ field, Shows (FieldToParticleInterpolationNative.lowerMargin s.shape)
          (FieldToParticleInterpolationNative.upperMargin s.shape) field F →
        FieldToParticleInterpolationNative.fieldToParticle s.shape field particlePos fieldPos = some v := by
  choose v hshifted hnative using fun c : Fin 3 =>
    interpolateComponent_eq_native hD s hpos (hfieldPos c) fun x => F x c
  refine ⟨![v 0, v 1, v 2], fun field hfield => ?_, fun field hfield => ?_⟩
  · simp [fieldToParticle, fun c => hshifted c _ (hfield.fieldComponent c)]
  · simp [FieldToParticleInterpolationNative.fieldToParticle, fun c => hnative c _ (hfield.fieldComponent c)]

/-- A particle on the switching points of an odd support, in a staggered field. -/
theorem fieldToParticle_eq_native_TSC :
    (3 = 2 ∨ 3 = 3) ∧ ∃ v, fieldToParticle (D := 3) ContinuousShape.TSC.onSupport (fun x => some fun c => x c)
        (fun _ => 1 / 2) (fun c d => if c = d then 1 / 2 else 0) = some v ∧
      FieldToParticleInterpolationNative.fieldToParticle (D := 3) ContinuousShape.TSC.shape
        (fun x => some fun c => x c) (fun _ => 1 / 2) (fun c d => if c = d then 1 / 2 else 0) = some v := by
  have hpos : ∀ d : Fin 3, 0 ≤ (fun _ => 1 / 2 : Fin 3 → ℚ) d ∧ (fun _ => 1 / 2 : Fin 3 → ℚ) d < 1 := fun _ => by
    norm_num
  have hfieldPos : ∀ c d : Fin 3, (fun c d => if c = d then 1 / 2 else 0 : Fin 3 → Fin 3 → ℚ) c d = 0 ∨
      (fun c d => if c = d then 1 / 2 else 0 : Fin 3 → Fin 3 → ℚ) c d = 1 / 2 := fun c d => by
    by_cases h : c = d
    · exact .inr (if_pos h)
    · exact .inl (if_neg h)
  obtain ⟨v, hshifted, hnative⟩ := fieldToParticle_eq_native (Or.inr rfl) .TSC hpos hfieldPos fun x c => x c
  exact ⟨Or.inr rfl, v, hshifted _ fun _ _ => rfl, hnative _ fun _ _ => rfl⟩

end FieldToParticleInterpolation

end PIConGPU
