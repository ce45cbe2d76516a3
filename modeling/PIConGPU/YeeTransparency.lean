import PIConGPU.YeeDecomposition

/-!
# Domain decomposition does not change the fields

In each stage every zone of a local domain has reached a known step of the undecomposed grid. The kernels
of a stage read and the exchanges send only cells that have reached the step they need.
-/
namespace PIConGPU.YeeDecomposition

open GridBuffer HaloExchange StagedProcesses YeeSolver

/-- The cells of a local domain that are advanced together. -/
inductive Zone
  | core
  | border
  | halo
  deriving DecidableEq, Repr

/-- The zones that a kernel on an area advances. -/
def Zone.In : Zone → MappingArea → Prop
  | .core, area => area = .CORE ∨ area = .CORE_BORDER
  | .border, area => area = .BORDER ∨ area = .CORE_BORDER
  | .halo, _ => False

/-- How often a zone has been advanced before a stage: once in six stages for E, twice for B. -/
def index : EMField → Zone → ℕ → ℕ
  | .E, .core, k => (k + 4) / 6
  | .E, .border, k => (k + 3) / 6
  | .E, .halo, k => (k + 2) / 6
  | .B, .core, k => (k + 5) / 6 + (k + 2) / 6
  | .B, .border, k => (k + 5) / 6 + (k + 1) / 6
  | .B, .halo, k => (k + 4) / 6 + k / 6

def source : EMField → ℕ → ℕ
  | .E, m => 2 * m + 1
  | .B, m => (m + 1) / 2

section Stages

variable {n k : ℕ} {F F' : EMField} {area : MappingArea} {z z' : Zone}

theorem stageAt_cases (hk : k < n * 6) :
    k % 6 = 0 ∧ kernelAt n k = some (.B, .CORE_BORDER) ∧ exchangeAt n k = none ∨
      k % 6 = 1 ∧ kernelAt n k = some (.E, .CORE) ∧ exchangeAt n k = some .B ∨
      k % 6 = 2 ∧ kernelAt n k = some (.E, .BORDER) ∧ exchangeAt n k = none ∨
      k % 6 = 3 ∧ kernelAt n k = some (.B, .CORE) ∧ exchangeAt n k = some .E ∨
      k % 6 = 4 ∧ kernelAt n k = some (.B, .BORDER) ∧ exchangeAt n k = none ∨
      k % 6 = 5 ∧ kernelAt n k = none ∧ exchangeAt n k = some .B := by
  have hstage : stageAt n k = step[k % 6]? := if_pos hk
  have hlt : k % 6 < 6 := Nat.mod_lt _ (by decide)
  rw [kernelAt, exchangeAt, hstage]
  generalize k % 6 = s at hlt ⊢
  interval_cases s <;> simp [step, update_beforeCurrent, update_afterCurrent]

theorem kernelAt_of_le (hk : n * 6 ≤ k) : kernelAt n k = none := by
  have hstage : stageAt n k = none := if_neg (not_lt.mpr hk)
  rw [kernelAt, hstage, Option.bind_none]

theorem exchangeAt_of_le (hk : n * 6 ≤ k) : exchangeAt n k = none := by
  have hstage : stageAt n k = none := if_neg (not_lt.mpr hk)
  rw [exchangeAt, hstage, Option.bind_none]

theorem lt_of_kernelAt (h : kernelAt n k = some (F, area)) : k < n * 6 := by
  by_contra hk
  simp [kernelAt_of_le (not_lt.mp hk)] at h

theorem lt_of_exchangeAt (h : exchangeAt n k = some F) : k < n * 6 := by
  by_contra hk
  simp [exchangeAt_of_le (not_lt.mp hk)] at h

/-- An exchange overlaps only with a kernel on the CORE for the other field. -/
theorem kernelAt_exchangeAt (h : kernelAt n k = some (F, area)) (h' : exchangeAt n k = some F') :
    F' = F.other ∧ area = .CORE := by
  rcases stageAt_cases (lt_of_kernelAt h) with ⟨-, h1, h2⟩ | ⟨-, h1, h2⟩ | ⟨-, h1, h2⟩ | ⟨-, h1, h2⟩ | ⟨-, h1, h2⟩ |
    ⟨-, h1, h2⟩ <;> rw [h1] at h <;> rw [h2] at h' <;> cases h <;> cases h' <;> exact ⟨rfl, rfl⟩

theorem index_kernel (h : kernelAt n k = some (F, area)) (hz : z.In area) : index F z (k + 1) = index F z k + 1 := by
  rcases stageAt_cases (lt_of_kernelAt h) with ⟨hs, h1, -⟩ | ⟨hs, h1, -⟩ | ⟨hs, h1, -⟩ | ⟨hs, h1, -⟩ | ⟨hs, h1, -⟩ |
    ⟨hs, h1, -⟩ <;> rw [h1] at h <;> cases h <;> cases z <;> simp [Zone.In] at hz <;> simp only [index] <;> omega

/-- What a kernel reads of the other field has reached the step it needs; a kernel on the CORE does not read
the guard. -/
theorem index_source (h : kernelAt n k = some (F, area)) (hz : z.In area) (hz' : area = .CORE → z' ≠ .halo) :
    index F.other z' k = source F (index F z k) := by
  rcases stageAt_cases (lt_of_kernelAt h) with ⟨hs, h1, -⟩ | ⟨hs, h1, -⟩ | ⟨hs, h1, -⟩ | ⟨hs, h1, -⟩ | ⟨hs, h1, -⟩ |
    ⟨hs, h1, -⟩ <;> rw [h1] at h <;> cases h <;> cases z <;> simp [Zone.In] at hz <;> cases z' <;>
    simp at hz' <;> simp only [EMField.other, index, source] <;> omega

/-- An exchange brings the guard to the state of the interior of the neighbor. -/
theorem index_exchange (h : exchangeAt n k = some F) (hz : z ≠ .halo) : index F .halo (k + 1) = index F z k := by
  rcases stageAt_cases (lt_of_exchangeAt h) with ⟨hs, -, h1⟩ | ⟨hs, -, h1⟩ | ⟨hs, -, h1⟩ | ⟨hs, -, h1⟩ | ⟨hs, -, h1⟩ |
    ⟨hs, -, h1⟩ <;> rw [h1] at h <;> cases h <;> cases z <;> simp at hz <;> simp only [index] <;> omega

theorem index_stable (hk : k < n * 6) (hkernel : ∀ area, kernelAt n k = some (F, area) → ¬z.In area)
    (hexchange : exchangeAt n k = some F → z ≠ .halo) : index F z (k + 1) = index F z k := by
  rcases stageAt_cases hk with ⟨hs, h1, h2⟩ | ⟨hs, h1, h2⟩ | ⟨hs, h1, h2⟩ | ⟨hs, h1, h2⟩ | ⟨hs, h1, h2⟩ |
    ⟨hs, h1, h2⟩ <;> rw [h1] at hkernel <;> rw [h2] at hexchange <;> cases F <;> cases z <;>
    simp [Zone.In] at hkernel hexchange <;> simp only [index] <;> omega

end Stages

/-- The differences with which a field is advanced: to the lower neighbor for E and to the upper one for B. -/
def EMField.lower : EMField → ℤ
  | .E => -1
  | .B => 0

def EMField.upper : EMField → ℤ
  | .E => 0
  | .B => 1

section Kernels

variable {d : ℕ} (u : FieldUnits)

def Reads (F : EMField) (x y : DataSpace (d + 2)) : Prop :=
  ∃ direction : Fin 3, y = x + directionIndex direction F.lower ∨ y = x + directionIndex direction F.upper

theorem kernelValue_congr {F : EMField} {x : DataSpace (d + 2)} {mem mem' : Cell d → Fin 3 → ℚ}
    (hself : mem (F, x) = mem' (F, x)) (hother : ∀ y, Reads F x y → mem (F.other, y) = mem' (F.other, y)) :
    kernelValue u F x mem = kernelValue u F x mem' := by
  have hread : ∀ direction : Fin 3, (direction : ℕ) < d + 2 →
      mem (F.other, x + directionIndex direction F.lower) = mem' (F.other, x + directionIndex direction F.lower) ∧
        mem (F.other, x + directionIndex direction F.upper) = mem' (F.other, x + directionIndex direction F.upper) :=
    fun direction _ => ⟨hother _ ⟨direction, .inl rfl⟩, hother _ ⟨direction, .inr rfl⟩⟩
  cases F with
  | E =>
    have hcurl : curlLeft u (shiftBox (fun y => mem (.B, y)) x) = curlLeft u (shiftBox (fun y => mem' (.B, y)) x) :=
      curl_congr hread
    funext c
    simp only [kernelValue, kernelUpdateE, hself, hcurl]
  | B =>
    have hcurl : curlRight u (shiftBox (fun y => mem (.E, y)) x) = curlRight u (shiftBox (fun y => mem' (.E, y)) x) :=
      curl_congr hread
    funext c
    simp only [kernelValue, kernelUpdateBHalf, hself, hcurl]

variable {size : DataSpace (d + 2)} (f : Fields size)

/-- The fields of the undecomposed grid, with the magnetic field after half steps too. -/
def history : EMField → ℕ → PeriodicField size
  | .E, m => (solve u f m).E
  | .B, m => if m % 2 = 0 then (solve u f (m / 2)).B else ((solve u f (m / 2)).update_beforeCurrent u).B

/-- Each field of the history arises from the field before and the source. -/
theorem history_succ (F : EMField) (m : ℕ) (x : DataSpace (d + 2)) : (history u f F (m + 1)).value x =
    kernelValue u F x fun c => (history u f c.1 (if c.1 = F then m else source F m)).value c.2 := by
  have hsolve : ∀ t, solve u f (t + 1) = ((solve u f t).update_beforeCurrent u).update_afterCurrent u := fun t =>
    Function.iterate_succ_apply' _ t f
  cases F with
  | E =>
    have hhalf : (2 * m + 1) % 2 = 1 ∧ (2 * m + 1) / 2 = m := by omega
    simp only [history, hsolve, kernelValue, source, hhalf, reduceCtorEq, reduceIte, one_ne_zero]
    rfl
  | B =>
    rcases Nat.even_or_odd' m with ⟨t, rfl | rfl⟩
    · have h1 : 2 * t % 2 = 0 ∧ 2 * t / 2 = t ∧ (2 * t + 1) % 2 = 1 ∧ (2 * t + 1) / 2 = t := by omega
      simp only [history, kernelValue, source, h1, reduceCtorEq, reduceIte, one_ne_zero]
      rfl
    · have h1 : (2 * t + 1) % 2 = 1 ∧ (2 * t + 1) / 2 = t ∧ (2 * t + 1 + 1) % 2 = 0 ∧ (2 * t + 1 + 1) / 2 = t + 1 := by
        omega
      simp only [history, hsolve, kernelValue, source, h1, reduceCtorEq, reduceIte, one_ne_zero]
      rfl

theorem history_steps (F : EMField) (z : Zone) (n : ℕ) :
    history u f F (index F z (n * 6)) = component (solve u f n) F := by
  cases F with
  | E =>
    have hindex : index .E z (n * 6) = n := by
      cases z <;> simp only [index] <;> omega
    rw [hindex]
    rfl
  | B =>
    have hindex : index .B z (n * 6) = 2 * n := by
      cases z <;> simp only [index] <;> omega
    have heven : 2 * n % 2 = 0 ∧ 2 * n / 2 = n := by omega
    rw [hindex, history, if_pos heven.1, heven.2]
    rfl

end Kernels

namespace Domain

variable {d : ℕ} {D : Domain d} {slides : ℕ} (h : D.Valid slides) (hd : d ≤ 1)

include h hd

section Threads

variable {area : MappingArea} {t t' : DataSpace (d + 2) × DataSpace (d + 2)} {x : DataSpace (d + 2)}

theorem Valid.enumerates (area : MappingArea) : AreaMapping.Enumerates (areaMapping D.cellDescription area)
    (AreaMapping.region D.cellDescription area) := by
  have hg := h.guardingSuperCells_pos
  have hb := h.border_eq
  refine AreaMapping.areaMapping_enumerates (by omega) (by omega) (by omega) (fun j => ?_) area
  have := h.extent j
  omega

omit hd in
theorem Valid.threadCell_eq_some (ht : t ∈ D.threads area) (hx : D.threadCell area t = some x) :
    t.1 ∈ launchBox (areaMapping D.cellDescription area).getGridDim ∧
      (areaMapping D.cellDescription area).getBlockIndex t.1 = some (fun j => x j / D.superCellSize j) ∧
        t.2 = fun j => x j % D.superCellSize j := by
  obtain ⟨h1, h2⟩ := Finset.mem_product.mp ht
  rw [List.mem_toFinset, mem_boxCells] at h1 h2
  obtain ⟨block, hblock, rfl⟩ := Option.map_eq_some_iff.mp hx
  have hsize := h.superCellSize_pos
  refine ⟨h1, hblock.trans (congrArg some (funext fun j => ?_)), funext fun j => ?_⟩
  · dsimp only
    rw [Int.add_comm, Int.add_mul_ediv_right _ _ (hsize j).ne', Int.ediv_eq_zero_of_lt (h2 j).1 (h2 j).2, zero_add]
  · dsimp only
    rw [Int.add_comm, Int.add_mul_emod_self_right, Int.emod_eq_of_lt (h2 j).1 (h2 j).2]

theorem Valid.mem_areaCells (ht : t ∈ D.threads area) (hx : D.threadCell area t = some x) : x ∈ D.areaCells area := by
  obtain ⟨h1, h2, -⟩ := h.threadCell_eq_some ht hx
  obtain ⟨block, hblock, he⟩ := (h.enumerates hd area).mapsTo h1
  rw [h2, Option.some_inj] at he
  rw [he] at hblock
  exact hblock

theorem Valid.exists_thread (hx : x ∈ D.areaCells area) : ∃ t ∈ D.threads area, D.threadCell area t = some x := by
  obtain ⟨block, hblock, he⟩ := (h.enumerates hd area).surjOn ⟨_, hx, rfl⟩
  refine ⟨(block, fun j => x j % D.superCellSize j), Finset.mem_product.mpr ⟨?_, ?_⟩, ?_⟩
  · exact List.mem_toFinset.mpr (mem_boxCells.mpr hblock)
  · refine List.mem_toFinset.mpr (mem_boxCells.mpr fun j => ?_)
    have hs := h.superCellSize_pos j
    exact ⟨Int.emod_nonneg _ hs.ne', Int.emod_lt_of_pos _ hs⟩
  · rw [threadCell, he, Option.map_some]
    exact congrArg some (funext fun j => Int.ediv_mul_add_emod _ _)

theorem Valid.thread_unique (ht : t ∈ D.threads area) (ht' : t' ∈ D.threads area) (hx : D.threadCell area t = some x)
    (hx' : D.threadCell area t' = some x) : t = t' := by
  obtain ⟨h1, h2, h3⟩ := h.threadCell_eq_some ht hx
  obtain ⟨h1', h2', h3'⟩ := h.threadCell_eq_some ht' hx'
  exact Prod.ext ((h.enumerates hd area).injOn h1 h1' (h2.trans h2'.symm)) (h3.trans h3'.symm)

end Threads

section Exchanges

variable {r i : ℕ} {F : EMField}

theorem Valid.isSet (hi : 1 ≤ i) (hi' : i < numberOfExchanges (d + 2)) :
    (D.comm r).communicationMask.isSet i = true :=
  (((h.setup .E).updated hd r).isSet_iff i hi hi').mpr fun j => .inr (h.periodic j)

theorem Valid.mem_receives : (r, i) ∈ receives D.g D.comm (D.buffer F) ↔
    r < D.g.size ∧ 1 ≤ i ∧ i < numberOfExchanges (d + 2) := by
  rw [(h.setup F).mem_receives hd]
  exact and_congr_right fun _ => and_iff_left_of_imp fun hi => h.isSet hd hi.1 hi.2

theorem Valid.mem_sends : (r, i) ∈ sends D.g D.comm (D.buffer F) ↔
    r < D.g.size ∧ 1 ≤ i ∧ i < numberOfExchanges (d + 2) := by
  rw [(h.setup F).mem_sends hd]
  exact and_congr_right fun _ => and_iff_left_of_imp fun hi => h.isSet hd hi.1 hi.2

end Exchanges

section Operations

variable {u : FieldUnits} {n k r i : ℕ} {F : EMField} {x : DataSpace (d + 2)}

omit h hd in
theorem mem_tasks {t : DataSpace (d + 2) × DataSpace (d + 2)} :
    t ∈ (D.program u n).tasks k r ↔ ∃ F area, kernelAt n k = some (F, area) ∧ t ∈ D.threads area := by
  cases hk : kernelAt n k with
  | none => simp [program, hk]
  | some kernel => simp [program, hk, Prod.ext_iff]

omit h hd in
theorem write_eq_some {t : DataSpace (d + 2) × DataSpace (d + 2)} {c : Cell d}
    {value : (Cell d → Fin 3 → ℚ) → Fin 3 → ℚ} : (D.program u n).write k r t c = some value ↔
      ∃ F area x, kernelAt n k = some (F, area) ∧ D.threadCell area t = some x ∧ c = (F, x) ∧
        value = kernelValue u F x := by
  simp only [program, Option.bind_eq_bind, Option.bind_eq_some_iff, Prod.exists]
  constructor
  · rintro ⟨F, area, hk, x, hx, hc⟩
    split_ifs at hc with he
    exact ⟨F, area, x, hk, hx, he, (Option.some.inj hc).symm⟩
  · rintro ⟨F, area, x, hk, hx, rfl, rfl⟩
    exact ⟨F, area, hk, x, hx, if_pos rfl⟩

theorem Valid.mem_program_receives (hr : r < D.g.size) : i ∈ (D.program u n).receives k r ↔
    ∃ F, exchangeAt n k = some F ∧ 1 ≤ i ∧ i < numberOfExchanges (d + 2) := by
  cases hk : exchangeAt n k with
  | none => simp [program, hk]
  | some F =>
    have hlist : (r, i) ∈ receives D.g D.comm (D.buffer F) ↔ i ∈ receiveDirections (D.comm r) (D.buffer F r) := by
      simp [receives, hr]
    simp [program, hk, ← hlist, h.mem_receives hd, hr]

theorem Valid.mem_program_sends (hr : r < D.g.size) : i ∈ (D.program u n).sends k r ↔
    ∃ F, exchangeAt n k = some F ∧ 1 ≤ i ∧ i < numberOfExchanges (d + 2) := by
  cases hk : exchangeAt n k with
  | none => simp [program, hk]
  | some F =>
    have hlist : (r, i) ∈ sends D.g D.comm (D.buffer F) ↔ i ∈ sendDirections (D.comm r) (D.buffer F r) := by
      simp [sends, hr]
    simp [program, hk, ← hlist, h.mem_sends hd, hr]

omit h hd in
theorem program_receive (hk : exchangeAt n k = some F) : (D.program u n).receive k r i =
    port F (HaloExchange.receive D.comm (D.buffer F) (r, i)) := by
  simp [program, hk, HaloExchange.receive]

omit h hd in
theorem program_send (hk : exchangeAt n k = some F) : (D.program u n).send k r i =
    port F (HaloExchange.send D.comm (D.buffer F) (r, i)) := by
  simp [program, hk, HaloExchange.send]

theorem Valid.mem_receive_cells (hr : r < D.g.size) (hi : 1 ≤ i) (hi' : i < numberOfExchanges (d + 2)) :
    x ∈ (HaloExchange.receive D.comm (D.buffer F) (r, i)).cells ↔
      InHalo D.gridLayout (D.originGuard F) (D.endGuard F) i x := by
  have h27 := Communicator.numberOfExchanges_le hd
  obtain ⟨r', re, se, l⟩ := (h.setup F).exists_link hd hr ⟨hi, hi'⟩ (h.isSet hd hi hi')
  rw [l.receive_eq]
  exact GridBuffer.mem_receive_cells (by omega) hi (by omega) l.ofBuffer_receive

/-- The cells of a field that a stage does not change. -/
theorem Valid.stable_iff (hr : r < D.g.size) : (D.program u n).Stable k r (F, x) ↔
    (∀ area, kernelAt n k = some (F, area) → x ∉ D.areaCells area) ∧ (exchangeAt n k = some F → ¬D.Halo F x) := by
  constructor
  · rintro ⟨hwrite, hreceive⟩
    refine ⟨fun area hk hx => ?_, fun hk ⟨i, hi, hi', hhalo⟩ => ?_⟩
    · obtain ⟨t, ht, hcell⟩ := h.exists_thread hd hx
      have hsome : (D.program u n).write k r t (F, x) = some (kernelValue u F x) :=
        write_eq_some.mpr ⟨F, area, x, hk, hcell, rfl, rfl⟩
      rw [hwrite t (mem_tasks.mpr ⟨F, area, hk, ht⟩)] at hsome
      cases hsome
    · refine hreceive i ((h.mem_program_receives hd hr).mpr ⟨F, hk, hi, hi'⟩) ?_
      rw [program_receive hk]
      exact List.mem_map_of_mem ((h.mem_receive_cells hd hr hi hi').mpr hhalo)
  · rintro ⟨hwrite, hreceive⟩
    refine ⟨fun t ht => Option.eq_none_iff_forall_ne_some.mpr fun value hvalue => ?_, fun i hi hx => ?_⟩
    · obtain ⟨F', area, hk, ht⟩ := mem_tasks.mp ht
      obtain ⟨F'', area', x', hk', hcell, he, -⟩ := write_eq_some.mp hvalue
      obtain ⟨rfl, rfl⟩ := Prod.mk.inj (Option.some.inj (hk.symm.trans hk'))
      obtain ⟨rfl, rfl⟩ := Prod.mk.inj he
      exact hwrite area hk (h.mem_areaCells hd ht hcell)
    · obtain ⟨F', hk, hi, hi'⟩ := (h.mem_program_receives hd hr).mp hi
      rw [program_receive hk] at hx
      obtain ⟨x', hx', he⟩ := List.mem_map.mp hx
      obtain ⟨rfl, rfl⟩ := Prod.mk.inj he
      exact hreceive hk ⟨i, hi, hi', (h.mem_receive_cells hd hr hi hi').mp hx'⟩

end Operations

section Valid

variable {u : FieldUnits} {n k r i : ℕ} {F : EMField} {x y : DataSpace (d + 2)}

omit hd in
/-- What a kernel on the CORE reads is not in the guard. -/
theorem Valid.interior_of_reads (hx : x ∈ D.areaCells .CORE) (hy : Reads F x y) : Interior D.gridLayout y := by
  intro j
  have h1 := (h.mem_core x).mp hx j
  have h2 := h.guard_pos j
  have h3 := h.two_guard_lt j
  have hindex : ∀ (direction : Fin 3) (v : ℤ), -1 ≤ v ∧ v ≤ 1 →
      -1 ≤ (directionIndex direction v : DataSpace (d + 2)) j ∧
        (directionIndex direction v : DataSpace (d + 2)) j ≤ 1 := fun direction v hv => by
    unfold directionIndex
    split_ifs <;> omega
  have hmargin : (-1 ≤ F.lower ∧ F.lower ≤ 1) ∧ -1 ≤ F.upper ∧ F.upper ≤ 1 := by
    cases F <;> decide
  obtain ⟨direction, rfl | rfl⟩ := hy
  · have := hindex direction _ hmargin.1
    simp only [Pi.add_apply]
    omega
  · have := hindex direction _ hmargin.2
    simp only [Pi.add_apply]
    omega

/-- What a kernel reads of the other field is not changed in its stage. -/
theorem Valid.stable_of_reads (hr : r < D.g.size) {area : MappingArea} (hk : kernelAt n k = some (F, area))
    (hx : x ∈ D.areaCells area) (hy : Reads F x y) : (D.program u n).Stable k r (F.other, y) := by
  refine (h.stable_iff hd hr).mpr ⟨fun area' hk' => ?_, fun hk' => ?_⟩
  · rw [hk] at hk'
    cases F <;> cases hk'
  · obtain ⟨-, rfl⟩ := kernelAt_exchangeAt hk hk'
    exact not_halo_of_interior (h.interior_of_reads hx hy)

theorem Valid.interior_of_send (hr : r < D.g.size) (hi : 1 ≤ i) (hi' : i < numberOfExchanges (d + 2))
    (hx : x ∈ (HaloExchange.send D.comm (D.buffer F) (r, i)).cells) : Interior D.gridLayout x := by
  have h27 := Communicator.numberOfExchanges_le hd
  have hp := (h.setup F).paired hd
  obtain ⟨⟨r', i'⟩, hj, hpartner⟩ := hp.surj (r, i) ((h.mem_sends hd).mpr ⟨hr, hi, hi'⟩)
  obtain ⟨hr', hi₁, hset⟩ := ((h.setup F).mem_receives hd).mp hj
  obtain ⟨r'', re, se, l⟩ := (h.setup F).exists_link hd hr' hi₁ hset
  rw [← hpartner, l.send_eq] at hx
  intro j
  have h1 := (GridBuffer.mem_send_cells (by omega) hi₁.1 (by omega) l.ofBuffer_send).mp hx j
  have h2 := h.two_guard_lt j
  have h3 := (h.setup F).margins j
  have h4 := h.guard_pos j
  simp only [layout] at h1 ⊢
  split_ifs at h1 <;> omega

theorem Valid.key_eq (hk : exchangeAt n k = some F) {r' i' : ℕ} (hj : (r', i') ∈ receives D.g D.comm (D.buffer F))
    (hpartner : partner D.comm (r', i') = (r, i)) :
    (D.program u n).sendKey k r i = (D.program u n).receiveKey k r' i' ∧
      ((D.program u n).send k r i).peer = r' ∧ ((D.program u n).receive k r' i').peer = r := by
  have hp := (h.setup F).paired hd
  have howner := hp.owner _ hj
  have hpeer := hp.peer _ hj
  have htag := hp.tag _ hj
  rw [hpartner] at howner hpeer htag
  rw [send_owner] at howner
  rw [receive_owner] at hpeer
  simp only [Program.sendKey, Program.receiveKey, program_send hk, program_receive hk, port]
  exact ⟨by rw [← howner, hpeer, htag], hpeer, howner.symm⟩

theorem Valid.program_valid : (D.program u n).Valid (Finset.range D.g.size) where
  idle r := by
    simp [program, kernelAt_of_le, exchangeAt_of_le, step, update_beforeCurrent, update_afterCurrent]
  write_disjoint k r _ t ht t' ht' hne c hsome := by
    refine Option.eq_none_iff_forall_ne_some.mpr fun value' hvalue' => hne ?_
    obtain ⟨value, hvalue⟩ := Option.isSome_iff_exists.mp hsome
    obtain ⟨F, area, hk, ht⟩ := mem_tasks.mp ht
    obtain ⟨F₁, area₁, hk₁, ht'⟩ := mem_tasks.mp ht'
    obtain ⟨F₂, area₂, x, hk₂, hx, rfl, -⟩ := write_eq_some.mp hvalue
    obtain ⟨F₃, area₃, x', hk₃, hx', he, -⟩ := write_eq_some.mp hvalue'
    rw [hk] at hk₁ hk₂ hk₃
    cases hk₁
    cases hk₂
    cases hk₃
    cases he
    exact h.thread_unique hd ht ht' hx hx'
  write_reads k r hr t ht c value hvalue mem mem' hmem := by
    have hr := Finset.mem_range.mp hr
    obtain ⟨F, area, hk, ht⟩ := mem_tasks.mp ht
    obtain ⟨F₂, area₂, x, hk₂, hx, rfl, rfl⟩ := write_eq_some.mp hvalue
    rw [hk] at hk₂
    cases hk₂
    refine kernelValue_congr u (hmem _ (.inr (by rw [hvalue]; rfl))) fun y hy => hmem _ (.inl ?_)
    exact h.stable_of_reads hd hr hk (h.mem_areaCells hd ht hx) hy
  not_written k r hr i hi c hc t ht := by
    refine Option.eq_none_iff_forall_ne_some.mpr fun value hvalue => ?_
    obtain ⟨F, hk, -⟩ := (h.mem_program_receives hd (Finset.mem_range.mp hr)).mp hi
    obtain ⟨F₂, area, x, hk₂, -, rfl, -⟩ := write_eq_some.mp hvalue
    rw [program_receive hk] at hc
    obtain ⟨x', -, he⟩ := List.mem_map.mp hc
    obtain rfl := congrArg Prod.fst he
    have hother := (kernelAt_exchangeAt hk₂ hk).1
    cases F <;> cases hother
  nodup k r hr i hi := by
    obtain ⟨F, hk, hi⟩ := (h.mem_program_receives hd (Finset.mem_range.mp hr)).mp hi
    rw [program_receive hk]
    exact (((h.setup F).paired hd).nodup _ ((h.mem_receives hd).mpr ⟨Finset.mem_range.mp hr, hi⟩)).map
      (Prod.mk_right_injective F)
  disjoint k r hr i hi i' hi' hne := by
    have hr := Finset.mem_range.mp hr
    obtain ⟨F, hk, hi⟩ := (h.mem_program_receives hd hr).mp hi
    obtain ⟨-, -, hi'⟩ := (h.mem_program_receives hd hr).mp hi'
    rw [program_receive hk, program_receive hk]
    intro c hc hc'
    obtain ⟨x, hx, rfl⟩ := List.mem_map.mp hc
    obtain ⟨x', hx', he⟩ := List.mem_map.mp hc'
    obtain rfl := congrArg Prod.snd he
    have hdisj := ((h.setup F).paired hd).disjoint _ ((h.mem_receives hd).mpr ⟨hr, hi⟩) _
      ((h.mem_receives hd).mpr ⟨hr, hi'⟩) (fun he => hne (congrArg Prod.snd he)) (by simp only [receive_owner])
    exact hdisj hx hx'
  sent_stable k r hr i hi c hc := by
    have hr := Finset.mem_range.mp hr
    obtain ⟨F, hk, hi, hi'⟩ := (h.mem_program_sends hd hr).mp hi
    rw [program_send hk] at hc
    obtain ⟨x, hx, rfl⟩ := List.mem_map.mp hc
    refine (h.stable_iff hd hr).mpr ⟨fun area hk' => ?_, fun _ => not_halo_of_interior ?_⟩
    · have hother := (kernelAt_exchangeAt hk' hk).1
      cases F <;> cases hother
    · exact h.interior_of_send hd hr hi hi' hx
  send_unique k r hr i hi i' hi' hkey := by
    have hr := Finset.mem_range.mp hr
    obtain ⟨F, hk, hi⟩ := (h.mem_program_sends hd hr).mp hi
    obtain ⟨-, -, hi'⟩ := (h.mem_program_sends hd hr).mp hi'
    have hp := (h.setup F).paired hd
    obtain ⟨⟨r₁, i₁⟩, hj₁, hpartner₁⟩ := hp.surj (r, i) ((h.mem_sends hd).mpr ⟨hr, hi⟩)
    obtain ⟨⟨r₂, i₂⟩, hj₂, hpartner₂⟩ := hp.surj (r, i') ((h.mem_sends hd).mpr ⟨hr, hi'⟩)
    rw [(h.key_eq hd hk hj₁ hpartner₁).1, (h.key_eq hd hk hj₂ hpartner₂).1] at hkey
    simp only [Program.receiveKey, program_receive hk, port, Prod.mk.injEq] at hkey
    obtain ⟨hpeer, howner, htag⟩ := hkey
    have he := hp.unique _ hj₁ _ hj₂ (by simpa only [receive_owner] using howner) hpeer htag
    rw [he, hpartner₂] at hpartner₁
    exact (congrArg Prod.snd hpartner₁).symm
  receive_unique k r hr i hi i' hi' hkey := by
    have hr := Finset.mem_range.mp hr
    obtain ⟨F, hk, hi⟩ := (h.mem_program_receives hd hr).mp hi
    obtain ⟨-, -, hi'⟩ := (h.mem_program_receives hd hr).mp hi'
    simp only [Program.receiveKey, program_receive hk, port, Prod.mk.injEq, true_and] at hkey
    have he := ((h.setup F).paired hd).unique _ ((h.mem_receives hd).mpr ⟨hr, hi⟩) _
      ((h.mem_receives hd).mpr ⟨hr, hi'⟩) (by simp only [receive_owner]) hkey.1 hkey.2
    exact congrArg Prod.snd he
  receiver k r hr i hi := by
    obtain ⟨F, hk, hi⟩ := (h.mem_program_sends hd (Finset.mem_range.mp hr)).mp hi
    obtain ⟨⟨r', i'⟩, hj, hpartner⟩ := ((h.setup F).paired hd).surj (r, i)
      ((h.mem_sends hd).mpr ⟨Finset.mem_range.mp hr, hi⟩)
    obtain ⟨hkey, hpeer, -⟩ := h.key_eq (u := u) hd hk hj hpartner
    obtain ⟨hr', hi'⟩ := (h.mem_receives hd).mp hj
    rw [hpeer]
    exact ⟨Finset.mem_range.mpr hr', i', (h.mem_program_receives hd hr').mpr ⟨F, hk, hi'⟩, hkey.symm⟩
  sender k r hr j hj := by
    obtain ⟨F, hk, hj⟩ := (h.mem_program_receives hd (Finset.mem_range.mp hr)).mp hj
    have hp := (h.setup F).paired hd
    have hmem : (r, j) ∈ receives D.g D.comm (D.buffer F) := (h.mem_receives hd).mpr ⟨Finset.mem_range.mp hr, hj⟩
    have hsend := hp.mem _ hmem
    have hlength := hp.length _ hmem
    obtain ⟨⟨r', i'⟩, hpartner⟩ : ∃ p, partner D.comm (r, j) = p := ⟨_, rfl⟩
    rw [hpartner] at hsend hlength
    obtain ⟨hkey, -, hpeer⟩ := h.key_eq (u := u) hd hk hmem hpartner
    obtain ⟨hr', hi'⟩ := (h.mem_sends hd).mp hsend
    rw [hpeer]
    refine ⟨Finset.mem_range.mpr hr', i', (h.mem_program_sends hd hr').mpr ⟨F, hk, hi'⟩, hkey, ?_⟩
    rw [program_send hk, program_receive hk]
    simpa only [port, List.length_map] using hlength

end Valid

section Zones

variable {F : EMField} {area : MappingArea} {x : DataSpace (d + 2)} {z : Zone}

omit h hd

open Classical in
variable (D) in
/-- The zone of a cell; other guard cells are never used. -/
noncomputable def zone (F : EMField) (x : DataSpace (d + 2)) : Option Zone :=
  if x ∈ D.areaCells .CORE then some .core
  else if x ∈ D.areaCells .BORDER then some .border
  else if D.Halo F x then some .halo
  else none

theorem halo_of_zone (hz : D.zone F x = some .halo) : D.Halo F x := by
  by_contra hno
  rw [zone, if_neg hno] at hz
  split_ifs at hz <;> cases hz

include h

theorem Valid.coreBorder_iff : x ∈ D.areaCells .CORE_BORDER ↔ x ∈ D.areaCells .BORDER ∨ x ∈ D.areaCells .CORE := by
  rw [h.mem_border, h.mem_coreBorder]
  by_cases hcore : x ∈ D.areaCells .CORE
  · simp [hcore, h.interior_of_core hcore]
  · simp [hcore]

theorem Valid.mem_area_of_zone (hz : D.zone F x = some z) (hin : z.In area) : x ∈ D.areaCells area := by
  unfold zone at hz
  split_ifs at hz with hcore hborder <;> cases hz
  · rcases hin with rfl | rfl
    · exact hcore
    · exact h.coreBorder_iff.mpr (.inr hcore)
  · rcases hin with rfl | rfl
    · exact hborder
    · exact h.coreBorder_iff.mpr (.inl hborder)
  · exact hin.elim

theorem Valid.zone_interior (hx : Interior D.gridLayout x) : ∃ z, D.zone F x = some z ∧ z ≠ .halo := by
  by_cases hcore : x ∈ D.areaCells .CORE
  · exact ⟨.core, if_pos hcore, by decide⟩
  · have hborder := (h.mem_border x).mpr ⟨hx, hcore⟩
    exact ⟨.border, by rw [zone, if_neg hcore, if_pos hborder], by decide⟩

theorem Valid.zone_halo (hx : D.Halo F x) : D.zone F x = some .halo := by
  have hint : ¬Interior D.gridLayout x := fun hint => not_halo_of_interior hint hx
  have hcore : x ∉ D.areaCells .CORE := fun hcore => hint (h.interior_of_core hcore)
  have hborder : x ∉ D.areaCells .BORDER := fun hborder => hint ((h.mem_border x).mp hborder).1
  rw [zone, if_neg hcore, if_neg hborder, if_pos hx]

theorem Valid.zone_area {n k : ℕ} (hk : kernelAt n k = some (F, area)) (hx : x ∈ D.areaCells area) :
    Interior D.gridLayout x ∧ ∃ z, D.zone F x = some z ∧ z.In area := by
  have harea : area = .CORE_BORDER ∨ area = .CORE ∨ area = .BORDER := by
    rcases stageAt_cases (lt_of_kernelAt hk) with ⟨-, h1, -⟩ | ⟨-, h1, -⟩ | ⟨-, h1, -⟩ | ⟨-, h1, -⟩ | ⟨-, h1, -⟩ |
      ⟨-, h1, -⟩ <;> rw [h1] at hk <;> cases hk <;> simp
  by_cases hcore : x ∈ D.areaCells .CORE
  · refine ⟨h.interior_of_core hcore, .core, if_pos hcore, ?_⟩
    rcases harea with rfl | rfl | rfl
    · exact .inr rfl
    · exact .inl rfl
    · exact absurd hcore ((h.mem_border x).mp hx).2
  · have hborder : x ∈ D.areaCells .BORDER := by
      rcases harea with rfl | rfl | rfl
      · exact (h.coreBorder_iff.mp hx).resolve_right hcore
      · exact absurd hx hcore
      · exact hx
    refine ⟨((h.mem_border x).mp hborder).1, .border, by rw [zone, if_neg hcore, if_pos hborder], ?_⟩
    rcases harea with rfl | rfl | rfl
    · exact .inr rfl
    · exact absurd hx hcore
    · exact .inl rfl

end Zones

section Reference

variable {u : FieldUnits} {f : Fields D.globalSize} {mem : ℕ → Cell d → Fin 3 → ℚ} {n k r : ℕ} {F : EMField}
  {x : DataSpace (d + 2)}

omit h hd

variable (D u f mem) in
/-- What a rank holds before a stage if all ranks work stage by stage. -/
noncomputable def reference (k r : ℕ) (c : Cell d) : Fin 3 → ℚ :=
  match D.zone c.1 c.2 with
  | some z => (history u f c.1 (index c.1 z k)).value (D.globalCell r c.2)
  | none => mem r c

theorem reference_eq {z : Zone} (hz : D.zone F x = some z) :
    D.reference u f mem k r (F, x) = (history u f F (index F z k)).value (D.globalCell r x) := by
  simp only [reference, hz]

theorem globalCell_add (r : ℕ) (x n : DataSpace (d + 2)) : D.globalCell r (x + n) = D.globalCell r x + n := by
  funext j
  simp only [HaloExchange.globalCell, Pi.add_apply]
  ring

/-- A kernel does the same on a local domain as on the whole grid. -/
theorem kernelValue_globalCell (u : FieldUnits) (F : EMField) (r : ℕ) (x : DataSpace (d + 2)) (mem : Cell d → Fin 3 → ℚ) :
    kernelValue u F (D.globalCell r x) mem = kernelValue u F x fun c => mem (c.1, D.globalCell r c.2) := by
  have hshift : ∀ G : EMField, shiftBox (fun y => mem (G, y)) (D.globalCell r x) =
      shiftBox (fun y => mem (G, D.globalCell r y)) x := fun G => by
    funext n
    simp only [shiftBox, globalCell_add]
  cases F <;> funext c <;> simp only [kernelValue, kernelUpdateE, kernelUpdateBHalf, hshift]

include h

theorem Valid.reference_written {area : MappingArea} (hk : kernelAt n k = some (F, area))
    (hx : x ∈ D.areaCells area) :
    D.reference u f mem (k + 1) r (F, x) = kernelValue u F x (D.reference u f mem k r) := by
  obtain ⟨hint, z, hz, hin⟩ := h.zone_area hk hx
  rw [reference_eq hz, index_kernel hk hin, history_succ, kernelValue_globalCell]
  refine kernelValue_congr u ?_ fun y hy => ?_
  · simp only [reduceIte, reference_eq hz]
  · obtain ⟨z', hz', hne⟩ : ∃ z', D.zone F.other y = some z' ∧ (area = .CORE → z' ≠ .halo) := by
      by_cases harea : area = .CORE
      · obtain ⟨z', hz', hne⟩ := h.zone_interior (F := F.other) (h.interior_of_reads (harea ▸ hx) hy)
        exact ⟨z', hz', fun _ => hne⟩
      · have hneighbor : Interior D.gridLayout y ∨ D.Halo F.other y := by
          obtain ⟨direction, rfl | rfl⟩ := hy
          · refine interior_or_halo _ hint ?_ direction
            cases F
            · exact .inr (.inl ⟨rfl, h.lowerMargin⟩)
            · exact .inl rfl
          · refine interior_or_halo _ hint ?_ direction
            cases F
            · exact .inl rfl
            · exact .inr (.inr ⟨rfl, h.upperMargin⟩)
        rcases hneighbor with hy | hy
        · obtain ⟨z', hz', -⟩ := h.zone_interior (F := F.other) hy
          exact ⟨z', hz', fun hcore => absurd hcore harea⟩
        · exact ⟨.halo, h.zone_halo hy, fun hcore => absurd hcore harea⟩
    have hother : F.other ≠ F := by
      cases F <;> decide
    rw [reference_eq hz', index_source hk hin hne, if_neg hother]

include hd

theorem Valid.reference_received (hr : r < D.g.size) {i j m : ℕ} {c c' : Cell d}
    (hj : j ∈ (D.program u n).receives k r) (hi : i ∈ (D.program u n).sends k ((D.program u n).receive k r j).peer)
    (hkey : (D.program u n).sendKey k ((D.program u n).receive k r j).peer i = (D.program u n).receiveKey k r j)
    (hc : ((D.program u n).receive k r j).cells[m]? = some c)
    (hc' : ((D.program u n).send k ((D.program u n).receive k r j).peer i).cells[m]? = some c') :
    D.reference u f mem (k + 1) r c = D.reference u f mem k ((D.program u n).receive k r j).peer c' := by
  obtain ⟨F, hk, hj⟩ := (h.mem_program_receives hd hr).mp hj
  have hmem : (r, j) ∈ receives D.g D.comm (D.buffer F) := (h.mem_receives hd).mpr ⟨hr, hj⟩
  obtain ⟨r', re, se, l⟩ := (h.setup F).exists_link hd hr hj (h.isSet hd hj.1 hj.2)
  have hpeer : ((D.program u n).receive k r j).peer = r' := by
    rw [program_receive hk, l.receive_eq]
    rfl
  have hsend := ((h.setup F).paired hd).mem _ hmem
  rw [l.partner_eq] at hsend
  obtain ⟨hr', hm⟩ := (h.mem_sends hd).mp hsend
  rw [hpeer] at hi hkey hc' ⊢
  obtain rfl : i = Mask.mirrored j := by
    refine (h.program_valid hd).send_unique k r' (Finset.mem_range.mpr hr') i hi _
      ((h.mem_program_sends hd hr').mpr ⟨F, hk, hm⟩) ?_
    rw [hkey, (h.key_eq (u := u) hd hk hmem l.partner_eq).1]
  rw [program_receive hk, port, List.getElem?_map, Option.map_eq_some_iff] at hc
  rw [program_send hk, port, List.getElem?_map, Option.map_eq_some_iff] at hc'
  obtain ⟨x, hx, rfl⟩ := hc
  obtain ⟨x', hx', rfl⟩ := hc'
  have hhalo : D.Halo F x := ⟨j, hj.1, hj.2, (h.mem_receive_cells hd hr hj.1 hj.2).mp (List.mem_of_getElem? hx)⟩
  have hint : Interior D.gridLayout x' := h.interior_of_send hd hr' hm.1 hm.2 (List.mem_of_getElem? hx')
  obtain ⟨z, hz, hne⟩ := h.zone_interior (F := F) hint
  rw [reference_eq (h.zone_halo hhalo), reference_eq hz, index_exchange hk hne]
  rw [l.receive_eq] at hx
  rw [← l.partner_eq, l.send_eq] at hx'
  exact (history u f F _).periodic fun j' =>
    (l.globalCell_eq hd hj ((h.setup F).inside hd hr) hx hx' j').symm

theorem Valid.reference_stable (hr : r < D.g.size) (hk : k < n * 6) {c : Cell d} (hc : (D.program u n).Stable k r c) :
    D.reference u f mem (k + 1) r c = D.reference u f mem k r c := by
  obtain ⟨F, x⟩ := c
  obtain ⟨hkernel, hexchange⟩ := (h.stable_iff hd hr).mp hc
  cases hz : D.zone F x with
  | none => simp only [reference, hz]
  | some z =>
    rw [reference_eq hz, reference_eq hz, index_stable hk (fun area hk hin => ?_) fun hk he => ?_]
    · exact hkernel area hk (h.mem_area_of_zone hz hin)
    · exact hexchange hk (halo_of_zone (he ▸ hz))

theorem Valid.isReference :
    (D.program u n).Reference (Finset.range D.g.size) (D.reference u f mem) where
  written k r _ t ht c value hvalue := by
    obtain ⟨F, area, hk, ht⟩ := mem_tasks.mp ht
    obtain ⟨F₂, area₂, x, hk₂, hx, rfl, rfl⟩ := write_eq_some.mp hvalue
    rw [hk] at hk₂
    cases hk₂
    exact h.reference_written hk (h.mem_areaCells hd ht hx)
  received k r hr j hj i hi hkey m c c' hc hc' :=
    h.reference_received hd (Finset.mem_range.mp hr) hj hi hkey hc hc'
  stable k hk r hr c hc := h.reference_stable hd (Finset.mem_range.mp hr) hk hc

omit hd in
theorem Valid.value_of_holds (hmem : D.Holds f mem) (hr : r < D.g.size) {z : Zone} (hz : D.zone F x = some z) :
    mem r (F, x) = (component f F).value (D.globalCell r x) := by
  by_cases hint : Interior D.gridLayout x
  · exact hmem.interior r hr F x hint
  · have hhalo : D.Halo F x := by
      by_contra hno
      have hcore : x ∉ D.areaCells .CORE := fun hcore => hint (h.interior_of_core hcore)
      have hborder : x ∉ D.areaCells .BORDER := fun hborder => hint ((h.mem_border x).mp hborder).1
      rw [zone, if_neg hcore, if_neg hborder, if_neg hno] at hz
      cases hz
    obtain ⟨i, hi, hi', hhalo⟩ := hhalo
    obtain ⟨r', x', hr', -, hint', hcell, he⟩ := hmem.guard r hr F i x hi hi' hhalo
    rw [he, hmem.interior r' hr' F x' hint']
    exact (component f F).periodic hcell

theorem Valid.exists_source (hr : r < D.g.size) {i : ℕ} (hi : 1 ≤ i) (hi' : i < numberOfExchanges (d + 2))
    (hx : InHalo D.gridLayout (D.originGuard F) (D.endGuard F) i x) : ∃ (r' : ℕ) (x' : DataSpace (d + 2)),
      r' < D.g.size ∧ (D.comm r).ranks i = r' ∧ Interior D.gridLayout x' ∧
        ∀ j, D.globalCell r' x' j ≡ D.globalCell r x j [ZMOD D.globalSize j] := by
  obtain ⟨r', re, se, l⟩ := (h.setup F).exists_link hd hr ⟨hi, hi'⟩ (h.isSet hd hi hi')
  obtain ⟨m, x', hm, hm', hwithin⟩ := (h.setup F).exists_source hd hr ⟨hi, hi'⟩ l hx
  refine ⟨r', x', l.lt, l.ranks, hwithin fun j => ?_, l.globalCell_eq hd ⟨hi, hi'⟩ ((h.setup F).inside hd hr) hm hm'⟩
  have h1 := hx j
  have h2 := h.two_guard_lt j
  have h3 := (h.setup F).margins j
  have h4 := h.guard_pos j
  simp only [layout] at h1 ⊢
  split_ifs at h1 <;> constructor <;> omega

end Reference

/-- Decomposed domains run through the same fields as the whole grid. Every run of the ranks comes to an end;
then each rank holds its part of the fields, and its guard agrees with the neighbors. -/
theorem Valid.decomposition_transparent (u : FieldUnits) (f : Fields D.globalSize) (mem : ℕ → Cell d → Fin 3 → ℚ)
    (hmem : D.Holds f mem) (n : ℕ) :
    (∃ s, (D.program u n).Run (Finset.range D.g.size) ((D.program u n).start mem) s ∧
      ∀ t, ¬(D.program u n).Step (Finset.range D.g.size) s t) ∧
    ∀ s, (D.program u n).Run (Finset.range D.g.size) ((D.program u n).start mem) s →
      (∀ t, ¬(D.program u n).Step (Finset.range D.g.size) s t) →
      (∀ r < D.g.size, (s.process r).stage = (D.program u n).length) ∧
      (∀ r < D.g.size, ∀ r' < D.g.size, ∀ tag, s.queue (r, r', tag) = []) ∧
      D.Holds (solve u f n) fun r => (s.process r).mem := by
  refine ⟨Program.Run.exists_final _ _, fun s hrun hend => ?_⟩
  have hstart : ∀ r ∈ Finset.range D.g.size, ∀ c, mem r c = D.reference u f mem 0 r c := by
    rintro r hr ⟨F, x⟩
    cases hz : D.zone F x with
    | none => simp only [reference, hz]
    | some z =>
      rw [h.value_of_holds hmem (Finset.mem_range.mp hr) hz, reference_eq hz]
      exact congrArg (fun G => PeriodicField.value G (D.globalCell r x)) (history_steps u f F z 0).symm
  obtain ⟨hstage, hqueue⟩ := Program.Run.final (h.program_valid hd) (h.isReference hd) hstart hrun hend
  have hvalue : ∀ r < D.g.size, ∀ F x z, D.zone F x = some z →
      (s.process r).mem (F, x) = (component (solve u f n) F).value (D.globalCell r x) := fun r hr F x z hz => by
    rw [(hstage r (Finset.mem_range.mpr hr)).2, reference_eq hz]
    exact congrArg (fun G => PeriodicField.value G (D.globalCell r x)) (history_steps u f F z n)
  refine ⟨fun r hr => (hstage r (Finset.mem_range.mpr hr)).1,
    fun r hr r' hr' tag => hqueue _ (Finset.mem_range.mpr hr) (Finset.mem_range.mpr hr'), ?_, ?_⟩
  · intro r hr F x hx
    obtain ⟨z, hz, -⟩ := h.zone_interior (F := F) hx
    exact hvalue r hr F x z hz
  · intro r hr F i x hi hi' hx
    obtain ⟨r', x', hr', hranks, hint, hcell⟩ := h.exists_source hd hr hi hi' hx
    obtain ⟨z, hz, -⟩ := h.zone_interior (F := F) hint
    refine ⟨r', x', hr', hranks, hint, hcell, ?_⟩
    rw [hvalue r hr F x .halo (h.zone_halo ⟨i, hi, hi', hx⟩), hvalue r' hr' F x' z hz]
    exact ((component (solve u f n) F).periodic hcell).symm

omit hd in
theorem Valid.holds_of_global (hd : d ≤ 1) (f : Fields D.globalSize) :
    D.Holds f fun r c => (component f c.1).value (D.globalCell r c.2) where
  interior _ _ _ _ _ := rfl
  guard r hr F i x hi hi' hx := by
    obtain ⟨r', x', hr', hranks, hint, hcell⟩ := h.exists_source hd hr hi hi' hx
    exact ⟨r', x', hr', hranks, hint, hcell, ((component f F).periodic hcell).symm⟩

end Domain

theorem ringOfTwo_pos : ∀ j, 0 < (![2, 1] : Fin 2 → ℕ) j := by
  decide

/-- Two ranks next to each other on a periodic grid. -/
def ringOfTwo : ProcessGrid 2 := ⟨![2, 1], fun _ => true, ringOfTwo_pos⟩

/-- Three by three local cells with a guard of one cell, and the exchanges of a field. -/
def threeCells (communicationTag : ℕ) : Except String (UniquTag × GridBuffer 2) :=
  addGuardExchanges (fun _ => 1) (fun _ => 1) communicationTag (∅, .init ⟨fun _ => 3, fun _ => 1⟩)

theorem threeCells_returns : (threeCells 1).toOption.isSome = true := by
  decide +kernel

theorem decomposition_transparent_ringOfTwo : ∃ D : Domain 0, D.Valid 0 ∧ ∀ f : Fields D.globalSize, ∃ mem,
    D.Holds f mem ∧ ∃ s, (D.program unitUnits 2).Run (Finset.range D.g.size) ((D.program unitUnits 2).start mem) s ∧
      D.Holds (solve unitUnits f 2) fun r => (s.process r).mem := by
  have hret := threeCells_returns
  cases hrun : threeCells 1 with
  | error e => simp [hrun, Except.toOption] at hret
  | ok st =>
    obtain ⟨comm, hsetup⟩ := exists_setup (d := 0) (by decide) ringOfTwo 0 (n := fun _ => 3) (by decide) (by decide) hrun
    let D : Domain 0 := ⟨ringOfTwo, comm, ⟨fun _ => 5, 1, 1⟩, fun _ => 1, fun _ _ => st.2, fun _ _ => 1, fun _ _ => 1,
      fun _ => 1⟩
    have hvalid : D.Valid 0 := ⟨fun _ => rfl, fun _ => one_pos, le_rfl, rfl,
      fun _ => (by decide : (2 * 1 : ℤ) < 5 - 2 * 1), fun _ => hsetup, fun _ => le_rfl, fun _ => le_rfl⟩
    refine ⟨D, hvalid, fun f => ⟨_, hvalid.holds_of_global (by decide) f, ?_⟩⟩
    obtain ⟨⟨s, hs, hend⟩, hfinal⟩ := hvalid.decomposition_transparent (by decide) unitUnits f _
      (hvalid.holds_of_global (by decide) f) 2
    exact ⟨s, hs, (hfinal s hs hend).2.2⟩

end PIConGPU.YeeDecomposition
