import PIConGPU.Communicator
import PIConGPU.FixedWidth
import PIConGPU.IntervalTiling

/-!
# The moving window

`MovingWindow` decides from the step number alone when the process grid slides and how many
cells of the first device have already left the window. Step numbers are unsigned 32-bit
values; the lengths and ratios they are derived from are exact rationals.
-/
namespace PIConGPU

open IntervalTiling

/-- The constants of a simulation that the window reads. All devices have the same extent in
y, and the window moves when a signal at the speed of light reaches `slidePoint`. -/
structure WindowConfig where
  localSizeY : ℕ
  devicesY : ℕ
  cellHeight : ℚ
  lightWayPerStep : ℚ
  slidePoint : ℚ
  localSizeY_pos : 1 ≤ localSizeY
  two_le_devicesY : 2 ≤ devicesY
  cellHeight_pos : 0 < cellHeight
  lightWayPerStep_pos : 0 < lightWayPerStep
  slidePoint_le_one : slidePoint ≤ 1

structure MovingWindow where
  slidingWindowActive : Bool
  slideCounter : ℕ
  lastSlideStep : ℕ
  deriving DecidableEq, Repr

structure Window where
  globalOffset : ℤ
  globalSize : ℤ
  localOffset : ℤ
  localSize : ℤ
  deriving DecidableEq, Repr

namespace WindowConfig

def globalSizeY (cfg : WindowConfig) : ℕ := cfg.devicesY * cfg.localSizeY

def windowGlobalDimY (cfg : WindowConfig) (active : Bool) : ℕ :=
  cfg.globalSizeY - cfg.localSizeY * active.toNat

def stepsInFutureTmp (cfg : WindowConfig) (active : Bool) : ℚ :=
  cfg.windowGlobalDimY active * cfg.cellHeight / cfg.lightWayPerStep * (1 - cfg.slidePoint)

def stepsInFuture (cfg : WindowConfig) (active : Bool) : ℕ := ⌈cfg.stepsInFutureTmp active⌉₊

/-- Minus the part of a step that rounding up has added. -/
def stepsInFutureAfterComma (cfg : WindowConfig) (active : Bool) : ℚ :=
  cfg.stepsInFutureTmp active - cfg.stepsInFuture active

/-- Steps in which light crosses one device, rounded to the nearest step. -/
def stepsPerGPU (cfg : WindowConfig) : ℕ :=
  ⌊cfg.localSizeY * cfg.cellHeight / cfg.lightWayPerStep + 1 / 2⌋₊

def firstSlideStep (cfg : WindowConfig) (active : Bool) : ℕ :=
  u32 (cfg.stepsPerGPU * cfg.devicesY - cfg.stepsInFuture active)

def firstMoveStep (cfg : WindowConfig) (active : Bool) : ℕ :=
  u32 (cfg.stepsPerGPU * (cfg.devicesY - 1) - cfg.stepsInFuture active)

/-- Steps since the window entered the last device. -/
def stepsInLastGPU (cfg : WindowConfig) (active : Bool) (currentStep : ℕ) : ℕ :=
  u32 (currentStep + cfg.stepsInFuture active) % cfg.stepsPerGPU

end WindowConfig

namespace MovingWindow

/-- Counts a slide, at most once per step. -/
def incrementSlideCounter (mw : MovingWindow) (currentStep : ℕ) : MovingWindow :=
  if mw.slidingWindowActive = true ∧ mw.lastSlideStep ≠ currentStep then
    { mw with slideCounter := u32 (mw.slideCounter + 1), lastSlideStep := currentStep }
  else mw

structure SlideInfo where
  state : MovingWindow
  doSlide : Bool
  offsetFirstGPU : ℤ

def getCurrentSlideInfo (cfg : WindowConfig) (mw : MovingWindow) (currentStep : ℕ) : SlideInfo :=
  let active := mw.slidingWindowActive
  if active = true ∧ cfg.firstMoveStep active ≤ currentStep then
    let stepsInLastGPU := cfg.stepsInLastGPU active currentStep
    let offset := ⌊((stepsInLastGPU : ℚ) + cfg.stepsInFutureAfterComma active) *
      cfg.lightWayPerStep / cfg.cellHeight + 1 / 2⌋
    if cfg.firstSlideStep active ≤ currentStep ∧ stepsInLastGPU = 0 then
      ⟨mw.incrementSlideCounter currentStep, true, offset⟩
    else ⟨mw, false, offset⟩
  else ⟨mw, false, 0⟩

def setSlideCounter (mw : MovingWindow) (slides currentStep : ℕ) : MovingWindow :=
  { mw with slideCounter := slides, lastSlideStep := currentStep }

def getSlideCounter (cfg : WindowConfig) (mw : MovingWindow) (currentStep : ℕ) : MovingWindow × ℕ :=
  let info := getCurrentSlideInfo cfg mw currentStep
  (info.state, info.state.slideCounter)

def slideInCurrentStep (cfg : WindowConfig) (mw : MovingWindow) (currentStep : ℕ) :
    MovingWindow × Bool :=
  if mw.slidingWindowActive then
    let info := getCurrentSlideInfo cfg mw currentStep
    (info.state, info.doSlide)
  else (mw, false)

variable {d : ℕ}

/-- `updateLocalDomainOffset`: offset in y of the local domain of a device. -/
def localDomainOffsetY (cfg : WindowConfig) (comm : Communicator (d + 2)) : ℤ :=
  comm.coordinates 1 * cfg.localSizeY

def getWindow (cfg : WindowConfig) (comm : Communicator (d + 2)) (mw : MovingWindow)
    (currentStep : ℕ) : MovingWindow × Window :=
  let globalSize := (cfg.windowGlobalDimY mw.slidingWindowActive : ℤ)
  if mw.slidingWindowActive then
    let info := getCurrentSlideInfo cfg mw currentStep
    let isTopGpu := !comm.communicationMask.isSet TOP
    let isBottomGpu := !comm.communicationMask.isSet BOTTOM
    if isTopGpu then
      (info.state, ⟨info.offsetFirstGPU, globalSize, 0, cfg.localSizeY - info.offsetFirstGPU⟩)
    else
      (info.state, ⟨info.offsetFirstGPU, globalSize,
        localDomainOffsetY cfg comm - info.offsetFirstGPU,
        if isBottomGpu then info.offsetFirstGPU else cfg.localSizeY⟩)
  else (mw, ⟨0, globalSize, 0, cfg.localSizeY⟩)

end MovingWindow

namespace WindowConfig

variable (cfg : WindowConfig)

def ratio : ℚ := cfg.lightWayPerStep / cfg.cellHeight

theorem ratio_pos : 0 < cfg.ratio := div_pos cfg.lightWayPerStep_pos cfg.cellHeight_pos

theorem windowGlobalDimY_active : cfg.windowGlobalDimY true = (cfg.devicesY - 1) * cfg.localSizeY := by
  simp [windowGlobalDimY, globalSizeY, Nat.sub_mul]

theorem stepsInFutureTmp_nonneg (active : Bool) : 0 ≤ cfg.stepsInFutureTmp active := by
  have h1 := cfg.cellHeight_pos
  have h2 := cfg.lightWayPerStep_pos
  have h3 : 0 ≤ 1 - cfg.slidePoint := sub_nonneg.mpr cfg.slidePoint_le_one
  unfold stepsInFutureTmp
  positivity

theorem stepsInFutureAfterComma_nonpos (active : Bool) : cfg.stepsInFutureAfterComma active ≤ 0 :=
  sub_nonpos.mpr (Nat.le_ceil _)

theorem neg_one_lt_stepsInFutureAfterComma (active : Bool) :
    -1 < cfg.stepsInFutureAfterComma active := by
  have h := Nat.ceil_lt_add_one (cfg.stepsInFutureTmp_nonneg active)
  unfold stepsInFutureAfterComma stepsInFuture
  linarith

theorem stepsPerGPU_mul_ratio_le : (cfg.stepsPerGPU : ℚ) * cfg.ratio ≤ cfg.localSizeY + cfg.ratio / 2 := by
  have h1 := cfg.cellHeight_pos
  have h2 := cfg.lightWayPerStep_pos
  have hfloor : (cfg.stepsPerGPU : ℚ) ≤ cfg.localSizeY * cfg.cellHeight / cfg.lightWayPerStep + 1 / 2 :=
    Nat.floor_le (by positivity)
  have hmul := mul_le_mul_of_nonneg_right hfloor cfg.ratio_pos.le
  have he : (cfg.localSizeY * cfg.cellHeight / cfg.lightWayPerStep + 1 / 2) * cfg.ratio =
      cfg.localSizeY + cfg.ratio / 2 := by
    unfold ratio
    field_simp
  linarith

theorem stepsPerGPU_pos (hr : cfg.ratio < 1) : 0 < cfg.stepsPerGPU := by
  have h1 := cfg.cellHeight_pos
  have h2 := cfg.lightWayPerStep_pos
  have h3 : (1 : ℚ) ≤ cfg.localSizeY := by exact_mod_cast cfg.localSizeY_pos
  have hlt : cfg.lightWayPerStep < cfg.cellHeight := (div_lt_one h1).mp hr
  apply Nat.floor_pos.mpr
  have : 1 ≤ cfg.localSizeY * cfg.cellHeight / cfg.lightWayPerStep := by
    rw [le_div_iff₀ h2]
    nlinarith
  linarith

/-- Offset in cells of the window in the first device, before rounding is complete. -/
def phase (active : Bool) (currentStep : ℕ) : ℚ :=
  ((cfg.stepsInLastGPU active currentStep : ℚ) + cfg.stepsInFutureAfterComma active) * cfg.ratio

theorem phase_le (hr : cfg.ratio < 1) (active : Bool) (currentStep : ℕ) :
    cfg.phase active currentStep + 1 / 2 < cfg.localSizeY + 1 := by
  have hlt : cfg.stepsInLastGPU active currentStep < cfg.stepsPerGPU :=
    Nat.mod_lt _ (cfg.stepsPerGPU_pos hr)
  have hle : (cfg.stepsInLastGPU active currentStep : ℚ) + 1 ≤ cfg.stepsPerGPU := by exact_mod_cast hlt
  have hcomma := cfg.stepsInFutureAfterComma_nonpos active
  have hpos := cfg.ratio_pos
  have hper := cfg.stepsPerGPU_mul_ratio_le
  have hphase : cfg.phase active currentStep ≤ (cfg.stepsPerGPU - 1) * cfg.ratio :=
    mul_le_mul_of_nonneg_right (by linarith) hpos.le
  nlinarith

/-- Only the first step in the last device can have a negative phase. -/
theorem phase_nonneg_of_pos {active : Bool} {currentStep : ℕ}
    (h : 0 < cfg.stepsInLastGPU active currentStep) : 0 ≤ cfg.phase active currentStep := by
  have h1 : (1 : ℚ) ≤ cfg.stepsInLastGPU active currentStep := by exact_mod_cast h
  have hcomma := cfg.neg_one_lt_stepsInFutureAfterComma active
  exact mul_nonneg (by linarith) cfg.ratio_pos.le

/-- The window is moving, has just entered the last device, and the rounded-up part of the
look-ahead is longer than half a cell. -/
def RoundsBelowZero (currentStep : ℕ) : Prop :=
  cfg.firstMoveStep true ≤ currentStep ∧
    (currentStep + cfg.stepsInFuture true) % 4294967296 % cfg.stepsPerGPU = 0 ∧
    1 / 2 < (⌈cfg.stepsInFutureTmp true⌉ - cfg.stepsInFutureTmp true) * cfg.ratio

end WindowConfig

namespace MovingWindow

variable {d : ℕ} (cfg : WindowConfig) {mw : MovingWindow}

theorem offsetFirstGPU_of_moving (hact : mw.slidingWindowActive = true) {currentStep : ℕ}
    (hmove : cfg.firstMoveStep true ≤ currentStep) :
    (getCurrentSlideInfo cfg mw currentStep).offsetFirstGPU = ⌊cfg.phase true currentStep + 1 / 2⌋ := by
  unfold getCurrentSlideInfo
  simp only [hact]
  rw [if_pos ⟨trivial, hmove⟩, WindowConfig.phase, WindowConfig.ratio, mul_div_assoc]
  split_ifs <;> rfl

theorem offsetFirstGPU_of_not_moving (hact : mw.slidingWindowActive = true) {currentStep : ℕ}
    (hmove : ¬ cfg.firstMoveStep true ≤ currentStep) :
    (getCurrentSlideInfo cfg mw currentStep).offsetFirstGPU = 0 := by
  unfold getCurrentSlideInfo
  simp only [hact]
  rw [if_neg (fun h => hmove h.2)]

theorem offsetFirstGPU_le (hr : cfg.ratio < 1) (hact : mw.slidingWindowActive = true)
    (currentStep : ℕ) :
    (getCurrentSlideInfo cfg mw currentStep).offsetFirstGPU ≤ cfg.localSizeY := by
  by_cases hmove : cfg.firstMoveStep true ≤ currentStep
  · rw [offsetFirstGPU_of_moving cfg hact hmove]
    have h := cfg.phase_le hr true currentStep
    have : ⌊cfg.phase true currentStep + 1 / 2⌋ < (cfg.localSizeY : ℤ) + 1 :=
      Int.floor_lt.mpr (by push_cast; exact h)
    omega
  · rw [offsetFirstGPU_of_not_moving cfg hact hmove]
    omega

/-- Exactly when the offset of the first device is rounded below zero. -/
theorem offsetFirstGPU_nonneg_iff (hact : mw.slidingWindowActive = true) (currentStep : ℕ) :
    0 ≤ (getCurrentSlideInfo cfg mw currentStep).offsetFirstGPU ↔
      ¬ cfg.RoundsBelowZero currentStep := by
  by_cases hmove : cfg.firstMoveStep true ≤ currentStep
  · rw [offsetFirstGPU_of_moving cfg hact hmove, Int.floor_nonneg]
    have hlast : (currentStep + cfg.stepsInFuture true) % 4294967296 % cfg.stepsPerGPU =
        cfg.stepsInLastGPU true currentStep := by
      rw [WindowConfig.stepsInLastGPU, ← u32_add]
    have hceil : (⌈cfg.stepsInFutureTmp true⌉ : ℚ) = cfg.stepsInFuture true :=
      (natCast_ceil_eq_intCast_ceil (cfg.stepsInFutureTmp_nonneg true)).symm
    simp only [WindowConfig.RoundsBelowZero, hmove, true_and, hlast, hceil]
    rcases Nat.eq_zero_or_pos (cfg.stepsInLastGPU true currentStep) with h0 | h0
    · have hphase : cfg.phase true currentStep =
          -((cfg.stepsInFuture true - cfg.stepsInFutureTmp true) * cfg.ratio) := by
        simp only [WindowConfig.phase, h0, WindowConfig.stepsInFutureAfterComma]
        push_cast
        ring
      rw [hphase]
      simp only [h0, true_and, not_lt]
      constructor <;> intro h <;> linarith
    · have hphase := cfg.phase_nonneg_of_pos h0
      simp only [h0.ne', false_and, not_false_eq_true, iff_true]
      linarith
  · rw [offsetFirstGPU_of_not_moving cfg hact hmove]
    simp [WindowConfig.RoundsBelowZero, hmove]

/-- Along a non-periodic y axis a device has an upper neighbour unless it is the first one, and
a lower neighbour unless it is the last one. -/
theorem isSet_axis_y (hd : d ≤ 1) {g : ProcessGrid (d + 2)} (hper : g.periodic 1 = false) {r k : ℕ}
    (hr : r < g.size) {comm : Communicator (d + 2)}
    (hcomm : Communicator.afterSlides g r k = some comm) :
    (comm.communicationMask.isSet TOP = true ↔ 1 ≤ comm.coordinates 1) ∧
      (comm.communicationMask.isSet BOTTOM = true ↔ comm.coordinates 1 + 1 < g.dims 1) := by
  obtain ⟨comm', hcomm', hu⟩ := Communicator.afterSlides_spec hd g r k
  obtain rfl : comm' = comm := by rw [hcomm'] at hcomm; exact Option.some.inj hcomm
  have hin : g.Inside comm'.coordinates := by
    rw [hu.coordinates_eq]
    exact Communicator.rotatedCoords_inside hr _
  have hnum : TOP < numberOfExchanges (d + 2) ∧ BOTTOM < numberOfExchanges (d + 2) := by
    interval_cases d <;> decide
  have hdir : ∀ j : Fin (d + 2), getRelativeDirections (d + 2) TOP j = (if j = 1 then -1 else 0) ∧
      getRelativeDirections (d + 2) BOTTOM j = (if j = 1 then 1 else 0) := by
    interval_cases d <;> decide
  have hone := hin 1
  constructor
  · rw [hu.isSet_iff TOP (by decide) hnum.1]
    constructor
    · intro h
      have h1 := (h 1).resolve_right (by simp [hper])
      simp only [Pi.add_apply, (hdir 1).1, if_pos] at h1
      omega
    · intro h j
      left
      have hj := hin j
      simp only [Pi.add_apply, (hdir j).1]
      split_ifs with h1
      · subst h1
        omega
      · omega
  · rw [hu.isSet_iff BOTTOM (by decide) hnum.2]
    constructor
    · intro h
      have h1 := (h 1).resolve_right (by simp [hper])
      simp only [Pi.add_apply, (hdir 1).2, if_pos] at h1
      omega
    · intro h j
      left
      have hj := hin j
      simp only [Pi.add_apply, (hdir j).2]
      split_ifs with h1
      · subst h1
        omega
      · omega

theorem getWindow_eq (hd : d ≤ 1) {g : ProcessGrid (d + 2)} (hg : g.dims 1 = cfg.devicesY)
    (hper : g.periodic 1 = false) {r k : ℕ} (hr : r < g.size) {comm : Communicator (d + 2)}
    (hcomm : Communicator.afterSlides g r k = some comm) {y : ℕ} (hy : comm.coordinates 1 = y)
    (hact : mw.slidingWindowActive = true) (currentStep : ℕ) :
    let off := (getCurrentSlideInfo cfg mw currentStep).offsetFirstGPU
    (getWindow cfg comm mw currentStep).2 =
      ⟨off, (cfg.devicesY - 1) * cfg.localSizeY,
        if y = 0 then 0 else y * cfg.localSizeY - off,
        if y = 0 then cfg.localSizeY - off else if y + 1 = cfg.devicesY then off else cfg.localSizeY⟩ := by
  intro off
  obtain ⟨htop, hbottom⟩ := isSet_axis_y hd hper hr hcomm
  have hsize : (cfg.windowGlobalDimY true : ℤ) = (cfg.devicesY - 1) * cfg.localSizeY := by
    have := cfg.two_le_devicesY
    rw [cfg.windowGlobalDimY_active]
    push_cast [Nat.cast_sub (show 1 ≤ cfg.devicesY by omega)]
    ring
  have hlast : y < cfg.devicesY := by
    obtain ⟨comm', hcomm', hu⟩ := Communicator.afterSlides_spec hd g r k
    obtain rfl : comm' = comm := by rw [hcomm'] at hcomm; exact Option.some.inj hcomm
    have hin := Communicator.rotatedCoords_inside (g := g) hr (Communicator.slideOffset g k) 1
    rw [← hu.coordinates_eq, hy, hg] at hin
    omega
  rw [hy] at htop hbottom
  simp only [getWindow, hact, if_true, hsize, localDomainOffsetY, hy]
  by_cases h0 : y = 0
  · have hf : comm.communicationMask.isSet TOP = false := by
      rw [Bool.eq_false_iff, Ne, htop]
      omega
    simp [hf, h0, off]
  · have ht : comm.communicationMask.isSet TOP = true := htop.mpr (by omega)
    by_cases hb : y + 1 = cfg.devicesY
    · have hf : comm.communicationMask.isSet BOTTOM = false := by
        rw [Bool.eq_false_iff, Ne, hbottom]
        omega
      simp [ht, hf, h0, hb, off]
    · have hf : comm.communicationMask.isSet BOTTOM = true := hbottom.mpr (by omega)
      simp [ht, hf, h0, hb, off]

/-- The local windows of a column of devices tile the global window. -/
def WindowsTile (cfg : WindowConfig) (offsetFirstGPU : ℤ) (window : Fin cfg.devicesY → Window) : Prop :=
  (0 ≤ offsetFirstGPU ∧ offsetFirstGPU ≤ cfg.localSizeY) ∧
    (∀ y, 0 ≤ (window y).localSize ∧ (window y).localSize ≤ cfg.localSizeY) ∧
    Tiles (fun y => (window y).localOffset) (fun y => (window y).localSize) 0
      ((cfg.devicesY - 1) * cfg.localSizeY)

def windowBoundary (cfg : WindowConfig) (off : ℤ) (y : ℕ) : ℤ :=
  if y = 0 then 0 else if cfg.devicesY ≤ y then (cfg.devicesY - 1) * cfg.localSizeY
  else y * cfg.localSizeY - off

theorem windowBoundary_mono {off : ℤ} (h0 : 0 ≤ off) (h1 : off ≤ cfg.localSizeY) :
    Monotone (windowBoundary cfg off) := by
  apply monotone_nat_of_le_succ
  intro y
  have h2 := cfg.two_le_devicesY
  have hL : (0 : ℤ) ≤ cfg.localSizeY := by omega
  simp only [windowBoundary, Nat.add_eq_zero_iff, one_ne_zero, and_false, if_false]
  rcases Nat.eq_zero_or_pos y with rfl | hy
  · rw [if_pos rfl, if_neg (by omega)]
    push_cast
    linarith
  · rw [if_neg (by omega)]
    by_cases h : cfg.devicesY ≤ y
    · rw [if_pos h, if_pos (by omega)]
    · rw [if_neg h]
      split_ifs with h'
      · have : (y : ℤ) = cfg.devicesY - 1 := by omega
        rw [this]
        linarith
      · push_cast
        linarith

/-- Windows of the shape computed by `getWindow` tile when the offset lies in the first device. -/
theorem windowsTile_of_offset {off : ℤ} (h0 : 0 ≤ off) (hle : off ≤ cfg.localSizeY)
    {window : Fin cfg.devicesY → Window}
    (hoffset : ∀ y, (window y).localOffset = if (y : ℕ) = 0 then 0 else (y : ℕ) * cfg.localSizeY - off)
    (hsize : ∀ y, (window y).localSize = if (y : ℕ) = 0 then cfg.localSizeY - off
      else if (y : ℕ) + 1 = cfg.devicesY then off else cfg.localSizeY) :
    WindowsTile cfg off window := by
  have h2 := cfg.two_le_devicesY
  refine ⟨⟨h0, hle⟩, fun y => ?_, ?_⟩
  · rw [hsize y]
    split_ifs <;> omega
  · have hend : windowBoundary cfg off cfg.devicesY = (cfg.devicesY - 1) * cfg.localSizeY := by
      rw [windowBoundary, if_neg (by omega), if_pos le_rfl]
    have hstart : windowBoundary cfg off 0 = 0 := rfl
    rw [← hend, ← hstart]
    apply tiles_of_boundaries (windowBoundary_mono cfg h0 hle)
    · intro y
      have hy := y.isLt
      rw [hoffset y, windowBoundary, if_neg (show ¬ cfg.devicesY ≤ (y : ℕ) by omega)]
    · intro y
      have hy := y.isLt
      rw [hsize y, windowBoundary, windowBoundary, if_neg (Nat.succ_ne_zero _),
        if_neg (show ¬ cfg.devicesY ≤ (y : ℕ) by omega)]
      by_cases hy0 : (y : ℕ) = 0
      · rw [if_pos hy0, if_pos hy0, if_neg (by omega), hy0]
        push_cast
        ring
      · rw [if_neg hy0, if_neg hy0]
        by_cases hlast : (y : ℕ) + 1 = cfg.devicesY
        · have : ((y : ℕ) : ℤ) = cfg.devicesY - 1 := by omega
          rw [if_pos hlast, if_pos (by omega), this]
          ring
        · rw [if_neg hlast, if_neg (by omega)]
          push_cast
          ring

/-- In every state of the process grid and at every step the windows of a column tile the
global window exactly when the offset of the first device is not rounded below zero. -/
theorem windows_tile_iff (hd : d ≤ 1) (hr : cfg.ratio < 1) {g : ProcessGrid (d + 2)}
    (hg : g.dims 1 = cfg.devicesY) (hper : g.periodic 1 = false) (hact : mw.slidingWindowActive = true)
    (k currentStep : ℕ) {comm : ℕ → Communicator (d + 2)}
    (hcomm : ∀ r, Communicator.afterSlides g r k = some (comm r)) {column : Fin cfg.devicesY → ℕ}
    (hcol : ∀ y, column y < g.size ∧ (comm (column y)).coordinates 1 = (y : ℕ)) :
    WindowsTile cfg (getCurrentSlideInfo cfg mw currentStep).offsetFirstGPU
        (fun y => (getWindow cfg (comm (column y)) mw currentStep).2) ↔
      ¬ cfg.RoundsBelowZero currentStep := by
  rw [← offsetFirstGPU_nonneg_iff cfg hact currentStep]
  have hwin := fun y => getWindow_eq cfg hd hg hper (hcol y).1 (hcomm (column y)) (hcol y).2 hact
    currentStep
  constructor
  · exact fun h => h.1.1
  · intro h0
    apply windowsTile_of_offset cfg h0 (offsetFirstGPU_le cfg hr hact currentStep)
    · exact fun y => congrArg Window.localOffset (hwin y)
    · exact fun y => congrArg Window.localSize (hwin y)

/-- Two devices of nine cells, nine tenths of a cell per step, slide point at 0.89. -/
def steepWindow : WindowConfig where
  localSizeY := 9
  devicesY := 2
  cellHeight := 1
  lightWayPerStep := 9 / 10
  slidePoint := 89 / 100
  localSizeY_pos := by decide
  two_le_devicesY := by decide
  cellHeight_pos := by norm_num
  lightWayPerStep_pos := by norm_num
  slidePoint_le_one := by norm_num

theorem steepWindow_stepsInFutureTmp : steepWindow.stepsInFutureTmp true = 11 / 10 := by
  norm_num [steepWindow, WindowConfig.stepsInFutureTmp, WindowConfig.windowGlobalDimY_active]

theorem steepWindow_stepsInFuture : steepWindow.stepsInFuture true = 2 := by
  rw [WindowConfig.stepsInFuture, steepWindow_stepsInFutureTmp]
  norm_num

theorem steepWindow_stepsPerGPU : steepWindow.stepsPerGPU = 10 := by
  norm_num [WindowConfig.stepsPerGPU, steepWindow]

theorem steepWindow_ratio : steepWindow.ratio = 9 / 10 := by
  norm_num [WindowConfig.ratio, steepWindow]

theorem steepWindow_roundsBelowZero : steepWindow.RoundsBelowZero 8 := by
  refine ⟨?_, ?_, ?_⟩
  · rw [WindowConfig.firstMoveStep, steepWindow_stepsInFuture, steepWindow_stepsPerGPU]
    decide
  · rw [steepWindow_stepsInFuture, steepWindow_stepsPerGPU]
  · rw [steepWindow_stepsInFutureTmp, steepWindow_ratio]
    norm_num

/-- In step 8 the first device would have to show ten of its nine cells. -/
theorem steepWindow_not_tiled :
    (0 < steepWindow.ratio ∧ steepWindow.ratio < 1) ∧
      (0 < steepWindow.slidePoint ∧ steepWindow.slidePoint ≤ 1) ∧
      (getCurrentSlideInfo steepWindow ⟨true, 0, 0⟩ 8).offsetFirstGPU < 0 ∧
      ∀ window, ¬ WindowsTile steepWindow
        (getCurrentSlideInfo steepWindow ⟨true, 0, 0⟩ 8).offsetFirstGPU window := by
  have hneg : (getCurrentSlideInfo steepWindow ⟨true, 0, 0⟩ 8).offsetFirstGPU < 0 := by
    rw [← not_le, offsetFirstGPU_nonneg_iff steepWindow rfl 8, not_not]
    exact steepWindow_roundsBelowZero
  refine ⟨?_, ?_, hneg, fun window h => absurd h.1.1 (not_le.mpr hneg)⟩
  · rw [steepWindow_ratio]
    norm_num
  · norm_num [steepWindow]

theorem steepWindow_not_roundsBelowZero : ¬ steepWindow.RoundsBelowZero 0 := by
  intro h
  have h1 := h.1
  rw [WindowConfig.firstMoveStep, steepWindow_stepsInFuture, steepWindow_stepsPerGPU] at h1
  exact absurd h1 (by decide)

theorem windows_tile_iff_steepWindow :
    steepWindow.ratio < 1 ∧ ∃ comm : ℕ → Communicator 2,
      WindowsTile steepWindow (getCurrentSlideInfo steepWindow ⟨true, 0, 0⟩ 0).offsetFirstGPU
        (fun y => (getWindow steepWindow (comm y) ⟨true, 0, 0⟩ 0).2) := by
  have hr : steepWindow.ratio < 1 := by
    rw [steepWindow_ratio]
    norm_num
  choose comm hcomm hu using fun r =>
    Communicator.afterSlides_spec (d := 0) (by decide) Communicator.smallGrid r 0
  have hcol : ∀ y : Fin steepWindow.devicesY, (y : ℕ) < Communicator.smallGrid.size ∧
      (comm y).coordinates 1 = (y : ℕ) := by
    intro y
    have hy : (y : ℕ) < Communicator.smallGrid.size := lt_of_lt_of_le y.isLt (by decide)
    refine ⟨hy, ?_⟩
    rw [(hu y).coordinates_eq, Communicator.rotatedCoords_one _ hy]
    revert y
    decide
  exact ⟨hr, comm, (windows_tile_iff steepWindow (by decide) hr rfl rfl rfl 0 0 hcomm hcol).mpr
    steepWindow_not_roundsBelowZero⟩

end MovingWindow

end PIConGPU
