import PIConGPU.MovingWindowRestart

/-!
# The slide counter in closed form

Every query of the moving window may count a slide. However often the window is asked in each step,
the counter is a function of the step, as long as the step numbers do not leave their 32 bits.
-/
namespace PIConGPU

namespace WindowConfig

variable (cfg : WindowConfig)

def slidesUntil (currentStep : ℕ) : ℤ :=
  if currentStep < cfg.firstSlideStep true then 0
  else ((currentStep + cfg.stepsInFuture true) / cfg.stepsPerGPU : ℕ) - cfg.devicesY + 1

/-- The first slide is not earlier than the window moves, and its step is a 32-bit number. -/
structure Regular (cfg : WindowConfig) : Prop where
  stepsPerGPU_pos : 1 ≤ cfg.stepsPerGPU
  stepsInFuture_le : cfg.stepsInFuture true ≤ cfg.stepsPerGPU * (cfg.devicesY - 1)
  firstSlideStep_lt : cfg.stepsPerGPU * cfg.devicesY - cfg.stepsInFuture true < 4294967296

variable {cfg}

theorem Regular.firstSlideStep_add (h : cfg.Regular) :
    cfg.firstSlideStep true + cfg.stepsInFuture true = cfg.stepsPerGPU * cfg.devicesY := by
  have h1 := h.stepsInFuture_le
  have h2 := h.firstSlideStep_lt
  have h3 : cfg.stepsPerGPU * (cfg.devicesY - 1) ≤ cfg.stepsPerGPU * cfg.devicesY :=
    Nat.mul_le_mul_left _ (Nat.sub_le _ _)
  simp only [firstSlideStep, u32]
  rw [← Nat.cast_mul]
  omega

theorem Regular.mul_pred (_ : cfg.Regular) :
    cfg.stepsPerGPU * (cfg.devicesY - 1) + cfg.stepsPerGPU = cfg.stepsPerGPU * cfg.devicesY := by
  have h := cfg.two_le_devicesY
  rw [← Nat.mul_add_one, Nat.sub_add_cancel (by omega)]

theorem Regular.firstMoveStep_le (h : cfg.Regular) : cfg.firstMoveStep true ≤ cfg.firstSlideStep true := by
  have h1 := h.stepsInFuture_le
  have h2 := h.firstSlideStep_lt
  have h3 := h.firstSlideStep_add
  have h4 := h.mul_pred
  have h5 : (cfg.stepsPerGPU : ℤ) * (cfg.devicesY - 1) = (cfg.stepsPerGPU * (cfg.devicesY - 1) : ℕ) := by
    rw [Nat.cast_mul, Nat.cast_sub (by have := cfg.two_le_devicesY; omega), Nat.cast_one]
  simp only [firstMoveStep, u32, h5]
  omega

theorem Regular.firstSlideStep_pos (h : cfg.Regular) : 1 ≤ cfg.firstSlideStep true := by
  have h1 := h.stepsInFuture_le
  have h2 := h.firstSlideStep_add
  have h3 := h.stepsPerGPU_pos
  have h4 := h.mul_pred
  omega

theorem Regular.slideStep_iff (h : cfg.Regular) {n : ℕ} (hn : n + cfg.stepsInFuture true < 4294967296) :
    cfg.SlideStep n ↔ cfg.firstSlideStep true ≤ n ∧ cfg.stepsPerGPU ∣ n + cfg.stepsInFuture true := by
  have hmove := h.firstMoveStep_le
  have hmod : cfg.stepsInLastGPU true n = (n + cfg.stepsInFuture true) % cfg.stepsPerGPU := by
    rw [stepsInLastGPU, u32_add, Nat.mod_eq_of_lt hn]
  rw [SlideStep, hmod, Nat.dvd_iff_mod_eq_zero]
  constructor
  · rintro ⟨-, h2, h3⟩
    exact ⟨h2, h3⟩
  · rintro ⟨h2, h3⟩
    exact ⟨hmove.trans h2, h2, h3⟩

/-- The closed form grows by one in the slide steps. -/
theorem Regular.slidesUntil_succ (h : cfg.Regular) {n : ℕ} (hn : n + 1 + cfg.stepsInFuture true < 4294967296) :
    cfg.slidesUntil (n + 1) = cfg.slidesUntil n + if cfg.SlideStep (n + 1) then 1 else 0 := by
  have hadd := h.firstSlideStep_add
  have hdiv : (n + 1 + cfg.stepsInFuture true) / cfg.stepsPerGPU =
      (n + cfg.stepsInFuture true) / cfg.stepsPerGPU +
        if cfg.stepsPerGPU ∣ n + 1 + cfg.stepsInFuture true then 1 else 0 := by
    rw [Nat.add_right_comm, Nat.succ_div]
  simp only [slidesUntil, h.slideStep_iff hn]
  rcases Nat.lt_trichotomy (n + 1) (cfg.firstSlideStep true) with hlt | heq | hgt
  · simp [hlt, Nat.lt_of_succ_lt hlt, not_le.mpr hlt]
  · have hmul : n + 1 + cfg.stepsInFuture true = cfg.stepsPerGPU * cfg.devicesY := by rw [heq, hadd]
    have hlt : n < cfg.firstSlideStep true := by omega
    rw [if_neg (by omega), if_pos hlt, if_pos ⟨heq.ge, ⟨_, hmul⟩⟩, hmul,
      Nat.mul_div_cancel_left _ h.stepsPerGPU_pos]
    ring
  · rw [if_neg (by omega), if_neg (by omega), hdiv]
    have hle : cfg.firstSlideStep true ≤ n + 1 := by omega
    simp only [hle, true_and]
    split_ifs <;> push_cast <;> ring

theorem Regular.slidesUntil_le (h : cfg.Regular) {n : ℕ} (hn : n + cfg.stepsInFuture true < 4294967296) :
    0 ≤ cfg.slidesUntil n ∧ cfg.slidesUntil n ≤ n := by
  induction n with
  | zero =>
    have hpos := h.firstSlideStep_pos
    simp [slidesUntil, Nat.lt_of_succ_le hpos]
  | succ n ih =>
    obtain ⟨h0, h1⟩ := ih (by omega)
    rw [h.slidesUntil_succ hn]
    split_ifs <;> push_cast <;> omega

end WindowConfig

namespace MovingWindow

variable {d : ℕ} {cfg : WindowConfig}

inductive Query (d : ℕ)
  | getSlideCounter
  | slideInCurrentStep
  | getWindow (comm : Communicator (d + 2))

def ask (cfg : WindowConfig) (mw : MovingWindow) (call : ℕ × Query d) : MovingWindow :=
  match call.2 with
  | .getSlideCounter => (getSlideCounter cfg mw call.1).1
  | .slideInCurrentStep => (slideInCurrentStep cfg mw call.1).1
  | .getWindow comm => (getWindow cfg comm mw call.1).1

theorem ask_eq {mw : MovingWindow} (hact : mw.slidingWindowActive = true) (call : ℕ × Query d) :
    ask cfg mw call = if cfg.SlideStep call.1 then mw.incrementSlideCounter call.1 else mw := by
  obtain ⟨n, q⟩ := call
  rw [← getCurrentSlideInfo_state cfg hact]
  cases q with
  | getSlideCounter => rfl
  | slideInCurrentStep => simp [ask, slideInCurrentStep, hact]
  | getWindow comm =>
    simp only [ask, getWindow, hact, if_true]
    split <;> rfl

/-- The steps of the calls start at zero, do not decrease and leave no step out. -/
def EveryStep (calls : List (ℕ × Query d)) : Prop :=
  (∀ call ∈ calls.head?, call.1 = 0) ∧
    calls.IsChain fun call next => next.1 = call.1 ∨ next.1 = call.1 + 1

/-- The window after the last call of step `n`. -/
structure Counted (cfg : WindowConfig) (n : ℕ) (mw : MovingWindow) : Prop where
  active : mw.slidingWindowActive = true
  counter : (mw.slideCounter : ℤ) = cfg.slidesUntil n
  counted : cfg.SlideStep n → mw.lastSlideStep = n
  last_le : mw.lastSlideStep ≤ n

theorem Counted.again {n : ℕ} {mw : MovingWindow} (h : Counted cfg n mw) (q : Query d) :
    ask cfg mw (n, q) = mw := by
  rw [ask_eq h.active]
  split_ifs with hs
  · simp [incrementSlideCounter, h.counted hs]
  · rfl

theorem Counted.next (hc : cfg.Regular) {n : ℕ} (hn : n + 1 + cfg.stepsInFuture true < 4294967296)
    {mw : MovingWindow} (h : Counted cfg n mw) (q : Query d) : Counted cfg (n + 1) (ask cfg mw (n + 1, q)) := by
  have hlast := h.last_le
  have hcount := h.counter
  obtain ⟨h0, h1⟩ := hc.slidesUntil_le (n := n) (by omega)
  have hsucc := hc.slidesUntil_succ hn
  rw [ask_eq h.active]
  split_ifs with hs
  · rw [if_pos hs] at hsucc
    rw [incrementSlideCounter, if_pos ⟨h.active, by dsimp only; omega⟩]
    refine ⟨h.active, ?_, fun _ => rfl, le_rfl⟩
    dsimp only
    rw [u32, hsucc]
    omega
  · rw [if_neg hs] at hsucc
    exact ⟨h.active, by rw [hsucc, hcount, add_zero], fun h' => absurd h' hs, by omega⟩

theorem counted_start (hc : cfg.Regular) : Counted cfg 0 ⟨true, 0, 0⟩ := by
  have hpos := hc.firstSlideStep_pos
  exact ⟨rfl, by simp [WindowConfig.slidesUntil, Nat.lt_of_succ_le hpos], fun _ => rfl, le_rfl⟩

/-- The first call of a run asks in step zero, every other one in the step before or the next one. -/
theorem EveryStep.snoc {calls : List (ℕ × Query d)} {call : ℕ × Query d} (h : EveryStep (calls ++ [call])) :
    EveryStep calls ∧ (calls = [] → call.1 = 0) ∧
      ∀ last ∈ calls.getLast?, call.1 = last.1 ∨ call.1 = last.1 + 1 := by
  obtain ⟨hhead, hchain⟩ := h
  obtain ⟨hl, -, hlast⟩ := List.isChain_append.mp hchain
  refine ⟨⟨fun c hc => hhead c ?_, hl⟩, fun hnil => hhead call (by simp [hnil]), fun last hl' => ?_⟩
  · cases calls with
    | nil => simp at hc
    | cons c' calls => simpa using hc
  · exact hlast last hl' call (by simp)

theorem counted_run (hc : cfg.Regular) {calls : List (ℕ × Query d)} (h : EveryStep calls) :
    ∀ last ∈ calls.getLast?, last.1 + cfg.stepsInFuture true < 4294967296 →
      Counted cfg last.1 (calls.foldl (ask cfg) ⟨true, 0, 0⟩) := by
  induction calls using List.reverseRecOn with
  | nil => simp
  | append_singleton calls call ih =>
    obtain ⟨hcalls, hnil, hlast⟩ := h.snoc
    intro last hmem hn
    obtain rfl : call = last := by simpa using hmem
    rw [List.foldl_append, List.foldl_cons, List.foldl_nil]
    obtain ⟨n, q⟩ := call
    cases hprev : calls.getLast? with
    | none =>
      have hnil' := List.getLast?_eq_none_iff.mp hprev
      obtain rfl : n = 0 := hnil hnil'
      rw [hnil', List.foldl_nil, (counted_start hc).again]
      exact counted_start hc
    | some prev =>
      have hstep := hlast prev hprev
      dsimp only at hstep hn
      have hcounted := ih hcalls prev hprev (by omega)
      rcases hstep with rfl | rfl
      · rw [hcounted.again]
        exact hcounted
      · exact hcounted.next hc hn q

theorem slideStep_iff_lt (hc : cfg.Regular) {n : ℕ} (hn : n + cfg.stepsInFuture true < 4294967296) :
    cfg.SlideStep n ↔ cfg.slidesUntil (n - 1) < cfg.slidesUntil n := by
  cases n with
  | zero =>
    have hpos := hc.firstSlideStep_pos
    rw [hc.slideStep_iff hn]
    simp
    omega
  | succ n =>
    rw [Nat.add_sub_cancel, hc.slidesUntil_succ hn]
    split_ifs with h <;> simp [h]

/-- After a call in step `n` the counter has its closed form, and the answer of `slideInCurrentStep`
in that step is whether it has grown. -/
theorem slideCounter_closedForm (hc : cfg.Regular) {calls : List (ℕ × Query d)} {n : ℕ} {q : Query d}
    (h : EveryStep (calls ++ [(n, q)])) (hn : n + cfg.stepsInFuture true < 4294967296) :
    (((calls ++ [(n, q)]).foldl (ask cfg) ⟨true, 0, 0⟩).slideCounter : ℤ) = cfg.slidesUntil n ∧
      ((slideInCurrentStep cfg (calls.foldl (ask cfg) ⟨true, 0, 0⟩) n).2 = true ↔
        cfg.slidesUntil (n - 1) < cfg.slidesUntil n) := by
  refine ⟨(counted_run hc h (n, q) (by simp) hn).counter, ?_⟩
  have hact : (calls.foldl (ask cfg) ⟨true, 0, 0⟩).slidingWindowActive = true := by
    obtain ⟨hcalls, -, hlast⟩ := h.snoc
    cases hprev : calls.getLast? with
    | none => rw [List.getLast?_eq_none_iff.mp hprev, List.foldl_nil]
    | some prev =>
      have hstep := hlast prev hprev
      dsimp only at hstep
      exact (counted_run hc hcalls prev hprev (by omega)).active
  rw [slideInCurrentStep_eq cfg hact, ← slideStep_iff_lt hc hn]
  exact decide_eq_true_iff

/-- Light needs three steps to cross one of the two devices, and one step is ahead. -/
def threeSteps : WindowConfig where
  localSizeY := 3
  devicesY := 2
  cellHeight := 1
  lightWayPerStep := 1
  slidePoint := 2 / 3
  localSizeY_pos := by norm_num
  two_le_devicesY := le_rfl
  cellHeight_pos := steepWindow.cellHeight_pos
  lightWayPerStep_pos := steepWindow.cellHeight_pos
  slidePoint_le_one := by norm_num

theorem threeSteps_stepsInFuture : threeSteps.stepsInFuture true = 1 := by
  norm_num [WindowConfig.stepsInFuture, WindowConfig.stepsInFutureTmp, WindowConfig.windowGlobalDimY_active,
    threeSteps]

theorem threeSteps_stepsPerGPU : threeSteps.stepsPerGPU = 3 := by
  norm_num [WindowConfig.stepsPerGPU, threeSteps, Nat.floor_eq_iff]

theorem threeSteps_regular : threeSteps.Regular := by
  have hdev : threeSteps.devicesY = 2 := rfl
  refine ⟨?_, ?_, ?_⟩ <;> rw [threeSteps_stepsPerGPU] <;> simp [threeSteps_stepsInFuture, hdev]

theorem threeSteps_slidesUntil {n : ℕ} (hn : 5 ≤ n) : threeSteps.slidesUntil n = ((n + 1) / 3 : ℕ) - 1 := by
  have hfirst := threeSteps_regular.firstSlideStep_add
  have hdev : threeSteps.devicesY = 2 := rfl
  rw [threeSteps_stepsInFuture, threeSteps_stepsPerGPU, hdev] at hfirst
  rw [WindowConfig.slidesUntil, if_neg (by omega), threeSteps_stepsInFuture, threeSteps_stepsPerGPU, hdev]
  push_cast
  ring

def oneCallPerStep (d n : ℕ) : List (ℕ × Query d) := (List.range n).map fun i => (i, .getSlideCounter)

theorem oneCallPerStep_succ (d n : ℕ) :
    oneCallPerStep d (n + 1) = oneCallPerStep d n ++ [(n, .getSlideCounter)] := by
  simp [oneCallPerStep, List.range_succ]

theorem oneCallPerStep_everyStep (d n : ℕ) : EveryStep (oneCallPerStep d n) := by
  induction n with
  | zero => exact ⟨by simp [oneCallPerStep], by simp [oneCallPerStep]⟩
  | succ n ih =>
    rw [oneCallPerStep_succ]
    obtain ⟨hhead, hchain⟩ := ih
    cases n with
    | zero => exact ⟨by simp [oneCallPerStep], by simp [oneCallPerStep]⟩
    | succ n =>
      rw [oneCallPerStep_succ] at hhead hchain ⊢
      refine ⟨by simpa using hhead, List.isChain_append.mpr ⟨hchain, List.isChain_singleton _, ?_⟩⟩
      simp

/-- In the last step the sum with the step ahead wraps to zero and a slide too many is counted. -/
theorem threeSteps_wraps : EveryStep (oneCallPerStep 0 4294967296) ∧
    (((oneCallPerStep 0 4294967296).foldl (ask threeSteps) ⟨true, 0, 0⟩).slideCounter : ℤ) ≠
      threeSteps.slidesUntil 4294967295 := by
  refine ⟨oneCallPerStep_everyStep 0 _, ?_⟩
  have hlast : ((4294967294, .getSlideCounter) : ℕ × Query 0) ∈ (oneCallPerStep 0 (4294967294 + 1)).getLast? := by
    rw [oneCallPerStep_succ]
    simp
  have hcounted := counted_run threeSteps_regular (oneCallPerStep_everyStep 0 (4294967294 + 1)) _ hlast
    (by rw [threeSteps_stepsInFuture]; norm_num)
  have hslide : threeSteps.SlideStep 4294967295 := by
    have hfirst := threeSteps_regular.firstSlideStep_add
    have hdev : threeSteps.devicesY = 2 := rfl
    rw [threeSteps_stepsInFuture, threeSteps_stepsPerGPU, hdev] at hfirst
    refine ⟨threeSteps_regular.firstMoveStep_le.trans (by omega), by omega, ?_⟩
    rw [WindowConfig.stepsInLastGPU, threeSteps_stepsInFuture, threeSteps_stepsPerGPU, u32_add]
  have hcount := hcounted.counter
  have hle := hcounted.last_le
  rw [show (4294967296 : ℕ) = 4294967295 + 1 from rfl, oneCallPerStep_succ, List.foldl_append, List.foldl_cons,
    List.foldl_nil, ask_eq hcounted.active, if_pos hslide, incrementSlideCounter,
    if_pos ⟨hcounted.active, by dsimp only at hle ⊢; omega⟩]
  rw [threeSteps_slidesUntil (by norm_num)] at hcount ⊢
  dsimp only at hcount ⊢
  rw [u32, hcount]
  norm_num

theorem slideCounter_closedForm_threeSteps :
    (((oneCallPerStep 0 6).foldl (ask threeSteps) ⟨true, 0, 0⟩).slideCounter : ℤ) = threeSteps.slidesUntil 5 ∧
      threeSteps.slidesUntil 5 = 1 := by
  refine ⟨?_, by rw [threeSteps_slidesUntil le_rfl]; norm_num⟩
  have hsteps := oneCallPerStep_everyStep 0 6
  rw [oneCallPerStep_succ] at hsteps ⊢
  exact (slideCounter_closedForm threeSteps_regular hsteps (by rw [threeSteps_stepsInFuture]; norm_num)).1

end MovingWindow

namespace WindowConfig

variable (cfg : WindowConfig)

/-- Time steps in which light crosses one device, not rounded. -/
def crossingSteps : ℚ := cfg.localSizeY * cfg.cellHeight / cfg.lightWayPerStep

/-- The part of the window behind the slide point is not longer than all devices but one, each rounded to
the nearest step. -/
def LookAheadFits (active : Bool) : Prop :=
  (cfg.devicesY - active.toNat) * (cfg.crossingSteps * (1 - cfg.slidePoint)) ≤
    (cfg.devicesY - 1) * ⌊cfg.crossingSteps + 1 / 2⌋

/-- With an active window the number of devices does not matter. -/
theorem lookAheadFits_active :
    cfg.LookAheadFits true ↔ cfg.crossingSteps * (1 - cfg.slidePoint) ≤ ⌊cfg.crossingSteps + 1 / 2⌋ := by
  have hdev : (0 : ℚ) < cfg.devicesY - 1 := by
    have : (2 : ℚ) ≤ cfg.devicesY := by exact_mod_cast cfg.two_le_devicesY
    linarith
  rw [LookAheadFits, Bool.toNat_true, Nat.cast_one]
  exact mul_le_mul_iff_right₀ hdev

theorem stepsInFutureTmp_eq (active : Bool) :
    cfg.stepsInFutureTmp active = (cfg.devicesY - active.toNat) * (cfg.crossingSteps * (1 - cfg.slidePoint)) := by
  have hle : active.toNat ≤ cfg.devicesY := (Bool.toNat_le active).trans (by have := cfg.two_le_devicesY; omega)
  have hdim : cfg.windowGlobalDimY active = (cfg.devicesY - active.toNat) * cfg.localSizeY := by
    rw [windowGlobalDimY, globalSizeY, Nat.sub_mul, Nat.mul_comm cfg.localSizeY]
  rw [stepsInFutureTmp, hdim, crossingSteps]
  push_cast [hle]
  ring

theorem stepsPerGPU_eq : (cfg.stepsPerGPU : ℤ) = ⌊cfg.crossingSteps + 1 / 2⌋ := by
  have h1 := cfg.cellHeight_pos
  have h2 := cfg.lightWayPerStep_pos
  have hpos : 0 ≤ cfg.crossingSteps + 1 / 2 := by
    unfold crossingSteps
    positivity
  exact Int.natCast_floor_eq_floor hpos

theorem stepsInFuture_le_iff (active : Bool) :
    (cfg.stepsInFuture active : ℤ) ≤ cfg.stepsPerGPU * (cfg.devicesY - 1) ↔ cfg.LookAheadFits active := by
  have hdev := cfg.two_le_devicesY
  have hnat : (cfg.stepsInFuture active : ℤ) ≤ cfg.stepsPerGPU * (cfg.devicesY - 1) ↔
      cfg.stepsInFuture active ≤ cfg.stepsPerGPU * (cfg.devicesY - 1) := by
    zify [show 1 ≤ cfg.devicesY by omega]
  rw [hnat, stepsInFuture, Nat.ceil_le, stepsInFutureTmp_eq, LookAheadFits, ← stepsPerGPU_eq]
  push_cast [show 1 ≤ cfg.devicesY by omega]
  rw [mul_comm (cfg.stepsPerGPU : ℚ)]

/-- The start steps are the values that they stand for. -/
structure StartSteps (active : Bool) : Prop where
  slide_nonneg : (0 : ℤ) ≤ cfg.stepsPerGPU * cfg.devicesY - cfg.stepsInFuture active
  move_nonneg : (0 : ℤ) ≤ cfg.stepsPerGPU * (cfg.devicesY - 1) - cfg.stepsInFuture active
  slide_eq : (cfg.firstSlideStep active : ℤ) = cfg.stepsPerGPU * cfg.devicesY - cfg.stepsInFuture active
  move_eq : (cfg.firstMoveStep active : ℤ) = cfg.stepsPerGPU * (cfg.devicesY - 1) - cfg.stepsInFuture active
  move_add : cfg.firstMoveStep active + cfg.stepsPerGPU = cfg.firstSlideStep active

/-- The start steps do not wrap around if and only if the look-ahead fits. -/
theorem startSteps_iff (active : Bool) (hsize : cfg.stepsPerGPU * cfg.devicesY < 4294967296) :
    cfg.StartSteps active ↔ cfg.LookAheadFits active := by
  rw [← stepsInFuture_le_iff]
  constructor
  · intro h
    exact sub_nonneg.mp h.move_nonneg
  · intro hle
    have hsize' : (cfg.stepsPerGPU * cfg.devicesY : ℤ) < 4294967296 := by exact_mod_cast hsize
    have hmul : (cfg.stepsPerGPU : ℤ) * (cfg.devicesY - 1) + cfg.stepsPerGPU = cfg.stepsPerGPU * cfg.devicesY := by
      ring
    have hslide : (cfg.firstSlideStep active : ℤ) = cfg.stepsPerGPU * cfg.devicesY - cfg.stepsInFuture active := by
      simp only [firstSlideStep, u32]
      omega
    have hmove : (cfg.firstMoveStep active : ℤ) =
        cfg.stepsPerGPU * (cfg.devicesY - 1) - cfg.stepsInFuture active := by
      simp only [firstMoveStep, u32]
      omega
    exact ⟨by omega, by omega, hslide, hmove, by omega⟩

/-- Light crosses one of the two devices in 7/5 steps, which are rounded to one step. -/
def shortSteps : WindowConfig where
  localSizeY := 1
  devicesY := 2
  cellHeight := 7
  lightWayPerStep := 5
  slidePoint := 1 / 10
  localSizeY_pos := le_rfl
  two_le_devicesY := le_rfl
  cellHeight_pos := by norm_num
  lightWayPerStep_pos := by norm_num
  slidePoint_le_one := by norm_num

theorem shortSteps_stepsPerGPU : shortSteps.stepsPerGPU = 1 := by
  norm_num [stepsPerGPU, shortSteps, Nat.floor_eq_iff]

theorem shortSteps_stepsInFuture : shortSteps.stepsInFuture true = 2 := by
  norm_num [stepsInFuture, stepsInFutureTmp, windowGlobalDimY_active, shortSteps, Nat.ceil_eq_iff]

/-- The window would start to move one step before the simulation starts. -/
theorem shortSteps_wraps :
    (0 < shortSteps.ratio ∧ shortSteps.ratio < 1) ∧ (0 ≤ shortSteps.slidePoint ∧ shortSteps.slidePoint ≤ 1) ∧
      shortSteps.stepsPerGPU * shortSteps.devicesY < 4294967296 ∧ shortSteps.firstMoveStep true = 4294967295 ∧
      ¬shortSteps.StartSteps true := by
  have hdev : shortSteps.devicesY = 2 := rfl
  refine ⟨?_, ?_, ?_, ?_, fun h => ?_⟩
  · norm_num [ratio, shortSteps]
  · norm_num [shortSteps]
  · rw [shortSteps_stepsPerGPU, hdev]
    norm_num
  · rw [firstMoveStep, shortSteps_stepsPerGPU, shortSteps_stepsInFuture, hdev]
    rfl
  · have := h.move_nonneg
    rw [shortSteps_stepsPerGPU, shortSteps_stepsInFuture, hdev] at this
    norm_num at this

theorem startSteps_iff_threeSteps :
    MovingWindow.threeSteps.stepsPerGPU * MovingWindow.threeSteps.devicesY < 4294967296 ∧
      MovingWindow.threeSteps.StartSteps true := by
  have hsize : MovingWindow.threeSteps.stepsPerGPU * MovingWindow.threeSteps.devicesY < 4294967296 := by
    rw [MovingWindow.threeSteps_stepsPerGPU]
    decide
  refine ⟨hsize, (startSteps_iff _ true hsize).mpr ?_⟩
  rw [lookAheadFits_active]
  norm_num [crossingSteps, MovingWindow.threeSteps]

end WindowConfig

end PIConGPU
