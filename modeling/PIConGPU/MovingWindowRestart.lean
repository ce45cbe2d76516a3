import PIConGPU.MovingWindow

/-!
# Restarting a run with a moving window

A checkpoint stores the number of slides, its own step included. A restart restores that many
slides and then performs the window check of the checkpoint step once more.
-/
namespace PIConGPU.MovingWindow

variable {d : ℕ}

/-- The part of a rank's state that the window check reads and writes. -/
structure RunState (d : ℕ) where
  window : MovingWindow
  comm : Communicator (d + 2)

/-- `MySimulation::movingWindowCheck` with the communicator part of `slide`. -/
def movingWindowCheck (cfg : WindowConfig) (g : ProcessGrid (d + 2)) (rank : ℕ) (s : RunState d)
    (currentStep : ℕ) : Option (RunState d) :=
  let (window, doSlide) := slideInCurrentStep cfg s.window currentStep
  if doSlide then (Communicator.slide g rank s.comm).map fun c => ⟨window, c.1⟩
  else some ⟨window, s.comm⟩

def queryWindow (cfg : WindowConfig) (currentStep calls : ℕ) (s : RunState d) : RunState d :=
  { s with window := (fun mw => (getCurrentSlideInfo cfg mw currentStep).state)^[calls] s.window }

/-- The main loop of `startSimulation` for a number of steps after step `n`; `queries` says how
often the window is asked between the checks. -/
def continueRun (cfg : WindowConfig) (g : ProcessGrid (d + 2)) (rank : ℕ) (queries : ℕ → ℕ)
    (s : RunState d) (n : ℕ) : ℕ → Option (RunState d)
  | 0 => some s
  | m + 1 => (continueRun cfg g rank queries s n m).bind fun t =>
      movingWindowCheck cfg g rank (queryWindow cfg (n + m) (queries (n + m)) t) (n + m + 1)

def runTo (cfg : WindowConfig) (g : ProcessGrid (d + 2)) (rank : ℕ) (queries : ℕ → ℕ) (n : ℕ) :
    Option (RunState d) :=
  (Communicator.init g rank).bind fun comm =>
    (movingWindowCheck cfg g rank ⟨⟨true, 0, 0⟩, comm⟩ 0).bind fun s =>
      continueRun cfg g rank queries s 0 n

def restart (cfg : WindowConfig) (g : ProcessGrid (d + 2)) (rank slides n : ℕ) : Option (RunState d) :=
  (Communicator.init g rank).bind fun comm =>
    (Communicator.setStateAfterSlides g rank slides comm).bind fun st =>
      movingWindowCheck cfg g rank ⟨setSlideCounter ⟨true, 0, 0⟩ slides n, st.1⟩ n

/-- The window state shared by two runs. -/
def SameWindow (s t : RunState d) : Prop :=
  s.window.slideCounter = t.window.slideCounter ∧ s.comm = t.comm

/-- The restarted run agrees with the uninterrupted one at the checkpoint step and ever after. -/
def RestartTransparent (cfg : WindowConfig) (g : ProcessGrid (d + 2)) (rank : ℕ)
    (queries queries' : ℕ → ℕ) (n : ℕ) : Prop :=
  ∃ s s', runTo cfg g rank queries n = some s ∧
    restart cfg g rank (getSlideCounter cfg s.window n).2 n = some s' ∧ SameWindow s s' ∧
    ∀ m, n + m < 4294967296 → ∃ t t', continueRun cfg g rank queries s n m = some t ∧
      continueRun cfg g rank queries' s' n m = some t' ∧ SameWindow t t'

end PIConGPU.MovingWindow

namespace PIConGPU.WindowConfig

/-- The constants are representable: a device takes at least one step and the counts fit into
32 bits, outside of which the conversions and the remainder of the source are undefined. -/
structure Representable (cfg : WindowConfig) : Prop where
  stepsPerGPU_pos : 0 < cfg.stepsPerGPU
  stepsPerGPU_lt : cfg.stepsPerGPU < 4294967296

def SlideStep (cfg : WindowConfig) (n : ℕ) : Prop :=
  cfg.firstMoveStep true ≤ n ∧ cfg.firstSlideStep true ≤ n ∧ cfg.stepsInLastGPU true n = 0

instance (cfg : WindowConfig) (n : ℕ) : Decidable (cfg.SlideStep n) :=
  inferInstanceAs (Decidable (_ ∧ _))

/-- No slide in step zero, although the once-per-step guard would not count it. -/
theorem not_slideStep_zero {cfg : WindowConfig} (hc : cfg.Representable) : ¬ cfg.SlideStep 0 := by
  rintro ⟨h1, h2, -⟩
  have hpos := hc.stepsPerGPU_pos
  have hlt := hc.stepsPerGPU_lt
  simp only [firstMoveStep, firstSlideStep, u32, mul_sub, mul_one] at h1 h2
  generalize (cfg.stepsPerGPU : ℤ) * cfg.devicesY = a at h1 h2
  omega

def slidesAfter (cfg : WindowConfig) (n : ℕ) : ℕ → ℕ
  | 0 => 0
  | m + 1 => slidesAfter cfg n m + if cfg.SlideStep (n + m + 1) then 1 else 0

theorem slidesAfter_le (cfg : WindowConfig) (n m : ℕ) : cfg.slidesAfter n m ≤ m := by
  induction m with
  | zero => simp [slidesAfter]
  | succ m ih =>
    simp only [slidesAfter]
    split_ifs <;> omega

end PIConGPU.WindowConfig

namespace PIConGPU.MovingWindow

variable {d : ℕ} (cfg : WindowConfig) {g : ProcessGrid (d + 2)} {rank : ℕ}

theorem getCurrentSlideInfo_doSlide {mw : MovingWindow} (hact : mw.slidingWindowActive = true) (n : ℕ) :
    (getCurrentSlideInfo cfg mw n).doSlide = decide (cfg.SlideStep n) := by
  unfold getCurrentSlideInfo WindowConfig.SlideStep
  simp only [hact, true_and]
  split_ifs with h1 h2
  · simp [h1, h2]
  · simp only [h1, true_and]
    exact (decide_eq_false h2).symm
  · simp [h1]

theorem getCurrentSlideInfo_state {mw : MovingWindow} (hact : mw.slidingWindowActive = true) (n : ℕ) :
    (getCurrentSlideInfo cfg mw n).state =
      if cfg.SlideStep n then mw.incrementSlideCounter n else mw := by
  unfold getCurrentSlideInfo
  simp only [hact, true_and]
  split_ifs with h1 h2 h h h
  · rfl
  · exact absurd ⟨h1, h2⟩ h
  · exact absurd h.2 h2
  · rfl
  · exact absurd h.1 h1
  · rfl

/-- Once the slide of a step is counted, asking again in the same step changes nothing. -/
theorem queryWindow_eq {s : RunState d} (hact : s.window.slidingWindowActive = true) {n : ℕ}
    (hlast : cfg.SlideStep n → s.window.lastSlideStep = n) (calls : ℕ) :
    queryWindow cfg n calls s = s := by
  have hfix : (getCurrentSlideInfo cfg s.window n).state = s.window := by
    rw [getCurrentSlideInfo_state cfg hact]
    split_ifs with h
    · simp [incrementSlideCounter, hlast h]
    · rfl
  have hiter := Function.iterate_fixed
    (f := fun mw => (getCurrentSlideInfo cfg mw n).state) hfix calls
  simp only [queryWindow, hiter]

theorem slideInCurrentStep_eq {mw : MovingWindow} (hact : mw.slidingWindowActive = true) (n : ℕ) :
    slideInCurrentStep cfg mw n =
      (if cfg.SlideStep n then mw.incrementSlideCounter n else mw, decide (cfg.SlideStep n)) := by
  rw [slideInCurrentStep, if_pos hact]
  simp only [getCurrentSlideInfo_state cfg hact, getCurrentSlideInfo_doSlide cfg hact]

/-- Loop invariant of a run: every slide is counted once and the communicator has performed
exactly the counted slides. -/
structure RunInvariant (cfg : WindowConfig) (g : ProcessGrid (d + 2)) (rank n slides : ℕ)
    (s : RunState d) : Prop where
  active : s.window.slidingWindowActive = true
  counter : s.window.slideCounter = slides
  counted : cfg.SlideStep n → s.window.lastSlideStep = n
  last_le : s.window.lastSlideStep ≤ n
  comm_eq : Communicator.afterSlides g rank slides = some s.comm

theorem movingWindowCheck_next (hd : d ≤ 1) {n slides : ℕ} {s : RunState d}
    (hs : RunInvariant cfg g rank n slides s) (hslides : slides + 1 < 4294967296) :
    ∃ t, movingWindowCheck cfg g rank s (n + 1) = some t ∧
      RunInvariant cfg g rank (n + 1) (slides + if cfg.SlideStep (n + 1) then 1 else 0) t := by
  have hlast := hs.last_le
  unfold movingWindowCheck
  rw [slideInCurrentStep_eq cfg hs.active]
  by_cases h : cfg.SlideStep (n + 1)
  · obtain ⟨comm, hslide, hafter⟩ := Communicator.slide_afterSlides hd hs.comm_eq
    have hinc : s.window.incrementSlideCounter (n + 1) = ⟨true, slides + 1, n + 1⟩ := by
      rw [incrementSlideCounter, if_pos ⟨hs.active, by omega⟩, hs.active, hs.counter]
      simp only [u32, mk.injEq, true_and, and_true]
      omega
    simp only [h, if_true, decide_true, hslide, Option.map_some, hinc]
    exact ⟨_, rfl, rfl, rfl, fun _ => rfl, le_rfl, hafter⟩
  · simp only [h, if_false, decide_false, Bool.false_eq_true, Nat.add_zero]
    exact ⟨_, rfl, hs.active, hs.counter, fun h' => absurd h' h, by simp only; omega, hs.comm_eq⟩

theorem continueRun_spec (hd : d ≤ 1) (queries : ℕ → ℕ) {n slides : ℕ} {s : RunState d}
    (hs : RunInvariant cfg g rank n slides s) (m : ℕ) (hm : slides + m < 4294967296) :
    ∃ t, continueRun cfg g rank queries s n m = some t ∧
      RunInvariant cfg g rank (n + m) (slides + cfg.slidesAfter n m) t := by
  induction m with
  | zero => exact ⟨s, rfl, hs⟩
  | succ m ih =>
    obtain ⟨t, ht, hinv⟩ := ih (by omega)
    have hle := cfg.slidesAfter_le n m
    rw [continueRun, ht, Option.bind_some, queryWindow_eq cfg hinv.active hinv.counted]
    obtain ⟨t', ht', hinv'⟩ := movingWindowCheck_next cfg hd hinv (by omega)
    refine ⟨t', ht', ?_⟩
    rw [WindowConfig.slidesAfter, ← Nat.add_assoc slides]
    exact hinv'

theorem runTo_spec (hd : d ≤ 1) (hc : cfg.Representable) (queries : ℕ → ℕ) {n : ℕ}
    (hn : n < 4294967296) :
    ∃ s, runTo cfg g rank queries n = some s ∧
      RunInvariant cfg g rank n (cfg.slidesAfter 0 n) s := by
  obtain ⟨comm, hcomm, -⟩ := Communicator.afterSlides_spec hd g rank 0
  have hzero := WindowConfig.not_slideStep_zero hc
  have hfirst : movingWindowCheck cfg g rank ⟨⟨true, 0, 0⟩, comm⟩ 0 = some ⟨⟨true, 0, 0⟩, comm⟩ := by
    unfold movingWindowCheck
    rw [slideInCurrentStep_eq cfg rfl]
    simp [hzero]
  have hstart : RunInvariant cfg g rank 0 0 ⟨⟨true, 0, 0⟩, comm⟩ :=
    ⟨rfl, rfl, fun h => absurd h hzero, le_rfl, hcomm⟩
  obtain ⟨s, hs, hinv⟩ := continueRun_spec cfg hd queries hstart n (by omega)
  refine ⟨s, ?_, by simpa using hinv⟩
  rw [Communicator.afterSlides] at hcomm
  rw [runTo, hcomm, Option.bind_some, hfirst, Option.bind_some, hs]

/-- A restart performs one slide too many exactly when the checkpoint step is a slide step. -/
theorem restart_spec (hd : d ≤ 1) (slides n : ℕ) :
    ∃ s, restart cfg g rank slides n = some s ∧ s.window = ⟨true, slides, n⟩ ∧
      Communicator.afterSlides g rank (slides + if cfg.SlideStep n then 1 else 0) = some s.comm := by
  obtain ⟨comm, hcomm, -⟩ := Communicator.afterSlides_spec hd g rank 0
  rw [Communicator.afterSlides] at hcomm
  obtain ⟨st, hst, hafter⟩ := Communicator.setStateAfterSlides_init hd slides hcomm
  rw [restart, hcomm, Option.bind_some, hst, Option.bind_some]
  unfold movingWindowCheck
  rw [slideInCurrentStep_eq cfg rfl]
  by_cases h : cfg.SlideStep n
  · obtain ⟨comm', hslide, hnext⟩ := Communicator.slide_afterSlides hd hafter
    simp only [h, if_true, decide_true, hslide, Option.map_some]
    exact ⟨_, rfl, by simp [setSlideCounter, incrementSlideCounter], hnext⟩
  · simp only [h, if_false, decide_false, Bool.false_eq_true]
    exact ⟨_, rfl, rfl, hafter⟩

/-- A restart is transparent for the moving window exactly when no slide happens in the step of
the checkpoint. -/
theorem restart_transparent_iff (hd : d ≤ 1) (hc : cfg.Representable) (hg : g.dims 1 = cfg.devicesY)
    (queries queries' : ℕ → ℕ) {n : ℕ} (hn : n < 4294967296) :
    RestartTransparent cfg g rank queries queries' n ↔ ¬ cfg.SlideStep n := by
  obtain ⟨s, hs, hinv⟩ : ∃ s, runTo cfg g rank queries n = some s ∧
      RunInvariant cfg g rank n (cfg.slidesAfter 0 n) s := runTo_spec cfg hd hc queries hn
  have hslides : (getSlideCounter cfg s.window n).2 = cfg.slidesAfter 0 n := by
    have hq := queryWindow_eq cfg hinv.active hinv.counted 1
    have hw := congrArg (fun s => s.window.slideCounter) hq
    simp only [queryWindow, Function.iterate_one] at hw
    rw [getSlideCounter, hw, hinv.counter]
  obtain ⟨s', hs', hwindow, hafter⟩ : ∃ s, restart cfg g rank (cfg.slidesAfter 0 n) n = some s ∧ _ :=
    restart_spec cfg hd (cfg.slidesAfter 0 n) n
  constructor
  · rintro ⟨r, r', hr, hr', hsame, -⟩ hslide
    obtain rfl : s = r := Option.some.inj (hs.symm.trans hr)
    rw [hslides] at hr'
    obtain rfl : s' = r' := Option.some.inj (hs'.symm.trans hr')
    rw [if_pos hslide] at hafter
    have h2 := cfg.two_le_devicesY
    exact Communicator.afterSlides_succ_ne hd (by omega) hinv.comm_eq hafter hsame.2.symm
  · intro hslide
    rw [if_neg hslide, Nat.add_zero (cfg.slidesAfter 0 n)] at hafter
    have hinv' : RunInvariant cfg g rank n (cfg.slidesAfter 0 n) s' := by
      refine ⟨?_, ?_, fun h => absurd h hslide, ?_, hafter⟩ <;> rw [hwindow]
    have hsame : ∀ {k slides : ℕ} {t t' : RunState d}, RunInvariant cfg g rank k slides t →
        RunInvariant cfg g rank k slides t' → SameWindow t t' := by
      intro k slides t t' ht ht'
      exact ⟨ht.counter.trans ht'.counter.symm, Option.some.inj (ht.comm_eq.symm.trans ht'.comm_eq)⟩
    refine ⟨s, s', hs, by rw [hslides]; exact hs', hsame hinv hinv', fun m hm => ?_⟩
    have hle := cfg.slidesAfter_le 0 n
    obtain ⟨t, ht, htinv⟩ := continueRun_spec cfg hd queries hinv m (by omega)
    obtain ⟨t', ht', htinv'⟩ := continueRun_spec cfg hd queries' hinv' m (by omega)
    exact ⟨t, t', ht, ht', hsame htinv htinv'⟩

theorem steepWindow_representable : steepWindow.Representable := by
  constructor <;> rw [steepWindow_stepsPerGPU] <;> decide

theorem steepWindow_slideStep (n : ℕ) : steepWindow.SlideStep n ↔ 18 ≤ n ∧ u32 (n + 2) % 10 = 0 := by
  have hmove : steepWindow.firstMoveStep true = 8 := by
    rw [WindowConfig.firstMoveStep, steepWindow_stepsInFuture, steepWindow_stepsPerGPU]
    decide
  have hslide : steepWindow.firstSlideStep true = 18 := by
    rw [WindowConfig.firstSlideStep, steepWindow_stepsInFuture, steepWindow_stepsPerGPU]
    decide
  rw [WindowConfig.SlideStep, hmove, hslide, WindowConfig.stepsInLastGPU, steepWindow_stepsInFuture,
    steepWindow_stepsPerGPU]
  constructor
  · exact fun h => h.2
  · exact fun h => ⟨by omega, h⟩

/-- The first slide happens in step 18. A run restarted from the checkpoint of that step has
counted one slide and performed two. -/
theorem steepWindow_restart_not_transparent :
    steepWindow.SlideStep 18 ∧
      ¬ RestartTransparent steepWindow Communicator.smallGrid 0 (fun _ => 0) (fun _ => 0) 18 := by
  have hslide : steepWindow.SlideStep 18 := (steepWindow_slideStep 18).mpr (by decide)
  refine ⟨hslide, ?_⟩
  rintro ⟨s, s', hs, hs', hsame, -⟩
  obtain ⟨r, hr, hinv⟩ : ∃ s, runTo steepWindow Communicator.smallGrid 0 (fun _ => 0) 18 = some s ∧ _ :=
    runTo_spec steepWindow (by decide) steepWindow_representable (fun _ => 0) (by decide)
  obtain rfl : r = s := Option.some.inj (hr.symm.trans hs)
  obtain ⟨r', hr', hwindow, hafter⟩ : ∃ s, restart steepWindow Communicator.smallGrid 0
      (getSlideCounter steepWindow r.window 18).2 18 = some s ∧ _ :=
    restart_spec steepWindow (by decide) (getSlideCounter steepWindow r.window 18).2 18
  obtain rfl : r' = s' := Option.some.inj (hr'.symm.trans hs')
  have hcount : (getSlideCounter steepWindow r.window 18).2 = steepWindow.slidesAfter 0 18 := by
    rw [← hinv.counter, hsame.1, hwindow]
  rw [if_pos hslide, hcount] at hafter
  exact Communicator.afterSlides_succ_ne (by decide) (by decide) hinv.comm_eq hafter hsame.2.symm

theorem restart_transparent_iff_steepWindow :
    ¬ steepWindow.SlideStep 20 ∧
      RestartTransparent steepWindow Communicator.smallGrid 0 (fun _ => 1) (fun _ => 2) 20 := by
  have hslide : ¬ steepWindow.SlideStep 20 := by
    rw [steepWindow_slideStep]
    decide
  exact ⟨hslide, (restart_transparent_iff steepWindow (g := Communicator.smallGrid) (d := 0) (by decide) steepWindow_representable rfl (fun _ => 1) (fun _ => 2) (by decide)).mpr
    hslide⟩

end PIConGPU.MovingWindow
