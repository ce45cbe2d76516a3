import PIConGPU.Communicator

/-!
# Restoring slides at once

On a restart the grid controller replays the slides of the checkpoint. Only the slides modulo
the number of devices in y are performed, which leads to the right state; the returned flag is
the one of the last slide that was performed.
-/
namespace PIConGPU

structure GridController (D : ℕ) where
  comm : Communicator D
  localDomainSize : DataSpace D
  localDomainOffset : DataSpace D

namespace GridController

variable {d : ℕ}

def updateLocalDomainOffset (gc : GridController (d + 2)) : GridController (d + 2) :=
  { gc with localDomainOffset :=
      Function.update gc.localDomainOffset 1 (gc.comm.coordinates 1 * gc.localDomainSize 1) }

def slide (g : ProcessGrid (d + 2)) (rank : ℕ) (gc : GridController (d + 2)) :
    Option (GridController (d + 2) × Bool) :=
  (gc.comm.slide g rank).map fun st => (updateLocalDomainOffset { gc with comm := st.1 }, st.2)

def setStateAfterSlides (g : ProcessGrid (d + 2)) (rank numSlides : ℕ) (gc : GridController (d + 2)) :
    Option (GridController (d + 2) × Bool) :=
  (gc.comm.setStateAfterSlides g rank numSlides).map fun st =>
    (updateLocalDomainOffset { gc with comm := st.1 }, st.2)

/-- Successive slides with the flag of the last one. -/
def slides (g : ProcessGrid (d + 2)) (rank : ℕ) (gc : GridController (d + 2)) :
    ℕ → Option (GridController (d + 2) × Bool)
  | 0 => some (gc, false)
  | n + 1 => (slides g rank gc n).bind fun st => slide g rank st.1

variable {g : ProcessGrid (d + 2)} {rank : ℕ}

theorem slide_flag {comm : Communicator (d + 2)} {st : Communicator (d + 2) × Bool}
    (h : comm.slide g rank = some st) : st.2 = decide (st.1.coordinates 1 = (g.dims 1 : ℤ) - 1) := by
  unfold Communicator.slide at h
  obtain ⟨c, -, rfl⟩ := Option.map_eq_some_iff.mp h
  rfl

theorem foldlM_slide_flag (l : List ℕ) (hl : l ≠ []) {st st' : Communicator (d + 2) × Bool}
    (h : l.foldlM (fun st _ => Communicator.slide g rank st.1) st = some st') :
    st'.2 = decide (st'.1.coordinates 1 = (g.dims 1 : ℤ) - 1) := by
  induction l generalizing st with
  | nil => exact absurd rfl hl
  | cons i l ih =>
    rw [List.foldlM_cons] at h
    obtain ⟨st₁, hslide, hrest⟩ := Option.bind_eq_some_iff.mp h
    by_cases hnil : l = []
    · obtain rfl : st₁ = st' := by simpa [hnil] using hrest
      exact slide_flag hslide
    · exact ih hnil hrest

/-- The replay performs at least one slide, unless the number of devices divides the number of slides. -/
theorem setStateAfterSlides_spec (hd : d ≤ 1) (gc : GridController (d + 2))
    (h : Communicator.init g rank = some gc.comm) (n : ℕ) :
    ∃ comm, Communicator.afterSlides g rank n = some comm ∧
      setStateAfterSlides g rank n gc = some (updateLocalDomainOffset { gc with comm := comm },
        decide (n % g.dims 1 ≠ 0 ∧ comm.coordinates 1 = (g.dims 1 : ℤ) - 1)) := by
  obtain ⟨st, hst, hafter⟩ := Communicator.setStateAfterSlides_init hd n h
  have hflag : st.2 = decide (n % g.dims 1 ≠ 0 ∧ st.1.coordinates 1 = (g.dims 1 : ℤ) - 1) := by
    by_cases hn : n % g.dims 1 = 0
    · rw [Communicator.setStateAfterSlides, hn] at hst
      obtain rfl : (gc.comm, false) = st := by simpa using hst
      simp [hn]
    · rw [foldlM_slide_flag _ (by simpa using hn) hst]
      simp [hn]
  refine ⟨st.1, hafter, ?_⟩
  rw [setStateAfterSlides, hst, Option.map_some, ← hflag]

theorem slides_succ_spec (hd : d ≤ 1) (gc : GridController (d + 2))
    (h : Communicator.init g rank = some gc.comm) (n : ℕ) :
    ∃ comm, Communicator.afterSlides g rank (n + 1) = some comm ∧
      slides g rank gc (n + 1) = some (updateLocalDomainOffset { gc with comm := comm },
        decide (comm.coordinates 1 = (g.dims 1 : ℤ) - 1)) := by
  induction n with
  | zero =>
    obtain ⟨comm, hslide, hafter⟩ := Communicator.slide_afterSlides hd
      (show Communicator.afterSlides g rank 0 = some gc.comm from h)
    refine ⟨comm, hafter, ?_⟩
    simp [slides, slide, hslide]
  | succ n ih =>
    obtain ⟨comm, hafter, hslides⟩ := ih
    obtain ⟨comm', hslide, hafter'⟩ := Communicator.slide_afterSlides hd hafter
    refine ⟨comm', hafter', ?_⟩
    rw [slides, hslides, Option.bind_some]
    simp [slide, updateLocalDomainOffset, hslide]

/-- Where a replay of `n` slides agrees with `n` slides: without a slide the offset in y has to be
the position times the local size, and a device at the end gets the wrong flag for a multiple of
the number of devices. -/
def ReplayAgrees (g : ProcessGrid (d + 2)) (gc : GridController (d + 2)) (n : ℕ) : Prop :=
  (n = 0 → gc.localDomainOffset 1 = gc.comm.coordinates 1 * gc.localDomainSize 1) ∧
  (n ≠ 0 → n % g.dims 1 = 0 → gc.comm.coordinates 1 ≠ (g.dims 1 : ℤ) - 1)

theorem updateLocalDomainOffset_eq_self (gc : GridController (d + 2)) :
    updateLocalDomainOffset gc = gc ↔ gc.localDomainOffset 1 = gc.comm.coordinates 1 * gc.localDomainSize 1 := by
  obtain ⟨comm, size, offset⟩ := gc
  simp only [updateLocalDomainOffset, mk.injEq, true_and]
  constructor
  · intro h
    exact (by simpa using congrFun h 1 : comm.coordinates 1 * size 1 = offset 1).symm
  · intro h
    rw [← h, Function.update_eq_self]

theorem setStateAfterSlides_eq_slides_iff (hd : d ≤ 1) (gc : GridController (d + 2))
    (h : Communicator.init g rank = some gc.comm) (n : ℕ) :
    ∃ st st', setStateAfterSlides g rank n gc = some st ∧ slides g rank gc n = some st' ∧
      (st = st' ↔ ReplayAgrees g gc n) := by
  obtain ⟨comm, hafter, hreplay⟩ := setStateAfterSlides_spec hd gc h n
  cases n with
  | zero =>
    obtain rfl : gc.comm = comm := Option.some.inj (h.symm.trans hafter)
    refine ⟨_, _, hreplay, rfl, ?_⟩
    simp [ReplayAgrees, updateLocalDomainOffset_eq_self]
  | succ n =>
    obtain ⟨comm', hafter', hslides⟩ := slides_succ_spec hd gc h n
    obtain rfl : comm = comm' := Option.some.inj (hafter.symm.trans hafter')
    refine ⟨_, _, hreplay, hslides, ?_⟩
    have hcoords : (n + 1) % g.dims 1 = 0 → comm = gc.comm := by
      intro hmod
      rw [Communicator.afterSlides_eq hd, Communicator.slideOffset, hmod] at hafter
      exact Option.some.inj (hafter.symm.trans (by simpa [Communicator.init] using h))
    by_cases hmod : (n + 1) % g.dims 1 = 0
    · simp [ReplayAgrees, hmod, hcoords hmod]
    · simp [ReplayAgrees, hmod]

theorem smallGrid_init (rank : ℕ) : ∃ comm, Communicator.init Communicator.smallGrid rank = some comm ∧
    comm.coordinates = Communicator.rotatedCoords Communicator.smallGrid rank 0 := by
  obtain ⟨comm, hcomm, hu⟩ := Communicator.updateCoordinates_spec (d := 0) (by norm_num)
    Communicator.smallGrid rank le_rfl
  exact ⟨comm, hcomm, hu.coordinates_eq⟩

/-- The second device in y is at the end again after two slides. -/
theorem smallGrid_flag_differs : ∃ comm : Communicator 2, Communicator.init Communicator.smallGrid 1 = some comm ∧
    ∃ st st', setStateAfterSlides Communicator.smallGrid 1 2 ⟨comm, ![8, 8], ![0, 8]⟩ = some st ∧
      slides Communicator.smallGrid 1 ⟨comm, ![8, 8], ![0, 8]⟩ 2 = some st' ∧ st.2 = false ∧ st'.2 = true := by
  obtain ⟨comm, hcomm, hcoords⟩ := smallGrid_init 1
  obtain ⟨comm₁, -, h₁⟩ := setStateAfterSlides_spec (by norm_num) ⟨comm, ![8, 8], ![0, 8]⟩ hcomm 2
  obtain ⟨comm₂, hafter₂, h₂⟩ := slides_succ_spec (by norm_num) ⟨comm, ![8, 8], ![0, 8]⟩ hcomm 1
  refine ⟨comm, hcomm, _, _, h₁, h₂, by simp [Communicator.smallGrid], ?_⟩
  obtain rfl : comm = comm₂ := by
    rw [Communicator.afterSlides_eq (by norm_num)] at hafter₂
    exact Option.some.inj (hcomm.symm.trans hafter₂)
  rw [decide_eq_true_iff, hcoords]
  decide +kernel

theorem setStateAfterSlides_eq_slides_iff_smallGrid : ∃ comm : Communicator 2,
    Communicator.init Communicator.smallGrid 1 = some comm ∧
    ∃ st st', setStateAfterSlides Communicator.smallGrid 1 3 ⟨comm, ![8, 8], ![0, 8]⟩ = some st ∧
      slides Communicator.smallGrid 1 ⟨comm, ![8, 8], ![0, 8]⟩ 3 = some st' ∧ st = st' := by
  obtain ⟨comm, hcomm, -⟩ := smallGrid_init 1
  obtain ⟨st, st', h, h', hiff⟩ := setStateAfterSlides_eq_slides_iff (by norm_num)
    ⟨comm, ![8, 8], ![0, 8]⟩ hcomm 3
  refine ⟨comm, hcomm, st, st', h, h', hiff.mpr ⟨by norm_num, fun _ hmod => ?_⟩⟩
  simp [Communicator.smallGrid] at hmod

end GridController

end PIConGPU
