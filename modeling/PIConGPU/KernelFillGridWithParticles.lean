import PIConGPU.CreatedParticles
import PIConGPU.StartPosition

/-!
# KernelFillGridWithParticles

Every thread of a block creates the macro particles of one cell, one particle in each round. All threads of a round
write to the same frame, and as long as one of them has particles left the block goes on with a new frame. The
position is computed by all threads of a round.
-/
namespace PIConGPU.KernelFillGridWithParticles

open ParticlesBox

/-- The attributes of a particle. A position is `none` if it was computed with a division by zero, and the number of a
cell has 16 bits. -/
structure MacroParticle (D : ℕ) (β : Type*) where
  position : Option (Fin D → ℚ)
  localCellIdx : ℕ
  weighting : ℚ
  others : β

structure Thread (σ : Type*) where
  positionFunctor : σ
  macroWeighting : ℚ
  totalNumParsPerCell : ℕ
  numParsPerCell : ℕ

inductive Phase (D T : ℕ) (β σ : Type*)
  | loop (frame : Ptr) (box : ParticlesBox D T (MacroParticle D β)) (threads : Fin T → Thread σ)
  | done (box : ParticlesBox D T (MacroParticle D β))

variable {D T : ℕ} {β σ : Type*}

section Block

variable (F : PositionFunctor D σ) (M : MallocMC) (others : β)

def Thread.draw (thread : Thread σ) : Option (Fin D → ℚ) × σ :=
  F.position thread.positionFunctor (thread.totalNumParsPerCell - thread.numParsPerCell)

def Thread.particle (linearThreadIdx : Fin T) (thread : Thread σ) : MacroParticle D β where
  position := (thread.draw F).1
  localCellIdx := linearThreadIdx % 65536
  weighting := thread.macroWeighting
  others := others

def Thread.next (thread : Thread σ) : Thread σ :=
  { thread with
    positionFunctor := (thread.draw F).2
    numParsPerCell := if 0 < thread.numParsPerCell then thread.numParsPerCell - 1 else thread.numParsPerCell }

/-- Each cell has the macro particles that its functor allows. -/
def initThreads (minWeighting : ℚ) (realParticlesPerCell : Fin T → ℚ) (positionFunctor : Fin T → σ) (t : Fin T) :
    Thread σ :=
  let makroCfg := F.mapRealToMacroParticle minWeighting (realParticlesPerCell t) (positionFunctor t)
  ⟨makroCfg.2, makroCfg.1.weighting, makroCfg.1.numParticlesPerCell, makroCfg.1.numParticlesPerCell⟩

/-- Supercells of the outermost layer are guard. -/
def Guarding (superCells superCellIdx : DataSpace D) : Prop :=
  ∃ d, superCellIdx d = 0 ∨ superCellIdx d = superCells d - 1

instance (superCells superCellIdx : DataSpace D) : Decidable (Guarding superCells superCellIdx) :=
  inferInstanceAs (Decidable (∃ _, _))

/-- The block up to its loop. -/
def start (superCells superCellIdx : DataSpace D) (minWeighting : ℚ) (realParticlesPerCell : Fin T → ℚ)
    (positionFunctor : Fin T → σ) (box : ParticlesBox D T (MacroParticle D β)) : Option (Phase D T β σ) :=
  let threads := initThreads F minWeighting realParticlesPerCell positionFunctor
  if Guarding superCells superCellIdx then some (.done box)
  else if ∃ t, 0 < (threads t).numParsPerCell then
    (appendFrame M superCellIdx box).map fun (frame, box) => .loop frame box threads
  else some (.done box)

/-- One round. It is the last one if the flag `finished` stays set. -/
def round (superCellIdx : DataSpace D) (frame : Ptr) (box : ParticlesBox D T (MacroParticle D β))
    (threads : Fin T → Thread σ) : Option (Phase D T β σ) :=
  let box := box.store (List.finRange T) (fun t => if 0 < (threads t).numParsPerCell then some (frame, t) else none)
    fun t => (threads t).particle F others t
  let threads := fun t => (threads t).next F
  if ∃ t, 0 < (threads t).numParsPerCell then
    (appendFrame M superCellIdx box).map fun (frame, box) => .loop frame box threads
  else some (.done box)

inductive Step (superCellIdx : DataSpace D) : Phase D T β σ → Phase D T β σ → Prop
  | round {frame : Ptr} {box : ParticlesBox D T (MacroParticle D β)} {threads : Fin T → Thread σ} {phase : Phase D T β σ}
    (h : round F M others superCellIdx frame box threads = some phase) : Step superCellIdx (.loop frame box threads) phase

/-- The block reaches a phase. -/
def Reaches (superCells superCellIdx : DataSpace D) (minWeighting : ℚ) (realParticlesPerCell : Fin T → ℚ)
    (positionFunctor : Fin T → σ) (box : ParticlesBox D T (MacroParticle D β)) (phase : Phase D T β σ) : Prop :=
  ∃ first, start F M superCells superCellIdx minWeighting realParticlesPerCell positionFunctor box = some first ∧
    Relation.ReflTransGen (Step F M others superCellIdx) first phase

end Block

section Run

variable {F : PositionFunctor D σ} {M : MallocMC} {others : β} {superCells c : DataSpace D} {minWeighting : ℚ} {real : Fin T → ℚ} {functor : Fin T → σ}
  {box box' : ParticlesBox D T (MacroParticle D β)} {L : DataSpace D → List Ptr} {r : ℕ}

theorem start_of_not (h : ¬ ∃ t, 0 < (initThreads F minWeighting real functor t).numParsPerCell) :
    start F M superCells c minWeighting real functor box = some (.done box) := by
  simp only [start]
  rw [if_neg h, ite_self]

theorem start_of_exists (hinner : ¬ Guarding superCells c)
    (h : ∃ t, 0 < (initThreads F minWeighting real functor t).numParsPerCell) :
    start F M superCells c minWeighting real functor box = (appendFrame M c box).map fun p =>
      .loop p.1 p.2 (initThreads F minWeighting real functor) := by
  simp only [start]
  rw [if_neg hinner, if_pos h]

theorem start_eq_loop {frame : Ptr} {threads : Fin T → Thread σ}
    (h : start F M superCells c minWeighting real functor box = some (.loop frame box' threads)) :
    threads = initThreads F minWeighting real functor := by
  simp only [start] at h
  split_ifs at h
  · exact nomatch h
  · obtain ⟨_, -, hp⟩ := Option.map_eq_some_iff.mp h
    exact (Phase.loop.inj hp).2.2.symm
  · exact nomatch h

theorem round_eq_loop {frame frame' : Ptr} {threads threads' : Fin T → Thread σ}
    (h : round F M others c frame box threads = some (.loop frame' box' threads')) :
    threads' = fun t => (threads t).next F := by
  simp only [round] at h
  split_ifs at h
  · obtain ⟨_, -, hp⟩ := Option.map_eq_some_iff.mp h
    exact (Phase.loop.inj hp).2.2.symm
  · exact nomatch h

/-- What is known of the threads at the head of every round. -/
theorem Reaches.invariant (P : (Fin T → Thread σ) → Prop) (hstart : P (initThreads F minWeighting real functor))
    (hnext : ∀ threads, P threads → P fun t => (threads t).next F) {frame : Ptr} {threads : Fin T → Thread σ}
    (h : Reaches F M others superCells c minWeighting real functor box (.loop frame box' threads)) : P threads := by
  obtain ⟨first, hfirst, hsteps⟩ := h
  generalize hphase : Phase.loop frame box' threads = phase at hsteps
  induction hsteps generalizing frame box' threads with
  | refl =>
    subst hphase
    rw [start_eq_loop hfirst]
    exact hstart
  | tail _ hstep ih =>
    subst hphase
    cases hstep with
    | round h =>
      rw [round_eq_loop h]
      exact hnext _ (ih rfl)

end Run

section Quiet

variable [NeZero D] {M : MallocMC} {others : β} {superCells c : DataSpace D} {minWeighting : ℚ} {real : Fin T → ℚ}
  {lattice : Fin D → ℕ} {box : ParticlesBox D T (MacroParticle D β)} {L : DataSpace D → List Ptr} {r : ℕ}

/-- In every round all threads can divide by the components of their lattice. -/
def NeverDividesByZero (M : MallocMC) (others : β) (superCells c : DataSpace D) (minWeighting : ℚ) (real : Fin T → ℚ)
    (lattice : Fin D → ℕ) (box : ParticlesBox D T (MacroParticle D β)) : Prop :=
  ∀ frame box' threads,
    Reaches QuietImpl.functor M others superCells c minWeighting real (fun _ => lattice) box (.loop frame box' threads) →
      ∀ t, QuietImpl.DivisorsNonzero (threads t).positionFunctor

/-- The functor of a thread does not change in the loop. -/
theorem positionFunctor_eq {frame : Ptr} {box' : ParticlesBox D T (MacroParticle D β)}
    {threads : Fin T → Thread (Fin D → ℕ)}
    (h : Reaches QuietImpl.functor M others superCells c minWeighting real (fun _ => lattice) box
      (.loop frame box' threads)) (t : Fin T) :
    (threads t).positionFunctor = (QuietImpl.mapRealToMacroParticle minWeighting (real t) lattice).2 := by
  refine h.invariant (fun threads => ∀ t,
    (threads t).positionFunctor = (QuietImpl.mapRealToMacroParticle minWeighting (real t) lattice).2)
    (fun _ => rfl) (fun threads ih t => ?_) t
  exact ih t

variable (hlattice : ∀ d, 0 < lattice d) (hreal : ∀ t, 0 ≤ real t)
include hlattice hreal

theorem neverDividesByZero_of_le (hle : ∀ t, minWeighting ≤ real t) :
    NeverDividesByZero M others superCells c minWeighting real lattice box := fun frame box' threads h t => by
  rw [positionFunctor_eq h t, QuietImpl.divisorsNonzero_mapRealToMacroParticle (hreal t) hlattice]
  exact hle t

theorem numParsPerCell_pos_iff (t : Fin T) :
    0 < (initThreads QuietImpl.functor minWeighting real (fun _ => lattice) t).numParsPerCell ↔
      minWeighting ≤ real t := by
  have hlaw := (@QuietImpl.mapRealToMacroParticle_law D minWeighting (real t) _ lattice (hreal t) hlattice).1
  rw [Nat.pos_iff_ne_zero, Ne, ← not_lt]
  exact not_congr hlaw

/-- Without particles to create there is no round. -/
theorem neverDividesByZero_of_lt (hlt : ∀ t, real t < minWeighting) :
    NeverDividesByZero M others superCells c minWeighting real lattice box := by
  rintro frame box' threads ⟨first, hfirst, hsteps⟩ t
  have hdone : first = .done box := by
    have hnone : ¬ ∃ t, 0 < (initThreads QuietImpl.functor minWeighting real (fun _ => lattice) t).numParsPerCell := by
      rintro ⟨t, ht⟩
      exact absurd ((numParsPerCell_pos_iff hlattice hreal t).mp ht) (not_le.mpr (hlt t))
    exact Option.some_inj.mp (hfirst.symm.trans (start_of_not hnone))
  subst hdone
  cases hsteps.cases_head with
  | inl h => cases h
  | inr h =>
    obtain ⟨_, hstep, -⟩ := h
    cases hstep

theorem not_neverDividesByZero (hM : MallocMC.Serves M r) (hlinked : Linked box L)
    (hattempts : (box.attempts + 12) % maxTries = r) (hinner : ¬ Guarding superCells c) {t t' : Fin T}
    (ht : minWeighting ≤ real t) (ht' : real t' < minWeighting) :
    ¬ NeverDividesByZero M others superCells c minWeighting real lattice box := fun h => by
  obtain ⟨frame, box', happend, -⟩ := (created_refl hlinked hattempts c ∅).append hM
  have hex : ∃ t, 0 < (initThreads QuietImpl.functor minWeighting real (fun _ => lattice) t).numParsPerCell :=
    ⟨t, (numParsPerCell_pos_iff hlattice hreal t).mpr ht⟩
  have hfirst : Reaches QuietImpl.functor M others superCells c minWeighting real (fun _ => lattice) box
      (.loop frame box' (initThreads QuietImpl.functor minWeighting real fun _ => lattice)) :=
    ⟨_, by rw [start_of_exists hinner hex, happend, Option.map_some], .refl⟩
  have hdivisors := h _ _ _ hfirst t'
  rw [positionFunctor_eq hfirst t', QuietImpl.divisorsNonzero_mapRealToMacroParticle (hreal t') hlattice] at hdivisors
  exact absurd hdivisors (not_le.mpr ht')

/-- The quiet start of a supercell does not divide by zero exactly if all or none of its cells have enough particles
for a macro particle. -/
theorem neverDividesByZero_iff (hM : MallocMC.Serves M r) (hlinked : Linked box L)
    (hattempts : (box.attempts + 12) % maxTries = r) (hinner : ¬ Guarding superCells c) :
    NeverDividesByZero M others superCells c minWeighting real lattice box ↔
      (∀ t, real t < minWeighting) ∨ ∀ t, minWeighting ≤ real t := by
  refine ⟨fun h => ?_, fun h => h.elim (neverDividesByZero_of_lt hlattice hreal) (neverDividesByZero_of_le hlattice hreal)⟩
  by_contra hmixed
  push Not at hmixed
  obtain ⟨⟨t, ht⟩, t', ht'⟩ := hmixed
  exact not_neverDividesByZero hlattice hreal hM hlinked hattempts hinner ht ht' h

end Quiet

theorem not_neverDividesByZero_two : ¬ NeverDividesByZero ParticlesBase.nextFree () ![3, 3] ![1, 1] 1
    (![0, 1] : Fin 2 → ℚ) ![1, 1] (empty 2 2 ⟨none, 0, 0, ()⟩) :=
  @not_neverDividesByZero 2 2 Unit _ _ () ![3, 3] ![1, 1] 1 ![0, 1] ![1, 1] _ _ 12 (by decide)
    (fun t => by fin_cases t <;> norm_num) (fun _ _ _ => rfl) (linked_empty _) rfl (by decide) 1 0 le_rfl zero_lt_one

theorem neverDividesByZero_two : NeverDividesByZero ParticlesBase.nextFree () ![3, 3] ![1, 1] 1
    (![2, 1] : Fin 2 → ℚ) ![1, 1] (empty 2 2 ⟨none, 0, 0, ()⟩) :=
  (neverDividesByZero_iff (by decide) (fun t => by fin_cases t <;> norm_num) (r := 12) (fun _ _ _ => rfl)
    (linked_empty _) rfl (by decide)).mpr (.inr fun t => by fin_cases t <;> norm_num)

section Spec

def functorAfter (F : PositionFunctor D σ) (functor : σ) : ℕ → σ
  | 0 => functor
  | k + 1 => (F.position (functorAfter F functor k) k).2

def macroParticles (F : PositionFunctor D σ) (minWeighting : ℚ) (real : Fin T → ℚ) (functor : Fin T → σ) (t : Fin T) :
    MacroParticleCfg × σ :=
  F.mapRealToMacroParticle minWeighting (real t) (functor t)

def newParticle (F : PositionFunctor D σ) (others : β) (minWeighting : ℚ) (real : Fin T → ℚ) (functor : Fin T → σ)
    (t : Fin T) (k : ℕ) : MacroParticle D β where
  position := (F.position (functorAfter F (macroParticles F minWeighting real functor t).2 k) k).1
  localCellIdx := t
  weighting := (macroParticles F minWeighting real functor t).1.weighting
  others := others

def newParticles (F : PositionFunctor D σ) (others : β) (minWeighting : ℚ) (real : Fin T → ℚ) (functor : Fin T → σ)
    (k : ℕ) : Multiset (MacroParticle D β) :=
  ∑ t, (Multiset.range (min k (macroParticles F minWeighting real functor t).1.numParticlesPerCell)).map
    (newParticle F others minWeighting real functor t)

variable {F : PositionFunctor D σ} {M : MallocMC} {others : β} {superCells c : DataSpace D} {minWeighting : ℚ}
  {real : Fin T → ℚ} {functor : Fin T → σ} {box box' : ParticlesBox D T (MacroParticle D β)}
  {L : DataSpace D → List Ptr} {r k : ℕ} {frame : Ptr} {frames : List Ptr} {threads : Fin T → Thread σ}

structure Drawn (F : PositionFunctor D σ) (cfg : MacroParticleCfg × σ) (k : ℕ) (thread : Thread σ) : Prop where
  weighting : thread.macroWeighting = cfg.1.weighting
  total : thread.totalNumParsPerCell = cfg.1.numParticlesPerCell
  left : thread.numParsPerCell = cfg.1.numParticlesPerCell - k
  functor : k ≤ cfg.1.numParticlesPerCell → thread.positionFunctor = functorAfter F cfg.2 k

theorem Drawn.next {cfg : MacroParticleCfg × σ} {thread : Thread σ} (h : Drawn F cfg k thread) :
    Drawn F cfg (k + 1) (thread.next F) where
  weighting := h.weighting
  total := h.total
  left := by
    have hleft := h.left
    simp only [Thread.next]
    split_ifs <;> omega
  functor hk := by
    have hcur : thread.totalNumParsPerCell - thread.numParsPerCell = k := by
      rw [h.total, h.left]
      omega
    simp only [Thread.next, Thread.draw, hcur, h.functor (by omega), functorAfter]

theorem Drawn.particle (hT : T ≤ 65536) {thread : Thread σ} {t : Fin T}
    (h : Drawn F (macroParticles F minWeighting real functor t) k thread)
    (hk : k < (macroParticles F minWeighting real functor t).1.numParticlesPerCell) :
    thread.particle F others t = newParticle F others minWeighting real functor t k := by
  have hcur : thread.totalNumParsPerCell - thread.numParsPerCell = k := by
    rw [h.total, h.left]
    omega
  simp only [Thread.particle, Thread.draw, newParticle, hcur, h.functor hk.le, h.weighting,
    Nat.mod_eq_of_lt (t.isLt.trans_le hT)]

structure Filling (F : PositionFunctor D σ) (others : β) (minWeighting : ℚ) (real : Fin T → ℚ) (functor : Fin T → σ)
    (r : ℕ) (box : ParticlesBox D T (MacroParticle D β)) (L : DataSpace D → List Ptr) (c : DataSpace D) (k : ℕ)
    (frames : List Ptr) (frame : Ptr) (box' : ParticlesBox D T (MacroParticle D β)) (threads : Fin T → Thread σ) :
    Prop where
  created : Created r box L c ∅ frames (newParticles F others minWeighting real functor k) box'
  mem : frame ∈ frames
  empty : box'.multiMask frame = fun _ => 0
  drawn : ∀ t, Drawn F (macroParticles F minWeighting real functor t) k (threads t)

theorem newParticles_succ (hT : T ≤ 65536)
    (hdrawn : ∀ t, Drawn F (macroParticles F minWeighting real functor t) k (threads t)) :
    newParticles F others minWeighting real functor k +
      (Finset.univ.filter fun t => 0 < (threads t).numParsPerCell).val.map (fun t => (threads t).particle F others t) =
      newParticles F others minWeighting real functor (k + 1) := by
  rw [map_filter_eq_sum, newParticles, newParticles, ← Finset.sum_add_distrib]
  refine Finset.sum_congr rfl fun t _ => ?_
  have hleft := (hdrawn t).left
  by_cases hk : k < (macroParticles F minWeighting real functor t).1.numParticlesPerCell
  · rw [if_pos (by omega), (hdrawn t).particle hT hk, min_eq_left hk.le, min_eq_left hk, Multiset.range_succ,
      Multiset.map_cons, ← Multiset.singleton_add, add_comm]
  · rw [if_neg (by omega), add_zero, min_eq_right (by omega), min_eq_right (by omega)]

theorem Filling.store (hT : T ≤ 65536)
    (h : Filling F others minWeighting real functor r box L c k frames frame box' threads) :
    Created r box L c ∅ frames (newParticles F others minWeighting real functor (k + 1))
      (box'.store (List.finRange T) (fun t => if 0 < (threads t).numParsPerCell then some (frame, t) else none)
        fun t => (threads t).particle F others t) := by
  have hdest : ∀ t q i, (if 0 < (threads t).numParsPerCell then some (frame, t) else none) = some (q, i) →
      q = frame ∧ i = t := fun t q i ht => by
    split_ifs at ht
    obtain ⟨rfl, rfl⟩ := Prod.mk.inj (Option.some.inj ht)
    exact ⟨rfl, rfl⟩
  have hstore := h.created.store List.mem_finRange
    (fun t t' a ht ht' => (hdest t a.1 a.2 ht).2.symm.trans (hdest t' a.1 a.2 ht').2)
    (fun t => (threads t).particle F others t) fun t q i ht => by
      obtain ⟨rfl, -⟩ := hdest t q i ht
      exact ⟨.inl h.mem, by rw [h.empty]⟩
  have hfilter : (Finset.univ.filter fun t =>
      (if 0 < (threads t).numParsPerCell then some (frame, t) else none).isSome = true) =
      Finset.univ.filter fun t => 0 < (threads t).numParsPerCell := by
    refine Finset.filter_congr fun t _ => ?_
    split_ifs with ht <;> simp [ht]
  rwa [hfilter, newParticles_succ hT h.drawn] at hstore

theorem Filling.round (hM : MallocMC.Serves M r) (hT : T ≤ 65536)
    (h : Filling F others minWeighting real functor r box L c k frames frame box' threads) :
    (∃ box'', KernelFillGridWithParticles.round F M others c frame box' threads = some (.done box'') ∧
      Created r box L c ∅ frames (newParticles F others minWeighting real functor (k + 1)) box'' ∧
      ∀ t, (macroParticles F minWeighting real functor t).1.numParticlesPerCell ≤ k + 1) ∨
    ∃ frame' box'' threads', KernelFillGridWithParticles.round F M others c frame box' threads =
        some (.loop frame' box'' threads') ∧
      Filling F others minWeighting real functor r box L c (k + 1) (frames ++ [frame']) frame' box'' threads' := by
  have hnext : ∀ t, Drawn F (macroParticles F minWeighting real functor t) (k + 1) ((threads t).next F) := fun t =>
    (h.drawn t).next
  by_cases hleft : ∃ t, 0 < ((threads t).next F).numParsPerCell
  · obtain ⟨frame', box'', happend, hcreated, hempty⟩ := (h.store hT).append hM
    refine .inr ⟨frame', box'', fun t => (threads t).next F, ?_, hcreated, by simp, hempty, hnext⟩
    simp only [KernelFillGridWithParticles.round]
    rw [if_pos hleft, happend, Option.map_some]
  · refine .inl ⟨_, ?_, h.store hT, fun t => ?_⟩
    · simp only [KernelFillGridWithParticles.round]
      rw [if_neg hleft]
    · have := (hnext t).left
      have := not_exists.mp hleft t
      omega

theorem newParticles_eq (hk : ∀ t, (macroParticles F minWeighting real functor t).1.numParticlesPerCell ≤ k) :
    newParticles F others minWeighting real functor k =
      ∑ t, (Multiset.range (macroParticles F minWeighting real functor t).1.numParticlesPerCell).map
        (newParticle F others minWeighting real functor t) :=
  Finset.sum_congr rfl fun t _ => by rw [min_eq_right (hk t)]

theorem Filling.rounds (hM : MallocMC.Serves M r) (hT : T ≤ 65536) {n : ℕ}
    (hn : ∀ t, (macroParticles F minWeighting real functor t).1.numParticlesPerCell ≤ k + n)
    (h : Filling F others minWeighting real functor r box L c k frames frame box' threads) :
    ∃ box'' frames', Relation.ReflTransGen (Step F M others c) (.loop frame box' threads) (.done box'') ∧
      Created r box L c ∅ frames' (∑ t, (Multiset.range
        (macroParticles F minWeighting real functor t).1.numParticlesPerCell).map
          (newParticle F others minWeighting real functor t)) box'' := by
  induction n generalizing k frames frame box' threads with
  | zero =>
    rcases h.round hM hT with ⟨box'', hround, hcreated, hk⟩ | ⟨frame', box'', threads', hround, h'⟩
    · rw [newParticles_eq hk] at hcreated
      exact ⟨box'', frames, .single (.round hround), hcreated⟩
    · have hleft : ¬ ∃ t, 0 < ((threads t).next F).numParsPerCell := by
        rintro ⟨t, ht⟩
        have := (h.drawn t).next.left
        have := hn t
        omega
      simp only [KernelFillGridWithParticles.round] at hround
      rw [if_neg hleft] at hround
      exact nomatch hround
  | succ n ih =>
    rcases h.round hM hT with ⟨box'', hround, hcreated, hk⟩ | ⟨frame', box'', threads', hround, h'⟩
    · rw [newParticles_eq hk] at hcreated
      exact ⟨box'', frames, .single (.round hround), hcreated⟩
    · obtain ⟨box₂, frames₂, hsteps, hcreated⟩ := ih (fun t => by have := hn t; omega) h'
      exact ⟨box₂, frames₂, .head (.round hround) hsteps, hcreated⟩

/-- The block ends, and every cell has got the particles that its functor decided on. -/
def Fills (F : PositionFunctor D σ) (M : MallocMC) (others : β) (superCells c : DataSpace D) (minWeighting : ℚ)
    (real : Fin T → ℚ) (functor : Fin T → σ) (r : ℕ) (box : ParticlesBox D T (MacroParticle D β))
    (L : DataSpace D → List Ptr) : Prop :=
  ∃ box' frames, Reaches F M others superCells c minWeighting real functor box (.done box') ∧
    Created r box L c ∅ frames (∑ t, (Multiset.range
      (macroParticles F minWeighting real functor t).1.numParticlesPerCell).map
        (newParticle F others minWeighting real functor t)) box'

theorem fills (hM : MallocMC.Serves M r) (hT : T ≤ 65536) (hlinked : Linked box L)
    (hattempts : (box.attempts + 12) % maxTries = r) (hinner : ¬ Guarding superCells c) : Fills F M others superCells c minWeighting real functor r box L := by
  by_cases hex : ∃ t, 0 < (initThreads F minWeighting real functor t).numParsPerCell
  · obtain ⟨frame, box', happend, hcreated, hempty⟩ := (created_refl hlinked hattempts c ∅).append hM
    have hfilling : Filling F others minWeighting real functor r box L c 0 [frame] frame box'
        (initThreads F minWeighting real functor) :=
      { created := by
          have hzero : newParticles F others minWeighting real functor 0 = 0 :=
            Finset.sum_eq_zero fun t _ => by rw [Nat.zero_min, Multiset.range_zero, Multiset.map_zero]
          rw [hzero]
          exact hcreated
        mem := List.mem_singleton_self frame
        empty := hempty
        drawn := fun t => ⟨rfl, rfl, rfl, fun _ => rfl⟩ }
    obtain ⟨box'', frames, hsteps, hcreated'⟩ := hfilling.rounds hM hT
      (n := ∑ t, (macroParticles F minWeighting real functor t).1.numParticlesPerCell) fun t => by
        rw [Nat.zero_add]
        exact Finset.single_le_sum (f := fun t => (macroParticles F minWeighting real functor t).1.numParticlesPerCell)
          (fun _ _ => Nat.zero_le _) (Finset.mem_univ t)
    exact ⟨box'', frames, ⟨_, by rw [start_of_exists hinner hex, happend, Option.map_some], hsteps⟩, hcreated'⟩
  · refine ⟨box, [], ⟨_, start_of_not hex, .refl⟩, ?_⟩
    have hzero : ∀ t, (macroParticles F minWeighting real functor t).1.numParticlesPerCell = 0 := fun t =>
      Nat.eq_zero_of_not_pos fun ht => hex ⟨t, ht⟩
    rw [Finset.sum_eq_zero fun t _ => by rw [hzero t, Multiset.range_zero, Multiset.map_zero]]
    exact created_refl hlinked hattempts c ∅

end Spec

section Law

variable {γ : Type*} {dist : γ → ℚ × γ} {M : MallocMC} {others : β} {superCells c : DataSpace D} {minWeighting : ℚ}
  {real : Fin T → ℚ} {box : ParticlesBox D T (MacroParticle D β)} {L : DataSpace D → List Ptr} {r : ℕ}

theorem functorAfter_quiet [NeZero D] (lattice : Fin D → ℕ) (k : ℕ) :
    functorAfter QuietImpl.functor lattice k = lattice := by
  induction k with
  | zero => rfl
  | succ k ih => exact ih

/-- RandomImpl and QuietImpl create the macro particles that the law allows. With QuietImpl they start at the middles of
the cells of the reduced lattice, which are distinct and inside of the cell. -/
theorem fillGridWithParticles_spec [NeZero D] (hD : D = 2 ∨ D = 3) (hT : T ≤ 65536) (hM : MallocMC.Serves M r)
    (hlinked : Linked box L) (hattempts : (box.attempts + 12) % maxTries = r) (hinner : ¬ Guarding superCells c) (hreal : ∀ t, 0 ≤ real t) :
    (∀ n, 1 ≤ n → ∀ gen : Fin T → γ,
      (∀ t, MacroParticleLaw minWeighting (real t)
        (macroParticles (RandomImpl.functor dist n : PositionFunctor D γ) minWeighting real gen t).1) ∧
      Fills (RandomImpl.functor dist n) M others superCells c minWeighting real gen r box L) ∧
    ∀ lattice : Fin D → ℕ, (∀ d, 0 < lattice d) →
      (∀ t, MacroParticleLaw minWeighting (real t)
        (macroParticles QuietImpl.functor minWeighting real (fun _ => lattice) t).1) ∧
      Fills QuietImpl.functor M others superCells c minWeighting real (fun _ => lattice) r box L ∧
      ∀ t, minWeighting ≤ real t → ∃ reduced : Fin D → ℕ, (∀ d, 0 < reduced d) ∧
        (macroParticles QuietImpl.functor minWeighting real (fun _ => lattice) t).1.numParticlesPerCell =
          ∏ d, reduced d ∧
        (Multiset.range (∏ d, reduced d)).map
            (fun k => (newParticle QuietImpl.functor others minWeighting real (fun _ => lattice) t k).position) =
          (Finset.univ : Finset (∀ d, Fin (reduced d))).val.map
            (fun coordinate => some (QuietImpl.centre reduced coordinate)) ∧
        Function.Injective (QuietImpl.centre reduced) ∧
        ∀ coordinate d, 0 < QuietImpl.centre reduced coordinate d ∧ QuietImpl.centre reduced coordinate d < 1 := by
  refine ⟨fun n hn gen => ⟨fun t => RandomImpl.mapRealToMacroParticle_law (hreal t) hn,
    fills hM hT hlinked hattempts hinner⟩, fun lattice hlattice => ⟨fun t =>
    QuietImpl.mapRealToMacroParticle_law (hreal t) hlattice, fills hM hT hlinked hattempts hinner, fun t ht => ?_⟩⟩
  obtain ⟨hpos, hnum, -⟩ := @QuietImpl.mapRealToMacroParticle_of_le D minWeighting (real t) _ lattice ht hlattice
  refine ⟨_, hpos, hnum, ?_, QuietImpl.centre_injective, QuietImpl.centre_mem⟩
  rw [← QuietImpl.map_position hD hpos]
  refine Multiset.map_congr rfl fun k _ => ?_
  simp only [newParticle, functorAfter_quiet]
  rfl

/-- Two cells, one of them empty. -/
theorem fillGridWithParticles_two : Fills QuietImpl.functor ParticlesBase.nextFree () ![3, 3] ![1, 1] 1
    (![0, 3] : Fin 2 → ℚ) (fun _ => ![2, 2]) 12 (empty 2 2 ⟨none, 0, 0, ()⟩) (fun _ => []) :=
  ((@fillGridWithParticles_spec 2 2 Unit ℕ (fun n => (0, n)) _ () ![3, 3] ![1, 1] 1 ![0, 3] _ _ 12 _ (.inl rfl)
    (by decide) (fun _ _ _ => rfl) (linked_empty _) rfl (by decide) (fun t => by fin_cases t <;> norm_num)).2 ![2, 2]
    (by decide)).2.1

end Law

end PIConGPU.KernelFillGridWithParticles
