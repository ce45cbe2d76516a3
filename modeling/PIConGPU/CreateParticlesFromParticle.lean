import PIConGPU.BlockRounds
import PIConGPU.CreatedParticles

/-!
# CreateParticlesFromParticleImpl

KernelManipulateAllParticles goes through the frames of a supercell from the last one to the first one and calls the
functor for each. The functor creates some particles of another species for each particle. It fills up the last frame
of the destination first, and keeps the frame in work and its fill level in shared variables from one call to the next.
-/
namespace PIConGPU.CreateParticlesFromParticle

open ParticlesBox BlockRounds

/-- GUARD_SIZE, for every direction. -/
def guardingSuperCells : ℤ := 1

section SuperCell

variable {D : ℕ} (superCellSize superCellIdx threadIndex : DataSpace D)

def localCellIdx : DataSpace D := fun d =>
  superCellIdx d * superCellSize d + threadIndex d - guardingSuperCells * superCellSize d

/-- The supercell of the functor, where the guard is one supercell. -/
def destSuperCell : DataSpace D := fun d =>
  (superCellSize d + localCellIdx superCellSize superCellIdx threadIndex d).tdiv (superCellSize d)

variable {superCellSize superCellIdx}

/-- The first thread appends frames to its own supercell. -/
theorem destSuperCell_zero (hsize : ∀ d, 0 < superCellSize d) :
    destSuperCell superCellSize superCellIdx 0 = superCellIdx := funext fun d => by
  have hcell : superCellSize d + localCellIdx superCellSize superCellIdx 0 d = superCellIdx d * superCellSize d := by
    simp only [localCellIdx, guardingSuperCells, Pi.zero_apply]
    ring
  rw [destSuperCell, hcell, Int.mul_tdiv_cancel _ (hsize d).ne']

end SuperCell

/-- The destination and the variables that the calls of the functor share. -/
structure Block (D T : ℕ) (β : Type*) where
  destParBox : ParticlesBox D T β
  firstCall : Bool
  destFrame : Option Ptr
  particlesInDestSuperCell : ℕ

/-- The heads of the loops of the kernel and of the functor. The number of particles to create is the same in all
threads. -/
inductive Phase (D T : ℕ) (β : Type*)
  | frame (frame : Option Ptr) (isParticle : Fin T → Bool) (block : Block D T β)
  | create (frame : Ptr) (isParticle : Fin T → Bool) (numParToCreate : ℤ) (block : Block D T β)

variable {D T : ℕ} {α β : Type*}

section Block

variable (functor : α → β) (particlePerParticle : ℕ) (M : MallocMC) (srcBox : ParticlesBox D T α)
  (superCell : DataSpace D)

/-- The first call looks for the last frame of the destination. The fill level of a full frame is kept although the new
frame is empty. -/
def Block.init (block : Block D T β) : Option (Block D T β) :=
  if block.firstCall then
    let lastFrame := block.destParBox.lastFramePtr superCell
    let particlesInDestSuperCell := if lastFrame.isSome then block.destParBox.sizeLastFrame superCell else 0
    if lastFrame.isNone ∨ particlesInDestSuperCell = T then
      (appendFrame M superCell block.destParBox).map fun (frame, box) =>
        ⟨box, false, some frame, particlesInDestSuperCell⟩
    else some ⟨block.destParBox, false, lastFrame, particlesInDestSuperCell⟩
  else some block

/-- One round of the functor. It returns if the fill level has not changed, and all threads have a particle in the frames
that follow. -/
def round (order : Equiv.Perm (Fin T)) (frame : Ptr) (isParticle : Fin T → Bool) (numParToCreate : ℤ)
    (block : Block D T β) : Option (Phase D T β) :=
  let drawn := drawNumbers (fun t => isParticle t && decide (0 < numParToCreate)) order block.particlesInDestSuperCell
  let freeSlot := drawn.2
  let particle := fun t => functor (srcBox.attributes frame t)
  block.destFrame.bind fun destFrame =>
    let box := firstFlush (BlockThreads.threadOrder order) freeSlot particle destFrame block.destParBox
    if block.particlesInDestSuperCell = drawn.1 then
      some (.frame (srcBox.previousFrame frame) (fun _ => true) { block with destParBox := box })
    else (renewFrame M superCell drawn.1 destFrame box).map fun (level, destFrame, box) =>
      let box := secondFlush (BlockThreads.threadOrder order) freeSlot particle destFrame box
      .create frame isParticle (numParToCreate - 1) ⟨box, block.firstCall, some destFrame, level⟩

def next (order : Equiv.Perm (Fin T)) : Phase D T β → Option (Phase D T β)
  | .frame none _ _ => none
  | .frame (some frame) isParticle block =>
    (block.init M superCell).map (.create frame isParticle particlePerParticle)
  | .create frame isParticle numParToCreate block => round functor M srcBox superCell order frame isParticle numParToCreate block

/-- The kernel starts with the last frame of the source, where some slots may be free. -/
def start (superCellIdx : DataSpace D) (destParBox : ParticlesBox D T β) : Phase D T β :=
  let frame := srcBox.lastFramePtr superCellIdx
  .frame frame (fun t => frame.any fun frame => srcBox.multiMask frame t ≠ 0) ⟨destParBox, true, none, 0⟩

end Block

section Spec

variable {functor : α → β} {particlePerParticle : ℕ} {M : MallocMC} {srcBox : ParticlesBox D T α}
  {destBox : ParticlesBox D T β} {L : DataSpace D → List Ptr} {c : DataSpace D} {r : ℕ} {goal rest : Multiset β}
  {block : Block D T β} {frame : Ptr} {isParticle : Fin T → Bool} {numParToCreate : ℤ}

def liveParticles (box : ParticlesBox D T α) (frames : List Ptr) : Multiset α :=
  (frames.map fun p => (Finset.univ.filter fun t => box.multiMask p t ≠ 0).val.map (box.attributes p)).sum

def remaining (functor : α → β) (srcBox : ParticlesBox D T α) (frame : Ptr) (isParticle : Fin T → Bool)
    (numParToCreate : ℤ) : Multiset β :=
  numParToCreate.toNat • (Finset.univ.filter fun t => isParticle t = true).val.map
    fun t => functor (srcBox.attributes frame t)

/-- The particles that were created and those that are left are the expected ones. The frames of the list may be filled
up. -/
def Creating (r : ℕ) (destBox : ParticlesBox D T β) (L : DataSpace D → List Ptr) (c : DataSpace D)
    (goal rest : Multiset β) (block : Block D T β) : Prop :=
  block.firstCall = false ∧ ∃ frames created destFrame,
    Created r destBox L c {q | q ∈ L c} frames created block.destParBox ∧ block.destFrame = some destFrame ∧
    Room block.destParBox (L c) {q | q ∈ L c} frames destFrame block.particlesInDestSuperCell ∧ created + rest = goal

theorem init_spec (hM : MallocMC.Serves M r) (hlinked : Linked destBox L)
    (hattempts : (destBox.attempts + 12) % maxTries = r) (hcompact : Compact destBox (L c) (destBox.sizeLastFrame c))
    (goal : Multiset β) :
    ∃ block, Block.init M c ⟨destBox, true, none, 0⟩ = some block ∧ Creating r destBox L c goal goal block := by
  have hrefl := created_refl hlinked hattempts c {q | q ∈ L c}
  have hlast := hlinked.last c
  simp only [Block.init, if_true, hlast]
  rcases List.eq_nil_or_concat (L c) with hnil | ⟨l, p, hconcat⟩
  · obtain ⟨frame, box, happend, hcreated, hempty⟩ := hrefl.append hM
    refine ⟨⟨box, false, some frame, 0⟩, ?_, rfl, _, _, frame, hcreated, rfl, ⟨.inl (by simp), fun i _ => by rw [hempty],
      Nat.zero_le T⟩, zero_add goal⟩
    rw [hnil, if_pos (.inl rfl), happend]
    rfl
  · rw [List.concat_eq_append] at hconcat
    have hgetLast : (L c).getLast? = some p := by rw [hconcat, List.getLast?_concat]
    by_cases hfull : destBox.sizeLastFrame c = T
    · obtain ⟨frame, box, happend, hcreated, hempty⟩ := hrefl.append hM
      refine ⟨⟨box, false, some frame, T⟩, ?_, rfl, _, _, frame, hcreated, rfl, ⟨.inl (by simp), fun i _ => by rw [hempty],
        le_rfl⟩, zero_add goal⟩
      rw [hgetLast, Option.isSome_some, if_pos rfl, if_pos (.inr hfull), happend, hfull]
      rfl
    · have hp : p ∈ L c := by simp [hconcat]
      refine ⟨⟨destBox, false, some p, destBox.sizeLastFrame c⟩, ?_, rfl, [], 0, p, hrefl, rfl, ⟨.inr ⟨hp, hp⟩, fun i hi => ?_,
        hcompact.size_le⟩, zero_add goal⟩
      · rw [hgetLast, Option.isSome_some, if_pos rfl, Option.isNone_some, if_neg (by simpa using hfull)]
      · by_contra hne
        exact absurd (((hcompact.filled l p hconcat).2 i).mp hne) (not_lt.mpr hi)

theorem Creating.round (hM : MallocMC.Serves M r)
    (h : Creating r destBox L c goal (remaining functor srcBox frame isParticle numParToCreate + rest) block)
    (hpos : 0 < numParToCreate) (hex : ∃ t, isParticle t = true) (order : Equiv.Perm (Fin T)) :
    ∃ block', CreateParticlesFromParticle.round functor M srcBox c order frame isParticle numParToCreate block =
        some (.create frame isParticle (numParToCreate - 1) block') ∧
      Creating r destBox L c goal (remaining functor srcBox frame isParticle (numParToCreate - 1) + rest) block' := by
  obtain ⟨hfirst, frames, created, destFrame, hcreated, hdest, hroom, hgoal⟩ := h
  set drawn := drawNumbers isParticle order block.particlesInDestSuperCell with hdrawn
  have hwants : (fun t => isParticle t && decide (0 < numParToCreate)) = isParticle :=
    funext fun t => by rw [decide_eq_true hpos, Bool.and_true]
  have hne : block.particlesInDestSuperCell ≠ drawn.1 := fun he => by
    obtain ⟨t, ht⟩ := hex
    rw [(drawNumbers_eq_iff isParticle order _).mp he t] at ht
    exact Bool.false_ne_true ht
  obtain ⟨hle, hle'⟩ := drawNumbers_le isParticle order block.particlesInDestSuperCell
  obtain ⟨level, destFrame', box, frames', hrenew, -, hround, hroom'⟩ :=
    @Created.round _ _ _ _ _ _ _ _ _ _ _ _ (BlockThreads.threadOrder order) _
      (fun t => functor (srcBox.attributes frame t)) _ _ _ hM (BlockThreads.mem_threadOrder order) hcreated hroom
      (drawNumbers_numbered isParticle order _) hle hle'
  have hfilter : (Finset.univ.filter fun t => (drawn.2 t).isSome = true) =
      Finset.univ.filter fun t => isParticle t = true :=
    Finset.filter_congr fun t _ => by rw [isSome_drawNumbers]
  have hremaining : remaining functor srcBox frame isParticle numParToCreate =
      (Finset.univ.filter fun t => isParticle t = true).val.map (fun t => functor (srcBox.attributes frame t)) +
        remaining functor srcBox frame isParticle (numParToCreate - 1) := by
    have hnum : numParToCreate.toNat = (numParToCreate - 1).toNat + 1 := by omega
    rw [remaining, remaining, hnum, succ_nsmul']
  refine ⟨⟨secondFlush (BlockThreads.threadOrder order) drawn.2 (fun t => functor (srcBox.attributes frame t)) destFrame'
    box, block.firstCall, some destFrame', level⟩, ?_, hfirst, frames', _, destFrame', hround, rfl, hroom', ?_⟩
  · simp only [CreateParticlesFromParticle.round, hwants, hdest]
    rw [Option.bind_some, if_neg hne, hrenew]
    rfl
  · rw [hfilter, add_assoc, ← add_assoc (Multiset.map _ _), ← hremaining, hgoal]

theorem Creating.round_of_not (h : Creating r destBox L c goal rest block)
    (hnot : ∀ t, (isParticle t && decide (0 < numParToCreate)) = false) (order : Equiv.Perm (Fin T)) :
    CreateParticlesFromParticle.round functor M srcBox c order frame isParticle numParToCreate block =
      some (.frame (srcBox.previousFrame frame) (fun _ => true) block) := by
  obtain ⟨-, -, -, destFrame, -, hdest, -, -⟩ := h
  have hnone : ∀ t, (drawNumbers (fun t => isParticle t && decide (0 < numParToCreate)) order
      block.particlesInDestSuperCell).2 t = none := fun t => by
    rw [← Option.not_isSome_iff_eq_none, isSome_drawNumbers, hnot t]
    exact Bool.false_ne_true
  simp only [CreateParticlesFromParticle.round, hdest]
  rw [Option.bind_some, firstFlush_of_none hnone, if_pos ((drawNumbers_eq_iff _ order _).mpr hnot), ← hdest]

theorem Creating.ends (hM : MallocMC.Serves M r)
    (h : Creating r destBox L c goal (remaining functor srcBox frame isParticle numParToCreate + rest) block) :
    Ends (next functor particlePerParticle M srcBox c) (fun phase => ∃ block',
      phase = .frame (srcBox.previousFrame frame) (fun _ => true) block' ∧ Creating r destBox L c goal rest block')
      (.create frame isParticle numParToCreate block) := by
  induction hn : numParToCreate.toNat generalizing numParToCreate block with
  | zero =>
    have hnot : ∀ t, (isParticle t && decide (0 < numParToCreate)) = false := fun t => by
      rw [decide_eq_false (by omega), Bool.and_false]
    have hremaining : remaining functor srcBox frame isParticle numParToCreate = 0 := by rw [remaining, hn, zero_nsmul]
    rw [hremaining, zero_add] at h
    exact .step fun order => ⟨_, h.round_of_not hnot order, ends_of ⟨block, rfl, h⟩⟩
  | succ n ih =>
    by_cases hex : ∃ t, isParticle t = true
    · refine .step fun order => ?_
      obtain ⟨block', hround, h'⟩ := h.round hM (by omega) hex order
      exact ⟨_, hround, ih h' (by omega)⟩
    · have hfalse : ∀ t, isParticle t = false := fun t => Bool.eq_false_iff.mpr fun ht => hex ⟨t, ht⟩
      have hnot : ∀ t, (isParticle t && decide (0 < numParToCreate)) = false := fun t => by
        rw [hfalse t, Bool.false_and]
      have hremaining : remaining functor srcBox frame isParticle numParToCreate = 0 := by
        rw [remaining, Finset.filter_eq_empty_iff.mpr fun t _ => by rw [hfalse t]; exact Bool.false_ne_true]
        exact smul_zero _
      rw [hremaining, zero_add] at h
      exact .step fun order => ⟨_, h.round_of_not hnot order, ends_of ⟨block, rfl, h⟩⟩

theorem remaining_eq (hparticle : ∀ t, isParticle t = true ↔ srcBox.multiMask frame t ≠ 0) {frames : List Ptr} :
    particlePerParticle • (liveParticles srcBox (frame :: frames)).map functor =
      remaining functor srcBox frame isParticle particlePerParticle +
        particlePerParticle • (liveParticles srcBox frames).map functor := by
  have hfilter : (Finset.univ.filter fun t => isParticle t = true) =
      Finset.univ.filter fun t => srcBox.multiMask frame t ≠ 0 := Finset.filter_congr fun t _ => hparticle t
  rw [liveParticles, List.map_cons, List.sum_cons, Multiset.map_add, nsmul_add, Multiset.map_map, remaining, hfilter,
    Int.toNat_natCast]
  rfl

theorem Creating.ends_frames (hM : MallocMC.Serves M r) {frames : List Ptr}
    (hprevious : ∀ l p rest, frames = l ++ p :: rest → srcBox.previousFrame p = rest.head?)
    (hfull : ∀ p ∈ frames, ∀ t, srcBox.multiMask p t ≠ 0)
    (h : Creating r destBox L c goal (particlePerParticle • (liveParticles srcBox frames).map functor) block) :
    Ends (next functor particlePerParticle M srcBox c) (fun phase => ∃ isParticle block',
      phase = .frame none isParticle block' ∧ Creating r destBox L c goal 0 block')
      (.frame frames.head? (fun _ => true) block) := by
  induction frames generalizing block with
  | nil =>
    have hzero : particlePerParticle • (liveParticles srcBox []).map functor = 0 := smul_zero _
    rw [hzero] at h
    exact ends_of ⟨_, block, rfl, h⟩
  | cons frame frames ih =>
    obtain ⟨hframe, hframes⟩ := List.forall_mem_cons.mp hfull
    rw [remaining_eq fun t => iff_of_true rfl (hframe t)] at h
    refine .step fun order => ⟨.create frame (fun _ => true) particlePerParticle block, ?_, (h.ends hM).bind ?_⟩
    · simp only [List.head?_cons, next, Block.init, h.1]
      rfl
    · rintro phase ⟨block', rfl, h'⟩
      rw [hprevious [] frame frames rfl]
      exact ih (fun l p rest he => hprevious (frame :: l) p rest (by rw [he, List.cons_append])) hframes h'

/-- The block is through. Every particle of the source has its particles in free slots of the destination, and what was
there before is as it was. -/
def Complete (functor : α → β) (particlePerParticle : ℕ) (srcBox : ParticlesBox D T α) (srcFrames : List Ptr) (r : ℕ)
    (destBox : ParticlesBox D T β) (L : DataSpace D → List Ptr) (c : DataSpace D) (phase : Phase D T β) : Prop :=
  ∃ isParticle block frames, phase = .frame none isParticle block ∧
    Created r destBox L c {q | q ∈ L c} frames
      (particlePerParticle • (liveParticles srcBox srcFrames.reverse).map functor) block.destParBox

/-- The kernel ends, and each particle of the source has got its particles. -/
theorem createParticlesFromParticle_spec {superCellSize : DataSpace D} {srcFrames : DataSpace D → List Ptr} {size : ℕ}
    (hsize : ∀ d, 0 < superCellSize d) (hM : MallocMC.Serves M r) (hsrc : Linked srcBox srcFrames)
    (hsrcCompact : Compact srcBox (srcFrames c) size) (hlinked : Linked destBox L)
    (hattempts : (destBox.attempts + 12) % maxTries = r) (hcompact : Compact destBox (L c) (destBox.sizeLastFrame c)) :
    Ends (next functor particlePerParticle M srcBox (destSuperCell superCellSize c 0))
      (Complete functor particlePerParticle srcBox (srcFrames c) r destBox L c) (start srcBox c destBox) := by
  rw [destSuperCell_zero hsize]
  have hprevious := hsrc.mirror.next c
  have hlast := hsrc.last c
  rcases List.eq_nil_or_concat (srcFrames c) with hnil | ⟨l, frame, hconcat⟩
  · rw [hnil] at hlast
    refine ends_of ⟨fun _ => false, ⟨destBox, true, none, 0⟩, [], ?_, ?_⟩
    · simp only [start, hlast]
      rfl
    · rw [hnil]
      have hzero : particlePerParticle • (liveParticles srcBox [].reverse).map functor = 0 := smul_zero _
      rw [hzero]
      exact created_refl hlinked hattempts c _
  · rw [List.concat_eq_append] at hconcat
    have hreverse : (srcFrames c).reverse = frame :: l.reverse := by rw [hconcat, List.reverse_append]; rfl
    obtain ⟨hfull, -⟩ := hsrcCompact.filled l frame hconcat
    rw [hconcat, List.getLast?_concat] at hlast
    obtain ⟨block, hinit, h⟩ := init_spec hM hlinked hattempts hcompact
      (particlePerParticle • (liveParticles srcBox (srcFrames c).reverse).map functor)
    have hparticle : ∀ t, (some frame).any (fun frame => decide (srcBox.multiMask frame t ≠ 0)) = true ↔
        srcBox.multiMask frame t ≠ 0 := fun t => by rw [Option.any_some, decide_eq_true_eq]
    have hnext : srcBox.previousFrame frame = l.reverse.head? := hprevious [] frame l.reverse hreverse
    have h' : Creating r destBox L c (particlePerParticle • (liveParticles srcBox (srcFrames c).reverse).map functor)
        (remaining functor srcBox frame (fun t => (some frame).any fun frame => decide (srcBox.multiMask frame t ≠ 0))
          particlePerParticle + particlePerParticle • (liveParticles srcBox l.reverse).map functor) block := by
      rw [← remaining_eq hparticle, ← hreverse]
      exact h
    have hrest : Ends (next functor particlePerParticle M srcBox c) (fun phase => ∃ isParticle block',
        phase = .frame none isParticle block' ∧ Creating r destBox L c
          (particlePerParticle • (liveParticles srcBox (srcFrames c).reverse).map functor) 0 block')
        (start srcBox c destBox) := by
      simp only [start, hlast]
      refine .step fun order => ⟨.create frame _ particlePerParticle block, ?_, (h'.ends hM).bind ?_⟩
      · rw [next, hinit, Option.map_some]
      · rintro phase ⟨block', rfl, h''⟩
        rw [hnext]
        refine h''.ends_frames hM (fun l' p rest he => ?_) fun p hp => hfull p (List.mem_reverse.mp hp)
        exact hprevious (frame :: l') p rest (by rw [hreverse, he, List.cons_append])
    refine hrest.mono ?_
    rintro phase ⟨isParticle, block', rfl, -, frames, created, -, hcreated, -, -, hgoal⟩
    rw [add_zero] at hgoal
    subst hgoal
    exact ⟨isParticle, block', frames, rfl, hcreated⟩

end Spec

/-- Two particles for one, with a full last frame of the destination. -/
theorem createParticlesFromParticle_two : Ends
    (next (fun k : ℕ => k + 1) 2 ParticlesBase.nextFree (singleFrame 5) (destSuperCell 1 ![1, 1] 0))
    (Complete (fun k => k + 1) 2 (singleFrame 5) [0] 12 (setSizeLastFrame (singleFrame 7) ![1, 1] 1)
      (Function.update (fun _ => []) ![1, 1] [0]) ![1, 1])
    (start (singleFrame 5) ![1, 1] (setSizeLastFrame (singleFrame 7) ![1, 1] 1)) :=
  @createParticlesFromParticle_spec 2 1 ℕ ℕ (fun k => k + 1) 2 _ (singleFrame 5) (setSizeLastFrame (singleFrame 7) ![1, 1] 1)
    (Function.update (fun _ => []) ![1, 1] [0]) ![1, 1] 12 1 (Function.update (fun _ => []) ![1, 1] [0]) 1
    (fun _ => one_pos) (fun _ _ _ => rfl) (linked_singleFrame 5) (compact_singleFrame 5)
    ((linked_singleFrame 7).congr rfl rfl (fun _ _ _ => rfl) (fun _ _ _ => rfl) (linked_singleFrame 7).allocated) rfl
    ((compact_singleFrame 7).congr fun _ _ => rfl)

end PIConGPU.CreateParticlesFromParticle
