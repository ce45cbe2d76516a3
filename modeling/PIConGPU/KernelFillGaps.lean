import PIConGPU.SupercellContents

/-!
# KernelFillGaps and KernelFillGapsLastFrame

The first kernel moves particles from the last frame of a supercell into the gaps of its first
frames and frees the frames that become empty. The second one closes the gaps of the last frame
and stores its size. The threads number gaps and particles with atomic counters, in any order.
-/
namespace PIConGPU

namespace ParticlesBox

variable {D T : ℕ} {α : Type*}

/-- The frame before `frame`, if the list has more frames. -/
def getPreviousFrameAndRemoveLastFrame (box : ParticlesBox D T α) (frame : Ptr) (superCellIdx : DataSpace D) :
    Option Ptr × ParticlesBox D T α :=
  (if (box.removeLastFrame superCellIdx).1 then box.previousFrame frame else none,
    (box.removeLastFrame superCellIdx).2)

end ParticlesBox

open BlockThreads FrameContents ParticlesBox

variable {D T : ℕ} {α : Type*}

namespace KernelFillGaps

def isGap (box : ParticlesBox D T α) (frame : Ptr) (t : Fin T) : Bool := box.multiMask frame t == 0

def isParticle (box : ParticlesBox D T α) (frame : Ptr) (t : Fin T) : Bool := box.multiMask frame t == 1

/-- `INV_LOC_IDX` for threads without a gap. -/
def localGapIdx (box : ParticlesBox D T α) (firstFrame : Ptr) (σ : Equiv.Perm (Fin T)) (t : Fin T) : ℕ :=
  if isGap box firstFrame t then (numberThreads (isGap box firstFrame) σ).2 t else 65535

def parIdx (box : ParticlesBox D T α) (firstFrame lastFrame : Ptr) (σ : Equiv.Perm (Fin T) × Equiv.Perm (Fin T))
    (t : Fin T) : Option (Fin T) :=
  if localGapIdx box firstFrame σ.1 t < (numberThreads (isParticle box lastFrame) σ.2).1 then
    threadIndices (isParticle box lastFrame) σ.2 (localGapIdx box firstFrame σ.1 t)
  else none

/-- Fill the gaps of the first frame; an index that was not written is an error. -/
def moveParticles (box : ParticlesBox D T α) (firstFrame lastFrame : Ptr)
    (σ : Equiv.Perm (Fin T) × Equiv.Perm (Fin T)) : Option (ParticlesBox D T α) :=
  if ∀ t, localGapIdx box firstFrame σ.1 t < (numberThreads (isParticle box lastFrame) σ.2).1 →
      (parIdx box firstFrame lastFrame σ t).isSome = true then
    let box' := box.store (threadOrder σ.1)
      (fun t => (parIdx box firstFrame lastFrame σ t).map fun _ => (firstFrame, t))
      fun t => ((parIdx box firstFrame lastFrame σ t).map (box.attributes lastFrame)).getD
        (box.attributes firstFrame t)
    some (box'.deleteParticles lastFrame fun i => ∃ t, parIdx box firstFrame lastFrame σ t = some i)
  else none

/-- The loop of the kernel, with a bound on the number of rounds. -/
def fillGaps (superCellIdx : DataSpace D) (order : ℕ → Equiv.Perm (Fin T) × Equiv.Perm (Fin T)) :
    ℕ → Ptr → Ptr → ParticlesBox D T α → Option (ParticlesBox D T α)
  | 0, _, _, _ => none
  | n + 1, firstFrame, lastFrame, box =>
    if firstFrame = lastFrame then some box
    else
      let counterGaps := (numberThreads (isGap box firstFrame) (order n).1).1
      let counterParticles := (numberThreads (isParticle box lastFrame) (order n).2).1
      if counterGaps = 0 then
        match box.nextFrame firstFrame with
        | none => some box
        | some next => fillGaps superCellIdx order n next lastFrame box
      else do
        let box ← moveParticles box firstFrame lastFrame (order n)
        if counterGaps < counterParticles then
          match box.nextFrame firstFrame with
          | none => some box
          | some next => fillGaps superCellIdx order n next lastFrame box
        else
          match box.getPreviousFrameAndRemoveLastFrame lastFrame superCellIdx with
          | (none, box) => some box
          | (some previous, box) =>
            if counterGaps = counterParticles ∧ previous ≠ firstFrame then
              match box.nextFrame firstFrame with
              | none => some box
              | some next => fillGaps superCellIdx order n next previous box
            else fillGaps superCellIdx order n firstFrame previous box

def block (order : ℕ → Equiv.Perm (Fin T) × Equiv.Perm (Fin T)) (box : ParticlesBox D T α)
    (superCellIdx : DataSpace D) : Option (ParticlesBox D T α) :=
  match box.firstFramePtr superCellIdx, box.lastFramePtr superCellIdx with
  | some firstFrame, some lastFrame =>
    fillGaps superCellIdx order box.allocated.card firstFrame lastFrame box
  | _, _ => some box

end KernelFillGaps

namespace KernelFillGapsLastFrame

def isParticle (box : ParticlesBox D T α) (frame : Ptr) (t : Fin T) : Bool := box.multiMask frame t != 0

def counterParticles (box : ParticlesBox D T α) (lastFrame : Ptr) (σ : Equiv.Perm (Fin T)) : ℕ :=
  (numberThreads (isParticle box lastFrame) σ).1

def isGap (box : ParticlesBox D T α) (lastFrame : Ptr) (n : ℕ) (t : Fin T) : Bool :=
  decide (t.val < n) && !isParticle box lastFrame t

def isBehind (box : ParticlesBox D T α) (lastFrame : Ptr) (n : ℕ) (t : Fin T) : Bool :=
  decide (n ≤ t.val) && isParticle box lastFrame t

/-- The gap that a particle behind slot `n` takes. -/
def gapIdx (box : ParticlesBox D T α) (lastFrame : Ptr) (n : ℕ) (σ : Equiv.Perm (Fin T) × Equiv.Perm (Fin T))
    (t : Fin T) : Option (Fin T) :=
  if isBehind box lastFrame n t then
    threadIndices (isGap box lastFrame n) σ.1 ((numberThreads (isBehind box lastFrame n) σ.2).2 t)
  else none

/-- Close the gaps in front of slot `n`; an index that was not written is an error. -/
def moveParticles (box : ParticlesBox D T α) (lastFrame : Ptr) (n : ℕ)
    (σ : Equiv.Perm (Fin T) × Equiv.Perm (Fin T)) : Option (ParticlesBox D T α) :=
  if ∀ t, isBehind box lastFrame n t = true → (gapIdx box lastFrame n σ t).isSome = true then
    let box' := box.store (threadOrder σ.2) (fun t => (gapIdx box lastFrame n σ t).map fun i => (lastFrame, i))
      (box.attributes lastFrame)
    some (box'.deleteParticles lastFrame fun t => isBehind box lastFrame n t = true)
  else none

def block (σ : Equiv.Perm (Fin T) × Equiv.Perm (Fin T) × Equiv.Perm (Fin T)) (box : ParticlesBox D T α)
    (superCellIdx : DataSpace D) : Option (ParticlesBox D T α) :=
  match box.lastFramePtr superCellIdx with
  | none => some (box.setSizeLastFrame superCellIdx 0)
  | some lastFrame =>
    let n := counterParticles box lastFrame σ.1
    (moveParticles box lastFrame n σ.2).map fun box => box.setSizeLastFrame superCellIdx n

end KernelFillGapsLastFrame

end PIConGPU
