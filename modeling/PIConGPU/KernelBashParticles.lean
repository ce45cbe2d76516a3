import PIConGPU.ExchangePush
import PIConGPU.ExchangeTarget
import PIConGPU.FillGaps

/-!
# KernelBashParticles

Every block takes the frames of its guard supercell from the last one on and moves their particles to the stack of the
exchange. Particles that do not fit stay in their frame, and the block ends.
-/
namespace PIConGPU

/-- The particles of an exchange, with the counters and the index of the stack. -/
structure StackExchangeBuffer (D : ℕ) (α : Type*) where
  counters : ExchangePush.Memory (D - 1)
  stack : ℕ → α

namespace StackExchangeBuffer

variable {D : ℕ} {α : Type*}

def setCurrentSize (buffer : StackExchangeBuffer D α) (size : ℕ) : StackExchangeBuffer D α :=
  { buffer with counters := { buffer.counters with currentSize := size, indexSize := size } }

def tile (buffer : StackExchangeBuffer D α) (entry : ExchangePush.ExchangeMemoryIndex (D - 1)) : Multiset α :=
  (Multiset.range entry.count).map fun j => buffer.stack (entry.startIdx + j)

def particles (buffer : StackExchangeBuffer D α) : Multiset (DataSpace (D - 1) × α) :=
  ∑ k ∈ Finset.range buffer.counters.indexSize, (buffer.counters.index k).elim 0 fun entry =>
    (buffer.tile entry).map (Prod.mk entry.superCell)

/-- The entries of the index stand for at most `T` of the particles that are there. -/
def WellFormed (T : ℕ) (buffer : StackExchangeBuffer D α) : Prop :=
  ∀ k < buffer.counters.indexSize, ∃ entry, buffer.counters.index k = some entry ∧ entry.count ≤ T ∧
    entry.startIdx + entry.count ≤ buffer.counters.currentSize

end StackExchangeBuffer

namespace KernelBashParticles

open ParticlesBox BlockThreads FrameContents KernelLaunch KernelFillGaps DataSpaceOperations
open ExchangePush (PushN Pushing Quiet overshoot)

structure Memory (D T : ℕ) (α : Type*) where
  box : ParticlesBox D T α
  border : StackExchangeBuffer D α

/-- Where a block stands. The head of the loop has no frame if the loop ends. -/
inductive Phase (T : ℕ)
  | init
  | loop (frame : Option Ptr)
  | push (frame : Ptr) (bashIdx : Fin T → ℕ) (numBashedParticles : ℕ) (pushN : ExchangePush.Phase)
  | remove (frame : Ptr)
  | finished

variable {D T : ℕ} {α : Type*}

def numBashedParticles (box : ParticlesBox D T α) (frame : Ptr) (order : Equiv.Perm (Fin T)) : ℕ :=
  (numberThreads (isParticle box frame) order).1

/-- `INV_LOC_IDX` for threads without a particle. -/
def bashIdx (box : ParticlesBox D T α) (frame : Ptr) (order : Equiv.Perm (Fin T)) (t : Fin T) : ℕ :=
  if isParticle box frame t then (numberThreads (isParticle box frame) order).2 t else 65535

def tmpBorder (offset size : ℕ) (bashIdx : Fin T → ℕ) (t : Fin T) : Option ℕ :=
  if bashIdx t ≠ 65535 ∧ bashIdx t < size then some (offset + bashIdx t) else none

/-- The threads with a place copy their particle and delete it. -/
def bash (order : Equiv.Perm (Fin T)) (frame : Ptr) (target : Fin T → Option ℕ) (m : Memory D T α) : Memory D T α where
  box := m.box.deleteParticles frame fun t => (target t).isSome = true
  border := { m.border with stack := scatter target (m.box.attributes frame) (threadOrder order) m.border.stack }

/-- A step of the block of a supercell: what it does between two barriers, or one operation of `pushN`. -/
inductive Block (maxSize exchangeType : ℕ) (superCellIdx : DataSpace D) :
    Memory D T α → Phase T → Memory D T α → Phase T → Prop
  | init {m : Memory D T α} :
    Block maxSize exchangeType superCellIdx m .init m (.loop (m.box.lastFramePtr superCellIdx))
  | count {m : Memory D T α} {frame : Ptr} (order : Equiv.Perm (Fin T)) :
    Block maxSize exchangeType superCellIdx m (.loop (some frame)) m
      (if 0 < numBashedParticles m.box frame order then
        .push frame (bashIdx m.box frame order) (numBashedParticles m.box frame order) .call
      else .remove frame)
  | push {m : Memory D T α} {frame : Ptr} {idx : Fin T → ℕ} {n : ℕ} {pushN pushN' : ExchangePush.Phase}
      {counters : ExchangePush.Memory (D - 1)}
      (h : PushN maxSize n (reduce superCellIdx exchangeType) m.border.counters pushN counters pushN') :
    Block maxSize exchangeType superCellIdx m (.push frame idx n pushN)
      { m with border := { m.border with counters := counters } } (.push frame idx n pushN')
  | bash {m : Memory D T α} {frame : Ptr} {idx : Fin T → ℕ} {n offset size : ℕ} {tmp : Option ℕ}
      (order : Equiv.Perm (Fin T)) :
    Block maxSize exchangeType superCellIdx m (.push frame idx n (.done offset size tmp))
      (bash order frame (tmpBorder offset size idx) m) (if size < n then .loop none else .remove frame)
  | remove {m : Memory D T α} {frame : Ptr} :
    Block maxSize exchangeType superCellIdx m (.remove frame)
      { m with box := (m.box.getPreviousFrameAndRemoveLastFrame frame superCellIdx).2 }
      (.loop (m.box.getPreviousFrameAndRemoveLastFrame frame superCellIdx).1)
  | finish {m : Memory D T α} :
    Block maxSize exchangeType superCellIdx m (.loop none)
      { m with box := m.box.setSizeLastFrame superCellIdx 0 } .finished

section Frames

def count (box : ParticlesBox D T α) (frame : Ptr) : ℕ :=
  (Finset.univ.filter fun t => isParticle box frame t = true).card

theorem numBashedParticles_eq (box : ParticlesBox D T α) (frame : Ptr) (order : Equiv.Perm (Fin T)) :
    numBashedParticles box frame order = count box frame := numberThreads_count _ order

theorem count_le (box : ParticlesBox D T α) (frame : Ptr) : count box frame ≤ T :=
  (numBashedParticles_eq box frame (Equiv.refl _)).symm.trans_le (numberThreads_le _ _)

theorem filter_isParticle (box : ParticlesBox D T α) (frame : Ptr) :
    (Finset.univ.filter fun t => isParticle box frame t = true) =
      Finset.univ.filter fun t => box.multiMask frame t = 1 := by
  simp [isParticle]

theorem card_particles (box : ParticlesBox D T α) (frame : Ptr) :
    (particles (box.multiMask frame) (box.attributes frame) 1).card = count box frame := by
  rw [particles, Multiset.card_map, count, filter_isParticle]
  rfl

def pushed (buffer : StackExchangeBuffer D α) : ExchangePush.Phase → Multiset α
  | .done offset size _ => (Multiset.range size).map fun j => buffer.stack (offset + j)
  | _ => 0

end Frames

section Stands

variable {box : ParticlesBox D T α} {calls calls' : Ptr → ExchangePush.Phase} {m m' : Memory D T α}
  {frames frames₀ : List Ptr} {p : Ptr} {phase : Phase T}

def Untouched (box : ParticlesBox D T α) (calls : Ptr → ExchangePush.Phase) (m : Memory D T α) (frames : List Ptr) :
    Prop :=
  ∀ q ∈ frames, calls q = .call ∧ m.box.multiMask q = box.multiMask q

/-- The particles of a frame are in the stack or still in the frame. -/
structure Accounted (box : ParticlesBox D T α) (calls : Ptr → ExchangePush.Phase) (m : Memory D T α) (p : Ptr) :
    Prop where
  quiet : Quiet (calls p)
  particles_eq : particles (box.multiMask p) (box.attributes p) 1 =
    pushed m.border (calls p) + particles (m.box.multiMask p) (box.attributes p) 1

structure Emptied (box : ParticlesBox D T α) (calls : Ptr → ExchangePush.Phase) (m : Memory D T α) (p : Ptr) :
    Prop extends Accounted box calls m p where
  empty : particles (m.box.multiMask p) (box.attributes p) 1 = 0

/-- The stack had too little room for the last frame. -/
def Overfull (box : ParticlesBox D T α) (calls : Ptr → ExchangePush.Phase) (m : Memory D T α) (frames : List Ptr) :
    Prop :=
  ∃ l p offset n tmp, frames = l ++ [p] ∧ Untouched box calls m l ∧ Accounted box calls m p ∧
    calls p = .done offset n tmp ∧ n < count box p

/-- What a block knows of its list of frames. -/
def Stands (box : ParticlesBox D T α) (calls : Ptr → ExchangePush.Phase) (m : Memory D T α) (frames : List Ptr) :
    Phase T → Prop
  | .init => Untouched box calls m frames
  | .loop frame => frame = frames.getLast? ∧ Untouched box calls m frames ∨ frame = none ∧ Overfull box calls m frames
  | .push p idx n pushN => ∃ l, frames = l ++ [p] ∧ Untouched box calls m l ∧
      m.box.multiMask p = box.multiMask p ∧ calls p = pushN ∧ 0 < n ∧ n = count box p ∧
      ∃ order, idx = bashIdx box p order
  | .remove p => ∃ l, frames = l ++ [p] ∧ Untouched box calls m l ∧ Emptied box calls m p
  | .finished => frames = [] ∨ Overfull box calls m frames

/-- The frames of a block that are left, and those that were removed. -/
structure BlockState (box : ParticlesBox D T α) (calls : Ptr → ExchangePush.Phase) (m : Memory D T α)
    (frames₀ frames : List Ptr) (phase : Phase T) : Prop where
  removed : ∃ removed, frames₀ = frames ++ removed ∧ ∀ p ∈ removed, Emptied box calls m p
  stands : Stands box calls m frames phase

def Agrees (calls : Ptr → ExchangePush.Phase) (m : Memory D T α) (calls' : Ptr → ExchangePush.Phase)
    (m' : Memory D T α) (frames : List Ptr) : Prop :=
  ∀ p ∈ frames, calls' p = calls p ∧ m'.box.multiMask p = m.box.multiMask p ∧
    pushed m'.border (calls p) = pushed m.border (calls p)

theorem Agrees.mono {frames' : List Ptr} (h : Agrees calls m calls' m' frames) (hsub : frames' ⊆ frames) :
    Agrees calls m calls' m' frames' := fun p hp => h p (hsub hp)

theorem Untouched.congr (h : Untouched box calls m frames) (hagrees : Agrees calls m calls' m' frames) :
    Untouched box calls' m' frames := fun q hq => by
  obtain ⟨hcalls, hmask, -⟩ := hagrees q hq
  exact ⟨hcalls.trans (h q hq).1, hmask.trans (h q hq).2⟩

theorem Accounted.congr (h : Accounted box calls m p) (hagrees : Agrees calls m calls' m' [p]) :
    Accounted box calls' m' p := by
  obtain ⟨hcalls, hmask, hpushed⟩ := hagrees p (List.mem_singleton_self p)
  exact ⟨by rw [hcalls]; exact h.quiet, by rw [hcalls, hmask, hpushed]; exact h.particles_eq⟩

theorem Emptied.congr (h : Emptied box calls m p) (hagrees : Agrees calls m calls' m' [p]) :
    Emptied box calls' m' p :=
  ⟨h.toAccounted.congr hagrees, by rw [(hagrees p (List.mem_singleton_self p)).2.1]; exact h.empty⟩

theorem Overfull.congr (h : Overfull box calls m frames) (hagrees : Agrees calls m calls' m' frames) :
    Overfull box calls' m' frames := by
  obtain ⟨l, p, offset, n, tmp, rfl, huntouched, haccounted, hcall, hlt⟩ := h
  exact ⟨l, p, offset, n, tmp, rfl, huntouched.congr (hagrees.mono (by simp)),
    haccounted.congr (hagrees.mono (by simp)), (hagrees p (by simp)).1.trans hcall, hlt⟩

theorem BlockState.congr (h : BlockState box calls m frames₀ frames phase)
    (hagrees : Agrees calls m calls' m' frames₀) : BlockState box calls' m' frames₀ frames phase := by
  obtain ⟨removed, rfl, hremoved⟩ := h.removed
  refine ⟨⟨removed, rfl, fun p hp => (hremoved p hp).congr (hagrees.mono (by simp [hp]))⟩, ?_⟩
  replace hagrees := hagrees.mono (List.subset_append_left frames removed)
  have hstands := h.stands
  cases phase with
  | init => exact Untouched.congr hstands hagrees
  | loop frame => exact hstands.imp (fun h => ⟨h.1, h.2.congr hagrees⟩) fun h => ⟨h.1, h.2.congr hagrees⟩
  | push p idx n pushN =>
    obtain ⟨l, rfl, huntouched, hmask, hcall, hrest⟩ := hstands
    obtain ⟨hcalls, hmask', -⟩ := hagrees p (by simp)
    exact ⟨l, rfl, huntouched.congr (hagrees.mono (by simp)), hmask'.trans hmask, hcalls.trans hcall, hrest⟩
  | remove p =>
    obtain ⟨l, rfl, huntouched, hemptied⟩ := hstands
    exact ⟨l, rfl, huntouched.congr (hagrees.mono (by simp)), hemptied.congr (hagrees.mono (by simp))⟩
  | finished => exact hstands.imp id fun h => h.congr hagrees

end Stands

section Bash

variable {box : ParticlesBox D T α} {m : Memory D T α} {p : Ptr} {order order₀ : Equiv.Perm (Fin T)}
  {offset n : ℕ} {idx : Fin T → ℕ}

theorem tmpBorder_mem {t : Fin T} {a : ℕ} (h : tmpBorder offset n idx t = some a) :
    a ∈ Finset.Ico offset (offset + n) := by
  unfold tmpBorder at h
  split at h
  · obtain rfl := Option.some_inj.mp h
    exact Finset.mem_Ico.mpr ⟨Nat.le_add_right _ _, by omega⟩
  · cases h

theorem tmpBorder_eq_some (hT : T ≤ 65535) {t : Fin T} {a : ℕ} :
    tmpBorder offset n (bashIdx box p order₀) t = some a ↔ isParticle box p t = true ∧
      (numberThreads (isParticle box p) order₀).2 t < n ∧
      offset + (numberThreads (isParticle box p) order₀).2 t = a := by
  have hle := numberThreads_le (isParticle box p) order₀
  unfold tmpBorder bashIdx
  cases hpar : isParticle box p t with
  | false => simp
  | true =>
    have hlt := numberThreads_lt (σ := order₀) hpar
    have hne : (numberThreads (isParticle box p) order₀).2 t ≠ 65535 := by omega
    simp [hne]

/-- The first particles of a frame go to the elements of its call, the others stay. -/
theorem particles_bash (hT : T ≤ 65535) (hn : n ≤ count box p) (hmask : m.box.multiMask p = box.multiMask p)
    (hattributes : m.box.attributes = box.attributes) :
    particles (box.multiMask p) (box.attributes p) 1 =
      ((Multiset.range n).map fun j =>
        (bash order p (tmpBorder offset n (bashIdx box p order₀)) m).border.stack (offset + j)) +
      particles ((bash order p (tmpBorder offset n (bashIdx box p order₀)) m).box.multiMask p)
        (box.attributes p) 1 := by
  set number := (numberThreads (isParticle box p) order₀).2 with hnumber
  set target := tmpBorder offset n (bashIdx box p order₀) with htarget
  have hsome : ∀ {t a}, target t = some a ↔ isParticle box p t = true ∧ number t < n ∧ offset + number t = a :=
    tmpBorder_eq_some hT
  have hinj : ∀ t ∈ threadOrder order, ∀ t' ∈ threadOrder order, ∀ a, target t = some a → target t' = some a →
      t = t' := fun t _ t' _ a ht ht' => by
    obtain ⟨hpar, -, ha⟩ := hsome.mp ht
    obtain ⟨hpar', -, ha'⟩ := hsome.mp ht'
    exact numberThreads_inj hpar hpar' (Nat.add_left_cancel (ha.trans ha'.symm))
  have hmem : ∀ t, t ∈ Finset.univ.filter (fun t => (target t).isSome = true) ↔
      isParticle box p t = true ∧ number t < n := fun t => by
    rw [Finset.mem_filter, Option.isSome_iff_exists]
    constructor
    · rintro ⟨-, a, ha⟩
      exact ⟨(hsome.mp ha).1, (hsome.mp ha).2.1⟩
    · rintro ⟨hpar, hlt⟩
      exact ⟨Finset.mem_univ t, _, hsome.mpr ⟨hpar, hlt, rfl⟩⟩
  have hone : ∀ t ∈ Finset.univ.filter (fun t => (target t).isSome = true), box.multiMask p t = 1 := fun t ht => by
    simpa [isParticle] using ((hmem t).mp ht).1
  have hcleared : ∀ t ∈ Finset.univ.filter (fun t => (target t).isSome = true),
      (bash order p target m).box.multiMask p t = 0 := fun t ht => by
    rw [bash, deleteParticles_multiMask, if_pos (Finset.mem_filter.mp ht).2]
  have hkept : ∀ t ∉ Finset.univ.filter (fun t => (target t).isSome = true),
      (bash order p target m).box.multiMask p t = box.multiMask p t := fun t ht => by
    rw [bash, deleteParticles_multiMask, if_neg fun hs => ht (Finset.mem_filter.mpr ⟨Finset.mem_univ t, hs⟩), hmask]
  rw [particles_clear (box.attributes p) _ hone hcleared hkept, add_comm]
  congr 1
  refine Multiset.map_eq_map_of_bij_of_nodup _ _ (Finset.nodup _) (Multiset.nodup_range n) (fun t _ => number t)
    (fun t ht => Multiset.mem_range.mpr ((hmem t).mp ht).2)
    (fun t ht t' ht' he => numberThreads_inj ((hmem t).mp ht).1 ((hmem t').mp ht').1 he)
    (fun j hj => ?_) fun t ht => ?_
  · have hj := Multiset.mem_range.mp hj
    obtain ⟨t, hpar, ht⟩ := exists_numberThreads (p := isParticle box p) (σ := order₀)
      (hj.trans_le (hn.trans_eq (numBashedParticles_eq box p order₀).symm))
    exact ⟨t, (hmem t).mpr ⟨hpar, ht.trans_lt hj⟩, ht⟩
  · obtain ⟨hpar, hlt⟩ := (hmem t).mp ht
    exact ((scatter_of_mem (m.box.attributes p) m.border.stack hinj (mem_threadOrder order t)
      (hsome.mpr ⟨hpar, hlt, rfl⟩)).trans (by rw [hattributes])).symm

/-- Nothing stays in the frame if there are enough elements. -/
theorem particles_bash_eq_zero (hT : T ≤ 65535) (hn : count box p ≤ n) (hmask : m.box.multiMask p = box.multiMask p) :
    particles ((bash order p (tmpBorder offset n (bashIdx box p order₀)) m).box.multiMask p)
      (box.attributes p) 1 = 0 := by
  refine particles_eq_zero _ fun t ht => ?_
  rw [bash, deleteParticles_multiMask] at ht
  split at ht
  · cases ht
  case isFalse hnone =>
    have hpar : isParticle box p t = true := by simpa [isParticle, hmask] using ht
    have hlt := (numberThreads_lt (σ := order₀) hpar).trans_le ((numBashedParticles_eq box p order₀).trans_le hn)
    exact hnone (Option.isSome_iff_exists.mpr ⟨_, (tmpBorder_eq_some hT).mpr ⟨hpar, hlt, rfl⟩⟩)

theorem pushed_bash {pushN : ExchangePush.Phase} (hdisjoint : ∀ offset' n' tmp, pushN = .done offset' n' tmp →
      Disjoint (Finset.Ico offset (offset + n)) (Finset.Ico offset' (offset' + n'))) :
    pushed (bash order p (tmpBorder offset n idx) m).border pushN = pushed m.border pushN := by
  cases pushN with
  | done offset' n' tmp =>
    rw [pushed, pushed]
    refine Multiset.map_congr rfl fun j hj => ?_
    have hj := Multiset.mem_range.mp hj
    change scatter (tmpBorder offset n idx) (m.box.attributes p) (threadOrder order) m.border.stack (offset' + j) = _
    refine scatter_of_forall_ne _ _ fun t _ ht => ?_
    exact Finset.disjoint_left.mp (hdisjoint offset' n' tmp rfl) (tmpBorder_mem ht)
      (Finset.mem_Ico.mpr ⟨by omega, by omega⟩)
  | _ => rfl

end Bash

section Launch

variable {ι : Type*} [Fintype ι] [DecidableEq ι] {maxSize exchangeType : ℕ} {superCellIdx : ι → DataSpace D}
  {origin : Ptr → DataSpace D} {box : ParticlesBox D T α} {L L' L'' : DataSpace D → List Ptr}
  {calls calls' : Ptr → ExchangePush.Phase} {m m' : Memory D T α} {phases : ι → Phase T} {b : ι} {phase : Phase T}

def senders (superCellIdx : ι → DataSpace D) (box : ParticlesBox D T α) (L : DataSpace D → List Ptr) : Finset Ptr :=
  (Finset.univ.biUnion fun b => (L (superCellIdx b)).toFinset).filter fun p => 0 < count box p

omit [DecidableEq ι] in
theorem count_pos {p : Ptr} (hp : p ∈ senders superCellIdx box L) : 0 < count box p := by
  rw [senders, Finset.mem_filter] at hp
  exact hp.2

def Phase.rank (frames : List Ptr) : Phase T → ℕ
  | .init => 10 * frames.length + 9
  | .loop (some _) => 10 * frames.length + 8
  | .push _ _ _ pushN => 10 * frames.length + 3 + ExchangePush.rank pushN
  | .remove _ => 10 * frames.length + 2
  | .loop none => 10 * frames.length + 1
  | .finished => 10 * frames.length

def Phase.overshoot : Phase T → ℕ
  | .push _ _ n pushN => ExchangePush.overshoot n pushN
  | _ => 0

/-- What holds in every state of a launch. The call of `pushN` for a frame is named by the frame. -/
structure Bashing (maxSize exchangeType : ℕ) (superCellIdx : ι → DataSpace D) (origin : Ptr → DataSpace D)
    (box : ParticlesBox D T α) (L : DataSpace D → List Ptr) (calls : Ptr → ExchangePush.Phase)
    (L' : DataSpace D → List Ptr) (m : Memory D T α) (phases : ι → Phase T) : Prop where
  linked : Linked m.box L'
  attributes : m.box.attributes = box.attributes
  attempts : m.box.attempts = box.attempts
  others : ∀ c, (∀ b, superCellIdx b ≠ c) → L' c = L c ∧ ∀ p ∈ L c, m.box.multiMask p = box.multiMask p
  accounted : (∀ p ∈ box.allocated, ∃ c, p ∈ L c) → ∀ p ∈ m.box.allocated, ∃ c, p ∈ L' c
  idle : ∀ p ∉ senders superCellIdx box L, calls p = .call
  pushing : Pushing maxSize (fun p : {p // p ∈ senders superCellIdx box L} => count box p)
    (fun p : {p // p ∈ senders superCellIdx box L} => reduce (origin p) exchangeType)
    (m.border.counters, fun p : {p // p ∈ senders superCellIdx box L} => calls p)
  counter : m.border.counters.currentSize ≤ maxSize + ∑ b, (phases b).overshoot
  blocks : ∀ b, BlockState box calls m (L (superCellIdx b)) (L' (superCellIdx b)) (phases b)

theorem Bashing.counter_erase (h : Bashing maxSize exchangeType superCellIdx origin box L calls L' m phases) (b : ι) :
    m.border.counters.currentSize ≤
      maxSize + ((∑ b' ∈ Finset.univ.erase b, (phases b').overshoot) + (phases b).overshoot) := by
  rw [add_comm (∑ b' ∈ _, _), Finset.add_sum_erase _ (fun b' => (phases b').overshoot) (Finset.mem_univ b)]
  exact h.counter

theorem Bashing.update (hinj : Function.Injective superCellIdx) (hL : Linked box L)
    (h : Bashing maxSize exchangeType superCellIdx origin box L calls L' m phases) (hlinked : Linked m'.box L'')
    (hattributes : m'.box.attributes = m.box.attributes) (hattempts : m'.box.attempts = m.box.attempts)
    (hlists : ∀ c, c ≠ superCellIdx b → L'' c = L' c)
    (haccounted : (∀ p ∈ m.box.allocated, ∃ c, p ∈ L' c) → ∀ p ∈ m'.box.allocated, ∃ c, p ∈ L'' c)
    (hagrees : ∀ frames, (∀ p ∈ frames, p ∉ L (superCellIdx b)) → Agrees calls m calls' m' frames)
    (hidle : ∀ p ∉ senders superCellIdx box L, calls' p = .call)
    (hpushing : Pushing maxSize (fun p : {p // p ∈ senders superCellIdx box L} => count box p)
      (fun p : {p // p ∈ senders superCellIdx box L} => reduce (origin p) exchangeType)
      (m'.border.counters, fun p : {p // p ∈ senders superCellIdx box L} => calls' p))
    (hcounter : m'.border.counters.currentSize ≤
      maxSize + ((∑ b' ∈ Finset.univ.erase b, (phases b').overshoot) + phase.overshoot))
    (hblock : BlockState box calls' m' (L (superCellIdx b)) (L'' (superCellIdx b)) phase) :
    Bashing maxSize exchangeType superCellIdx origin box L calls' L'' m' (Function.update phases b phase) where
  linked := hlinked
  attributes := hattributes.trans h.attributes
  attempts := hattempts.trans h.attempts
  others c hc := by
    obtain ⟨hlist, hmask⟩ := h.others c hc
    refine ⟨(hlists c (hc b).symm).trans hlist, fun p hp => ?_⟩
    have hp' : p ∉ L (superCellIdx b) := fun hp' => hc b (hL.disjoint _ _ p hp' hp)
    exact (hagrees [p] (by simpa using hp') p (List.mem_singleton_self p)).2.1.trans (hmask p hp)
  accounted ha := haccounted (h.accounted ha)
  idle := hidle
  pushing := hpushing
  counter := by
    rw [← Finset.add_sum_erase _ _ (Finset.mem_univ b), Function.update_self, add_comm phase.overshoot]
    have hsum : ∑ b' ∈ Finset.univ.erase b, (Function.update phases b phase b').overshoot =
        ∑ b' ∈ Finset.univ.erase b, (phases b').overshoot :=
      Finset.sum_congr rfl fun b' hb' => by rw [Function.update_of_ne (Finset.ne_of_mem_erase hb')]
    rwa [hsum]
  blocks b' := by
    by_cases hb : b' = b
    · subst hb
      rwa [Function.update_self]
    · rw [Function.update_of_ne hb, hlists _ fun he => hb (hinj he)]
      exact (h.blocks b').congr (hagrees _ fun p hp hp' => hb (hinj (hL.disjoint _ _ p hp hp')))

theorem Bashing.update_box (hinj : Function.Injective superCellIdx) (hL : Linked box L)
    (h : Bashing maxSize exchangeType superCellIdx origin box L calls L' m phases) {box' : ParticlesBox D T α}
    (hlinked : Linked box' L'') (hattributes : box'.attributes = m.box.attributes)
    (hattempts : box'.attempts = m.box.attempts) (hmask : box'.multiMask = m.box.multiMask)
    (hlists : ∀ c, c ≠ superCellIdx b → L'' c = L' c)
    (haccounted : (∀ p ∈ m.box.allocated, ∃ c, p ∈ L' c) → ∀ p ∈ box'.allocated, ∃ c, p ∈ L'' c)
    (hovershoot : phase.overshoot = (phases b).overshoot)
    (hblock : BlockState box calls { m with box := box' } (L (superCellIdx b)) (L'' (superCellIdx b)) phase) :
    Bashing maxSize exchangeType superCellIdx origin box L calls L'' { m with box := box' }
      (Function.update phases b phase) :=
  h.update hinj hL hlinked hattributes hattempts hlists haccounted
    (fun _ _ p _ => ⟨rfl, congrFun hmask p, rfl⟩) h.idle h.pushing (by rw [hovershoot]; exact h.counter_erase b) hblock

theorem Bashing.init (hinj : Function.Injective superCellIdx) (hL : Linked box L)
    (h : Bashing maxSize exchangeType superCellIdx origin box L calls L' m phases) (hb : phases b = .init) :
    Bashing maxSize exchangeType superCellIdx origin box L calls L' m
      (Function.update phases b (.loop (m.box.lastFramePtr (superCellIdx b)))) := by
  obtain ⟨hremoved, hstands⟩ := hb ▸ h.blocks b
  exact h.update_box hinj hL h.linked rfl rfl rfl (fun _ _ => rfl) id (by rw [hb]; rfl)
    ⟨hremoved, .inl ⟨h.linked.last _, hstands⟩⟩

theorem Bashing.count (hinj : Function.Injective superCellIdx) (hL : Linked box L)
    (h : Bashing maxSize exchangeType superCellIdx origin box L calls L' m phases) {frame : Ptr}
    (hb : phases b = .loop (some frame)) (order : Equiv.Perm (Fin T)) :
    Bashing maxSize exchangeType superCellIdx origin box L calls L' m (Function.update phases b
      (if 0 < numBashedParticles m.box frame order then
        .push frame (bashIdx m.box frame order) (numBashedParticles m.box frame order) .call
      else .remove frame)) := by
  obtain ⟨hremoved, hstands⟩ := hb ▸ h.blocks b
  rcases hstands with ⟨hlast, huntouched⟩ | ⟨hnone, -⟩
  · obtain ⟨l, hl⟩ := List.getLast?_eq_some_iff.mp hlast.symm
    rw [hl] at huntouched
    obtain ⟨hcall, hmask⟩ := huntouched frame (by simp)
    have hpar : isParticle m.box frame = isParticle box frame := by
      funext t
      rw [isParticle, isParticle, hmask]
    have hn : numBashedParticles m.box frame order = KernelBashParticles.count box frame := by
      rw [numBashedParticles, hpar]
      exact numBashedParticles_eq box frame order
    have hrest : Untouched box calls m l := fun q hq => huntouched q (by simp [hq])
    refine h.update_box hinj hL h.linked rfl rfl rfl (fun _ _ => rfl) id (by rw [hb]; split <;> rfl) ⟨hremoved, ?_⟩
    split
    case isTrue hpos =>
      refine ⟨l, hl, hrest, hmask, hcall, hpos, hn, order, ?_⟩
      funext t
      rw [bashIdx, bashIdx, hpar]
    case isFalse hzero =>
      have hnone : particles (box.multiMask frame) (box.attributes frame) 1 = 0 := by
        rw [← Multiset.card_eq_zero, card_particles]
        omega
      exact ⟨l, hl, hrest, ⟨.inl hcall, by rw [hcall, hmask, hnone]; rfl⟩, by rw [hmask, hnone]⟩
  · cases hnone

theorem Bashing.remove (hinj : Function.Injective superCellIdx) (hL : Linked box L)
    (h : Bashing maxSize exchangeType superCellIdx origin box L calls L' m phases) {frame : Ptr}
    (hb : phases b = .remove frame) :
    ∃ l, L' (superCellIdx b) = l ++ [frame] ∧
      Bashing maxSize exchangeType superCellIdx origin box L calls (Function.update L' (superCellIdx b) l)
        { m with box := (m.box.getPreviousFrameAndRemoveLastFrame frame (superCellIdx b)).2 } (Function.update phases b
          (.loop (m.box.getPreviousFrameAndRemoveLastFrame frame (superCellIdx b)).1)) := by
  obtain ⟨⟨removed, hframes, hremoved⟩, l, hl, huntouched, hemptied⟩ := hb ▸ h.blocks b
  have hbox : (m.box.getPreviousFrameAndRemoveLastFrame frame (superCellIdx b)).2 =
      (m.box.removeLastFrame (superCellIdx b)).2 := rfl
  have hagrees : ∀ frames, Agrees calls m calls { m with box := (m.box.removeLastFrame (superCellIdx b)).2 } frames :=
    fun _ p _ => ⟨rfl, congrFun (removeLastFrame_multiMask _ _) p, rfl⟩
  refine ⟨l, hl, ?_⟩
  rw [h.linked.getPreviousFrame hl, hbox]
  refine h.update_box hinj hL (h.linked.removeLastFrame hl).2 (removeLastFrame_attributes _ _)
    (removeLastFrame_attempts _ _) (removeLastFrame_multiMask _ _) (fun c hc => Function.update_of_ne hc _ _)
    (h.linked.accounted_removeLastFrame hl) (by rw [hb]; rfl) ⟨⟨frame :: removed, ?_, fun p hp => ?_⟩, ?_⟩
  · rw [Function.update_self, hframes, hl, List.append_assoc, List.singleton_append]
  · rcases List.mem_cons.mp hp with rfl | hp
    · exact hemptied.congr (hagrees _)
    · exact (hremoved p hp).congr (hagrees _)
  · rw [Function.update_self]
    exact .inl ⟨rfl, huntouched.congr (hagrees _)⟩

theorem Bashing.finish (hinj : Function.Injective superCellIdx) (hL : Linked box L)
    (h : Bashing maxSize exchangeType superCellIdx origin box L calls L' m phases) (hb : phases b = .loop none) :
    Bashing maxSize exchangeType superCellIdx origin box L calls L'
      { m with box := m.box.setSizeLastFrame (superCellIdx b) 0 } (Function.update phases b .finished) := by
  have hagrees : ∀ frames, Agrees calls m calls { m with box := m.box.setSizeLastFrame (superCellIdx b) 0 } frames :=
    fun _ _ _ => ⟨rfl, rfl, rfl⟩
  obtain ⟨hremoved, hstands⟩ := (hb ▸ h.blocks b : BlockState box calls m _ _ (.loop none)).congr (hagrees _)
  refine h.update_box hinj hL (h.linked.congr rfl rfl (fun _ _ _ => rfl) (fun _ _ _ => rfl) h.linked.allocated) rfl
    rfl rfl (fun _ _ => rfl) id (by rw [hb]; rfl) ⟨hremoved, ?_⟩
  exact hstands.imp (fun h => List.getLast?_eq_none_iff.mp h.1.symm) fun h => h.2

omit [DecidableEq ι] in
theorem mem_senders {l removed : List Ptr} {p : Ptr} (hL : Linked box L)
    (hframes : L (superCellIdx b) = (l ++ [p]) ++ removed) (hpos : 0 < KernelBashParticles.count box p) :
    p ∈ senders superCellIdx box L ∧ p ∉ l ∧ p ∉ removed := by
  have hnd := hL.nodup (superCellIdx b)
  rw [hframes] at hnd
  obtain ⟨hnd', -, hdisjoint⟩ := List.nodup_append.mp hnd
  refine ⟨Finset.mem_filter.mpr ⟨Finset.mem_biUnion.mpr ⟨b, Finset.mem_univ b, ?_⟩, hpos⟩, fun hp => ?_, fun hp => ?_⟩
  · rw [hframes]
    simp
  · exact (List.nodup_append.mp hnd').2.2 p hp p (by simp) rfl
  · exact hdisjoint p (by simp) p hp rfl

omit [DecidableEq ι] in
theorem Bashing.overshoot_le (h : Bashing maxSize exchangeType superCellIdx origin box L calls L' m phases) (b : ι) :
    (phases b).overshoot ≤ T := by
  have hstands := (h.blocks b).stands
  cases hb : phases b with
  | push p idx n pushN =>
    rw [hb] at hstands
    obtain ⟨-, -, -, -, -, -, hn, -⟩ := hstands
    have hle := count_le box p
    cases pushN with
    | reset oldSize => exact hn.trans_le hle
    | _ => exact Nat.zero_le T
  | _ => exact Nat.zero_le T

/-- A block can ask for the particles of one frame more. -/
theorem Bashing.addFits (h : Bashing maxSize exchangeType superCellIdx origin box L calls L' m phases)
    (hfits : maxSize + Fintype.card ι * T < 2^32) (hb : (phases b).overshoot = 0) {n : ℕ} (hn : n ≤ T) :
    m.border.counters.currentSize + n < 2^32 := by
  have hcounter := h.counter_erase b
  have hsum : ∑ b' ∈ Finset.univ.erase b, (phases b').overshoot ≤ (Finset.univ.erase b).card * T :=
    Finset.sum_le_card_nsmul _ _ T fun b' _ => h.overshoot_le b'
  have hcard : (Finset.univ.erase b).card + 1 = Fintype.card ι := Finset.card_erase_add_one (Finset.mem_univ b)
  rw [← hcard, Nat.add_mul, Nat.one_mul] at hfits
  omega

theorem Bashing.push (hmax : maxSize < 2^32) (hfits : maxSize + Fintype.card ι * T < 2^32)
    (hinj : Function.Injective superCellIdx) (hL : Linked box L) (horigin : ∀ c, ∀ p ∈ L c, origin p = c)
    (h : Bashing maxSize exchangeType superCellIdx origin box L calls L' m phases) {frame : Ptr} {idx : Fin T → ℕ}
    {n : ℕ} {pushN pushN' : ExchangePush.Phase} {counters : ExchangePush.Memory (D - 1)}
    (hb : phases b = .push frame idx n pushN)
    (hstep : PushN maxSize n (reduce (superCellIdx b) exchangeType) m.border.counters pushN counters pushN') :
    Bashing maxSize exchangeType superCellIdx origin box L (Function.update calls frame pushN') L'
      { m with border := { m.border with counters := counters } }
      (Function.update phases b (.push frame idx n pushN')) := by
  obtain ⟨⟨removed, hframes, hremoved⟩, l, hl, huntouched, hmask, hcall, hpos, hn, hidx⟩ := hb ▸ h.blocks b
  rw [hl] at hframes
  have hmem : frame ∈ L (superCellIdx b) := by rw [hframes]; simp
  obtain ⟨hsender, hfrontier, hgone⟩ := mem_senders hL hframes (hn ▸ hpos)
  have hovershoot : (phases b).overshoot = overshoot n pushN := by rw [hb]; rfl
  have hagrees : ∀ frames, frame ∉ frames → Agrees calls m (Function.update calls frame pushN')
      { m with border := { m.border with counters := counters } } frames := fun frames hframe p hp =>
    ⟨Function.update_of_ne (ne_of_mem_of_not_mem hp hframe) _ _, rfl, by cases calls p <;> rfl⟩
  have hrestrict : (fun p : {p // p ∈ senders superCellIdx box L} => Function.update calls frame pushN' p) =
      Function.update (fun p : {p // p ∈ senders superCellIdx box L} => calls p) ⟨frame, hsender⟩ pushN' :=
    Function.update_comp_eq_of_injective calls Subtype.val_injective ⟨frame, hsender⟩ pushN'
  refine h.update hinj hL (h.linked.congr rfl rfl (fun _ _ _ => rfl) (fun _ _ _ => rfl) h.linked.allocated) rfl rfl
    (fun _ _ => rfl) id (fun frames hframes => hagrees frames fun hp => hframes frame hp hmem) (fun p hp => ?_) ?_
    (hstep.currentSize_le (hovershoot ▸ h.counter_erase b)) ⟨⟨removed, by rw [hl]; exact hframes, fun p hp => ?_⟩, ?_⟩
  · rw [Function.update_of_ne (ne_of_mem_of_not_mem hsender hp).symm]
    exact h.idle p hp
  · rw [hrestrict]
    refine ExchangePush.pushing_preserved hmax (fun p => count_pos p.2) ⟨frame, hsender⟩ _ _ _ _ h.pushing
      ⟨fun hphase => .inl ?_, ?_⟩
    · have hphase : calls frame = .call := hphase
      rw [hcall] at hphase
      exact h.addFits hfits (by rw [hovershoot, hphase]; rfl) (count_le box frame)
    · have horigin := horigin _ _ hmem
      dsimp only
      rwa [horigin, hcall, ← hn]
  · exact (hremoved p hp).congr (hagrees _ fun he => hgone (by rwa [List.mem_singleton.mp he]))
  · exact ⟨l, hl, huntouched.congr (hagrees l hfrontier), hmask, Function.update_self _ _ _, hpos, hn, hidx⟩

theorem Bashing.bash (hT : T ≤ 65535) (hinj : Function.Injective superCellIdx) (hL : Linked box L)
    (h : Bashing maxSize exchangeType superCellIdx origin box L calls L' m phases) {frame : Ptr} {idx : Fin T → ℕ}
    {n offset size : ℕ} {tmp : Option ℕ} (hb : phases b = .push frame idx n (.done offset size tmp))
    (order : Equiv.Perm (Fin T)) :
    Bashing maxSize exchangeType superCellIdx origin box L calls L'
      (bash order frame (tmpBorder offset size idx) m)
      (Function.update phases b (if size < n then .loop none else .remove frame)) := by
  obtain ⟨⟨removed, hframes, hremoved⟩, l, hl, huntouched, hmask, hcall, hpos, hn, order₀, rfl⟩ := hb ▸ h.blocks b
  rw [hl] at hframes
  have hmem : frame ∈ L (superCellIdx b) := by rw [hframes]; simp
  obtain ⟨hsender, hfrontier, hgone⟩ := mem_senders hL hframes (hn ▸ hpos)
  have hstage : (calls frame).stage = .granted offset size := by rw [hcall]; rfl
  have hsize : size ≤ KernelBashParticles.count box frame := by
    have hle := h.pushing.ranges.size_le ⟨frame, hsender⟩
    dsimp only at hle
    rwa [hstage] at hle
  have hagrees : ∀ frames, frame ∉ frames → Agrees calls m calls
      (KernelBashParticles.bash order frame (tmpBorder offset size (bashIdx box frame order₀)) m) frames := by
    intro frames hframe p hp
    have hne : p ≠ frame := ne_of_mem_of_not_mem hp hframe
    refine ⟨rfl, deleteParticles_multiMask_of_ne _ hne _, pushed_bash fun offset' n' tmp' hcall' => ?_⟩
    have hsender' : p ∈ senders superCellIdx box L := by
      by_contra hnot
      rw [h.idle p hnot] at hcall'
      cases hcall'
    have hdisjoint := h.pushing.ranges.disjoint ⟨frame, hsender⟩ ⟨p, hsender'⟩ fun he =>
      hne (congrArg Subtype.val he).symm
    dsimp only at hdisjoint
    rwa [hstage, hcall'] at hdisjoint
  have haccounted : Accounted box calls
      (KernelBashParticles.bash order frame (tmpBorder offset size (bashIdx box frame order₀)) m) frame :=
    ⟨hcall ▸ .inr ⟨_, _, _, rfl⟩, by
      rw [hcall]
      exact particles_bash hT hsize hmask h.attributes⟩
  have hrest := huntouched.congr (hagrees l hfrontier)
  refine h.update hinj hL (h.linked.congr rfl rfl (fun _ _ _ => rfl) (fun _ _ _ => rfl) h.linked.allocated) rfl rfl
    (fun _ _ => rfl) id (fun frames hframes => hagrees frames fun hp => hframes frame hp hmem) h.idle h.pushing ?_
    ⟨⟨removed, by rw [hl]; exact hframes, fun p hp => ?_⟩, ?_⟩
  · have hzero : (if size < n then Phase.loop none else .remove frame : Phase T).overshoot = (phases b).overshoot := by
      rw [hb]
      split <;> rfl
    rw [hzero]
    exact h.counter_erase b
  · exact (hremoved p hp).congr (hagrees _ fun he => hgone (by rwa [List.mem_singleton.mp he]))
  · split
    case isTrue hlt => exact .inr ⟨rfl, l, frame, offset, size, tmp, hl, hrest, haccounted, hcall, hn ▸ hlt⟩
    case isFalse hle => exact ⟨l, hl, hrest, haccounted, particles_bash_eq_zero hT (by omega) hmask⟩

omit [DecidableEq ι] in
theorem bashing_start (hL : Linked box L) (border : StackExchangeBuffer D α) :
    Bashing maxSize exchangeType superCellIdx origin box L (fun _ => .call) L ⟨box, border.setCurrentSize 0⟩
      (fun _ : ι => .init) where
  linked := hL
  attributes := rfl
  attempts := rfl
  others _ _ := ⟨rfl, fun _ _ => rfl⟩
  accounted := id
  idle _ _ := rfl
  pushing := ExchangePush.pushing_start
  counter := Nat.zero_le _
  blocks _ := ⟨⟨[], (List.append_nil _).symm, fun _ hp => absurd hp List.not_mem_nil⟩, fun _ _ => ⟨rfl, rfl⟩⟩

theorem Bashing.step (hT : T ≤ 65535) (hmax : maxSize < 2^32) (hfits : maxSize + Fintype.card ι * T < 2^32)
    (hinj : Function.Injective superCellIdx) (hL : Linked box L) (horigin : ∀ c, ∀ p ∈ L c, origin p = c)
    (h : Bashing maxSize exchangeType superCellIdx origin box L calls L' m phases)
    (hstep : Block maxSize exchangeType (superCellIdx b) m (phases b) m' phase) :
    ∃ calls' L'',
      Bashing maxSize exchangeType superCellIdx origin box L calls' L'' m' (Function.update phases b phase) ∧
      (∀ c, c ≠ superCellIdx b → L'' c = L' c) ∧
      phase.rank (L'' (superCellIdx b)) < (phases b).rank (L' (superCellIdx b)) := by
  generalize hb : phases b = before at hstep
  cases hstep with
  | init => exact ⟨_, _, h.init hinj hL hb, fun _ _ => rfl, by cases m.box.lastFramePtr _ <;> simp [Phase.rank]⟩
  | count order =>
    exact ⟨_, _, h.count hinj hL hb order, fun _ _ => rfl, by split <;> simp [Phase.rank, ExchangePush.rank]⟩
  | push hpush =>
    exact ⟨_, _, h.push hmax hfits hinj hL horigin hb hpush, fun _ _ => rfl, by
      have hlt := hpush.rank_lt
      simpa [Phase.rank] using hlt⟩
  | bash order =>
    exact ⟨_, _, h.bash hT hinj hL hb order, fun _ _ => rfl, by split <;> simp [Phase.rank, ExchangePush.rank]⟩
  | remove =>
    obtain ⟨l, hl, hnext⟩ := h.remove hinj hL hb
    refine ⟨calls, _, hnext, fun c hc => Function.update_of_ne hc _ _, ?_⟩
    rw [Function.update_self, hl]
    cases (m.box.getPreviousFrameAndRemoveLastFrame _ _).1 <;>
    · simp only [Phase.rank, List.length_append, List.length_singleton]
      omega
  | finish => exact ⟨_, _, h.finish hinj hL hb, fun _ _ => rfl, by simp [Phase.rank]⟩

def stepsLeft (superCellIdx : ι → DataSpace D) (L' : DataSpace D → List Ptr) (phases : ι → Phase T) : ℕ :=
  ∑ b, (phases b).rank (L' (superCellIdx b))

theorem stepsLeft_lt (hinj : Function.Injective superCellIdx) (hlists : ∀ c, c ≠ superCellIdx b → L'' c = L' c)
    (hlt : phase.rank (L'' (superCellIdx b)) < (phases b).rank (L' (superCellIdx b))) :
    stepsLeft superCellIdx L'' (Function.update phases b phase) < stepsLeft superCellIdx L' phases := by
  refine Finset.sum_lt_sum (fun b' _ => ?_) ⟨b, Finset.mem_univ b, by simpa using hlt⟩
  by_cases hb : b' = b
  · subst hb
    simpa using hlt.le
  · rw [Function.update_of_ne hb, hlists _ fun he => hb (hinj he)]

/-- A block that is not through is never stuck. -/
theorem Block.exists_step (superCellIdx : DataSpace D) (m : Memory D T α) {phase : Phase T} (h : phase ≠ .finished) :
    ∃ m' phase', Block maxSize exchangeType superCellIdx m phase m' phase' := by
  cases phase with
  | init => exact ⟨_, _, .init⟩
  | loop frame =>
    cases frame with
    | none => exact ⟨_, _, .finish⟩
    | some frame => exact ⟨_, _, .count (Equiv.refl _)⟩
  | push frame idx n pushN =>
    by_cases hdone : ExchangePush.rank pushN = 0
    · cases pushN with
      | done offset size tmp => exact ⟨_, _, .bash (Equiv.refl _)⟩
      | _ => cases hdone
    · obtain ⟨counters, pushN', hstep⟩ := PushN.exists_step m.border.counters hdone
      exact ⟨_, _, .push hstep⟩
  | remove frame => exact ⟨_, _, .remove⟩
  | finished => exact absurd rfl h

omit [DecidableEq ι] in
theorem sum_senders {A : Type*} [AddCommMonoid A] (hinj : Function.Injective superCellIdx) (hL : Linked box L)
    {f : Ptr → A} (hf : ∀ p ∉ senders superCellIdx box L, f p = 0) :
    ∑ p : {p // p ∈ senders superCellIdx box L}, f p = ∑ b, ((L (superCellIdx b)).map f).sum := by
  have hdisjoint : ∀ b ∈ (Finset.univ : Finset ι), ∀ b' ∈ (Finset.univ : Finset ι), b ≠ b' →
      Disjoint (L (superCellIdx b)).toFinset (L (superCellIdx b')).toFinset := fun b _ b' _ hne =>
    Finset.disjoint_left.mpr fun p hp hp' =>
      hne (hinj (hL.disjoint _ _ p (List.mem_toFinset.mp hp) (List.mem_toFinset.mp hp')))
  have hlist : ∀ b, ((L (superCellIdx b)).map f).sum = ∑ p ∈ (L (superCellIdx b)).toFinset, f p := fun b =>
    (List.sum_toFinset f (hL.nodup _)).symm
  simp only [hlist]
  rw [← Finset.sum_biUnion hdisjoint, Finset.sum_coe_sort (senders superCellIdx box L) f]
  refine Finset.sum_subset (Finset.filter_subset _ _) fun p _ hp => hf p hp

theorem Untouched.accounted {frames : List Ptr} (h : Untouched box calls m frames) {p : Ptr} (hp : p ∈ frames) :
    Accounted box calls m p := by
  obtain ⟨hcall, hmask⟩ := h p hp
  exact ⟨.inl hcall, by rw [hcall, hmask]; exact (zero_add _).symm⟩

theorem BlockState.accounted {frames₀ frames : List Ptr} (h : BlockState box calls m frames₀ frames .finished) {p : Ptr}
    (hp : p ∈ frames₀) : Accounted box calls m p := by
  obtain ⟨⟨removed, rfl, hremoved⟩, hstands⟩ := h
  rcases List.mem_append.mp hp with hp | hp
  · rcases hstands with rfl | ⟨l, q, offset, n, tmp, rfl, huntouched, haccounted, -⟩
    · exact absurd hp List.not_mem_nil
    · rcases List.mem_append.mp hp with hp | hp
      · exact huntouched.accounted hp
      · rwa [List.mem_singleton.mp hp]
  · exact (hremoved p hp).toAccounted

theorem contents_of_accounted (hattributes : m.box.attributes = box.attributes) {frames : List Ptr}
    (h : ∀ p ∈ frames, Accounted box calls m p) : box.contents frames 1 =
      (frames.map fun p => pushed m.border (calls p)).sum + m.box.contents frames 1 := by
  induction frames with
  | nil => rfl
  | cons p frames ih =>
    obtain ⟨hp, hframes⟩ := List.forall_mem_cons.mp h
    rw [contents_cons, contents_cons, ih hframes, hp.particles_eq, List.map_cons, List.sum_cons, hattributes]
    exact add_add_add_comm _ _ _ _

/-- What a launch has done when all blocks are through: a part of each supercell is in the stack, and it is all unless
the stack is full. -/
structure Drained (maxSize exchangeType : ℕ) (superCellIdx : ι → DataSpace D) (box : ParticlesBox D T α)
    (L : DataSpace D → List Ptr) (m : Memory D T α) (L' : DataSpace D → List Ptr) (sent : ι → Multiset α) : Prop where
  linked : Linked m.box L'
  attributes : m.box.attributes = box.attributes
  attempts : m.box.attempts = box.attempts
  others : ∀ c, (∀ b, superCellIdx b ≠ c) → L' c = L c ∧ ∀ p ∈ L c, m.box.multiMask p = box.multiMask p
  accounted : (∀ p ∈ box.allocated, ∃ c, p ∈ L c) → ∀ p ∈ m.box.allocated, ∃ c, p ∈ L' c
  contents_eq : ∀ b, box.contents (L (superCellIdx b)) 1 = sent b + m.box.contents (L' (superCellIdx b)) 1
  particles_eq : m.border.particles = ∑ b, (sent b).map (Prod.mk (reduce (superCellIdx b) exchangeType))
  wellFormed : m.border.WellFormed T
  indexSize_le : m.border.counters.indexSize ≤ maxSize
  currentSize : m.border.counters.currentSize = ∑ b, (sent b).card
  currentSize_le : m.border.counters.currentSize ≤ maxSize
  drained : m.border.counters.currentSize < maxSize → ∀ b, L' (superCellIdx b) = []

theorem pushed_eq_tile {border : StackExchangeBuffer D α} {pushN : ExchangePush.Phase} (h : Quiet pushN)
    (c : DataSpace (D - 1)) :
    pushed border pushN = border.tile ⟨c, pushN.stage.start, pushN.stage.size maxSize⟩ := by
  rcases h with rfl | ⟨offset, n, tmp, rfl⟩ <;> rfl

omit [DecidableEq ι] in
theorem Bashing.drained (hinj : Function.Injective superCellIdx) (hL : Linked box L)
    (horigin : ∀ c, ∀ p ∈ L c, origin p = c)
    (h : Bashing maxSize exchangeType superCellIdx origin box L calls L' m fun _ : ι => .finished) :
    Drained maxSize exchangeType superCellIdx box L m L' fun b =>
      ((L (superCellIdx b)).map fun p => pushed m.border (calls p)).sum := by
  have haccounted : ∀ b, ∀ p ∈ L (superCellIdx b), Accounted box calls m p := fun b p => (h.blocks b).accounted
  have hmem : ∀ p ∈ senders superCellIdx box L, ∃ b, p ∈ L (superCellIdx b) := fun p hp => by
    obtain ⟨b, -, hb⟩ := Finset.mem_biUnion.mp (Finset.mem_of_mem_filter p hp)
    exact ⟨b, List.mem_toFinset.mp hb⟩
  have hquiet : ∀ p : {p // p ∈ senders superCellIdx box L}, Quiet (calls p) := fun p => by
    obtain ⟨b, hb⟩ := hmem p p.2
    exact (haccounted b p hb).quiet
  have hzero : ∀ p ∉ senders superCellIdx box L, pushed m.border (calls p) = 0 := fun p hp => by
    rw [h.idle p hp]
    rfl
  obtain ⟨hle, htotal, hfull⟩ := h.pushing.currentSize_of_quiet hquiet
  refine ⟨h.linked, h.attributes, h.attempts, h.others, h.accounted, fun b => ?_, ?_, fun k hk => ?_,
    h.pushing.indexSize_le, ?_, hle, fun hlt b => ?_⟩
  · rw [contents_of_accounted h.attributes (haccounted b)]
    obtain ⟨removed, hframes, hremoved⟩ := (h.blocks b).removed
    have hgone : m.box.contents removed 1 = 0 := by
      rw [contents, List.sum_eq_zero]
      intro x hx
      obtain ⟨p, hp, rfl⟩ := List.mem_map.mp hx
      rw [h.attributes]
      exact (hremoved p hp).empty
    rw [hframes, contents_append, hgone, add_zero]
  · have hindex := h.pushing.sum_index hquiet
      (f := fun entry => (m.border.tile entry).map (Prod.mk entry.superCell))
      fun entry hcount => by rw [StackExchangeBuffer.tile, hcount]; rfl
    rw [StackExchangeBuffer.particles, hindex]
    have hsum := sum_senders hinj hL (A := Multiset (DataSpace (D - 1) × α))
      (f := fun p => (pushed m.border (calls p)).map (Prod.mk (reduce (origin p) exchangeType)))
      fun p hp => by rw [hzero p hp]; rfl
    refine (Finset.sum_congr rfl fun p _ => ?_).trans (hsum.trans (Finset.sum_congr rfl fun b _ => ?_))
    · rw [pushed_eq_tile (hquiet p)]
    · rw [← Multiset.coe_mapAddMonoidHom, map_list_sum, List.map_map]
      refine congrArg _ (List.map_congr_left fun p hp => ?_)
      rw [horigin _ p hp]
      rfl
  · obtain ⟨p, hentry, hsize, hinside⟩ := h.pushing.exists_entry hquiet hk
    exact ⟨_, hentry, hsize.trans (count_le box p), hinside⟩
  · have hsum := sum_senders hinj hL (f := fun p => (pushed m.border (calls p)).card)
      fun p hp => by rw [hzero p hp]; rfl
    refine htotal.symm.trans ((Finset.sum_congr rfl fun p _ => ?_).trans
      (hsum.trans (Finset.sum_congr rfl fun b _ => ?_)))
    · rw [pushed_eq_tile (hquiet p) 0, StackExchangeBuffer.tile, Multiset.card_map, Multiset.card_range]
    · exact ((map_list_sum Multiset.cardHom _).trans (by rw [List.map_map]; rfl)).symm
  · rcases (h.blocks b).stands with hnil | ⟨l, p, offset, n, tmp, hframes, -, -, hcall, hn⟩
    · exact hnil
    · have hsender : p ∈ senders superCellIdx box L := by
        by_contra hnot
        rw [h.idle p hnot] at hcall
        cases hcall
      exact absurd (hfull ⟨p, hsender⟩ offset n tmp hcall hn) hlt.ne

end Launch

end KernelBashParticles

end PIConGPU
