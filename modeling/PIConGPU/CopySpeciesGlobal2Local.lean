import PIConGPU.FixedWidth
import PIConGPU.KernelLaunch
import PIConGPU.ParticleConservation
import PIConGPU.ParticleRecords

/-!
# Loading particles from a frame on the host

A block takes as many records as it has threads from a counter that all blocks share. Threads with records of one
supercell side by side store into one frame, which the first of them, the master, gets from the heap and puts in front
of the list of the supercell. A frame is put in front in one step here; the steps that this consists of do not disturb
each other.
-/
namespace PIConGPU

open BlockThreads ParticlesBox ParticlesBase KernelLaunch

namespace CopySpeciesGlobal2Local

/-- Counter 0 hands out records, counter 1 counts loaded particles and counter 2 frames, all with 32 bits. The records
read so far are kept for the proofs. -/
structure Memory (D T : ℕ) (β : Type*) where
  box : ParticlesBox D T (Particle β)
  counter : Fin 3 → ℕ
  loaded : Multiset ℤ

/-- A block asks for work, then its masters get frames, then all threads copy. -/
inductive Phase (T : ℕ)
  | apply
  | master (hdf5ParticleOffset : ℤ) (destFramePtr : ℕ → Option Ptr) (waiting : Finset (Fin T))
  | done (hdf5ParticleOffset : ℤ)

/-- The search for the first thread of a row with the same supercell; the position to look at is the argument less
one. -/
def searchMaster (linearSuperCellIds : ℕ → ℤ) (myLinearSuperCellId : ℤ) : ℕ → ℕ
  | 0 => 0
  | masterIdx + 1 =>
    if myLinearSuperCellId ≠ linearSuperCellIds masterIdx then masterIdx + 1
    else searchMaster linearSuperCellIds myLinearSuperCellId masterIdx

variable {D : ℕ} {β : Type*}

section Threads

variable (cell : CellDescription D) (srcFrame : ℤ → Record D β) (maxParticles : ℤ)
  (localDomainCellOffset : DataSpace D) (hdf5ParticleOffset : ℤ)

def globalParticleId (t : ℕ) : ℤ := i32 (hdf5ParticleOffset + t)

def hasValidParticle (t : ℕ) : Bool := decide (globalParticleId hdf5ParticleOffset t < maxParticles)

def linearSuperCellIds (t : ℕ) : ℤ :=
  if hasValidParticle maxParticles hdf5ParticleOffset t then
    cell.linearSuperCellId localDomainCellOffset (srcFrame (globalParticleId hdf5ParticleOffset t))
  else -1

def masterIdx (t : ℕ) : ℕ :=
  searchMaster (linearSuperCellIds cell srcFrame maxParticles localDomainCellOffset hdf5ParticleOffset)
    (linearSuperCellIds cell srcFrame maxParticles localDomainCellOffset hdf5ParticleOffset t) t

def threadTarget (t : ℕ) : DataSpace D :=
  cell.target localDomainCellOffset (srcFrame (globalParticleId hdf5ParticleOffset t))

def threadParticle (t : ℕ) : Particle β :=
  cell.toParticle localDomainCellOffset (srcFrame (globalParticleId hdf5ParticleOffset t))

def validThreads : Finset (Fin cell.cellsInSuperCell) :=
  Finset.univ.filter fun t => hasValidParticle maxParticles hdf5ParticleOffset t = true

def masters : Finset (Fin cell.cellsInSuperCell) :=
  (validThreads cell maxParticles hdf5ParticleOffset).filter fun t =>
    masterIdx cell srcFrame maxParticles localDomainCellOffset hdf5ParticleOffset t = t

def destSlot (destFramePtr : ℕ → Option Ptr) (t : Fin cell.cellsInSuperCell) : Option (Ptr × Fin cell.cellsInSuperCell) :=
  if hasValidParticle maxParticles hdf5ParticleOffset t then
    (destFramePtr (masterIdx cell srcFrame maxParticles localDomainCellOffset hdf5ParticleOffset t)).map fun p => (p, t)
  else none

def blockIds : Multiset ℤ :=
  (validThreads cell maxParticles hdf5ParticleOffset).val.map fun t : Fin cell.cellsInSuperCell =>
    globalParticleId hdf5ParticleOffset t

variable (M : MallocMC)

/-- A step of a block. The null pointer is never used as a frame. -/
inductive Block : Memory D cell.cellsInSuperCell β → Phase cell.cellsInSuperCell →
    Memory D cell.cellsInSuperCell β → Phase cell.cellsInSuperCell → Prop
  | apply {m : Memory D cell.cellsInSuperCell β} :
    Block m .apply { m with counter := Function.update m.counter 0 ((m.counter 0 + cell.cellsInSuperCell) % 2^32) }
      (.master (i32 (m.counter 0)) (fun _ => none)
        (masters cell srcFrame maxParticles localDomainCellOffset (i32 (m.counter 0))))
  | getFrame {m : Memory D cell.cellsInSuperCell β} {offset : ℤ} {destFramePtr : ℕ → Option Ptr}
    {waiting : Finset (Fin cell.cellsInSuperCell)} {t : Fin cell.cellsInSuperCell} {tmpFrame : Ptr}
    {box : ParticlesBox D cell.cellsInSuperCell (Particle β)} (ht : t ∈ waiting)
    (hframe : m.box.getEmptyFrame M = (some tmpFrame, box)) :
    Block m (.master offset destFramePtr waiting)
      { m with
        box := box.setAsFirstFrame tmpFrame (threadTarget cell srcFrame localDomainCellOffset offset t)
        counter := Function.update m.counter 2 ((m.counter 2 + 1) % 2^32) }
      (.master offset (Function.update destFramePtr t (some tmpFrame)) (waiting.erase t))
  | copy {m : Memory D cell.cellsInSuperCell β} {offset : ℤ} {destFramePtr : ℕ → Option Ptr}
    {σ : Equiv.Perm (Fin cell.cellsInSuperCell)}
    (hframes : ∀ t ∈ validThreads cell maxParticles offset,
      (destFramePtr (masterIdx cell srcFrame maxParticles localDomainCellOffset offset t)).isSome = true) :
    Block m (.master offset destFramePtr ∅)
      { box := m.box.store (threadOrder σ)
          (destSlot cell srcFrame maxParticles localDomainCellOffset offset destFramePtr)
          fun t => threadParticle cell srcFrame localDomainCellOffset offset t
        counter := Function.update m.counter 1
          ((m.counter 1 + (validThreads cell maxParticles offset).card) % 2^32)
        loaded := m.loaded + blockIds cell maxParticles offset }
      (.done offset)

def Launched (n : ℕ) (m m' : Memory D cell.cellsInSuperCell β) : Prop :=
  ∃ offsets : Fin n → ℤ,
    Run (fun _ : Fin n => Block cell srcFrame maxParticles localDomainCellOffset M) (m, fun _ => .apply)
      (m', fun b => .done (offsets b))

end Threads

section Master

theorem searchMaster_spec (ids : ℕ → ℤ) (my : ℤ) (n : ℕ) :
    searchMaster ids my n ≤ n ∧ (∀ i, searchMaster ids my n ≤ i → i < n → ids i = my) ∧
      (searchMaster ids my n = 0 ∨ ids (searchMaster ids my n - 1) ≠ my) := by
  induction n with
  | zero => exact ⟨le_rfl, fun i _ hi => absurd hi (Nat.not_lt_zero i), .inl rfl⟩
  | succ n ih =>
    obtain ⟨hle, hrow, hfirst⟩ := ih
    unfold searchMaster
    by_cases hne : my ≠ ids n
    · rw [if_pos hne]
      exact ⟨le_rfl, fun i h1 h2 => by omega, .inr hne.symm⟩
    · rw [if_neg hne]
      refine ⟨hle.trans (Nat.le_succ n), fun i h1 h2 => ?_, hfirst⟩
      rcases Nat.lt_succ_iff_lt_or_eq.mp h2 with hi | rfl
      · exact hrow i h1 hi
      · exact (not_not.mp hne).symm

theorem searchMaster_eq_self {ids : ℕ → ℤ} {my : ℤ} {n : ℕ} (h : n = 0 ∨ ids (n - 1) ≠ my) :
    searchMaster ids my n = n := by
  cases n with
  | zero => rfl
  | succ n => exact if_pos (h.resolve_left (Nat.succ_ne_zero n)).symm

variable {cell : CellDescription D} {srcFrame : ℤ → Record D β} {maxParticles : ℤ} {localDomainCellOffset : DataSpace D}
  {offset : ℤ}

/-- The master of a thread has a record of the same supercell and is a master. -/
theorem masterIdx_spec (t : ℕ) :
    masterIdx cell srcFrame maxParticles localDomainCellOffset offset t ≤ t ∧
      linearSuperCellIds cell srcFrame maxParticles localDomainCellOffset offset
          (masterIdx cell srcFrame maxParticles localDomainCellOffset offset t) =
        linearSuperCellIds cell srcFrame maxParticles localDomainCellOffset offset t ∧
      masterIdx cell srcFrame maxParticles localDomainCellOffset offset
          (masterIdx cell srcFrame maxParticles localDomainCellOffset offset t) =
        masterIdx cell srcFrame maxParticles localDomainCellOffset offset t := by
  set ids := linearSuperCellIds cell srcFrame maxParticles localDomainCellOffset offset with hids
  obtain ⟨hle, hrow, hfirst⟩ := searchMaster_spec ids (ids t) t
  have hid : ids (searchMaster ids (ids t) t) = ids t := by
    rcases Nat.lt_or_eq_of_le hle with hlt | heq
    · exact hrow _ le_rfl hlt
    · rw [heq]
  refine ⟨hle, hid, ?_⟩
  change searchMaster ids (ids (searchMaster ids (ids t) t)) (searchMaster ids (ids t) t) = _
  rw [hid]
  exact searchMaster_eq_self hfirst

end Master

section Frames

variable {T : ℕ} {α : Type*} {r : ℕ} {A : DataSpace D → Multiset α} {box box' : ParticlesBox D T α}
  {L : DataSpace D → List Ptr} {p : Ptr}

/-- Memory with the given particles in the supercells, none of them marked. -/
def Holds (r : ℕ) (A : DataSpace D → Multiset α) (box : ParticlesBox D T α) (L : DataSpace D → List Ptr) : Prop :=
  State r (fun c m => if m = 1 then A c else 0) Set.univ ∅ box L

theorem Holds.contents_one (h : Holds r A box L) (c : DataSpace D) : box.contents (L c) 1 = A c :=
  (h.contents_eq c 1 le_rfl).trans (if_pos rfl)

theorem Holds.contents_marked (h : Holds r A box L) (c : DataSpace D) {m : ℕ} (hm : 2 ≤ m) :
    box.contents (L c) m = 0 :=
  (h.contents_eq c m (by omega)).trans (if_neg (by omega))

theorem Holds.prepend (h : Holds r A box L) (halloc : Allocation box (some p) box')
    (hr : (box'.attempts + 12) % maxTries = r) (c : DataSpace D) :
    Holds r A (box'.setAsFirstFrame p c) (Function.update L c (p :: L c)) := by
  obtain ⟨hfree, hp, hempty⟩ := halloc.fresh p rfl
  have hnot : ∀ s, p ∉ L s := fun s hs => hfree (h.linked.allocated s p hs)
  have hcontents : ∀ s m, (box'.setAsFirstFrame p c).contents (L s) m = box.contents (L s) m := fun s m => by
    refine contents_congr (fun q hq => ?_) fun q hq => ?_
    · rw [setAsFirstFrame_multiMask, halloc.multiMask q (h.linked.allocated s q hq)]
    · rw [setAsFirstFrame_attributes, halloc.attributes]
  refine ⟨(halloc.linked h.linked).setAsFirstFrame hnot hp c, by rw [setAsFirstFrame_attempts]; exact hr,
    fun s => ?_, fun s m hm => ?_, fun s m hm hne => absurd (if_neg (by omega)) hne,
    fun s hs => absurd (Set.mem_univ s) hs, fun s hs => absurd hs (Set.notMem_empty s)⟩
  · rw [setAsFirstFrame_sizeLastFrame, halloc.sizeLastFrame]
    exact h.size_le s
  · rw [← h.contents_eq s m hm]
    by_cases hs : s = c
    · subst hs
      have hzero : FrameContents.particles ((box'.setAsFirstFrame p s).multiMask p)
          ((box'.setAsFirstFrame p s).attributes p) m = 0 := by
        refine FrameContents.particles_eq_zero _ fun i => ?_
        rw [setAsFirstFrame_multiMask, hempty]
        exact (Nat.lt_of_lt_of_le Nat.zero_lt_one hm).ne
      rw [Function.update_self, contents_cons, hzero, zero_add, hcontents]
    · rw [Function.update_of_ne hs, hcontents]

theorem Holds.store (h : Holds r A box L) {threads : List (Fin T)} {dest : Fin T → Option (Ptr × Fin T)}
    (value : Fin T → α) (hall : ∀ t, t ∈ threads) (hinj : ∀ t t' a, dest t = some a → dest t' = some a → t = t')
    (hfree : ∀ q t i, dest t = some (q, i) → box.multiMask q i = 0) :
    Holds r (fun c => A c + (Finset.univ.filter fun t => ∃ q ∈ L c, ∃ i, dest t = some (q, i)).val.map value)
      (box.store threads dest value) L := by
  refine ⟨h.linked.congr rfl rfl (fun _ _ _ => rfl) (fun _ _ _ => rfl) h.linked.allocated, h.attempts, h.size_le,
    fun c m hm => ?_, fun s m hm hne => absurd (if_neg (by omega)) hne, fun s hs => absurd (Set.mem_univ s) hs,
    fun s hs => absurd hs (Set.notMem_empty s)⟩
  rcases Nat.eq_or_lt_of_le hm with rfl | hm2
  · rw [if_pos rfl, contents_store value hall hinj (h.linked.nodup c) fun q _ => hfree q, h.contents_one]
  · rw [if_neg (by omega), contents_store_of_ne value hall hinj hm2 fun q _ => hfree q, h.contents_marked c hm2]

end Frames

section Invariant

variable {ι : Type*} [Fintype ι] [DecidableEq ι] (cell : CellDescription D) (srcFrame : ℤ → Record D β)
  (maxParticles : ℤ) (localDomainCellOffset : DataSpace D) {r : ℕ}

def blockParticles (offset : ℤ) (c : DataSpace D) : Multiset (Particle β) :=
  ((validThreads cell maxParticles offset).filter fun t : Fin cell.cellsInSuperCell =>
      threadTarget cell srcFrame localDomainCellOffset offset
        (masterIdx cell srcFrame maxParticles localDomainCellOffset offset t) = c).val.map
    fun t : Fin cell.cellsInSuperCell => threadParticle cell srcFrame localDomainCellOffset offset t

variable {T : ℕ}

def offsetOf : Phase T → Multiset ℤ
  | .apply => 0
  | .master offset _ _ => {offset}
  | .done offset => {offset}

def doneIds : Phase cell.cellsInSuperCell → Multiset ℤ
  | .done offset => blockIds cell maxParticles offset
  | _ => 0

def doneParticles (c : DataSpace D) : Phase cell.cellsInSuperCell → Multiset (Particle β)
  | .done offset => blockParticles cell srcFrame maxParticles localDomainCellOffset offset c
  | _ => 0

def held : Phase T → ℕ → Option Ptr
  | .master _ destFramePtr _, t => destFramePtr t
  | _, _ => none

/-- The offset that the counter hands out when `k` blocks have asked before. -/
def offsetAt (k : ℕ) : ℤ := i32 ((cell.cellsInSuperCell * k % 2^32 : ℕ) : ℤ)

/-- A block between its steps: its frames are empty and in the supercells of their masters. -/
structure BlockHolds (box : ParticlesBox D cell.cellsInSuperCell (Particle β)) (L : DataSpace D → List Ptr) (offset : ℤ)
    (destFramePtr : ℕ → Option Ptr) (waiting : Finset (Fin cell.cellsInSuperCell)) : Prop where
  frames : ∀ t p, destFramePtr t = some p →
    p ∈ L (threadTarget cell srcFrame localDomainCellOffset offset t) ∧ box.multiMask p = fun _ => 0
  served : ∀ t ∈ masters cell srcFrame maxParticles localDomainCellOffset offset, t ∉ waiting →
    (destFramePtr t).isSome = true

/-- A launch that began after `k₀` blocks had asked for work, with the particles `A` and the records `loaded`. -/
structure Loading (r k₀ : ℕ) (A : DataSpace D → Multiset (Particle β)) (loaded : Multiset ℤ)
    (s : Memory D cell.cellsInSuperCell β × (ι → Phase cell.cellsInSuperCell)) (L : DataSpace D → List Ptr) : Prop where
  holds : Holds r
    (fun c => A c + ∑ b, doneParticles cell srcFrame maxParticles localDomainCellOffset c (s.2 b)) s.1.box L
  offsets : ∃ k, s.1.counter 0 = cell.cellsInSuperCell * (k₀ + k) % 2^32 ∧
    ∑ b, offsetOf (s.2 b) = (Multiset.range k).map fun j => offsetAt cell (k₀ + j)
  counted : s.1.counter 1 = s.1.loaded.card % 2^32
  loaded : s.1.loaded = loaded + ∑ b, doneIds cell maxParticles (s.2 b)
  blocks : ∀ b offset destFramePtr waiting, s.2 b = .master offset destFramePtr waiting →
    BlockHolds cell srcFrame maxParticles localDomainCellOffset s.1.box L offset destFramePtr waiting
  distinct : ∀ b b' t t' p, held (s.2 b) t = some p → held (s.2 b') t' = some p → b = b' ∧ t = t'

end Invariant

section Steps

variable {ι : Type*} [Fintype ι] [DecidableEq ι] {cell : CellDescription D} {srcFrame : ℤ → Record D β}
  {maxParticles : ℤ} {localDomainCellOffset : DataSpace D} {r k₀ : ℕ} {A : DataSpace D → Multiset (Particle β)}
  {loaded : Multiset ℤ} {m : Memory D cell.cellsInSuperCell β} {phases : ι → Phase cell.cellsInSuperCell}
  {L : DataSpace D → List Ptr} {b : ι}

omit [Fintype ι] in
theorem update_cases {phase : Phase cell.cellsInSuperCell} {P : ι → Phase cell.cellsInSuperCell → Prop}
    (hself : P b phase) (hother : ∀ b' ≠ b, P b' (phases b')) (b' : ι) : P b' (Function.update phases b phase b') := by
  by_cases hb : b' = b
  · subst hb
    rwa [Function.update_self]
  · rw [Function.update_of_ne hb]
    exact hother b' hb

theorem Loading.apply (h : Loading cell srcFrame maxParticles localDomainCellOffset r k₀ A loaded (m, phases) L)
    (hphase : phases b = .apply) :
    Loading cell srcFrame maxParticles localDomainCellOffset r k₀ A loaded
      ({ m with counter := Function.update m.counter 0 ((m.counter 0 + cell.cellsInSuperCell) % 2^32) },
        Function.update phases b (.master (i32 (m.counter 0)) (fun _ => none)
          (masters cell srcFrame maxParticles localDomainCellOffset (i32 (m.counter 0))))) L := by
  obtain ⟨k, hcounter, hoffsets⟩ := h.offsets
  have hheld : ∀ b' t, held (Function.update phases b (.master (i32 (m.counter 0)) (fun _ => none)
      (masters cell srcFrame maxParticles localDomainCellOffset (i32 (m.counter 0)))) b') t = held (phases b') t :=
    update_cases (P := fun b' phase => ∀ t, held phase t = held (phases b') t)
      (fun t => by rw [hphase]; rfl) fun _ _ _ => rfl
  refine ⟨?_, ⟨k + 1, ?_, ?_⟩, ?_, ?_, fun b' => ?_, fun b₁ b₂ t₁ t₂ p h₁ h₂ => ?_⟩
  · convert h.holds using 3 with c
    rw [sum_update_add (a := 0), add_zero]
    rw [hphase]
    rfl
  · dsimp only at hcounter ⊢
    rw [Function.update_self, hcounter, Nat.mod_add_mod, ← Nat.mul_succ]
    rfl
  · dsimp only at hcounter hoffsets ⊢
    rw [sum_update_add (a := {i32 (m.counter 0)}), hoffsets, Multiset.range_succ, Multiset.map_cons, hcounter,
      ← Multiset.singleton_add, add_comm]
    · rfl
    · rw [hphase]
      rfl
  · dsimp only
    rw [Function.update_of_ne (by decide)]
    exact h.counted
  · rw [sum_update_add (a := 0), add_zero]
    · exact h.loaded
    · rw [hphase]
      rfl
  · refine update_cases (P := fun _ phase => ∀ offset destFramePtr waiting,
      phase = .master offset destFramePtr waiting → BlockHolds cell srcFrame maxParticles localDomainCellOffset m.box L
        offset destFramePtr waiting) ?_ (fun b' _ => h.blocks b') b'
    intro offset destFramePtr waiting he
    obtain ⟨rfl, rfl, rfl⟩ := Phase.master.inj he
    exact ⟨fun t p hp => by simp at hp, fun t ht hnot => absurd ht hnot⟩
  · exact h.distinct b₁ b₂ t₁ t₂ p ((hheld b₁ t₁).symm.trans h₁) ((hheld b₂ t₂).symm.trans h₂)

omit [Fintype ι] [DecidableEq ι] in
theorem held_eq_some {phase : Phase cell.cellsInSuperCell} {t : ℕ} {p : Ptr} (h : held phase t = some p) :
    ∃ offset destFramePtr waiting, phase = .master offset destFramePtr waiting ∧ destFramePtr t = some p := by
  cases phase with
  | master offset destFramePtr waiting => exact ⟨offset, destFramePtr, waiting, rfl, h⟩
  | apply => simp [held] at h
  | done offset => simp [held] at h

omit [DecidableEq ι] in
theorem Loading.held_allocated
    (h : Loading cell srcFrame maxParticles localDomainCellOffset r k₀ A loaded (m, phases) L) {t : ℕ} {p : Ptr}
    (hp : held (phases b) t = some p) : p ∈ m.box.allocated := by
  obtain ⟨offset, destFramePtr, waiting, hphase, hdest⟩ := held_eq_some hp
  exact h.holds.linked.allocated _ p ((h.blocks b _ _ _ hphase).frames t p hdest).1

theorem Loading.getFrame (h : Loading cell srcFrame maxParticles localDomainCellOffset r k₀ A loaded (m, phases) L)
    {offset : ℤ} {destFramePtr : ℕ → Option Ptr} {waiting : Finset (Fin cell.cellsInSuperCell)}
    (hphase : phases b = .master offset destFramePtr waiting) {t : Fin cell.cellsInSuperCell} {p : Ptr}
    {box : ParticlesBox D cell.cellsInSuperCell (Particle β)} (halloc : Allocation m.box (some p) box)
    (hr : (box.attempts + 12) % maxTries = r) :
    Loading cell srcFrame maxParticles localDomainCellOffset r k₀ A loaded
      ({ m with
          box := box.setAsFirstFrame p (threadTarget cell srcFrame localDomainCellOffset offset t)
          counter := Function.update m.counter 2 ((m.counter 2 + 1) % 2^32) },
        Function.update phases b (.master offset (Function.update destFramePtr t (some p)) (waiting.erase t)))
      (Function.update L (threadTarget cell srcFrame localDomainCellOffset offset t)
        (p :: L (threadTarget cell srcFrame localDomainCellOffset offset t))) := by
  set c := threadTarget cell srcFrame localDomainCellOffset offset t with hc
  obtain ⟨hfree, -, hempty⟩ := halloc.fresh p rfl
  have hsub : ∀ s q, q ∈ L s → q ∈ Function.update L c (p :: L c) s := fun s q hq => by
    by_cases hs : s = c
    · subst hs
      rw [Function.update_self]
      exact List.mem_cons_of_mem _ hq
    · rwa [Function.update_of_ne hs]
  have hframe : ∀ s q, q ∈ L s → m.box.multiMask q = (fun _ => 0) →
      q ∈ Function.update L c (p :: L c) s ∧ (box.setAsFirstFrame p c).multiMask q = fun _ => 0 := fun s q hq hmask =>
    ⟨hsub s q hq, by rw [setAsFirstFrame_multiMask, halloc.multiMask q (h.holds.linked.allocated s q hq), hmask]⟩
  have hheld : ∀ b' t' q, held (Function.update phases b
      (.master offset (Function.update destFramePtr t (some p)) (waiting.erase t)) b') t' = some q →
      (b' = b ∧ t' = t ∧ q = p) ∨ held (phases b') t' = some q := by
    refine fun b' => update_cases (P := fun b' phase => ∀ t' q, held phase t' = some q →
      (b' = b ∧ t' = t ∧ q = p) ∨ held (phases b') t' = some q) (fun t' q hq => ?_) (fun _ _ _ _ => .inr) b'
    by_cases ht : t' = t
    · subst ht
      simp only [held, Function.update_self, Option.some_inj] at hq
      exact .inl ⟨rfl, rfl, hq.symm⟩
    · simp only [held, Function.update_of_ne ht] at hq
      exact .inr (by rw [hphase]; exact hq)
  obtain ⟨k, hcounter, hoffsets⟩ := h.offsets
  refine ⟨?_, ⟨k, ?_, ?_⟩, ?_, ?_, fun b' => ?_, fun b₁ b₂ t₁ t₂ q h₁ h₂ => ?_⟩
  · convert h.holds.prepend halloc hr c using 3 with c'
    rw [sum_update_add (a := 0), add_zero]
    rw [hphase]
    rfl
  · dsimp only
    rw [Function.update_of_ne (by decide)]
    exact hcounter
  · rw [sum_update_add (a := 0), add_zero]
    · exact hoffsets
    · rw [hphase]
      rfl
  · dsimp only
    rw [Function.update_of_ne (by decide)]
    exact h.counted
  · rw [sum_update_add (a := 0), add_zero]
    · exact h.loaded
    · rw [hphase]
      rfl
  · refine update_cases (P := fun _ phase => ∀ offset destFramePtr waiting,
      phase = .master offset destFramePtr waiting → BlockHolds cell srcFrame maxParticles localDomainCellOffset
        (box.setAsFirstFrame p c) (Function.update L c (p :: L c)) offset destFramePtr waiting) ?_ (fun b' _ => ?_) b'
    · intro offset' destFramePtr' waiting' he
      obtain ⟨rfl, rfl, rfl⟩ := Phase.master.inj he
      obtain ⟨hframes, hserved⟩ := h.blocks b _ _ _ hphase
      refine ⟨fun t' q hq => ?_, fun t' ht' hnot => ?_⟩
      · by_cases ht : t' = t
        · subst ht
          rw [Function.update_self, Option.some_inj] at hq
          subst hq
          rw [← hc, Function.update_self, setAsFirstFrame_multiMask]
          exact ⟨List.mem_cons_self .., hempty⟩
        · rw [Function.update_of_ne ht] at hq
          exact hframe _ q (hframes t' q hq).1 (hframes t' q hq).2
      · by_cases ht : t' = t
        · rw [ht, Function.update_self]
          rfl
        · rw [Function.update_of_ne (Fin.val_injective.ne ht)]
          exact hserved t' ht' fun hmem => hnot (Finset.mem_erase.mpr ⟨ht, hmem⟩)
    · intro offset' destFramePtr' waiting' he
      obtain ⟨hframes, hserved⟩ := h.blocks b' _ _ _ he
      exact ⟨fun t' q hq => hframe _ q (hframes t' q hq).1 (hframes t' q hq).2, hserved⟩
  · rcases hheld b₁ t₁ q h₁ with ⟨rfl, rfl, rfl⟩ | h₁' <;> rcases hheld b₂ t₂ q h₂ with ⟨rfl, rfl, he⟩ | h₂'
    · exact ⟨rfl, rfl⟩
    · exact absurd (h.held_allocated h₂') hfree
    · exact absurd (he ▸ h.held_allocated h₁') hfree
    · exact h.distinct b₁ b₂ t₁ t₂ q h₁' h₂'

theorem Loading.copy (h : Loading cell srcFrame maxParticles localDomainCellOffset r k₀ A loaded (m, phases) L)
    {offset : ℤ} {destFramePtr : ℕ → Option Ptr} (hphase : phases b = .master offset destFramePtr ∅)
    (hframes : ∀ t ∈ validThreads cell maxParticles offset,
      (destFramePtr (masterIdx cell srcFrame maxParticles localDomainCellOffset offset t)).isSome = true)
    (σ : Equiv.Perm (Fin cell.cellsInSuperCell)) :
    Loading cell srcFrame maxParticles localDomainCellOffset r k₀ A loaded
      ({ box := m.box.store (threadOrder σ)
            (destSlot cell srcFrame maxParticles localDomainCellOffset offset destFramePtr)
            fun t => threadParticle cell srcFrame localDomainCellOffset offset t
         counter := Function.update m.counter 1
            ((m.counter 1 + (validThreads cell maxParticles offset).card) % 2^32)
         loaded := m.loaded + blockIds cell maxParticles offset },
        Function.update phases b (.done offset)) L := by
  set dest := destSlot cell srcFrame maxParticles localDomainCellOffset offset destFramePtr with hdest
  have hslot : ∀ t q i, dest t = some (q, i) ↔ t ∈ validThreads cell maxParticles offset ∧ t = i ∧
      destFramePtr (masterIdx cell srcFrame maxParticles localDomainCellOffset offset t) = some q := fun t q i => by
    simp only [hdest, destSlot, validThreads, Finset.mem_filter, Finset.mem_univ, true_and]
    split
    case isTrue hvalid =>
      simp only [hvalid, Option.map_eq_some_iff, Prod.mk.injEq, true_and]
      constructor
      · rintro ⟨q', hq', rfl, rfl⟩
        exact ⟨rfl, hq'⟩
      · rintro ⟨rfl, hq'⟩
        exact ⟨q, hq', rfl, rfl⟩
    case isFalse hvalid => simp [hvalid]
  have hheld : ∀ {t q i}, dest t = some (q, i) →
      held (phases b) (masterIdx cell srcFrame maxParticles localDomainCellOffset offset t) = some q := fun {t q i} hq => by
    rw [hphase]
    exact ((hslot t q i).mp hq).2.2
  have hblock := h.blocks b _ _ _ hphase
  have hinj : ∀ t t' a, dest t = some a → dest t' = some a → t = t' := fun t t' a ht ht' =>
    ((hslot t a.1 a.2).mp ht).2.1.trans ((hslot t' a.1 a.2).mp ht').2.1.symm
  have hfree : ∀ q t i, dest t = some (q, i) → m.box.multiMask q i = 0 := fun q t i hq =>
    congrFun (hblock.frames _ q ((hslot t q i).mp hq).2.2).2 i
  have hthreads : ∀ c, (Finset.univ.filter fun t => ∃ q ∈ L c, ∃ i, dest t = some (q, i)) =
      (validThreads cell maxParticles offset).filter fun t : Fin cell.cellsInSuperCell =>
        threadTarget cell srcFrame localDomainCellOffset offset
          (masterIdx cell srcFrame maxParticles localDomainCellOffset offset t) = c := fun c => by
    ext t
    simp only [Finset.mem_filter, Finset.mem_univ, true_and]
    constructor
    · rintro ⟨q, hq, i, hi⟩
      obtain ⟨hvalid, -, hp⟩ := (hslot t q i).mp hi
      exact ⟨hvalid, h.holds.linked.disjoint _ _ q (hblock.frames _ q hp).1 hq⟩
    · rintro ⟨hvalid, rfl⟩
      obtain ⟨q, hq⟩ := Option.isSome_iff_exists.mp (hframes t hvalid)
      exact ⟨q, (hblock.frames _ q hq).1, t, (hslot t q t).mpr ⟨hvalid, rfl, hq⟩⟩
  have hheld' : ∀ b' t, held (Function.update phases b (.done offset) b') t ≠ none →
      b' ≠ b ∧ held (Function.update phases b (.done offset) b') t = held (phases b') t := fun b' t hne => by
    by_cases hb : b' = b
    · subst hb
      simp [held] at hne
    · exact ⟨hb, by rw [Function.update_of_ne hb]⟩
  obtain ⟨k, hcounter, hoffsets⟩ := h.offsets
  refine ⟨?_, ⟨k, ?_, ?_⟩, ?_, ?_, fun b' offset' destFramePtr' waiting' he => ?_, fun b₁ b₂ t₁ t₂ q h₁ h₂ => ?_⟩
  · convert h.holds.store _ (mem_threadOrder σ) hinj hfree using 1
    funext c
    rw [sum_update_add (a := blockParticles cell srcFrame maxParticles localDomainCellOffset offset c), ← add_assoc,
      hthreads]
    · rfl
    · rw [hphase]
      exact (zero_add _).symm
  · dsimp only
    rw [Function.update_of_ne (by decide)]
    exact hcounter
  · rw [sum_update_add (a := 0), add_zero]
    · exact hoffsets
    · rw [hphase]
      rfl
  · have hcounted := h.counted
    dsimp only at hcounted ⊢
    rw [Function.update_self, hcounted, Nat.mod_add_mod, Multiset.card_add, blockIds, Multiset.card_map, Finset.card_val]
  · have hloaded := h.loaded
    dsimp only at hloaded ⊢
    rw [sum_update_add (a := blockIds cell maxParticles offset), hloaded, add_assoc]
    rw [hphase]
    exact (zero_add _).symm
  · by_cases hb : b' = b
    · subst hb
      simp at he
    · have he' : phases b' = .master offset' destFramePtr' waiting' := by simpa [Function.update_of_ne hb] using he
      obtain ⟨hframes', hserved⟩ := h.blocks b' _ _ _ he'
      refine ⟨fun t q hq => ⟨(hframes' t q hq).1, ?_⟩, hserved⟩
      dsimp only
      rw [store_multiMask_frame _ _ fun t' i hi => ?_]
      · exact (hframes' t q hq).2
      · exact hb (h.distinct b' b t _ q ((congrArg (held · t) he').trans hq) (hheld hi)).1
  · obtain ⟨-, he₁⟩ := hheld' b₁ t₁ (by rw [h₁]; simp)
    obtain ⟨-, he₂⟩ := hheld' b₂ t₂ (by rw [h₂]; simp)
    exact h.distinct b₁ b₂ t₁ t₂ q (he₁.symm.trans h₁) (he₂.symm.trans h₂)

end Steps

section Launch

variable {ι : Type*} [Fintype ι] [DecidableEq ι] {cell : CellDescription D} {srcFrame : ℤ → Record D β}
  {maxParticles : ℤ} {localDomainCellOffset : DataSpace D} {r k₀ n : ℕ} {A : DataSpace D → Multiset (Particle β)}
  {loaded : Multiset ℤ} {m m' : Memory D cell.cellsInSuperCell β} {L : DataSpace D → List Ptr} {M : MallocMC}

omit [DecidableEq ι] in
/-- A sum over the blocks in the order in which they asked for work. -/
theorem sum_offsets {B : Type*} [AddCommMonoid B] {g : ℕ → ℤ} {offset : ι → ℤ} {k : ℕ}
    (h : ∑ b, ({offset b} : Multiset ℤ) = (Multiset.range k).map g) (f : ℤ → B) :
    ∑ b, f (offset b) = ∑ j ∈ Finset.range k, f (g j) := by
  have hsum : ∑ b, ({offset b} : Multiset ℤ) = Finset.univ.val.map offset := by
    rw [Finset.sum, ← Multiset.sum_map_singleton (Finset.univ.val.map offset), Multiset.map_map]
    rfl
  have hf := congrArg (fun s => (s.map f).sum) (hsum.symm.trans h)
  rw [Multiset.map_map, Multiset.map_map] at hf
  exact hf

theorem loading_preserved (hM : MallocMC.Serves M r) :
    Preserved (fun _ : ι => Block cell srcFrame maxParticles localDomainCellOffset M)
      fun s => ∃ L, Loading cell srcFrame maxParticles localDomainCellOffset r k₀ A loaded s L := by
  rintro b m m' phases phase ⟨L, h⟩ hblock
  generalize hphase : phases b = before at hblock
  cases hblock with
  | apply => exact ⟨L, h.apply hphase⟩
  | @getFrame offset destFramePtr waiting t p box ht hframe =>
    obtain ⟨p', box', heq, halloc, hr, -⟩ := getEmptyFrame_spec hM h.holds.attempts
    obtain ⟨rfl, rfl⟩ : p' = p ∧ box' = box := by simpa using heq.symm.trans hframe
    exact ⟨_, h.getFrame hphase halloc hr⟩
  | @copy offset destFramePtr σ hframes => exact ⟨L, h.copy hphase hframes σ⟩

omit [DecidableEq ι] in
theorem loading_start (h : Holds r A m.box L) (hcounter : m.counter 0 = cell.cellsInSuperCell * k₀ % 2^32)
    (hcounted : m.counter 1 = m.loaded.card % 2^32) :
    Loading cell srcFrame maxParticles localDomainCellOffset r k₀ A m.loaded (m, fun _ : ι => .apply) L where
  holds := by
    convert h using 1
    funext c
    exact (congrArg (A c + ·) (Finset.sum_eq_zero fun _ _ => rfl)).trans (add_zero _)
  offsets := ⟨0, hcounter, Finset.sum_eq_zero fun _ _ => rfl⟩
  counted := hcounted
  loaded := ((congrArg (m.loaded + ·) (Finset.sum_eq_zero fun _ _ => rfl)).trans (add_zero _)).symm
  blocks b offset destFramePtr waiting hphase := by cases hphase
  distinct b b' t t' p hp := by cases hp

theorem Launched.spec (hM : MallocMC.Serves M r) (h : Holds r A m.box L)
    (hcounter : m.counter 0 = cell.cellsInSuperCell * k₀ % 2^32) (hcounted : m.counter 1 = m.loaded.card % 2^32)
    (hl : Launched cell srcFrame maxParticles localDomainCellOffset M n m m') :
    (∃ L', Holds r (fun c => A c + ∑ j ∈ Finset.range n,
        blockParticles cell srcFrame maxParticles localDomainCellOffset (offsetAt cell (k₀ + j)) c) m'.box L') ∧
      m'.counter 0 = cell.cellsInSuperCell * (k₀ + n) % 2^32 ∧ m'.counter 1 = m'.loaded.card % 2^32 ∧
      m'.loaded = m.loaded + ∑ j ∈ Finset.range n, blockIds cell maxParticles (offsetAt cell (k₀ + j)) := by
  obtain ⟨offsets, hrun⟩ := hl
  obtain ⟨L', hend⟩ := hrun.invariant (loading_preserved hM) ⟨L, loading_start h hcounter hcounted⟩
  obtain ⟨k, hcounter', hoffsets⟩ := hend.offsets
  obtain rfl : n = k := by
    have hcard := congrArg Multiset.card hoffsets
    simpa [offsetOf, Multiset.card_sum] using hcard
  refine ⟨⟨L', ?_⟩, hcounter', hend.counted, ?_⟩
  · convert hend.holds using 1
    funext c
    exact congrArg (A c + ·) (sum_offsets hoffsets fun offset =>
      blockParticles cell srcFrame maxParticles localDomainCellOffset offset c).symm
  · rw [hend.loaded]
    exact congrArg (m.loaded + ·) (sum_offsets hoffsets (blockIds cell maxParticles))

def rank {T : ℕ} : Phase T → ℕ
  | .apply => T + 2
  | .master _ _ waiting => waiting.card + 1
  | .done _ => 0

/-- The threads of a block with records come before those without. -/
def Regular (cell : CellDescription D) (maxParticles offset : ℤ) : Prop :=
  ∀ t t' : ℕ, t' ≤ t → t < cell.cellsInSuperCell → hasValidParticle maxParticles offset t = true →
    hasValidParticle maxParticles offset t' = true

omit [DecidableEq ι] in
theorem loading_progress (hM : MallocMC.Serves M r)
    (hregular : ∀ j < Fintype.card ι, Regular cell maxParticles (offsetAt cell (k₀ + j))) :
    Progress (fun _ : ι => Block cell srcFrame maxParticles localDomainCellOffset M) (fun _ => rank)
      fun s => ∃ L, Loading cell srcFrame maxParticles localDomainCellOffset r k₀ A loaded s L := by
  rintro m phases ⟨L, h⟩ b hb
  cases hphase : phases b with
  | apply =>
    refine ⟨_, _, .apply, ?_⟩
    have hle := Finset.card_le_univ (masters cell srcFrame maxParticles localDomainCellOffset (i32 (m.counter 0)))
    rw [Fintype.card_fin] at hle
    simp only [rank]
    omega
  | master offset destFramePtr waiting =>
    rcases waiting.eq_empty_or_nonempty with rfl | ⟨t, ht⟩
    · obtain ⟨k, -, hoffsets⟩ := h.offsets
      have hk : k ≤ Fintype.card ι := by
        have hcard := congrArg Multiset.card hoffsets
        rw [Multiset.card_sum, Multiset.card_map, Multiset.card_range] at hcard
        rw [← hcard, ← Finset.card_univ, Finset.card_eq_sum_ones]
        refine Finset.sum_le_sum fun b _ => ?_
        cases (m, phases).2 b <;> simp [offsetOf]
      obtain ⟨j, hj, hoffset⟩ : ∃ j < k, offsetAt cell (k₀ + j) = offset := by
        have hmem : offset ∈ ∑ b, offsetOf ((m, phases).2 b) :=
          Multiset.mem_sum.mpr ⟨b, Finset.mem_univ b, by simp [hphase, offsetOf]⟩
        simpa [hoffsets] using hmem
      have hframes : ∀ t ∈ validThreads cell maxParticles offset,
          (destFramePtr (masterIdx cell srcFrame maxParticles localDomainCellOffset offset t)).isSome = true :=
        fun t ht => by
        obtain ⟨hle, -, hself⟩ := @masterIdx_spec D β cell srcFrame maxParticles localDomainCellOffset offset t
        have hvalid := hoffset ▸ hregular j (hj.trans_le hk) t _ hle t.isLt (hoffset ▸ (Finset.mem_filter.mp ht).2)
        exact (h.blocks b _ _ _ hphase).served ⟨_, hle.trans_lt t.isLt⟩
          (Finset.mem_filter.mpr ⟨Finset.mem_filter.mpr ⟨Finset.mem_univ _, hvalid⟩, hself⟩) (Finset.notMem_empty _)
      exact ⟨_, _, .copy (σ := 1) hframes, by simp [rank]⟩
    · obtain ⟨p, box, hframe, -⟩ := getEmptyFrame_spec hM h.holds.attempts
      refine ⟨_, _, .getFrame ht hframe, ?_⟩
      have := Finset.card_erase_lt_of_mem ht
      simp only [rank]
      omega
  | done offset => simp [hphase, rank] at hb

theorem exists_launched (hM : MallocMC.Serves M r) (h : Holds r A m.box L)
    (hcounter : m.counter 0 = cell.cellsInSuperCell * k₀ % 2^32) (hcounted : m.counter 1 = m.loaded.card % 2^32)
    (hregular : ∀ j < n, Regular cell maxParticles (offsetAt cell (k₀ + j))) :
    ∃ m', Launched cell srcFrame maxParticles localDomainCellOffset M n m m' := by
  have hstart : Loading cell srcFrame maxParticles localDomainCellOffset r k₀ A m.loaded (m, fun _ : Fin n => .apply) L :=
    loading_start h hcounter hcounted
  obtain ⟨⟨m', phases⟩, hrun, hend⟩ := exists_complete (loading_preserved hM)
    (loading_progress hM (by rwa [Fintype.card_fin])) ⟨L, hstart⟩
  have hdone : ∀ b, ∃ offset, phases b = .done offset := fun b => by
    have hb := hend b
    cases hphase : phases b with
    | apply => simp [hphase, rank] at hb
    | master offset destFramePtr waiting => simp [hphase, rank] at hb
    | done offset => exact ⟨offset, rfl⟩
  choose offsets hoffsets using hdone
  exact ⟨m', offsets, by rwa [funext hoffsets] at hrun⟩

end Launch

end CopySpeciesGlobal2Local

end PIConGPU
