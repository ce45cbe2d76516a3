import PIConGPU.ConcurrentAppend
import PIConGPU.FixedWidth
import PIConGPU.KernelBashParticles

/-!
# KernelInsertParticles

Every block pops an entry from the index of a received stack, copies its particles to a new frame and appends the frame
to a supercell in the border. Entries of one supercell are appended at the same time.
-/
namespace PIConGPU

namespace KernelInsertParticles

open ParticlesBox FrameContents KernelLaunch DataSpaceOperations KernelBashParticles
open ExchangePush (ExchangeMemoryIndex)

/-- Where a block stands. `malloc` is the loop of `getEmptyFrame`. -/
inductive Phase (D : ℕ)
  | pop
  | reset
  | malloc (entry : ExchangeMemoryIndex (D - 1)) (numTries : ℕ) (tmp : Option Ptr)
  | append (entry : ExchangeMemoryIndex (D - 1)) (frame : Ptr) (phase : AppendPhase)
  | finished

variable {D T : ℕ} {α : Type*}

def setIndexSize (m : Memory D T α) (size : ℕ) : Memory D T α :=
  { m with border := { m.border with counters := { m.border.counters with indexSize := size } } }

def dstSuperCell (mapper : MappingDescription D) (exchangeType : ℕ) (superCell : DataSpace (D - 1)) : DataSpace D :=
  extend superCell exchangeType mapper.gridSuperCells fun _ => mapper.guardingSuperCells

/-- The first threads copy a particle each to their slot. -/
def insert (m : Memory D T α) (entry : ExchangeMemoryIndex (D - 1)) (frame : Ptr) : Memory D T α :=
  { m with box := { m.box with
    multiMask := Function.update m.box.multiMask frame fun t =>
      if t.val < entry.count then 1 else m.box.multiMask frame t
    attributes := Function.update m.box.attributes frame fun t =>
      if t.val < entry.count then m.border.stack (entry.startIdx + t) else m.box.attributes frame t } }

def setAsLastFrame (frame : Ptr) (idx : DataSpace D) (box : ParticlesBox D T α) (phase : AppendPhase) :
    Option (ParticlesBox D T α × AppendPhase) :=
  (SetAsLastFrame.step (fun _ : Unit => frame) idx ⟨box, fun _ => phase, []⟩ ()).map fun s => (s.box, s.phase ())

/-- A step of a block: an attempt to allocate, an access to a pointer or a counter, or what it does between two
barriers. -/
inductive Block (M : MallocMC) (mapper : MappingDescription D) (exchangeType : ℕ) :
    Memory D T α → Phase D → Memory D T α → Phase D → Prop
  | pop {m : Memory D T α} {entry : ExchangeMemoryIndex (D - 1)} (h : 0 < i32 m.border.counters.indexSize)
      (hentry : m.border.counters.index (m.border.counters.indexSize - 1) = some entry) :
    Block M mapper exchangeType m .pop (setIndexSize m (u32 (m.border.counters.indexSize - 1)))
      (if 0 < entry.count then .malloc entry 0 none else .finished)
  | popNone {m : Memory D T α} (h : i32 m.border.counters.indexSize ≤ 0) :
    Block M mapper exchangeType m .pop (setIndexSize m (u32 (m.border.counters.indexSize - 1))) .reset
  | reset {m : Memory D T α} : Block M mapper exchangeType m .reset (setIndexSize m 0) .finished
  | malloc {m : Memory D T α} {entry : ExchangeMemoryIndex (D - 1)} {numTries : ℕ} {tmp : Option Ptr}
      (h : numTries < maxTries) :
    Block M mapper exchangeType m (.malloc entry numTries tmp)
      { m with box := (tryMalloc M (tmp, m.box) numTries).2 }
      (.malloc entry (numTries + 1) (tryMalloc M (tmp, m.box) numTries).1)
  | insert {m : Memory D T α} {entry : ExchangeMemoryIndex (D - 1)} {frame : Ptr} :
    Block M mapper exchangeType m (.malloc entry maxTries (some frame)) (insert m entry frame)
      (.append entry frame .clear)
  | append {m : Memory D T α} {entry : ExchangeMemoryIndex (D - 1)} {frame : Ptr} {phase phase' : AppendPhase}
      {box : ParticlesBox D T α}
      (h : setAsLastFrame frame (dstSuperCell mapper exchangeType entry.superCell) m.box phase = some (box, phase')) :
    Block M mapper exchangeType m (.append entry frame phase) { m with box := box } (.append entry frame phase')
  | finish {m : Memory D T α} {entry : ExchangeMemoryIndex (D - 1)} {frame : Ptr} :
    Block M mapper exchangeType m (.append entry frame .returned) m .finished

/-- A block has no frame after the last attempt. -/
def OutOfMemory : Phase D → Prop
  | .malloc _ numTries tmp => numTries = maxTries ∧ tmp = none
  | _ => False

section Rank

def appendRank : AppendPhase → ℕ
  | .clear => 7
  | .read => 6
  | .write _ => 5
  | .exchange => 4
  | .writeOld _ => 3
  | .link _ => 2
  | .returned => 1

theorem setAsLastFrame_rank_lt {frame : Ptr} {idx : DataSpace D} {box box' : ParticlesBox D T α}
    {phase phase' : AppendPhase} (h : setAsLastFrame frame idx box phase = some (box', phase')) :
    appendRank phase' < appendRank phase := by
  cases phase with
  | returned => cases h
  | _ =>
    obtain ⟨-, rfl⟩ := Prod.mk.inj (Option.some.inj h)
    simp [AppendState.go, appendRank]

def Phase.rank : Phase D → ℕ
  | .pop => 22
  | .reset => 1
  | .malloc _ numTries _ => 8 + (maxTries - numTries)
  | .append _ _ phase => appendRank phase
  | .finished => 0

theorem Block.rank_lt {M : MallocMC} {mapper : MappingDescription D} {exchangeType : ℕ} {m m' : Memory D T α}
    {phase phase' : Phase D} (h : Block M mapper exchangeType m phase m' phase') : phase'.rank < phase.rank := by
  cases h with
  | pop => split <;> simp [Phase.rank, maxTries]
  | popNone => simp [Phase.rank]
  | reset => simp [Phase.rank]
  | malloc hlt =>
    simp only [Phase.rank]
    omega
  | insert => simp [Phase.rank, appendRank]
  | append h => exact setAsLastFrame_rank_lt h
  | finish => simp [Phase.rank, appendRank]

end Rank

section Contents

variable {M : MallocMC} {mapper : MappingDescription D} {exchangeType : ℕ} {border : StackExchangeBuffer D α}

theorem add_cancel_exchange {A : Type*} [AddCancelCommMonoid A] {a a' i i' e e' s s' : A} (h : a' + i' + e' = a + i + e)
    (hs : s' + e = s + e') : a' + i' + s' = a + i + s := by
  refine add_right_cancel (b := e' + e) ?_
  calc a' + i' + s' + (e' + e) = a' + i' + e' + (s' + e) := by abel
    _ = a + i + e + (s + e') := by rw [h, hs]
    _ = a + i + s + (e' + e) := by abel

def share (mapper : MappingDescription D) (exchangeType : ℕ) (border : StackExchangeBuffer D α) (c : DataSpace D)
    (entry : ExchangeMemoryIndex (D - 1)) : Multiset α :=
  if dstSuperCell mapper exchangeType entry.superCell = c then border.tile entry else 0

/-- The particles of the first `n` entries of the index that go to a supercell. -/
def inStack (mapper : MappingDescription D) (exchangeType : ℕ) (border : StackExchangeBuffer D α) (n : ℕ)
    (c : DataSpace D) : Multiset α :=
  ∑ k ∈ Finset.range n, (border.counters.index k).elim 0 (share mapper exchangeType border c)

theorem inStack_succ {n : ℕ} {entry : ExchangeMemoryIndex (D - 1)} (h : border.counters.index n = some entry)
    (c : DataSpace D) : inStack mapper exchangeType border (n + 1) c =
      inStack mapper exchangeType border n c + share mapper exchangeType border c entry := by
  rw [inStack, Finset.sum_range_succ, h]
  rfl

def arrivals (mapper : MappingDescription D) (exchangeType : ℕ) (c : DataSpace D) :
    Multiset (DataSpace (D - 1) × α) →+ Multiset α where
  toFun X := (X.filter fun x => dstSuperCell mapper exchangeType x.1 = c).map Prod.snd
  map_zero' := rfl
  map_add' X Y := by rw [Multiset.filter_add, Multiset.map_add]

theorem arrivals_map_mk (c : DataSpace D) (superCell : DataSpace (D - 1)) (X : Multiset α) :
    arrivals mapper exchangeType c (X.map (Prod.mk superCell)) =
      if dstSuperCell mapper exchangeType superCell = c then X else 0 := by
  change Multiset.map Prod.snd (Multiset.filter _ _) = _
  split
  case isTrue h =>
    rw [Multiset.filter_eq_self.mpr, Multiset.map_map]
    · exact Multiset.map_id X
    · intro x hx
      obtain ⟨a, -, rfl⟩ := Multiset.mem_map.mp hx
      exact h
  case isFalse h =>
    rw [Multiset.filter_eq_nil.mpr]
    · rfl
    · intro x hx
      obtain ⟨a, -, rfl⟩ := Multiset.mem_map.mp hx
      exact h

theorem inStack_eq_arrivals (border : StackExchangeBuffer D α) (c : DataSpace D) :
    inStack mapper exchangeType border border.counters.indexSize c =
      arrivals mapper exchangeType c border.particles := by
  rw [StackExchangeBuffer.particles, map_sum, inStack]
  refine Finset.sum_congr rfl fun k _ => ?_
  cases border.counters.index k with
  | none => exact (map_zero _).symm
  | some entry => exact (arrivals_map_mk c entry.superCell (border.tile entry)).symm

theorem particles_insert {n : ℕ} (hn : n ≤ T) {mask : Fin T → ℕ} (hmask : mask = fun _ => 0) (attr : Fin T → α)
    (f : ℕ → α) : particles (fun t => if t.val < n then 1 else mask t) (fun t => if t.val < n then f t else attr t) 1 =
      (Multiset.range n).map f := by
  have hrange : (Finset.univ.filter fun t : Fin T => t.val < n).map Fin.valEmbedding = Finset.range n := by
    ext k
    simp only [Finset.mem_map, Finset.mem_filter, Finset.mem_univ, true_and, Finset.mem_range]
    constructor
    · rintro ⟨t, ht, rfl⟩
      exact ht
    · exact fun hk => ⟨⟨k, hk.trans_le hn⟩, hk, rfl⟩
  have hfilter : (Finset.univ.filter fun t : Fin T => (if t.val < n then 1 else mask t) = 1) =
      Finset.univ.filter fun t : Fin T => t.val < n := by
    ext t
    by_cases ht : t.val < n <;> simp [ht, hmask]
  have hvalues : (Finset.univ.filter fun t : Fin T => t.val < n).val.map (fun t => f t.val) =
      (Multiset.range n).map f := by
    rw [← Finset.range_val, ← hrange, Finset.map_val, Multiset.map_map]
    rfl
  rw [particles, hfilter, ← hvalues]
  exact Multiset.map_congr rfl fun t ht => if_pos (by simpa using ht)

end Contents

section Launch

variable {ι : Type*} [Fintype ι] [DecidableEq ι] {M : MallocMC} {mapper : MappingDescription D} {exchangeType : ℕ}
  {start m m' : Memory D T α} {L L' L'' : DataSpace D → List Ptr} {leaked leaked' : Set Ptr} {phases : ι → Phase D}
  {b : ι} {phase : Phase D}

namespace Phase

def waiting : Phase D → ℕ
  | .pop => 1
  | _ => 0

def frame : Phase D → Option Ptr
  | .malloc _ _ tmp => tmp
  | .append _ frame _ => some frame
  | _ => none

def Exchanged : Phase D → Prop
  | .append _ _ phase => phase.Exchanged
  | _ => False

def entry : Phase D → Option (ExchangeMemoryIndex (D - 1))
  | .malloc entry _ _ => some entry
  | .append entry _ .clear => some entry
  | .append entry _ .read => some entry
  | .append entry _ (.write _) => some entry
  | .append entry _ .exchange => some entry
  | _ => none

/-- A block appends frame `q`, and stands in a phase of the call with property `P`. -/
def Appends (P : AppendPhase → Prop) (q : Ptr) : Phase D → Prop
  | .append _ frame phase => frame = q ∧ P phase
  | _ => False

end Phase

/-- What a block knows of its entry and its frame. -/
def Holds (M : MallocMC) (mapper : MappingDescription D) (exchangeType : ℕ) (L : DataSpace D → List Ptr)
    (m : Memory D T α) : Phase D → Prop
  | .reset => False
  | .malloc entry numTries tmp => entry.count ≤ T ∧ numTries ≤ maxTries ∧
      (∀ p, tmp = some p → m.box.multiMask p = fun _ => 0) ∧ (tmp = none → numTries = 0 ∨ ∃ k A, M.malloc k A = none)
  | .append entry frame phase => (phase.Exchanged → frame ∈ L (dstSuperCell mapper exchangeType entry.superCell)) ∧
      (¬ phase.Exchanged → particles (m.box.multiMask frame) (m.box.attributes frame) 1 = m.border.tile entry) ∧
      (phase.Cleared → m.box.nextFrame frame = none) ∧
      ∀ old, phase = .writeOld old ∨ phase = .link old →
        ∃ l r, L (dstSuperCell mapper exchangeType entry.superCell) = l ++ frame :: r ∧ old = l.getLast?
  | _ => True

/-- What holds in every state of a launch. Frames that no block can reach are leaked. -/
structure Inserting (M : MallocMC) (mapper : MappingDescription D) (exchangeType : ℕ) (start : Memory D T α)
    (L L' : DataSpace D → List Ptr) (leaked : Set Ptr) (m : Memory D T α) (phases : ι → Phase D) : Prop where
  linked : LinkedExcept m.box L' {q | ∃ b, (phases b).Appends AppendPhase.Unlinked q}
    {q | ∃ b, (phases b).Appends AppendPhase.Unset q}
  index : m.border.counters.index = start.border.counters.index
  stack : m.border.stack = start.border.stack
  waiting : ∑ b, (phases b).waiting = m.border.counters.indexSize
  indexSize : m.border.counters.indexSize ≤ start.border.counters.indexSize
  contents : ∀ c, m.box.contents (L' c) 1 + inStack mapper exchangeType start.border m.border.counters.indexSize c +
      ∑ b, (phases b).entry.elim 0 (share mapper exchangeType start.border c) = start.box.contents (L c) 1 +
    inStack mapper exchangeType start.border start.border.counters.indexSize c
  subset : start.box.allocated ⊆ m.box.allocated
  kept : ∀ p ∈ start.box.allocated, m.box.multiMask p = start.box.multiMask p ∧
    m.box.attributes p = start.box.attributes p
  frames : ∀ b p, (phases b).frame = some p → p ∈ m.box.allocated ∧ p ∉ start.box.allocated ∧
    (¬ (phases b).Exchanged → ∀ c, p ∉ L' c)
  distinct : ∀ b b' p, (phases b).frame = some p → (phases b').frame = some p → b = b'
  accounted : ∀ p ∈ m.box.allocated, p ∈ leaked ∨ (∃ c, p ∈ L' c) ∨ ∃ b, (phases b).frame = some p
  blocks : ∀ b, Holds M mapper exchangeType L' m (phases b)

/-- A step that touches no frame besides one, which it may append. -/
structure TouchesOnly (m m' : Memory D T α) (L' L'' : DataSpace D → List Ptr) (frame : Option Ptr) : Prop where
  subset : m.box.allocated ⊆ m'.box.allocated
  contents : ∀ p ∈ m.box.allocated, frame ≠ some p →
    m'.box.multiMask p = m.box.multiMask p ∧ m'.box.attributes p = m.box.attributes p
  nextFrame : ∀ p ∈ m.box.allocated, frame ≠ some p → (∀ c, p ∉ L' c) → m'.box.nextFrame p = m.box.nextFrame p
  lists : ∀ c, ∃ l, L'' c = L' c ++ l ∧ ∀ p ∈ l, frame = some p

theorem Holds.congr {frame : Option Ptr} (h : Holds M mapper exchangeType L' m phase)
    (htouches : TouchesOnly m m' L' L'' frame) (hstack : m'.border.stack = m.border.stack)
    (halloc : ∀ p, phase.frame = some p → p ∈ m.box.allocated ∧ frame ≠ some p ∧ (¬ phase.Exchanged → ∀ c, p ∉ L' c)) :
    Holds M mapper exchangeType L'' m' phase := by
  cases phase with
  | malloc entry numTries tmp =>
    obtain ⟨hcount, htries, hmask, hnone⟩ := h
    refine ⟨hcount, htries, fun p hp => ?_, hnone⟩
    obtain ⟨hp', hne, -⟩ := halloc p hp
    rw [(htouches.contents p hp' hne).1, hmask p hp]
  | append entry frame phase =>
    obtain ⟨hmem, hparticles, hcleared, hold⟩ := h
    obtain ⟨hframe, hne, hfree⟩ := halloc frame rfl
    obtain ⟨hmask, hattr⟩ := htouches.contents frame hframe hne
    obtain ⟨l', hl', -⟩ := htouches.lists (dstSuperCell mapper exchangeType entry.superCell)
    refine ⟨fun hphase => ?_, fun hphase => ?_, fun hphase => ?_, fun old hphase => ?_⟩
    · rw [hl']
      exact List.mem_append_left _ (hmem hphase)
    · rw [hmask, hattr, hparticles hphase, StackExchangeBuffer.tile, StackExchangeBuffer.tile, hstack]
    · rw [htouches.nextFrame frame hframe hne (hfree hphase.not_exchanged), hcleared hphase]
    · obtain ⟨l, r, hl, hlast⟩ := hold old hphase
      exact ⟨l, r ++ l', by rw [hl', hl, List.append_assoc, List.cons_append], hlast⟩
  | _ => exact h

theorem Inserting.update (h : Inserting M mapper exchangeType start L L' leaked m phases)
    (htouches : TouchesOnly m m' L' L'' (phases b).frame)
    (hlinked : LinkedExcept m'.box L'' {q | ∃ b', (Function.update phases b phase b').Appends AppendPhase.Unlinked q}
      {q | ∃ b', (Function.update phases b phase b').Appends AppendPhase.Unset q})
    (hindex : m'.border.counters.index = m.border.counters.index) (hstack : m'.border.stack = m.border.stack)
    (hwaiting : m'.border.counters.indexSize + (phases b).waiting = m.border.counters.indexSize + phase.waiting)
    (hsize : m'.border.counters.indexSize ≤ m.border.counters.indexSize)
    (hcontents : ∀ c, m'.box.contents (L'' c) 1 +
        inStack mapper exchangeType start.border m'.border.counters.indexSize c +
        phase.entry.elim 0 (share mapper exchangeType start.border c) =
      m.box.contents (L' c) 1 + inStack mapper exchangeType start.border m.border.counters.indexSize c +
        (phases b).entry.elim 0 (share mapper exchangeType start.border c))
    (hframe : ∀ p, phase.frame = some p → p ∈ m'.box.allocated ∧ ((phases b).frame = some p ∨ p ∉ m.box.allocated) ∧
      (¬ phase.Exchanged → ∀ c, p ∉ L'' c))
    (haccounted : ∀ p ∈ m'.box.allocated, p ∈ leaked' ∨ (∃ c, p ∈ L'' c) ∨ phase.frame = some p ∨
      (p ∈ m.box.allocated ∧ (phases b).frame ≠ some p)) (hleaked : leaked ⊆ leaked')
    (hblock : Holds M mapper exchangeType L'' m' phase) :
    Inserting M mapper exchangeType start L L'' leaked' m' (Function.update phases b phase) := by
  have hother : ∀ b', b' ≠ b → ∀ p, (phases b').frame = some p → (phases b).frame ≠ some p := fun b' hb p hp hp' =>
    hb (h.distinct b' b p hp hp')
  have hlists : ∀ c p, p ∈ L'' c → p ∈ L' c ∨ (phases b).frame = some p := fun c p hp => by
    obtain ⟨l, hl, hl'⟩ := htouches.lists c
    rw [hl] at hp
    exact (List.mem_append.mp hp).imp_right (hl' p)
  refine ⟨hlinked, hindex.trans h.index, hstack.trans h.stack, ?_, hsize.trans h.indexSize, fun c => ?_,
    h.subset.trans htouches.subset, fun p hp => ?_, fun b' p hp => ?_, fun b₁ b₂ p h₁ h₂ => ?_, fun p hp => ?_,
    fun b' => ?_⟩
  · have hsum := sum_update (fun _ => Phase.waiting) phases b phase
    have hold := h.waiting
    omega
  · have hsum := sum_update (fun _ phase => phase.entry.elim 0 (share mapper exchangeType start.border c)) phases b
      phase
    rw [← h.contents c]
    exact add_cancel_exchange (hcontents c) hsum
  · obtain ⟨hmask, hattr⟩ := htouches.contents p (h.subset hp) fun hp' => (h.frames b p hp').2.1 hp
    exact ⟨hmask.trans (h.kept p hp).1, hattr.trans (h.kept p hp).2⟩
  · by_cases hb : b' = b
    · subst hb
      rw [Function.update_self] at hp ⊢
      obtain ⟨halloc, hnew, hfree⟩ := hframe p hp
      exact ⟨halloc, hnew.elim (fun hp => (h.frames b' p hp).2.1) fun hp hp' => hp (h.subset hp'), hfree⟩
    · rw [Function.update_of_ne hb] at hp ⊢
      obtain ⟨halloc, hnew, hfree⟩ := h.frames b' p hp
      exact ⟨htouches.subset halloc, hnew, fun hphase c hc =>
        (hlists c p hc).elim (hfree hphase c) (hother b' hb p hp)⟩
  · have hself : ∀ b', b' ≠ b → ∀ p, phase.frame = some p → (phases b').frame ≠ some p := fun b' hb p hp hp' =>
      (hframe p hp).2.1.elim (hother b' hb p hp') fun hnot => hnot (h.frames b' p hp').1
    by_cases hb₁ : b₁ = b
    · subst hb₁
      by_contra hne
      rw [Function.update_self] at h₁
      rw [Function.update_of_ne (Ne.symm hne)] at h₂
      exact hself b₂ (Ne.symm hne) p h₁ h₂
    · rw [Function.update_of_ne hb₁] at h₁
      by_cases hb₂ : b₂ = b
      · subst hb₂
        rw [Function.update_self] at h₂
        exact absurd h₁ (hself b₁ hb₁ p h₂)
      · rw [Function.update_of_ne hb₂] at h₂
        exact h.distinct b₁ b₂ p h₁ h₂
  · rcases haccounted p hp with hleak | hlist | hself | ⟨hold, hne⟩
    · exact .inl hleak
    · exact .inr (.inl hlist)
    · exact .inr (.inr ⟨b, by rwa [Function.update_self]⟩)
    · rcases h.accounted p hold with hleak | ⟨c, hc⟩ | ⟨b', hb'⟩
      · exact .inl (hleaked hleak)
      · obtain ⟨l, hl, -⟩ := htouches.lists c
        exact .inr (.inl ⟨c, by rw [hl]; exact List.mem_append_left _ hc⟩)
      · have hb : b' ≠ b := fun he => hne (he ▸ hb')
        exact .inr (.inr ⟨b', by rwa [Function.update_of_ne hb]⟩)
  · by_cases hb : b' = b
    · subst hb
      rwa [Function.update_self]
    · rw [Function.update_of_ne hb]
      refine (h.blocks b').congr htouches hstack fun p hp => ?_
      exact ⟨(h.frames b' p hp).1, hother b' hb p hp, (h.frames b' p hp).2.2⟩

theorem TouchesOnly.of_lists {frame : Option Ptr} (hsubset : m.box.allocated ⊆ m'.box.allocated)
    (hcontents : ∀ p ∈ m.box.allocated, frame ≠ some p →
      m'.box.multiMask p = m.box.multiMask p ∧ m'.box.attributes p = m.box.attributes p)
    (hnext : ∀ p ∈ m.box.allocated, frame ≠ some p → (∀ c, p ∉ L' c) → m'.box.nextFrame p = m.box.nextFrame p) :
    TouchesOnly m m' L' L' frame :=
  ⟨hsubset, hcontents, hnext, fun _ => ⟨[], (List.append_nil _).symm, fun _ hp => absurd hp List.not_mem_nil⟩⟩

omit [Fintype ι] in
theorem appends_update {P : AppendPhase → Prop} (hP : ∀ q, (phases b).Appends P q → phase.Appends P q) :
    {q | ∃ b', (phases b').Appends P q} ⊆ {q | ∃ b', (Function.update phases b phase b').Appends P q} := by
  rintro q ⟨b', hq⟩
  refine ⟨b', ?_⟩
  by_cases hb : b' = b
  · subst hb
    rw [Function.update_self]
    exact hP q hq
  · rwa [Function.update_of_ne hb]

omit [Fintype ι] in
theorem appends_update_sdiff {P : AppendPhase → Prop} {frame : Ptr} (hP : ∀ q, (phases b).Appends P q → q = frame) :
    {q | ∃ b', (phases b').Appends P q} \ {frame} ⊆ {q | ∃ b', (Function.update phases b phase b').Appends P q} := by
  rintro q ⟨⟨b', hq⟩, hne⟩
  have hb : b' ≠ b := fun he => hne (hP q (he ▸ hq))
  exact ⟨b', by rwa [Function.update_of_ne hb]⟩

omit [Fintype ι] in
theorem LinkedExcept.update_phase (h : LinkedExcept m.box L' {q | ∃ b, (phases b).Appends AppendPhase.Unlinked q}
    {q | ∃ b, (phases b).Appends AppendPhase.Unset q}) (hb : ∀ P q, ¬ (phases b).Appends P q) :
    LinkedExcept m.box L' {q | ∃ b', (Function.update phases b phase b').Appends AppendPhase.Unlinked q}
      {q | ∃ b', (Function.update phases b phase b').Appends AppendPhase.Unset q} :=
  h.mono (appends_update fun q hq => absurd hq (hb _ q)) (appends_update fun q hq => absurd hq (hb _ q))

theorem share_of_count_eq_zero {border : StackExchangeBuffer D α} {entry : ExchangeMemoryIndex (D - 1)}
    (h : entry.count = 0) (c : DataSpace D) : share mapper exchangeType border c entry = 0 := by
  rw [share, StackExchangeBuffer.tile, h]
  exact ite_self _

omit [DecidableEq ι] in
theorem Inserting.indexSize_pos (h : Inserting M mapper exchangeType start L L' leaked m phases)
    (hb : phases b = .pop) : 0 < m.border.counters.indexSize := by
  have hle : (phases b).waiting ≤ ∑ b', (phases b').waiting :=
    Finset.single_le_sum (f := fun b' => (phases b').waiting) (fun _ _ => Nat.zero_le _) (Finset.mem_univ b)
  rw [h.waiting, hb] at hle
  exact hle

theorem Inserting.pop (hsize : start.border.counters.indexSize < 2^31) (hformed : start.border.WellFormed T)
    (h : Inserting M mapper exchangeType start L L' leaked m phases) (hb : phases b = .pop)
    {entry : ExchangeMemoryIndex (D - 1)}
    (hentry : m.border.counters.index (m.border.counters.indexSize - 1) = some entry) :
    Inserting M mapper exchangeType start L L' leaked (setIndexSize m (u32 (m.border.counters.indexSize - 1)))
      (Function.update phases b (if 0 < entry.count then .malloc entry 0 none else .finished)) := by
  have hpos := h.indexSize_pos hb
  have hle := h.indexSize
  obtain ⟨n, hn⟩ : ∃ n, m.border.counters.indexSize = n + 1 := ⟨_, (Nat.sub_add_cancel hpos).symm⟩
  have hnew : u32 (m.border.counters.indexSize - 1) = n := by
    rw [hn, u32]
    omega
  rw [hn, Nat.add_sub_cancel, h.index] at hentry
  rw [hnew]
  have hcount : entry.count ≤ T := by
    obtain ⟨entry', hentry', hcount, -⟩ := hformed n (by omega)
    obtain rfl := Option.some_inj.mp (hentry'.symm.trans hentry)
    exact hcount
  have hframe : (if 0 < entry.count then .malloc entry 0 none else .finished : Phase D).frame = none := by
    split <;> rfl
  refine h.update (.of_lists subset_rfl (fun _ _ _ => ⟨rfl, rfl⟩) fun _ _ _ _ => rfl)
    (LinkedExcept.update_phase h.linked fun P q => by rw [hb]; exact id) rfl rfl ?_ ?_ (fun c => ?_) (fun p hp => ?_)
    (fun p hp => .inr (.inr (.inr ⟨hp, by rw [hb]; rintro ⟨⟩⟩))) subset_rfl ?_
  · have hwaiting : (if 0 < entry.count then .malloc entry 0 none else .finished : Phase D).waiting = 0 := by
      split <;> rfl
    rw [hwaiting, hb, hn]
    rfl
  · rw [hn]
    exact Nat.le_succ n
  · rw [hn, inStack_succ hentry, hb]
    change _ + inStack mapper exchangeType start.border n c + _ = _ + (_ + _) + 0
    rw [add_zero, add_assoc]
    congr 2
    split
    case isTrue => rfl
    case isFalse hzero => rw [share_of_count_eq_zero (by omega)]; rfl
  · rw [hframe] at hp
    cases hp
  · split
    case isTrue => exact ⟨hcount, Nat.zero_le _, fun p hp => (by cases hp), fun _ => .inl rfl⟩
    case isFalse => trivial

/-- One attempt of `getEmptyFrame`, after any others. -/
theorem tryMalloc_allocation (M : MallocMC) (tmp : Option Ptr) (box : ParticlesBox D T α) (numTries : ℕ) :
    Allocation box (tryMalloc M (tmp, box) numTries).1 (tryMalloc M (tmp, box) numTries).2 :=
  allocation_foldl M box [numTries]

theorem tryMalloc_allocated (M : MallocMC) (tmp : Option Ptr) (box : ParticlesBox D T α) (numTries : ℕ) :
    ∀ p ∈ (tryMalloc M (tmp, box) numTries).2.allocated,
      p ∈ box.allocated ∨ (tryMalloc M (tmp, box) numTries).1 = some p := by
  intro p hp
  unfold tryMalloc at hp ⊢
  dsimp only at hp ⊢
  cases hm : M.malloc box.attempts box.allocated with
  | none =>
    rw [hm] at hp
    exact .inl hp
  | some q =>
    rw [hm] at hp
    exact (Finset.mem_insert.mp hp).symm.imp_right fun he => congrArg some he.symm

theorem tryMalloc_eq_none {M : MallocMC} {tmp : Option Ptr} {box : ParticlesBox D T α} {numTries : ℕ}
    (h : (tryMalloc M (tmp, box) numTries).1 = none) : ∃ k A, M.malloc k A = none := by
  refine ⟨box.attempts, box.allocated, ?_⟩
  unfold tryMalloc at h
  dsimp only at h
  cases hm : M.malloc box.attempts box.allocated with
  | none => rfl
  | some q =>
    rw [hm] at h
    cases h

theorem Inserting.malloc (h : Inserting M mapper exchangeType start L L' leaked m phases)
    {entry : ExchangeMemoryIndex (D - 1)} {numTries : ℕ} {tmp : Option Ptr} (hb : phases b = .malloc entry numTries tmp)
    (hlt : numTries < maxTries) :
    Inserting M mapper exchangeType start L L' (leaked ∪ {p | tmp = some p})
      { m with box := (tryMalloc M (tmp, m.box) numTries).2 }
      (Function.update phases b (.malloc entry (numTries + 1) (tryMalloc M (tmp, m.box) numTries).1)) := by
  have halloc := tryMalloc_allocation M tmp m.box numTries
  have hallocated := tryMalloc_allocated M tmp m.box numTries
  have hnone := @tryMalloc_eq_none D T α M tmp m.box numTries
  generalize tryMalloc M (tmp, m.box) numTries = result at halloc hallocated hnone
  obtain ⟨tmp', box'⟩ := result
  dsimp only at halloc hallocated hnone ⊢
  obtain ⟨hcount, -⟩ := hb ▸ h.blocks b
  have hmask : ∀ c, ∀ p ∈ L' c, box'.multiMask p = m.box.multiMask p := fun c p hp =>
    halloc.multiMask p (h.linked.allocated c p hp)
  have hlinked : LinkedExcept box' L' {q | ∃ b, (phases b).Appends AppendPhase.Unlinked q}
      {q | ∃ b, (phases b).Appends AppendPhase.Unset q} :=
    h.linked.congr halloc.firstFramePtr halloc.lastFramePtr (fun _ _ _ => by rw [halloc.nextFrame])
      (fun _ _ _ => by rw [halloc.previousFrame]) fun c p hp => halloc.subset (h.linked.allocated c p hp)
  refine h.update (.of_lists halloc.subset (fun p hp _ => ⟨halloc.multiMask p hp, by rw [halloc.attributes]⟩)
      fun _ _ _ _ => by rw [halloc.nextFrame])
    (LinkedExcept.update_phase (m := ⟨box', m.border⟩) hlinked fun P q => by rw [hb]; exact id) rfl rfl
    (by rw [hb]; rfl) le_rfl (fun c => ?_) (fun p hp => ?_) (fun p hp => ?_) Set.subset_union_left
    ⟨hcount, hlt, fun p hp => (halloc.fresh p hp).2.2, fun htmp => .inr (hnone htmp)⟩
  · rw [hb, contents_congr (hmask c) fun p _ => by rw [halloc.attributes]]
    rfl
  · obtain ⟨hnew, hmem, -⟩ := halloc.fresh p hp
    exact ⟨hmem, .inr hnew, fun _ c hc => hnew (h.linked.allocated c p hc)⟩
  · rcases hallocated p hp with hold | hself
    · by_cases htmp : tmp = some p
      · exact .inl (.inr htmp)
      · exact .inr (.inr (.inr ⟨hold, by rw [hb]; exact htmp⟩))
    · exact .inr (.inr (.inl hself))

theorem Inserting.insert (h : Inserting M mapper exchangeType start L L' leaked m phases)
    {entry : ExchangeMemoryIndex (D - 1)} {frame : Ptr} (hb : phases b = .malloc entry maxTries (some frame)) :
    Inserting M mapper exchangeType start L L' leaked (insert m entry frame)
      (Function.update phases b (.append entry frame .clear)) := by
  obtain ⟨hcount, -, hmask, -⟩ := hb ▸ h.blocks b
  obtain ⟨hframe, -, hfree⟩ := h.frames b frame (by rw [hb]; rfl)
  have hfree := hfree (by rw [hb]; exact id)
  have hother : ∀ p, (phases b).frame ≠ some p → p ≠ frame := fun p hp he => hp (by rw [hb, he]; rfl)
  have hcontents : ∀ p, p ≠ frame → (KernelInsertParticles.insert m entry frame).box.multiMask p = m.box.multiMask p ∧
      (KernelInsertParticles.insert m entry frame).box.attributes p = m.box.attributes p := fun p hp =>
    ⟨Function.update_of_ne hp _ _, Function.update_of_ne hp _ _⟩
  have hlists : ∀ c, ∀ p ∈ L' c, p ≠ frame := fun c p hp he => hfree c (he ▸ hp)
  have hlinked : LinkedExcept (KernelInsertParticles.insert m entry frame).box L'
      {q | ∃ b, (phases b).Appends AppendPhase.Unlinked q} {q | ∃ b, (phases b).Appends AppendPhase.Unset q} :=
    h.linked.congr rfl rfl (fun _ _ _ => rfl) (fun _ _ _ => rfl) h.linked.allocated
  refine h.update (.of_lists subset_rfl (fun p _ hp => hcontents p (hother p hp)) fun _ _ _ _ => rfl)
    (LinkedExcept.update_phase hlinked fun P q => by rw [hb]; exact id) rfl rfl (by rw [hb]; rfl) le_rfl
    (fun c => ?_) (fun p hp => ?_) (fun p hp => ?_) subset_rfl ⟨fun hphase => hphase.elim, fun _ => ?_,
      fun hphase => hphase.elim, fun old hphase => ?_⟩
  · rw [hb, contents_congr (fun p hp => (hcontents p (hlists c p hp)).1) fun p hp => (hcontents p (hlists c p hp)).2]
    rfl
  · obtain rfl := Option.some_inj.mp hp
    exact ⟨hframe, .inl (by rw [hb]; rfl), fun _ => hfree⟩
  · by_cases he : p = frame
    · exact .inr (.inr (.inl (by rw [he]; rfl)))
    · exact .inr (.inr (.inr ⟨hp, fun hp' => he (by rw [hb] at hp'; exact (Option.some_inj.mp hp').symm)⟩))
  · rw [KernelInsertParticles.insert]
    dsimp only
    rw [Function.update_self, Function.update_self]
    exact particles_insert hcount (hmask frame rfl) _ fun j => m.border.stack (entry.startIdx + j)
  · rcases hphase with hphase | hphase <;> cases hphase

theorem entry_append (entry : ExchangeMemoryIndex (D - 1)) (frame : Ptr) (phase : AppendPhase) :
    (phase.Exchanged → (Phase.append entry frame phase).entry = none) ∧
      (¬ phase.Exchanged → (Phase.append entry frame phase).entry = some entry) := by
  cases phase with
  | clear | read | write | exchange => exact ⟨fun h => h.elim, fun _ => rfl⟩
  | _ => exact ⟨fun _ => rfl, fun h => absurd trivial h⟩

theorem Inserting.go (h : Inserting M mapper exchangeType start L L' leaked m phases)
    {entry : ExchangeMemoryIndex (D - 1)} {frame : Ptr} {phase : AppendPhase}
    (hb : phases b = .append entry frame phase) (box : ParticlesBox D T α) (phase' : AppendPhase)
    (hexchanged : phase'.Exchanged ↔ phase.Exchanged)
    (hlinked : LinkedExcept box L'
      {q | ∃ b', (Function.update phases b (.append entry frame phase') b').Appends AppendPhase.Unlinked q}
      {q | ∃ b', (Function.update phases b (.append entry frame phase') b').Appends AppendPhase.Unset q})
    (hmask : box.multiMask = m.box.multiMask) (hattr : box.attributes = m.box.attributes)
    (halloc : box.allocated = m.box.allocated)
    (hnext : ∀ q, q ≠ frame → (∀ c, q ∉ L' c) → box.nextFrame q = m.box.nextFrame q)
    (hcleared : phase'.Cleared → box.nextFrame frame = none)
    (hold : ∀ old, phase' = .writeOld old ∨ phase' = .link old → phase = .writeOld old ∨ phase = .link old) :
    Inserting M mapper exchangeType start L L' leaked { m with box := box }
      (Function.update phases b (.append entry frame phase')) := by
  obtain ⟨hmem, hparticles, -, hplace⟩ := hb ▸ h.blocks b
  obtain ⟨hframe, -, hfree⟩ := h.frames b frame (by rw [hb]; rfl)
  rw [hb] at hfree
  have hentry : (Phase.append entry frame phase').entry = (Phase.append entry frame phase).entry := by
    by_cases hphase : phase.Exchanged
    · rw [(entry_append entry frame phase).1 hphase, (entry_append entry frame phase').1 (hexchanged.mpr hphase)]
    · rw [(entry_append entry frame phase).2 hphase, (entry_append entry frame phase').2 (mt hexchanged.mp hphase)]
  refine h.update (.of_lists halloc.ge (fun p _ _ => ⟨by rw [hmask], by rw [hattr]⟩)
      fun p _ hp => hnext p fun he => hp (by rw [hb, he]; rfl))
    hlinked rfl rfl (by rw [hb]; rfl) le_rfl (fun c => ?_) (fun p hp => ?_) (fun p hp => ?_) subset_rfl
    ⟨fun hphase => hmem (hexchanged.mp hphase), fun hphase => ?_, hcleared,
      fun old hphase => hplace old (hold old hphase)⟩
  · have hcontents : box.contents (L' c) 1 = m.box.contents (L' c) 1 :=
      contents_congr (fun _ _ => by rw [hmask]) fun _ _ => by rw [hattr]
    rw [hentry, hb, hcontents]
  · obtain rfl := Option.some_inj.mp hp
    refine ⟨halloc ▸ hframe, .inl (by rw [hb]; rfl), fun hphase => hfree fun hphase' => hphase (hexchanged.mpr hphase')⟩
  · by_cases he : p = frame
    · exact .inr (.inr (.inl (by rw [he]; rfl)))
    · exact .inr (.inr (.inr ⟨halloc ▸ hp, fun hp' => he (by rw [hb] at hp'; exact (Option.some_inj.mp hp').symm)⟩))
  · dsimp only
    rw [hmask, hattr]
    exact hparticles fun hphase' => hphase (hexchanged.mpr hphase')

theorem Inserting.exchange (h : Inserting M mapper exchangeType start L L' leaked m phases)
    {entry : ExchangeMemoryIndex (D - 1)} {frame : Ptr} (hb : phases b = .append entry frame .exchange)
    {c : DataSpace D} (hc : dstSuperCell mapper exchangeType entry.superCell = c) :
    Inserting M mapper exchangeType start L (Function.update L' c (L' c ++ [frame])) leaked
      { m with box := { m.box with lastFramePtr := Function.update m.box.lastFramePtr c (some frame) } }
      (Function.update phases b (.append entry frame (.writeOld (m.box.lastFramePtr c)))) := by
  obtain ⟨-, hparticles, hcleared, -⟩ := hb ▸ h.blocks b
  obtain ⟨hframe, -, hfree⟩ := h.frames b frame (by rw [hb]; rfl)
  have hfree := hfree (by rw [hb]; exact id)
  have happend := h.linked.append hfree hframe (hcleared trivial) c
  have hlists : ∀ c', Function.update L' c (L' c ++ [frame]) c' = L' c' ++ if c' = c then [frame] else [] := by
    intro c'
    by_cases he : c' = c
    · subst he
      rw [Function.update_self, if_pos rfl]
    · rw [Function.update_of_ne he, if_neg he, List.append_nil]
  have hself : ∀ {P : AppendPhase → Prop}, P (.writeOld (m.box.lastFramePtr c)) → (∀ q, ¬ (phases b).Appends P q) →
      Set.insert frame {q | ∃ b', (phases b').Appends P q} ⊆ {q | ∃ b', (Function.update phases b
        (.append entry frame (.writeOld (m.box.lastFramePtr c))) b').Appends P q} := fun hP hnot =>
    Set.insert_subset ⟨b, by rw [Function.update_self]; exact ⟨rfl, hP⟩⟩
      (appends_update fun q hq => absurd hq (hnot q))
  refine h.update ⟨subset_rfl, fun _ _ _ => ⟨rfl, rfl⟩, fun _ _ _ _ => rfl, fun c' => ⟨_, hlists c', fun p hp => ?_⟩⟩
    (happend.mono (hself trivial fun q => by rw [hb]; exact fun hq => hq.2)
      (hself trivial fun q => by rw [hb]; exact fun hq => hq.2)) rfl rfl (by rw [hb]; rfl) le_rfl (fun c' => ?_)
    (fun p hp => ?_) (fun p hp => ?_) subset_rfl ⟨fun _ => ?_, fun hphase => absurd trivial hphase,
      fun hphase => hphase.elim, fun old hphase => ⟨L' c, [], ?_, ?_⟩⟩
  · split at hp
    · rw [List.mem_singleton.mp hp, hb]
      rfl
    · cases hp
  · have hcontents : ∀ frames, ParticlesBox.contents { m.box with
        lastFramePtr := Function.update m.box.lastFramePtr c (some frame) } frames 1 = m.box.contents frames 1 :=
      fun _ => rfl
    rw [hlists, hcontents, contents_append, hb]
    change _ + _ + _ + 0 = _ + _ + share mapper exchangeType start.border c' entry
    rw [add_zero, add_right_comm]
    congr 1
    rw [share, hc]
    by_cases he : c' = c
    · rw [if_pos he, if_pos he.symm, contents_cons, contents_nil, add_zero, hparticles id, StackExchangeBuffer.tile,
        StackExchangeBuffer.tile, h.stack]
    · rw [if_neg he, if_neg (Ne.symm he), contents_nil]
  · obtain rfl := Option.some_inj.mp hp
    exact ⟨hframe, .inl (by rw [hb]; rfl), fun hphase => absurd trivial hphase⟩
  · by_cases he : p = frame
    · exact .inr (.inr (.inl (by rw [he]; rfl)))
    · exact .inr (.inr (.inr ⟨hp, fun hp' => he (by rw [hb] at hp'; exact (Option.some_inj.mp hp').symm)⟩))
  · rw [hc, Function.update_self]
    simp
  · rw [hc, Function.update_self]
  · rcases hphase with hphase | hphase
    · rw [← AppendPhase.writeOld.inj hphase]
      exact h.linked.last c
    · cases hphase

theorem Inserting.append (h : Inserting M mapper exchangeType start L L' leaked m phases)
    {entry : ExchangeMemoryIndex (D - 1)} {frame : Ptr} {phase phase' : AppendPhase}
    (hb : phases b = .append entry frame phase) {box : ParticlesBox D T α}
    (hstep : setAsLastFrame frame (dstSuperCell mapper exchangeType entry.superCell) m.box phase = some (box, phase')) :
    ∃ L'', Inserting M mapper exchangeType start L L'' leaked { m with box := box }
      (Function.update phases b (.append entry frame phase')) := by
  obtain ⟨-, -, hcleared, hplace⟩ := hb ▸ h.blocks b
  obtain ⟨-, -, hfree⟩ := h.frames b frame (by rw [hb]; rfl)
  rw [hb] at hfree
  -- a phase that does not link keeps the two sets
  have hsame : ∀ {P : AppendPhase → Prop}, (P phase → P phase') → {q | ∃ b, (phases b).Appends P q} ⊆
      {q | ∃ b', (Function.update phases b (.append entry frame phase') b').Appends P q} := fun hP =>
    appends_update fun q hq => by
      rw [hb] at hq
      exact ⟨hq.1, hP hq.2⟩
  have hdone : ∀ {P : AppendPhase → Prop}, {q | ∃ b, (phases b).Appends P q} \ {frame} ⊆
      {q | ∃ b', (Function.update phases b (.append entry frame phase') b').Appends P q} := fun {P} =>
    appends_update_sdiff fun q hq => by
      rw [hb] at hq
      exact hq.1.symm
  have hne : ¬ phase.Exchanged → ∀ c, ∀ p ∈ L' c, p ≠ frame := fun hphase c p hp he => hfree hphase c (he ▸ hp)
  cases phase with
  | clear =>
    change some ({ m.box with nextFrame := Function.update m.box.nextFrame frame none }, AppendPhase.read) = _ at hstep
    obtain ⟨rfl, rfl⟩ := Prod.mk.inj (Option.some.inj hstep)
    have hlinked : LinkedExcept { m.box with nextFrame := Function.update m.box.nextFrame frame none } L' _ _ :=
      h.linked.congr rfl rfl (fun c p hp => Function.update_of_ne (hne id c p hp) _ _) (fun _ _ _ => rfl)
        h.linked.allocated
    exact ⟨L', h.go hb { m.box with nextFrame := Function.update m.box.nextFrame frame none } .read Iff.rfl
      (hlinked.mono (hsame id) (hsame id)) rfl rfl rfl (fun q hq _ => Function.update_of_ne hq _ _)
      (fun _ => Function.update_self _ _ _) fun old hold => by rcases hold with hold | hold <;> cases hold⟩
  | read =>
    change some (m.box, AppendPhase.write (m.box.lastFramePtr (dstSuperCell mapper exchangeType entry.superCell))) = _
      at hstep
    obtain ⟨rfl, rfl⟩ := Prod.mk.inj (Option.some.inj hstep)
    exact ⟨L', h.go hb m.box (.write _) Iff.rfl (h.linked.mono (hsame id) (hsame id)) rfl rfl rfl (fun _ _ _ => rfl)
      (fun _ => hcleared trivial) fun old hold => by rcases hold with hold | hold <;> cases hold⟩
  | write last =>
    change some ({ m.box with previousFrame := Function.update m.box.previousFrame frame last },
      AppendPhase.exchange) = _ at hstep
    obtain ⟨rfl, rfl⟩ := Prod.mk.inj (Option.some.inj hstep)
    have hlinked : LinkedExcept { m.box with previousFrame := Function.update m.box.previousFrame frame last } L' _ _ :=
      h.linked.congr rfl rfl (fun _ _ _ => rfl) (fun c p hp => Function.update_of_ne (hne id c p hp) _ _)
        h.linked.allocated
    exact ⟨L', h.go hb { m.box with previousFrame := Function.update m.box.previousFrame frame last } .exchange Iff.rfl
      (hlinked.mono (hsame id) (hsame id)) rfl rfl rfl (fun _ _ _ => rfl) (fun _ => hcleared trivial)
      fun old hold => by rcases hold with hold | hold <;> cases hold⟩
  | exchange =>
    obtain ⟨rfl, rfl⟩ := Prod.mk.inj (Option.some.inj hstep)
    exact ⟨_, h.exchange hb rfl⟩
  | writeOld old =>
    change some ({ m.box with previousFrame := Function.update m.box.previousFrame frame old },
      AppendPhase.link old) = _ at hstep
    obtain ⟨rfl, rfl⟩ := Prod.mk.inj (Option.some.inj hstep)
    obtain ⟨l, r, hl, rfl⟩ := hplace old (.inl rfl)
    exact ⟨L', h.go hb { m.box with previousFrame := Function.update m.box.previousFrame frame l.getLast? }
      (.link l.getLast?) Iff.rfl ((h.linked.setPrevious hl).mono (hsame id) hdone) rfl rfl rfl (fun _ _ _ => rfl)
      (fun hphase => hphase.elim) fun old hold => by
        rcases hold with hold | hold
        · cases hold
        · exact .inl (by rw [AppendPhase.link.inj hold])⟩
  | link old =>
    change some (m.box.setNext (dstSuperCell mapper exchangeType entry.superCell) old frame,
      AppendPhase.returned) = _ at hstep
    obtain ⟨rfl, rfl⟩ := Prod.mk.inj (Option.some.inj hstep)
    obtain ⟨l, r, hl, rfl⟩ := hplace old (.inr rfl)
    have hbox : ∀ q, (∀ c, q ∉ L' c) →
        (m.box.setNext (dstSuperCell mapper exchangeType entry.superCell) l.getLast? frame).nextFrame q =
          m.box.nextFrame q := fun q hq => by
      unfold setNext
      cases hlast : l.getLast? with
      | none => rfl
      | some q' =>
        refine Function.update_of_ne (fun he => hq (dstSuperCell mapper exchangeType entry.superCell) ?_) _ _
        rw [he, hl]
        exact List.mem_append_left _ (List.mem_of_getLast? hlast)
    refine ⟨L', h.go hb (m.box.setNext (dstSuperCell mapper exchangeType entry.superCell) l.getLast? frame) .returned
      Iff.rfl ((h.linked.setNext hl).mono hdone (hsame id)) ?_ ?_ ?_ (fun q _ hq => hbox q hq)
      (fun hphase => hphase.elim) fun old hold => by rcases hold with hold | hold <;> cases hold⟩ <;>
    · unfold setNext
      cases l.getLast? <;> rfl
  | returned => cases hstep

theorem Inserting.finish (h : Inserting M mapper exchangeType start L L' leaked m phases)
    {entry : ExchangeMemoryIndex (D - 1)} {frame : Ptr} (hb : phases b = .append entry frame .returned) :
    Inserting M mapper exchangeType start L L' leaked m (Function.update phases b .finished) := by
  obtain ⟨hmem, -⟩ := hb ▸ h.blocks b
  have hnot : ∀ {P : AppendPhase → Prop}, ¬ P .returned → ∀ q, ¬ (phases b).Appends P q := fun hP q hq => by
    rw [hb] at hq
    exact hP hq.2
  refine h.update (.of_lists subset_rfl (fun _ _ _ => ⟨rfl, rfl⟩) fun _ _ _ _ => rfl)
    (h.linked.mono (appends_update fun q hq => absurd hq (hnot id q))
      (appends_update fun q hq => absurd hq (hnot id q))) rfl rfl (by rw [hb]; rfl) le_rfl (fun c => by rw [hb]; rfl)
    (fun p hp => by cases hp) (fun p hp => ?_) subset_rfl trivial
  by_cases he : p = frame
  · exact .inr (.inl ⟨_, he ▸ hmem trivial⟩)
  · exact .inr (.inr (.inr ⟨hp, fun hp' => he (by rw [hb] at hp'; exact (Option.some_inj.mp hp').symm)⟩))

/-- A step of a block is a step of the launch. It leaks a frame at most if a block tries again with a frame. -/
theorem Inserting.step (hsize : start.border.counters.indexSize < 2^31) (hformed : start.border.WellFormed T)
    (h : Inserting M mapper exchangeType start L L' leaked m phases)
    (hstep : Block M mapper exchangeType m (phases b) m' phase) :
    ∃ L'' leaked', Inserting M mapper exchangeType start L L'' leaked' m' (Function.update phases b phase) ∧
      (leaked' = leaked ∨ ∃ entry numTries p, phases b = .malloc entry numTries (some p) ∧ numTries < maxTries) := by
  generalize hb : phases b = before at hstep
  cases hstep with
  | pop _ hentry => exact ⟨_, _, h.pop hsize hformed hb hentry, .inl rfl⟩
  | popNone hnone =>
    have hpos := h.indexSize_pos hb
    have hle := h.indexSize
    rw [i32_eq (by omega) (by omega)] at hnone
    omega
  | reset => exact absurd (hb ▸ h.blocks b : Holds M mapper exchangeType L' m .reset) id
  | @malloc entry numTries tmp hlt =>
    cases tmp with
    | none => exact ⟨_, _, h.malloc hb hlt, .inl (by simp)⟩
    | some p => exact ⟨_, _, h.malloc hb hlt, .inr ⟨entry, numTries, p, rfl, hlt⟩⟩
  | insert => exact ⟨_, _, h.insert hb, .inl rfl⟩
  | append happend =>
    obtain ⟨L'', hnext⟩ := h.append hb happend
    exact ⟨L'', _, hnext, .inl rfl⟩
  | finish => exact ⟨_, _, h.finish hb, .inl rfl⟩

omit [DecidableEq ι] in
theorem inserting_start (hL : Linked start.box L) (hcard : Fintype.card ι = start.border.counters.indexSize) :
    Inserting M mapper exchangeType start L L {p | p ∈ start.box.allocated ∧ ∀ c, p ∉ L c} start fun _ : ι => .pop where
  linked := hL.linkedExcept.mono (Set.empty_subset _) (Set.empty_subset _)
  index := rfl
  stack := rfl
  waiting := by simp [Phase.waiting, hcard]
  indexSize := le_rfl
  contents c := by
    have hnone : ∑ _ : ι, (Phase.pop : Phase D).entry.elim 0 (share mapper exchangeType start.border c) = 0 :=
      Finset.sum_const_zero
    rw [hnone, add_zero]
  subset := subset_rfl
  kept _ _ := ⟨rfl, rfl⟩
  frames _ _ hp := nomatch hp
  distinct _ _ _ hp := nomatch hp
  accounted p hp := by
    by_cases hlist : ∃ c, p ∈ L c
    · exact .inr (.inl hlist)
    · exact .inl ⟨hp, not_exists.mp hlist⟩
  blocks _ := trivial

omit [DecidableEq ι] in
/-- When all blocks are through, every particle of the stack is in the supercell of its entry. -/
theorem Inserting.inserted (h : Inserting M mapper exchangeType start L L' leaked m fun _ : ι => .finished) :
    Linked m.box L' ∧ (∀ c, m.box.contents (L' c) 1 = start.box.contents (L c) 1 +
      arrivals mapper exchangeType c start.border.particles) ∧
    ∀ p ∈ m.box.allocated, p ∈ leaked ∨ ∃ c, p ∈ L' c := by
  have hzero : m.border.counters.indexSize = 0 := by
    rw [← h.waiting]
    exact Finset.sum_eq_zero fun _ _ => rfl
  refine ⟨h.linked.linked ?_ ?_, fun c => ?_, fun p hp => ?_⟩
  · rintro c p - ⟨b, hb⟩
    exact hb
  · rintro c p - ⟨b, hb⟩
    exact hb
  · have hnone : ∑ _ : ι, (Phase.finished : Phase D).entry.elim 0 (share mapper exchangeType start.border c) = 0 :=
      Finset.sum_const_zero
    rw [← inStack_eq_arrivals, ← h.contents c, hzero, hnone, add_zero, inStack, Finset.range_zero, Finset.sum_empty,
      add_zero]
  · rcases h.accounted p hp with hleak | hlist | ⟨b, hb⟩
    · exact .inl hleak
    · exact .inr hlist
    · cases hb

omit [DecidableEq ι] in
theorem Inserting.exists_malloc_eq_none (h : Inserting M mapper exchangeType start L L' leaked m phases)
    (hb : OutOfMemory (phases b)) : ∃ k A, M.malloc k A = none := by
  have hholds := h.blocks b
  cases hphase : phases b with
  | malloc entry numTries tmp =>
    rw [hphase] at hb hholds
    obtain ⟨rfl, rfl⟩ := hb
    exact (hholds.2.2.2 rfl).resolve_left (by decide)
  | _ =>
    rw [hphase] at hb
    exact hb.elim

omit [DecidableEq ι] in
/-- A block that is not through is stuck only without memory. -/
theorem Inserting.exists_step (hsize : start.border.counters.indexSize < 2^31) (hformed : start.border.WellFormed T)
    (h : Inserting M mapper exchangeType start L L' leaked m phases) (hb : phases b ≠ .finished) :
    OutOfMemory (phases b) ∨ ∃ m' phase, Block M mapper exchangeType m (phases b) m' phase := by
  have hholds := h.blocks b
  cases hphase : phases b with
  | pop =>
    have hpos := h.indexSize_pos hphase
    have hle := h.indexSize
    obtain ⟨entry, hentry, -⟩ := hformed (m.border.counters.indexSize - 1) (by omega)
    exact .inr ⟨_, _, .pop (by rw [i32_eq (by omega) (by omega)]; omega) (by rw [h.index]; exact hentry)⟩
  | reset =>
    rw [hphase] at hholds
    exact hholds.elim
  | malloc entry numTries tmp =>
    by_cases hlt : numTries < maxTries
    · exact .inr ⟨_, _, .malloc hlt⟩
    · rw [hphase] at hholds
      obtain rfl : numTries = maxTries := le_antisymm hholds.2.1 (not_lt.mp hlt)
      cases tmp with
      | none => exact .inl ⟨rfl, rfl⟩
      | some p => exact .inr ⟨_, _, .insert⟩
  | append entry frame phase =>
    cases phase with
    | returned => exact .inr ⟨_, _, .finish⟩
    | _ => exact .inr ⟨_, _, .append rfl⟩
  | finished => exact absurd hphase hb

end Launch

end KernelInsertParticles

end PIConGPU
