import PIConGPU.ShiftParticles

/-!
# Particles of the supercells under shiftParticles

The state between two blocks: which particles every supercell holds, sorted by mask, and which
supercells are compact. Shifting a supercell moves its marked particles to the neighbours; the
two other kernels of a phase restore the invariant of the supercells that were shifted.
-/
namespace PIConGPU.ParticlesBase

open BlockThreads FrameContents ParticlesBox StrideMapping KernelShiftParticles

variable {D T : ℕ} {α : Type*} {M : MallocMC} {r : ℕ} {c : DataSpace D}
  {N : DataSpace D → ℕ → Multiset α} {loose tight : Set (DataSpace D)}
  {box : ParticlesBox D T α} {L : DataSpace D → List Ptr}

/-- Supercells outside of `loose` are compact, those in `tight` have gaps in the last frame only. -/
structure State (r : ℕ) (N : DataSpace D → ℕ → Multiset α) (loose tight : Set (DataSpace D))
    (box : ParticlesBox D T α) (L : DataSpace D → List Ptr) : Prop where
  linked : Linked box L
  attempts : (box.attempts + 12) % maxTries = r
  size_le : ∀ s, box.sizeLastFrame s ≤ T
  contents_eq : ∀ s m, 1 ≤ m → box.contents (L s) m = N s m
  mustShift : ∀ s m, 2 ≤ m → N s m ≠ 0 → box.mustShift s = true
  compact : ∀ s, s ∉ loose → Compact box (L s) (box.sizeLastFrame s)
  full : ∀ s ∈ tight, KernelFillGaps.FullButLast box (L s)

theorem multiMask_ne_of_contents {frames : List Ptr} {m : ℕ} (h : box.contents frames m = 0) :
    ∀ q ∈ frames, ∀ t, box.multiMask q t ≠ m := by
  induction frames with
  | nil => simp
  | cons p frames ih =>
    rw [contents_cons] at h
    obtain ⟨hp, hrest⟩ := add_eq_zero.mp h
    intro q hq t
    rcases List.mem_cons.mp hq with rfl | hq
    · intro he
      have hempty := Multiset.map_eq_zero.mp hp
      have : t ∈ Finset.univ.filter fun t => box.multiMask q t = m := by simpa using he
      rw [Finset.val_eq_zero.mp hempty] at this
      simp at this
    · exact ih hrest q hq t

theorem State.multiMask_le (h : State r N loose tight box L) {s : DataSpace D} {b : ℕ} (hb : 1 ≤ b)
    (hN : ∀ m, b < m → N s m = 0) : ∀ q ∈ L s, ∀ t, box.multiMask q t ≤ b := by
  intro q hq t
  by_contra hlt
  have hm : b < box.multiMask q t := not_le.mp hlt
  exact multiMask_ne_of_contents ((h.contents_eq s _ (by omega)).trans (hN _ hm)) q hq t rfl

def shiftN (N : DataSpace D → ℕ → Multiset α) (c s : DataSpace D) (m : ℕ) : Multiset α :=
  if m = 1 then
    N s 1 + ∑ j ∈ Finset.range (numberOfExchanges D - 1), if relative c j = s then N c (j + 2) else 0
  else if s = c then 0 else N s m

theorem contents_deleted {box' : ParticlesBox D T α} {frames : List Ptr} {m : ℕ} (hm : 1 ≤ m)
    (h : ∀ q ∈ frames, box'.attributes q = box.attributes q ∧
      box'.multiMask q = fun t => if 2 ≤ box.multiMask q t then 0 else box.multiMask q t) :
    box'.contents frames m = if m = 1 then box.contents frames 1 else 0 := by
  split
  case isTrue hone =>
    subst hone
    unfold contents
    congr 1
    refine List.map_congr_left fun q hq => ?_
    obtain ⟨ha, hmask⟩ := h q hq
    rw [ha, hmask]
    refine particles_congr (fun t => ?_) fun _ _ => rfl
    split <;> omega
  case isFalse hne =>
    refine contents_eq_zero fun q hq t => ?_
    rw [(h q hq).2]
    dsimp only
    split <;> omega

theorem sum_relative_eq_zero {s : DataSpace D} (h : ∀ j, j + 1 < numberOfExchanges D → s ≠ relative c j)
    (f : ℕ → Multiset α) :
    (∑ j ∈ Finset.range (numberOfExchanges D - 1), if relative c j = s then f j else 0) = 0 := by
  refine Finset.sum_eq_zero fun j hj => if_neg fun he => h j ?_ he.symm
  have := Finset.mem_range.mp hj
  omega

theorem sum_relative {j : ℕ} (hj : j + 1 < numberOfExchanges D) (f : ℕ → Multiset α) :
    (∑ i ∈ Finset.range (numberOfExchanges D - 1), if relative c i = relative c j then f i else 0) = f j := by
  rw [Finset.sum_eq_single j]
  · rw [if_pos rfl]
  · intro i hi hij
    have := Finset.mem_range.mp hi
    exact if_neg fun he => hij (relative_inj (by omega) (by omega) he)
  · intro hj'
    exact absurd (Finset.mem_range.mpr (by omega)) hj'

section Steps

variable (hM : MallocMC.Serves M r) (hT : 2 * T ≤ 65536) (hpos : 0 < T)

include hM hT hpos in
theorem State.shift (h : State r N loose ∅ box L) (hN : ∀ m, numberOfExchanges D < m → N c m = 0)
    (hnb : ∀ j, j + 1 < numberOfExchanges D → relative c j ∉ loose)
    (hleaves : ∀ j, j + 1 < numberOfExchanges D → LeavesFrame box L c j) (order : ℕ → Equiv.Perm (Fin T)) :
    ∃ box' L', KernelShiftParticles.block M order box c = some box' ∧
      State r (shiftN N c) (insert c loose) ∅ box' L' := by
  obtain ⟨box', L', hrun, hlinked, hatt, -, hsize, hshifted⟩ := KernelShiftParticles.block_spec
    hM (fun h : False => h.elim) hT hpos order h.linked h.attempts (fun h => h.elim) h.size_le
    (h.multiMask_le (numberOfExchanges_pos D) hN)
  have hb : BlockShifted c box L box' L' := by
    refine hshifted ?_
    by_cases hmarks : ∃ m, 2 ≤ m ∧ N c m ≠ 0
    · obtain ⟨m, hm, hne⟩ := hmarks
      exact .inl (h.mustShift c m hm hne)
    · push Not at hmarks
      exact .inr (h.multiMask_le le_rfl fun m hm => hmarks m hm)
  refine ⟨box', L', hrun, hlinked, hatt, hsize, fun s m hm => ?_, fun s m hm hne => ?_, fun s hs => ?_,
    fun s hs => absurd hs (Set.notMem_empty s)⟩
  · by_cases hsc : s = c
    · subst hsc
      rw [hb.own_list, contents_deleted hm hb.own_frames, shiftN, h.contents_eq s 1 le_rfl,
        sum_relative_eq_zero fun j hj => (relative_ne_own s hj).symm, add_zero, if_pos rfl]
    · by_cases hrel : ∃ j, j + 1 < numberOfExchanges D ∧ s = relative c j
      · obtain ⟨j, hj, rfl⟩ := hrel
        rw [(hb.neighbor j hj (h.compact _ (hnb j hj))).1 m hm, deliver, shiftN, sum_relative hj,
          h.contents_eq _ 1 le_rfl, h.contents_eq _ m hm, h.contents_eq c _ (by omega), if_neg hsc]
      · have hrel' : ∀ j, j + 1 < numberOfExchanges D → s ≠ relative c j := fun j hj he => hrel ⟨j, hj, he⟩
        obtain ⟨hl, -, hf⟩ := hb.outside s hsc hrel'
        rw [hl, contents_congr (fun q hq => (hf q hq).1) fun q hq => (hf q hq).2, h.contents_eq s m hm, shiftN,
          sum_relative_eq_zero hrel', add_zero, if_neg hsc]
        split
        case isTrue hone => rw [hone]
        case isFalse => rfl
  · have hsc : s ≠ c := by
      rintro rfl
      exact hne (by rw [shiftN, if_neg (by omega), if_pos rfl])
    rw [shiftN, if_neg (by omega), if_neg hsc] at hne
    rw [hb.mustShift, Function.update_of_ne hsc]
    exact h.mustShift s m hm hne
  · obtain ⟨hsc, hsl⟩ : s ≠ c ∧ s ∉ loose := by simpa using hs
    by_cases hrel : ∃ j, j + 1 < numberOfExchanges D ∧ s = relative c j
    · obtain ⟨j, hj, rfl⟩ := hrel
      exact (hb.neighbor j hj (h.compact _ hsl)).2.1 (hleaves j hj)
    · obtain ⟨hl, hsz, hf⟩ := hb.outside s hsc fun j hj he => hrel ⟨j, hj, he⟩
      rw [hl, hsz]
      exact (h.compact s hsl).congr fun q hq => (hf q hq).1

theorem State.fillGaps (hT : T ≤ 65535) (h : State r N loose tight box L) (hc : c ∈ loose) (hN : ∀ m, 2 ≤ m → N c m = 0)
    (order : ℕ → Equiv.Perm (Fin T) × Equiv.Perm (Fin T)) :
    ∃ box' L', KernelFillGaps.block order box c = some box' ∧ State r N loose (insert c tight) box' L' := by
  obtain ⟨box', L', hrun, ht, hfb, -⟩ := KernelFillGaps.block_spec hT order h.linked c
  refine ⟨box', L', hrun, ht.linked, by rw [ht.attempts]; exact h.attempts, by rw [ht.size]; exact h.size_le,
    fun s m hm => ?_, by rw [ht.mustShift]; exact h.mustShift, fun s hs => ?_, fun s hs => ?_⟩
  · by_cases hsc : s = c
    · subst hsc
      rcases Nat.eq_or_lt_of_le hm with rfl | hm2
      · rw [ht.contents_eq, h.contents_eq s 1 le_rfl]
      · rw [hN m hm2]
        refine contents_eq_zero fun q hq t => ?_
        have h1 := ht.multiMask_le q hq t
        have h2 := h.multiMask_le le_rfl (fun m hm => hN m hm) q (ht.own hq) t
        omega
    · rw [ht.lists s hsc, contents_congr (fun q hq => (ht.frames s hsc q hq).1)
        fun q hq => (ht.frames s hsc q hq).2, h.contents_eq s m hm]
  · have hsc : s ≠ c := fun he => hs (he ▸ hc)
    rw [ht.lists s hsc, ht.size]
    exact (h.compact s hs).congr fun q hq => (ht.frames s hsc q hq).1
  · by_cases hsc : s = c
    · rw [hsc]
      exact hfb
    · have hst : s ∈ tight := (Set.mem_insert_iff.mp hs).resolve_left hsc
      rw [ht.lists s hsc]
      intro l p he q hq t
      rw [(ht.frames s hsc q (by simp [he, hq])).1]
      exact h.full s hst l p he q hq t

theorem State.fillGapsLastFrame (hT : T ≤ 65535) (h : State r N loose tight box L) (hc : c ∈ tight)
    (hN : ∀ m, 2 ≤ m → N c m = 0) (σ : Equiv.Perm (Fin T) × Equiv.Perm (Fin T) × Equiv.Perm (Fin T)) :
    ∃ box', KernelFillGapsLastFrame.block σ box c = some box' ∧ State r N (loose \ {c}) tight box' L := by
  obtain ⟨box', k, hrun, hk, hbox, hother, hle, hcompact, hcontents⟩ :=
    KernelFillGapsLastFrame.block_spec hT σ h.linked c
  have hone : ∀ q ∈ L c, ∀ t, box.multiMask q t ≤ 1 := h.multiMask_le le_rfl fun m hm => hN m hm
  have hframes : ∀ s, s ≠ c → ∀ q ∈ L s, box'.multiMask q = box.multiMask q ∧
      box'.attributes q = box.attributes q := fun s hsc q hq =>
    hother q fun hqc => hsc (h.linked.disjoint s c q hq hqc)
  have hsize : box'.sizeLastFrame = Function.update box.sizeLastFrame c k := by rw [hbox]
  refine ⟨box', hrun, ?_, ?_, fun s => ?_, fun s m hm => ?_, ?_, fun s hs => ?_, fun s hs => ?_⟩
  · rw [hbox]
    exact h.linked.congr rfl rfl (fun _ _ _ => rfl) (fun _ _ _ => rfl) h.linked.allocated
  · rw [hbox]
    exact h.attempts
  · rw [hsize]
    by_cases hsc : s = c
    · rw [hsc, Function.update_self]
      exact hk
    · rw [Function.update_of_ne hsc]
      exact h.size_le s
  · by_cases hsc : s = c
    · subst hsc
      rcases Nat.eq_or_lt_of_le hm with rfl | hm2
      · rw [hcontents hone, h.contents_eq s 1 le_rfl]
      · rw [hN m hm2]
        refine contents_eq_zero fun q hq t => ?_
        have h1 := hle q t
        have h2 := hone q hq t
        omega
    · rw [contents_congr (fun q hq => (hframes s hsc q hq).1) fun q hq => (hframes s hsc q hq).2,
        h.contents_eq s m hm]
  · rw [hbox]
    exact h.mustShift
  · rw [hsize]
    by_cases hsc : s = c
    · rw [hsc, Function.update_self]
      exact hcompact (h.full c hc)
    · rw [Function.update_of_ne hsc]
      exact (h.compact s fun hl => hs ⟨hl, hsc⟩).congr fun q hq => (hframes s hsc q hq).1
  · by_cases hsc : s = c
    · subst hsc
      intro l p he q hq
      exact ((hcompact (h.full s hs)).filled l p he).1 q hq
    · intro l p he q hq t
      rw [(hframes s hsc q (by simp [he, hq])).1]
      exact h.full s hs l p he q hq t

theorem State.foldlM_fillGaps {κ : Type*} (cell : κ → DataSpace D)
    (order : κ → ℕ → Equiv.Perm (Fin T) × Equiv.Perm (Fin T)) (hT : T ≤ 65535) (blocks : List κ)
    (hblocks : ∀ idx ∈ blocks, cell idx ∈ loose ∧ ∀ m, 2 ≤ m → N (cell idx) m = 0)
    (h : State r N loose tight box L) :
    ∃ box' L', blocks.foldlM (fun box idx => KernelFillGaps.block (order idx) box (cell idx)) box = some box' ∧
      State r N loose (tight ∪ {c | c ∈ blocks.map cell}) box' L' := by
  induction blocks generalizing tight box L with
  | nil => exact ⟨box, L, rfl, by simpa using h⟩
  | cons idx blocks ih =>
    obtain ⟨hc, hN⟩ := hblocks idx (List.mem_cons_self ..)
    obtain ⟨box₁, L₁, hrun₁, h₁⟩ := h.fillGaps hT hc hN (order idx)
    obtain ⟨box₂, L₂, hrun₂, h₂⟩ := ih (fun i hi => hblocks i (List.mem_cons_of_mem _ hi)) h₁
    refine ⟨box₂, L₂, ?_, ?_⟩
    · rw [List.foldlM_cons, hrun₁]
      exact hrun₂
    · have ht : insert (cell idx) tight ∪ {c | c ∈ blocks.map cell} =
          tight ∪ {c | c ∈ (idx :: blocks).map cell} := by
        ext s
        simp only [Set.mem_union, Set.mem_insert_iff, Set.mem_ofPred_eq, List.map_cons, List.mem_cons]
        tauto
      rwa [ht] at h₂

theorem State.foldlM_fillGapsLastFrame {κ : Type*} (cell : κ → DataSpace D)
    (order : κ → Equiv.Perm (Fin T) × Equiv.Perm (Fin T) × Equiv.Perm (Fin T)) (hT : T ≤ 65535) (blocks : List κ)
    (hblocks : ∀ idx ∈ blocks, cell idx ∈ tight ∧ ∀ m, 2 ≤ m → N (cell idx) m = 0)
    (h : State r N loose tight box L) :
    ∃ box', blocks.foldlM (fun box idx => KernelFillGapsLastFrame.block (order idx) box (cell idx)) box =
      some box' ∧ State r N (loose \ {c | c ∈ blocks.map cell}) tight box' L := by
  induction blocks generalizing loose box with
  | nil => exact ⟨box, rfl, by simpa using h⟩
  | cons idx blocks ih =>
    obtain ⟨hc, hN⟩ := hblocks idx (List.mem_cons_self ..)
    obtain ⟨box₁, hrun₁, h₁⟩ := h.fillGapsLastFrame hT hc hN (order idx)
    obtain ⟨box₂, hrun₂, h₂⟩ := ih (fun i hi => hblocks i (List.mem_cons_of_mem _ hi)) h₁
    refine ⟨box₂, ?_, ?_⟩
    · rw [List.foldlM_cons, hrun₁]
      exact hrun₂
    · have hl : (loose \ {cell idx}) \ {c | c ∈ blocks.map cell} = loose \ {c | c ∈ (idx :: blocks).map cell} := by
        ext s
        simp only [Set.mem_sdiff, Set.mem_singleton_iff, Set.mem_ofPred_eq, List.map_cons, List.mem_cons]
        tauto
      rwa [hl] at h₂

end Steps

def shiftedN (N : DataSpace D → ℕ → Multiset α) (P : Finset (DataSpace D)) (s : DataSpace D) (m : ℕ) :
    Multiset α :=
  if m = 1 then
    N s 1 + ∑ j ∈ Finset.range (numberOfExchanges D - 1),
      if s - getRelativeDirections D (j + 1) ∈ P then N (s - getRelativeDirections D (j + 1)) (j + 2) else 0
  else if s ∈ P then 0 else N s m

theorem shiftedN_empty (N : DataSpace D → ℕ → Multiset α) {m : ℕ} (s : DataSpace D) :
    shiftedN N ∅ s m = N s m := by
  unfold shiftedN
  split
  case isTrue hone => simp [hone]
  case isFalse => simp

theorem shiftN_shiftedN (N : DataSpace D → ℕ → Multiset α) {P : Finset (DataSpace D)} (hc : c ∉ P) :
    shiftN (shiftedN N P) c = shiftedN N (insert c P) := by
  funext s m
  unfold shiftN
  by_cases hone : m = 1
  · rw [if_pos hone, shiftedN, shiftedN, if_pos rfl, if_pos hone, add_assoc, ← Finset.sum_add_distrib]
    congr 1
    refine Finset.sum_congr rfl fun j _ => ?_
    have hiff : relative c j = s ↔ s - getRelativeDirections D (j + 1) = c := by
      rw [relative, sub_eq_iff_eq_add]
      exact eq_comm
    by_cases hrel : relative c j = s
    · have he := hiff.mp hrel
      rw [if_pos hrel, he, if_neg hc, if_pos (Finset.mem_insert_self ..), zero_add, shiftedN, if_neg (by omega),
        if_neg hc]
    · have hne : s - getRelativeDirections D (j + 1) ≠ c := fun he => hrel (hiff.mpr he)
      rw [if_neg hrel, add_zero]
      simp [hne]
  · rw [if_neg hone, shiftedN, shiftedN, if_neg hone, if_neg hone]
    by_cases hsc : s = c
    · simp [hsc]
    · simp [hsc]

/-- The condition on the memory before a block of KernelShiftParticles: no neighbour without frames gets its
last particles in a full frame that is handed over before the end of the block. -/
def BlockSafe (box : ParticlesBox D T α) (c : DataSpace D) : Prop :=
  ∀ L, Linked box L → ∀ j, j + 1 < numberOfExchanges D → LeavesFrame box L c j

section Run

variable (M) (mapper : MappingDesc D)

/-- Every block of the kernel meets the condition when it starts. -/
def ShiftSafe (sched : PhaseSchedule D T) (offset : DataSpace D) : List (DataSpace D) → ParticlesBox D T α → Prop
  | [], _ => True
  | idx :: blocks, box => BlockSafe box (getSuperCellIndex mapper offset idx) ∧
    ∀ box', KernelShiftParticles.block M (sched.shiftOrder idx) box (getSuperCellIndex mapper offset idx) =
      some box' → ShiftSafe sched offset blocks box'

def PhasesSafe (sched : DataSpace D → PhaseSchedule D T) : ℕ → DataSpace D → ParticlesBox D T α → Prop
  | 0, _, _ => True
  | n + 1, offset, box => ShiftSafe M mapper (sched offset) offset (sched offset).shiftBlocks box ∧
    ∀ box', runPhase M mapper (sched offset) offset box = some box' →
      ∀ offset', next offset = some offset' → PhasesSafe sched n offset' box'

def Independent (S : Set (DataSpace D)) : Prop :=
  ∀ c ∈ S, ∀ c' ∈ S, ∀ j, j + 1 < numberOfExchanges D → relative c j ≠ c'

variable {M mapper} {N₀ : DataSpace D → ℕ → Multiset α} {P : Finset (DataSpace D)}
  (hM : MallocMC.Serves M r) (hT : 2 * T ≤ 65536) (hpos : 0 < T)
  (hN₀ : ∀ s m, numberOfExchanges D < m → N₀ s m = 0)

omit hM hT hpos in
include hN₀ in
theorem shiftedN_eq_zero (s : DataSpace D) {m : ℕ} (hm : numberOfExchanges D < m) : shiftedN N₀ P s m = 0 := by
  have := numberOfExchanges_pos D
  rw [shiftedN, if_neg (by omega), hN₀ s m hm]
  split <;> rfl

include hM hT hpos hN₀ in
theorem runShift_spec {sched : PhaseSchedule D T} {offset : DataSpace D} {S : Set (DataSpace D)}
    (hS : Independent S) (blocks : List (DataSpace D)) (hnd : blocks.Nodup)
    (hblocks : ∀ idx ∈ blocks, getSuperCellIndex mapper offset idx ∈ S ∧ getSuperCellIndex mapper offset idx ∉ P)
    (hloose : loose ⊆ S) (h : State r (shiftedN N₀ P) loose ∅ box L)
    (hsafe : ShiftSafe M mapper sched offset blocks box) :
    ∃ box' L', runShift M mapper sched offset blocks box = some box' ∧
      State r (shiftedN N₀ (P ∪ (blocks.map (getSuperCellIndex mapper offset)).toFinset))
        (loose ∪ {c | c ∈ blocks.map (getSuperCellIndex mapper offset)}) ∅ box' L' := by
  induction blocks generalizing box L loose P with
  | nil => exact ⟨box, L, rfl, by simpa using h⟩
  | cons idx blocks ih =>
    obtain ⟨hidx, hnd⟩ := List.nodup_cons.mp hnd
    obtain ⟨hcS, hcP⟩ := hblocks idx (List.mem_cons_self ..)
    set c := getSuperCellIndex mapper offset idx with hc
    obtain ⟨hblock, hrest⟩ := hsafe
    obtain ⟨box₁, L₁, hrun, h₁⟩ := h.shift hM hT hpos (fun m hm => shiftedN_eq_zero hN₀ c hm)
      (fun j hj hl => hS c hcS _ (hloose hl) j hj rfl) (hblock L h.linked) (sched.shiftOrder idx)
    rw [shiftN_shiftedN N₀ hcP] at h₁
    obtain ⟨box₂, L₂, hrun₂, h₂⟩ := ih (P := insert c P) hnd
      (fun i hi => by
        refine ⟨(hblocks i (List.mem_cons_of_mem _ hi)).1, ?_⟩
        rw [Finset.mem_insert, not_or]
        refine ⟨fun he => hidx ?_, (hblocks i (List.mem_cons_of_mem _ hi)).2⟩
        rw [← getSuperCellIndex_injective mapper offset he]
        exact hi)
      (Set.insert_subset hcS hloose) h₁ (hrest box₁ hrun)
    refine ⟨box₂, L₂, ?_, ?_⟩
    · rw [runShift, List.foldlM_cons, hrun]
      exact hrun₂
    · have hP : insert c P ∪ (blocks.map (getSuperCellIndex mapper offset)).toFinset =
          P ∪ ((idx :: blocks).map (getSuperCellIndex mapper offset)).toFinset := by
        simp [← hc]
      have hl : insert c loose ∪ {c | c ∈ blocks.map (getSuperCellIndex mapper offset)} =
          loose ∪ {c | c ∈ (idx :: blocks).map (getSuperCellIndex mapper offset)} := by
        ext s
        simp only [← hc, Set.mem_union, Set.mem_insert_iff, Set.mem_ofPred_eq, List.map_cons, List.mem_cons]
        tauto
      rwa [hP, hl] at h₂

include hT in
theorem runFillGaps_spec {sched : PhaseSchedule D T} {offset : DataSpace D}
    (hblocks : ∀ idx ∈ sched.gapsBlocks, getSuperCellIndex mapper offset idx ∈ loose ∧
      ∀ m, 2 ≤ m → N (getSuperCellIndex mapper offset idx) m = 0)
    (h : State r N loose ∅ box L) :
    ∃ box' L', runFillGaps mapper sched offset box = some box' ∧
      State r N loose {c | c ∈ sched.gapsBlocks.map (getSuperCellIndex mapper offset)} box' L' := by
  obtain ⟨box', L', hrun, h'⟩ := h.foldlM_fillGaps _ _ (by omega) sched.gapsBlocks hblocks
  exact ⟨box', L', hrun, by simpa using h'⟩

include hT in
theorem runFillGapsLastFrame_spec {sched : PhaseSchedule D T} {offset : DataSpace D}
    (hblocks : ∀ idx ∈ sched.lastBlocks, getSuperCellIndex mapper offset idx ∈ tight ∧
      ∀ m, 2 ≤ m → N (getSuperCellIndex mapper offset idx) m = 0)
    (h : State r N loose tight box L) :
    ∃ box', runFillGapsLastFrame mapper sched offset box = some box' ∧
      State r N (loose \ {c | c ∈ sched.lastBlocks.map (getSuperCellIndex mapper offset)}) tight box' L := by
  exact h.foldlM_fillGapsLastFrame _ _ (by omega) sched.lastBlocks hblocks

def phaseCells (mapper : MappingDesc D) (offset : DataSpace D) : Set (DataSpace D) :=
  {c | inArea mapper c ∧ ∀ d, (c d - mapper.guardingSuperCells) % 3 = offset d}

omit hM hT hpos hN₀ in
theorem mem_launched {offset : DataSpace D} (h0 : ∀ d, 0 ≤ offset d ∧ offset d < 3)
    {blocks : List (DataSpace D)} (h : Launches mapper offset blocks) {c : DataSpace D} :
    c ∈ blocks.map (getSuperCellIndex mapper offset) ↔ c ∈ phaseCells mapper offset := by
  rw [List.mem_map]
  refine Iff.trans ?_ (exists_block_iff mapper h0 c)
  exact exists_congr fun idx => and_congr_left fun _ => h.2 idx

omit hM hT hpos hN₀ in
theorem independent_phaseCells (offset : DataSpace D) : Independent (phaseCells mapper offset) :=
  fun _ hc _ hc' _ hj => not_neighbor mapper (fun d => (hc.2 d).trans (hc'.2 d).symm) hj

include hM hT hpos hN₀ in
theorem runPhase_spec {sched : PhaseSchedule D T} {offset : DataSpace D} (h0 : ∀ d, 0 ≤ offset d ∧ offset d < 3)
    (hvalid : sched.Valid mapper offset) (hP : ∀ c ∈ phaseCells mapper offset, c ∉ P)
    (h : State r (shiftedN N₀ P) ∅ ∅ box L) (hsafe : ShiftSafe M mapper sched offset sched.shiftBlocks box) :
    ∃ box' L' P', runPhase M mapper sched offset box = some box' ∧ State r (shiftedN N₀ P') ∅ ∅ box' L' ∧
      ∀ c, c ∈ P' ↔ c ∈ P ∨ c ∈ phaseCells mapper offset := by
  obtain ⟨box₁, L₁, hrun₁, h₁⟩ := runShift_spec hM hT hpos hN₀ (independent_phaseCells offset)
    sched.shiftBlocks hvalid.shiftBlocks.1 (fun idx hidx => by
      have hmem := (mem_launched h0 hvalid.shiftBlocks).mp (List.mem_map_of_mem hidx)
      exact ⟨hmem, hP _ hmem⟩) (Set.empty_subset _) h hsafe
  set P' := P ∪ (sched.shiftBlocks.map (getSuperCellIndex mapper offset)).toFinset with hP'
  have hmemP' : ∀ c, c ∈ P' ↔ c ∈ P ∨ c ∈ phaseCells mapper offset := fun c => by
    rw [hP', Finset.mem_union, List.mem_toFinset, mem_launched h0 hvalid.shiftBlocks]
  have hzero : ∀ c ∈ phaseCells mapper offset, ∀ m, 2 ≤ m → shiftedN N₀ P' c m = 0 := fun c hc m hm => by
    rw [shiftedN, if_neg (by omega), if_pos ((hmemP' c).mpr (.inr hc))]
  have hloose : (∅ ∪ {c | c ∈ sched.shiftBlocks.map (getSuperCellIndex mapper offset)} : Set (DataSpace D)) =
      phaseCells mapper offset := by
    ext c
    rw [Set.empty_union]
    exact mem_launched h0 hvalid.shiftBlocks
  rw [hloose] at h₁
  obtain ⟨box₂, L₂, hrun₂, h₂⟩ := runFillGaps_spec hT
    (fun idx (hidx : idx ∈ sched.gapsBlocks) => by
      have hmem := (mem_launched h0 hvalid.gapsBlocks).mp (List.mem_map_of_mem hidx)
      exact ⟨hmem, hzero _ hmem⟩) h₁
  obtain ⟨box₃, hrun₃, h₃⟩ := runFillGapsLastFrame_spec hT
    (fun idx (hidx : idx ∈ sched.lastBlocks) => by
      have hmem := (mem_launched h0 hvalid.lastBlocks).mp (List.mem_map_of_mem hidx)
      exact ⟨(mem_launched h0 hvalid.gapsBlocks).mpr hmem, hzero _ hmem⟩) h₂
  refine ⟨box₃, L₂, P', ?_, ?_, hmemP'⟩
  · rw [runPhase, hrun₁, Option.bind_eq_bind, Option.bind_some, hrun₂]
    exact hrun₃
  · refine ⟨h₃.linked, h₃.attempts, h₃.size_le, h₃.contents_eq, h₃.mustShift, fun s _ => h₃.compact s ?_,
      fun s hs => absurd hs (Set.notMem_empty s)⟩
    rintro ⟨hs, hnot⟩
    exact hnot ((mem_launched h0 hvalid.lastBlocks).mpr hs)

omit hM hT hpos hN₀ in
theorem phaseOffset_bounds (k : ℕ) (d : Fin D) : 0 ≤ phaseOffset D k d ∧ phaseOffset D k d < 3 := by
  have hlt : k / 3^d.val % 3 < 3 := Nat.mod_lt _ (by norm_num)
  simp only [phaseOffset]
  omega

omit hM hT hpos hN₀ in
theorem phaseOffset_inj {k k' : ℕ} (hk : k < 3^D) (hk' : k' < 3^D) (h : phaseOffset D k = phaseOffset D k') :
    k = k' := by
  have h1 := sum_phaseOffset hk
  rw [h, sum_phaseOffset hk'] at h1
  exact_mod_cast h1.symm

omit hM hT hpos hN₀ in
/-- The supercells of a phase were not shifted before. -/
theorem phaseCells_notMem {k : ℕ} (hk : k < 3^D)
    (hP : ∀ c, c ∈ P ↔ ∃ i < k, c ∈ phaseCells mapper (phaseOffset D i)) :
    ∀ c ∈ phaseCells mapper (phaseOffset D k), c ∉ P := by
  intro c hc hcP
  obtain ⟨i, hi, hci⟩ := (hP c).mp hcP
  have he : phaseOffset D i = phaseOffset D k := funext fun d => (hci.2 d).symm.trans (hc.2 d)
  have := phaseOffset_inj (by omega) hk he
  omega

omit hM hT hpos hN₀ in
theorem phaseCells_succ {k : ℕ} {P' : Finset (DataSpace D)}
    (hP : ∀ c, c ∈ P ↔ ∃ i < k, c ∈ phaseCells mapper (phaseOffset D i))
    (hP' : ∀ c, c ∈ P' ↔ c ∈ P ∨ c ∈ phaseCells mapper (phaseOffset D k)) :
    ∀ c, c ∈ P' ↔ ∃ i < k + 1, c ∈ phaseCells mapper (phaseOffset D i) := by
  intro c
  rw [hP', hP]
  constructor
  · rintro (⟨i, hi, hc⟩ | hc)
    · exact ⟨i, by omega, hc⟩
    · exact ⟨k, by omega, hc⟩
  · rintro ⟨i, hi, hc⟩
    rcases Nat.lt_succ_iff_lt_or_eq.mp hi with hi | rfl
    · exact .inl ⟨i, hi, hc⟩
    · exact .inr hc

include hM hT hpos hN₀ in
theorem runPhases_spec {sched : DataSpace D → PhaseSchedule D T}
    (hvalid : ∀ k < 3^D, (sched (phaseOffset D k)).Valid mapper (phaseOffset D k)) {n k : ℕ}
    (hn : k + n = 3^D) (hn0 : 0 < n)
    (hP : ∀ c, c ∈ P ↔ ∃ i < k, c ∈ phaseCells mapper (phaseOffset D i))
    (h : State r (shiftedN N₀ P) ∅ ∅ box L) (hsafe : PhasesSafe M mapper sched n (phaseOffset D k) box) :
    ∃ box' L' P', runPhases M mapper sched n (phaseOffset D k) box = some box' ∧
      State r (shiftedN N₀ P') ∅ ∅ box' L' ∧ ∀ c, c ∈ P' ↔ inArea mapper c := by
  induction n generalizing k P box L with
  | zero => omega
  | succ n ih =>
    obtain ⟨hphase, hrest⟩ := hsafe
    have hk : k < 3^D := by omega
    obtain ⟨box₁, L₁, P₁, hrun₁, h₁, hP₁⟩ := runPhase_spec hM hT hpos hN₀ (phaseOffset_bounds k) (hvalid k hk)
      (phaseCells_notMem hk hP) h hphase
    have hP₁' := phaseCells_succ hP hP₁
    have hnext := next_phaseOffset hk
    by_cases hlast : k + 1 < 3^D
    · rw [if_pos hlast] at hnext
      obtain ⟨box₂, L₂, P₂, hrun₂, h₂, hP₂⟩ := ih (k := k + 1) (by omega) (by omega) hP₁' h₁
        (hrest box₁ hrun₁ _ hnext)
      refine ⟨box₂, L₂, P₂, ?_, h₂, hP₂⟩
      rw [runPhases, hrun₁, Option.bind_eq_bind, Option.bind_some, hnext]
      exact hrun₂
    · rw [if_neg hlast] at hnext
      refine ⟨box₁, L₁, P₁, ?_, h₁, fun c => ?_⟩
      · rw [runPhases, hrun₁, Option.bind_eq_bind, Option.bind_some, hnext]
      · rw [hP₁']
        constructor
        · rintro ⟨i, -, hc⟩
          exact hc.1
        · intro hc
          obtain ⟨i, hi, hd⟩ := exists_phase mapper c
          exact ⟨i, by omega, hc, hd⟩

end Run

end PIConGPU.ParticlesBase
