import PIConGPU.ParticleConservation

/-!
# What shiftParticles guarantees

Every particle ends up unmarked in the supercell it was marked for and all supercells are compact
again, provided every block of KernelShiftParticles finds a memory that meets `BlockSafe`. A simple
condition on the memory at the start that ensures this is that fewer particles than a frame has
slots leave any supercell in one direction.
-/
namespace PIConGPU.ParticlesBase

open BlockThreads FrameContents ParticlesBox StrideMapping KernelShiftParticles

variable {D T : ℕ} {α : Type*} {M : MallocMC} {mapper : MappingDesc D} {sched : DataSpace D → PhaseSchedule D T}
  {box : ParticlesBox D T α} {L : DataSpace D → List Ptr}

/-- The memory at the call: compact supercells, and marked particles in flagged supercells of
CORE and BORDER only. -/
structure Entry (mapper : MappingDesc D) (box : ParticlesBox D T α) (L : DataSpace D → List Ptr) : Prop where
  linked : Linked box L
  compact : ∀ s, Compact box (L s) (box.sizeLastFrame s)
  multiMask_le : ∀ s, ∀ q ∈ L s, ∀ t, box.multiMask q t ≤ numberOfExchanges D
  marked : ∀ s, ∀ q ∈ L s, ∀ t, 2 ≤ box.multiMask q t → inArea mapper s ∧ box.mustShift s = true

def MallocMC.Succeeds (M : MallocMC) : Prop := ∀ k A, (M.malloc k A).isSome = true

/-- The blocks of every kernel of every phase run once each. -/
def ValidSchedule (mapper : MappingDesc D) (sched : DataSpace D → PhaseSchedule D T) : Prop :=
  ∀ k < 3^D, (sched (phaseOffset D k)).Valid mapper (phaseOffset D k)

theorem exists_of_contents_ne_zero {frames : List Ptr} {m : ℕ} (h : box.contents frames m ≠ 0) :
    ∃ q ∈ frames, ∃ t, box.multiMask q t = m := by
  by_contra hnot
  push Not at hnot
  exact h (contents_eq_zero hnot)

theorem Entry.state (h : Entry mapper box L) :
    State ((box.attempts + 12) % maxTries) (shiftedN (fun s m => box.contents (L s) m) ∅) ∅ ∅ box L := by
  refine ⟨h.linked, rfl, fun s => (h.compact s).size_le, fun s m _ =>
    (shiftedN_empty (fun s m => box.contents (L s) m) s).symm, fun s m hm hne => ?_, fun s _ => h.compact s, fun s hs => absurd hs (Set.notMem_empty s)⟩
  rw [shiftedN_empty] at hne
  obtain ⟨q, hq, t, ht⟩ := exists_of_contents_ne_zero hne
  exact (h.marked s q hq t (by omega)).2

theorem Entry.contents_eq_zero (h : Entry mapper box L) (s : DataSpace D) {m : ℕ}
    (hm : numberOfExchanges D < m) : box.contents (L s) m = 0 := by
  by_contra hne
  obtain ⟨q, hq, t, ht⟩ := exists_of_contents_ne_zero hne
  have := h.multiMask_le s q hq t
  omega

section Main

variable (hM : MallocMC.Succeeds M) (hE : numberOfExchanges D ≤ T) (hT : 2 * T ≤ 65536)
  (hvalid : ValidSchedule mapper sched) (h : Entry mapper box L)
include hM hE hT hvalid h

theorem shiftParticles_state (hsafe : PhasesSafe M mapper sched (3^D) 0 box) :
    ∃ box' L' P, shiftParticles M mapper sched box = some box' ∧
      State ((box.attempts + 12) % maxTries) (shiftedN (fun s m => box.contents (L s) m) P) ∅ ∅ box' L' ∧
      ∀ c, c ∈ P ↔ inArea mapper c := by
  have hpos : 0 < T := (numberOfExchanges_pos D).trans_le hE
  rw [← phaseOffset_zero] at hsafe
  obtain ⟨box', L', P, hrun, hstate, hP⟩ := runPhases_spec (r := (box.attempts + 12) % maxTries)
    (fun k A _ => hM k A) hT hpos (fun s m hm => h.contents_eq_zero s hm) hvalid (Nat.zero_add _)
    (by positivity) (P := ∅) (by simp) h.state hsafe
  exact ⟨box', L', P, by rwa [phaseOffset_zero] at hrun, hstate, hP⟩

/-- No particle is lost or duplicated, and each one is in the supercell it was marked for. -/
theorem shiftParticles_conserves (hsafe : PhasesSafe M mapper sched (3^D) 0 box) :
    ∃ box' L', shiftParticles M mapper sched box = some box' ∧ Linked box' L' ∧
      ∀ s, (∀ q ∈ L' s, ∀ t, box'.multiMask q t ≤ 1) ∧
        box'.contents (L' s) 1 = box.contents (L s) 1 + ∑ m ∈ Finset.Ico 2 (numberOfExchanges D + 1),
          box.contents (L (s - getRelativeDirections D (m - 1))) m := by
  obtain ⟨box', L', P, hrun, hstate, hP⟩ := shiftParticles_state hM hE hT hvalid h hsafe
  have houtside : ∀ s m, 2 ≤ m → s ∉ P → box.contents (L s) m = 0 := by
    intro s m hm hs
    by_contra hne
    obtain ⟨q, hq, t, ht⟩ := exists_of_contents_ne_zero hne
    exact hs ((hP s).mpr (h.marked s q hq t (by omega)).1)
  refine ⟨box', L', hrun, hstate.linked, fun s => ⟨hstate.multiMask_le le_rfl fun m hm => ?_, ?_⟩⟩
  · rw [shiftedN, if_neg (by omega)]
    split
    · rfl
    case isFalse hs => exact houtside s m hm hs
  · rw [hstate.contents_eq s 1 le_rfl, shiftedN, if_pos rfl, Finset.sum_Ico_eq_sum_range]
    congr 1
    refine Finset.sum_congr (by rw [show numberOfExchanges D + 1 - 2 = numberOfExchanges D - 1 by omega])
      fun j _ => ?_
    rw [show 2 + j = j + 2 by omega, show j + 2 - 1 = j + 1 by omega]
    split
    · rfl
    case isFalse hs => exact (houtside _ _ (by omega) hs).symm

/-- All supercells are compact again. -/
theorem shiftParticles_compact (hsafe : PhasesSafe M mapper sched (3^D) 0 box) :
    ∃ box' L', shiftParticles M mapper sched box = some box' ∧ Linked box' L' ∧
      ∀ s, Compact box' (L' s) (box'.sizeLastFrame s) ∧ ∀ l p, L' s = l ++ [p] →
        (Finset.univ.filter fun t => box'.multiMask p t ≠ 0).card = box'.sizeLastFrame s := by
  obtain ⟨box', L', P, hrun, hstate, -⟩ := shiftParticles_state hM hE hT hvalid h hsafe
  refine ⟨box', L', hrun, hstate.linked, fun s => ?_⟩
  have hc := hstate.compact s (Set.notMem_empty s)
  refine ⟨hc, fun l p hL => ?_⟩
  have hlive : (Finset.univ.filter fun t => box'.multiMask p t ≠ 0) =
      Finset.univ.filter fun t : Fin T => t.val < box'.sizeLastFrame s :=
    Finset.filter_congr fun t _ => (hc.filled l p hL).2 t
  rw [hlive, card_filter_lt hc.size_le]

end Main

theorem card_contents (box : ParticlesBox D T α) (frames : List Ptr) (j : ℕ) :
    (box.contents frames (j + 2)).card =
      (frames.map fun p => KernelShiftParticles.marked (box.multiMask p) j).sum := by
  induction frames with
  | nil => rfl
  | cons p frames ih =>
    rw [contents_cons, Multiset.card_add, ih, List.map_cons, List.sum_cons, particles, Multiset.card_map]
    rfl

theorem fillCounters_of_lt {s : ℕ → ℕ} {counts : List (ℕ → ℕ)} {j : ℕ}
    (h : s j + (counts.map fun n => n j).sum < T) :
    fillCounters D T s counts j = s j + (counts.map fun n => n j).sum := by
  unfold fillCounters
  induction counts generalizing s with
  | nil => rfl
  | cons n counts ih =>
    rw [List.map_cons, List.sum_cons] at h ⊢
    have hn : nextCounter D T (fun i => s i + n i) j = s j + n j := by
      rw [nextCounter, if_neg (by omega)]
    rw [List.foldl_cons, ih (by omega), hn, Nat.add_assoc]

theorem leavesFrame_of_few {c : DataSpace D} {j : ℕ} (h : (box.contents (L c) (j + 2)).card < T)
    (hL : Linked box L) : LeavesFrame box L c j := by
  intro hnil ⟨q, hq, hne⟩
  have hlast : box.lastFramePtr (relative c j) = none := by simp [hL.last, hnil]
  have hinit : (KernelShiftParticles.init box c).destFramesCounter j = 0 := by
    simp [KernelShiftParticles.init, usesLastFrame, hlast]
  have hsum : (((L c).map fun p => KernelShiftParticles.marked (box.multiMask p)).map fun n => n j).sum =
      (box.contents (L c) (j + 2)).card := by
    rw [card_contents, List.map_map]
    rfl
  rw [fillCounters_of_lt (by rw [hinit, hsum, Nat.zero_add]; exact h), hinit, hsum, Nat.zero_add, card_contents]
  have hmem : KernelShiftParticles.marked (box.multiMask q) j ∈
      (L c).map fun p => KernelShiftParticles.marked (box.multiMask p) j :=
    List.mem_map_of_mem (f := fun p => KernelShiftParticles.marked (box.multiMask p) j) hq
  have := List.single_le_sum (fun _ _ => Nat.zero_le _) _ hmem
  omega

section Few

variable {r : ℕ} {N₀ : DataSpace D → ℕ → Multiset α} {P : Finset (DataSpace D)} {loose : Set (DataSpace D)}
  (hM : MallocMC.Serves M r) (hT : 2 * T ≤ 65536) (hpos : 0 < T)
  (hN₀ : ∀ s m, numberOfExchanges D < m → N₀ s m = 0) (hfew : ∀ s m, 2 ≤ m → (N₀ s m).card < T)
include hM hT hpos hN₀ hfew

theorem shiftSafe_of_few {sched : PhaseSchedule D T} {offset : DataSpace D} {S : Set (DataSpace D)}
    (hS : Independent S) (blocks : List (DataSpace D)) (hnd : blocks.Nodup)
    (hblocks : ∀ idx ∈ blocks, getSuperCellIndex mapper offset idx ∈ S ∧ getSuperCellIndex mapper offset idx ∉ P)
    (hloose : loose ⊆ S) (h : State r (shiftedN N₀ P) loose ∅ box L) :
    ShiftSafe M mapper sched offset blocks box := by
  induction blocks generalizing box L loose P with
  | nil => trivial
  | cons idx blocks ih =>
    obtain ⟨hidx, hnd⟩ := List.nodup_cons.mp hnd
    obtain ⟨hcS, hcP⟩ := hblocks idx (List.mem_cons_self ..)
    set c := getSuperCellIndex mapper offset idx with hc
    have hleaves : ∀ j, j + 1 < numberOfExchanges D → LeavesFrame box L c j := fun j _ => by
      refine leavesFrame_of_few ?_ h.linked
      rw [h.contents_eq c _ (by omega), shiftedN, if_neg (by omega), if_neg hcP]
      exact hfew c _ (by omega)
    refine ⟨fun L' hL' => h.linked.unique hL' ▸ hleaves, fun box' hrun' => ?_⟩
    obtain ⟨box₁, L₁, hrun, h₁⟩ := h.shift hM hT hpos (fun m hm => shiftedN_eq_zero hN₀ c hm)
      (fun j hj hl => hS c hcS _ (hloose hl) j hj rfl) hleaves (sched.shiftOrder idx)
    obtain rfl : box₁ = box' := Option.some.inj (hrun.symm.trans hrun')
    rw [shiftN_shiftedN N₀ hcP] at h₁
    refine ih hnd (fun i hi => ⟨(hblocks i (List.mem_cons_of_mem _ hi)).1, ?_⟩) (Set.insert_subset hcS hloose) h₁
    rw [Finset.mem_insert, not_or]
    refine ⟨fun he => hidx ?_, (hblocks i (List.mem_cons_of_mem _ hi)).2⟩
    rw [← getSuperCellIndex_injective mapper offset he]
    exact hi

theorem phasesSafe_of_few_state (hvalid : ValidSchedule mapper sched) {n k : ℕ} (hn : k + n = 3^D)
    (hP : ∀ c, c ∈ P ↔ ∃ i < k, c ∈ phaseCells mapper (phaseOffset D i))
    (h : State r (shiftedN N₀ P) ∅ ∅ box L) : PhasesSafe M mapper sched n (phaseOffset D k) box := by
  induction n generalizing k P box L with
  | zero => trivial
  | succ n ih =>
    have hk : k < 3^D := by omega
    have hnew := phaseCells_notMem hk hP
    have hsafe : ShiftSafe M mapper (sched (phaseOffset D k)) (phaseOffset D k)
        (sched (phaseOffset D k)).shiftBlocks box := by
      have hind : Independent (phaseCells mapper (phaseOffset D k)) := independent_phaseCells _
      refine shiftSafe_of_few hM hT hpos hN₀ hfew hind _
        (hvalid k hk).shiftBlocks.1 (fun idx hidx => ?_) (Set.empty_subset _) h
      have hmem := (mem_launched (phaseOffset_bounds k) (hvalid k hk).shiftBlocks).mp (List.mem_map_of_mem hidx)
      exact ⟨hmem, hnew _ hmem⟩
    refine ⟨hsafe, fun box' hrun' offset' hnext => ?_⟩
    obtain ⟨box₁, L₁, P₁, hrun₁, h₁, hP₁⟩ := runPhase_spec hM hT hpos hN₀ (phaseOffset_bounds k) (hvalid k hk)
      hnew h hsafe
    obtain rfl : box₁ = box' := Option.some.inj (hrun₁.symm.trans hrun')
    rw [next_phaseOffset hk] at hnext
    split at hnext
    · obtain rfl : phaseOffset D (k + 1) = offset' := Option.some.inj hnext
      exact ih (by omega) (phaseCells_succ hP hP₁) h₁
    · simp at hnext

end Few

/-- Few particles that leave in one direction are enough for the condition to hold throughout. -/
theorem phasesSafe_of_few (hM : MallocMC.Succeeds M) (hE : numberOfExchanges D ≤ T) (hT : 2 * T ≤ 65536)
    (hvalid : ValidSchedule mapper sched) (h : Entry mapper box L)
    (hfew : ∀ s m, 2 ≤ m → (box.contents (L s) m).card < T) : PhasesSafe M mapper sched (3^D) 0 box := by
  have hsafe := phasesSafe_of_few_state (r := (box.attempts + 12) % maxTries) (M := M) (fun k A _ => hM k A) hT
    ((numberOfExchanges_pos D).trans_le hE) (fun s m hm => h.contents_eq_zero s hm) hfew hvalid
    (Nat.zero_add _) (P := ∅) (by simp) h.state
  rwa [phaseOffset_zero] at hsafe

section Overflow

theorem nextFree_succeeds : MallocMC.Succeeds nextFree := fun _ _ => rfl

/-- Three by three supercells and their guard: a phase has one block. -/
def smallMapper : MappingDesc 2 := ⟨![5, 5], 1⟩

def oneBlock : PhaseSchedule 2 9 := ⟨[0], fun _ _ => 1, [0], fun _ _ => 1, [0], fun _ => 1⟩

theorem oneBlock_valid : ValidSchedule smallMapper fun _ => oneBlock := by
  have hlaunches : ∀ k < 3^2, Launches smallMapper (phaseOffset 2 k) [0] := by
    intro k _
    refine ⟨List.nodup_singleton 0, fun idx => ?_⟩
    have hdim : ∀ d, getGridDim smallMapper (phaseOffset 2 k) d = 1 := by
      intro d
      have := phaseOffset_bounds (D := 2) k d
      fin_cases d <;> simp [getGridDim, smallMapper] at * <;> omega
    simp only [List.mem_singleton, hdim]
    constructor
    · rintro rfl d
      simp
    · intro h
      funext d
      have := h d
      simp only [Pi.zero_apply]
      omega
  exact fun k hk => ⟨hlaunches k hk, hlaunches k hk, hlaunches k hk⟩

/-- The frames of supercell (1,1), if `first`, and of supercell (3,1), if `second`. -/
def overflowLists (first second : Bool) (c : DataSpace 2) : List Ptr :=
  if c = ![1, 1] then (if first then [1, 2, 3] else [])
  else if c = ![3, 1] then (if second then [4] else []) else []

/-- Supercell (1,1) sends a full frame to (2,0) and ten particles to (0,1); supercell (3,1) sends
one particle to (2,0). -/
def overflowBox (first second : Bool) : ParticlesBox 2 9 ℕ where
  multiMask p t := if p = 1 then 8 else if p = 2 then 3 else if t ≠ 0 then 0 else
    if p = 3 then 3 else if p = 4 then 9 else 0
  attributes p t := 9 * p + t
  previousFrame p := if p = 2 then some 1 else if p = 3 then some 2 else none
  nextFrame p := if p = 1 then some 2 else if p = 2 then some 3 else none
  firstFramePtr c := (overflowLists first second c).head?
  lastFramePtr c := (overflowLists first second c).getLast?
  mustShift c := !(overflowLists first second c).isEmpty
  sizeLastFrame c := if (overflowLists first second c).isEmpty then 0 else 1
  allocated := {1, 2, 3, 4}
  attempts := 0

variable (first second : Bool)

theorem overflowLists_cases (c : DataSpace 2) : overflowLists first second c = [] ∨
    (c = ![1, 1] ∧ overflowLists first second c = [1, 2, 3]) ∨
    (c = ![3, 1] ∧ overflowLists first second c = [4]) := by
  unfold overflowLists
  split
  · cases first <;> simp_all
  · split
    · cases second <;> simp_all
    · exact .inl rfl

theorem overflow_linked : Linked (overflowBox first second) (overflowLists first second) := by
  refine ⟨fun _ => rfl, fun _ => rfl, fun c l p r he => ?_, fun c l p r he => ?_, fun c => ?_,
    fun c c' p hp hp' => ?_, fun c p hp => ?_⟩
  · rcases overflowLists_cases first second c with h | ⟨-, h⟩ | ⟨-, h⟩ <;> rw [h] at he
    · simp at he
    · rcases l with _ | ⟨a, _ | ⟨b, _ | ⟨d, l⟩⟩⟩ <;> simp at he <;> grind [overflowBox]
    · rcases l with _ | ⟨a, l⟩ <;> simp at he
      grind [overflowBox]
  · rcases overflowLists_cases first second c with h | ⟨-, h⟩ | ⟨-, h⟩ <;> rw [h] at he
    · simp at he
    · rcases l with _ | ⟨a, _ | ⟨b, _ | ⟨d, l⟩⟩⟩ <;> simp at he <;> grind [overflowBox]
    · rcases l with _ | ⟨a, l⟩ <;> simp at he
      grind [overflowBox]
  · rcases overflowLists_cases first second c with h | ⟨-, h⟩ | ⟨-, h⟩ <;> simp [h]
  · rcases overflowLists_cases first second c with h | ⟨hc, h⟩ | ⟨hc, h⟩ <;> rw [h] at hp <;>
      rcases overflowLists_cases first second c' with h' | ⟨hc', h'⟩ | ⟨hc', h'⟩ <;> rw [h'] at hp' <;>
      grind
  · rcases overflowLists_cases first second c with h | ⟨-, h⟩ | ⟨-, h⟩ <;> grind [overflowBox]

theorem overflow_entry : Entry smallMapper (overflowBox first second) (overflowLists first second) := by
  refine ⟨overflow_linked first second, fun c => ?_, fun c q hq t => ?_, fun c q hq t ht => ?_⟩
  · rcases overflowLists_cases first second c with h | ⟨-, h⟩ | ⟨-, h⟩
    · refine ⟨fun l p he => ?_, fun _ => ?_, ?_⟩ <;> simp_all [overflowBox]
    · refine ⟨fun l p he => ?_, fun he => ?_, ?_⟩
      · obtain ⟨rfl, hp⟩ := List.append_inj' (show [1, 2] ++ [3] = l ++ [p] by rw [← he, h]; rfl) rfl
        obtain rfl : 3 = p := by simpa using hp
        refine ⟨fun q hq i => ?_, fun i => ?_⟩
        · rcases List.mem_pair.mp hq with rfl | rfl <;> simp [overflowBox]
        · simp [overflowBox, h]
      · simp [h] at he
      · simp [overflowBox, h]
    · refine ⟨fun l p he => ?_, fun he => ?_, ?_⟩
      · obtain ⟨rfl, hp⟩ := List.append_inj' (show [] ++ [4] = l ++ [p] by rw [← he, h]; rfl) rfl
        obtain rfl : 4 = p := by simpa using hp
        refine ⟨by simp, fun i => ?_⟩
        simp [overflowBox, h]
      · simp [h] at he
      · simp [overflowBox, h]
  · show (overflowBox first second).multiMask q t ≤ 9
    simp only [overflowBox]
    grind
  · rcases overflowLists_cases first second c with h | ⟨rfl, h⟩ | ⟨rfl, h⟩
    · simp [h] at hq
    · exact ⟨fun d => by fin_cases d <;> simp [smallMapper], by simp [overflowBox, h]⟩
    · exact ⟨fun d => by fin_cases d <;> simp [smallMapper], by simp [overflowBox, h]⟩

/-- Nothing happens to supercell `s`. -/
structure SameAt (s : DataSpace D) (box : ParticlesBox D T α) (L : DataSpace D → List Ptr)
    (box' : ParticlesBox D T α) (L' : DataSpace D → List Ptr) : Prop where
  list : L' s = L s
  size : box'.sizeLastFrame s = box.sizeLastFrame s
  frames : ∀ q ∈ L s, box'.multiMask q = box.multiMask q ∧ box'.attributes q = box.attributes q

theorem SameAt.trans {s : DataSpace D} {box₁ box₂ box₃ : ParticlesBox D T α} {L₁ L₂ L₃ : DataSpace D → List Ptr}
    (h : SameAt s box₁ L₁ box₂ L₂) (h' : SameAt s box₂ L₂ box₃ L₃) : SameAt s box₁ L₁ box₃ L₃ where
  list := h'.list.trans h.list
  size := h'.size.trans h.size
  frames q hq := by
    obtain ⟨h1, h2⟩ := h.frames q hq
    obtain ⟨h1', h2'⟩ := h'.frames q (h.list ▸ hq)
    exact ⟨h1'.trans h1, h2'.trans h2⟩

theorem oneBlock_phase {box box₁ : ParticlesBox 2 9 α} {L₁ : DataSpace 2 → List Ptr} {offset c : DataSpace 2}
    (hc : getSuperCellIndex smallMapper offset 0 = c) (hL : Linked box₁ L₁) (hsize : ∀ s, box₁.sizeLastFrame s ≤ 9)
    (hshift : KernelShiftParticles.block nextFree (fun _ => 1) box c = some box₁) :
    ∃ box' L', runPhase nextFree smallMapper oneBlock offset box = some box' ∧ Linked box' L' ∧
      (∀ s, box'.sizeLastFrame s ≤ 9) ∧ box'.mustShift = box₁.mustShift ∧
      ∀ s, s ≠ c → SameAt s box₁ L₁ box' L' := by
  obtain ⟨box₂, L₂, hrun₂, htidy, -⟩ := KernelFillGaps.block_spec (by norm_num) (fun _ => 1) hL c
  obtain ⟨box₃, k, hrun₃, hk, hbox, hother, -⟩ :=
    KernelFillGapsLastFrame.block_spec (by norm_num) 1 htidy.linked c
  have hsize₃ : box₃.sizeLastFrame = Function.update box₁.sizeLastFrame c k := by rw [hbox, htidy.size]
  refine ⟨box₃, L₂, ?_, ?_, fun s => ?_, ?_, fun s hs => ⟨htidy.lists s hs, ?_, fun q hq => ?_⟩⟩
  · simp only [runPhase, runShift, runFillGaps, runFillGapsLastFrame, oneBlock, List.foldlM_cons, List.foldlM_nil,
      Option.pure_def, hc, hshift, Option.bind_eq_bind, Option.bind_some, hrun₂, hrun₃]
  · rw [hbox]
    exact htidy.linked.congr rfl rfl (fun _ _ _ => rfl) (fun _ _ _ => rfl) htidy.linked.allocated
  · rw [hsize₃]
    by_cases hs : s = c
    · rw [hs, Function.update_self]
      exact hk
    · rw [Function.update_of_ne hs]
      exact hsize s
  · rw [hbox]
    exact htidy.mustShift
  · rw [hsize₃, Function.update_of_ne hs]
  · have hq₂ : q ∈ L₂ s := htidy.lists s hs ▸ hq
    obtain ⟨h1, h2⟩ := hother q fun hqc => hs (htidy.linked.disjoint s c q hq₂ hqc)
    obtain ⟨h1', h2'⟩ := htidy.frames s hs q hq
    exact ⟨h1.trans h1', h2.trans h2'⟩

/-- The frame for (2,0) is handed over when the one for (0,1) overflows, and nothing follows. -/
theorem overflow_not_leavesFrame :
    ¬ LeavesFrame (overflowBox true second) (overflowLists true second) ![1, 1] 6 := by
  intro h
  refine h ?_ ?_ ?_
  · cases second <;> decide
  · exact ⟨1, by simp [overflowLists], by cases second <;> decide⟩
  · cases second <;> decide +kernel

theorem card_contents_le (box : ParticlesBox D T α) (frames : List Ptr) (m : ℕ) :
    (box.contents frames m).card ≤ T * frames.length := by
  induction frames with
  | nil => simp
  | cons p frames ih =>
    have hp : (particles (box.multiMask p) (box.attributes p) m).card ≤ T := by
      rw [particles, Multiset.card_map]
      exact (Finset.card_filter_le _ _).trans_eq (by simp)
    rw [contents_cons, Multiset.card_add, List.length_cons, Nat.mul_add_one]
    omega

theorem card_contents_of_full {frames : List Ptr} (h : ∀ q ∈ frames, ∀ t, box.multiMask q t = 1) :
    (box.contents frames 1).card = T * frames.length := by
  induction frames with
  | nil => simp
  | cons p frames ih =>
    have hp : (particles (box.multiMask p) (box.attributes p) 1).card = T := by
      rw [particles, Multiset.card_map, Finset.filter_true_of_mem fun t _ => h p (List.mem_cons_self ..) t]
      simp
    rw [contents_cons, Multiset.card_add, hp, ih fun q hq => h q (List.mem_cons_of_mem _ hq), List.length_cons,
      Nat.mul_add_one, Nat.add_comm]

/-- The memory before phase `k`: one full frame at (2,0) whose size is zero until a second particle
arrives there. -/
structure Stale (second : Bool) (k : ℕ) (box : ParticlesBox 2 9 ℕ) (L : DataSpace 2 → List Ptr) : Prop where
  linked : Linked box L
  size_le : ∀ s, box.sizeLastFrame s ≤ 9
  mustShift : ∀ s, box.mustShift s = true → s = ![3, 1] ∧ k ≤ 2
  pending : k ≤ 2 → box.mustShift ![3, 1] = second ∧
    SameAt ![3, 1] (overflowBox true second) (overflowLists true second) box L
  length : (L ![2, 0]).length = 1
  stale : k ≤ 2 ∨ second = false → Filled box (L ![2, 0]) 9 ∧ box.sizeLastFrame ![2, 0] = 0

theorem block_zero : getSuperCellIndex smallMapper (phaseOffset 2 0) 0 = ![1, 1] := by
  funext d
  fin_cases d <;> simp [getSuperCellIndex, phaseOffset, smallMapper]

theorem stale_one : ∃ box' L', runPhase nextFree smallMapper oneBlock (phaseOffset 2 0) (overflowBox true second) =
    some box' ∧ Stale second 1 box' L' := by
  have hentry := overflow_entry true second
  obtain ⟨box₁, L₁, hrun₁, hlinked, -, -, hsize, hshifted⟩ := KernelShiftParticles.block_spec
    (r := 12) (fun k A _ => nextFree_succeeds k A) (fun h : False => h.elim) (by norm_num) (by norm_num)
    (fun _ => 1) hentry.linked rfl (fun h => h.elim) (fun s => (hentry.compact s).size_le)
    (hentry.multiMask_le ![1, 1])
  have hb := hshifted (.inl (by cases second <;> rfl))
  have hdest : relative (D := 2) ![1, 1] 6 = ![2, 0] := by decide
  have hcompact := hentry.compact ![2, 0]
  rw [← hdest] at hcompact
  obtain ⟨hcontents, -, hstale⟩ := hb.neighbor 6 (by decide) hcompact
  obtain ⟨hfilled, hzero⟩ := hstale (overflow_not_leavesFrame second)
  rw [hdest] at hcontents hfilled hzero
  have hempty : overflowLists true second ![2, 0] = [] := by cases second <;> decide
  have hone : ∀ q ∈ L₁ ![2, 0], ∀ t, box₁.multiMask q t = 1 := by
    intro q hq t
    have h0 := hfilled.full q hq t
    by_contra h1
    have hnone : box₁.contents (L₁ ![2, 0]) (box₁.multiMask q t) = 0 := by
      rw [hcontents _ (by omega), deliver, if_neg h1, hempty, contents_nil]
    exact multiMask_ne_of_contents hnone q hq t rfl
  have hcard : 9 * (L₁ ![2, 0]).length = 9 := by
    rw [← card_contents_of_full hone, hcontents 1 le_rfl, deliver, if_pos rfl, hempty, contents_nil, zero_add,
      card_contents]
    cases second <;> decide
  have hsame : SameAt ![3, 1] (overflowBox true second) (overflowLists true second) box₁ L₁ := by
    have hfar : ∀ j < 8, ![3, 1] ≠ relative (D := 2) ![1, 1] j := by decide
    obtain ⟨h1, h2, h3⟩ := hb.outside ![3, 1] (by decide) fun j hj => hfar j (Nat.lt_of_succ_lt_succ hj)
    exact ⟨h1, h2, h3⟩
  obtain ⟨box', L', hrun, hlinked', hsize', hmust, hkeep⟩ := oneBlock_phase block_zero hlinked hsize hrun₁
  have hX := hkeep ![2, 0] (by decide)
  refine ⟨box', L', hrun, hlinked', hsize', fun s hs => ?_, fun _ => ⟨?_, hsame.trans (hkeep _ (by decide))⟩, ?_,
    fun _ => ⟨?_, ?_⟩⟩
  · rw [hmust, hb.mustShift] at hs
    by_cases hs1 : s = ![1, 1]
    · simp [hs1] at hs
    · rw [Function.update_of_ne hs1] at hs
      rcases overflowLists_cases true second s with h | ⟨h, -⟩ | ⟨h, -⟩
      · simp [overflowBox, h] at hs
      · exact absurd h hs1
      · exact ⟨h, by norm_num⟩
  · rw [hmust, hb.mustShift, Function.update_of_ne (by decide)]
    cases second <;> decide
  · rw [hX.list]
    omega
  · rw [hX.list]
    exact hfilled.congr fun q hq => (hX.frames q hq).1
  · rw [hX.size, hzero]

theorem block_of_pos {k : ℕ} :
    getSuperCellIndex smallMapper (phaseOffset 2 k) 0 = ![((k % 3 : ℕ) : ℤ) + 1, ((k / 3 % 3 : ℕ) : ℤ) + 1] := by
  funext d
  fin_cases d <;> simp [getSuperCellIndex, phaseOffset, smallMapper]

theorem Stale.step {second : Bool} {k : ℕ} {box : ParticlesBox 2 9 ℕ} {L : DataSpace 2 → List Ptr}
    (h : Stale second k box L) (hk : k < 9) :
    ∃ box' L', runPhase nextFree smallMapper oneBlock (phaseOffset 2 k) box = some box' ∧
      Stale second (k + 1) box' L' := by
  have hX : (![2, 0] : DataSpace 2) ≠ getSuperCellIndex smallMapper (phaseOffset 2 k) 0 := by
    rw [block_of_pos]
    intro he
    have := congrFun he 1
    simp at this
    omega
  by_cases hms : box.mustShift (getSuperCellIndex smallMapper (phaseOffset 2 k) 0) = true
  · obtain ⟨hc, hk2⟩ := h.mustShift _ hms
    obtain ⟨hsecond, hsame⟩ := h.pending hk2
    rw [hc] at hms
    obtain rfl : true = second := hms.symm.trans hsecond
    have hLc : L ![3, 1] = [4] := by
      rw [hsame.list]
      decide
    have hmask4 : box.multiMask 4 = (overflowBox true true).multiMask 4 := (hsame.frames 4 (by decide)).1
    have hle : ∀ q ∈ L ![3, 1], ∀ t, box.multiMask q t ≤ numberOfExchanges 2 := by
      intro q hq t
      obtain rfl : q = 4 := by simpa [hLc] using hq
      rw [hmask4]
      decide +revert
    obtain ⟨box₁, L₁, hrun₁, hlinked, -, -, hsize, hshifted⟩ := KernelShiftParticles.block_spec
      (r := (box.attempts + 12) % maxTries) (fun k A _ => nextFree_succeeds k A) (fun h : False => h.elim)
      (by norm_num) (by norm_num) (fun _ => 1) h.linked rfl (fun h => h.elim) h.size_le hle
    have hb := hshifted (.inl hms)
    have hk : k = 2 := by
      rw [block_of_pos] at hc
      have h0 := congrFun hc 0
      have h1 := congrFun hc 1
      simp at h0 h1
      omega
    have hdest : relative (D := 2) ![3, 1] 7 = ![2, 0] := by decide
    obtain ⟨-, hzero⟩ := h.stale (.inl hk2)
    have hlast : usesLastFrame box ![3, 1] 7 = true := by
      have hne : L ![2, 0] ≠ [] := fun he => by
        have := h.length
        simp [he] at this
      simp [usesLastFrame, hdest, h.linked.last, hzero, hne]
    have hsum : ((L ![3, 1]).map fun p => marked (box.multiMask p) 7).sum = 1 := by
      rw [hLc, List.map_singleton, hmask4]
      decide
    obtain ⟨hlist, -⟩ := hb.stays 7 (by decide) hlast (by rw [hdest, hzero, hsum]; norm_num)
    rw [hdest] at hlist
    obtain ⟨box', L', hrun, hlinked', hsize', hmust, hkeep⟩ := oneBlock_phase hc hlinked hsize hrun₁
    refine ⟨box', L', hrun, hlinked', hsize', fun s hs => ?_, fun h3 => by omega, ?_, fun h3 => ?_⟩
    · rw [hmust, hb.mustShift] at hs
      by_cases hs1 : s = ![3, 1]
      · simp [hs1] at hs
      · rw [Function.update_of_ne hs1] at hs
        exact absurd (h.mustShift s hs).1 hs1
    · rw [(hkeep _ (by decide)).list, hlist]
      exact h.length
    · rcases h3 with h3 | h3
      · omega
      · simp at h3
  · have hrun₁ : KernelShiftParticles.block nextFree (fun _ => 1) box
        (getSuperCellIndex smallMapper (phaseOffset 2 k) 0) = some box := by
      rw [KernelShiftParticles.block, if_neg hms]
    obtain ⟨box', L', hrun, hlinked', hsize', hmust, hkeep⟩ := oneBlock_phase rfl h.linked h.size_le hrun₁
    have hsameX := hkeep ![2, 0] hX
    have hnot : k = 2 → second = false := by
      rintro rfl
      have hc : getSuperCellIndex smallMapper (phaseOffset 2 2) 0 = ![3, 1] := by
        rw [block_of_pos]
        norm_num
      rw [hc, (h.pending le_rfl).1] at hms
      simpa using hms
    refine ⟨box', L', hrun, hlinked', hsize', fun s hs => ?_, fun hk2 => ⟨?_, ?_⟩, ?_, fun hk2 => ?_⟩
    · rw [hmust] at hs
      obtain ⟨rfl, hk2⟩ := h.mustShift s hs
      refine ⟨rfl, ?_⟩
      rcases Nat.lt_or_ge k 2 with hlt | hge
      · omega
      · obtain rfl : k = 2 := by omega
        rw [(h.pending le_rfl).1, hnot rfl] at hs
        simp at hs
    · rw [hmust]
      exact (h.pending (by omega)).1
    · refine (h.pending (by omega)).2.trans (hkeep _ ?_)
      rw [block_of_pos]
      intro he
      have := congrFun he 0
      simp at this
      omega
    · rw [hsameX.list]
      exact h.length
    · obtain ⟨hfilled, hzero⟩ := h.stale (by
        rcases hk2 with hk2 | hk2
        · exact .inl (by omega)
        · exact .inr hk2)
      rw [hsameX.list, hsameX.size]
      exact ⟨hfilled.congr fun q hq => (hsameX.frames q hq).1, hzero⟩

theorem Stale.run {second : Bool} {n k : ℕ} {box : ParticlesBox 2 9 ℕ} {L : DataSpace 2 → List Ptr}
    (h : Stale second k box L) (hn : k + (n + 1) = 9) :
    ∃ box' L', runPhases nextFree smallMapper (fun _ => oneBlock) (n + 1) (phaseOffset 2 k) box = some box' ∧
      Stale second 9 box' L' := by
  induction n generalizing k box L with
  | zero =>
    obtain rfl : k = 8 := by omega
    obtain ⟨box', L', hrun, h'⟩ := h.step (by omega)
    refine ⟨box', L', ?_, h'⟩
    rw [runPhases, hrun, next_phaseOffset (by norm_num), if_neg (by norm_num)]
    rfl
  | succ n ih =>
    obtain ⟨box₁, L₁, hrun₁, h₁⟩ := h.step (by omega)
    obtain ⟨box', L', hrun, h'⟩ := ih h₁ (by omega)
    refine ⟨box', L', ?_, h'⟩
    rw [runPhases, hrun₁, next_phaseOffset (by norm_num; omega), if_pos (by norm_num; omega)]
    exact hrun

theorem stale_shiftParticles : ∃ box' L', shiftParticles nextFree smallMapper (fun _ => oneBlock)
    (overflowBox true second) = some box' ∧ Stale second 9 box' L' := by
  obtain ⟨box₁, L₁, hrun₁, h₁⟩ := stale_one second
  obtain ⟨box', L', hrun, h'⟩ := h₁.run (n := 7) (by norm_num)
  refine ⟨box', L', ?_, h'⟩
  rw [shiftParticles, ← phaseOffset_zero, show 3^2 = 8 + 1 from rfl, runPhases, hrun₁,
    next_phaseOffset (by norm_num), if_pos (by norm_num)]
  exact hrun

/-- The particle of (3,1) overwrites one of the nine particles at (2,0). -/
theorem overflow_not_conserved :
    (ValidSchedule smallMapper fun _ => oneBlock) ∧
      Entry smallMapper (overflowBox true true) (overflowLists true true) ∧
      ¬ ∃ box' L', shiftParticles nextFree smallMapper (fun _ => oneBlock) (overflowBox true true) = some box' ∧
        Linked box' L' ∧ ∀ s, (∀ q ∈ L' s, ∀ t, box'.multiMask q t ≤ 1) ∧
          box'.contents (L' s) 1 = (overflowBox true true).contents (overflowLists true true s) 1 +
            ∑ m ∈ Finset.Ico 2 (numberOfExchanges 2 + 1), (overflowBox true true).contents
              (overflowLists true true (s - getRelativeDirections 2 (m - 1))) m := by
  refine ⟨oneBlock_valid, overflow_entry true true, ?_⟩
  rintro ⟨box', L', hrun, hlinked, hall⟩
  obtain ⟨box₁, L₁, hrun₁, h⟩ := stale_shiftParticles true
  obtain rfl : box₁ = box' := Option.some.inj (hrun₁.symm.trans hrun)
  obtain rfl : L₁ = L' := h.linked.unique hlinked
  have hle := card_contents_le box₁ (L₁ ![2, 0]) 1
  rw [(hall ![2, 0]).2, h.length] at hle
  exact absurd hle (by decide +kernel)

/-- The full frame at (2,0) belongs to a list whose last frame should be empty. -/
theorem overflow_not_compact :
    (ValidSchedule smallMapper fun _ => oneBlock) ∧
      Entry smallMapper (overflowBox true false) (overflowLists true false) ∧
      ¬ ∃ box' L', shiftParticles nextFree smallMapper (fun _ => oneBlock) (overflowBox true false) = some box' ∧
        Linked box' L' ∧ ∀ s, Compact box' (L' s) (box'.sizeLastFrame s) := by
  refine ⟨oneBlock_valid, overflow_entry true false, ?_⟩
  rintro ⟨box', L', hrun, hlinked, hall⟩
  obtain ⟨box₁, L₁, hrun₁, h⟩ := stale_shiftParticles false
  obtain rfl : box₁ = box' := Option.some.inj (hrun₁.symm.trans hrun)
  obtain rfl : L₁ = L' := h.linked.unique hlinked
  obtain ⟨p, hp⟩ := List.length_eq_one_iff.mp h.length
  obtain ⟨hfilled, hzero⟩ := h.stale (.inr rfl)
  have hlive := (hfilled [] p hp).2 0
  have hcompact := ((hall ![2, 0]).filled [] p hp).2 0
  rw [hzero] at hcompact
  simp at hlive hcompact
  exact hlive hcompact

/-- Five particles of supercell (1,1) leave to (2,0) and six to (0,1), the others stay. -/
def leavingMask (p : Ptr) (t : Fin 9) : ℕ :=
  if p = 1 then (if t < 5 then 8 else 1) else if p = 2 then (if t < 6 then 3 else 1) else if t ≠ 0 then 0 else
    if p = 3 then 1 else if p = 4 then 9 else 0

def leavingBox : ParticlesBox 2 9 ℕ := { overflowBox true true with multiMask := leavingMask }

theorem leaving_entry : Entry smallMapper leavingBox (overflowLists true true) := by
  have h := overflow_entry true true
  have hzero : ∀ q t, leavingBox.multiMask q t ≠ 0 ↔ (overflowBox true true).multiMask q t ≠ 0 := fun q t => by
    simp only [leavingBox, leavingMask, overflowBox]
    grind
  have htwo : ∀ q t, 2 ≤ leavingBox.multiMask q t → 2 ≤ (overflowBox true true).multiMask q t := fun q t => by
    simp only [leavingBox, leavingMask, overflowBox]
    grind
  refine ⟨h.linked.congr rfl rfl (fun _ _ _ => rfl) (fun _ _ _ => rfl) h.linked.allocated, fun s => ?_, fun s q _ t => ?_,
    fun s q hq t ht => h.marked s q hq t (htwo q t ht)⟩
  · refine ⟨fun l p he => ?_, (h.compact s).size_of_nil, (h.compact s).size_le⟩
    simp only [hzero]
    exact (h.compact s).filled l p he
  · show leavingMask q t ≤ 9
    simp only [leavingMask]
    grind

theorem leaving_few (s : DataSpace 2) (m : ℕ) (hm : 2 ≤ m) :
    (leavingBox.contents (overflowLists true true s) m).card < 9 := by
  by_cases hlt : m < 10
  · have hfew : ∀ l ∈ ([[], [1, 2, 3], [4]] : List (List Ptr)), ∀ m < 10, 2 ≤ m → (leavingBox.contents l m).card < 9 := by
      decide +kernel
    refine hfew _ ?_ m hlt hm
    rcases overflowLists_cases true true s with h | ⟨-, h⟩ | ⟨-, h⟩ <;> simp [h]
  · by_contra hcard
    have hpos := (Nat.zero_lt_succ 8).trans_le (not_lt.mp hcard)
    obtain ⟨q, hq, t, ht⟩ := exists_of_contents_ne_zero (Multiset.card_pos.mp hpos)
    have hle : leavingBox.multiMask q t ≤ 9 := leaving_entry.multiMask_le s q hq t
    omega

theorem shiftParticles_conserves_leaving :
    PhasesSafe nextFree smallMapper (fun _ => oneBlock) (3^2) 0 leavingBox ∧
      ∃ box' L', shiftParticles nextFree smallMapper (fun _ => oneBlock) leavingBox = some box' ∧
        Linked box' L' ∧ (box'.contents (L' ![2, 0]) 1).card = 6 ∧ ∀ s, (∀ q ∈ L' s, ∀ t, box'.multiMask q t ≤ 1) ∧
          box'.contents (L' s) 1 = leavingBox.contents (overflowLists true true s) 1 +
            ∑ m ∈ Finset.Ico 2 (numberOfExchanges 2 + 1), leavingBox.contents
              (overflowLists true true (s - getRelativeDirections 2 (m - 1))) m := by
  have hsafe := phasesSafe_of_few nextFree_succeeds (by decide) (by norm_num) oneBlock_valid leaving_entry leaving_few
  obtain ⟨box', L', hrun, hlinked, hall⟩ := shiftParticles_conserves nextFree_succeeds (by decide) (by norm_num)
    oneBlock_valid leaving_entry hsafe
  refine ⟨hsafe, box', L', hrun, hlinked, ?_, hall⟩
  rw [(hall ![2, 0]).2]
  decide +kernel

theorem shiftParticles_compact_leaving :
    PhasesSafe nextFree smallMapper (fun _ => oneBlock) (3^2) 0 leavingBox ∧
      ∃ box' L', shiftParticles nextFree smallMapper (fun _ => oneBlock) leavingBox = some box' ∧
        Linked box' L' ∧ ∀ s, Compact box' (L' s) (box'.sizeLastFrame s) ∧ ∀ l p, L' s = l ++ [p] →
          (Finset.univ.filter fun t => box'.multiMask p t ≠ 0).card = box'.sizeLastFrame s := by
  have hsafe := phasesSafe_of_few nextFree_succeeds (by decide) (by norm_num) oneBlock_valid leaving_entry leaving_few
  exact ⟨hsafe, shiftParticles_compact nextFree_succeeds (by decide) (by norm_num) oneBlock_valid leaving_entry hsafe⟩

end Overflow

end PIConGPU.ParticlesBase
