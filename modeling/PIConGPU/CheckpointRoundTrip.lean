import PIConGPU.LoadSpecies
import PIConGPU.ShiftParticlesCorrect

/-!
# From the particles of a rank to a checkpoint and back

The copy to the host numbers slots with 32 bits and a sign, and so does the loader, which also numbers the threads of
its last blocks that have no record left.
-/
namespace PIConGPU

open BlockThreads ParticlesBox CopySpeciesGlobal2Local
open KernelCopySpecies (Written)

namespace LoadSpecies

variable {D : ℕ} {β : Type*}

/-- The memory of a species before its particles are loaded. -/
structure NoParticles {T : ℕ} {α : Type*} (r : ℕ) (box : ParticlesBox D T α) : Prop where
  linked : Linked box fun _ => []
  attempts : (box.attempts + 12) % maxTries = r
  sizeLastFrame : ∀ c, box.sizeLastFrame c = 0

section RoundTrip

variable (cell : CellDescription D) (offset : DataSpace D)
  (box : ParticlesBox D cell.cellsInSuperCell (Particle β)) (L : DataSpace D → List Ptr)

/-- Every record was read once, and CORE and BORDER are compact with the particles from before. -/
structure Restored (N : ℕ) (m : Memory D cell.cellsInSuperCell β) (L' : DataSpace D → List Ptr) : Prop where
  loaded : m.loaded = (Multiset.range N).map (Nat.cast : ℕ → ℤ)
  counter : m.counter 1 = N
  compact : CompactState cell m.box L'
  contents : ∀ c ∈ cell.area, m.box.contents (L' c) 1 = box.contents (L c) 1
  outside : ∀ c, c ∉ cell.area → m.box.contents (L' c) 1 = 0

/-- Both ways to copy, with the filter on or off and the blocks in any order, bring as many records to the host as
were counted, and loading them on a rank without particles gives back the particles. -/
def RoundTrip (restartChunkSize : ℕ) (M : MallocMC)
    (destBox : ParticlesBox D cell.cellsInSuperCell (Particle β)) : Prop :=
  ∃ N, (∀ active blocks, (AreaMappingMethods.coreBorder cell.toMappingDescription).Launches blocks →
      CountParticles.countOnDevice cell box (KernelCountParticles.localDomainFilter cell active) blocks = some N) ∧
    ∀ (method : CopyMethod) (active : Bool),
      (∃ destFrame, method.Copies cell box (KernelCountParticles.localDomainFilter cell active) offset destFrame) ∧
      ∀ destFrame, method.Copies cell box (KernelCountParticles.localDomainFilter cell active) offset destFrame →
        Written cell offset box L N destFrame ∧
        ∀ srcFrame : ℤ → Record D β, (∀ i < N, destFrame i = some (srcFrame i)) →
          (∃ m, Loads cell srcFrame N restartChunkSize offset M destBox m) ∧
          ∀ m, Loads cell srcFrame N restartChunkSize offset M destBox m → ∃ L', Restored cell box L N m L'

end RoundTrip

section Parts

variable {cell : CellDescription D} {offset : DataSpace D}
  {box : ParticlesBox D cell.cellsInSuperCell (Particle β)} {L : DataSpace D → List Ptr} {N r restartChunkSize : ℕ}
  {M : MallocMC} {destBox : ParticlesBox D cell.cellsInSuperCell (Particle β)} {destFrame : ℤ → Option (Record D β)}
  {srcFrame : ℤ → Record D β} {m : Memory D cell.cellsInSuperCell β}

theorem exists_srcFrame (h : Written cell offset box L N destFrame) (hN : 0 < N) :
    ∃ srcFrame : ℤ → Record D β, ∀ i < N, destFrame i = some (srcFrame i) := by
  have hslot : ∀ i < N, ∃ record, destFrame i = some record := fun i hi => by
    have hmem : destFrame i ∈ (records cell offset box L).map some :=
      h.slots ▸ Multiset.mem_map.mpr ⟨i, Multiset.mem_range.mpr hi, rfl⟩
    obtain ⟨record, -, hrecord⟩ := Multiset.mem_map.mp hmem
    exact ⟨record, hrecord.symm⟩
  obtain ⟨default, -⟩ := hslot 0 hN
  refine ⟨fun i => (destFrame i).getD default, fun i hi => ?_⟩
  obtain ⟨record, hrecord⟩ := hslot i hi
  simp only [hrecord, Option.getD_some]

theorem map_srcFrame (h : Written cell offset box L N destFrame) (hsrc : ∀ i < N, destFrame i = some (srcFrame i)) :
    (Multiset.range N).map (fun i : ℕ => srcFrame i) = records cell offset box L := by
  refine Multiset.map_injective (Option.some_injective _) ?_
  rw [← h.slots, Multiset.map_map]
  exact Multiset.map_congr rfl fun i hi => (hsrc i (Multiset.mem_range.mp hi)).symm

variable (hdest : NoParticles r destBox)
include hdest

theorem NoParticles.between : Between r 0 (fun _ => 0) 0
    (⟨destBox, fun _ => 0, 0⟩ : Memory D cell.cellsInSuperCell β) fun _ => [] where
  holds := ⟨hdest.linked, hdest.attempts, fun c => by simp [hdest.sizeLastFrame], fun c m _ => by simp,
    fun c m hm hne => absurd (if_neg (by omega)) hne, fun c hc => absurd (Set.mem_univ c) hc,
    fun c hc => absurd hc (Set.notMem_empty c)⟩
  compact c _ := ⟨fun l p hl => by simp at hl, fun _ => hdest.sizeLastFrame c, by simp [hdest.sizeLastFrame]⟩
  counter := by simp
  counted := rfl
  loaded := rfl

variable (hM : MallocMC.Serves M r) (hT : cell.cellsInSuperCell ≤ 65535)
include hM hT

theorem loaded_eq (hN : N ≠ 0) (h : Loads cell srcFrame N restartChunkSize offset M destBox m) :
    m.loaded = ∑ j ∈ Finset.range (loopBlocks cell restartChunkSize (N ⌈/⌉ restartChunkSize % 2^32) (N % 2^32)),
      blockIds cell (i32 N) (offsetAt cell j) := by
  rw [Loads, if_neg hN] at h
  obtain ⟨L', hbetween⟩ := (@NoParticles.between D β cell r destBox hdest).loop hM hT h
  simpa using hbetween.loaded

omit hdest hM hT in
theorem mem_contents {T : ℕ} {α : Type*} {box : ParticlesBox D T α} {frames : List Ptr} {p : Ptr} {t : Fin T}
    (hp : p ∈ frames) (ht : box.multiMask p t = 1) : box.attributes p t ∈ box.contents frames 1 := by
  obtain ⟨l, l', rfl⟩ := List.append_of_mem hp
  rw [contents_append, contents_cons, Multiset.mem_add, Multiset.mem_add]
  exact .inr (.inl (Multiset.mem_map.mpr ⟨t, by simpa using ht, rfl⟩))

omit hdest hM hT in
theorem Between.restored (hcell : cell.Valid) (hbox : CompactState cell box L) {k : ℕ} {L' : DataSpace D → List Ptr}
    (h : Between r k (fun c => if c ∈ cell.area then box.contents (L c) 1 else 0)
      ((Multiset.range N).map (Nat.cast : ℕ → ℤ)) m L') (hN : N < 2^31) : Restored cell box L N m L' := by
  have hcontents : ∀ c ∈ cell.area, m.box.contents (L' c) 1 = box.contents (L c) 1 := fun c hc =>
    (h.holds.contents_one c).trans (if_pos hc)
  refine ⟨h.loaded, ?_, ⟨h.holds.linked, fun c hc => h.compact c fun d => ?_, fun c _ => ?_, fun c hc p hp t ht => ?_⟩,
    hcontents, fun c hc => (h.holds.contents_one c).trans (if_neg hc)⟩
  · rw [h.counted, h.loaded, Multiset.card_map, Multiset.card_range]
    exact Nat.mod_eq_of_lt (by omega)
  · have hd := CellDescription.mem_area.mp hc d
    have := hcell.guard_nonneg
    omega
  · exact ParticlesBase.State.multiMask_le h.holds le_rfl fun m hm => if_neg (by omega)
  · exact localCellIdx_lt hbox hc (hcontents c hc ▸ mem_contents hp ht)

/-- A file with fewer than 2^31 records brings back the particles if the threads of all launches can be counted. -/
theorem loads_restored (hcell : cell.Valid) (hbox : CompactState cell box L) (hchunk : 0 < restartChunkSize)
    (hN : N < 2^31) (hB : cell.cellsInSuperCell * chunkBlocks cell restartChunkSize N ≤ 2^31)
    (hsrc : (Multiset.range N).map (fun i : ℕ => srcFrame i) = records cell offset box L) :
    (∃ m, Loads cell srcFrame N restartChunkSize offset M destBox m) ∧
      ∀ m, Loads cell srcFrame N restartChunkSize offset M destBox m → ∃ L', Restored cell box L N m L' := by
  have hstart := @NoParticles.between D β cell r destBox hdest
  rcases Nat.eq_zero_or_pos N with rfl | hpos
  · have hnone : ∀ c ∈ cell.area, box.contents (L c) 1 = 0 := by
      have hcard := congrArg Multiset.card hsrc
      rw [card_records, Multiset.card_map, Multiset.card_range, eq_comm, numParticles, Finset.sum_eq_zero_iff] at hcard
      exact fun c hc => Multiset.card_eq_zero.mp (hcard c hc)
    have hempty : (fun c => if c ∈ cell.area then box.contents (L c) 1 else 0) = fun _ => 0 := funext fun c =>
      ite_eq_right_iff.mpr (hnone c)
    simp only [Loads, if_pos]
    refine ⟨⟨_, rfl⟩, fun m hm => ⟨fun _ => [], Between.restored (r := r) (k := 0) hcell hbox ?_ hN⟩⟩
    rw [hm, hempty]
    exact hstart
  · have hceil : N ⌈/⌉ restartChunkSize % 2^32 = N ⌈/⌉ restartChunkSize := by
      have hle : N ⌈/⌉ restartChunkSize ≤ N := (ceilDiv_le_iff_le_mul hchunk).mpr (Nat.le_mul_of_pos_left N hchunk)
      exact Nat.mod_eq_of_lt (by omega)
    have hblocks := @loopBlocks_eq D cell restartChunkSize N hchunk
    have hle := @le_threads D cell restartChunkSize hcell.cells_pos N
    have hregular : ∀ j < chunkBlocks cell restartChunkSize N, Regular cell (i32 N) (offsetAt cell (0 + j)) :=
      fun j hj t t' htt ht hvalid => by
        rw [zero_add] at hvalid ⊢
        rw [hasValidParticle_iff hj ht hB hN] at hvalid
        exact (hasValidParticle_iff hj (htt.trans_lt ht) hB hN).mpr (by omega)
    simp only [Loads, if_neg hpos.ne', hceil, Nat.mod_eq_of_lt (show N < 2^32 by omega)]
    refine ⟨hstart.exists_loop hM hT fun j hj => hregular j (hblocks ▸ hj), fun m hm => ?_⟩
    obtain ⟨L', hend⟩ := hstart.loop hM hT hm
    simp only [hblocks, zero_add, sum_blockParticles hbox hcell hsrc hB hN hle, sum_blockIds_eq hB hN hle] at hend
    exact ⟨L', hend.restored hcell hbox hN⟩

omit hdest hM hT in
theorem restored_loaded {m : Memory D cell.cellsInSuperCell β} {L' : DataSpace D → List Ptr}
    (h : Restored cell box L N m L') {i : ℤ} : i ∈ m.loaded ↔ 0 ≤ i ∧ i < N := by
  rw [h.loaded, Multiset.mem_map]
  constructor
  · rintro ⟨v, hv, rfl⟩
    rw [Multiset.mem_range] at hv
    omega
  · rintro ⟨h0, h1⟩
    exact ⟨i.toNat, Multiset.mem_range.mpr (by omega), Int.toNat_of_nonneg h0⟩

theorem RoundTrip.parts (h : RoundTrip cell offset box L restartChunkSize M destBox) :
    numParticles cell box L ≤ 2^31 ∧ (numParticles cell box L ≠ 0 → ∀ i : ℤ,
      i ∈ ∑ j ∈ Finset.range (loopBlocks cell restartChunkSize
          (numParticles cell box L ⌈/⌉ restartChunkSize % 2^32) (numParticles cell box L % 2^32)),
        blockIds cell (i32 (numParticles cell box L)) (offsetAt cell j) ↔ 0 ≤ i ∧ i < numParticles cell box L) := by
  obtain ⟨N, -, hcopies⟩ := h
  obtain ⟨⟨destFrame, hcopied⟩, hload⟩ := hcopies .kernelCopySpecies true
  obtain ⟨hwritten, hload⟩ := hload destFrame hcopied
  rw [← hwritten.card]
  refine ⟨?_, fun hN i => ?_⟩
  · by_contra hlt
    obtain ⟨srcFrame, hsrc⟩ := exists_srcFrame hwritten (by omega)
    have hslot := hsrc (2^31) (by omega)
    rw [CopyMethod.slot_lt .kernelCopySpecies hcopied (by norm_num)] at hslot
    cases hslot
  · obtain ⟨srcFrame, hsrc⟩ := exists_srcFrame hwritten (Nat.pos_of_ne_zero hN)
    obtain ⟨⟨m, hm⟩, hrestored⟩ := hload srcFrame hsrc
    obtain ⟨L', hm'⟩ := hrestored m hm
    rw [← loaded_eq hdest hM hT hN hm]
    exact restored_loaded hm'

/-- A thread whose number does not fit reads a record in front of the first one. -/
theorem not_roundTrip (hchunk : 0 < restartChunkSize)
    (h : ¬(numParticles cell box L < 2^31 ∧
      cell.cellsInSuperCell * chunkBlocks cell restartChunkSize (numParticles cell box L) ≤ 2^31)) :
    ¬ RoundTrip cell offset box L restartChunkSize M destBox := fun hround => by
  obtain ⟨hle, hloaded⟩ := hround.parts hdest hM hT
  generalize numParticles cell box L = N at h hle hloaded
  have hlow : i32 ((2^31 : ℕ) : ℤ) = -2^31 := by decide
  rcases Nat.lt_or_eq_of_le hle with hlt | rfl
  · have hthreads : 2^31 < cell.cellsInSuperCell * chunkBlocks cell restartChunkSize N := by
      by_contra hB
      exact h ⟨hlt, not_lt.mp hB⟩
    have hpos : N ≠ 0 := fun hN => by simp [hN, chunkBlocks] at hthreads
    have hceil : N ⌈/⌉ restartChunkSize ≤ N :=
      (ceilDiv_le_iff_le_mul hchunk).mpr (Nat.le_mul_of_pos_left N hchunk)
    have hnegative := (hloaded hpos (-2^31)).mp (by
      rw [Nat.mod_eq_of_lt (show N ⌈/⌉ restartChunkSize < 2^32 by omega),
        Nat.mod_eq_of_lt (show N < 2^32 by omega), loopBlocks_eq hchunk, sum_blockIds, Multiset.mem_sum]
      refine ⟨2^31, Finset.mem_range.mpr hthreads, ?_⟩
      rw [hlow, if_pos (by rw [i32_eq (by omega) (by omega)]; omega)]
      exact Multiset.mem_singleton_self _)
    omega
  · have hfirst := (hloaded (by norm_num) 0).mpr ⟨le_rfl, by norm_num⟩
    rw [sum_blockIds, Finset.sum_eq_zero fun v _ => if_neg (by have := i32_ge v; rw [hlow]; omega)] at hfirst
    exact Multiset.notMem_zero _ hfirst

end Parts

section FullFrames

def oneSuperCell : CellDescription 3 where
  gridSuperCells := 3
  borderSuperCells := 1
  guardingSuperCells := 1
  superCellSize := ![8, 8, 4]

def fullLists (n : ℕ) (c : DataSpace 3) : List Ptr := if c = 1 then List.range n else []

def fullFrames (n : ℕ) : ParticlesBox 3 oneSuperCell.cellsInSuperCell (Particle Unit) where
  multiMask _ _ := 1
  attributes _ _ := ⟨0, ()⟩
  previousFrame p := if p = 0 then none else some (p - 1)
  nextFrame p := if p + 1 < n then some (p + 1) else none
  firstFramePtr c := (fullLists n c).head?
  lastFramePtr c := (fullLists n c).getLast?
  mustShift _ := false
  sizeLastFrame c := if fullLists n c = [] then 0 else oneSuperCell.cellsInSuperCell
  allocated := Finset.range n
  attempts := 0

variable {n : ℕ}

theorem oneSuperCell_cells : oneSuperCell.cellsInSuperCell = 256 := rfl

theorem oneSuperCell_valid : oneSuperCell.Valid where
  dim := .inr rfl
  guard_nonneg := by decide
  grid_pos := by decide
  size_pos := by decide
  cells_le := by rw [oneSuperCell_cells]; norm_num

theorem mem_fullLists {c : DataSpace 3} {p : Ptr} : p ∈ fullLists n c ↔ c = 1 ∧ p < n := by
  unfold fullLists
  split
  case isTrue h => simp [h]
  case isFalse h => simp [h]

theorem fullLists_eq {c : DataSpace 3} {l l' : List Ptr} {p : Ptr} (h : fullLists n c = l ++ p :: l') :
    l = List.range p ∧ l' = (List.range n).drop (p + 1) ∧ p < n := by
  have hp := (mem_fullLists (n := n) (c := c)).mp (h ▸ List.mem_append_right l (List.mem_cons_self ..))
  rw [fullLists, if_pos hp.1] at h
  have hlen : l.length = p := by
    have hlt : l.length < (List.range n).length := by simp [h]
    have hget : (List.range n)[l.length]? = some p := by simp [h]
    rw [List.getElem?_eq_getElem hlt, List.getElem_range] at hget
    exact Option.some_inj.mp hget
  have htake := congrArg (List.take p) h
  have hdrop := congrArg (List.drop (p + 1)) h
  rw [List.take_range, min_eq_left hp.2.le, List.take_left' hlen] at htake
  rw [List.append_cons, List.drop_left' (by simp [hlen])] at hdrop
  exact ⟨htake.symm, hdrop.symm, hp.2⟩

theorem fullFrames_linked : Linked (fullFrames n) (fullLists n) where
  first _ := rfl
  last _ := rfl
  next c l p l' h := by
    obtain ⟨-, rfl, hp⟩ := fullLists_eq h
    rw [List.head?_drop]
    unfold fullFrames
    dsimp only
    split
    case isTrue hlt => simp [hlt]
    case isFalse hlt => simp [hlt]
  previous c l p l' h := by
    obtain ⟨rfl, -, -⟩ := fullLists_eq h
    rw [List.getLast?_range]
    rfl
  nodup c := by
    unfold fullLists
    split
    · exact List.nodup_range
    · exact List.nodup_nil
  disjoint c c' p h h' := (mem_fullLists.mp h).1.trans (mem_fullLists.mp h').1.symm
  allocated c p h := Finset.mem_range.mpr (mem_fullLists.mp h).2

theorem fullFrames_compactState : CompactState oneSuperCell (fullFrames n) (fullLists n) where
  linked := fullFrames_linked
  compact c _ := by
    refine ⟨fun l p h => ⟨fun _ _ _ => Nat.one_ne_zero, fun i => ?_⟩, fun h => if_pos h, ?_⟩
    · have hne : fullLists n c ≠ [] := by simp [h]
      simp [fullFrames, hne]
    · unfold fullFrames
      dsimp only
      split <;> simp
  multiMask_le _ _ _ _ _ := le_rfl
  localCellIdx_lt _ _ _ _ _ _ := oneSuperCell_valid.cells_pos

theorem numParticles_fullFrames (n : ℕ) : numParticles oneSuperCell (fullFrames n) (fullLists n) = 256 * n := by
  have hcard : ∀ frames : List Ptr, ((fullFrames n).contents frames 1).card = 256 * frames.length := fun frames => by
    induction frames with
    | nil => rfl
    | cons p frames ih =>
      have hfull : (Finset.univ.filter fun i => (fullFrames n).multiMask p i = 1) = Finset.univ :=
        Finset.filter_true_of_mem fun _ _ => rfl
      rw [contents_cons, Multiset.card_add, ih, List.length_cons, FrameContents.particles, Multiset.card_map,
        Finset.card_val, hfull, Finset.card_univ, Fintype.card_fin, oneSuperCell_cells]
      ring
  have harea : oneSuperCell.area = {1} := by decide
  rw [numParticles, harea, Finset.sum_singleton, hcard, fullLists, if_pos rfl, List.length_range]

theorem fullFrames_noParticles : NoParticles 12 (fullFrames 0) where
  linked := by
    have hnone : fullLists 0 = fun _ => [] := by
      funext c
      exact List.eq_nil_iff_forall_not_mem.mpr fun p hp => Nat.not_lt_zero p (mem_fullLists.mp hp).2
    exact hnone ▸ fullFrames_linked
  attempts := rfl
  sizeLastFrame c := if_pos (by
    exact List.eq_nil_iff_forall_not_mem.mpr fun p hp => Nat.not_lt_zero p (mem_fullLists.mp hp).2)

/-- The particles survive a checkpoint exactly when they, and the threads that load them, can be counted with 32 bits
and a sign. -/
theorem roundTrip_iff {cell : CellDescription D} {offset : DataSpace D}
    {box : ParticlesBox D cell.cellsInSuperCell (Particle β)} {L : DataSpace D → List Ptr} {r restartChunkSize : ℕ}
    {M : MallocMC} {destBox : ParticlesBox D cell.cellsInSuperCell (Particle β)} (hdest : NoParticles r destBox)
    (hM : MallocMC.Serves M r) (hcell : cell.Valid) (hbox : CompactState cell box L) (hchunk : 0 < restartChunkSize) :
    RoundTrip cell offset box L restartChunkSize M destBox ↔ numParticles cell box L < 2^31 ∧
      cell.cellsInSuperCell * chunkBlocks cell restartChunkSize (numParticles cell box L) ≤ 2^31 := by
  refine ⟨fun h => ?_, fun ⟨hN, hB⟩ => ⟨numParticles cell box L, fun active blocks hblocks => ?_, fun method active => ?_⟩⟩
  · by_contra hne
    exact not_roundTrip hdest hM hcell.cells_le hchunk hne h
  · exact CountParticles.countOnDevice_spec hcell hbox active hN hblocks
  · refine ⟨method.exists_copies hcell hbox active hN, fun destFrame hcopied => ?_⟩
    have hwritten := method.written hcell hbox active hN hcopied
    exact ⟨hwritten, fun srcFrame hsrc =>
      loads_restored hdest hM hcell.cells_le hcell hbox hchunk hN hB (map_srcFrame hwritten hsrc)⟩

theorem roundTrip_fullFrames : RoundTrip oneSuperCell 0 (fullFrames 2) (fullLists 2) 100 ParticlesBase.nextFree
    (fullFrames 0) :=
  (roundTrip_iff fullFrames_noParticles (fun _ _ _ => rfl) oneSuperCell_valid fullFrames_compactState
    (by norm_num)).mpr ⟨by rw [numParticles_fullFrames]; norm_num, by
      rw [numParticles_fullFrames, oneSuperCell_cells]
      decide⟩

/-- With chunks of one particle, every launch hands out records to 256 threads. -/
theorem not_roundTrip_fullFrames : ¬ RoundTrip oneSuperCell 0 (fullFrames 32769) (fullLists 32769) 1
    ParticlesBase.nextFree (fullFrames 0) :=
  not_roundTrip fullFrames_noParticles (fun _ _ _ => rfl) oneSuperCell_valid.cells_le one_pos fun h => by
    rw [numParticles_fullFrames, oneSuperCell_cells] at h
    revert h
    decide

end FullFrames

end LoadSpecies

end PIConGPU
