import PIConGPU.CopySpecies
import PIConGPU.CopySpeciesGlobal2Local

/-!
# Restart of a species from a checkpoint

The particles of a rank are counted, copied to the host and written. On restart they are loaded in chunks, each with
one launch of CopySpeciesGlobal2Local and a pass that closes the gaps of all supercells. All launches share one counter
of records. The offset of a record has 32 bits with a sign.
-/
namespace PIConGPU

open BlockThreads ParticlesBox CopySpeciesGlobal2Local

variable {D : ℕ} {β : Type*}

structure FillGapsSchedule (D T : ℕ) where
  gapsBlocks : List (DataSpace D)
  gapsOrder : DataSpace D → ℕ → Equiv.Perm (Fin T) × Equiv.Perm (Fin T)
  lastBlocks : List (DataSpace D)
  lastOrder : DataSpace D → Equiv.Perm (Fin T) × Equiv.Perm (Fin T) × Equiv.Perm (Fin T)

structure FillGapsSchedule.Valid {T : ℕ} (mapper : BlockMapper D) (sched : FillGapsSchedule D T) : Prop where
  gapsBlocks : mapper.Launches sched.gapsBlocks
  lastBlocks : mapper.Launches sched.lastBlocks

theorem FillGapsSchedule.exists_valid (mapper : BlockMapper D) (T : ℕ) :
    ∃ sched : FillGapsSchedule D T, sched.Valid mapper := by
  obtain ⟨blocks, hblocks⟩ := mapper.exists_launches
  exact ⟨⟨blocks, fun _ _ => 1, blocks, fun _ => 1⟩, hblocks, hblocks⟩

namespace ParticlesBase

variable {T : ℕ} {α : Type*}

def fillGaps (mapper : BlockMapper D) (sched : FillGapsSchedule D T) (box : ParticlesBox D T α) :
    Option (ParticlesBox D T α) :=
  (sched.gapsBlocks.foldlM (fun box blockIdx => (mapper.getBlockIndex blockIdx).bind fun superCellIdx =>
    KernelFillGaps.block (sched.gapsOrder blockIdx) box superCellIdx) box).bind fun box =>
  sched.lastBlocks.foldlM (fun box blockIdx => (mapper.getBlockIndex blockIdx).bind fun superCellIdx =>
    KernelFillGapsLastFrame.block (sched.lastOrder blockIdx) box superCellIdx) box

def fillAllGaps (m : MappingDescription D) (sched : FillGapsSchedule D T) (box : ParticlesBox D T α) :
    Option (ParticlesBox D T α) :=
  fillGaps (AreaMappingMethods.coreBorderGuard m) sched box

variable {m : MappingDescription D} {sched : FillGapsSchedule D T} {box : ParticlesBox D T α}
  {L : DataSpace D → List Ptr} {r : ℕ} {A : DataSpace D → Multiset α}

theorem fillAllGaps_spec (hT : T ≤ 65535) (hsched : sched.Valid (AreaMappingMethods.coreBorderGuard m))
    (h : Holds r A box L) : ∃ box' L', fillAllGaps m sched box = some box' ∧ Holds r A box' L' ∧
      ∀ c ∈ launchBox m.gridSuperCells, Compact box' (L' c) (box'.sizeLastFrame c) := by
  have hunmarked : ∀ c : DataSpace D, ∀ k, 2 ≤ k → (if k = 1 then A c else 0) = 0 := fun c k hk => if_neg (by omega)
  obtain ⟨box₁, L', hgaps, h₁⟩ := State.foldlM_fillGaps id sched.gapsOrder hT sched.gapsBlocks
    (fun idx _ => ⟨Set.mem_univ _, hunmarked idx⟩) h
  obtain ⟨box', hlast, h'⟩ := h₁.foldlM_fillGapsLastFrame id sched.lastOrder hT sched.lastBlocks
    fun idx hidx => ⟨.inr (by
      rw [Set.mem_ofPred_eq, List.map_id, hsched.gapsBlocks.2, ← hsched.lastBlocks.2]
      exact hidx), hunmarked idx⟩
  refine ⟨box', L', ?_, ⟨h'.linked, h'.attempts, h'.size_le, h'.contents_eq, h'.mustShift,
    fun s hs => absurd (Set.mem_univ s) hs, fun s hs => absurd hs (Set.notMem_empty s)⟩, fun c hc => ?_⟩
  · exact (congrArg (Option.bind · _) hgaps).trans hlast
  · refine h'.compact c fun hloose => hloose.2 ?_
    rw [Set.mem_ofPred_eq, List.map_id, hsched.lastBlocks.2]
    exact hc

end ParticlesBase

namespace LoadSpecies

open ParticlesBase

section Loop

variable (cell : CellDescription D) (srcFrame : ℤ → Record D β) (totalNumParticles restartChunkSize : ℕ)
  (localDomainCellOffset : DataSpace D) (M : MallocMC)

/-- The loop over the chunks, with the iterations and the particles that are left. -/
inductive Loop : ℕ → ℕ → Memory D cell.cellsInSuperCell β → Memory D cell.cellsInSuperCell β → Prop
  | finished {leftOverParticles : ℕ} {m : Memory D cell.cellsInSuperCell β} : Loop 0 leftOverParticles m m
  | chunk {i leftOverParticles : ℕ} {m m₁ m' : Memory D cell.cellsInSuperCell β}
    {sched : FillGapsSchedule D cell.cellsInSuperCell} {box : ParticlesBox D cell.cellsInSuperCell (Particle β)}
    (hlaunch : Launched cell srcFrame (i32 totalNumParticles) localDomainCellOffset M
      (min leftOverParticles restartChunkSize ⌈/⌉ cell.cellsInSuperCell) m m₁)
    (hsched : sched.Valid (AreaMappingMethods.coreBorderGuard cell.toMappingDescription))
    (hfill : fillAllGaps cell.toMappingDescription sched m₁.box = some box)
    (hrest : Loop i (leftOverParticles - min leftOverParticles restartChunkSize) { m₁ with box := box } m') :
    Loop (i + 1) leftOverParticles m m'

def Loads (box : ParticlesBox D cell.cellsInSuperCell (Particle β)) (m' : Memory D cell.cellsInSuperCell β) : Prop :=
  if totalNumParticles = 0 then m' = ⟨box, fun _ => 0, 0⟩
  else
    let iterationsForLoad := (totalNumParticles ⌈/⌉ restartChunkSize) % 2^32
    Loop cell srcFrame totalNumParticles restartChunkSize localDomainCellOffset M iterationsForLoad
      (totalNumParticles % 2^32) ⟨box, fun _ => 0, 0⟩ m'

def loopBlocks : ℕ → ℕ → ℕ
  | 0, _ => 0
  | i + 1, leftOverParticles => min leftOverParticles restartChunkSize ⌈/⌉ cell.cellsInSuperCell +
      loopBlocks i (leftOverParticles - min leftOverParticles restartChunkSize)

end Loop

section Spec

variable {cell : CellDescription D} {srcFrame : ℤ → Record D β} {totalNumParticles restartChunkSize : ℕ}
  {localDomainCellOffset : DataSpace D} {M : MallocMC} {r k₀ : ℕ} {A : DataSpace D → Multiset (Particle β)}
  {m m' : Memory D cell.cellsInSuperCell β} {L : DataSpace D → List Ptr} {i leftOverParticles : ℕ}

structure Between (r k : ℕ) (A : DataSpace D → Multiset (Particle β)) (loaded : Multiset ℤ)
    (m : Memory D cell.cellsInSuperCell β) (L : DataSpace D → List Ptr) : Prop where
  holds : Holds r A m.box L
  compact : ∀ c ∈ launchBox cell.gridSuperCells, Compact m.box (L c) (m.box.sizeLastFrame c)
  counter : m.counter 0 = cell.cellsInSuperCell * k % 2^32
  counted : m.counter 1 = m.loaded.card % 2^32
  loaded : m.loaded = loaded

variable {loaded : Multiset ℤ} (hM : MallocMC.Serves M r) (hT : cell.cellsInSuperCell ≤ 65535)
include hM hT

theorem Between.loop (h : Between r k₀ A loaded m L)
    (hloop : Loop cell srcFrame totalNumParticles restartChunkSize localDomainCellOffset M i leftOverParticles m m') :
    ∃ L', Between r (k₀ + loopBlocks cell restartChunkSize i leftOverParticles)
      (fun c => A c + ∑ j ∈ Finset.range (loopBlocks cell restartChunkSize i leftOverParticles),
        blockParticles cell srcFrame (i32 totalNumParticles) localDomainCellOffset (offsetAt cell (k₀ + j)) c)
      (loaded + ∑ j ∈ Finset.range (loopBlocks cell restartChunkSize i leftOverParticles),
        blockIds cell (i32 totalNumParticles) (offsetAt cell (k₀ + j))) m' L' := by
  induction hloop generalizing k₀ A loaded L with
  | finished => exact ⟨L, by simpa [loopBlocks] using h⟩
  | @chunk i leftOverParticles m m₁ m' sched box hlaunch hsched hfill hrest ih =>
    obtain ⟨⟨L₁, h₁⟩, hcounter, hcounted, hloaded⟩ := hlaunch.spec hM h.holds h.counter h.counted
    obtain ⟨box', L₂, hfill', h₂, hcompact⟩ := fillAllGaps_spec hT hsched h₁
    obtain rfl : box' = box := Option.some_inj.mp (hfill'.symm.trans hfill)
    obtain ⟨L', h'⟩ := ih ⟨h₂, hcompact, hcounter, hcounted, hloaded⟩
    refine ⟨L', ?_⟩
    simpa only [loopBlocks, Finset.sum_range_add, add_assoc, h.loaded] using h'

theorem Between.exists_loop (h : Between r k₀ A loaded m L)
    (hregular : ∀ j < loopBlocks cell restartChunkSize i leftOverParticles,
      Regular cell (i32 totalNumParticles) (offsetAt cell (k₀ + j))) :
    ∃ m', Loop cell srcFrame totalNumParticles restartChunkSize localDomainCellOffset M i leftOverParticles m m' := by
  induction i generalizing k₀ A loaded m L leftOverParticles with
  | zero => exact ⟨m, .finished⟩
  | succ i ih =>
    obtain ⟨m₁, hlaunch⟩ := @exists_launched D β cell srcFrame (i32 totalNumParticles) localDomainCellOffset _ _ _ _ _ _ _ hM
      h.holds h.counter h.counted fun j hj => hregular j (hj.trans_le (Nat.le_add_right _ _))
    obtain ⟨⟨L₁, h₁⟩, hcounter, hcounted, hloaded⟩ := hlaunch.spec hM h.holds h.counter h.counted
    obtain ⟨sched, hsched⟩ := FillGapsSchedule.exists_valid
      (AreaMappingMethods.coreBorderGuard cell.toMappingDescription) cell.cellsInSuperCell
    obtain ⟨box, L₂, hfill, h₂, hcompact⟩ := fillAllGaps_spec hT hsched h₁
    have hnext : Between r _ _ _ { m₁ with box := box } L₂ := ⟨h₂, hcompact, hcounter, hcounted, hloaded⟩
    obtain ⟨m', hrest⟩ := ih hnext fun j hj => by
      rw [add_assoc]
      exact hregular _ (Nat.add_lt_add_left hj _)
    exact ⟨m', .chunk hlaunch hsched hfill hrest⟩

end Spec

section Blocks

variable (cell : CellDescription D)

def chunkBlocks (restartChunkSize N : ℕ) : ℕ :=
  N / restartChunkSize * (restartChunkSize ⌈/⌉ cell.cellsInSuperCell) + N % restartChunkSize ⌈/⌉ cell.cellsInSuperCell

variable {cell} {restartChunkSize N : ℕ} (hchunk : 0 < restartChunkSize)

theorem loopBlocks_full (q n left : ℕ) :
    loopBlocks cell restartChunkSize (q + n) (restartChunkSize * q + left) =
      q * (restartChunkSize ⌈/⌉ cell.cellsInSuperCell) + loopBlocks cell restartChunkSize n left := by
  induction q with
  | zero => simp
  | succ q ih =>
    have hmin : min (restartChunkSize * (q + 1) + left) restartChunkSize = restartChunkSize :=
      min_eq_right (by rw [Nat.mul_succ]; omega)
    have hsub : restartChunkSize * (q + 1) + left - restartChunkSize = restartChunkSize * q + left := by
      rw [Nat.mul_succ]
      omega
    rw [add_right_comm, loopBlocks, hmin, hsub, ih, Nat.succ_mul]
    omega

include hchunk

theorem loopBlocks_eq : loopBlocks cell restartChunkSize (N ⌈/⌉ restartChunkSize) N =
    chunkBlocks cell restartChunkSize N := by
  have hdiv := Nat.div_add_mod N restartChunkSize
  have hlt := Nat.mod_lt N hchunk
  have hceil : N ⌈/⌉ restartChunkSize = N / restartChunkSize + N % restartChunkSize ⌈/⌉ restartChunkSize := by
    rw [Nat.ceilDiv_eq_add_pred_div, Nat.ceilDiv_eq_add_pred_div]
    conv_lhs => rw [← hdiv, add_assoc, Nat.add_sub_assoc (by omega), Nat.mul_add_div hchunk]
  have hfull := @loopBlocks_full D cell restartChunkSize (N / restartChunkSize)
    (N % restartChunkSize ⌈/⌉ restartChunkSize) (N % restartChunkSize)
  rw [hdiv, ← hceil] at hfull
  rw [hfull, chunkBlocks]
  congr 1
  rcases Nat.eq_zero_or_pos (N % restartChunkSize) with hzero | hpos
  · simp [hzero, loopBlocks]
  · have hone : N % restartChunkSize ⌈/⌉ restartChunkSize = 1 := by
      rw [Nat.ceilDiv_eq_add_pred_div]
      exact Nat.div_eq_of_lt_le (by omega) (by omega)
    rw [hone, loopBlocks, loopBlocks, min_eq_left hlt.le, add_zero]

omit hchunk in
theorem le_threads (hcell : 0 < cell.cellsInSuperCell) (N : ℕ) :
    N ≤ cell.cellsInSuperCell * chunkBlocks cell restartChunkSize N := by
  have hfull := le_smul_ceilDiv (b := restartChunkSize) hcell
  have hrest := le_smul_ceilDiv (b := N % restartChunkSize) hcell
  rw [smul_eq_mul] at hfull hrest
  rw [chunkBlocks, Nat.mul_add, Nat.mul_left_comm]
  have hmul := Nat.mul_le_mul_left (N / restartChunkSize) hfull
  have hdiv := Nat.div_add_mod N restartChunkSize
  rw [Nat.mul_comm] at hdiv
  omega

end Blocks

section Threads

variable {cell : CellDescription D} {A : Type*} [AddCommMonoid A]

theorem globalParticleId_offsetAt (j t : ℕ) :
    globalParticleId (offsetAt cell j) t = i32 ((cell.cellsInSuperCell * j + t : ℕ) : ℤ) := by
  rw [globalParticleId, offsetAt, i32_add]
  exact i32_congr (by push_cast; omega)

theorem sum_threads (f : ℕ → A) (T B : ℕ) :
    ∑ j ∈ Finset.range B, ∑ t : Fin T, f (T * j + t) = ∑ v ∈ Finset.range (T * B), f v := by
  induction B with
  | zero => simp
  | succ B ih =>
    rw [Finset.sum_range_succ, ih, Nat.mul_succ, Finset.sum_range_add, Fin.sum_univ_eq_sum_range fun t => f (T * B + t)]

theorem map_eq_sum {ι B : Type*} (s : Finset ι) (f : ι → B) : s.val.map f = ∑ i ∈ s, ({f i} : Multiset B) := by
  rw [Finset.sum, ← Multiset.sum_map_singleton (s.val.map f), Multiset.map_map]
  rfl

theorem sum_blockIds (maxParticles : ℤ) (B : ℕ) :
    ∑ j ∈ Finset.range B, blockIds cell maxParticles (offsetAt cell j) =
      ∑ v ∈ Finset.range (cell.cellsInSuperCell * B), if i32 v < maxParticles then {i32 v} else 0 := by
  rw [← sum_threads]
  refine Finset.sum_congr rfl fun j _ => ?_
  rw [blockIds, map_eq_sum, validThreads, Finset.sum_filter]
  refine Finset.sum_congr rfl fun t _ => ?_
  simp only [hasValidParticle, decide_eq_true_eq, globalParticleId_offsetAt]

end Threads

section Records

variable {cell : CellDescription D} {box : ParticlesBox D cell.cellsInSuperCell (Particle β)}
  {L : DataSpace D → List Ptr} {offset : DataSpace D} {srcFrame : ℤ → Record D β} {N B : ℕ}

theorem exists_slot {frames : List Ptr} {particle : Particle β} (h : particle ∈ box.contents frames 1) :
    ∃ p ∈ frames, ∃ t, box.multiMask p t = 1 ∧ box.attributes p t = particle := by
  induction frames with
  | nil => simp at h
  | cons p frames ih =>
    rw [contents_cons, Multiset.mem_add, FrameContents.particles, Multiset.mem_map] at h
    rcases h with ⟨t, ht, rfl⟩ | h
    · exact ⟨p, List.mem_cons_self .., t, (Finset.mem_filter.mp (Finset.mem_val.mp ht)).2, rfl⟩
    · obtain ⟨q, hq, hslot⟩ := ih h
      exact ⟨q, List.mem_cons_of_mem _ hq, hslot⟩

variable (h : CompactState cell box L)
include h

theorem localCellIdx_lt {c : DataSpace D} (hc : c ∈ cell.area) {particle : Particle β}
    (hp : particle ∈ box.contents (L c) 1) : particle.localCellIdx < cell.cellsInSuperCell := by
  obtain ⟨p, hframe, t, hone, rfl⟩ := exists_slot hp
  exact h.localCellIdx_lt c hc p hframe t hone

theorem mem_records {record : Record D β} (hr : record ∈ records cell offset box L) : ∃ c ∈ cell.area,
    ∃ particle : Particle β, particle.localCellIdx < cell.cellsInSuperCell ∧ record = cell.toRecord offset c particle := by
  rw [records, Multiset.mem_sum] at hr
  obtain ⟨c, hc, hr⟩ := hr
  obtain ⟨particle, hp, rfl⟩ := Multiset.mem_map.mp hr
  exact ⟨c, hc, particle, localCellIdx_lt h hc hp, rfl⟩

variable (hcell : cell.Valid)
include hcell

theorem sum_records (c : DataSpace D) :
    ((records cell offset box L).map fun record =>
      if cell.target offset record = c then ({cell.toParticle offset record} : Multiset (Particle β)) else 0).sum =
      if c ∈ cell.area then box.contents (L c) 1 else 0 := by
  have hhom := map_sum (Multiset.sumAddMonoidHom.comp (Multiset.mapAddMonoidHom fun record =>
    if cell.target offset record = c then ({cell.toParticle offset record} : Multiset (Particle β)) else 0))
    (superCellRecords cell offset box L) cell.area
  have hsuperCell : ∀ c' ∈ cell.area, ((superCellRecords cell offset box L c').map fun record =>
      if cell.target offset record = c then ({cell.toParticle offset record} : Multiset (Particle β)) else 0).sum =
      if c' = c then box.contents (L c') 1 else 0 := fun c' hc' => by
    rw [superCellRecords, Multiset.map_map]
    have hparticle : ∀ particle ∈ box.contents (L c') 1, ((fun record =>
        if cell.target offset record = c then ({cell.toParticle offset record} : Multiset (Particle β)) else 0) ∘
        cell.toRecord offset c') particle = if c' = c then {particle} else 0 := fun particle hp => by
      have hlt := localCellIdx_lt h hc' hp
      simp only [Function.comp_apply, hcell.target_toRecord hc' hlt, hcell.toParticle_toRecord hc' hlt]
    rw [Multiset.map_congr rfl hparticle]
    split
    case isTrue => exact Multiset.sum_map_singleton _
    case isFalse => simp
  refine hhom.trans ?_
  rw [← Finset.sum_ite_eq' cell.area c fun c' => box.contents (L c') 1]
  exact Finset.sum_congr rfl hsuperCell

variable (hsrc : (Multiset.range N).map (fun i : ℕ => srcFrame i) = records cell offset box L)
include hsrc

omit hcell in
theorem exists_record {v : ℕ} (hv : v < N) : ∃ c ∈ cell.area, ∃ particle : Particle β,
    particle.localCellIdx < cell.cellsInSuperCell ∧ srcFrame v = cell.toRecord offset c particle :=
  mem_records h (hsrc ▸ Multiset.mem_map.mpr ⟨v, Multiset.mem_range.mpr hv, rfl⟩)

omit h hcell hsrc in
theorem globalParticleId_eq {j t : ℕ} (hj : j < B) (ht : t < cell.cellsInSuperCell)
    (hB : cell.cellsInSuperCell * B ≤ 2^31) :
    globalParticleId (offsetAt cell j) t = (cell.cellsInSuperCell * j + t : ℕ) := by
  have hle : cell.cellsInSuperCell * (j + 1) ≤ cell.cellsInSuperCell * B := Nat.mul_le_mul_left _ hj
  rw [Nat.mul_succ] at hle
  rw [globalParticleId_offsetAt, i32_eq (by omega) (by omega)]

omit h hcell hsrc in
theorem hasValidParticle_iff {j t : ℕ} (hj : j < B) (ht : t < cell.cellsInSuperCell)
    (hB : cell.cellsInSuperCell * B ≤ 2^31) (hN : N < 2^31) :
    hasValidParticle (i32 N) (offsetAt cell j) t = true ↔ cell.cellsInSuperCell * j + t < N := by
  rw [hasValidParticle, decide_eq_true_eq, globalParticleId_eq hj ht hB, i32_eq (by omega) (by omega)]
  exact Nat.cast_lt

/-- The master of a thread has a record of the same supercell. -/
theorem threadTarget_masterIdx {j t : ℕ} (hj : j < B) (ht : t < cell.cellsInSuperCell)
    (hB : cell.cellsInSuperCell * B ≤ 2^31) (hN : N < 2^31) (hv : cell.cellsInSuperCell * j + t < N) :
    threadTarget cell srcFrame offset (offsetAt cell j) (masterIdx cell srcFrame (i32 N) offset (offsetAt cell j) t) =
      cell.target offset (srcFrame (cell.cellsInSuperCell * j + t : ℕ)) := by
  obtain ⟨hle, hid, -⟩ := @masterIdx_spec D β cell srcFrame (i32 N) offset (offsetAt cell j) t
  set s := masterIdx cell srcFrame (i32 N) offset (offsetAt cell j) t
  have hs : cell.cellsInSuperCell * j + s < N := by omega
  rw [linearSuperCellIds, linearSuperCellIds, if_pos ((hasValidParticle_iff hj (hle.trans_lt ht) hB hN).mpr hs),
    if_pos ((hasValidParticle_iff hj ht hB hN).mpr hv), globalParticleId_eq hj (hle.trans_lt ht) hB,
    globalParticleId_eq hj ht hB] at hid
  obtain ⟨c, hc, particle, hp, he⟩ := exists_record h hsrc hs
  obtain ⟨c', hc', particle', hp', he'⟩ := exists_record h hsrc hv
  rw [threadTarget, globalParticleId_eq hj (hle.trans_lt ht) hB]
  rw [he, he'] at hid ⊢
  rw [hcell.target_toRecord hc hp, hcell.target_toRecord hc' hp', hcell.target_eq hc hc' hp hp' hid]

theorem sum_blockParticles (hB : cell.cellsInSuperCell * B ≤ 2^31) (hN : N < 2^31)
    (hle : N ≤ cell.cellsInSuperCell * B) (c : DataSpace D) :
    ∑ j ∈ Finset.range B, blockParticles cell srcFrame (i32 N) offset (offsetAt cell j) c =
      if c ∈ cell.area then box.contents (L c) 1 else 0 := by
  set load : ℕ → Multiset (Particle β) := fun v =>
    if cell.target offset (srcFrame v) = c then {cell.toParticle offset (srcFrame v)} else 0 with hload
  have hblock : ∀ j ∈ Finset.range B, blockParticles cell srcFrame (i32 N) offset (offsetAt cell j) c =
      ∑ t : Fin cell.cellsInSuperCell, if cell.cellsInSuperCell * j + t < N then
        load (cell.cellsInSuperCell * j + t) else 0 := fun j hj => by
    rw [Finset.mem_range] at hj
    rw [blockParticles, map_eq_sum, Finset.sum_filter, validThreads, Finset.sum_filter]
    refine Finset.sum_congr rfl fun t _ => ?_
    simp only [hasValidParticle_iff hj t.isLt hB hN]
    split
    case isTrue hv =>
      rw [threadTarget_masterIdx h hcell hsrc hj t.isLt hB hN hv, hload, threadParticle, globalParticleId_eq hj t.isLt hB]
    case isFalse => rfl
  rw [Finset.sum_congr rfl hblock, sum_threads fun v => if v < N then load v else 0,
    ← Finset.sum_subset (Finset.range_subset_range.mpr hle) fun v _ hv => if_neg (by simpa using hv),
    ← @sum_records D β cell box L offset h hcell c, ← hsrc, Multiset.map_map]
  exact Finset.sum_congr rfl fun v hv => if_pos (Finset.mem_range.mp hv)

omit h hcell hsrc in
theorem sum_blockIds_eq (hB : cell.cellsInSuperCell * B ≤ 2^31) (hN : N < 2^31)
    (hle : N ≤ cell.cellsInSuperCell * B) :
    ∑ j ∈ Finset.range B, blockIds cell (i32 N) (offsetAt cell j) = (Multiset.range N).map (Nat.cast : ℕ → ℤ) := by
  have hid : ∀ v ∈ Finset.range (cell.cellsInSuperCell * B),
      (if i32 v < i32 N then {i32 v} else 0 : Multiset ℤ) = if v < N then {(v : ℤ)} else 0 := fun v hv => by
    rw [Finset.mem_range] at hv
    rw [i32_eq (by omega) (by omega), i32_eq (by omega) (by omega)]
    simp only [Nat.cast_lt]
  have hmap := map_eq_sum (Finset.range N) (Nat.cast : ℕ → ℤ)
  rw [sum_blockIds, Finset.sum_congr rfl hid,
    ← Finset.sum_subset (Finset.range_subset_range.mpr hle) fun v _ hv => if_neg (by simpa using hv)]
  refine Eq.trans ?_ hmap.symm
  exact Finset.sum_congr rfl fun v hv => if_pos (Finset.mem_range.mp hv)

end Records

end LoadSpecies

end PIConGPU
