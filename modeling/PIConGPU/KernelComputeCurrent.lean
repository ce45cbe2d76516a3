import PIConGPU.ManipulateParticles
import PIConGPU.StridedLoop

/-!
# KernelComputeCurrent

A block has several threads for every cell of its supercell. They form virtual blocks, each of which starts at another
frame from the end of the list and goes on with every `workerMultiplier`-th frame. All threads share the work on the
cells of a cached part of the field.
-/
namespace PIConGPU

open ParticlesBox

variable {D : ℕ} {α : Type}

/-- The cells that one thread works on, counted from the origin of the supercell. -/
def ThreadCollective.cells (fullSuperCellSize offsetOrigin : DataSpace D) (maxThreads : ℕ) (hpos : 0 < maxThreads)
    (threadId : ℕ) : List (DataSpace D) :=
  (strided maxThreads hpos (∏ d, fullSuperCellSize d).toNat threadId).map fun i : ℕ =>
    DataSpaceOperations.unmap fullSuperCellSize i - offsetOrigin

namespace KernelComputeCurrent

variable (cell : CellDescription D) (workerMultiplier : ℕ)

def blockSize : DataSpace D := fun d => if d.val + 1 = D then cell.size d * workerMultiplier else cell.size d

def linearThreadIdx (threadIndex : DataSpace D) : ℕ := (DataSpaceOperations.map cell.size threadIndex).toNat

def virtualBlockId (linearThreadIdx : ℕ) : ℕ := linearThreadIdx / cell.cellsInSuperCell

def virtualLinearId (linearThreadIdx : ℕ) : ℕ :=
  linearThreadIdx - virtualBlockId cell linearThreadIdx * cell.cellsInSuperCell

variable (box : ParticlesBox D cell.cellsInSuperCell α) (block : DataSpace D)

def stepBack (s : Option Ptr × ℕ) : Option Ptr × ℕ :=
  match s.1 with
  | some frame => (box.previousFrame frame, cell.cellsInSuperCell % 65536)
  | none => s

/-- The first frame of a virtual block, with the number of slots that it looks at. -/
def selectFrame (virtualBlockId : ℕ) : Option Ptr × ℕ :=
  let frame := box.lastFramePtr block
  let particlesInSuperCell := if frame.isSome ∧ virtualBlockId = 0 then box.sizeLastFrame block else 0
  (stepBack cell box)^[virtualBlockId] (frame, particlesInSuperCell)

/-- The calls of the frame solver by one thread, with a bound on the number of rounds. -/
def loop (virtualLinearId : ℕ) : ℕ → Option Ptr → ℕ → Option (List (Ptr × ℕ))
  | _, none, _ => some []
  | 0, some _, _ => none
  | n + 1, some frame, particlesInSuperCell => do
    let nextFrame := (fun frame : Option Ptr => frame.bind box.previousFrame)^[workerMultiplier] (some frame)
    let calls ← loop virtualLinearId n nextFrame (cell.cellsInSuperCell % 65536)
    some (if virtualLinearId < particlesInSuperCell then (frame, virtualLinearId) :: calls else calls)

def threadCalls (threadIndex : DataSpace D) : Option (List (Ptr × ℕ)) :=
  let linear := linearThreadIdx cell threadIndex
  let start := selectFrame cell box block (virtualBlockId cell linear)
  loop cell workerMultiplier box (virtualLinearId cell linear) box.allocated.card start.1 start.2

def calls (threads : List (DataSpace D)) : Option (List (Ptr × ℕ)) :=
  (threads.mapM (threadCalls cell workerMultiplier box block)).map List.flatten

def fullSuperCellSize (lowerMargin upperMargin : Fin D → ℕ) : DataSpace D := fun d =>
  lowerMargin d + cell.size d + upperMargin d

/-- The cells that a collective of all threads of a block works on. -/
def collectiveCells (hpos : 0 < cell.cellsInSuperCell * workerMultiplier) (lowerMargin upperMargin : Fin D → ℕ)
    (threads : List (DataSpace D)) : List (DataSpace D) :=
  threads.flatMap fun threadIndex =>
    ThreadCollective.cells (fullSuperCellSize cell lowerMargin upperMargin) (fun d => lowerMargin d)
      (cell.cellsInSuperCell * workerMultiplier) hpos (linearThreadIdx cell threadIndex)

section Threads

variable {cell workerMultiplier} (hD : D = 2 ∨ D = 3)
include hD

theorem map_blockSize (threadIndex : DataSpace D) :
    DataSpaceOperations.map (blockSize cell workerMultiplier) threadIndex =
      DataSpaceOperations.map cell.size threadIndex := by
  rcases hD with rfl | rfl
  · simp [DataSpaceOperations.map, blockSize]
  · simp [DataSpaceOperations.map, blockSize]

theorem prod_blockSize :
    ∏ d, blockSize cell workerMultiplier d = ((cell.cellsInSuperCell * workerMultiplier : ℕ) : ℤ) := by
  rw [Nat.cast_mul, ← CellDescription.prod_size]
  rcases hD with rfl | rfl
  · rw [Fin.prod_univ_two, Fin.prod_univ_two]
    simp [blockSize, mul_assoc]
  · rw [Fin.prod_univ_three, Fin.prod_univ_three]
    simp [blockSize, mul_assoc]

/-- The threads of a block are numbered. -/
theorem linearThreadIdx_perm (hsize : ∀ d, 0 < cell.superCellSize d) (hW : 0 < workerMultiplier)
    {threads : List (DataSpace D)} (hnodup : threads.Nodup)
    (hmem : ∀ t, t ∈ threads ↔ t ∈ launchBox (blockSize cell workerMultiplier)) :
    (threads.map (linearThreadIdx cell)).Perm (List.range (cell.cellsInSuperCell * workerMultiplier)) := by
  have hblock : ∀ d, 0 < blockSize cell workerMultiplier d := fun d => by
    have hd : 0 < cell.size d := Int.natCast_pos.mpr (hsize d)
    unfold blockSize
    split_ifs
    · exact mul_pos hd (Int.natCast_pos.mpr hW)
    · exact hd
  have hlinear : ∀ t ∈ threads, (linearThreadIdx cell t : ℤ) =
      DataSpaceOperations.map (blockSize cell workerMultiplier) t := fun t ht => by
    have hmap : DataSpaceOperations.map (blockSize cell workerMultiplier) t = DataSpaceOperations.map cell.size t :=
      map_blockSize hD t
    have hnonneg := (DataSpaceOperations.map_mem hD ((hmem t).mp ht)).1
    rw [hmap] at hnonneg ⊢
    exact Int.toNat_of_nonneg hnonneg
  refine (List.perm_ext_iff_of_nodup (hnodup.map_on fun t ht t' ht' h => ?_) List.nodup_range).mpr fun i => ?_
  · have hmap := congrArg (fun n : ℕ => (n : ℤ)) h
    rw [hlinear t ht, hlinear t' ht'] at hmap
    rw [← DataSpaceOperations.unmap_map hD ((hmem t).mp ht), hmap,
      DataSpaceOperations.unmap_map hD ((hmem t').mp ht')]
  · rw [List.mem_map, List.mem_range]
    constructor
    · rintro ⟨t, ht, rfl⟩
      have hlt := (DataSpaceOperations.map_mem hD ((hmem t).mp ht)).2
      rw [← hlinear t ht, prod_blockSize hD] at hlt
      exact_mod_cast hlt
    · intro hi
      have ht : DataSpaceOperations.unmap (blockSize cell workerMultiplier) i ∈ threads := (hmem _).mpr <|
        DataSpaceOperations.unmap_mem hD hblock (Int.natCast_nonneg i) (by
          rw [prod_blockSize hD]
          exact_mod_cast hi)
      refine ⟨_, ht, ?_⟩
      have hcast := hlinear _ ht
      rw [DataSpaceOperations.map_unmap hD] at hcast
      exact_mod_cast hcast

end Threads

section Frames

variable {cell workerMultiplier} {box : ParticlesBox D cell.cellsInSuperCell α} {L : DataSpace D → List Ptr}
  {block : DataSpace D} (hlinked : Linked box L)
include hlinked

theorem previousFrame_reverse {k : ℕ} {p : Ptr} (hp : (L block).reverse[k]? = some p) :
    box.previousFrame p = (L block).reverse[k + 1]? := by
  obtain ⟨hk, hget⟩ := List.getElem?_eq_some_iff.mp hp
  have hsplit : (L block).reverse = (L block).reverse.take k ++ p :: (L block).reverse.drop (k + 1) := by
    rw [← hget, List.getElem_cons_drop, List.take_append_drop]
  have hL : L block = ((L block).reverse.drop (k + 1)).reverse ++ p :: ((L block).reverse.take k).reverse := by
    have hrev := congrArg List.reverse hsplit
    rw [List.reverse_reverse] at hrev
    conv_lhs => rw [hrev]
    simp
  rw [hlinked.previous block _ p _ hL, List.getLast?_reverse, List.head?_drop]

theorem iterate_previousFrame (m k : ℕ) :
    (fun frame : Option Ptr => frame.bind box.previousFrame)^[m] (L block).reverse[k]? = (L block).reverse[k + m]? := by
  induction m generalizing k with
  | zero => rfl
  | succ m ih =>
    have hstep : (L block).reverse[k]?.bind box.previousFrame = (L block).reverse[k + 1]? := by
      cases hp : (L block).reverse[k]? with
      | none => exact (List.getElem?_eq_none (by have := List.getElem?_eq_none_iff.mp hp; omega)).symm
      | some p => exact previousFrame_reverse hlinked hp
    rw [Function.iterate_succ_apply, hstep, ih, Nat.add_right_comm, Nat.add_assoc]

/-- The number of slots that are looked at in the `k`-th frame from the end. -/
def slots (box : ParticlesBox D cell.cellsInSuperCell α) (block : DataSpace D) (k : ℕ) : ℕ :=
  if k = 0 then box.sizeLastFrame block else cell.cellsInSuperCell

theorem iterate_stepBack (hT : cell.cellsInSuperCell ≤ 65535) (n k : ℕ) :
    ((stepBack cell box)^[k] ((L block).reverse[0]?, n)).1 = (L block).reverse[k]? ∧
      ((L block).reverse[k]?.isSome →
        ((stepBack cell box)^[k] ((L block).reverse[0]?, n)).2 = if k = 0 then n else cell.cellsInSuperCell) := by
  induction k with
  | zero => exact ⟨rfl, fun _ => rfl⟩
  | succ k ih =>
    rw [Function.iterate_succ_apply', stepBack, ih.1]
    cases hp : (L block).reverse[k]? with
    | none =>
      have hnone : (L block).reverse[k + 1]? = none :=
        List.getElem?_eq_none (by have := List.getElem?_eq_none_iff.mp hp; omega)
      rw [hnone]
      exact ⟨ih.1.trans hp, fun h => absurd h (by decide)⟩
    | some p =>
      exact ⟨previousFrame_reverse hlinked hp, fun _ => Nat.mod_eq_of_lt (by omega)⟩

theorem selectFrame_spec (hT : cell.cellsInSuperCell ≤ 65535) (k : ℕ) :
    (selectFrame cell box block k).1 = (L block).reverse[k]? ∧
      ((L block).reverse[k]?.isSome → (selectFrame cell box block k).2 = slots box block k) := by
  have hlast : box.lastFramePtr block = (L block).reverse[0]? := by
    rw [hlinked.last, ← List.head?_reverse, List.head?_eq_getElem?]
  rw [selectFrame, hlast]
  refine ⟨(iterate_stepBack hlinked hT _ k).1, fun h => ?_⟩
  rw [(iterate_stepBack hlinked hT _ k).2 h, slots]
  by_cases hk : k = 0
  · subst hk
    simp [h]
  · rw [if_neg hk, if_neg hk]

/-- A thread calls the solver for its slot in every `workerMultiplier`-th frame. -/
theorem loop_spec (hT : cell.cellsInSuperCell ≤ 65535) (hW : 0 < workerMultiplier) (i : ℕ) {n k particlesInSuperCell : ℕ}
    (hn : (L block).length ≤ k + n) (hslots : (L block).reverse[k]?.isSome → particlesInSuperCell = slots box block k) :
    loop cell workerMultiplier box i n (L block).reverse[k]? particlesInSuperCell =
      some ((strided workerMultiplier hW (L block).length k).filterMap fun j =>
        if i < slots box block j then (L block).reverse[j]?.map fun p => (p, i) else none) := by
  induction n generalizing k particlesInSuperCell with
  | zero =>
    rw [strided_of_le hW (by omega), List.getElem?_eq_none (by simpa using hn)]
    rfl
  | succ n ih =>
    cases hp : (L block).reverse[k]? with
    | none =>
      have hk : (L block).length ≤ k := by simpa using List.getElem?_eq_none_iff.mp hp
      rw [strided_of_le hW hk]
      rfl
    | some p =>
      have hk : k < (L block).length := by simpa using (List.getElem?_eq_some_iff.mp hp).1
      have hnext : slots box block (k + workerMultiplier) = cell.cellsInSuperCell := if_neg (by omega)
      rw [loop, ← hp, iterate_previousFrame hlinked, Nat.mod_eq_of_lt (by omega),
        ih (by omega) fun _ => hnext.symm, strided_of_lt hW hk, List.filterMap_cons, hp, hslots (by simp [hp])]
      by_cases hi : i < slots box block k
      · simp [hi]
      · simp [hi]

end Frames

section Visits

variable {cell workerMultiplier} {box : ParticlesBox D cell.cellsInSuperCell α} {L : DataSpace D → List Ptr}
  {block : DataSpace D}

theorem lt_slots_iff (hcompact : Compact box (L block) (box.sizeLastFrame block)) {j : ℕ} {p : Ptr}
    (hp : (L block).reverse[j]? = some p) (i : ℕ) :
    i < slots box block j ↔ ∃ t : Fin cell.cellsInSuperCell, t.val = i ∧ box.multiMask p t ≠ 0 := by
  obtain ⟨l, q, hL⟩ : ∃ l q, L block = l ++ [q] := by
    rcases List.eq_nil_or_concat (L block) with hnil | ⟨l, q, hL⟩
    · simp [hnil] at hp
    · exact ⟨l, q, by rw [hL, List.concat_eq_append]⟩
  obtain ⟨hfull, hlast⟩ := hcompact.filled l q hL
  rw [hL, List.reverse_append, List.reverse_singleton, List.singleton_append] at hp
  rw [slots]
  cases j with
  | zero =>
    obtain rfl : q = p := by simpa using hp
    rw [if_pos rfl]
    exact ⟨fun hi => ⟨⟨i, hi.trans_le hcompact.size_le⟩, rfl, (hlast _).mpr hi⟩,
      fun ⟨t, ht, hmask⟩ => ht ▸ (hlast t).mp hmask⟩
  | succ j =>
    have hmem : p ∈ l := List.mem_reverse.mp (List.mem_of_getElem? (by simpa using hp))
    rw [if_neg (Nat.succ_ne_zero j)]
    exact ⟨fun hi => ⟨⟨i, hi⟩, rfl, hfull p hmem _⟩, fun ⟨t, ht, _⟩ => ht ▸ t.isLt⟩

def visited (box : ParticlesBox D cell.cellsInSuperCell α) (L : DataSpace D → List Ptr) (block : DataSpace D)
    (hW : 0 < workerMultiplier) (linear : ℕ) : List (Ptr × ℕ) :=
  (strided workerMultiplier hW (L block).length (linear / cell.cellsInSuperCell)).filterMap fun j =>
    if linear % cell.cellsInSuperCell < slots box block j then
      (L block).reverse[j]?.map fun p => (p, linear % cell.cellsInSuperCell) else none

theorem calls_eq (hlinked : Linked box L) (hT : cell.cellsInSuperCell ≤ 65535) (hW : 0 < workerMultiplier)
    (threads : List (DataSpace D)) : calls cell workerMultiplier box block threads =
      some (threads.flatMap fun t => visited box L block hW (linearThreadIdx cell t)) := by
  have hn := hlinked.length_le block
  have hthread : ∀ t, threadCalls cell workerMultiplier box block t =
      some (visited box L block hW (linearThreadIdx cell t)) := fun t => by
    obtain ⟨hframe, hslots⟩ := selectFrame_spec hlinked hT (virtualBlockId cell (linearThreadIdx cell t))
    have hid : virtualLinearId cell (linearThreadIdx cell t) = linearThreadIdx cell t % cell.cellsInSuperCell := by
      rw [virtualLinearId, virtualBlockId, Nat.mod_eq_sub_div_mul]
    rw [threadCalls, hframe, loop_spec hlinked hT hW _ (by omega) hslots, hid]
    rfl
  rw [calls, funext hthread]
  exact congrArg (Option.map List.flatten) List.mapM_pure

theorem of_mem_visited (hcompact : Compact box (L block) (box.sizeLastFrame block)) {hW : 0 < workerMultiplier}
    {linear i : ℕ} {p : Ptr} (h : (p, i) ∈ visited box L block hW linear) :
    p ∈ L block ∧ ∃ t : Fin cell.cellsInSuperCell, t.val = i ∧ box.multiMask p t ≠ 0 := by
  obtain ⟨j, -, hj⟩ := List.mem_filterMap.mp h
  split_ifs at hj with hslots
  obtain ⟨q, hq, heq⟩ := Option.map_eq_some_iff.mp hj
  obtain ⟨rfl, rfl⟩ := Prod.mk.inj heq
  exact ⟨List.mem_reverse.mp (List.mem_of_getElem? hq), (lt_slots_iff hcompact hq _).mp hslots⟩

/-- A slot in use is visited by the threads of its number, when they come to its frame. -/
theorem count_visited (hnodup : (L block).Nodup) (hcompact : Compact box (L block) (box.sizeLastFrame block))
    (hW : 0 < workerMultiplier) {j : ℕ} {p : Ptr} (hp : (L block).reverse[j]? = some p)
    {t : Fin cell.cellsInSuperCell} (ht : box.multiMask p t ≠ 0) (linear : ℕ) :
    (visited box L block hW linear).count (p, t.val) =
      if linear % cell.cellsInSuperCell = t then
        (strided workerMultiplier hW (L block).length (linear / cell.cellsInSuperCell)).count j else 0 := by
  rw [visited, List.count_filterMap]
  split_ifs with hlinear
  · rw [List.count]
    refine List.countP_congr fun j' _ => ?_
    rw [hlinear, beq_iff_eq, beq_iff_eq]
    constructor
    · intro h
      split_ifs at h
      obtain ⟨q, hq, heq⟩ := Option.map_eq_some_iff.mp h
      obtain rfl := (Prod.mk.inj heq).1
      have hj := (List.getElem?_eq_some_iff.mp hp).1
      exact ((List.getElem?_inj hj (List.nodup_reverse.mpr hnodup)).mp (hp.trans hq.symm)).symm
    · rintro rfl
      rw [if_pos ((lt_slots_iff hcompact hp t).mpr ⟨t, rfl, ht⟩), hp, Option.map_some]
  · rw [List.countP_eq_zero]
    intro j' _ h
    rw [beq_iff_eq] at h
    split_ifs at h
    obtain ⟨q, -, heq⟩ := Option.map_eq_some_iff.mp h
    exact hlinear (Prod.mk.inj heq).2

theorem sum_linear {T W i : ℕ} (hi : i < T) (f : ℕ → ℕ) :
    ∑ linear ∈ Finset.range (T * W), (if linear % T = i then f (linear / T) else 0) = ∑ k ∈ Finset.range W, f k := by
  rw [← Finset.sum_filter]
  refine Finset.sum_nbij' (· / T) (fun k => T * k + i) (fun n hn => ?_) (fun k hk => ?_) (fun n hn => ?_)
    (fun k _ => ?_) fun _ _ => rfl
  · rw [Finset.mem_filter, Finset.mem_range] at hn
    exact Finset.mem_range.mpr (Nat.div_lt_of_lt_mul hn.1)
  · rw [Finset.mem_range] at hk
    rw [Finset.mem_filter, Finset.mem_range, Nat.mul_add_mod, Nat.mod_eq_of_lt hi]
    exact ⟨by nlinarith, rfl⟩
  · rw [← (Finset.mem_filter.mp hn).2]
    exact Nat.div_add_mod n T
  · rw [Nat.mul_add_div (by omega), Nat.div_eq_of_lt hi, add_zero]

variable {threads : List (DataSpace D)}

theorem count_flatMap_threads {β : Type} [BEq β] [LawfulBEq β] {N : ℕ}
    (hperm : (threads.map (linearThreadIdx cell)).Perm (List.range N)) (f : ℕ → List β) (b : β) :
    (threads.flatMap fun t => f (linearThreadIdx cell t)).count b = ∑ n ∈ Finset.range N, (f n).count b := by
  rw [List.count_flatMap]
  have hsum := (hperm.map fun n => (f n).count b).sum_eq
  rw [List.map_map] at hsum
  exact hsum

theorem count_calls (hperm : (threads.map (linearThreadIdx cell)).Perm
      (List.range (cell.cellsInSuperCell * workerMultiplier)))
    (hnodup : (L block).Nodup) (hcompact : Compact box (L block) (box.sizeLastFrame block))
    (hW : 0 < workerMultiplier) {p : Ptr} (hp : p ∈ L block) {t : Fin cell.cellsInSuperCell} (ht : box.multiMask p t ≠ 0) :
    (threads.flatMap fun t => visited box L block hW (linearThreadIdx cell t)).count (p, t.val) = 1 := by
  obtain ⟨j, hj⟩ := List.mem_iff_getElem?.mp (List.mem_reverse.mpr hp)
  have hlt : j < (L block).length := by simpa using (List.getElem?_eq_some_iff.mp hj).1
  rw [count_flatMap_threads hperm]
  simp only [count_visited hnodup hcompact hW hj ht]
  rw [sum_linear t.isLt fun k => (strided workerMultiplier hW (L block).length k).count j, sum_count_strided,
    if_pos hlt]

end Visits

section Collective

variable (hD : D = 2 ∨ D = 3)

include hD

/-- Whatever their number, the threads share the cells of the box. -/
theorem sum_count_cells {fullSuperCellSize : DataSpace D} (hfull : ∀ d, 0 < fullSuperCellSize d)
    (offsetOrigin : DataSpace D) {maxThreads : ℕ} (hpos : 0 < maxThreads) (pos : DataSpace D) :
    ∑ n ∈ Finset.range maxThreads, (ThreadCollective.cells fullSuperCellSize offsetOrigin maxThreads hpos n).count pos =
      if ∀ d, 0 ≤ pos d + offsetOrigin d ∧ pos d + offsetOrigin d < fullSuperCellSize d then 1 else 0 := by
  simp only [ThreadCollective.cells, List.count, List.countP_map]
  have hcast : (((∏ d, fullSuperCellSize d).toNat : ℕ) : ℤ) = ∏ d, fullSuperCellSize d :=
    Int.toNat_of_nonneg (Finset.prod_nonneg fun d _ => (hfull d).le)
  split_ifs with hbox
  · have hmem : pos + offsetOrigin ∈ launchBox fullSuperCellSize := hbox
    obtain ⟨h0, h1⟩ := DataSpaceOperations.map_mem hD hmem
    have hcell : ∀ start, (strided maxThreads hpos (∏ d, fullSuperCellSize d).toNat start).countP
          ((fun x => x == pos) ∘ fun i : ℕ => DataSpaceOperations.unmap fullSuperCellSize i - offsetOrigin) =
        (strided maxThreads hpos (∏ d, fullSuperCellSize d).toNat start).count
          (DataSpaceOperations.map fullSuperCellSize (pos + offsetOrigin)).toNat := fun start => by
      refine List.countP_congr fun i _ => ?_
      rw [Function.comp_apply, beq_iff_eq, beq_iff_eq, sub_eq_iff_eq_add]
      constructor
      · intro h
        rw [← h, DataSpaceOperations.map_unmap hD, Int.toNat_natCast]
      · rintro rfl
        rw [Int.toNat_of_nonneg h0, DataSpaceOperations.unmap_map hD hmem]
    simp only [hcell]
    rw [sum_count_strided, if_pos (by omega)]
  · refine Finset.sum_eq_zero fun start _ => List.countP_eq_zero.mpr fun i hi h => hbox ?_
    rw [Function.comp_apply, beq_iff_eq, sub_eq_iff_eq_add] at h
    have hlt := lt_of_mem_strided hpos hi
    have hmem := DataSpaceOperations.unmap_mem hD hfull (Int.natCast_nonneg i) (by omega)
    rw [h] at hmem
    exact hmem

theorem count_collectiveCells {cell : CellDescription D} {workerMultiplier : ℕ} {threads : List (DataSpace D)}
    (hsize : ∀ d, 0 < cell.superCellSize d) (hpos : 0 < cell.cellsInSuperCell * workerMultiplier)
    (hperm : (threads.map (linearThreadIdx cell)).Perm (List.range (cell.cellsInSuperCell * workerMultiplier)))
    (lowerMargin upperMargin : Fin D → ℕ) (pos : DataSpace D) :
    (collectiveCells cell workerMultiplier hpos lowerMargin upperMargin threads).count pos =
      if ∀ d, -(lowerMargin d : ℤ) ≤ pos d ∧ pos d < cell.size d + upperMargin d then 1 else 0 := by
  have hfull : ∀ d, 0 < fullSuperCellSize cell lowerMargin upperMargin d := fun d => by
    have hd : 0 < cell.size d := Int.natCast_pos.mpr (hsize d)
    simp only [fullSuperCellSize]
    omega
  rw [collectiveCells, count_flatMap_threads hperm, sum_count_cells hD hfull]
  refine if_congr (forall_congr' fun d => ?_) rfl rfl
  simp only [fullSuperCellSize]
  omega

end Collective

theorem cells_pos {cell : CellDescription D} (hsize : ∀ d, 0 < cell.superCellSize d) : 0 < cell.cellsInSuperCell :=
  Finset.prod_pos fun d _ => hsize d

/-- The frame solver is called once for every particle of the supercell and for no other slot, and the collective works
on every cell of the box once. -/
theorem computeCurrent_visits {cell : CellDescription D} {workerMultiplier : ℕ}
    {box : ParticlesBox D cell.cellsInSuperCell α} {L : DataSpace D → List Ptr} {block : DataSpace D}
    {threads : List (DataSpace D)} (hD : D = 2 ∨ D = 3) (hsize : ∀ d, 0 < cell.superCellSize d)
    (hT : cell.cellsInSuperCell ≤ 65535) (hW : 0 < workerMultiplier) (hlinked : Linked box L)
    (hcompact : Compact box (L block) (box.sizeLastFrame block)) (hnodup : threads.Nodup)
    (hmem : ∀ t, t ∈ threads ↔ t ∈ launchBox (blockSize cell workerMultiplier)) :
    (∃ l, calls cell workerMultiplier box block threads = some l ∧
      (∀ p ∈ L block, ∀ t, box.multiMask p t ≠ 0 → l.count (p, t.val) = 1) ∧
      ∀ p i, (p, i) ∈ l → p ∈ L block ∧ ∃ t : Fin cell.cellsInSuperCell, t.val = i ∧ box.multiMask p t ≠ 0) ∧
    ∀ (lowerMargin upperMargin : Fin D → ℕ) (pos : DataSpace D),
      (collectiveCells cell workerMultiplier (Nat.mul_pos (cells_pos hsize) hW) lowerMargin upperMargin threads).count pos =
        if ∀ d, -(lowerMargin d : ℤ) ≤ pos d ∧ pos d < cell.size d + upperMargin d then 1 else 0 := by
  have hperm := linearThreadIdx_perm hD hsize hW hnodup hmem
  refine ⟨⟨_, calls_eq hlinked hT hW threads, fun p hp t ht => ?_, fun p i h => ?_⟩,
    fun lowerMargin upperMargin pos => count_collectiveCells hD hsize _ hperm lowerMargin upperMargin pos⟩
  · exact count_calls hperm (hlinked.nodup block) hcompact hW hp ht
  · obtain ⟨t, -, h⟩ := List.mem_flatMap.mp h
    exact of_mem_visited hcompact h

def eightThreads : List (DataSpace 2) :=
  (List.range 2).flatMap fun x : ℕ => (List.range 4).map fun y : ℕ => ![(x : ℤ), (y : ℤ)]

theorem mem_eightThreads (t : DataSpace 2) : t ∈ eightThreads ↔ t ∈ launchBox (blockSize fourCells 2) := by
  have hsize : blockSize fourCells 2 0 = 2 ∧ blockSize fourCells 2 1 = 4 := by decide
  constructor
  · have hbox : ∀ t ∈ eightThreads, ∀ d, 0 ≤ t d ∧ t d < blockSize fourCells 2 d := by decide
    exact hbox t
  · intro ht
    obtain ⟨h0, h1⟩ := ht 0
    obtain ⟨h2, h3⟩ := ht 1
    have hx : (t 0).toNat ∈ List.range 2 := List.mem_range.mpr (by omega)
    have hy : (t 1).toNat ∈ List.range 4 := List.mem_range.mpr (by omega)
    refine List.mem_flatMap.mpr ⟨_, hx, List.mem_map.mpr ⟨_, hy, funext fun d => ?_⟩⟩
    fin_cases d
    · exact Int.toNat_of_nonneg h0
    · exact Int.toNat_of_nonneg h2

/-- Two threads for each of four cells: the last frame has two particles, and there is one layer of margin. -/
theorem computeCurrent_visits_twoFrames :
    (∃ l, calls fourCells 2 (twoFrames 2) ![2, 1] eightThreads = some l ∧ (∀ i < 4, l.count (0, i) = 1) ∧
      (∀ i < 2, l.count (1, i) = 1) ∧ (1, 2) ∉ l) ∧
    (collectiveCells fourCells 2 (by decide) (fun _ => 1) (fun _ => 1) eightThreads).count ![-1, 2] = 1 := by
  have hcompact := compactState_twoFrames (k := 2) (by decide)
  obtain ⟨⟨l, hl, hcount, hmem⟩, hcells⟩ := computeCurrent_visits (.inl rfl) (by decide) (by decide) two_pos
    hcompact.linked (hcompact.compact ![2, 1] (by decide)) (by decide) mem_eightThreads
  refine ⟨⟨l, hl, fun i hi => ?_, fun i hi => ?_, fun h => ?_⟩, ?_⟩
  · refine hcount 0 (by decide) ⟨i, hi⟩ ?_
    simp [twoFrames_multiMask]
  · refine hcount 1 (by decide) ⟨i, lt_trans hi (by decide)⟩ ?_
    simp [twoFrames_multiMask, hi]
  · obtain ⟨-, t, ht, hmask⟩ := hmem 1 2 h
    simp [twoFrames_multiMask, ht] at hmask
  · rw [hcells]
    decide

end KernelComputeCurrent

end PIConGPU
