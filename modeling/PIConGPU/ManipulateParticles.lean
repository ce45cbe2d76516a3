import PIConGPU.CreatedParticles
import PIConGPU.ParticleRecords

/-!
# Functors that manipulate particles

A kernel calls a functor once for every slot of every frame of a supercell. The functor learns the cell of the
calling thread, and whether there is a particle in the slot.
-/
namespace PIConGPU

open ParticlesBox

structure FunctorCall (D T : ℕ) where
  localCellIdx : DataSpace D
  particle1 : Ptr × Fin T
  particle2 : Ptr × Fin T
  isParticle1 : Bool
  isParticle2 : Bool

/-- The value of `DataSpaceOperations::map` in its type. -/
def DataSpaceOperations.mapU32 {D : ℕ} (size pos : DataSpace D) : ℕ := (DataSpaceOperations.map size pos % 2^32).toNat

variable {D : ℕ} {α β : Type}

def CellDescription.threadIndex (cell : CellDescription D) (t : Fin cell.cellsInSuperCell) : DataSpace D :=
  DataSpaceOperations.unmap cell.size t.val

namespace KernelManipulateAllParticles

variable (cell : CellDescription D)

def localCellIdx (superCellIdx : DataSpace D) (t : Fin cell.cellsInSuperCell) : DataSpace D :=
  let idx : DataSpace D := fun d => superCellIdx d * cell.size d + cell.threadIndex t d
  fun d => idx d - cell.guardingSuperCells * cell.size d

variable (box : ParticlesBox D cell.cellsInSuperCell α)

def frameCalls (superCellIdx : DataSpace D) (frame : Ptr) (isParticle : Fin cell.cellsInSuperCell → Bool) :
    List (FunctorCall D cell.cellsInSuperCell) :=
  (List.finRange cell.cellsInSuperCell).map fun t =>
    ⟨localCellIdx cell superCellIdx t, (frame, t), (frame, t), isParticle t, isParticle t⟩

/-- The loop over the frames, with a bound on the number of rounds. -/
def loop (superCellIdx : DataSpace D) :
    ℕ → Option Ptr → (Fin cell.cellsInSuperCell → Bool) → Option (List (FunctorCall D cell.cellsInSuperCell))
  | _, none, _ => some []
  | 0, some _, _ => none
  | n + 1, some frame, isParticle => do
    let calls ← loop superCellIdx n (box.previousFrame frame) fun _ => true
    some (frameCalls cell superCellIdx frame isParticle ++ calls)

/-- The calls of a block. Only the last frame is asked which of its slots are in use. -/
def calls (superCellIdx : DataSpace D) : Option (List (FunctorCall D cell.cellsInSuperCell)) :=
  loop cell box superCellIdx box.allocated.card (box.lastFramePtr superCellIdx) fun t =>
    match box.lastFramePtr superCellIdx with
    | some frame => decide (box.multiMask frame t ≠ 0)
    | none => false

end KernelManipulateAllParticles

namespace KernelCloneParticles

variable (cell : CellDescription D)

def localCellIdx (block : DataSpace D) (t : Fin cell.cellsInSuperCell) : DataSpace D := fun d =>
  block d + cell.threadIndex t d - cell.guardingSuperCells * cell.size d

variable (M : MallocMC) (assign : β → α) (otherBox : ParticlesBox D cell.cellsInSuperCell β)

/-- The loop over the frames of the other species. Every frame is copied as a whole. -/
def loop (block : DataSpace D) :
    ℕ → Option Ptr → ParticlesBox D cell.cellsInSuperCell α →
      Option (List (FunctorCall D cell.cellsInSuperCell) × ParticlesBox D cell.cellsInSuperCell α)
  | _, none, myBox => some ([], myBox)
  | 0, some _, _ => none
  | n + 1, some frame, myBox => do
    let (emptyFrame, myBox) := myBox.getEmptyFrame M
    let myFrame ← emptyFrame
    let myBox := { myBox with
      multiMask := Function.update myBox.multiMask myFrame (otherBox.multiMask frame)
      attributes := Function.update myBox.attributes myFrame fun t => assign (otherBox.attributes frame t) }
    let frameCalls := (List.finRange cell.cellsInSuperCell).map fun t =>
      ⟨localCellIdx cell block t, (myFrame, t), (frame, t), true, decide (otherBox.multiMask frame t = 1)⟩
    let (calls, myBox) ← loop block n (otherBox.nextFrame frame) (myBox.setAsLastFrame myFrame block)
    some (frameCalls ++ calls, myBox)

/-- The calls of a block, and the frames of the new species. -/
def calls (block : DataSpace D) (myBox : ParticlesBox D cell.cellsInSuperCell α) :
    Option (List (FunctorCall D cell.cellsInSuperCell) × ParticlesBox D cell.cellsInSuperCell α) :=
  loop cell M assign otherBox block otherBox.allocated.card (otherBox.firstFramePtr block) myBox

end KernelCloneParticles

def RandomPositionImpl.cellIdx (localCells localCellIdx : DataSpace D) : ℕ :=
  DataSpaceOperations.mapU32 localCells localCellIdx

/-- A functor for the particles of a part of the simulation volume. -/
structure IfRelativeGlobalPosition (D : ℕ) where
  dimension : Fin D
  lowerBound : ℚ
  upperBound : ℚ
  localDomainOffset : DataSpace D
  globalDomainSize : DataSpace D

namespace IfRelativeGlobalPosition

variable (f : IfRelativeGlobalPosition D)

def myCellPosition (localCellIdx : DataSpace D) : DataSpace D := localCellIdx + f.localDomainOffset

def inRange (localCellIdx : DataSpace D) : Bool :=
  let relativePosition : ℚ := f.myCellPosition localCellIdx f.dimension / f.globalDomainSize f.dimension
  decide (f.lowerBound ≤ relativePosition) && decide (relativePosition < f.upperBound)

def wrappedCall {T : ℕ} (call : FunctorCall D T) : FunctorCall D T :=
  { call with
    isParticle1 := call.isParticle1 && f.inRange call.localCellIdx
    isParticle2 := call.isParticle2 && f.inRange call.localCellIdx }

end IfRelativeGlobalPosition

/-! ### The cell that a functor is given -/

section Calls

variable {cell : CellDescription D} {c : DataSpace D} {n : ℕ} {frame : Option Ptr}

theorem KernelManipulateAllParticles.localCellIdx_of_mem_loop {box : ParticlesBox D cell.cellsInSuperCell α}
    {isParticle : Fin cell.cellsInSuperCell → Bool} {l : List (FunctorCall D cell.cellsInSuperCell)}
    (h : loop cell box c n frame isParticle = some l) {call : FunctorCall D cell.cellsInSuperCell} (hcall : call ∈ l) :
    call.localCellIdx = localCellIdx cell c call.particle1.2 := by
  induction n generalizing frame isParticle l with
  | zero =>
    cases frame with
    | none => simp_all [loop]
    | some p => simp [loop] at h
  | succ n ih =>
    cases frame with
    | none => simp_all [loop]
    | some p =>
      obtain ⟨rest, hrest, heq⟩ := Option.bind_eq_some_iff.mp h
      obtain rfl := Option.some_inj.mp heq
      rcases List.mem_append.mp hcall with hcall | hcall
      · obtain ⟨t, -, rfl⟩ := List.mem_map.mp hcall
        rfl
      · exact ih hrest hcall

theorem KernelCloneParticles.localCellIdx_of_mem_loop {M : MallocMC} {assign : β → α}
    {otherBox : ParticlesBox D cell.cellsInSuperCell β} {myBox myBox' : ParticlesBox D cell.cellsInSuperCell α}
    {l : List (FunctorCall D cell.cellsInSuperCell)}
    (h : loop cell M assign otherBox c n frame myBox = some (l, myBox'))
    {call : FunctorCall D cell.cellsInSuperCell} (hcall : call ∈ l) :
    call.localCellIdx = localCellIdx cell c call.particle1.2 := by
  induction n generalizing frame myBox l with
  | zero =>
    cases frame with
    | none => simp_all [loop]
    | some p => simp [loop] at h
  | succ n ih =>
    cases frame with
    | none => simp_all [loop]
    | some p =>
      obtain ⟨myFrame, -, h⟩ := Option.bind_eq_some_iff.mp h
      obtain ⟨⟨rest, box⟩, hrest, heq⟩ := Option.bind_eq_some_iff.mp h
      obtain ⟨rfl, rfl⟩ := Prod.mk.inj (Option.some_inj.mp heq)
      rcases List.mem_append.mp hcall with hcall | hcall
      · obtain ⟨t, -, rfl⟩ := List.mem_map.mp hcall
        rfl
      · exact ih hrest hcall

end Calls

/-- A kernel that hands over the cell of the thread in the local domain. -/
structure HandsOverCells (cell : CellDescription D)
    (localCellIdx : DataSpace D → Fin cell.cellsInSuperCell → DataSpace D) : Prop where
  eq : ∀ c ∈ cell.area, ∀ t d,
    localCellIdx c t d = c d * cell.size d + cell.threadIndex t d - cell.guardingSuperCells * cell.size d
  mem : ∀ c ∈ cell.area, ∀ t, localCellIdx c t ∈ launchBox cell.localDomainSize
  injective : ∀ c ∈ cell.area, ∀ c' ∈ cell.area, ∀ t t', localCellIdx c t = localCellIdx c' t' → c = c' ∧ t = t'
  stream_lt : ∀ c ∈ cell.area, ∀ t,
    (RandomPositionImpl.cellIdx cell.localDomainSize (localCellIdx c t) : ℤ) < ∏ d, cell.localDomainSize d
  stream_injective : ∀ c ∈ cell.area, ∀ c' ∈ cell.area, ∀ t t',
    RandomPositionImpl.cellIdx cell.localDomainSize (localCellIdx c t) =
      RandomPositionImpl.cellIdx cell.localDomainSize (localCellIdx c' t') → c = c' ∧ t = t'
  mem_superCell : ∀ c ∈ cell.area, ∀ t (f : IfRelativeGlobalPosition D) d,
    0 ≤ f.myCellPosition (localCellIdx c t) d - (f.localDomainOffset d + cell.superCellPosition c d) ∧
      f.myCellPosition (localCellIdx c t) d - (f.localDomainOffset d + cell.superCellPosition c d) < cell.size d

section Cells

variable {cell : CellDescription D} (hD : D = 2 ∨ D = 3) (hsize : ∀ d, 0 < cell.superCellSize d)

theorem KernelManipulateAllParticles.localCellIdx_eq (c : DataSpace D) (t : Fin cell.cellsInSuperCell) :
    localCellIdx cell c t = cell.superCellPosition c + cell.threadIndex t := by
  funext d
  simp only [localCellIdx, CellDescription.superCellPosition, Pi.add_apply]
  ring

include hD

theorem threadIndex_injective : Function.Injective cell.threadIndex := fun t t' h => by
  have hmap := congrArg (DataSpaceOperations.map cell.size) h
  rw [CellDescription.threadIndex, CellDescription.threadIndex, DataSpaceOperations.map_unmap hD,
    DataSpaceOperations.map_unmap hD] at hmap
  exact Fin.ext (by exact_mod_cast hmap)

theorem exists_threadIndex {y : DataSpace D} (hy : y ∈ launchBox cell.size) : ∃ t, cell.threadIndex t = y := by
  obtain ⟨h0, h1⟩ := DataSpaceOperations.map_mem hD hy
  rw [CellDescription.prod_size] at h1
  refine ⟨⟨(DataSpaceOperations.map cell.size y).toNat, by omega⟩, ?_⟩
  rw [CellDescription.threadIndex, Int.toNat_of_nonneg h0, DataSpaceOperations.unmap_map hD hy]

theorem mapU32_eq {size x : DataSpace D} (hx : x ∈ launchBox size) (hle : ∏ d, size d ≤ 2^32) :
    (DataSpaceOperations.mapU32 size x : ℤ) = DataSpaceOperations.map size x := by
  obtain ⟨h0, h1⟩ := DataSpaceOperations.map_mem hD hx
  rw [DataSpaceOperations.mapU32]
  omega

include hsize

theorem threadIndex_mem (t : Fin cell.cellsInSuperCell) : cell.threadIndex t ∈ launchBox cell.size := by
  refine DataSpaceOperations.unmap_mem hD (fun d => Int.natCast_pos.mpr (hsize d)) (Int.natCast_nonneg _) ?_
  rw [CellDescription.prod_size]
  exact_mod_cast t.isLt

/-- The threads of the blocks have the cells of the local domain, one each. -/
theorem KernelManipulateAllParticles.localCellIdx_mem {c : DataSpace D} (hc : c ∈ cell.area)
    (t : Fin cell.cellsInSuperCell) : localCellIdx cell c t ∈ launchBox cell.localDomainSize := by
  rw [localCellIdx_eq]
  exact CellDescription.superCellPosition_add_mem hc (threadIndex_mem hD hsize t)

theorem KernelManipulateAllParticles.localCellIdx_inj {c c' : DataSpace D} {t t' : Fin cell.cellsInSuperCell}
    (h : localCellIdx cell c t = localCellIdx cell c' t') : c = c' ∧ t = t' := by
  rw [localCellIdx_eq, localCellIdx_eq] at h
  obtain ⟨hc, ht⟩ := CellDescription.superCellPosition_add_inj (threadIndex_mem hD hsize t)
    (threadIndex_mem hD hsize t') h
  exact ⟨hc, threadIndex_injective hD ht⟩

theorem KernelManipulateAllParticles.exists_localCellIdx {x : DataSpace D} (hx : x ∈ launchBox cell.localDomainSize) :
    ∃ c ∈ cell.area, ∃ t, localCellIdx cell c t = x := by
  obtain ⟨c, hc, y, hy, rfl⟩ := CellDescription.exists_superCellPosition_add hsize hx
  obtain ⟨t, rfl⟩ := exists_threadIndex hD hy
  exact ⟨c, hc, t, localCellIdx_eq c t⟩

theorem KernelManipulateAllParticles.handsOverCells (hcells : ∏ d, cell.localDomainSize d ≤ 2^32) :
    HandsOverCells cell (localCellIdx cell) where
  eq _ _ _ _ := rfl
  mem _ hc t := localCellIdx_mem hD hsize hc t
  injective _ _ _ _ _ _ h := localCellIdx_inj hD hsize h
  stream_lt c hc t := by
    rw [RandomPositionImpl.cellIdx, mapU32_eq hD (localCellIdx_mem hD hsize hc t) hcells]
    exact (DataSpaceOperations.map_mem hD (localCellIdx_mem hD hsize hc t)).2
  stream_injective c hc c' hc' t t' h := by
    have hx := localCellIdx_mem hD hsize hc t
    have hx' := localCellIdx_mem hD hsize hc' t'
    have hmap : DataSpaceOperations.map cell.localDomainSize (localCellIdx cell c t) =
        DataSpaceOperations.map cell.localDomainSize (localCellIdx cell c' t') := by
      rw [← mapU32_eq hD hx hcells, ← mapU32_eq hD hx' hcells]
      exact congrArg Nat.cast h
    refine localCellIdx_inj hD hsize ?_
    rw [← DataSpaceOperations.unmap_map hD hx, hmap, DataSpaceOperations.unmap_map hD hx']
  mem_superCell c _ t f d := by
    have ht := threadIndex_mem hD hsize t d
    rw [IfRelativeGlobalPosition.myCellPosition, localCellIdx_eq]
    simp only [Pi.add_apply]
    omega

/-- With more cells two threads share a random stream. -/
theorem HandsOverCells.prod_le (hgrid : ∀ d, 2 * cell.guardingSuperCells < cell.gridSuperCells d)
    {localCellIdx : DataSpace D → Fin cell.cellsInSuperCell → DataSpace D} (h : HandsOverCells cell localCellIdx) :
    ∏ d, cell.localDomainSize d ≤ 2^32 := by
  by_contra hmany
  have hpos := CellDescription.localDomainSize_pos hgrid hsize
  have hthread : ∀ i : ℤ, 0 ≤ i → i ≤ 2^32 → ∃ c ∈ cell.area, ∃ t,
      localCellIdx c t = DataSpaceOperations.unmap cell.localDomainSize i := fun i h0 h1 => by
    obtain ⟨c, hc, t, ht⟩ := KernelManipulateAllParticles.exists_localCellIdx hD hsize
      (DataSpaceOperations.unmap_mem hD hpos h0 (by omega))
    exact ⟨c, hc, t, (funext fun d => h.eq c hc t d).trans ht⟩
  obtain ⟨c, hc, t, ht⟩ := hthread 0 le_rfl (by norm_num)
  obtain ⟨c', hc', t', ht'⟩ := hthread (2^32) (by norm_num) le_rfl
  have hstream : RandomPositionImpl.cellIdx cell.localDomainSize (localCellIdx c t) =
      RandomPositionImpl.cellIdx cell.localDomainSize (localCellIdx c' t') := by
    rw [ht, ht', RandomPositionImpl.cellIdx, RandomPositionImpl.cellIdx, DataSpaceOperations.mapU32,
      DataSpaceOperations.mapU32, DataSpaceOperations.map_unmap hD, DataSpaceOperations.map_unmap hD]
    norm_num
  obtain ⟨rfl, rfl⟩ := h.stream_injective c hc c' hc' t t' hstream
  have hmap := congrArg (DataSpaceOperations.map cell.localDomainSize) (ht.symm.trans ht')
  rw [DataSpaceOperations.map_unmap hD, DataSpaceOperations.map_unmap hD] at hmap
  exact absurd hmap (by norm_num)

omit hD hsize in
theorem KernelCloneParticles.localCellIdx_eq_iff (hguard : 1 ≤ cell.guardingSuperCells) {c : DataSpace D}
    (hc : c ∈ cell.area) (t : Fin cell.cellsInSuperCell) :
    localCellIdx cell c t = KernelManipulateAllParticles.localCellIdx cell c t ↔ ∀ d, cell.superCellSize d = 1 := by
  rw [funext_iff]
  refine forall_congr' fun d => ?_
  have hne : c d ≠ 0 := by
    have := (CellDescription.mem_area.mp hc d).1
    omega
  simp only [localCellIdx, KernelManipulateAllParticles.localCellIdx, CellDescription.size]
  constructor
  · intro h
    have hmul : c d * (cell.superCellSize d : ℤ) = c d * 1 := by linarith
    exact_mod_cast mul_left_cancel₀ hne hmul
  · intro h
    rw [h, Nat.cast_one, mul_one, mul_one]

end Cells

/-- All calls of both kernels are about the cell that the kernel computes. It is the right one in one kernel, in the
other kernel only if a supercell is a cell. -/
theorem manipulator_cells_iff {cell : CellDescription D} (hD : D = 2 ∨ D = 3) (hsize : ∀ d, 0 < cell.superCellSize d)
    (hguard : 1 ≤ cell.guardingSuperCells) (hgrid : ∀ d, 2 * cell.guardingSuperCells < cell.gridSuperCells d) :
    (∀ (box : ParticlesBox D cell.cellsInSuperCell α) c l, KernelManipulateAllParticles.calls cell box c = some l →
      ∀ call ∈ l, call.localCellIdx = KernelManipulateAllParticles.localCellIdx cell c call.particle1.2) ∧
    (∀ M (assign : β → α) otherBox c myBox l myBox',
      KernelCloneParticles.calls cell M assign otherBox c myBox = some (l, myBox') →
      ∀ call ∈ l, call.localCellIdx = KernelCloneParticles.localCellIdx cell c call.particle1.2) ∧
    (HandsOverCells cell (KernelManipulateAllParticles.localCellIdx cell) ↔ ∏ d, cell.localDomainSize d ≤ 2^32) ∧
    (HandsOverCells cell (KernelCloneParticles.localCellIdx cell) ↔
      (∀ d, cell.superCellSize d = 1) ∧ ∏ d, cell.localDomainSize d ≤ 2^32) := by
  have hmanipulate : HandsOverCells cell (KernelManipulateAllParticles.localCellIdx cell) ↔
      ∏ d, cell.localDomainSize d ≤ 2^32 :=
    ⟨fun h => h.prod_le hD hsize hgrid, KernelManipulateAllParticles.handsOverCells hD hsize⟩
  refine ⟨fun box c l h call hcall => KernelManipulateAllParticles.localCellIdx_of_mem_loop h hcall,
    fun M assign otherBox c myBox l myBox' h call hcall => KernelCloneParticles.localCellIdx_of_mem_loop h hcall,
    hmanipulate, ?_⟩
  constructor
  · intro h
    obtain ⟨c, hc, t, -⟩ := KernelManipulateAllParticles.exists_localCellIdx hD hsize (x := 0) fun d =>
      ⟨le_rfl, CellDescription.localDomainSize_pos hgrid hsize d⟩
    have heq : KernelCloneParticles.localCellIdx cell c t = KernelManipulateAllParticles.localCellIdx cell c t :=
      funext fun d => h.eq c hc t d
    exact ⟨(KernelCloneParticles.localCellIdx_eq_iff hguard hc t).mp heq, h.prod_le hD hsize hgrid⟩
  · rintro ⟨hone, hcells⟩
    have heq : KernelCloneParticles.localCellIdx cell = KernelManipulateAllParticles.localCellIdx cell := by
      funext c t d
      simp only [KernelCloneParticles.localCellIdx, KernelManipulateAllParticles.localCellIdx, CellDescription.size,
        hone d, Nat.cast_one, mul_one]
    rw [heq]
    exact hmanipulate.mpr hcells

section TwoFrames

/-- Three by three supercells of two by two cells, and the guard. -/
def fourCells : CellDescription 2 := ⟨⟨![5, 5], 1, 1⟩, ![2, 2]⟩

def freeFrames (localCellIdx : ℕ) : ParticlesBox 2 fourCells.cellsInSuperCell (Particle Unit) :=
  { ParticlesBox.empty 2 fourCells.cellsInSuperCell (⟨0, ()⟩ : Particle Unit) with
    multiMask := fun p t => if p = 0 ∨ t.val < 2 then 1 else 0
    attributes := fun p t => ⟨if p = 0 then t else if t.val = 0 then localCellIdx else 3, ()⟩
    sizeLastFrame := fun c => if c = ![2, 1] then 2 else 0
    allocated := {0, 1} }

/-- A full frame with each particle in the slot of its cell, and one with two particles, of which the last one is in
the last cell of the supercell. -/
def twoFrames (localCellIdx : ℕ) : ParticlesBox 2 fourCells.cellsInSuperCell (Particle Unit) :=
  ((freeFrames localCellIdx).setAsLastFrame 0 ![2, 1]).setAsLastFrame 1 ![2, 1]

def twoFramesLists : DataSpace 2 → List Ptr := Function.update (fun _ => []) ![2, 1] [0, 1]

theorem twoFrames_multiMask (k : ℕ) (p : Ptr) (t : Fin fourCells.cellsInSuperCell) :
    (twoFrames k).multiMask p t = if p = 0 ∨ t.val < 2 then 1 else 0 := by
  rw [twoFrames, setAsLastFrame_multiMask, setAsLastFrame_multiMask]
  rfl

theorem twoFrames_attributes (k : ℕ) (p : Ptr) (t : Fin fourCells.cellsInSuperCell) :
    (twoFrames k).attributes p t = ⟨if p = 0 then t else if t.val = 0 then k else 3, ()⟩ := by
  rw [twoFrames, setAsLastFrame_attributes, setAsLastFrame_attributes]
  rfl

theorem twoFrames_sizeLastFrame (k : ℕ) (c : DataSpace 2) :
    (twoFrames k).sizeLastFrame c = if c = ![2, 1] then 2 else 0 := by
  rw [twoFrames, setAsLastFrame_sizeLastFrame, setAsLastFrame_sizeLastFrame]
  rfl

theorem twoFramesLists_of_ne {c : DataSpace 2} (h : c ≠ ![2, 1]) : twoFramesLists c = [] := Function.update_of_ne h _ _

theorem compactState_twoFrames {k : ℕ} (hk : k < 4) : CompactState fourCells (twoFrames k) twoFramesLists where
  linked := by
    have hempty : Linked (freeFrames k) fun _ => [] :=
      (linked_empty (⟨0, ()⟩ : Particle Unit)).congr rfl rfl (fun _ _ _ => rfl) (fun _ _ _ => rfl)
        fun _ _ h => absurd h List.not_mem_nil
    have hfirst := hempty.setAsLastFrame (fun _ => List.not_mem_nil) (Finset.mem_insert_self 0 {1}) ![2, 1]
    have hnew : ∀ c, 1 ∉ Function.update (fun _ : DataSpace 2 => ([] : List Ptr)) ![2, 1] ([] ++ [0]) c := by
      intro c
      by_cases hc : c = ![2, 1]
      · subst hc
        rw [Function.update_self]
        decide
      · rw [Function.update_of_ne hc]
        exact List.not_mem_nil
    have hlinked := hfirst.setAsLastFrame hnew
      ((setAsLastFrame_allocated _ _ _).symm ▸ Finset.mem_insert_of_mem (Finset.mem_singleton_self 1)) ![2, 1]
    rwa [Function.update_self, Function.update_idem] at hlinked
  compact c _ := by
    rw [twoFrames_sizeLastFrame]
    by_cases hc : c = ![2, 1]
    · subst hc
      rw [if_pos rfl, twoFramesLists, Function.update_self]
      refine ⟨fun l p he => ?_, fun h => absurd h (List.cons_ne_nil _ _), by decide⟩
      obtain ⟨rfl, hp⟩ := List.append_inj' (show [0] ++ [1] = l ++ [p] from he) rfl
      obtain rfl := List.head_eq_of_cons_eq hp
      refine ⟨fun q hq t => ?_, fun t => ?_⟩
      · simp [twoFrames_multiMask, List.mem_singleton.mp hq]
      · simp [twoFrames_multiMask]
    · rw [if_neg hc, twoFramesLists_of_ne hc]
      exact ⟨fun l p he => by simp at he, fun _ => rfl, Nat.zero_le _⟩
  multiMask_le c _ p _ t := by
    rw [twoFrames_multiMask]
    split_ifs <;> omega
  localCellIdx_lt c _ p _ t _ := by
    have hcells : fourCells.cellsInSuperCell = 4 := by decide
    have := t.isLt
    rw [twoFrames_attributes]
    dsimp only
    split_ifs <;> omega

end TwoFrames

/-- The first cell of the local domain is taken for a cell outside of it. -/
theorem clone_cell_outside : KernelCloneParticles.localCellIdx fourCells ![1, 1] ⟨0, by decide⟩ = ![-1, -1] ∧
    ¬ HandsOverCells fourCells (KernelCloneParticles.localCellIdx _) := by
  have hcell : KernelCloneParticles.localCellIdx fourCells ![1, 1] ⟨0, by decide⟩ = ![-1, -1] := by decide
  refine ⟨hcell, fun h => ?_⟩
  have hmem := h.mem ![1, 1] (CellDescription.mem_area.mpr (by decide)) ⟨0, by decide⟩ 0
  rw [hcell] at hmem
  exact absurd hmem.1 (by decide)

/-- Both kernels for the two frames, and for supercells of one cell. -/
theorem manipulator_cells_twoFrames :
    (∃ l, KernelManipulateAllParticles.calls fourCells (twoFrames 2) ![2, 1] = some l ∧ l.length = 8 ∧
      ∀ call ∈ l, call.localCellIdx = KernelManipulateAllParticles.localCellIdx fourCells ![2, 1] call.particle1.2) ∧
    HandsOverCells fourCells (KernelManipulateAllParticles.localCellIdx _) ∧
    ¬ HandsOverCells fourCells (KernelCloneParticles.localCellIdx _) ∧
    HandsOverCells (⟨⟨![5, 5], 1, 1⟩, ![1, 1]⟩ : CellDescription 2) (KernelCloneParticles.localCellIdx _) := by
  obtain ⟨hcalls, -, hmanipulate, hclone⟩ := @manipulator_cells_iff 2 (Particle Unit) (Particle Unit) fourCells (.inl rfl)
    (by decide) le_rfl (by decide)
  refine ⟨?_, hmanipulate.mpr (by decide), fun h => absurd ((hclone.mp h).1 0) (by decide), ?_⟩
  · obtain ⟨l, hl, hlength⟩ : ∃ l, KernelManipulateAllParticles.calls fourCells (twoFrames 2) ![2, 1] = some l ∧
        l.length = 8 := ⟨_, rfl, rfl⟩
    exact ⟨l, hl, hlength, hcalls _ _ l hl⟩
  · exact (manipulator_cells_iff (α := Unit) (β := Unit) (.inl rfl) (by decide) le_rfl (by decide)).2.2.2.mpr
      ⟨by decide, by decide⟩

/-! ### The particles that a filter selects -/

namespace KernelManipulateAllParticles

section Frames

variable {cell : CellDescription D} {box : ParticlesBox D cell.cellsInSuperCell α} {L : DataSpace D → List Ptr}
  {c : DataSpace D}

theorem loop_of_full (h : Linked box L) {l r : List Ptr} (hl : L c = l ++ r) {n : ℕ} (hn : l.length ≤ n) :
    loop cell box c n l.getLast? (fun _ => true) =
      some (l.reverse.flatMap fun p => frameCalls cell c p fun _ => true) := by
  induction l using List.reverseRecOn generalizing r n with
  | nil => cases n <;> rfl
  | append_singleton l p ih =>
    obtain ⟨n, rfl⟩ : ∃ m, n = m + 1 := ⟨n - 1, by simp at hn; omega⟩
    have hLc : L c = l ++ p :: r := by simpa using hl
    rw [List.getLast?_append, List.getLast?_singleton, Option.some_or, loop, h.previous c l p r hLc,
      ih hLc (by simpa using hn)]
    simp

theorem calls_eq (h : Linked box L) {k : ℕ} (hfilled : Filled box (L c) k) :
    calls cell box c = some ((L c).reverse.flatMap fun p => frameCalls cell c p fun t => decide (box.multiMask p t ≠ 0)) := by
  have hn := h.length_le c
  rw [calls, h.last]
  rcases List.eq_nil_or_concat (L c) with hnil | ⟨l, p, hl⟩
  · rw [hnil]
    cases box.allocated.card <;> rfl
  · rw [List.concat_eq_append] at hl
    obtain ⟨hfull, -⟩ := hfilled l p hl
    have hrest : (l.reverse.flatMap fun q => frameCalls cell c q fun _ => true) =
        l.reverse.flatMap fun q => frameCalls cell c q fun t => decide (box.multiMask q t ≠ 0) := by
      refine List.flatMap_congr fun q hq => congrArg (frameCalls cell c q) (funext fun t => ?_)
      rw [decide_eq_true (hfull q (List.mem_reverse.mp hq) t)]
    obtain ⟨n, hcard⟩ : ∃ m, box.allocated.card = m + 1 := ⟨box.allocated.card - 1, by rw [hl] at hn; simp at hn; omega⟩
    rw [hcard, hl, List.getLast?_append, List.getLast?_singleton, Option.some_or, loop, h.previous c l p [] hl,
      loop_of_full h hl (by rw [hl, hcard] at hn; simpa using hn), hrest]
    simp

end Frames

end KernelManipulateAllParticles

def selected {T : ℕ} (l : List (FunctorCall D T)) : List (Ptr × Fin T) :=
  (l.filter FunctorCall.isParticle1).map FunctorCall.particle1

namespace IfRelativeGlobalPosition

variable (f : IfRelativeGlobalPosition D) {cell : CellDescription D}
  {box : ParticlesBox D cell.cellsInSuperCell (Particle β)} {L : DataSpace D → List Ptr} {c : DataSpace D}

/-- The wrapped functor works on the particles whose own cell is in range, on each of them once. -/
def SelectsOwnCells (cell : CellDescription D) (box : ParticlesBox D cell.cellsInSuperCell (Particle β))
    (frames : List Ptr) (c : DataSpace D) : Prop :=
  ∃ l, KernelManipulateAllParticles.calls cell box c = some l ∧ (selected (l.map f.wrappedCall)).Nodup ∧
    ∀ p t, (p, t) ∈ selected (l.map f.wrappedCall) ↔ p ∈ frames ∧ box.multiMask p t = 1 ∧
      f.inRange (cell.superCellPosition c + cell.localCell (box.attributes p t)) = true

theorem selected_flatMap (frames : List Ptr) (isParticle : Ptr → Fin cell.cellsInSuperCell → Bool) :
    selected ((frames.flatMap fun p => KernelManipulateAllParticles.frameCalls cell c p (isParticle p)).map f.wrappedCall) =
      frames.flatMap fun p => ((List.finRange cell.cellsInSuperCell).filter fun t =>
        isParticle p t && f.inRange (KernelManipulateAllParticles.localCellIdx cell c t)).map fun t => (p, t) := by
  simp only [selected, List.map_flatMap, List.filter_flatMap, KernelManipulateAllParticles.frameCalls, List.map_map,
    List.filter_map]
  rfl

theorem nodup_selected {frames : List Ptr} (h : frames.Nodup) (select : Ptr → Fin cell.cellsInSuperCell → Bool) :
    (frames.flatMap fun p => ((List.finRange cell.cellsInSuperCell).filter (select p)).map fun t => (p, t)).Nodup := by
  rw [List.nodup_flatMap]
  refine ⟨fun p _ => ((List.nodup_finRange _).filter _).map fun t t' ht => (Prod.mk.inj ht).2, ?_⟩
  refine h.imp fun {p q} hne => ?_
  rw [Function.onFun, List.disjoint_left]
  rintro ⟨r, t⟩ hp hq
  obtain ⟨_, -, hp⟩ := List.mem_map.mp hp
  obtain ⟨_, -, hq⟩ := List.mem_map.mp hq
  exact hne ((Prod.mk.inj hp).1.trans (Prod.mk.inj hq).1.symm)

/-- The filter is right for a supercell exactly if it does not matter which of both cells is tested. -/
theorem selectsOwnCells_iff (h : CompactState cell box L) (hc : c ∈ cell.area) :
    f.SelectsOwnCells cell box (L c) c ↔ ∀ p ∈ L c, ∀ t, box.multiMask p t = 1 →
      f.inRange (KernelManipulateAllParticles.localCellIdx cell c t) =
        f.inRange (cell.superCellPosition c + cell.localCell (box.attributes p t)) := by
  have hcalls := KernelManipulateAllParticles.calls_eq h.linked (h.compact c hc).filled
  have hmem : ∀ p t, (p, t) ∈ selected (((L c).reverse.flatMap fun p => KernelManipulateAllParticles.frameCalls cell c p
      fun t => decide (box.multiMask p t ≠ 0)).map f.wrappedCall) ↔ p ∈ L c ∧ box.multiMask p t = 1 ∧
      f.inRange (KernelManipulateAllParticles.localCellIdx cell c t) = true := by
    intro p t
    rw [selected_flatMap]
    simp only [List.mem_flatMap, List.mem_reverse, List.mem_map, List.mem_filter, List.mem_finRange, true_and,
      Bool.and_eq_true, decide_eq_true_eq, Prod.mk.injEq]
    constructor
    · rintro ⟨p, hp, t, ⟨hmask, hrange⟩, rfl, rfl⟩
      have := h.multiMask_le c hc p hp t
      exact ⟨hp, by omega, hrange⟩
    · rintro ⟨hp, hmask, hrange⟩
      exact ⟨p, hp, t, ⟨by omega, hrange⟩, rfl, rfl⟩
  constructor
  · rintro ⟨l, hl, -, hselected⟩ p hp t hmask
    obtain rfl := Option.some_inj.mp (hcalls.symm.trans hl)
    have hiff := (hmem p t).symm.trans (hselected p t)
    rw [Bool.eq_iff_iff]
    exact ⟨fun hrange => (hiff.mp ⟨hp, hmask, hrange⟩).2.2, fun hrange => (hiff.mpr ⟨hp, hmask, hrange⟩).2.2⟩
  · intro hsame
    refine ⟨_, hcalls, ?_, fun p t => (hmem p t).trans ?_⟩
    · rw [selected_flatMap]
      exact nodup_selected (List.nodup_reverse.mpr (h.linked.nodup c)) _
    · refine and_congr_right fun hp => and_congr_right fun hmask => ?_
      rw [hsame p hp t hmask]

/-- The filter is right for all of CORE and BORDER exactly if every particle and the thread of its slot are both
in range or both not. -/
theorem manipulateAllParticles_selects_iff (h : CompactState cell box L) :
    (∀ c ∈ cell.area, f.SelectsOwnCells cell box (L c) c) ↔
      ∀ c ∈ cell.area, ∀ p ∈ L c, ∀ t, box.multiMask p t = 1 →
        f.inRange (KernelManipulateAllParticles.localCellIdx cell c t) =
          f.inRange (cell.superCellPosition c + cell.localCell (box.attributes p t)) :=
  forall₂_congr fun _ hc => f.selectsOwnCells_iff h hc

def lowerHalf : IfRelativeGlobalPosition 2 := ⟨0, 0, 1 / 2, 0, ![6, 6]⟩

/-- A particle of the upper half is in the slot of a thread of the lower half. -/
theorem slot_of_other_half : CompactState fourCells (twoFrames 1) twoFramesLists ∧
    ¬ lowerHalf.SelectsOwnCells fourCells (twoFrames 1) (twoFramesLists ![2, 1]) ![2, 1] := by
  have hcompact := compactState_twoFrames (k := 1) (by decide)
  refine ⟨hcompact, fun h => ?_⟩
  rw [lowerHalf.selectsOwnCells_iff hcompact (by decide)] at h
  exact absurd (h 1 (by decide) ⟨0, by decide⟩ (by decide)) (by decide +kernel)

/-- A particle above the cell of its slot. -/
theorem selects_slot_of_own_half : CompactState fourCells (twoFrames 2) twoFramesLists ∧
    ∀ c ∈ fourCells.area, lowerHalf.SelectsOwnCells fourCells (twoFrames 2) (twoFramesLists c) c := by
  have hcompact := compactState_twoFrames (k := 2) (by decide)
  refine ⟨hcompact, (lowerHalf.manipulateAllParticles_selects_iff hcompact).mpr fun c _ p hp t hmask => ?_⟩
  by_cases hc : c = ![2, 1]
  · subst hc
    have hslots : ∀ p ∈ twoFramesLists ![2, 1], ∀ t, (twoFrames 2).multiMask p t = 1 →
        lowerHalf.inRange (KernelManipulateAllParticles.localCellIdx fourCells ![2, 1] t) =
          lowerHalf.inRange (fourCells.superCellPosition ![2, 1] +
            fourCells.localCell ((twoFrames 2).attributes p t)) := by decide +kernel
    exact hslots p hp t hmask
  · rw [twoFramesLists_of_ne hc] at hp
    cases hp

end IfRelativeGlobalPosition

end PIConGPU
