import PIConGPU.ExchangeMapping
import PIConGPU.ExchangeRegions

/-!
# Bash and insert of the current density

The current that particles deposit in the guard belongs to the neighbors. `KernelBashCurrent` copies the
part of the guard within the margins to an exchange buffer, and `KernelInsertCurrent` adds a received
buffer to the cells of the border. Blocks and threads of a kernel run in any order.
-/
namespace PIConGPU

open SlabGrid

namespace FieldJ

variable {D : ℕ} {V : Type*}

/-- Origin and end margins are switched because data is sent. -/
def guardingCells (originGuard endGuard coreBorderSize : DataSpace D) (i : ℕ) : DataSpace D := fun d =>
  match getRelativeDirections D i d with
  | -1 => endGuard d
  | 1 => originGuard d
  | _ => coreBorderSize d

structure KernelArguments (D : ℕ) where
  mapper : BlockMapper D
  superCellSize : DataSpace D
  fieldSize : DataSpace D
  exchangeSize : DataSpace D
  direction : DataSpace D

variable (k : KernelArguments D)

/-- Source cell and target cell of a thread of `KernelBashCurrent`, unless it returns early. -/
def bashCells (thread : DataSpace D × DataSpace D) : Option (DataSpace D × DataSpace D) := do
  let superCell ← k.mapper.getBlockIndex thread.1
  let nullSuperCell ← k.mapper.getBlockIndex 0
  let sourceCell : DataSpace D := fun d => superCell d * k.superCellSize d + thread.2 d
  let nullSourceCell : DataSpace D := fun d => nullSuperCell d * k.superCellSize d
  if ∀ d, (k.direction d = -1 → k.superCellSize d - k.exchangeSize d ≤ thread.2 d) ∧
      (k.direction d = 1 → thread.2 d < k.exchangeSize d) then
    some (sourceCell, fun d => sourceCell d - nullSourceCell d -
      if k.direction d = -1 then k.superCellSize d - k.exchangeSize d else 0)
  else none

/-- Source cell and target cell of a thread of `KernelInsertCurrent`, unless it returns early. -/
def insertCells (thread : DataSpace D × DataSpace D) : Option (DataSpace D × DataSpace D) := do
  let superCell ← k.mapper.getBlockIndex thread.1
  let nullSuperCell ← k.mapper.getBlockIndex 0
  let targetCell : DataSpace D := fun d => superCell d * k.superCellSize d + thread.2 d
  let nullSourceCell : DataSpace D := fun d => nullSuperCell d * k.superCellSize d
  if ∀ d, (k.direction d = 1 → k.superCellSize d - k.exchangeSize d ≤ thread.2 d) ∧
      (k.direction d = -1 → thread.2 d < k.exchangeSize d) then
    some (fun d => targetCell d - nullSourceCell d -
        if k.direction d = 1 then k.superCellSize d - k.exchangeSize d else 0,
      fun d => targetCell d + if k.direction d = 1 then -k.superCellSize d
        else if k.direction d = -1 then k.superCellSize d else 0)
  else none

instance (size c : DataSpace D) : Decidable (c ∈ launchBox size) :=
  inferInstanceAs (Decidable (∀ _, _))

/-- A thread of `KernelBashCurrent`; an access out of bounds fails. -/
def bashThread (fieldJ : DataSpace D → V) (targetJ : DataSpace D → Option V) (thread : DataSpace D × DataSpace D) :
    Option (DataSpace D → Option V) :=
  match bashCells k thread with
  | none => some targetJ
  | some (sourceCell, targetCell) =>
    if sourceCell ∈ launchBox k.fieldSize ∧ targetCell ∈ launchBox k.exchangeSize then
      some (Function.update targetJ targetCell (some (fieldJ sourceCell)))
    else none

/-- A thread of `KernelInsertCurrent`; an access out of bounds or to an unwritten element fails. -/
def insertThread [Add V] (sourceJ : DataSpace D → Option V) (fieldJ : DataSpace D → V)
    (thread : DataSpace D × DataSpace D) : Option (DataSpace D → V) :=
  match insertCells k thread with
  | none => some fieldJ
  | some (sourceCell, targetCell) =>
    if sourceCell ∈ launchBox k.exchangeSize ∧ targetCell ∈ launchBox k.fieldSize then
      (sourceJ sourceCell).map fun v => Function.update fieldJ targetCell (fieldJ targetCell + v)
    else none

structure Launched (threads : List (DataSpace D × DataSpace D)) : Prop where
  nodup : threads.Nodup
  mem_iff : ∀ t, t ∈ threads ↔ t.1 ∈ launchBox k.mapper.getGridDim ∧ t.2 ∈ launchBox k.superCellSize

def KernelBashCurrent (threads : List (DataSpace D × DataSpace D)) (fieldJ : DataSpace D → V) :
    Option (DataSpace D → Option V) :=
  threads.foldlM (bashThread k fieldJ) fun _ => none

def KernelInsertCurrent [Add V] (threads : List (DataSpace D × DataSpace D)) (sourceJ : DataSpace D → Option V)
    (fieldJ : DataSpace D → V) : Option (DataSpace D → V) :=
  threads.foldlM (insertThread k sourceJ) fieldJ

/-- The arguments that `bashField` and `insertField` pass for an exchange. -/
def kernelArguments (m : MappingDescription D) (superCellSize exchangeSize : DataSpace D) (exchangeType : ℕ) :
    KernelArguments D where
  mapper := ExchangeMappingMethods.guard m exchangeType
  superCellSize := superCellSize
  fieldSize := fun d => m.gridSuperCells d * superCellSize d
  exchangeSize := exchangeSize
  direction := getRelativeDirections D exchangeType

section Positions

/-- A launch with one block across the exchange, and an exchange that the threads cover. -/
structure Fits (k : KernelArguments D) : Prop where
  size_pos : ∀ d, 0 < k.superCellSize d
  direction : ∀ d, k.direction d = -1 ∨ k.direction d = 0 ∨ k.direction d = 1
  across : ∀ d, k.direction d ≠ 0 →
    k.mapper.getGridDim d = 1 ∧ 0 ≤ k.exchangeSize d ∧ k.exchangeSize d ≤ k.superCellSize d
  along : ∀ d, k.direction d = 0 → k.exchangeSize d = k.mapper.getGridDim d * k.superCellSize d

def Active (far : ℤ) (thread : DataSpace D × DataSpace D) : Prop :=
  ∀ d, (k.direction d = far → k.superCellSize d - k.exchangeSize d ≤ thread.2 d) ∧
    (k.direction d = -far → thread.2 d < k.exchangeSize d)

instance (far : ℤ) (thread : DataSpace D × DataSpace D) : Decidable (Active k far thread) :=
  inferInstanceAs (Decidable (∀ _, _))

/-- Cells of the supercell before the exchange. -/
def skip (far : ℤ) : DataSpace D := fun d => if k.direction d = far then k.superCellSize d - k.exchangeSize d else 0

/-- Element of the exchange buffer for a thread. -/
def position (far : ℤ) (thread : DataSpace D × DataSpace D) : Option (DataSpace D) :=
  if Active k far thread then some fun d => thread.1 d * k.superCellSize d + thread.2 d - skip k far d else none

variable {k} {far : ℤ} (hfar : far = -1 ∨ far = 1) (h : Fits k)

include hfar h

/-- Block and thread of an element are the quotient and the remainder of its cell. -/
theorem position_spec {thread : DataSpace D × DataSpace D} {p : DataSpace D}
    (hblock : thread.1 ∈ launchBox k.mapper.getGridDim) (hthread : thread.2 ∈ launchBox k.superCellSize)
    (hp : position k far thread = some p) :
    p ∈ launchBox k.exchangeSize ∧
      thread = (fun d => (p d + skip k far d) / k.superCellSize d, fun d => (p d + skip k far d) % k.superCellSize d) := by
  rw [position] at hp
  split_ifs at hp with hcond
  obtain rfl := Option.some.inj hp
  refine ⟨fun d => ?_, Prod.ext (funext fun d => ?_) (funext fun d => ?_)⟩
  · have hb := hblock d
    have ht := hthread d
    have hs := h.size_pos d
    obtain ⟨hc1, hc2⟩ := hcond d
    dsimp only [skip]
    by_cases hd : k.direction d = 0
    · have hin := h.along d hd
      have hne : ¬(0 : ℤ) = far := by omega
      have hindex := (index_spec (a := thread.2 d) (x := k.superCellSize d) (b := thread.1 d)
        (y := k.mapper.getGridDim d) (by omega) (by omega) (by omega) (by omega)).1
      rw [hd, if_neg hne, hin, sub_zero, mul_comm (k.mapper.getGridDim d)]
      exact ⟨by omega, hindex.2⟩
    · obtain ⟨hgrid, hm⟩ := h.across d hd
      have hb0 : thread.1 d = 0 := by omega
      have hr := h.direction d
      rw [hb0]
      split_ifs with hf
      · have := hc1 hf
        omega
      · have := hc2 (by omega)
        omega
  · have ht := hthread d
    have hs := h.size_pos d
    dsimp only
    rw [sub_add_cancel, add_comm, Int.add_mul_ediv_right _ _ hs.ne', Int.ediv_eq_zero_of_lt ht.1 ht.2, zero_add]
  · have ht := hthread d
    dsimp only
    rw [sub_add_cancel, add_comm, Int.add_mul_emod_self_right, Int.emod_eq_of_lt ht.1 ht.2]

theorem exists_position {p : DataSpace D} (hp : p ∈ launchBox k.exchangeSize) :
    ∃ thread : DataSpace D × DataSpace D,
      (thread.1 ∈ launchBox k.mapper.getGridDim ∧ thread.2 ∈ launchBox k.superCellSize) ∧
      position k far thread = some p := by
  refine ⟨(fun d => (p d + skip k far d) / k.superCellSize d, fun d => (p d + skip k far d) % k.superCellSize d),
    ⟨fun d => ?_, fun d => ?_⟩, ?_⟩
  · have hpd := hp d
    have hs := h.size_pos d
    dsimp only [skip]
    by_cases hd : k.direction d = 0
    · have hne : ¬(0 : ℤ) = far := by omega
      rw [h.along d hd, mul_comm] at hpd
      rw [hd, if_neg hne, add_zero]
      exact (row_spec hpd.1 hpd.2 hs).2.1
    · obtain ⟨hgrid, hm⟩ := h.across d hd
      split_ifs with hf <;> rw [Int.ediv_eq_zero_of_lt (by omega) (by omega)] <;> omega
  · have hs := h.size_pos d
    exact ⟨Int.emod_nonneg _ hs.ne', Int.emod_lt_of_pos _ hs⟩
  · rw [position, if_pos]
    · rw [Option.some_inj]
      funext d
      dsimp only
      rw [mul_comm, Int.mul_ediv_add_emod, add_sub_cancel_right]
    · intro d
      have hpd := hp d
      have hs := h.size_pos d
      dsimp only [skip]
      constructor
      · intro hf
        have hm := h.across d (by omega)
        rw [if_pos hf, Int.emod_eq_of_lt (by omega) (by omega)]
        omega
      · intro hf
        have hm := h.across d (by omega)
        rw [if_neg (by omega), Int.emod_eq_of_lt (by omega) (by omega)]
        omega

/-- The threads of a launch that do not return early have the elements of the buffer, each once. -/
theorem positions_perm {threads : List (DataSpace D × DataSpace D)} (hl : Launched k threads) :
    (threads.filterMap (position k far)).Perm (boxCells k.exchangeSize) := by
  refine (List.perm_ext_iff_of_nodup ?_ (nodup_boxCells k.exchangeSize)).mpr fun p => ?_
  · rw [List.Nodup, List.pairwise_filterMap]
    refine List.Pairwise.imp_of_mem (fun {t t'} ht ht' hne p hp p' hp' hpp => hne ?_) hl.nodup
    subst hpp
    obtain ⟨hb, htd⟩ := (hl.mem_iff t).mp ht
    obtain ⟨hb', htd'⟩ := (hl.mem_iff t').mp ht'
    rw [(position_spec hfar h hb htd hp).2, (position_spec hfar h hb' htd' hp').2]
  · rw [List.mem_filterMap, mem_boxCells]
    constructor
    · rintro ⟨t, ht, hp⟩
      obtain ⟨hb, htd⟩ := (hl.mem_iff t).mp ht
      exact (position_spec hfar h hb htd hp).1
    · intro hp
      obtain ⟨t, ht, hpos⟩ := exists_position hfar h hp
      exact ⟨t, (hl.mem_iff t).mpr ht, hpos⟩

end Positions

section Cells

variable {m : MappingDescription D} {superCellSize exchangeSize : DataSpace D} {exchangeType : ℕ}

def bashOrigin (m : MappingDescription D) (superCellSize exchangeSize : DataSpace D) (exchangeType : ℕ) : DataSpace D :=
  fun d => if getRelativeDirections D exchangeType d = -1 then superCellSize d - exchangeSize d
    else if getRelativeDirections D exchangeType d = 1 then (m.gridSuperCells d - 1) * superCellSize d
    else superCellSize d

def insertOrigin (m : MappingDescription D) (superCellSize exchangeSize : DataSpace D) (exchangeType : ℕ) :
    DataSpace D :=
  fun d => if getRelativeDirections D exchangeType d = 1 then (m.gridSuperCells d - 1) * superCellSize d - exchangeSize d
    else superCellSize d

theorem bashCells_eq (hguard : m.guardingSuperCells = 1) (thread : DataSpace D × DataSpace D) :
    bashCells (kernelArguments m superCellSize exchangeSize exchangeType) thread =
      (position (kernelArguments m superCellSize exchangeSize exchangeType) (-1) thread).map
        fun p => (p + bashOrigin m superCellSize exchangeSize exchangeType, p) := by
  simp only [bashCells, position, Active, skip, kernelArguments, ExchangeMappingMethods.guard, Option.bind_eq_bind,
    Option.bind_some, neg_neg, hguard]
  split_ifs with hcond
  · rw [Option.map_some, Option.some_inj, Prod.mk.injEq]
    constructor <;> funext d <;>
      rcases getRelativeDirections_cases D exchangeType d with hd | hd | hd <;>
      simp [hd, bashOrigin] <;> ring
  · rfl

theorem insertCells_eq (hguard : m.guardingSuperCells = 1) (thread : DataSpace D × DataSpace D) :
    insertCells (kernelArguments m superCellSize exchangeSize exchangeType) thread =
      (position (kernelArguments m superCellSize exchangeSize exchangeType) 1 thread).map
        fun p => (p, p + insertOrigin m superCellSize exchangeSize exchangeType) := by
  simp only [insertCells, position, Active, skip, kernelArguments, ExchangeMappingMethods.guard, Option.bind_eq_bind,
    Option.bind_some, hguard]
  split_ifs with hcond
  · rw [Option.map_some, Option.some_inj, Prod.mk.injEq]
    constructor <;> funext d <;>
      rcases getRelativeDirections_cases D exchangeType d with hd | hd | hd <;>
      simp [hd, insertOrigin] <;> ring
  · rfl

end Cells

section Kernels

theorem foldlM_threads {α β γ : Type*} {f : β → α → Option β} {g : β → γ → Option β} {position : α → Option γ}
    (h : ∀ b t, f b t = (position t).elim (some b) (g b)) (l : List α) (b : β) :
    l.foldlM f b = (l.filterMap position).foldlM g b := by
  rw [List.foldlM_filterMap]
  congr 1
  funext b t
  rw [h]
  cases position t <;> rfl

theorem foldlM_store {l : List (DataSpace D)} {inBounds : DataSpace D → Prop} [DecidablePred inBounds]
    (hl : ∀ p ∈ l, inBounds p) (value : DataSpace D → V) (target : DataSpace D → Option V) :
    l.foldlM (fun target p => if inBounds p then some (Function.update target p (some (value p))) else none) target =
      some fun p => if p ∈ l then some (value p) else target p := by
  induction l generalizing target with
  | nil => simp
  | cons p l ih =>
    rw [List.foldlM_cons, if_pos (hl p (List.mem_cons_self ..)), Option.bind_eq_bind, Option.bind_some,
      ih fun q hq => hl q (List.mem_cons_of_mem _ hq)]
    congr 1
    funext q
    by_cases hq : q ∈ l <;> by_cases hqp : q = p <;> simp [hq, hqp]

theorem foldlM_add [AddCommMonoid V] {l : List (DataSpace D)} (hnd : l.Nodup) {inBounds : DataSpace D → Prop}
    [DecidablePred inBounds] (hl : ∀ p ∈ l, inBounds p) {source : DataSpace D → Option V} {value : DataSpace D → V}
    (hsource : ∀ p ∈ l, source p = some (value p)) (origin : DataSpace D) (fieldJ : DataSpace D → V) :
    l.foldlM (fun fieldJ p => if inBounds p then
        (source p).map fun v => Function.update fieldJ (p + origin) (fieldJ (p + origin) + v) else none) fieldJ =
      some fun x => fieldJ x + if x - origin ∈ l then value (x - origin) else 0 := by
  induction l generalizing fieldJ with
  | nil => simp
  | cons p l ih =>
    obtain ⟨hp, hnd⟩ := List.nodup_cons.mp hnd
    rw [List.foldlM_cons, if_pos (hl p (List.mem_cons_self ..)), hsource p (List.mem_cons_self ..), Option.map_some,
      Option.bind_eq_bind, Option.bind_some, ih hnd (fun q hq => hl q (List.mem_cons_of_mem _ hq))
        fun q hq => hsource q (List.mem_cons_of_mem _ hq)]
    congr 1
    funext x
    by_cases hx : x = p + origin
    · simp [hx, hp]
    · have hne : x - origin ≠ p := fun h => hx (by rw [← h, sub_add_cancel])
      simp [hx, hne]

variable {m : MappingDescription D} {superCellSize exchangeSize : DataSpace D} {exchangeType : ℕ}
  {threads : List (DataSpace D × DataSpace D)}
  (hguard : m.guardingSuperCells = 1) (hfits : Fits (kernelArguments m superCellSize exchangeSize exchangeType))
  (hl : Launched (kernelArguments m superCellSize exchangeSize exchangeType) threads)

include hguard hfits hl

/-- The whole buffer is written, and nothing else. -/
theorem KernelBashCurrent_eq (fieldJ : DataSpace D → V)
    (hin : ∀ p ∈ launchBox exchangeSize, p + bashOrigin m superCellSize exchangeSize exchangeType ∈
      launchBox fun d => m.gridSuperCells d * superCellSize d) :
    KernelBashCurrent (kernelArguments m superCellSize exchangeSize exchangeType) threads fieldJ =
      some fun p => if p ∈ launchBox exchangeSize then
        some (fieldJ (p + bashOrigin m superCellSize exchangeSize exchangeType)) else none := by
  let k := kernelArguments m superCellSize exchangeSize exchangeType
  let origin := bashOrigin m superCellSize exchangeSize exchangeType
  let write (target : DataSpace D → Option V) (p : DataSpace D) : Option (DataSpace D → Option V) :=
    if p + origin ∈ launchBox k.fieldSize ∧ p ∈ launchBox k.exchangeSize then
      some (Function.update target p (some (fieldJ (p + origin)))) else none
  have hstep : ∀ target t, bashThread k fieldJ target t = (position k (-1) t).elim (some target) (write target) := by
    intro target t
    rw [bashThread, bashCells_eq hguard t]
    cases position (kernelArguments m superCellSize exchangeSize exchangeType) (-1) t <;> rfl
  have hperm := positions_perm (Or.inl rfl) hfits hl
  have hmem : ∀ p, p ∈ threads.filterMap (position k (-1)) ↔ p ∈ launchBox exchangeSize := fun p => by
    rw [hperm.mem_iff]
    exact mem_boxCells
  change threads.foldlM (bashThread k fieldJ) (fun _ => none) = _
  rw [foldlM_threads hstep, foldlM_store (fun p hp =>
    ⟨hin p ((hmem p).mp hp), (hmem p).mp hp⟩) fun p => fieldJ (p + origin)]
  simp only [hmem]
  rfl

/-- Each element of the buffer is added to one cell. -/
theorem KernelInsertCurrent_eq [AddCommMonoid V] {sourceJ : DataSpace D → Option V} {value : DataSpace D → V}
    (hsource : ∀ p ∈ launchBox exchangeSize, sourceJ p = some (value p)) (fieldJ : DataSpace D → V)
    (hin : ∀ p ∈ launchBox exchangeSize, p + insertOrigin m superCellSize exchangeSize exchangeType ∈
      launchBox fun d => m.gridSuperCells d * superCellSize d) :
    KernelInsertCurrent (kernelArguments m superCellSize exchangeSize exchangeType) threads sourceJ fieldJ =
      some fun x => fieldJ x +
        if x - insertOrigin m superCellSize exchangeSize exchangeType ∈ launchBox exchangeSize then
          value (x - insertOrigin m superCellSize exchangeSize exchangeType) else 0 := by
  let k := kernelArguments m superCellSize exchangeSize exchangeType
  let origin := insertOrigin m superCellSize exchangeSize exchangeType
  let add (fieldJ : DataSpace D → V) (p : DataSpace D) : Option (DataSpace D → V) :=
    if p ∈ launchBox k.exchangeSize ∧ p + origin ∈ launchBox k.fieldSize then
      (sourceJ p).map fun v => Function.update fieldJ (p + origin) (fieldJ (p + origin) + v) else none
  have hstep : ∀ fieldJ t, insertThread k sourceJ fieldJ t = (position k 1 t).elim (some fieldJ) (add fieldJ) := by
    intro fieldJ t
    rw [insertThread, insertCells_eq hguard t]
    cases position (kernelArguments m superCellSize exchangeSize exchangeType) 1 t <;> rfl
  have hperm := positions_perm (Or.inr rfl) hfits hl
  have hmem : ∀ p, p ∈ threads.filterMap (position k 1) ↔ p ∈ launchBox exchangeSize := fun p => by
    rw [hperm.mem_iff]
    exact mem_boxCells
  change threads.foldlM (insertThread k sourceJ) fieldJ = _
  rw [foldlM_threads hstep, foldlM_add (hperm.nodup_iff.mpr (nodup_boxCells _)) (fun p hp =>
    ⟨(hmem p).mp hp, hin p ((hmem p).mp hp)⟩) fun p hp => hsource p ((hmem p).mp hp)]
  simp only [k, hmem]
  rfl

end Kernels

theorem exists_launched (k : KernelArguments D) : ∃ threads, Launched k threads := by
  refine ⟨(boxCells k.mapper.getGridDim).product (boxCells k.superCellSize),
    (nodup_boxCells _).product (nodup_boxCells _), fun t => ?_⟩
  change t ∈ boxCells k.mapper.getGridDim ×ˢ boxCells k.superCellSize ↔ _
  rw [List.mem_product, mem_boxCells, mem_boxCells]
  rfl

end FieldJ

end PIConGPU
