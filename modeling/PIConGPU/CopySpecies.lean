import PIConGPU.CountParticles
import PIConGPU.KernelLaunch

/-!
# Copying the particles of a rank to one frame on the host

A block walks through the frames of a supercell. For every frame its threads number the particles to copy, then the
block reserves that many slots of the host frame with one addition to a counter, and then the threads write. On the
host a thread plays one block after the other and numbers the particles in the order of the slots.
-/
namespace PIConGPU

open BlockThreads ParticlesBox KernelLaunch

namespace KernelCopySpecies

/-- A block is at a frame, or it has reserved host slots for the selected particles of a frame. -/
inductive Phase (T : ℕ)
  | frame (srcFramePtr : Option Ptr)
  | copy (srcFramePtr : Ptr) (selected : Fin T → Bool) (storageOffset : Fin T → ℕ) (globalOffset : ℤ)

/-- The counter of 32 bits and the slots of the host frame. -/
structure Memory (D : ℕ) (β : Type*) where
  counter : ℤ
  destFrame : ℤ → Option (Record D β)

variable {D : ℕ} {β : Type*}

section Block

variable (cell : CellDescription D) (box : ParticlesBox D cell.cellsInSuperCell (Particle β)) (filter : PositionFilter D)
  (particleOffset : DataSpace D)

/-- The blocks share the filter, so a thread may see the position that another block has set. -/
def selected (seen : Fin cell.cellsInSuperCell → DataSpace D) (frame : Ptr) (t : Fin cell.cellsInSuperCell) : Bool :=
  box.multiMask frame t == 1 &&
    filter.accepts cell (cell.superCellPosition (seen t)) (box.attributes frame t)

def destSlot (sel : Fin cell.cellsInSuperCell → Bool) (storageOffset : Fin cell.cellsInSuperCell → ℕ) (globalOffset : ℤ)
    (t : Fin cell.cellsInSuperCell) : Option ℤ :=
  if sel t then some (i32 (globalOffset + storageOffset t)) else none

def store (superCell : DataSpace D) (frame : Ptr) (sel : Fin cell.cellsInSuperCell → Bool)
    (storageOffset : Fin cell.cellsInSuperCell → ℕ) (globalOffset : ℤ) (σ : Equiv.Perm (Fin cell.cellsInSuperCell))
    (destFrame : ℤ → Option (Record D β)) : ℤ → Option (Record D β) :=
  scatter (destSlot cell sel storageOffset globalOffset)
    (fun t => some (cell.toRecord particleOffset superCell (box.attributes frame t))) (threadOrder σ) destFrame

inductive Block (orders : Set (Equiv.Perm (Fin cell.cellsInSuperCell))) (superCell : DataSpace D) :
    Memory D β → Phase cell.cellsInSuperCell → Memory D β → Phase cell.cellsInSuperCell → Prop
  | reserve {m : Memory D β} {p : Ptr} {σ : Equiv.Perm (Fin cell.cellsInSuperCell)}
    {seen : Fin cell.cellsInSuperCell → DataSpace D} (hσ : σ ∈ orders) (hseen : ∀ t, seen t ∈ cell.area) :
    Block orders superCell m (.frame (some p))
      { m with counter := i32 (m.counter + (numberThreads (selected cell box filter seen p) σ).1) }
      (.copy p (selected cell box filter seen p) (numberThreads (selected cell box filter seen p) σ).2 m.counter)
  | copy {m : Memory D β} {p : Ptr} {sel : Fin cell.cellsInSuperCell → Bool}
    {storageOffset : Fin cell.cellsInSuperCell → ℕ} {globalOffset : ℤ} {σ : Equiv.Perm (Fin cell.cellsInSuperCell)}
    (hσ : σ ∈ orders) :
    Block orders superCell m (.copy p sel storageOffset globalOffset)
      { m with destFrame := store cell box particleOffset superCell p sel storageOffset globalOffset σ m.destFrame }
      (.frame (box.nextFrame p))

/-- A launch of blocks, one for each supercell in a family, is through and has left the given host frame. -/
def Copied {ι : Type*} [DecidableEq ι] (orders : Set (Equiv.Perm (Fin cell.cellsInSuperCell)))
    (superCell : ι → DataSpace D) (destFrame : ℤ → Option (Record D β)) : Prop :=
  ∃ counter, Run (fun b => Block cell box filter particleOffset orders (superCell b))
    (⟨0, fun _ => none⟩, fun b => .frame (box.firstFramePtr (superCell b)))
    (⟨counter, destFrame⟩, fun _ => .frame none)

def Copies (destFrame : ℤ → Option (Record D β)) : Prop :=
  Copied cell box filter particleOffset Set.univ
    (fun b : {idx // idx ∈ launchBox (AreaMappingMethods.coreBorder cell.toMappingDescription).getGridDim} =>
      cell.getSuperCellIndex b) destFrame

end Block

section Frames

variable {T : ℕ}

/-- The frames of a supercell that its block has reserved slots for. -/
def taken (frames : List Ptr) : Phase T → List Ptr
  | .frame none => frames
  | .frame (some p) => frames.take (frames.idxOf p)
  | .copy p _ _ _ => frames.take (frames.idxOf p + 1)

def rank (frames : List Ptr) : Phase T → ℕ
  | .frame none => 0
  | .frame (some p) => 2 * (frames.length - frames.idxOf p)
  | .copy p _ _ _ => 2 * (frames.length - frames.idxOf p) - 1

theorem taken_isPrefix (frames : List Ptr) (phase : Phase T) : taken frames phase <+: frames := by
  cases phase with
  | frame q =>
    cases q with
    | none => exact List.prefix_rfl
    | some p => exact List.take_prefix ..
  | copy p sel storageOffset globalOffset => exact List.take_prefix ..

theorem take_idxOf_succ {frames : List Ptr} {p : Ptr} (hp : p ∈ frames) :
    frames.take (frames.idxOf p + 1) = frames.take (frames.idxOf p) ++ [p] := by
  have hlt := List.idxOf_lt_length_of_mem hp
  rw [List.take_succ_eq_append_getElem hlt, List.getElem_idxOf hlt]

variable {D : ℕ} {α : Type*} {box : ParticlesBox D T α} {L : DataSpace D → List Ptr}

theorem nextFrame_cases (hL : Linked box L) {c : DataSpace D} {p : Ptr} (hp : p ∈ L c) :
    (box.nextFrame p = none ∧ (L c).length = (L c).idxOf p + 1) ∨
      ∃ q ∈ L c, box.nextFrame p = some q ∧ (L c).idxOf q = (L c).idxOf p + 1 := by
  obtain ⟨l, r, he⟩ := List.append_of_mem hp
  have hnd := hL.nodup c
  rw [he] at hnd
  have hidx : (L c).idxOf p = l.length := by
    rw [he, List.idxOf_append_of_notMem fun h => (List.nodup_append.mp hnd).2.2 p h p (by simp) rfl]
    simp
  rw [hL.next c l p r he, hidx]
  cases r with
  | nil => exact .inl ⟨rfl, by simp [he]⟩
  | cons q r =>
    refine .inr ⟨q, by simp [he], rfl, ?_⟩
    have hq : q ∉ l ++ [p] := fun h => by
      rw [List.append_cons, List.nodup_append] at hnd
      exact hnd.2.2 q h q (by simp) rfl
    rw [he, List.append_cons, List.idxOf_append_of_notMem hq]
    simp

theorem taken_next (hL : Linked box L) {c : DataSpace D} {p : Ptr} (hp : p ∈ L c) :
    taken (T := T) (L c) (.frame (box.nextFrame p)) = (L c).take ((L c).idxOf p + 1) := by
  rcases nextFrame_cases hL hp with ⟨hnext, hlen⟩ | ⟨q, -, hnext, hidx⟩
  · rw [hnext, taken, ← hlen, List.take_length]
  · rw [hnext, taken, hidx]

theorem rank_next (hL : Linked box L) {c : DataSpace D} {p : Ptr} (hp : p ∈ L c) :
    rank (T := T) (L c) (.frame (box.nextFrame p)) < 2 * ((L c).length - (L c).idxOf p) - 1 := by
  have hlt := List.idxOf_lt_length_of_mem hp
  rcases nextFrame_cases hL hp with ⟨hnext, hlen⟩ | ⟨q, hq, hnext, hidx⟩
  · rw [hnext, rank]
    omega
  · have := List.idxOf_lt_length_of_mem hq
    rw [hnext, rank]
    omega

end Frames

section Plan

variable {ι : Type*} (cell : CellDescription D) (box : ParticlesBox D cell.cellsInSuperCell (Particle β))
  (particleOffset : DataSpace D) (L : DataSpace D → List Ptr) (superCell : ι → DataSpace D)

def takenRecords (b : ι) (phase : Phase cell.cellsInSuperCell) : Multiset (Record D β) :=
  (box.contents (taken (L (superCell b)) phase) 1).map (cell.toRecord particleOffset (superCell b))

structure Reserved (plan : List (Record D β)) (c : DataSpace D) (p : Ptr) (sel : Fin cell.cellsInSuperCell → Bool)
    (storageOffset : Fin cell.cellsInSuperCell → ℕ) (globalOffset : ℤ) : Prop where
  frame_mem : p ∈ L c
  inj : ∀ t t', sel t = true → sel t' = true → storageOffset t = storageOffset t' → t = t'
  slots : ∃ a : ℕ, globalOffset = a ∧ ∀ t, sel t = true →
    plan[a + storageOffset t]? = some (cell.toRecord particleOffset c (box.attributes p t))

def Pending (phases : ι → Phase cell.cellsInSuperCell) (i : ℤ) : Prop :=
  ∃ b p sel storageOffset globalOffset t, phases b = .copy p sel storageOffset globalOffset ∧ sel t = true ∧
    globalOffset + storageOffset t = i

/-- The slots below the counter are reserved for the records of a plan, in this order. -/
structure Planned [Fintype ι] (plan : List (Record D β)) (s : Memory D β × (ι → Phase cell.cellsInSuperCell)) :
    Prop where
  counter : s.1.counter = plan.length
  frame_mem : ∀ b p, s.2 b = .frame (some p) → p ∈ L (superCell b)
  reserved : ∀ b p sel storageOffset globalOffset, s.2 b = .copy p sel storageOffset globalOffset →
    Reserved cell box particleOffset L plan (superCell b) p sel storageOffset globalOffset
  records : (plan : Multiset (Record D β)) = ∑ b, takenRecords cell box particleOffset L superCell b (s.2 b)
  written : ∀ w < plan.length, s.1.destFrame w = plan[w]? ∨ Pending cell s.2 w
  outside : ∀ i, s.1.destFrame i ≠ none → ∃ w : ℕ, i = w ∧ w < plan.length

end Plan

section Steps

variable {ι : Type*} [Fintype ι] [DecidableEq ι] {cell : CellDescription D}
  {box : ParticlesBox D cell.cellsInSuperCell (Particle β)} {particleOffset : DataSpace D}
  {L : DataSpace D → List Ptr} {superCell : ι → DataSpace D} {plan : List (Record D β)} {m : Memory D β}
  {phases : ι → Phase cell.cellsInSuperCell} {b : ι} {p : Ptr} {sel : Fin cell.cellsInSuperCell → Bool}

theorem contents_le {l frames : List Ptr} (h : l <+: frames) : box.contents l 1 ≤ box.contents frames 1 := by
  obtain ⟨r, rfl⟩ := h
  rw [contents_append]
  exact Multiset.le_add_right _ _

omit [DecidableEq ι] in
theorem length_plan_le {s : Memory D β × (ι → Phase cell.cellsInSuperCell)}
    (h : (plan : Multiset (Record D β)) = ∑ b, takenRecords cell box particleOffset L superCell b (s.2 b)) :
    plan.length ≤ ∑ b, (box.contents (L (superCell b)) 1).card := by
  rw [← Multiset.coe_card, h, Multiset.card_sum]
  refine Finset.sum_le_sum fun b _ => ?_
  rw [takenRecords, Multiset.card_map]
  exact Multiset.card_le_card (contents_le (taken_isPrefix _ _))

theorem Reserved.append {c : DataSpace D} {storageOffset : Fin cell.cellsInSuperCell → ℕ} {globalOffset : ℤ}
    (h : Reserved cell box particleOffset L plan c p sel storageOffset globalOffset) (entries : List (Record D β)) :
    Reserved cell box particleOffset L (plan ++ entries) c p sel storageOffset globalOffset := by
  obtain ⟨a, ha, hslots⟩ := h.slots
  refine ⟨h.frame_mem, h.inj, a, ha, fun t ht => ?_⟩
  rw [List.getElem?_append_left (List.getElem?_eq_some_iff.mp (hslots t ht)).1, hslots t ht]

/-- A block reserves the slots at the end of the plan. -/
theorem Planned.reserve (hN : ∑ b, (box.contents (L (superCell b)) 1).card < 2^31)
    (h : Planned cell box particleOffset L superCell plan (m, phases)) (hp : phases b = .frame (some p))
    (hsel : ∀ t, sel t = true ↔ box.multiMask p t = 1) (σ : Equiv.Perm (Fin cell.cellsInSuperCell)) :
    ∃ plan', Planned cell box particleOffset L superCell plan'
      ({ m with counter := i32 (m.counter + (numberThreads sel σ).1) },
        Function.update phases b (.copy p sel (numberThreads sel σ).2 m.counter)) := by
  obtain ⟨l, hlen, hget, hl⟩ := exists_threadList sel σ
  set entries := l.map fun t => cell.toRecord particleOffset (superCell b) (box.attributes p t) with hentries
  have hmem : p ∈ L (superCell b) := h.frame_mem b p hp
  have hparticles : (entries : Multiset (Record D β)) =
      (FrameContents.particles (box.multiMask p) (box.attributes p) 1).map
        (cell.toRecord particleOffset (superCell b)) := by
    have hfilter : (Finset.univ.filter fun t => sel t = true) = Finset.univ.filter fun t => box.multiMask p t = 1 :=
      Finset.filter_congr fun t _ => hsel t
    rw [hentries, ← Multiset.map_coe, hl, hfilter, FrameContents.particles, Multiset.map_map]
    rfl
  have hrecords : ((plan ++ entries : List (Record D β)) : Multiset (Record D β)) =
      ∑ b', takenRecords cell box particleOffset L superCell b'
        (Function.update phases b (.copy p sel (numberThreads sel σ).2 m.counter) b') := by
    rw [sum_update_add (a := (entries : Multiset (Record D β))), ← h.records, Multiset.coe_add]
    rw [hp, takenRecords, takenRecords, taken, taken, take_idxOf_succ hmem, contents_append, contents_cons,
      contents_nil, add_zero, Multiset.map_add, hparticles]
  have hcount : (numberThreads sel σ).1 = entries.length := by rw [hentries, List.length_map, hlen]
  have hlt : (plan ++ entries).length < 2^31 := (length_plan_le (s := (m, _)) hrecords).trans_lt hN
  have hcounter := h.counter
  dsimp only at hcounter
  refine ⟨plan ++ entries, ?_, fun b' q hq => ?_, fun b' q sel' storageOffset g hq => ?_, hrecords, fun w hw => ?_,
    fun i hi => ?_⟩
  · dsimp only
    rw [List.length_append] at hlt ⊢
    rw [hcount, hcounter, i32_eq (by omega) (by omega)]
    push_cast
    rfl
  · by_cases hb : b' = b
    · subst hb
      simp at hq
    · exact h.frame_mem b' q (by simpa [Function.update_of_ne hb] using hq)
  · by_cases hb : b' = b
    · subst hb
      simp only [Function.update_self, Phase.copy.injEq] at hq
      obtain ⟨rfl, rfl, rfl, rfl⟩ := hq
      refine ⟨hmem, fun t t' ht ht' => numberThreads_inj ht ht', plan.length, hcounter, fun t ht => ?_⟩
      rw [List.getElem?_append_right (Nat.le_add_right _ _), Nat.add_sub_cancel_left, hentries, List.getElem?_map,
        hget t ht]
      rfl
    · exact (h.reserved b' q sel' storageOffset g (by simpa [Function.update_of_ne hb] using hq)).append entries
  · rcases Nat.lt_or_ge w plan.length with hlt' | hge
    · rcases h.written w hlt' with hw | ⟨b', q, sel', storageOffset, g, t, hq, ht, hslot⟩
      · exact .inl (by rw [List.getElem?_append_left hlt']; exact hw)
      · have hb : b' ≠ b := by
          rintro rfl
          cases hp.symm.trans hq
        exact .inr ⟨b', q, sel', storageOffset, g, t, (Function.update_of_ne hb _ _).trans hq, ht, hslot⟩
    · rw [List.length_append, ← hcount] at hw
      obtain ⟨t, ht, hticket⟩ := exists_numberThreads (p := sel) (σ := σ) (i := w - plan.length) (by omega)
      refine .inr ⟨b, p, sel, _, _, t, Function.update_self .., ht, ?_⟩
      rw [hcounter, hticket]
      omega
  · obtain ⟨w, hw, hlt'⟩ := h.outside i hi
    exact ⟨w, hw, by rw [List.length_append]; omega⟩

theorem Reserved.store (hlt : plan.length < 2^31) {c : DataSpace D} {storageOffset : Fin cell.cellsInSuperCell → ℕ}
    {globalOffset : ℤ} (h : Reserved cell box particleOffset L plan c p sel storageOffset globalOffset)
    (σ : Equiv.Perm (Fin cell.cellsInSuperCell)) (destFrame : ℤ → Option (Record D β)) :
    (∀ t, sel t = true → ∃ w : ℕ, globalOffset + storageOffset t = w ∧ w < plan.length ∧
      KernelCopySpecies.store cell box particleOffset c p sel storageOffset globalOffset σ destFrame w = plan[w]?) ∧
    ∀ i, (∀ t, sel t = true → globalOffset + storageOffset t ≠ i) →
      KernelCopySpecies.store cell box particleOffset c p sel storageOffset globalOffset σ destFrame i =
        destFrame i := by
  obtain ⟨hmem, hinj, a, rfl, hslots⟩ := h
  have hslot : ∀ t, sel t = true → a + storageOffset t < plan.length ∧
      destSlot cell sel storageOffset a t = some ((a + storageOffset t : ℕ) : ℤ) := fun t ht => by
    have hbound := (List.getElem?_eq_some_iff.mp (hslots t ht)).1
    refine ⟨hbound, ?_⟩
    rw [destSlot, if_pos ht, i32_eq (by omega) (by omega)]
    push_cast
    rfl
  have hslot_eq : ∀ t i, destSlot cell sel storageOffset a t = some i →
      sel t = true ∧ i = ((a + storageOffset t : ℕ) : ℤ) := fun t i hi => by
    by_cases ht : sel t = true
    · rw [(hslot t ht).2, Option.some_inj] at hi
      exact ⟨ht, hi.symm⟩
    · simp [destSlot, ht] at hi
  refine ⟨fun t ht => ⟨a + storageOffset t, by push_cast; rfl, (hslot t ht).1, ?_⟩, fun i hi => ?_⟩
  · rw [hslots t ht]
    refine scatter_of_mem _ _ (fun t₁ _ t₂ _ i h₁ h₂ => ?_) (mem_threadOrder σ t) (hslot t ht).2
    obtain ⟨hs₁, he₁⟩ := hslot_eq t₁ i h₁
    obtain ⟨hs₂, he₂⟩ := hslot_eq t₂ i h₂
    exact hinj t₁ t₂ hs₁ hs₂ (by omega)
  · refine scatter_of_forall_ne _ _ fun t _ ht => hi t (hslot_eq t i ht).1 ?_
    rw [(hslot_eq t i ht).2]
    push_cast
    rfl

theorem Planned.copy (hL : Linked box L) (hN : ∑ b, (box.contents (L (superCell b)) 1).card < 2^31)
    (h : Planned cell box particleOffset L superCell plan (m, phases))
    {storageOffset : Fin cell.cellsInSuperCell → ℕ} {globalOffset : ℤ}
    (hp : phases b = .copy p sel storageOffset globalOffset) (σ : Equiv.Perm (Fin cell.cellsInSuperCell)) :
    Planned cell box particleOffset L superCell plan
      ({ m with destFrame := store cell box particleOffset (superCell b) p sel storageOffset globalOffset σ m.destFrame },
        Function.update phases b (.frame (box.nextFrame p))) := by
  have hlt := (length_plan_le (s := (m, phases)) h.records).trans_lt hN
  have hreserved := h.reserved b p sel storageOffset globalOffset hp
  have hmem := hreserved.frame_mem
  obtain ⟨hself, hother⟩ := hreserved.store hlt σ m.destFrame
  refine ⟨h.counter, fun b' q hq => ?_, fun b' q sel' storageOffset' g hq => ?_, ?_, fun w hw => ?_, fun i hi => ?_⟩
  · by_cases hb : b' = b
    · subst hb
      have hnext : box.nextFrame p = some q := by simpa using hq
      rcases nextFrame_cases hL hmem with ⟨hnone, -⟩ | ⟨q', hq', hsome, -⟩
      · cases hnone.symm.trans hnext
      · obtain rfl : q' = q := Option.some_inj.mp (hsome.symm.trans hnext)
        exact hq'
    · exact h.frame_mem b' q (by simpa [Function.update_of_ne hb] using hq)
  · by_cases hb : b' = b
    · subst hb
      simp at hq
    · exact h.reserved b' q sel' storageOffset' g (by simpa [Function.update_of_ne hb] using hq)
  · rw [sum_update_add (a := 0), add_zero]
    · exact h.records
    · rw [add_zero, hp, takenRecords, takenRecords, taken_next hL hmem, taken]
  · by_cases hown : ∃ t, sel t = true ∧ globalOffset + storageOffset t = w
    · obtain ⟨t, ht, he⟩ := hown
      obtain ⟨w', he', -, hstore⟩ := hself t ht
      obtain rfl : w' = w := by exact_mod_cast he'.symm.trans he
      exact .inl hstore
    · push Not at hown
      rcases h.written w hw with hw | ⟨b', q, sel', storageOffset', g, t, hq, ht, hslot⟩
      · exact .inl ((hother w hown).trans hw)
      · have hb : b' ≠ b := by
          rintro rfl
          obtain ⟨rfl, rfl, rfl, rfl⟩ := Phase.copy.injEq .. ▸ hp.symm.trans hq
          exact hown t ht hslot
        exact .inr ⟨b', q, sel', storageOffset', g, t, (Function.update_of_ne hb _ _).trans hq, ht, hslot⟩
  · by_cases hown : ∃ t, sel t = true ∧ globalOffset + storageOffset t = i
    · obtain ⟨t, ht, rfl⟩ := hown
      obtain ⟨w, he, hw, -⟩ := hself t ht
      exact ⟨w, he, hw⟩
    · push Not at hown
      exact h.outside i fun hnone => hi ((hother i hown).trans hnone)

end Steps

/-- The host frame holds the record of every particle once, in the slots from 0 to `N`, and nothing else. -/
structure Written (cell : CellDescription D) (particleOffset : DataSpace D)
    (box : ParticlesBox D cell.cellsInSuperCell (Particle β)) (L : DataSpace D → List Ptr) (N : ℕ)
    (destFrame : ℤ → Option (Record D β)) : Prop where
  slots : (Multiset.range N).map (fun i : ℕ => destFrame i) = (records cell particleOffset box L).map some
  outside : ∀ i : ℤ, ¬(0 ≤ i ∧ i < N) → destFrame i = none

theorem Written.card {cell : CellDescription D} {particleOffset : DataSpace D}
    {box : ParticlesBox D cell.cellsInSuperCell (Particle β)} {L : DataSpace D → List Ptr} {N : ℕ}
    {destFrame : ℤ → Option (Record D β)} (h : Written cell particleOffset box L N destFrame) :
    N = numParticles cell box L := by
  rw [← card_records cell particleOffset, ← Multiset.card_map some, ← h.slots, Multiset.card_map, Multiset.card_range]

section Launch

variable {ι : Type*} [DecidableEq ι] {cell : CellDescription D}
  {box : ParticlesBox D cell.cellsInSuperCell (Particle β)} {particleOffset : DataSpace D}
  {L : DataSpace D → List Ptr} {superCell : ι → DataSpace D}
  {orders : Set (Equiv.Perm (Fin cell.cellsInSuperCell))} {destFrame : ℤ → Option (Record D β)}

/-- No slot from 2^31 on is ever written. -/
theorem Copied.slot_lt {filter : PositionFilter D}
    (h : Copied cell box filter particleOffset orders superCell destFrame) {i : ℤ} (hi : 2^31 ≤ i) :
    destFrame i = none := by
  obtain ⟨counter, hrun⟩ := h
  refine hrun.invariant (I := fun s => s.1.destFrame i = none) (fun b m m' phases phase hm hblock => ?_) rfl
  generalize phases b = before at hblock
  cases hblock with
  | reserve hσ hseen => exact hm
  | copy hσ =>
    refine (scatter_of_forall_ne _ _ fun t _ ht => ?_).trans hm
    unfold destSlot at ht
    split at ht
    case isTrue =>
      rw [Option.some_inj] at ht
      have := ht ▸ i32_lt _
      omega
    case isFalse => cases ht

variable [Fintype ι] (hcell : cell.Valid) (h : CompactState cell box L) (active : Bool)
  (hmem : ∀ b, superCell b ∈ cell.area) (hN : ∑ b, (box.contents (L (superCell b)) 1).card < 2^31)
include hcell h hmem hN

theorem planned_preserved : Preserved
    (fun b => Block cell box (KernelCountParticles.localDomainFilter cell active) particleOffset orders (superCell b))
    fun s => ∃ plan, Planned cell box particleOffset L superCell plan s := by
  rintro b m m' phases phase ⟨plan, hplan⟩ hblock
  generalize hphase : phases b = before at hblock
  cases hblock with
  | @reserve p σ seen hσ hseen =>
    have hsel : ∀ t, selected cell box (KernelCountParticles.localDomainFilter cell active) seen p t = true ↔
        box.multiMask p t = 1 := fun t => by
      simp only [selected, Bool.and_eq_true, beq_iff_eq]
      refine and_iff_left_of_imp fun hone => ?_
      exact PositionFilter.accepts_localDomain hcell (hseen t)
        (h.localCellIdx_lt _ (hmem b) p (hplan.frame_mem b p hphase) t hone) active
    exact hplan.reserve hN hphase hsel σ
  | @copy p sel storageOffset globalOffset σ hσ => exact ⟨plan, hplan.copy h.linked hN hphase σ⟩

omit [DecidableEq ι] hcell hmem hN in
theorem planned_start : Planned cell box particleOffset L superCell []
    (⟨0, fun _ => none⟩, fun b => .frame (box.firstFramePtr (superCell b))) where
  counter := rfl
  frame_mem b p hp := by
    rw [Phase.frame.injEq, h.linked.first] at hp
    exact List.mem_of_head? hp
  reserved b p sel storageOffset globalOffset hp := by cases hp
  records := by
    refine (Finset.sum_eq_zero fun b _ => ?_).symm
    rw [takenRecords]
    dsimp only
    rw [h.linked.first]
    cases hL : L (superCell b) with
    | nil => rfl
    | cons p l => simp [taken]
  written w hw := by simp at hw
  outside i hi := by simp at hi

/-- A launch on all supercells of CORE and BORDER writes the records of the particles. -/
theorem Copied.written (hinj : Function.Injective superCell) (harea : ∀ c ∈ cell.area, ∃ b, superCell b = c)
    (hcopied : Copied cell box (KernelCountParticles.localDomainFilter cell active) particleOffset orders superCell
      destFrame) : Written cell particleOffset box L (numParticles cell box L) destFrame := by
  obtain ⟨counter, hrun⟩ := hcopied
  obtain ⟨plan, hplan⟩ := hrun.invariant (planned_preserved hcell h active hmem hN) ⟨[], planned_start h⟩
  have hrecords : (plan : Multiset (Record D β)) = records cell particleOffset box L := by
    rw [hplan.records, records]
    exact Finset.sum_nbij superCell (fun b _ => hmem b) (hinj.injOn) (fun c hc => by
      obtain ⟨b, hb⟩ := harea c hc
      exact ⟨b, Finset.mem_coe.mpr (Finset.mem_univ b), hb⟩) fun b _ => rfl
  have hlen : plan.length = numParticles cell box L := by
    rw [← card_records cell particleOffset, ← hrecords, Multiset.coe_card]
  have hslot : ∀ w < plan.length, destFrame w = plan[w]? := fun w hw => by
    rcases hplan.written w hw with hw | ⟨b, p, sel, storageOffset, g, t, hp, -⟩
    · exact hw
    · cases hp
  refine ⟨?_, fun i hi => ?_⟩
  · have hlist : (List.range plan.length).map (fun i : ℕ => destFrame i) = plan.map some := by
      refine List.ext_getElem (by simp) fun w h₁ h₂ => ?_
      have hw : w < plan.length := by simpa using h₁
      rw [List.getElem_map, List.getElem_map, List.getElem_range, hslot w hw, List.getElem?_eq_getElem hw]
    rw [← hlen, ← hrecords, ← Multiset.coe_range, Multiset.map_coe, Multiset.map_coe, hlist]
  · by_contra hne
    obtain ⟨w, rfl, hw⟩ := hplan.outside i hne
    exact hi ⟨by omega, by omega⟩

/-- A launch can be brought to its end. -/
theorem exists_copied (horders : orders.Nonempty) : ∃ destFrame,
    Copied cell box (KernelCountParticles.localDomainFilter cell active) particleOffset orders superCell
      destFrame := by
  obtain ⟨σ, hσ⟩ := horders
  have hprogress : Progress (fun b => Block cell box (KernelCountParticles.localDomainFilter cell active) particleOffset
      orders (superCell b)) (fun b => rank (L (superCell b)))
      fun s => ∃ plan, Planned cell box particleOffset L superCell plan s := by
    rintro m phases ⟨plan, hplan⟩ b hb
    cases hphase : phases b with
    | frame q =>
      cases q with
      | none => simp [hphase, rank] at hb
      | some p =>
        have hlt := List.idxOf_lt_length_of_mem (hplan.frame_mem b p hphase)
        refine ⟨_, _, .reserve hσ fun _ => hmem b, ?_⟩
        simp only [rank]
        omega
    | copy p sel storageOffset globalOffset =>
      exact ⟨_, _, .copy hσ, rank_next h.linked (hplan.reserved b p sel _ _ hphase).frame_mem⟩
  obtain ⟨⟨⟨counter, destFrame⟩, phases⟩, hrun, hend⟩ := exists_complete
    (planned_preserved hcell h active hmem hN) hprogress ⟨[], planned_start h⟩
  obtain ⟨plan, hplan⟩ := hrun.invariant (planned_preserved hcell h active hmem hN) ⟨[], planned_start h⟩
  have hdone : phases = fun _ => .frame none := funext fun b => by
    have hb := hend b
    dsimp only at hb
    cases hphase : phases b with
    | frame q =>
      cases q with
      | none => rfl
      | some p =>
        have hlt := List.idxOf_lt_length_of_mem (hplan.frame_mem b p hphase)
        rw [hphase, rank] at hb
        omega
    | copy p sel storageOffset globalOffset =>
      have hlt := List.idxOf_lt_length_of_mem (hplan.reserved b p sel _ _ hphase).frame_mem
      rw [hphase, rank] at hb
      omega
  exact ⟨destFrame, counter, hdone ▸ hrun⟩

end Launch

end KernelCopySpecies

namespace ConcatListOfFrames

open KernelCopySpecies

variable {D : ℕ} {β : Type*}

def Copies (cell : CellDescription D) (box : ParticlesBox D cell.cellsInSuperCell (Particle β))
    (filter : PositionFilter D) (particleOffset : DataSpace D) (destFrame : ℤ → Option (Record D β)) : Prop :=
  let gridDim := (AreaMappingMethods.coreBorder cell.toMappingDescription).getGridDim
  Copied cell box filter particleOffset {1}
    (fun linearBlockIdx : Fin (∏ d, gridDim d).toNat =>
      cell.getSuperCellIndex (DataSpaceOperations.unmap gridDim linearBlockIdx)) destFrame

end ConcatListOfFrames

inductive CopyMethod
  | kernelCopySpecies
  | concatListOfFrames

open KernelCopySpecies

namespace CopyMethod

variable {D : ℕ} {β : Type*} (cell : CellDescription D)

def Copies (box : ParticlesBox D cell.cellsInSuperCell (Particle β)) (filter : PositionFilter D)
    (particleOffset : DataSpace D) (destFrame : ℤ → Option (Record D β)) : CopyMethod → Prop
  | kernelCopySpecies => KernelCopySpecies.Copies cell box filter particleOffset destFrame
  | concatListOfFrames => ConcatListOfFrames.Copies cell box filter particleOffset destFrame

/-- A family of blocks that takes every supercell of CORE and BORDER once. -/
structure Covers {ι : Type*} (superCell : ι → DataSpace D) : Prop where
  injective : Function.Injective superCell
  mem : ∀ b, superCell b ∈ cell.area
  surjective : ∀ c ∈ cell.area, ∃ b, superCell b = c

variable {cell}

theorem getSuperCellIndex_injective : Function.Injective cell.getSuperCellIndex := fun a b h => by
  funext d
  have := congrFun h d
  simp only [CellDescription.getSuperCellIndex] at this
  omega

theorem mem_launchBox {idx : DataSpace D} :
    idx ∈ launchBox (AreaMappingMethods.coreBorder cell.toMappingDescription).getGridDim ↔
      cell.getSuperCellIndex idx ∈ cell.area := by
  rw [CellDescription.mem_area]
  refine forall_congr' fun _ => ?_
  simp only [AreaMappingMethods.coreBorder, CellDescription.getSuperCellIndex]
  omega

theorem exists_getSuperCellIndex (c : DataSpace D) : ∃ idx, cell.getSuperCellIndex idx = c :=
  ⟨fun d => c d - cell.guardingSuperCells, funext fun _ => sub_add_cancel _ _⟩

theorem covers_blocks : Covers cell
    fun b : {idx // idx ∈ launchBox (AreaMappingMethods.coreBorder cell.toMappingDescription).getGridDim} =>
      cell.getSuperCellIndex b where
  injective := getSuperCellIndex_injective.comp Subtype.val_injective
  mem b := mem_launchBox.mp b.2
  surjective c hc := by
    obtain ⟨idx, rfl⟩ := @exists_getSuperCellIndex D cell c
    exact ⟨⟨idx, mem_launchBox.mpr hc⟩, rfl⟩

theorem covers_linear (hcell : cell.Valid) : Covers cell
    fun i : Fin (∏ d, (AreaMappingMethods.coreBorder cell.toMappingDescription).getGridDim d).toNat =>
      cell.getSuperCellIndex
        (DataSpaceOperations.unmap (AreaMappingMethods.coreBorder cell.toMappingDescription).getGridDim i) where
  injective i j h := by
    have hmap := congrArg
      (DataSpaceOperations.map (AreaMappingMethods.coreBorder cell.toMappingDescription).getGridDim)
      (getSuperCellIndex_injective h)
    rw [DataSpaceOperations.map_unmap hcell.dim, DataSpaceOperations.map_unmap hcell.dim] at hmap
    exact Fin.ext (by exact_mod_cast hmap)
  mem i := by
    have hi := i.isLt
    refine mem_launchBox.mp (DataSpaceOperations.unmap_mem hcell.dim (fun d => ?_) (by omega) (by omega))
    have := hcell.grid_pos d
    simp only [AreaMappingMethods.coreBorder]
    omega
  surjective c hc := by
    obtain ⟨idx, rfl⟩ := @exists_getSuperCellIndex D cell c
    have hidx := mem_launchBox.mpr hc
    obtain ⟨h0, h1⟩ := DataSpaceOperations.map_mem hcell.dim hidx
    refine ⟨⟨(DataSpaceOperations.map (AreaMappingMethods.coreBorder cell.toMappingDescription).getGridDim idx).toNat,
      by omega⟩, ?_⟩
    dsimp only
    rw [Int.toNat_of_nonneg h0, DataSpaceOperations.unmap_map hcell.dim hidx]

variable {box : ParticlesBox D cell.cellsInSuperCell (Particle β)} {L : DataSpace D → List Ptr}
  {particleOffset : DataSpace D} (hcell : cell.Valid) (h : CompactState cell box L) (active : Bool)
  (method : CopyMethod)

theorem Covers.sum_card {ι : Type*} [Fintype ι] {superCell : ι → DataSpace D} (hcovers : Covers cell superCell) :
    ∑ b, (box.contents (L (superCell b)) 1).card = numParticles cell box L :=
  Finset.sum_nbij superCell (fun b _ => hcovers.mem b) hcovers.injective.injOn (fun c hc => by
    obtain ⟨b, hb⟩ := hcovers.surjective c hc
    exact ⟨b, Finset.mem_coe.mpr (Finset.mem_univ b), hb⟩) fun _ _ => rfl

include hcell h

theorem written (hN : numParticles cell box L < 2^31) {destFrame : ℤ → Option (Record D β)}
    (hcopies : Copies cell box (KernelCountParticles.localDomainFilter cell active) particleOffset destFrame method) :
    Written cell particleOffset box L (numParticles cell box L) destFrame := by
  cases method with
  | kernelCopySpecies =>
    have := @finite_launchBox D (AreaMappingMethods.coreBorder cell.toMappingDescription).getGridDim
    have := Fintype.ofFinite
      {idx // idx ∈ launchBox (AreaMappingMethods.coreBorder cell.toMappingDescription).getGridDim}
    have hcovers := @covers_blocks D cell
    exact Copied.written hcell h active hcovers.mem (hcovers.sum_card.trans_lt hN) hcovers.injective
      hcovers.surjective hcopies
  | concatListOfFrames =>
    have hcovers := covers_linear hcell
    exact Copied.written hcell h active hcovers.mem (hcovers.sum_card.trans_lt hN) hcovers.injective
      hcovers.surjective hcopies

theorem exists_copies (hN : numParticles cell box L < 2^31) : ∃ destFrame : ℤ → Option (Record D β),
    Copies cell box (KernelCountParticles.localDomainFilter cell active) particleOffset destFrame method := by
  cases method with
  | kernelCopySpecies =>
    have := @finite_launchBox D (AreaMappingMethods.coreBorder cell.toMappingDescription).getGridDim
    have := Fintype.ofFinite
      {idx // idx ∈ launchBox (AreaMappingMethods.coreBorder cell.toMappingDescription).getGridDim}
    have hcovers := @covers_blocks D cell
    exact exists_copied hcell h active hcovers.mem (hcovers.sum_card.trans_lt hN) ⟨1, Set.mem_univ _⟩
  | concatListOfFrames =>
    have hcovers := covers_linear hcell
    exact exists_copied hcell h active hcovers.mem (hcovers.sum_card.trans_lt hN) ⟨1, rfl⟩

omit hcell h in
theorem slot_lt {filter : PositionFilter D} {destFrame : ℤ → Option (Record D β)}
    (hcopies : Copies cell box filter particleOffset destFrame method) {i : ℤ} (hi : 2^31 ≤ i) :
    destFrame i = none := by
  cases method with
  | kernelCopySpecies => exact Copied.slot_lt hcopies hi
  | concatListOfFrames => exact Copied.slot_lt hcopies hi

end CopyMethod

end PIConGPU
