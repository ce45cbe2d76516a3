import PIConGPU.SupercellContents

/-!
# Particles that are added to a supercell

A block appends frames to the list of its supercell and stores new particles in free slots. What was there before
stays as it is. In a round of the block every thread may add a particle: the threads take the slots of the frame in
work from an atomic counter, and those that get no slot any more use the next frame.
-/
namespace PIConGPU.ParticlesBox

open BlockThreads FrameContents

variable {D T : ℕ} {α : Type*}

/-- An empty frame at the end of the list. Without a valid frame the kernel fails. -/
def appendFrame (M : MallocMC) (superCellIdx : DataSpace D) (box : ParticlesBox D T α) :
    Option (Ptr × ParticlesBox D T α) :=
  match box.getEmptyFrame M with
  | (some frame, box) => some (frame, box.setAsLastFrame frame superCellIdx)
  | (none, _) => none

/-- Supercell `c` has got the given frames and particles. Frames in `S` may have been filled up. -/
structure Created (r : ℕ) (box : ParticlesBox D T α) (L : DataSpace D → List Ptr) (c : DataSpace D) (S : Set Ptr)
    (frames : List Ptr) (created : Multiset α) (box' : ParticlesBox D T α) : Prop where
  linked : Linked box' (Function.update L c (L c ++ frames))
  attempts : (box'.attempts + 12) % maxTries = r
  subset : box.allocated ⊆ box'.allocated
  fresh : ∀ q ∈ frames, q ∉ box.allocated
  elsewhere : ∀ q ∈ box.allocated, q ∉ S → box'.multiMask q = box.multiMask q ∧ box'.attributes q = box.attributes q
  kept : ∀ q ∈ box.allocated, ∀ i, box.multiMask q i ≠ 0 →
    box'.multiMask q i = box.multiMask q i ∧ box'.attributes q i = box.attributes q i
  contents_one : box'.contents (L c ++ frames) 1 = box.contents (L c) 1 + created
  contents_eq : ∀ m, 2 ≤ m → box'.contents (L c ++ frames) m = box.contents (L c) m
  sizeLastFrame : box'.sizeLastFrame = box.sizeLastFrame
  mustShift : box'.mustShift = box.mustShift

variable {M : MallocMC} {r : ℕ} {box box' : ParticlesBox D T α} {L : DataSpace D → List Ptr} {c : DataSpace D}
  {S : Set Ptr} {frames : List Ptr} {created : Multiset α}

theorem map_filter_eq_sum {ι : Type*} [Fintype ι] {p : ι → Prop} [DecidablePred p] (f : ι → α) :
    (Finset.univ.filter p).val.map f = ∑ t, if p t then {f t} else 0 := by
  rw [← Finset.sum_filter, Finset.sum, ← Multiset.sum_map_singleton (Multiset.map _ _), Multiset.map_map]
  rfl

theorem created_refl (hlinked : Linked box L) (hattempts : (box.attempts + 12) % maxTries = r) (c : DataSpace D)
    (S : Set Ptr) : Created r box L c S [] 0 box where
  linked := by rwa [List.append_nil, Function.update_eq_self]
  attempts := hattempts
  subset := subset_rfl
  fresh := by simp
  elsewhere _ _ _ := ⟨rfl, rfl⟩
  kept _ _ _ _ := ⟨rfl, rfl⟩
  contents_one := by rw [List.append_nil, add_zero]
  contents_eq _ _ := by rw [List.append_nil]
  sizeLastFrame := rfl
  mustShift := rfl

theorem Created.mem_allocated (h : Created r box L c S frames created box') {q : Ptr} (hq : q ∈ L c ++ frames) :
    q ∈ box'.allocated :=
  h.linked.allocated c q (by rwa [Function.update_self])

theorem Created.nodup (h : Created r box L c S frames created box') : (L c ++ frames).Nodup := by
  have hnd := h.linked.nodup c
  rwa [Function.update_self] at hnd

/-- The new particles are in the new frames if no other frame was filled up. -/
theorem Created.contents_frames (h : Created r box L c ∅ frames created box') (hL : Linked box L) :
    box'.contents frames 1 = created := by
  have hold : box'.contents (L c) 1 = box.contents (L c) 1 := contents_congr
    (fun q hq => (h.elsewhere q (hL.allocated c q hq) (Set.notMem_empty q)).1)
    fun q hq => (h.elsewhere q (hL.allocated c q hq) (Set.notMem_empty q)).2
  have hone := h.contents_one
  rw [contents_append, hold] at hone
  exact Multiset.add_right_inj.mp hone

theorem Created.append (hM : MallocMC.Serves M r) (h : Created r box L c S frames created box') :
    ∃ frame box'', appendFrame M c box' = some (frame, box'') ∧
      Created r box L c S (frames ++ [frame]) created box'' ∧ box''.multiMask frame = fun _ => 0 := by
  obtain ⟨p, box₁, heq, halloc, hr, -⟩ := getEmptyFrame_spec hM h.attempts
  obtain ⟨hp, hpa, hempty⟩ := halloc.fresh p rfl
  have hpL : ∀ c', p ∉ Function.update L c (L c ++ frames) c' := fun c' hc' => hp (h.linked.allocated c' p hc')
  have hlinked := (halloc.linked h.linked).setAsLastFrame hpL hpa c
  rw [Function.update_self, Function.update_idem, List.append_assoc] at hlinked
  have hmask : ∀ q ∈ box'.allocated, (box₁.setAsLastFrame p c).multiMask q = box'.multiMask q := fun q hq => by
    rw [setAsLastFrame_multiMask, halloc.multiMask q hq]
  have hattributes : (box₁.setAsLastFrame p c).attributes = box'.attributes := by
    rw [setAsLastFrame_attributes, halloc.attributes]
  have hempty' : (box₁.setAsLastFrame p c).multiMask p = fun _ => 0 := by rw [setAsLastFrame_multiMask, hempty]
  have hcontents : ∀ m, m ≠ 0 →
      (box₁.setAsLastFrame p c).contents (L c ++ (frames ++ [p])) m = box'.contents (L c ++ frames) m := fun m hm => by
    rw [← List.append_assoc, contents_append_empty hempty' hm]
    exact contents_congr (fun q hq => hmask q (h.mem_allocated hq)) fun q _ => by rw [hattributes]
  refine ⟨p, box₁.setAsLastFrame p c, by rw [appendFrame, heq], ?_, hempty'⟩
  refine ⟨hlinked, by rw [setAsLastFrame_attempts, hr], ?_, fun q hq => ?_, fun q hq hS => ?_, fun q hq i hi => ?_, ?_,
    fun m hm => ?_, ?_, ?_⟩
  · rw [setAsLastFrame_allocated]
    exact h.subset.trans halloc.subset
  · rcases List.mem_append.mp hq with hq | hq
    · exact h.fresh q hq
    · obtain rfl : q = p := by simpa using hq
      exact fun hbox => hp (h.subset hbox)
  · rw [hmask q (h.subset hq), hattributes]
    exact h.elsewhere q hq hS
  · rw [hmask q (h.subset hq), hattributes]
    exact h.kept q hq i hi
  · rw [hcontents 1 one_ne_zero, h.contents_one]
  · rw [hcontents m (by omega), h.contents_eq m hm]
  · rw [setAsLastFrame_sizeLastFrame, halloc.sizeLastFrame, h.sizeLastFrame]
  · rw [setAsLastFrame_mustShift, halloc.mustShift, h.mustShift]

theorem Created.store (h : Created r box L c S frames created box') {threads : List (Fin T)} (hall : ∀ t, t ∈ threads) {dest : Fin T → Option (Ptr × Fin T)}
    (hinj : ∀ t t' a, dest t = some a → dest t' = some a → t = t') (value : Fin T → α)
    (hdest : ∀ t q i, dest t = some (q, i) → (q ∈ frames ∨ q ∈ L c ∧ q ∈ S) ∧ box'.multiMask q i = 0) :
    Created r box L c S frames (created + (Finset.univ.filter fun t => (dest t).isSome = true).val.map value)
      (box'.store threads dest value) := by
  have hmem : ∀ t q i, dest t = some (q, i) → q ∈ L c ++ frames := fun t q i ht =>
    List.mem_append.mpr ((hdest t q i ht).1.elim .inr fun hq => .inl hq.1)
  have hfree : ∀ q ∈ L c ++ frames, ∀ t i, dest t = some (q, i) → box'.multiMask q i = 0 := fun q _ t i ht =>
    (hdest t q i ht).2
  refine ⟨h.linked.congr rfl rfl (fun _ _ _ => rfl) (fun _ _ _ => rfl) h.linked.allocated, h.attempts, h.subset, h.fresh,
    fun q hq hS => ?_, fun q hq i hi => ?_, ?_, fun m hm => ?_, h.sizeLastFrame, h.mustShift⟩
  · have hne : ∀ t i, dest t ≠ some (q, i) := fun t i ht =>
      (hdest t q i ht).1.elim (fun hf => h.fresh q hf hq) fun hf => hS hf.2
    rw [store_multiMask_frame value box' hne, store_attributes_frame value box' hne]
    exact h.elsewhere q hq hS
  · obtain ⟨hmask, hattributes⟩ := h.kept q hq i hi
    have hne : ∀ t, dest t ≠ some (q, i) := fun t ht => hi (hmask.symm.trans (hdest t q i ht).2)
    rw [store_multiMask_of_ne value box' hne, store_attributes_of_ne value box' hne]
    exact ⟨hmask, hattributes⟩
  · have hfilter : (Finset.univ.filter fun t => ∃ q ∈ L c ++ frames, ∃ i, dest t = some (q, i)) =
        Finset.univ.filter fun t => (dest t).isSome = true := by
      refine Finset.filter_congr fun t _ => ⟨?_, fun ht => ?_⟩
      · rintro ⟨q, -, i, ht⟩
        rw [ht]
        rfl
      · obtain ⟨⟨q, i⟩, hqi⟩ := Option.isSome_iff_exists.mp ht
        exact ⟨q, hmem t q i hqi, i, hqi⟩
    rw [contents_store value hall hinj h.nodup hfree, h.contents_one, add_assoc, hfilter]
  · rw [contents_store_of_ne value hall hinj hm hfree, h.contents_eq m hm]

def empty (D T : ℕ) (a : α) : ParticlesBox D T α where
  multiMask _ _ := 0
  attributes _ _ := a
  previousFrame _ := none
  nextFrame _ := none
  firstFramePtr _ := none
  lastFramePtr _ := none
  mustShift _ := false
  sizeLastFrame _ := 0
  allocated := ∅
  attempts := 0

theorem linked_empty (a : α) : Linked (empty D T a) fun _ => [] where
  first _ := rfl
  last _ := rfl
  next _ _ _ _ he := by simp at he
  previous _ _ _ _ he := by simp at he
  nodup _ := List.nodup_nil
  disjoint _ _ _ h := absurd h List.not_mem_nil
  allocated _ _ h := absurd h List.not_mem_nil

def singleFrame {α : Type*} (a : α) : ParticlesBox 2 1 α :=
  ParticlesBox.setAsLastFrame { empty 2 1 a with multiMask := fun _ _ => 1, allocated := {0} } 0 ![1, 1]

theorem linked_singleFrame {α : Type*} (a : α) : Linked (singleFrame a) (Function.update (fun _ => []) ![1, 1] [0]) := by
  have hempty : Linked { empty 2 1 a with multiMask := fun _ _ => 1, allocated := {0} } fun _ => [] :=
    (linked_empty a).congr rfl rfl (fun _ _ _ => rfl) (fun _ _ _ => rfl) fun _ _ h => absurd h List.not_mem_nil
  exact hempty.setAsLastFrame (fun _ => List.not_mem_nil) (Finset.mem_singleton_self 0) ![1, 1]

theorem compact_singleFrame {α : Type*} (a : α) :
    Compact (singleFrame a) (Function.update (fun _ => []) ![1, 1] [0] (![1, 1] : DataSpace 2)) 1 := by
  rw [Function.update_self]
  refine ⟨filled_of_full fun q _ i => ?_, fun h => absurd h (List.cons_ne_nil _ _), le_rfl⟩
  rw [singleFrame, setAsLastFrame_multiMask]
  exact one_ne_zero

section Round

def slot (T k : ℕ) : Option (Fin T) := if h : k < T then some ⟨k, h⟩ else none

/-- Threads whose number is a slot of the frame write there. -/
def firstFlush (threads : List (Fin T)) (id : Fin T → Option ℕ) (value : Fin T → α) (frame : Ptr)
    (box : ParticlesBox D T α) : ParticlesBox D T α :=
  box.store threads (fun t => (id t).bind fun k => (slot T k).map fun i => (frame, i)) value

/-- A full frame is replaced by a new one, and the fill level is set back. -/
def renewFrame (M : MallocMC) (superCellIdx : DataSpace D) (level : ℕ) (frame : Ptr) (box : ParticlesBox D T α) :
    Option (ℕ × Ptr × ParticlesBox D T α) :=
  if T ≤ level then (appendFrame M superCellIdx box).map fun next => (level - T, next)
  else some (level, frame, box)

def secondFlush (threads : List (Fin T)) (id : Fin T → Option ℕ) (value : Fin T → α) (frame : Ptr)
    (box : ParticlesBox D T α) : ParticlesBox D T α :=
  box.store threads
    (fun t => (id t).bind fun k => if T ≤ k then (slot T (k - T)).map fun i => (frame, i) else none) value

/-- The threads of `wants` draw numbers from a counter that is at `level`. -/
def drawNumbers (wants : Fin T → Bool) (order : Equiv.Perm (Fin T)) (level : ℕ) : ℕ × (Fin T → Option ℕ) :=
  let drawn := fetchAddAll (fun t => if wants t then some () else none) (threadOrder order) fun _ => level
  (drawn.1 (), fun t => if wants t then some (drawn.2 t) else none)

structure Numbered (id : Fin T → Option ℕ) (k k' : ℕ) : Prop where
  le : ∀ t j, id t = some j → k ≤ j
  lt : ∀ t j, id t = some j → j < k'
  inj : ∀ t t' j, id t = some j → id t' = some j → t = t'

structure Room (box : ParticlesBox D T α) (old : List Ptr) (S : Set Ptr) (frames : List Ptr) (frame : Ptr) (k : ℕ) :
    Prop where
  mem : frame ∈ frames ∨ frame ∈ old ∧ frame ∈ S
  free : ∀ i : Fin T, k ≤ i.val → box.multiMask frame i = 0
  le : k ≤ T

section Draw

variable (wants : Fin T → Bool) (order : Equiv.Perm (Fin T)) (k : ℕ)

theorem drawNumbers_level :
    (drawNumbers wants order k).1 = k + (Finset.univ.filter fun t => wants t = true).card := by
  have h := (tickets_threadOrder (fun t => if wants t then some () else none) (fun _ => k) order).counter_eq ()
  refine h.trans (congrArg _ (congrArg _ (Finset.filter_congr fun t _ => ?_)))
  cases wants t <;> simp

theorem isSome_drawNumbers (t : Fin T) : ((drawNumbers wants order k).2 t).isSome = wants t := by
  simp only [drawNumbers]
  cases wants t <;> rfl

theorem drawNumbers_le : k ≤ (drawNumbers wants order k).1 ∧ (drawNumbers wants order k).1 ≤ k + T := by
  rw [drawNumbers_level]
  have hcard := Finset.card_filter_le (Finset.univ : Finset (Fin T)) fun t => wants t = true
  rw [Finset.card_univ, Fintype.card_fin] at hcard
  omega

/-- The counter stays as it is if nobody draws. -/
theorem drawNumbers_eq_iff : k = (drawNumbers wants order k).1 ↔ ∀ t, wants t = false := by
  rw [drawNumbers_level, left_eq_add, Finset.card_eq_zero, Finset.filter_eq_empty_iff]
  simp

theorem drawNumbers_numbered : Numbered (drawNumbers wants order k).2 k (drawNumbers wants order k).1 := by
  have h := tickets_threadOrder (fun t => if wants t then some () else none) (fun _ => k) order
  have hwants : ∀ t j, (drawNumbers wants order k).2 t = some j → wants t = true ∧
      (fetchAddAll (fun t => if wants t then some () else none) (threadOrder order) fun _ => k).2 t = j := fun t j ht => by
    simp only [drawNumbers] at ht
    split_ifs at ht with hw
    exact ⟨hw, Option.some.inj ht⟩
  refine ⟨fun t j ht => ?_, fun t j ht => ?_, fun t t' j ht ht' => ?_⟩
  · obtain ⟨hw, rfl⟩ := hwants t j ht
    exact h.le t (Finset.mem_univ t) () (if_pos hw)
  · obtain ⟨hw, rfl⟩ := hwants t j ht
    exact h.lt t (Finset.mem_univ t) () (if_pos hw)
  · obtain ⟨hw, rfl⟩ := hwants t j ht
    obtain ⟨hw', he⟩ := hwants t' _ ht'
    exact h.inj t (Finset.mem_univ t) t' (Finset.mem_univ t') () (if_pos hw) (if_pos hw') he.symm

end Draw

theorem slot_eq_some {k : ℕ} {i : Fin T} : slot T k = some i ↔ k = i.val := by
  unfold slot
  split_ifs with h
  · rw [Option.some_inj, Fin.ext_iff]
  · simp only [false_iff]
    omega

theorem isSome_slot {k : ℕ} : (slot T k).isSome = true ↔ k < T := by
  unfold slot
  split_ifs with h <;> simp [h]

variable {threads : List (Fin T)} {id : Fin T → Option ℕ} {value : Fin T → α} {frame : Ptr} {k k' : ℕ}

theorem firstDest_eq_some {t : Fin T} {q : Ptr} {i : Fin T} :
    ((id t).bind fun k => (slot T k).map fun i => (frame, i)) = some (q, i) ↔ q = frame ∧ id t = some i.val := by
  cases id t with
  | none => simp
  | some j =>
    rw [Option.bind_some, Option.map_eq_some_iff, Option.some_inj]
    constructor
    · rintro ⟨a, ha, he⟩
      obtain ⟨rfl, rfl⟩ := Prod.mk.inj he
      exact ⟨rfl, slot_eq_some.mp ha⟩
    · rintro ⟨rfl, rfl⟩
      exact ⟨i, slot_eq_some.mpr rfl, rfl⟩

theorem secondDest_eq_some {t : Fin T} {q : Ptr} {i : Fin T} :
    ((id t).bind fun k => if T ≤ k then (slot T (k - T)).map fun i => (frame, i) else none) = some (q, i) ↔
      q = frame ∧ id t = some (T + i.val) := by
  cases id t with
  | none => simp
  | some j =>
    rw [Option.bind_some]
    split_ifs with hj
    · rw [Option.map_eq_some_iff, Option.some_inj]
      constructor
      · rintro ⟨a, ha, he⟩
        obtain ⟨rfl, rfl⟩ := Prod.mk.inj he
        have := slot_eq_some.mp ha
        exact ⟨rfl, by omega⟩
      · rintro ⟨rfl, rfl⟩
        exact ⟨i, slot_eq_some.mpr (Nat.add_sub_cancel_left ..), rfl⟩
    · simp only [Option.some_inj, false_iff, not_and]
      omega

theorem firstFlush_of_none (h : ∀ t, id t = none) : firstFlush threads id value frame box = box := by
  have hdest : ∀ t q i, ((id t).bind fun k => (slot T k).map fun i => (frame, i)) ≠ some (q, i) := fun t q i ht => by
    rw [h t] at ht
    exact nomatch ht
  have hmask : (firstFlush threads id value frame box).multiMask = box.multiMask :=
    funext fun q => store_multiMask_frame value box fun t i => hdest t q i
  have hattributes : (firstFlush threads id value frame box).attributes = box.attributes :=
    funext fun q => store_attributes_frame value box fun t i => hdest t q i
  calc firstFlush threads id value frame box = { box with
        multiMask := (firstFlush threads id value frame box).multiMask
        attributes := (firstFlush threads id value frame box).attributes } := rfl
    _ = box := by rw [hmask, hattributes]

theorem secondFlush_congr {value' : Fin T → α} (h : ∀ t j, id t = some j → T ≤ j → value t = value' t) :
    secondFlush threads id value frame box = secondFlush threads id value' frame box := by
  have hvalue : ∀ t a, ((id t).bind fun k => if T ≤ k then (slot T (k - T)).map fun i => (frame, i) else none) = some a →
      value t = value' t := fun t a ht => h t _ (secondDest_eq_some.mp ht).2 (Nat.le_add_right ..)
  rw [secondFlush, secondFlush, ParticlesBox.store, ParticlesBox.store, scatter_congr _ _ hvalue]

/-- The threads of the two flushes are those with a number. -/
theorem filter_flush (hlt : ∀ t j, id t = some j → j < T + T) (frame frame' : Ptr) :
    (Finset.univ.filter fun t => ((id t).bind fun k => (slot T k).map fun i => (frame, i)).isSome = true).val.map value +
      (Finset.univ.filter fun t => ((id t).bind fun k =>
        if T ≤ k then (slot T (k - T)).map fun i => (frame', i) else none).isSome = true).val.map value =
    (Finset.univ.filter fun t => (id t).isSome = true).val.map value := by
  rw [← Multiset.map_add, ← Finset.disjUnion_val _ _ (Finset.disjoint_filter.mpr fun t _ h h' => ?_)]
  · congr 2
    ext t
    rw [Finset.mem_disjUnion, Finset.mem_filter, Finset.mem_filter, Finset.mem_filter]
    cases hid : id t with
    | none => simp
    | some j =>
      have hj := hlt t j hid
      by_cases hjT : j < T
      · simp [isSome_slot, hjT]
      · have hsub : j - T < T := by omega
        simp [isSome_slot, hjT, not_lt.mp hjT, hsub]
  · obtain ⟨⟨q, i⟩, hqi⟩ := Option.isSome_iff_exists.mp h
    obtain ⟨⟨q', i'⟩, hqi'⟩ := Option.isSome_iff_exists.mp h'
    have he := (firstDest_eq_some.mp hqi).2.symm.trans (secondDest_eq_some.mp hqi').2
    rw [Option.some_inj] at he
    omega

theorem Created.round (hM : MallocMC.Serves M r) (hall : ∀ t, t ∈ threads)
    (h : Created r box L c S frames created box') (hroom : Room box' (L c) S frames frame k) (hid : Numbered id k k')
    (hk : k ≤ k') (hk' : k' ≤ k + T) : ∃ level frame' box'' frames',
      renewFrame M c k' frame (firstFlush threads id value frame box') = some (level, frame', box'') ∧
      level = (if T ≤ k' then k' - T else k') ∧
      Created r box L c S frames' (created + (Finset.univ.filter fun t => (id t).isSome = true).val.map value)
        (secondFlush threads id value frame' box'') ∧
      Room (secondFlush threads id value frame' box'') (L c) S frames' frame' level := by
  have hle := hroom.le
  have hlt : ∀ t j, id t = some j → j < T + T := fun t j hj => by
    have := hid.lt t j hj
    omega
  have hinj : ∀ t t' a, ((id t).bind fun k => (slot T k).map fun i => (frame, i)) = some a →
      ((id t').bind fun k => (slot T k).map fun i => (frame, i)) = some a → t = t' := fun t t' a ht ht' =>
    hid.inj t t' _ (firstDest_eq_some.mp ht).2 (firstDest_eq_some.mp ht').2
  have hinj' : ∀ frame' t t' a,
      ((id t).bind fun k => if T ≤ k then (slot T (k - T)).map fun i => (frame', i) else none) = some a →
      ((id t').bind fun k => if T ≤ k then (slot T (k - T)).map fun i => (frame', i) else none) = some a → t = t' :=
    fun frame' t t' a ht ht' => hid.inj t t' _ (secondDest_eq_some.mp ht).2 (secondDest_eq_some.mp ht').2
  have hfirst := h.store hall hinj value fun t q i ht => by
    obtain ⟨rfl, hti⟩ := firstDest_eq_some.mp ht
    exact ⟨hroom.mem, hroom.free i (hid.le t _ hti)⟩
  by_cases hfull : T ≤ k'
  · obtain ⟨frame', box'', happend, hcreated, hempty⟩ := hfirst.append hM
    have hsecond := hcreated.store hall (hinj' frame') value fun t q i ht => by
      obtain ⟨rfl, -⟩ := secondDest_eq_some.mp ht
      exact ⟨.inl (by simp), by rw [hempty]⟩
    rw [add_assoc, filter_flush hlt] at hsecond
    refine ⟨k' - T, frame', box'', frames ++ [frame'], ?_, (if_pos hfull).symm, hsecond, .inl (by simp), fun i hi => ?_,
      by omega⟩
    · rw [renewFrame, if_pos hfull, firstFlush, happend, Option.map_some]
    · refine (store_multiMask_of_ne value box'' fun t ht => ?_).trans (by rw [hempty])
      have := hid.lt t _ (secondDest_eq_some.mp ht).2
      omega
  · have hnone : ∀ t q i,
        ((id t).bind fun k => if T ≤ k then (slot T (k - T)).map fun i => (frame, i) else none) ≠ some (q, i) :=
      fun t q i ht => by
        have := hid.lt t _ (secondDest_eq_some.mp ht).2
        omega
    have hsecond := hfirst.store hall (hinj' frame) value fun t q i ht => absurd ht (hnone t q i)
    rw [add_assoc, filter_flush hlt] at hsecond
    refine ⟨k', frame, _, frames, by rw [renewFrame, if_neg hfull, firstFlush], (if_neg hfull).symm, hsecond, hroom.mem,
      fun i hi => ?_, by omega⟩
    refine (store_multiMask_of_ne value _ fun t => hnone t frame i).trans ?_
    refine (store_multiMask_of_ne value box' fun t ht => ?_).trans (hroom.free i (by omega))
    have := hid.lt t _ (firstDest_eq_some.mp ht).2
    omega

end Round

end PIConGPU.ParticlesBox
