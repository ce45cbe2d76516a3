import PIConGPU.ShiftDestinations

/-!
# One source frame of KernelShiftParticles

The copies of the threads fill the frame in work of every direction from its counter on, in the
order of the tickets. What a whole source frame does to a direction is stated on its view.
-/
namespace PIConGPU.KernelShiftParticles

open BlockThreads FrameContents ParticlesBox

variable {D T : ℕ} {α : Type*} {M : MallocMC} {exact : Prop} {r : ℕ} {c : DataSpace D}
  {st st' : ShiftBlock D T α} {L : DataSpace D → List Ptr}

def deliver (N : ℕ → Multiset α) (X : Multiset α) (m : ℕ) : Multiset α := if m = 1 then N 1 + X else N m

def movedTo (target : Fin T → Option (ℕ × ℕ)) (j : ℕ) : Finset (Fin T) :=
  Finset.univ.filter fun t => (target t).map Prod.fst = some j

theorem mem_movedTo {target : Fin T → Option (ℕ × ℕ)} {j : ℕ} {t : Fin T} :
    t ∈ movedTo target j ↔ ∃ i, target t = some (j, i) := by
  simp [movedTo]

/-- The effect of the copies: only frames in work change, each in a range of slots. -/
structure Copied (c : DataSpace D) (L : DataSpace D → List Ptr) (frame : Ptr)
    (target : Fin T → Option (ℕ × ℕ)) (st st' : ShiftBlock D T α) : Prop where
  destFrames : st'.destFrames = st.destFrames
  destFramesCounter : st'.destFramesCounter = st.destFramesCounter
  isNeighborFrame : st'.isNeighborFrame = st.isNeighborFrame
  sizeLastFrame : st'.box.sizeLastFrame = st.box.sizeLastFrame
  mustShift : st'.box.mustShift = st.box.mustShift
  allocated : st'.box.allocated = st.box.allocated
  untouched : ∀ q, (∀ j, j + 1 < numberOfExchanges D → st.destFrames j ≠ some q) →
    st'.box.multiMask q = st.box.multiMask q ∧ st'.box.attributes q = st.box.attributes q
  holds : ∀ j, j + 1 < numberOfExchanges D → ∀ k k' N, k ≤ k' → k' ≤ T →
    (∀ t i, target t = some (j, i) → k ≤ i ∧ i < k') →
    (∀ i, k ≤ i → i < k' → ∃ t, target t = some (j, i)) →
    (view c L st j).holds (level T (st.destFrames j) k) N →
    (view c L st' j).holds (level T (st.destFrames j) k')
      (deliver N ((movedTo target j).val.map (st.box.attributes frame)))

theorem copy_spec (h : Destinations exact r c st L) (σ : Equiv.Perm (Fin T)) (frame : Ptr)
    {target : Fin T → Option (ℕ × ℕ)}
    (htarget : ∀ t a, target t = some a → a.1 + 1 < numberOfExchanges D ∧ st.destFrames a.1 ≠ none ∧ a.2 < T)
    (hinj : ∀ t t' a, target t = some a → target t' = some a → t = t') :
    ∃ st', copy σ frame target st = some st' ∧ Destinations exact r c st' L ∧ Copied c L frame target st st' := by
  set dest : Fin T → Option (Ptr × Fin T) := fun t => (target t).bind fun a =>
    (st.destFrames a.1).bind fun p => if h : a.2 < T then some (p, ⟨a.2, h⟩) else none with hdest
  have hdest_iff : ∀ t p i, dest t = some (p, i) ↔
      ∃ d, target t = some (d, i.val) ∧ st.destFrames d = some p := by
    intro t p i
    rw [hdest]
    constructor
    · intro he
      obtain ⟨a, ha, he⟩ := Option.bind_eq_some_iff.mp he
      obtain ⟨q, hq, he⟩ := Option.bind_eq_some_iff.mp he
      rw [dif_pos (htarget t a ha).2.2] at he
      obtain ⟨rfl, rfl⟩ := Prod.mk.inj (Option.some.inj he)
      exact ⟨a.1, ha, hq⟩
    · rintro ⟨d, ht, hp⟩
      simp [ht, hp]
  have hdinj : ∀ t t' a, dest t = some a → dest t' = some a → t = t' := by
    rintro t t' ⟨p, i⟩ ht ht'
    obtain ⟨d, hd, hp⟩ := (hdest_iff t p i).mp ht
    obtain ⟨d', hd', hp'⟩ := (hdest_iff t' p i).mp ht'
    have hb := (htarget t _ hd).1
    have hb' := (htarget t' _ hd').1
    obtain rfl : d = d' := h.dest_inj (by omega) (by omega) hp hp'
    exact hinj t t' _ hd hd'
  refine ⟨{ st with box := st.box.store (threadOrder σ) dest (st.box.attributes frame) }, ?_, ?_, ?_⟩
  · rw [copy, if_pos]
    intro t a ha
    obtain ⟨-, hne, hlt⟩ := htarget t a (by simpa using ha)
    exact ⟨Option.isSome_iff_ne_none.mpr hne, hlt⟩
  · exact ⟨h.linked.congr rfl rfl (fun _ _ _ => rfl) (fun _ _ _ => rfl) h.linked.allocated, h.attempts,
      h.neighbor, h.fresh, h.distinct, h.accounted⟩
  · refine ⟨rfl, rfl, rfl, rfl, rfl, rfl, fun q hq => ?_, fun j hj k k' N hk hk' hlt hex hN => ?_⟩
    · have hnot : ∀ t i, dest t ≠ some (q, i) := by
        intro t i ht
        obtain ⟨d, hd, hp⟩ := (hdest_iff t q i).mp ht
        exact hq d (htarget t _ hd).1 hp
      exact ⟨store_multiMask_frame _ _ hnot, store_attributes_frame _ _ hnot⟩
    · cases hd : st.destFrames j with
      | none =>
        have hnone : ∀ t i, target t ≠ some (j, i) := fun t i ht => (htarget t _ ht).2.1 hd
        have hmoved : movedTo target j = ∅ := by
          ext t
          simp [mem_movedTo, hnone]
        have hdeliver : deliver N ((movedTo target j).val.map (st.box.attributes frame)) = N := by
          funext m
          by_cases hm : m = 1 <;> simp [deliver, hmoved, hm]
        rw [hdeliver]
        rw [hd] at hN
        have hnot : ∀ q ∈ chain c L st j, ∀ t i, dest t ≠ some (q, i) := by
          intro q hq t i ht
          obtain ⟨d, hdt, hp⟩ := (hdest_iff t q i).mp ht
          rw [chain_of_none hd] at hq
          have hb := (htarget t _ hdt).1
          have := relative_inj (c := c) (by omega) (by omega) (h.mem_list (by omega) hp hq).1
          subst this
          simp [hd] at hp
        exact hN.congr (fun q hq => store_multiMask_frame _ _ (hnot q hq))
          fun q hq => store_attributes_frame _ _ (hnot q hq)
      | some p =>
        obtain ⟨l, hchain, hpl⟩ := h.chain_eq (by omega) hd
        rw [hd] at hN
        have hlevel : ∀ n, level T (some p) n = n := fun n => by simp [level]
        have hview : ∀ n, (view c L st j).holds n N → Holds st.box (l ++ [p]) n N := fun n hn => hchain ▸ hn
        have hN' := hview k (hlevel k ▸ hN)
        have hp_iff : ∀ t i, dest t = some (p, i) ↔ target t = some (j, i.val) := by
          intro t i
          rw [hdest_iff]
          constructor
          · rintro ⟨d, hdt, hp⟩
            have hb := (htarget t _ hdt).1
            obtain rfl : d = j := h.dest_inj (by omega) (by omega) hp hd
            exact hdt
          · exact fun ht => ⟨j, ht, hd⟩
        have hl : ∀ q ∈ l, ∀ t i, dest t ≠ some (q, i) := by
          intro q hq t i ht
          obtain ⟨d, hdt, hp⟩ := (hdest_iff t q i).mp ht
          have hb := (htarget t _ hdt).1
          have hqc : q ∈ chain c L st j := by simp [hchain, hq]
          by_cases hdj : d = j
          · subst hdj
            obtain rfl : p = q := by simpa [hd] using hp
            exact hpl hq
          · rcases List.mem_append.mp hqc with hqL | hqd
            · exact hdj (relative_inj (c := c) (by omega) (by omega)
                (h.mem_list (by omega) hp hqL).1).symm
            · cases hn : st.isNeighborFrame j with
              | true => simp [hn] at hqd
              | false =>
                obtain rfl : q = p := by simpa [hn, hd] using hqd
                exact hpl hq
        obtain ⟨hfilled, hc2, hc1⟩ := hN'.filled.store (st.box.attributes frame) (mem_threadOrder σ) hdinj hk hl
          (fun t i ht => hlt t i ((hp_iff t i).mp ht))
          fun i hi hi' => by
            obtain ⟨t, ht⟩ := hex i hi hi'
            exact ⟨t, (hp_iff t i).mpr ht⟩
        have hmoved : (Finset.univ.filter fun t => ∃ i, dest t = some (p, i)) = movedTo target j := by
          ext t
          rw [mem_movedTo, Finset.mem_filter]
          simp only [Finset.mem_univ, true_and]
          constructor
          · rintro ⟨i, hi⟩
            exact ⟨i, (hp_iff t i).mp hi⟩
          · rintro ⟨i, hi⟩
            exact ⟨⟨i, (htarget t _ hi).2.2⟩, (hp_iff t _).mpr hi⟩
        have hgoal : Holds (st.box.store (threadOrder σ) dest (st.box.attributes frame)) (l ++ [p]) k'
            (deliver N ((movedTo target j).val.map (st.box.attributes frame))) := by
          refine ⟨hfilled, fun m hm => ?_⟩
          by_cases h1 : m = 1
          · subst h1
            rw [hc1, hmoved, hN'.contents_eq 1 le_rfl]
            simp [deliver]
          · rw [hc2 m (by omega), hN'.contents_eq m hm]
            simp [deliver, h1]
        rw [hlevel]
        rw [← hchain] at hgoal
        exact hgoal

theorem direction_eq_some {m j : ℕ} : direction m = some j ↔ m = j + 2 := by
  unfold direction
  split <;> simp <;> omega

def marked (mask : Fin T → ℕ) (j : ℕ) : ℕ := (Finset.univ.filter fun t => mask t = j + 2).card

theorem marked_le (mask : Fin T → ℕ) (j : ℕ) : marked mask j ≤ T := by
  simpa [marked] using Finset.card_filter_le (Finset.univ : Finset (Fin T)) fun t => mask t = j + 2

theorem drawn_tickets (σ : Equiv.Perm (Fin T)) (frame : Ptr) (st : ShiftBlock D T α) :
    Tickets (fun t => direction (st.box.multiMask frame t)) Finset.univ st.destFramesCounter
      (drawn σ frame st).1 (drawn σ frame st).2 :=
  tickets_threadOrder _ _ σ

theorem drawn_counter (σ : Equiv.Perm (Fin T)) (frame : Ptr) (st : ShiftBlock D T α) (j : ℕ) :
    (drawn σ frame st).1 j = st.destFramesCounter j + marked (st.box.multiMask frame) j := by
  rw [(drawn_tickets σ frame st).counter_eq j]
  simp only [direction_eq_some, marked]

/-- The state of a direction before a source frame; `v₀` is its view at the start of the block. -/
structure Head (T : ℕ) (v₀ v : View α) : Prop where
  counter_of_none : v.destFrame = none → v.counter = 0
  counter_pos : v.destFrame ≠ none → v.isNeighborFrame = false → 0 < v.counter
  counter_le : v.counter ≤ T
  size_le : v.size ≤ T
  size_le_counter : v.isNeighborFrame = true → v.size ≤ v.counter
  size_eq : v.isNeighborFrame = false → v₀.frames ≠ [] → v.size = T
  frames_ne_nil : v₀.frames ≠ [] → v.frames ≠ []
  unchanged_of_nil : v₀.frames = [] → v.isNeighborFrame = false ∧ v.size = v₀.size

theorem Head.congr {v₀ v v' : View α} (h : Head T v₀ v) (hd : v'.destFrame = v.destFrame)
    (hc : v'.counter = v.counter) (hn : v'.isNeighborFrame = v.isNeighborFrame) (hf : v'.frames = v.frames)
    (hs : v'.size = v.size) : Head T v₀ v' := by
  obtain ⟨h1, h2, h3, h4, h5, h6, h7, h8⟩ := h
  rw [← hd, ← hc] at h1
  rw [← hd, ← hn, ← hc] at h2
  rw [← hc] at h3
  rw [← hs] at h4
  rw [← hn, ← hs, ← hc] at h5
  rw [← hn, ← hs] at h6
  rw [← hf] at h7
  rw [← hn, ← hs] at h8
  exact ⟨h1, h2, h3, h4, h5, h6, h7, h8⟩

/-- The state before the flush: particles with a place below the tile size are stored. -/
structure Stored (c : DataSpace D) (L : DataSpace D → List Ptr) (σ : Equiv.Perm (Fin T)) (frame : Ptr)
    (st st' : ShiftBlock D T α) : Prop where
  destFramesCounter : ∀ j < numberOfExchanges D, st'.destFramesCounter j = (drawn σ frame st).1 j
  isNeighborFrame : ∀ j < numberOfExchanges D, st'.isNeighborFrame j = st.isNeighborFrame j
  destFrame_ne_none : ∀ j < numberOfExchanges D, 0 < (drawn σ frame st).1 j → st'.destFrames j ≠ none
  destFrames : ∀ j < numberOfExchanges D, st.destFrames j ≠ none ∨ (drawn σ frame st).1 j = 0 →
    st'.destFrames j = st.destFrames j
  sizeLastFrame : st'.box.sizeLastFrame = st.box.sizeLastFrame
  mustShift : st'.box.mustShift = st.box.mustShift
  allocated : st.box.allocated ⊆ st'.box.allocated
  untouched : ∀ s, (∀ j, j + 1 < numberOfExchanges D → s ≠ relative c j) → ∀ q ∈ L s,
    (q ≠ frame → st'.box.multiMask q = st.box.multiMask q) ∧ st'.box.attributes q = st.box.attributes q
  deleted : st'.box.multiMask frame =
    fun t => if 2 ≤ st.box.multiMask frame t then 0 else st.box.multiMask frame t
  holds : ∀ j, j + 1 < numberOfExchanges D → ∀ N,
    (view c L st j).holds (level T (st.destFrames j) (st.destFramesCounter j)) N →
    (view c L st' j).holds (level T (st'.destFrames j) (min ((drawn σ frame st).1 j) T))
      (deliver N ((Finset.univ.filter fun t => st.box.multiMask frame t = j + 2 ∧
        (drawn σ frame st).2 t < T).val.map (st.box.attributes frame)))

theorem Destinations.ne_frame (h : Destinations exact r c st L) {frame : Ptr} (hframe : frame ∈ L c) {j : ℕ}
    (hj : j + 1 < numberOfExchanges D) : st.destFrames j ≠ some frame := by
  intro hp
  exact relative_ne_own c hj (h.mem_list (by omega) hp hframe).1.symm

theorem Destinations.not_mem_chain (h : Destinations exact r c st L) {frame : Ptr} (hframe : frame ∈ L c) {j : ℕ}
    (hj : j + 1 < numberOfExchanges D) : frame ∉ chain c L st j := by
  intro hmem
  rcases List.mem_append.mp hmem with hL | hd
  · exact relative_ne_own c hj (h.linked.disjoint _ _ _ hL hframe)
  · cases hn : st.isNeighborFrame j with
    | true => simp [hn] at hd
    | false => exact h.ne_frame hframe hj (by simpa [hn] using hd)

theorem deleteMarked_destinations (h : Destinations exact r c st L) (σ : Equiv.Perm (Fin T)) (frame : Ptr) :
    Destinations exact r c (deleteMarked σ frame st) L :=
  ⟨h.linked.congr rfl rfl (fun _ _ _ => rfl) (fun _ _ _ => rfl) h.linked.allocated, h.attempts,
    h.neighbor, h.fresh, h.distinct, h.accounted⟩

theorem deleteMarked_holds (h : Destinations exact r c st L) (σ : Equiv.Perm (Fin T)) {frame : Ptr}
    (hframe : frame ∈ L c) {j : ℕ} (hj : j + 1 < numberOfExchanges D) {k : ℕ} {N : ℕ → Multiset α}
    (hN : (view c L st j).holds k N) : (view c L (deleteMarked σ frame st) j).holds k N := by
  refine Holds.congr hN (fun q hq => ?_) fun _ _ => rfl
  have hne : q ≠ frame := fun he => h.not_mem_chain hframe hj (he ▸ hq)
  exact Function.update_of_ne hne _ _

theorem allocate_loop (hM : MallocMC.Serves M r)
    (hexact : exact → MallocMC.ServesOnly M r) (h : Destinations exact r c st L) :
    Destinations exact r c ((List.range (numberOfExchanges D)).foldl (allocate M) st) L ∧
      (∀ j < numberOfExchanges D, Allocated T (view c L st j)
        (view c L ((List.range (numberOfExchanges D)).foldl (allocate M) st) j)) ∧
      Outside c st L ((List.range (numberOfExchanges D)).foldl (allocate M) st) L := by
  obtain ⟨st', L', hfold, hdest, hQ, hout⟩ := pass (f := fun st j => some (allocate M st j))
    (P := fun j v => v = view c L st j) (Q := fun j v => Allocated T (view c L st j) v)
    (fun st₁ L₁ h₁ j hj hv => by
      obtain ⟨hdest, halloc, ht⟩ := allocate_spec hM hexact h₁ hj
      exact ⟨_, L₁, rfl, hdest, hv ▸ halloc, ht⟩) h fun _ _ => rfl
  have hst : st' = (List.range (numberOfExchanges D)).foldl (allocate M) st := by
    have hpure : (List.range (numberOfExchanges D)).foldlM (fun st j => some (allocate M st j)) st =
        some ((List.range (numberOfExchanges D)).foldl (allocate M) st) := List.foldlM_pure
    rw [hpure] at hfold
    exact (Option.some.inj hfold).symm
  have hL : L' = L := by
    funext s
    by_cases hs : ∃ j < numberOfExchanges D, s = relative c j
    · obtain ⟨j, hj, rfl⟩ := hs
      exact (hQ j hj).frames
    · exact hout.lists s fun j hj he => hs ⟨j, hj, he⟩
  subst hst hL
  exact ⟨hdest, hQ, hout⟩

theorem size_eq_of_views {st' : ShiftBlock D T α} {L' : DataSpace D → List Ptr} (hout : Outside c st L st' L')
    (h : ∀ j < numberOfExchanges D, (view c L' st' j).size = (view c L st j).size) :
    st'.box.sizeLastFrame = st.box.sizeLastFrame := by
  funext s
  by_cases hs : ∃ j < numberOfExchanges D, s = relative c j
  · obtain ⟨j, hj, rfl⟩ := hs
    exact h j hj
  · exact hout.size s fun j hj he => hs ⟨j, hj, he⟩

section Frame

variable {v₀ : ℕ → View α} {σ : Equiv.Perm (Fin T)} {frame : Ptr}
  (hM : MallocMC.Serves M r) (hexact : exact → MallocMC.ServesOnly M r) (hT : 2 * T ≤ 65536) (h : Destinations exact r c st L)
  (hhead : ∀ j < numberOfExchanges D, Head T (v₀ j) (view c L st j)) (hframe : frame ∈ L c)
  (hmask : ∀ t, st.box.multiMask frame t ≤ numberOfExchanges D)

include hhead in
theorem drawn_le {j : ℕ} (hj : j < numberOfExchanges D) : (drawn σ frame st).1 j ≤ 2 * T := by
  have h1 := (hhead j hj).counter_le
  have h2 := marked_le (st.box.multiMask frame) j
  have h3 := drawn_counter σ frame st j
  simp only [view] at h1
  omega

include hT hhead hmask in
theorem destParticleIdx_eq {t : Fin T} (ht : 2 ≤ st.box.multiMask frame t) :
    destParticleIdx σ frame st t = (drawn σ frame st).2 t := by
  have hm := hmask t
  obtain ⟨j, hj⟩ : ∃ j, st.box.multiMask frame t = j + 2 := ⟨_, (Nat.sub_add_cancel ht).symm⟩
  have hlt := (drawn_tickets σ frame st).lt t (Finset.mem_univ t) j (direction_eq_some.mpr hj)
  have hle : (drawn σ frame st).1 j ≤ 2 * T := drawn_le hhead (by omega)
  exact Nat.mod_eq_of_lt (by omega)

def firstTarget (σ : Equiv.Perm (Fin T)) (frame : Ptr) (st : ShiftBlock D T α) (t : Fin T) : Option (ℕ × ℕ) :=
  (direction (st.box.multiMask frame t)).bind fun d =>
    if destParticleIdx σ frame st t < T then some (d, destParticleIdx σ frame st t) else none

def secondTarget (σ : Equiv.Perm (Fin T)) (frame : Ptr) (st : ShiftBlock D T α) (t : Fin T) : Option (ℕ × ℕ) :=
  (direction (st.box.multiMask frame t)).bind fun d =>
    if T ≤ destParticleIdx σ frame st t then some (d, destParticleIdx σ frame st t - T) else none

include hT hhead hmask in
theorem firstTarget_eq_some {t : Fin T} {j i : ℕ} :
    firstTarget σ frame st t = some (j, i) ↔
      st.box.multiMask frame t = j + 2 ∧ (drawn σ frame st).2 t = i ∧ i < T := by
  unfold firstTarget
  rw [Option.bind_eq_some_iff]
  constructor
  · rintro ⟨d, hd, he⟩
    rw [direction_eq_some] at hd
    split at he
    case isTrue hlt =>
      obtain ⟨rfl, rfl⟩ := Prod.mk.inj (Option.some.inj he)
      exact ⟨hd, (destParticleIdx_eq hT hhead hmask (by omega)).symm, hlt⟩
    case isFalse => simp at he
  · rintro ⟨hd, hi, hlt⟩
    refine ⟨j, direction_eq_some.mpr hd, ?_⟩
    rw [destParticleIdx_eq hT hhead hmask (by omega), hi, if_pos hlt]

include hT hhead hmask in
theorem secondTarget_eq_some {t : Fin T} {j i : ℕ} :
    secondTarget σ frame st t = some (j, i) ↔
      st.box.multiMask frame t = j + 2 ∧ (drawn σ frame st).2 t = i + T := by
  unfold secondTarget
  rw [Option.bind_eq_some_iff]
  constructor
  · rintro ⟨d, hd, he⟩
    rw [direction_eq_some] at hd
    have hidx := destParticleIdx_eq (σ := σ) hT hhead hmask (t := t) (by omega)
    rw [hidx] at he
    split at he
    case isTrue hle =>
      obtain ⟨rfl, rfl⟩ := Prod.mk.inj (Option.some.inj he)
      exact ⟨hd, (Nat.sub_add_cancel hle).symm⟩
    case isFalse => simp at he
  · rintro ⟨hd, hi⟩
    refine ⟨j, direction_eq_some.mpr hd, ?_⟩
    rw [destParticleIdx_eq hT hhead hmask (by omega), hi, if_pos (by omega), Nat.add_sub_cancel]

include hM hexact hT h hhead hframe hmask in
theorem stored_spec (σ : Equiv.Perm (Fin T)) :
    ∃ st', copy σ frame (firstTarget σ frame st)
        ((List.range (numberOfExchanges D)).foldl (allocate M) (deleteMarked σ frame st)) = some st' ∧
      Destinations exact r c st' L ∧ Stored c L σ frame st st' := by
  have h₁ := deleteMarked_destinations h σ frame
  obtain ⟨h₂, halloc, hout⟩ := allocate_loop hM hexact h₁
  set st₁ := deleteMarked σ frame st with hst₁
  set st₂ := (List.range (numberOfExchanges D)).foldl (allocate M) st₁ with hst₂
  have htickets := drawn_tickets σ frame st
  have hne : ∀ j < numberOfExchanges D, 0 < (drawn σ frame st).1 j → st₂.destFrames j ≠ none :=
    fun j hj hpos => (halloc j hj).destFrame_ne_none hpos
  have hkept : ∀ j < numberOfExchanges D, st.destFrames j ≠ none ∨ (drawn σ frame st).1 j = 0 →
      st₂.destFrames j = st.destFrames j := fun j hj hor => (halloc j hj).destFrame hor
  have htarget : ∀ t a, firstTarget σ frame st t = some a →
      a.1 + 1 < numberOfExchanges D ∧ st₂.destFrames a.1 ≠ none ∧ a.2 < T := by
    rintro t ⟨j, i⟩ ht
    obtain ⟨hm, -, hi⟩ := (firstTarget_eq_some hT hhead hmask).mp ht
    have hmt := hmask t
    have hlt := htickets.lt t (Finset.mem_univ t) j (direction_eq_some.mpr hm)
    exact ⟨by omega, hne j (by omega) (by omega), hi⟩
  have hinj : ∀ t t' a, firstTarget σ frame st t = some a → firstTarget σ frame st t' = some a → t = t' := by
    rintro t t' ⟨j, i⟩ ht ht'
    obtain ⟨hm, hi, -⟩ := (firstTarget_eq_some hT hhead hmask).mp ht
    obtain ⟨hm', hi', -⟩ := (firstTarget_eq_some hT hhead hmask).mp ht'
    exact htickets.inj t (Finset.mem_univ t) t' (Finset.mem_univ t') j (direction_eq_some.mpr hm)
      (direction_eq_some.mpr hm') (hi.trans hi'.symm)
  obtain ⟨st₃, hcopy, h₃, hcopied⟩ := copy_spec h₂ σ frame htarget hinj
  have hattr : st₂.box.attributes = st.box.attributes := hout.keeps.attributes
  have hne_dest : ∀ s, (∀ j, j + 1 < numberOfExchanges D → s ≠ relative c j) → ∀ q ∈ L s,
      ∀ j, j + 1 < numberOfExchanges D → st₂.destFrames j ≠ some q :=
    fun s hs q hq j hj hp => hs j hj (h₂.mem_list (by omega) hp hq).1
  refine ⟨st₃, hcopy, h₃, ⟨?_, ?_, ?_, ?_, ?_, ?_, ?_, ?_, ?_, ?_⟩⟩
  · rw [hcopied.destFramesCounter]
    exact fun j hj => (halloc j hj).counter
  · rw [hcopied.isNeighborFrame]
    exact fun j hj => (halloc j hj).isNeighborFrame
  · rw [hcopied.destFrames]
    exact hne
  · rw [hcopied.destFrames]
    exact hkept
  · rw [hcopied.sizeLastFrame, size_eq_of_views hout fun j hj => (halloc j hj).size]
    rfl
  · rw [hcopied.mustShift]
    exact hout.keeps.mustShift
  · rw [hcopied.allocated]
    exact hout.keeps.allocated
  · intro s hs q hq
    obtain ⟨hmq, haq⟩ := hcopied.untouched q (hne_dest s hs q hq)
    refine ⟨fun hqf => ?_, ?_⟩
    · rw [hmq, hout.keeps.multiMask q (h.linked.allocated s q hq)]
      exact Function.update_of_ne hqf _ _
    · rw [haq, hattr]
  · have hown : ∀ j, j + 1 < numberOfExchanges D → c ≠ relative c j :=
      fun j hj => (relative_ne_own c hj).symm
    rw [(hcopied.untouched frame (hne_dest c hown frame hframe)).1,
      hout.keeps.multiMask frame (h.linked.allocated c frame hframe)]
    exact Function.update_self _ _ _
  · intro j hj N hN
    have hj' : j < numberOfExchanges D := by omega
    have hmoved : movedTo (firstTarget σ frame st) j = Finset.univ.filter fun t =>
        st.box.multiMask frame t = j + 2 ∧ (drawn σ frame st).2 t < T := by
      ext t
      rw [mem_movedTo]
      simp [firstTarget_eq_some hT hhead hmask]
    have hN₂ := (halloc j hj').holds (st.destFramesCounter j) N (hhead j hj').counter_of_none
      (deleteMarked_holds h σ hframe hj hN)
    have hle := drawn_counter σ frame st j
    have hcle := (hhead j hj').counter_le
    simp only [view] at hcle
    have hN₃ := hcopied.holds j hj (st.destFramesCounter j) (min ((drawn σ frame st).1 j) T) N
      (by omega) (by omega) (fun t i ht => ?_) (fun i hi hi' => ?_) hN₂
    · rw [hmoved, hattr] at hN₃
      rw [hcopied.destFrames]
      exact hN₃
    · obtain ⟨hm, rfl, hi⟩ := (firstTarget_eq_some hT hhead hmask).mp ht
      have hd := direction_eq_some.mpr hm
      exact ⟨htickets.le t (Finset.mem_univ t) j hd,
        lt_min (htickets.lt t (Finset.mem_univ t) j hd) hi⟩
    · obtain ⟨t, -, hd, ht⟩ := htickets.exists_ticket hi (by omega : i < (drawn σ frame st).1 j)
      exact ⟨t, (firstTarget_eq_some hT hhead hmask).mpr ⟨direction_eq_some.mp hd, ht, by omega⟩⟩

/-- The counters after a source frame whose particles raised them to `s`. -/
def nextCounter (D T : ℕ) (s : ℕ → ℕ) (j : ℕ) : ℕ :=
  if (∃ i < numberOfExchanges D, T < s i) ∧ T ≤ s j then s j - T else s j

structure Shifted (c : DataSpace D) (frame : Ptr) (st : ShiftBlock D T α) (L : DataSpace D → List Ptr)
    (st' : ShiftBlock D T α) (L' : DataSpace D → List Ptr) : Prop where
  counter : ∀ j < numberOfExchanges D, st'.destFramesCounter j =
    nextCounter D T (fun i => st.destFramesCounter i + marked (st.box.multiMask frame) i) j
  kept : ∀ j < numberOfExchanges D, st.destFramesCounter j + marked (st.box.multiMask frame) j < T →
    (st.destFrames j ≠ none ∨ marked (st.box.multiMask frame) j = 0 → st'.destFrames j = st.destFrames j) ∧
      st'.isNeighborFrame j = st.isNeighborFrame j ∧ L' (relative c j) = L (relative c j) ∧
      st'.box.sizeLastFrame (relative c j) = st.box.sizeLastFrame (relative c j)
  holds : ∀ j, j + 1 < numberOfExchanges D → ∀ N,
    (view c L st j).holds (level T (st.destFrames j) (st.destFramesCounter j)) N →
    (view c L' st' j).holds (level T (st'.destFrames j) (st'.destFramesCounter j))
      (deliver N (particles (st.box.multiMask frame) (st.box.attributes frame) (j + 2)))
  outside : ∀ s, (∀ j < numberOfExchanges D, s ≠ relative c j) → L' s = L s ∧
    st'.box.sizeLastFrame s = st.box.sizeLastFrame s
  untouched : ∀ s, (∀ j, j + 1 < numberOfExchanges D → s ≠ relative c j) → ∀ q ∈ L s,
    (q ≠ frame → st'.box.multiMask q = st.box.multiMask q) ∧ st'.box.attributes q = st.box.attributes q
  deleted : st'.box.multiMask frame =
    fun t => if 2 ≤ st.box.multiMask frame t then 0 else st.box.multiMask frame t
  mustShift : st'.box.mustShift = st.box.mustShift

theorem deliver_deliver (N : ℕ → Multiset α) (X Y : Multiset α) :
    deliver (deliver N X) Y = deliver N (X + Y) := by
  funext m
  by_cases hm : m = 1 <;> simp [deliver, hm, add_assoc]

theorem particles_split (mask : Fin T → ℕ) (attr : Fin T → α) (m : ℕ) (p : Fin T → Prop) [DecidablePred p] :
    particles mask attr m = (Finset.univ.filter fun t => mask t = m ∧ p t).val.map attr +
      (Finset.univ.filter fun t => mask t = m ∧ ¬p t).val.map attr := by
  rw [particles, ← Finset.filter_filter, ← Finset.filter_filter, ← Multiset.map_add]
  congr 1
  exact (Multiset.filter_add_not p _).symm

include hT hhead hmask in
/-- The flag is set exactly when a counter has passed the tile size. -/
theorem anyDestFrameFull_iff :
    (∃ t, (direction (st.box.multiMask frame t)).isSome = true ∧ T ≤ destParticleIdx σ frame st t) ↔
      ∃ j < numberOfExchanges D, T < st.destFramesCounter j + marked (st.box.multiMask frame) j := by
  have htickets := drawn_tickets σ frame st
  constructor
  · rintro ⟨t, hsome, hle⟩
    obtain ⟨j, hj⟩ := Option.isSome_iff_exists.mp hsome
    have hlt := htickets.lt t (Finset.mem_univ t) j hj
    have hm := direction_eq_some.mp hj
    have hmt := hmask t
    rw [destParticleIdx_eq hT hhead hmask (by omega)] at hle
    rw [drawn_counter] at hlt
    exact ⟨j, by omega, by omega⟩
  · rintro ⟨j, hj, hlt⟩
    rw [← drawn_counter σ] at hlt
    obtain ⟨t, -, hd, ht⟩ := htickets.exists_ticket (hhead j hj).counter_le hlt
    have hm := direction_eq_some.mp hd
    refine ⟨t, by simp [hd], ?_⟩
    rw [destParticleIdx_eq hT hhead hmask (by omega), ht]

variable (hpos : 0 < T) {st' : ShiftBlock D T α} {L' : DataSpace D → List Ptr}

include hhead in
theorem Stored.head {j : ℕ} (hj : j < numberOfExchanges D) (hs : Stored c L σ frame st st')
    (hle : (drawn σ frame st).1 j ≤ T) : Head T (v₀ j) (view c L st' j) := by
  have hh := hhead j hj
  have hsize : (view c L st' j).size = (view c L st j).size := congrFun hs.sizeLastFrame _
  have hcounter : (view c L st' j).counter = (drawn σ frame st).1 j := hs.destFramesCounter j hj
  have hnb : (view c L st' j).isNeighborFrame = (view c L st j).isNeighborFrame := hs.isNeighborFrame j hj
  have hge : (view c L st j).counter ≤ (drawn σ frame st).1 j := by
    rw [drawn_counter]
    exact Nat.le_add_right _ _
  refine ⟨fun hd => ?_, fun hd hn => ?_, by rw [hcounter]; exact hle, by rw [hsize]; exact hh.size_le,
    fun hn => ?_, fun hn hst => ?_, hh.frames_ne_nil, fun hnil => ?_⟩
  · rw [hcounter]
    by_contra h0
    exact hs.destFrame_ne_none j hj (Nat.pos_of_ne_zero h0) hd
  · rw [hcounter]
    by_contra h0
    have h0' : (drawn σ frame st).1 j = 0 := by omega
    have hd' : (view c L st j).destFrame ≠ none := by
      have := hs.destFrames j hj (.inr h0')
      exact fun he => hd (this.trans he)
    have := hh.counter_pos hd' (hnb ▸ hn)
    omega
  · rw [hsize, hcounter]
    exact (hh.size_le_counter (hnb ▸ hn)).trans hge
  · rw [hsize]
    exact hh.size_eq (hnb ▸ hn) hst
  · rw [hsize, hnb]
    exact hh.unchanged_of_nil hnil

include hhead in
theorem Stored.kept_destFrame {j : ℕ} (hj : j < numberOfExchanges D) (hs : Stored c L σ frame st st')
    (hor : st.destFrames j ≠ none ∨ marked (st.box.multiMask frame) j = 0) :
    st'.destFrames j = st.destFrames j := by
  refine hs.destFrames j hj ?_
  by_cases hd : st.destFrames j = none
  · right
    rw [drawn_counter, hor.resolve_left fun hne => hne hd]
    exact (hhead j hj).counter_of_none hd
  · exact .inl hd

include hhead in
theorem Stored.shifted (hs : Stored c L σ frame st st')
    (hnot : ¬∃ j < numberOfExchanges D, T < st.destFramesCounter j + marked (st.box.multiMask frame) j) :
    Shifted c frame st L st' L ∧ ∀ j < numberOfExchanges D, Head T (v₀ j) (view c L st' j) := by
  have hle : ∀ j < numberOfExchanges D, (drawn σ frame st).1 j ≤ T := fun j hj => by
    rw [drawn_counter]
    exact not_lt.mp fun hlt => hnot ⟨j, hj, hlt⟩
  refine ⟨⟨fun j hj => ?_, fun j hj hlt => ⟨fun hor => hs.kept_destFrame hhead hj hor, hs.isNeighborFrame j hj, rfl,
      congrFun hs.sizeLastFrame _⟩,
    fun j hj N hN => ?_, fun s _ => ⟨rfl, congrFun hs.sizeLastFrame s⟩, hs.untouched, hs.deleted,
    hs.mustShift⟩, fun j hj => hs.head hhead hj (hle j hj)⟩
  · rw [hs.destFramesCounter j hj, drawn_counter, nextCounter, if_neg fun hand => hnot hand.1]
  · have hj' : j < numberOfExchanges D := by omega
    have hN' := hs.holds j hj N hN
    rw [min_eq_left (hle j hj')] at hN'
    have hall : (Finset.univ.filter fun t => st.box.multiMask frame t = j + 2 ∧ (drawn σ frame st).2 t < T) =
        Finset.univ.filter fun t => st.box.multiMask frame t = j + 2 := by
      refine Finset.filter_congr fun t _ => and_iff_left_of_imp fun hm => ?_
      exact ((drawn_tickets σ frame st).lt t (Finset.mem_univ t) j (direction_eq_some.mpr hm)).trans_le
        (hle j hj')
    rw [hall] at hN'
    rw [hs.destFramesCounter j hj']
    exact hN'

omit hframe hmask in
include hT hhead hpos in
theorem Flushed.head {j : ℕ} (hj : j < numberOfExchanges D) (hs : Stored c L σ frame st st') {v : View α}
    (hf : Flushed T (view c L st' j) v) (hle : T ≤ (drawn σ frame st).1 j) : Head T (v₀ j) v := by
  have hh := hhead j hj
  have hcounter : (view c L st' j).counter = (drawn σ frame st).1 j := hs.destFramesCounter j hj
  have hle2 : (drawn σ frame st).1 j ≤ 2 * T := drawn_le hhead hj
  have hTmod : T % 65536 = T := Nat.mod_eq_of_lt (by omega)
  have hnb : (view c L st' j).isNeighborFrame = (view c L st j).isNeighborFrame := hs.isNeighborFrame j hj
  have hsz : (view c L st' j).size = (view c L st j).size := congrFun hs.sizeLastFrame _
  have hsize : v.size = if (view c L st j).isNeighborFrame then T else (view c L st j).size := by
    rw [hf.size, hTmod, hnb, hsz]
  have hd := hf.destFrame
  rw [hcounter] at hd
  have hc := hf.counter
  rw [hcounter] at hc
  refine ⟨fun hnone => ?_, fun hsome _ => ?_, by omega, ?_, fun hn => ?_, fun _ hst => ?_,
    fun _ => hf.frames, fun hnil => ⟨hf.isNeighborFrame, ?_⟩⟩
  · have := hd.mp hnone
    omega
  · have := mt hd.mpr hsome
    omega
  · rw [hsize]
    split
    · exact le_rfl
    · exact hh.size_le
  · simp [hf.isNeighborFrame] at hn
  · rw [hsize]
    split
    · rfl
    case isFalse hn => exact hh.size_eq (by simpa using hn) hst
  · obtain ⟨hn, hs₀⟩ := hh.unchanged_of_nil hnil
    rw [hsize, hn]
    exact hs₀

include hM hexact hT hhead hframe hmask hpos in
/-- Some destination overflows: all full frames are handed over before the second copy. -/
theorem Stored.flushed (hs : Stored c L σ frame st st') (h' : Destinations exact r c st' L)
    (hown : st.destFramesCounter (numberOfExchanges D - 1) < T)
    (hfull : ∃ j < numberOfExchanges D, T < st.destFramesCounter j + marked (st.box.multiMask frame) j) :
    ∃ st'' L'', ((List.range (numberOfExchanges D)).foldlM (flush M c) st').bind
        (copy σ frame (secondTarget σ frame st)) = some st'' ∧ Destinations exact r c st'' L'' ∧
      Shifted c frame st L st'' L'' ∧ ∀ j < numberOfExchanges D, Head T (v₀ j) (view c L'' st'' j) := by
  obtain ⟨st₄, L₄, hfold, h₄, hQ, hout⟩ := pass (f := flush M c) (P := fun j v => v = view c L st' j)
    (Q := fun j v => if T ≤ (drawn σ frame st).1 j then Flushed T (view c L st' j) v else v = view c L st' j)
    (fun st₁ L₁ h₁ j hj hv => by
      have hcounter : st₁.destFramesCounter j = (drawn σ frame st).1 j :=
        (congrArg View.counter hv).trans (hs.destFramesCounter j hj)
      obtain ⟨st₂, L₂, hflush, h₂, hQ, ht⟩ := flush_spec hM hexact h₁ hj fun hle hd => by
        refine hs.destFrame_ne_none j hj (by omega) ?_
        exact (congrArg View.destFrame hv).symm.trans hd
      rw [hcounter] at hQ
      exact ⟨st₂, L₂, hflush, h₂, hv ▸ hQ, ht⟩) h' fun _ _ => rfl
  have htickets := drawn_tickets σ frame st
  have hflushed : ∀ j < numberOfExchanges D, T ≤ (drawn σ frame st).1 j →
      Flushed T (view c L st' j) (view c L₄ st₄ j) := fun j hj hle => by simpa [hle] using hQ j hj
  have hsame : ∀ j < numberOfExchanges D, (drawn σ frame st).1 j < T → view c L₄ st₄ j = view c L st' j :=
    fun j hj hlt => by simpa [not_le.mpr hlt] using hQ j hj
  have hcounter' : ∀ j < numberOfExchanges D, (view c L st' j).counter = (drawn σ frame st).1 j :=
    hs.destFramesCounter
  have htarget : ∀ t a, secondTarget σ frame st t = some a →
      a.1 + 1 < numberOfExchanges D ∧ st₄.destFrames a.1 ≠ none ∧ a.2 < T := by
    rintro t ⟨j, i⟩ ht
    obtain ⟨hm, hi⟩ := (secondTarget_eq_some hT hhead hmask).mp ht
    have hmt := hmask t
    have hlt := htickets.lt t (Finset.mem_univ t) j (direction_eq_some.mpr hm)
    have hj : j < numberOfExchanges D := by omega
    have hle : (drawn σ frame st).1 j ≤ 2 * T := drawn_le hhead hj
    refine ⟨by omega, fun hd => ?_, by omega⟩
    have := (hflushed j hj (by omega)).destFrame.mp hd
    rw [hcounter' j hj] at this
    omega
  have hinj : ∀ t t' a, secondTarget σ frame st t = some a → secondTarget σ frame st t' = some a → t = t' := by
    rintro t t' ⟨j, i⟩ ht ht'
    obtain ⟨hm, hi⟩ := (secondTarget_eq_some hT hhead hmask).mp ht
    obtain ⟨hm', hi'⟩ := (secondTarget_eq_some hT hhead hmask).mp ht'
    exact htickets.inj t (Finset.mem_univ t) t' (Finset.mem_univ t') j (direction_eq_some.mpr hm)
      (direction_eq_some.mpr hm') (hi.trans hi'.symm)
  obtain ⟨st₅, hcopy, h₅, hcopied⟩ := copy_spec h₄ σ frame htarget hinj
  have hview : ∀ j, (view c L₄ st₅ j).destFrame = (view c L₄ st₄ j).destFrame ∧
      (view c L₄ st₅ j).counter = (view c L₄ st₄ j).counter ∧
      (view c L₄ st₅ j).isNeighborFrame = (view c L₄ st₄ j).isNeighborFrame ∧
      (view c L₄ st₅ j).frames = (view c L₄ st₄ j).frames ∧
      (view c L₄ st₅ j).size = (view c L₄ st₄ j).size := fun j => by
    simp [view, hcopied.destFrames, hcopied.destFramesCounter, hcopied.isNeighborFrame,
      hcopied.sizeLastFrame]
  have hnext : ∀ j < numberOfExchanges D, st₅.destFramesCounter j =
      if T ≤ (drawn σ frame st).1 j then (drawn σ frame st).1 j - T else (drawn σ frame st).1 j := by
    intro j hj
    have h5 : st₅.destFramesCounter j = (view c L₄ st₄ j).counter := (hview j).2.1
    rw [h5]
    split
    case isTrue hle => rw [(hflushed j hj hle).counter, hcounter' j hj]
    case isFalse hlt => rw [hsame j hj (by omega), hcounter' j hj]
  have hE : 0 < numberOfExchanges D := by
    unfold numberOfExchanges
    positivity
  have hownc : ∀ j, j + 1 < numberOfExchanges D → c ≠ relative c j := fun j hj => (relative_ne_own c hj).symm
  have hlists : ∀ s, (∀ j, j + 1 < numberOfExchanges D → s ≠ relative c j) → L₄ s = L s := by
    intro s hnb
    by_cases hsc : s = c
    · subst hsc
      have hm : marked (st.box.multiMask frame) (numberOfExchanges D - 1) = 0 := by
        refine Finset.card_eq_zero.mpr (Finset.filter_eq_empty_iff.mpr fun t _ he => ?_)
        have := hmask t
        omega
      have hv := hsame (numberOfExchanges D - 1) (by omega) (by rw [drawn_counter, hm]; exact hown)
      have hf := congrArg View.frames hv
      simpa [view, relative_own] using hf
    · refine hout.lists s fun j hj he => ?_
      rcases Nat.lt_or_ge (j + 1) (numberOfExchanges D) with hlt | hge
      · exact hnb j hlt he
      · obtain rfl : j = numberOfExchanges D - 1 := by omega
        exact hsc (he.trans (relative_own c))
  have hattr : st₄.box.attributes frame = st.box.attributes frame := by
    rw [hout.keeps.attributes]
    exact (hs.untouched c hownc frame hframe).2
  refine ⟨st₅, L₄, ?_, h₅, ⟨fun j hj => ?_, fun j hj hlt => ?_, fun j hj N hN => ?_, fun s hnb => ?_,
    fun s hnb q hq => ?_, ?_, ?_⟩, fun j hj => ?_⟩
  · rw [hfold]
    exact hcopy
  · rw [hnext j hj, nextCounter, drawn_counter]
    simp only [hfull, true_and]
  · rw [← drawn_counter σ] at hlt
    obtain ⟨hd, -, hn, hf, hsz⟩ := hview j
    rw [hsame j hj hlt] at hd hn hf hsz
    exact ⟨fun hor => hd.trans (hs.kept_destFrame hhead hj hor), hn.trans (hs.isNeighborFrame j hj), hf,
      hsz.trans (congrFun hs.sizeLastFrame _)⟩
  · have hj' : j < numberOfExchanges D := by omega
    have hN' := hs.holds j hj N hN
    have hmoved : movedTo (secondTarget σ frame st) j = Finset.univ.filter fun t =>
        st.box.multiMask frame t = j + 2 ∧ ¬(drawn σ frame st).2 t < T := by
      ext t
      simp only [mem_movedTo, secondTarget_eq_some hT hhead hmask, Finset.mem_filter, Finset.mem_univ,
        true_and, exists_and_left, not_lt]
      refine and_congr_right fun _ => ⟨fun hex => ?_, fun hle => ⟨_, (Nat.sub_add_cancel hle).symm⟩⟩
      obtain ⟨i, hi⟩ := hex
      omega
    rw [particles_split _ _ _ fun t => (drawn σ frame st).2 t < T, ← deliver_deliver, ← hattr, ← hmoved,
      hcopied.destFrames, hnext j hj']
    by_cases hle : T ≤ (drawn σ frame st).1 j
    · have hd' : st'.destFrames j ≠ none := hs.destFrame_ne_none j hj' (by omega)
      rw [level, if_neg hd', min_eq_right hle] at hN'
      have hle2 : (drawn σ frame st).1 j ≤ 2 * T := drawn_le hhead hj'
      rw [if_pos hle]
      refine hcopied.holds j hj 0 _ _ (by omega) (by omega) (fun t i ht => ⟨by omega, ?_⟩)
        (fun i _ hi => ?_) ?_
      · obtain ⟨hm, hi⟩ := (secondTarget_eq_some hT hhead hmask).mp ht
        have := htickets.lt t (Finset.mem_univ t) j (direction_eq_some.mpr hm)
        omega
      · have hcle := (hhead j hj').counter_le
        simp only [view] at hcle
        obtain ⟨t, -, hd, ht⟩ := htickets.exists_ticket (k := j) (i := i + T) (by omega) (by omega)
        exact ⟨t, (secondTarget_eq_some hT hhead hmask).mpr ⟨direction_eq_some.mp hd, ht⟩⟩
      · rw [hattr]
        exact (hflushed j hj' hle).holds _ hN'
    · rw [if_neg hle]
      have hlt : (drawn σ frame st).1 j < T := not_le.mp hle
      rw [min_eq_left hlt.le] at hN'
      have hv := hsame j hj' hlt
      have hd₄ : st₄.destFrames j = st'.destFrames j := congrArg View.destFrame hv
      refine hcopied.holds j hj _ _ _ le_rfl hlt.le (fun t i ht => ?_) (fun i hi hi' => by omega) ?_
      · obtain ⟨hm, hi⟩ := (secondTarget_eq_some hT hhead hmask).mp ht
        have := htickets.lt t (Finset.mem_univ t) j (direction_eq_some.mpr hm)
        omega
      · rw [hattr, hv, hd₄]
        exact hN'
  · exact ⟨hout.lists s hnb, by rw [hcopied.sizeLastFrame, hout.size s hnb, hs.sizeLastFrame]⟩
  · obtain ⟨hm₅, ha₅⟩ := hcopied.untouched q fun j hj hp =>
      hnb j hj (h₄.mem_list (by omega) hp (by rwa [hlists s hnb])).1
    have hqa := h'.linked.allocated s q hq
    obtain ⟨hm', ha'⟩ := hs.untouched s hnb q hq
    refine ⟨fun hne => ?_, ?_⟩
    · rw [hm₅, hout.keeps.multiMask q hqa, hm' hne]
    · rw [ha₅, hout.keeps.attributes, ha']
  · have hm₅ := (hcopied.untouched frame fun j hj hp =>
      hownc j hj (h₄.mem_list (by omega) hp (by rwa [hlists c hownc])).1).1
    rw [hm₅, hout.keeps.multiMask frame (h'.linked.allocated c frame hframe), hs.deleted]
  · rw [hcopied.mustShift, hout.keeps.mustShift, hs.mustShift]
  · obtain ⟨hd, hcn, hn, hf, hsz⟩ := hview j
    by_cases hle : T ≤ (drawn σ frame st).1 j
    · exact (Flushed.head hT hhead hpos hj hs (hflushed j hj hle) hle).congr hd hcn hn hf hsz
    · have hv := hsame j hj (not_le.mp hle)
      rw [hv] at hd hcn hn hf hsz
      exact (hs.head hhead hj (not_le.mp hle).le).congr hd hcn hn hf hsz

include hM hexact hT h hhead hframe hmask hpos in
theorem shiftFrame_spec (σ : Equiv.Perm (Fin T)) (hown : st.destFramesCounter (numberOfExchanges D - 1) < T) :
    ∃ st' L', shiftFrame M c σ frame st = some st' ∧ Destinations exact r c st' L' ∧ Shifted c frame st L st' L' ∧
      ∀ j < numberOfExchanges D, Head T (v₀ j) (view c L' st' j) := by
  obtain ⟨st₃, hcopy, h₃, hs⟩ := stored_spec hM hexact hT h hhead hframe hmask σ
  have hbound : ∀ t, st.box.multiMask frame t < numberOfExchanges D + 2 := fun t => by
    have := hmask t
    omega
  unfold shiftFrame
  rw [if_pos hbound]
  dsimp only
  by_cases hfull : ∃ t, (direction (st.box.multiMask frame t)).isSome = true ∧ T ≤ destParticleIdx σ frame st t
  · obtain ⟨st₅, L₅, hflush, h₅, hshift, hhead₅⟩ := hs.flushed hM hexact hT hhead hframe hmask hpos h₃ hown
      ((anyDestFrameFull_iff hT hhead hmask).mp hfull)
    refine ⟨st₅, L₅, ?_, h₅, hshift, hhead₅⟩
    rw [if_pos (decide_eq_true hfull)]
    change (copy σ frame (firstTarget σ frame st) _).bind _ = some st₅
    rw [hcopy]
    exact hflush
  · obtain ⟨hshift, hhead₃⟩ := hs.shifted hhead (mt (anyDestFrameFull_iff hT hhead hmask).mpr hfull)
    refine ⟨st₃, L, ?_, h₃, hshift, hhead₃⟩
    rw [if_neg (by simpa using hfull)]
    have htarget : (fun t => (direction (st.box.multiMask frame t)).map fun d =>
        (d, destParticleIdx σ frame st t)) = firstTarget σ frame st := by
      funext t
      unfold firstTarget
      cases hd : direction (st.box.multiMask frame t) with
      | none => rfl
      | some d =>
        have hlt : destParticleIdx σ frame st t < T := not_le.mp fun hle => hfull ⟨t, by simp [hd], hle⟩
        simp [hlt]
    rw [htarget]
    exact hcopy

end Frame

end PIConGPU.KernelShiftParticles
