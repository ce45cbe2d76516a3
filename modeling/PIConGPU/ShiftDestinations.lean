import PIConGPU.KernelShiftParticles

/-!
# Destination frames of KernelShiftParticles

The frame in work of a direction is either the last frame of the destination or a new frame that
is in no list yet. All directions are treated alike: a thread changes the view of its own direction
only, so a loop over the threads can be read one direction at a time.
-/
namespace PIConGPU.KernelShiftParticles

open BlockThreads ParticlesBox

variable {D T : ℕ} {α : Type*} {M : MallocMC} {exact : Prop} {r : ℕ} {c : DataSpace D}

/-- The frames in work and the lists of frames. -/
structure Destinations (exact : Prop) (r : ℕ) (c : DataSpace D) (st : ShiftBlock D T α)
    (L : DataSpace D → List Ptr) : Prop where
  linked : Linked st.box L
  attempts : (st.box.attempts + 12) % maxTries = r
  neighbor : ∀ j < numberOfExchanges D, st.isNeighborFrame j = true →
    ∃ l p, L (relative c j) = l ++ [p] ∧ st.destFrames j = some p
  fresh : ∀ j < numberOfExchanges D, st.isNeighborFrame j = false → ∀ p, st.destFrames j = some p →
    p ∈ st.box.allocated ∧ ∀ s, p ∉ L s
  distinct : ∀ i < numberOfExchanges D, ∀ j < numberOfExchanges D, st.isNeighborFrame i = false →
    st.isNeighborFrame j = false → ∀ p, st.destFrames i = some p → st.destFrames j = some p → i = j
  accounted : exact → ∀ p ∈ st.box.allocated,
    (∃ s, p ∈ L s) ∨ ∃ j < numberOfExchanges D, st.isNeighborFrame j = false ∧ st.destFrames j = some p

def chain (c : DataSpace D) (L : DataSpace D → List Ptr) (st : ShiftBlock D T α) (j : ℕ) : List Ptr :=
  L (relative c j) ++ if st.isNeighborFrame j then [] else (st.destFrames j).toList

/-- A list of frames filled up to slot `k` of the last one, with the given particles. -/
structure Holds (box : ParticlesBox D T α) (frames : List Ptr) (k : ℕ) (N : ℕ → Multiset α) : Prop where
  filled : Filled box frames k
  contents_eq : ∀ m, 1 ≤ m → box.contents frames m = N m

/-- All that concerns one direction. -/
structure View (α : Type*) where
  destFrame : Option Ptr
  counter : ℕ
  isNeighborFrame : Bool
  frames : List Ptr
  size : ℕ
  holds : ℕ → (ℕ → Multiset α) → Prop

def view (c : DataSpace D) (L : DataSpace D → List Ptr) (st : ShiftBlock D T α) (j : ℕ) : View α where
  destFrame := st.destFrames j
  counter := st.destFramesCounter j
  isNeighborFrame := st.isNeighborFrame j
  frames := L (relative c j)
  size := st.box.sizeLastFrame (relative c j)
  holds := Holds st.box (chain c L st j)

/-- Slots in use of the last frame of a chain: without a frame in work all frames are full. -/
def level (T : ℕ) (destFrame : Option Ptr) (k : ℕ) : ℕ := if destFrame = none then T else k

/-- Frames keep their particles. -/
structure Keeps (box box' : ParticlesBox D T α) : Prop where
  attributes : box'.attributes = box.attributes
  multiMask : ∀ q ∈ box.allocated, box'.multiMask q = box.multiMask q
  mustShift : box'.mustShift = box.mustShift
  allocated : box.allocated ⊆ box'.allocated

theorem Keeps.refl (box : ParticlesBox D T α) : Keeps box box :=
  ⟨rfl, fun _ _ => rfl, rfl, subset_rfl⟩

theorem Keeps.trans {box₁ box₂ box₃ : ParticlesBox D T α} (h : Keeps box₁ box₂) (h' : Keeps box₂ box₃) :
    Keeps box₁ box₃ :=
  ⟨h'.attributes.trans h.attributes,
    fun q hq => (h'.multiMask q (h.allocated hq)).trans (h.multiMask q hq),
    h'.mustShift.trans h.mustShift, h.allocated.trans h'.allocated⟩

theorem Holds.congr {box box' : ParticlesBox D T α} {frames : List Ptr} {k : ℕ} {N : ℕ → Multiset α}
    (h : Holds box frames k N) (hmask : ∀ q ∈ frames, box'.multiMask q = box.multiMask q)
    (hattr : ∀ q ∈ frames, box'.attributes q = box.attributes q) : Holds box' frames k N :=
  ⟨h.filled.congr hmask, fun m hm => by rw [contents_congr hmask hattr, h.contents_eq m hm]⟩

/-- One thread changes the view of its direction only. -/
structure Touches (c : DataSpace D) (j : ℕ) (st : ShiftBlock D T α) (L : DataSpace D → List Ptr)
    (st' : ShiftBlock D T α) (L' : DataSpace D → List Ptr) : Prop where
  destFrames : ∀ i ≠ j, st'.destFrames i = st.destFrames i
  destFramesCounter : ∀ i ≠ j, st'.destFramesCounter i = st.destFramesCounter i
  isNeighborFrame : ∀ i ≠ j, st'.isNeighborFrame i = st.isNeighborFrame i
  lists : ∀ s, s ≠ relative c j → L' s = L s
  size : ∀ s, s ≠ relative c j → st'.box.sizeLastFrame s = st.box.sizeLastFrame s
  keeps : Keeps st.box st'.box

theorem Touches.refl (c : DataSpace D) (j : ℕ) (st : ShiftBlock D T α) (L : DataSpace D → List Ptr) :
    Touches c j st L st L :=
  ⟨fun _ _ => rfl, fun _ _ => rfl, fun _ _ => rfl, fun _ _ => rfl, fun _ _ => rfl, Keeps.refl _⟩

/-- Supercells that no direction leads to. -/
structure Outside (c : DataSpace D) (st : ShiftBlock D T α) (L : DataSpace D → List Ptr)
    (st' : ShiftBlock D T α) (L' : DataSpace D → List Ptr) : Prop where
  lists : ∀ s, (∀ j < numberOfExchanges D, s ≠ relative c j) → L' s = L s
  size : ∀ s, (∀ j < numberOfExchanges D, s ≠ relative c j) →
    st'.box.sizeLastFrame s = st.box.sizeLastFrame s
  keeps : Keeps st.box st'.box

variable {st st' : ShiftBlock D T α} {L L' : DataSpace D → List Ptr}

theorem Destinations.mem_list (h : Destinations exact r c st L) {j : ℕ} (hj : j < numberOfExchanges D)
    {p : Ptr} (hp : st.destFrames j = some p) {s : DataSpace D} (hs : p ∈ L s) :
    s = relative c j ∧ st.isNeighborFrame j = true := by
  cases hn : st.isNeighborFrame j with
  | false => exact absurd hs ((h.fresh j hj hn p hp).2 s)
  | true =>
    obtain ⟨l, q, hL, hq⟩ := h.neighbor j hj hn
    obtain rfl : q = p := by simpa [hq] using hp
    exact ⟨h.linked.disjoint s _ q hs (by simp [hL]), rfl⟩

theorem Destinations.dest_inj (h : Destinations exact r c st L) {i j : ℕ} (hi : i < numberOfExchanges D)
    (hj : j < numberOfExchanges D) {p : Ptr} (hpi : st.destFrames i = some p)
    (hpj : st.destFrames j = some p) : i = j := by
  cases hn : st.isNeighborFrame i with
  | true =>
    obtain ⟨l, q, hL, hq⟩ := h.neighbor i hi hn
    obtain rfl : q = p := by simpa [hq] using hpi
    exact relative_inj hi hj (h.mem_list hj hpj (by simp [hL])).1
  | false =>
    cases hn' : st.isNeighborFrame j with
    | false => exact h.distinct i hi j hj hn hn' p hpi hpj
    | true =>
      obtain ⟨l, q, hL, hq⟩ := h.neighbor j hj hn'
      obtain rfl : q = p := by simpa [hq] using hpj
      exact absurd (by simp [hL]) ((h.fresh i hi hn q hpi).2 (relative c j))

theorem Destinations.allocated_of_mem_chain (h : Destinations exact r c st L) {j : ℕ}
    (hj : j < numberOfExchanges D) {p : Ptr} (hp : p ∈ chain c L st j) : p ∈ st.box.allocated := by
  rcases List.mem_append.mp hp with hp | hp
  · exact h.linked.allocated _ p hp
  · cases hn : st.isNeighborFrame j with
    | true => simp [hn] at hp
    | false => exact (h.fresh j hj hn p (by simpa [hn] using hp)).1

theorem Destinations.not_isNeighborFrame (h : Destinations exact r c st L) {j : ℕ}
    (hj : j < numberOfExchanges D) (hd : st.destFrames j = none) : st.isNeighborFrame j = false := by
  by_contra hn
  obtain ⟨l, p, -, hp⟩ := h.neighbor j hj (by simpa using hn)
  simp [hd] at hp

theorem Destinations.chain_eq (h : Destinations exact r c st L) {j : ℕ} (hj : j < numberOfExchanges D)
    {p : Ptr} (hp : st.destFrames j = some p) : ∃ l, chain c L st j = l ++ [p] ∧ p ∉ l := by
  unfold chain
  cases hn : st.isNeighborFrame j with
  | false =>
    refine ⟨L (relative c j), by simp [hp], (h.fresh j hj hn p hp).2 _⟩
  | true =>
    obtain ⟨l, q, hL, hq⟩ := h.neighbor j hj hn
    obtain rfl : q = p := by simpa [hq] using hp
    refine ⟨l, by simp [hL], fun hmem => ?_⟩
    have hnd := h.linked.nodup (relative c j)
    rw [hL] at hnd
    exact (List.nodup_append.mp hnd).2.2 q hmem q (by simp) rfl

theorem chain_of_none {j : ℕ} (hd : st.destFrames j = none) : chain c L st j = L (relative c j) := by
  simp [chain, hd]

theorem Touches.view_eq (ht : Touches c j st L st' L') (h : Destinations exact r c st L) {i : ℕ}
    (hi : i < numberOfExchanges D) (hj : j < numberOfExchanges D) (hij : i ≠ j) :
    view c L' st' i = view c L st i := by
  have hrel : relative c i ≠ relative c j := fun he => hij (relative_inj hi hj he)
  have hchain : chain c L' st' i = chain c L st i := by
    simp only [chain, ht.lists _ hrel, ht.isNeighborFrame i hij, ht.destFrames i hij]
  have hmask : ∀ q ∈ chain c L st i, st'.box.multiMask q = st.box.multiMask q :=
    fun q hq => ht.keeps.multiMask q (h.allocated_of_mem_chain hi hq)
  have hattr : ∀ q ∈ chain c L st i, st'.box.attributes q = st.box.attributes q :=
    fun q _ => by rw [ht.keeps.attributes]
  have hholds : Holds st'.box (chain c L st i) = Holds st.box (chain c L st i) := by
    funext k N
    exact propext ⟨fun hh => hh.congr (fun q hq => (hmask q hq).symm) fun q hq => (hattr q hq).symm,
      fun hh => hh.congr hmask hattr⟩
  unfold view
  rw [ht.destFrames i hij, ht.destFramesCounter i hij, ht.isNeighborFrame i hij, ht.lists _ hrel,
    ht.size _ hrel, hchain, hholds]

/-- A loop over the threads, read one direction at a time. -/
theorem pass {f : ShiftBlock D T α → ℕ → Option (ShiftBlock D T α)} {P Q : ℕ → View α → Prop}
    (hf : ∀ st L, Destinations exact r c st L → ∀ j < numberOfExchanges D, P j (view c L st j) →
      ∃ st' L', f st j = some st' ∧ Destinations exact r c st' L' ∧ Q j (view c L' st' j) ∧
        Touches c j st L st' L')
    (h : Destinations exact r c st L) (hP : ∀ j < numberOfExchanges D, P j (view c L st j)) :
    ∃ st' L', (List.range (numberOfExchanges D)).foldlM f st = some st' ∧ Destinations exact r c st' L' ∧
      (∀ j < numberOfExchanges D, Q j (view c L' st' j)) ∧ Outside c st L st' L' := by
  obtain ⟨st', hfold, L', hdest, hQ, -, hout⟩ := foldlM_range (n := numberOfExchanges D)
    (fun n st' => ∃ L', Destinations exact r c st' L' ∧
      (∀ j < numberOfExchanges D, j < n → Q j (view c L' st' j)) ∧
      (∀ j < numberOfExchanges D, n ≤ j → P j (view c L' st' j)) ∧ Outside c st L st' L')
    (fun n hn st₁ ⟨L₁, hdest, hQ, hP, hout⟩ => by
      obtain ⟨st₂, L₂, hstep, hdest₂, hQn, ht⟩ := hf st₁ L₁ hdest n hn (hP n hn le_rfl)
      refine ⟨st₂, hstep, L₂, hdest₂, fun j hj hjn => ?_, fun j hj hjn => ?_, ?_⟩
      · by_cases he : j = n
        · exact he ▸ hQn
        · rw [ht.view_eq hdest hj hn he]
          exact hQ j hj (by omega)
      · rw [ht.view_eq hdest hj hn (by omega)]
        exact hP j hj (by omega)
      · exact ⟨fun s hs => (ht.lists s (hs n hn)).trans (hout.lists s hs),
          fun s hs => (ht.size s (hs n hn)).trans (hout.size s hs), hout.keeps.trans ht.keeps⟩)
    ⟨L, h, fun j _ hj => absurd hj (by omega), fun j hj _ => hP j hj,
      ⟨fun _ _ => rfl, fun _ _ => rfl, Keeps.refl _⟩⟩
  exact ⟨st', L', hfold, hdest, fun j hj => hQ j hj hj, hout⟩

theorem Destinations.newFrame (h : Destinations exact r c st L) {j : ℕ} (hj : j < numberOfExchanges D)
    (hd : st.destFrames j = none) {p : Ptr} {box' : ParticlesBox D T α}
    (halloc : Allocation st.box (some p) box') (hatt : (box'.attempts + 12) % maxTries = r)
    (honly : exact → box'.allocated = insert p st.box.allocated)
    (hst : st' = { st with box := box', destFrames := Function.update st.destFrames j (some p) }) :
    Destinations exact r c st' L ∧ Touches c j st L st' L ∧
      ∀ N, Holds st.box (chain c L st j) T N → Holds st'.box (chain c L st' j) 0 N := by
  subst hst
  obtain ⟨hnew, hmem, hmask⟩ := halloc.fresh p rfl
  have hnj := h.not_isNeighborFrame hj hd
  have hkeeps : Keeps st.box box' :=
    ⟨halloc.attributes, halloc.multiMask, halloc.mustShift, halloc.subset⟩
  have hold : ∀ i < numberOfExchanges D, st.isNeighborFrame i = false → st.destFrames i ≠ some p :=
    fun i hi hn he => hnew (h.fresh i hi hn p he).1
  refine ⟨⟨halloc.linked h.linked, hatt, fun i hi hn => ?_, fun i hi hn q hq => ?_,
    fun i₁ hi₁ i₂ hi₂ hn₁ hn₂ q hq₁ hq₂ => ?_, fun hM q hq => ?_⟩, ?_, fun N hN => ?_⟩
  · have hij : i ≠ j := by
      rintro rfl
      simp [hnj] at hn
    simpa [Function.update_of_ne hij] using h.neighbor i hi hn
  · by_cases hij : i = j
    · subst hij
      obtain rfl : p = q := by simpa using hq
      exact ⟨hmem, fun s hs => hnew (h.linked.allocated s p hs)⟩
    · dsimp only at hq
      rw [Function.update_of_ne hij] at hq
      obtain ⟨ha, hL⟩ := h.fresh i hi hn q hq
      exact ⟨halloc.subset ha, hL⟩
  · dsimp only at hq₁ hq₂
    by_cases h₁ : i₁ = j <;> by_cases h₂ : i₂ = j
    · rw [h₁, h₂]
    · subst h₁
      rw [Function.update_of_ne h₂] at hq₂
      obtain rfl : p = q := by simpa using hq₁
      exact absurd hq₂ (hold i₂ hi₂ hn₂)
    · subst h₂
      rw [Function.update_of_ne h₁] at hq₁
      obtain rfl : p = q := by simpa using hq₂
      exact absurd hq₁ (hold i₁ hi₁ hn₁)
    · rw [Function.update_of_ne h₁] at hq₁
      rw [Function.update_of_ne h₂] at hq₂
      exact h.distinct i₁ hi₁ i₂ hi₂ hn₁ hn₂ q hq₁ hq₂
  · rcases Finset.mem_insert.mp (honly hM ▸ hq) with rfl | hq
    · exact .inr ⟨j, hj, hnj, by simp⟩
    · rcases h.accounted hM q hq with hs | ⟨i, hi, hn, hqi⟩
      · exact .inl hs
      · have hij : i ≠ j := by
          rintro rfl
          simp [hd] at hqi
        exact .inr ⟨i, hi, hn, by simpa [Function.update_of_ne hij] using hqi⟩
  · exact ⟨fun i hi => Function.update_of_ne hi _ _, fun _ _ => rfl, fun _ _ => rfl, fun _ _ => rfl,
      fun s _ => by rw [halloc.sizeLastFrame], hkeeps⟩
  · have hchain : chain c L { st with
        box := box', destFrames := Function.update st.destFrames j (some p) } j = chain c L st j ++ [p] := by
      simp [chain, hnj, hd]
    rw [hchain]
    have hN' : Holds box' (chain c L st j) T N :=
      hN.congr (fun q hq => halloc.multiMask q (h.allocated_of_mem_chain hj hq))
        fun q _ => by rw [halloc.attributes]
    exact ⟨hN'.filled.append_empty hmask, fun m hm => by
      rw [contents_append_empty hmask (by omega), hN'.contents_eq m hm]⟩

/-- What a full frame in work becomes: the last frame of the destination stays where it is and
a new frame goes to the front of the list. -/
theorem Destinations.handOver (h : Destinations exact r c st L) {j : ℕ} (hj : j < numberOfExchanges D)
    {p : Ptr} (hp : st.destFrames j = some p) (k : ℕ)
    (hst : st' = {
      box := if st.isNeighborFrame j then st.box.setSizeLastFrame (relative c j) T
        else st.box.setAsFirstFrame p (relative c j)
      destFrames := Function.update st.destFrames j none
      destFramesCounter := Function.update st.destFramesCounter j k
      isNeighborFrame := Function.update st.isNeighborFrame j false }) :
    ∃ L', Destinations exact r c st' L' ∧ Touches c j st L st' L' ∧ L' (relative c j) ≠ [] ∧
      st'.box.sizeLastFrame (relative c j) =
        (if st.isNeighborFrame j then T % 65536 else st.box.sizeLastFrame (relative c j)) ∧
      ∀ N, Holds st.box (chain c L st j) T N → Holds st'.box (chain c L' st' j) T N := by
  subst hst
  have hdist : ∀ i₁ < numberOfExchanges D, ∀ i₂ < numberOfExchanges D, ∀ q,
      Function.update st.destFrames j none i₁ = some q →
      Function.update st.destFrames j none i₂ = some q → i₁ = i₂ := by
    intro i₁ hi₁ i₂ hi₂ q hq₁ hq₂
    have h₁ : i₁ ≠ j := by
      rintro rfl
      simp at hq₁
    have h₂ : i₂ ≠ j := by
      rintro rfl
      simp at hq₂
    rw [Function.update_of_ne h₁] at hq₁
    rw [Function.update_of_ne h₂] at hq₂
    exact h.dest_inj hi₁ hi₂ hq₁ hq₂
  cases hn : st.isNeighborFrame j with
  | true =>
    obtain ⟨l, q, hL, -⟩ := h.neighbor j hj hn
    refine ⟨L, ⟨?_, h.attempts, fun i hi hni => ?_, fun i hi hni q hq => ?_,
      fun i₁ hi₁ i₂ hi₂ _ _ q => hdist i₁ hi₁ i₂ hi₂ q, fun hM q hq => ?_⟩, ?_, by simp [hL], ?_, fun N hN => ?_⟩
    · exact h.linked.congr rfl rfl (fun _ _ _ => rfl) (fun _ _ _ => rfl) h.linked.allocated
    · have hij : i ≠ j := by
        rintro rfl
        simp at hni
      simp only [Function.update_of_ne hij] at hni ⊢
      exact h.neighbor i hi hni
    · have hij : i ≠ j := by
        rintro rfl
        simp at hq
      simp only [Function.update_of_ne hij] at hni hq
      exact h.fresh i hi hni q hq
    · rcases h.accounted hM q hq with hs | ⟨i, hi, hni, hqi⟩
      · exact .inl hs
      · have hij : i ≠ j := by
          rintro rfl
          simp [hn] at hni
        exact .inr ⟨i, hi, by simpa [Function.update_of_ne hij] using hni,
          by simpa [Function.update_of_ne hij] using hqi⟩
    · exact ⟨fun i hi => Function.update_of_ne hi _ _, fun i hi => Function.update_of_ne hi _ _,
        fun i hi => Function.update_of_ne hi _ _, fun _ _ => rfl,
        fun s hs => Function.update_of_ne hs _ _, ⟨rfl, fun _ _ => rfl, rfl, subset_rfl⟩⟩
    · simp [setSizeLastFrame]
    · have hchain : chain c L st j = L (relative c j) := by simp [chain, hn]
      rw [hchain] at hN
      rw [chain_of_none (by simp)]
      exact hN.congr (fun _ _ => rfl) fun _ _ => rfl
  | false =>
    obtain ⟨hpa, hpL⟩ := h.fresh j hj hn p hp
    have hsub : ∀ {s q}, q ∈ L s → q ∈ Function.update L (relative c j) (p :: L (relative c j)) s := by
      intro s q hq
      by_cases hs : s = relative c j
      · subst hs
        simp [hq]
      · rwa [Function.update_of_ne hs]
    have hsup : ∀ {s q}, q ∈ Function.update L (relative c j) (p :: L (relative c j)) s →
        q = p ∨ q ∈ L s := by
      intro s q hq
      by_cases hs : s = relative c j
      · subst hs
        simpa using hq
      · rw [Function.update_of_ne hs] at hq
        exact .inr hq
    refine ⟨Function.update L (relative c j) (p :: L (relative c j)),
      ⟨h.linked.setAsFirstFrame hpL hpa _, by simpa using h.attempts, fun i hi hni => ?_,
      fun i hi hni q hq => ?_, fun i₁ hi₁ i₂ hi₂ _ _ q => hdist i₁ hi₁ i₂ hi₂ q, fun hM q hq => ?_⟩, ?_,
      by simp, by simp, fun N hN => ?_⟩
    · have hij : i ≠ j := by
        rintro rfl
        simp at hni
      have hrel : relative c i ≠ relative c j := fun he => hij (relative_inj hi hj he)
      simp only [Function.update_of_ne hij] at hni ⊢
      rw [Function.update_of_ne hrel]
      exact h.neighbor i hi hni
    · have hij : i ≠ j := by
        rintro rfl
        simp at hq
      simp only [Function.update_of_ne hij] at hni hq
      obtain ⟨hqa, hqL⟩ := h.fresh i hi hni q hq
      refine ⟨by simpa using hqa, fun s hs => ?_⟩
      rcases hsup hs with rfl | hs
      · exact hij (h.dest_inj hi hj hq hp)
      · exact hqL s hs
    · rcases h.accounted hM q (by simpa using hq) with ⟨s, hs⟩ | ⟨i, hi, hni, hqi⟩
      · exact .inl ⟨s, hsub hs⟩
      · by_cases hij : i = j
        · subst hij
          obtain rfl : p = q := by simpa [hp] using hqi
          exact .inl ⟨relative c i, by simp⟩
        · exact .inr ⟨i, hi, by simpa [Function.update_of_ne hij] using hni,
            by simpa [Function.update_of_ne hij] using hqi⟩
    · exact ⟨fun i hi => Function.update_of_ne hi _ _, fun i hi => Function.update_of_ne hi _ _,
        fun i hi => Function.update_of_ne hi _ _, fun s hs => Function.update_of_ne hs _ _,
        fun s _ => by simp, ⟨by simp, fun _ _ => by simp, by simp, by simp⟩⟩
    · have hchain : chain c L st j = L (relative c j) ++ [p] := by simp [chain, hn, hp]
      rw [hchain] at hN
      rw [chain_of_none (by simp), Function.update_self]
      refine ⟨filled_of_full fun q hq => ?_, fun m hm => ?_⟩
      · have hq' : q ∈ L (relative c j) ++ [p] := by
          rcases List.mem_cons.mp hq with rfl | hq
          · simp
          · simp [hq]
        simpa using hN.filled.full q hq'
      · rw [← hN.contents_eq m hm, contents_cons, contents_append, contents_cons, contents_nil, add_zero,
          add_comm]
        exact congrArg₂ _ (contents_congr (fun _ _ => by simp) fun _ _ => by simp) (by simp)

/-- After the allocation every direction with particles has a frame in work. -/
structure Allocated (T : ℕ) (v v' : View α) : Prop where
  counter : v'.counter = v.counter
  isNeighborFrame : v'.isNeighborFrame = v.isNeighborFrame
  frames : v'.frames = v.frames
  size : v'.size = v.size
  destFrame_ne_none : 0 < v.counter → v'.destFrame ≠ none
  destFrame : v.destFrame ≠ none ∨ v.counter = 0 → v'.destFrame = v.destFrame
  holds : ∀ k N, (v.destFrame = none → k = 0) → v.holds (level T v.destFrame k) N →
    v'.holds (level T v'.destFrame k) N

theorem allocate_spec (hM : MallocMC.Serves M r)
    (hexact : exact → MallocMC.ServesOnly M r) (h : Destinations exact r c st L) {j : ℕ}
    (hj : j < numberOfExchanges D) :
    Destinations exact r c (allocate M st j) L ∧
      Allocated T (view c L st j) (view c L (allocate M st j) j) ∧
      Touches c j st L (allocate M st j) L := by
  unfold allocate
  split
  case isTrue hcond =>
    obtain ⟨hpos, hd⟩ := hcond
    obtain ⟨p, box', hget, halloc, hatt, honly⟩ := getEmptyFrame_spec hM h.attempts
    rw [hget]
    obtain ⟨hdest, ht, hholds⟩ := h.newFrame hj hd halloc hatt (fun he => honly (hexact he)) rfl
    refine ⟨hdest, ⟨rfl, rfl, rfl, ?_, fun _ => by simp [view], fun hor => ?_, fun k N hk hN => ?_⟩, ht⟩
    · simp [view, halloc.sizeLastFrame]
    · rcases hor with hne | h0
      · exact absurd hd hne
      · exact absurd h0 hpos.ne'
    · obtain rfl : k = 0 := hk hd
      have hlevel : level T (view c L st j).destFrame 0 = T := by simp [view, level, hd]
      rw [hlevel] at hN
      simpa [view, level] using hholds N hN
  case isFalse hcond =>
    refine ⟨h, ⟨rfl, rfl, rfl, rfl, fun hpos hd => hcond ⟨hpos, hd⟩, fun _ => rfl, fun k N _ hN => hN⟩,
      Touches.refl c j st L⟩

/-- The view of a direction after the flush. -/
structure Flushed (T : ℕ) (v v' : View α) : Prop where
  counter : v'.counter = v.counter - T
  isNeighborFrame : v'.isNeighborFrame = false
  frames : v'.frames ≠ []
  size : v'.size = if v.isNeighborFrame then T % 65536 else v.size
  destFrame : v'.destFrame = none ↔ v.counter ≤ T
  holds : ∀ N, v.holds T N → v'.holds (level T v'.destFrame 0) N

theorem flush_spec (hM : MallocMC.Serves M r)
    (hexact : exact → MallocMC.ServesOnly M r) (h : Destinations exact r c st L) {j : ℕ}
    (hj : j < numberOfExchanges D) (hd : T ≤ st.destFramesCounter j → st.destFrames j ≠ none) :
    ∃ st' L', flush M c st j = some st' ∧ Destinations exact r c st' L' ∧
      (if T ≤ st.destFramesCounter j then Flushed T (view c L st j) (view c L' st' j)
        else view c L' st' j = view c L st j) ∧ Touches c j st L st' L' := by
  by_cases hT : T ≤ st.destFramesCounter j
  · obtain ⟨p, hp⟩ := Option.ne_none_iff_exists'.mp (hd hT)
    obtain ⟨L', hdest, ht, hne, hsize, hholds⟩ :=
      h.handOver hj hp (st.destFramesCounter j - T) rfl
    set box₁ : ParticlesBox D T α := if st.isNeighborFrame j then st.box.setSizeLastFrame (relative c j) T
      else st.box.setAsFirstFrame p (relative c j) with hbox₁
    have hbox : handOver c st j = some box₁ := by
      rw [handOver, hbox₁, hp]
      split <;> rfl
    by_cases hpos : 0 < st.destFramesCounter j - T
    · obtain ⟨q, box₂, hget, halloc, hatt, honly⟩ := getEmptyFrame_spec hM hdest.attempts
      obtain ⟨hdest₂, ht₂, hholds₂⟩ := hdest.newFrame hj (by simp) halloc hatt (fun he => honly (hexact he)) rfl
      refine ⟨_, L', ?_, hdest₂, ?_, ?_⟩
      · rw [flush, if_pos hT, hbox]
        simp only [Option.map_some, if_pos hpos, hget]
        congr 2
        funext i
        by_cases hi : i = j
        · subst hi
          simp
        · simp [Function.update_of_ne hi]
      · rw [if_pos hT]
        refine ⟨by simp [view], by simp [view], hne, ?_, ?_, fun N hN => ?_⟩
        · exact (congrFun halloc.sizeLastFrame _).trans hsize
        · simp only [view, Function.update_self, reduceCtorEq, false_iff, not_le]
          omega
        · simpa [view, level] using hholds₂ N (hholds N hN)
      · refine ⟨fun i hi => (ht₂.destFrames i hi).trans (ht.destFrames i hi),
          fun i hi => (ht₂.destFramesCounter i hi).trans (ht.destFramesCounter i hi),
          fun i hi => (ht₂.isNeighborFrame i hi).trans (ht.isNeighborFrame i hi),
          fun s hs => (ht₂.lists s hs).trans (ht.lists s hs),
          fun s hs => (ht₂.size s hs).trans (ht.size s hs), ht.keeps.trans ht₂.keeps⟩
    · refine ⟨_, L', ?_, hdest, ?_, ht⟩
      · rw [flush, if_pos hT, hbox]
        simp only [Option.map_some, if_neg hpos]
      · rw [if_pos hT]
        refine ⟨by simp [view], by simp [view], hne, hsize, ?_, fun N hN => ?_⟩
        · simp only [view, Function.update_self, true_iff]
          omega
        · simpa [view, level] using hholds N hN
  · exact ⟨st, L, by rw [flush, if_neg hT], h, by rw [if_neg hT], Touches.refl c j st L⟩

end PIConGPU.KernelShiftParticles
