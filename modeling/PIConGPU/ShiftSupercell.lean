import PIConGPU.ShiftFrame

/-!
# KernelShiftParticles on one supercell

The loop over the source frames composes the effects of the single frames. After the loop
every frame in work joins the list of its destination.
-/
namespace PIConGPU.KernelShiftParticles

open BlockThreads FrameContents ParticlesBox

variable {D T : ℕ} {α : Type*} {M : MallocMC} {exact : Prop} {r : ℕ} {c : DataSpace D}
  {st st₁ st₂ : ShiftBlock D T α} {L L₁ L₂ : DataSpace D → List Ptr}

def fillCounters (D T : ℕ) (counter : ℕ → ℕ) (counts : List (ℕ → ℕ)) : ℕ → ℕ :=
  counts.foldl (fun s n => nextCounter D T fun i => s i + n i) counter

theorem nextCounter_congr {s s' : ℕ → ℕ} (h : ∀ j < numberOfExchanges D, s j = s' j) :
    ∀ j < numberOfExchanges D, nextCounter D T s j = nextCounter D T s' j := by
  intro j hj
  have hex : (∃ i < numberOfExchanges D, T < s i) ↔ ∃ i < numberOfExchanges D, T < s' i :=
    exists_congr fun i => and_congr_right fun hi => by rw [h i hi]
  simp only [nextCounter, hex, h j hj]

theorem fillCounters_congr {s s' : ℕ → ℕ} (h : ∀ j < numberOfExchanges D, s j = s' j)
    (counts : List (ℕ → ℕ)) :
    ∀ j < numberOfExchanges D, fillCounters D T s counts j = fillCounters D T s' counts j := by
  unfold fillCounters
  induction counts generalizing s s' with
  | nil => exact h
  | cons n counts ih =>
    exact ih (nextCounter_congr fun j hj => by rw [h j hj])

structure ShiftedAll (c : DataSpace D) (frames : List Ptr) (st : ShiftBlock D T α)
    (L : DataSpace D → List Ptr) (st' : ShiftBlock D T α) (L' : DataSpace D → List Ptr) : Prop where
  counter : ∀ j < numberOfExchanges D, st'.destFramesCounter j =
    fillCounters D T st.destFramesCounter (frames.map fun p => marked (st.box.multiMask p)) j
  kept : ∀ j < numberOfExchanges D,
    st.destFramesCounter j + (frames.map fun p => marked (st.box.multiMask p) j).sum < T →
    (st.destFrames j ≠ none ∨ (∀ p ∈ frames, marked (st.box.multiMask p) j = 0) →
      st'.destFrames j = st.destFrames j) ∧
      st'.destFramesCounter j =
        st.destFramesCounter j + (frames.map fun p => marked (st.box.multiMask p) j).sum ∧
      st'.isNeighborFrame j = st.isNeighborFrame j ∧ L' (relative c j) = L (relative c j) ∧
      st'.box.sizeLastFrame (relative c j) = st.box.sizeLastFrame (relative c j)
  holds : ∀ j, j + 1 < numberOfExchanges D → ∀ N,
    (view c L st j).holds (level T (st.destFrames j) (st.destFramesCounter j)) N →
    (view c L' st' j).holds (level T (st'.destFrames j) (st'.destFramesCounter j))
      (deliver N (st.box.contents frames (j + 2)))
  outside : ∀ s, (∀ j < numberOfExchanges D, s ≠ relative c j) → L' s = L s ∧
    st'.box.sizeLastFrame s = st.box.sizeLastFrame s
  untouched : ∀ s, (∀ j, j + 1 < numberOfExchanges D → s ≠ relative c j) → ∀ q ∈ L s,
    (q ∉ frames → st'.box.multiMask q = st.box.multiMask q) ∧ st'.box.attributes q = st.box.attributes q
  deleted : ∀ q ∈ frames, st'.box.multiMask q =
    fun t => if 2 ≤ st.box.multiMask q t then 0 else st.box.multiMask q t
  mustShift : st'.box.mustShift = st.box.mustShift

theorem numberOfExchanges_pos (D : ℕ) : 0 < numberOfExchanges D := by
  unfold numberOfExchanges
  positivity

theorem marked_own {mask : Fin T → ℕ} (h : ∀ t, mask t ≤ numberOfExchanges D) :
    marked mask (numberOfExchanges D - 1) = 0 := by
  have hE := numberOfExchanges_pos D
  refine Finset.card_eq_zero.mpr (Finset.filter_eq_empty_iff.mpr fun t _ he => ?_)
  have := h t
  omega

theorem ShiftedAll.nil (c : DataSpace D) (st : ShiftBlock D T α) (L : DataSpace D → List Ptr) :
    ShiftedAll c [] st L st L := by
  refine ⟨fun _ _ => rfl, fun _ _ _ => ⟨fun _ => rfl, rfl, rfl, rfl, rfl⟩, fun j _ N hN => ?_,
    fun _ _ => ⟨rfl, rfl⟩, fun _ _ _ _ => ⟨fun _ => rfl, rfl⟩, fun _ hq => absurd hq (by simp), rfl⟩
  have hdeliver : deliver N (st.box.contents [] (j + 2)) = N := by
    funext m
    by_cases hm : m = 1 <;> simp [deliver, hm]
  rwa [hdeliver]

theorem Shifted.kept_counter {frame : Ptr} (h : Shifted c frame st L st₁ L₁) {j : ℕ}
    (hj : j < numberOfExchanges D) (hlt : st.destFramesCounter j + marked (st.box.multiMask frame) j < T) :
    st₁.destFramesCounter j = st.destFramesCounter j + marked (st.box.multiMask frame) j := by
  rw [h.counter j hj, nextCounter, if_neg (by omega)]

theorem Shifted.own {frame : Ptr} (h : Shifted c frame st L st₁ L₁)
    (hmask : ∀ t, st.box.multiMask frame t ≤ numberOfExchanges D)
    (hown : st.destFramesCounter (numberOfExchanges D - 1) < T) :
    L₁ c = L c ∧ st₁.destFramesCounter (numberOfExchanges D - 1) < T := by
  have hE := numberOfExchanges_pos D
  have hE' : numberOfExchanges D - 1 < numberOfExchanges D := by omega
  have hlt : st.destFramesCounter (numberOfExchanges D - 1) +
      marked (st.box.multiMask frame) (numberOfExchanges D - 1) < T := by rwa [marked_own hmask]
  have hL := (h.kept _ hE' hlt).2.2.1
  rw [relative_own] at hL
  exact ⟨hL, by rwa [h.kept_counter hE' hlt]⟩

theorem Shifted.cons {frame : Ptr} {frames : List Ptr} (h : Shifted c frame st L st₁ L₁)
    (h' : ShiftedAll c frames st₁ L₁ st₂ L₂) (hframe : frame ∈ L c) (hframes : ∀ q ∈ frames, q ∈ L c)
    (hnot : frame ∉ frames) (hL : L₁ c = L c) : ShiftedAll c (frame :: frames) st L st₂ L₂ := by
  have hown : ∀ j, j + 1 < numberOfExchanges D → c ≠ relative c j := fun j hj => (relative_ne_own c hj).symm
  have hmask : ∀ q ∈ frames, st₁.box.multiMask q = st.box.multiMask q := fun q hq =>
    (h.untouched c hown q (hframes q hq)).1 fun he => hnot (he ▸ hq)
  have hattr : ∀ q ∈ frames, st₁.box.attributes q = st.box.attributes q := fun q hq =>
    (h.untouched c hown q (hframes q hq)).2
  have hlists : ∀ s, (∀ j, j + 1 < numberOfExchanges D → s ≠ relative c j) → L₁ s = L s := by
    intro s hs
    by_cases hsc : s = c
    · rw [hsc, hL]
    · refine (h.outside s fun j hj he => ?_).1
      rcases Nat.lt_or_ge (j + 1) (numberOfExchanges D) with hlt | hge
      · exact hs j hlt he
      · obtain rfl : j = numberOfExchanges D - 1 := by omega
        exact hsc (he.trans (relative_own c))
  have hmap : (frames.map fun p => marked (st₁.box.multiMask p)) =
      frames.map fun p => marked (st.box.multiMask p) :=
    List.map_congr_left fun q hq => by rw [hmask q hq]
  refine ⟨fun j hj => ?_, fun j hj hlt => ?_, fun j hj N hN => ?_, fun s hs => ?_, fun s hs q hq => ?_,
    fun q hq => ?_, h'.mustShift.trans h.mustShift⟩
  · rw [h'.counter j hj, hmap, fillCounters_congr h.counter _ j hj]
    rfl
  · have hsum : (frames.map fun p => marked (st₁.box.multiMask p) j) =
        frames.map fun p => marked (st.box.multiMask p) j :=
      List.map_congr_left fun q hq => by rw [hmask q hq]
    rw [List.map_cons, List.sum_cons] at hlt ⊢
    have hlt₁ : st.destFramesCounter j + marked (st.box.multiMask frame) j < T := by omega
    obtain ⟨hd, hn, hl, hs⟩ := h.kept j hj hlt₁
    have hc := h.kept_counter hj hlt₁
    obtain ⟨hd', hc', hn', hl', hs'⟩ := h'.kept j hj (by rw [hsum, hc]; omega)
    refine ⟨fun hor => ?_, by rw [hc', hc, hsum, Nat.add_assoc], hn'.trans hn, hl'.trans hl, hs'.trans hs⟩
    have hd₁ : st₁.destFrames j = st.destFrames j := hd (hor.imp_right fun h0 => h0 frame (by simp))
    rw [← hd₁]
    refine hd' ?_
    rw [hd₁]
    exact hor.imp_right fun h0 q hq => by
      rw [hmask q hq]
      exact h0 q (List.mem_cons_of_mem _ hq)
  · have hN₂ := h'.holds j hj _ (h.holds j hj N hN)
    rw [deliver_deliver, contents_congr hmask hattr] at hN₂
    rwa [contents_cons]
  · obtain ⟨hl, hs'⟩ := h.outside s hs
    obtain ⟨hl₂, hs₂⟩ := h'.outside s hs
    exact ⟨hl₂.trans hl, hs₂.trans hs'⟩
  · obtain ⟨hm, ha⟩ := h.untouched s hs q hq
    obtain ⟨hm₂, ha₂⟩ := h'.untouched s hs q (by rwa [hlists s hs])
    refine ⟨fun hmem => ?_, ha₂.trans ha⟩
    rw [List.mem_cons, not_or] at hmem
    exact (hm₂ hmem.2).trans (hm hmem.1)
  · rcases List.mem_cons.mp hq with rfl | hq
    · rw [(h'.untouched c hown q (by rwa [hL])).1 hnot, h.deleted]
    · rw [h'.deleted q hq, hmask q hq]

theorem shiftFrames_spec (hM : MallocMC.Serves M r) (hexact : exact → MallocMC.ServesOnly M r)
    (hT : 2 * T ≤ 65536) (hpos : 0 < T)
    {v₀ : ℕ → View α} (order : ℕ → Equiv.Perm (Fin T)) {n : ℕ} {l rest : List Ptr} {frame : Ptr}
    (hL : L c = l ++ frame :: rest) (hn : rest.length < n) (h : Destinations exact r c st L)
    (hhead : ∀ j < numberOfExchanges D, Head T (v₀ j) (view c L st j))
    (hmask : ∀ q ∈ frame :: rest, ∀ t, st.box.multiMask q t ≤ numberOfExchanges D)
    (hown : st.destFramesCounter (numberOfExchanges D - 1) < T) :
    ∃ st' L', shiftFrames M c order n frame st = some st' ∧ Destinations exact r c st' L' ∧
      ShiftedAll c (frame :: rest) st L st' L' ∧
      ∀ j < numberOfExchanges D, Head T (v₀ j) (view c L' st' j) := by
  induction rest generalizing frame st L n l with
  | nil =>
    obtain ⟨n, rfl⟩ : ∃ m, n = m + 1 := ⟨n - 1, by omega⟩
    have hmask' := hmask frame (List.mem_cons_self ..)
    obtain ⟨st₁, L₁, hstep, h₁, hshift, hhead₁⟩ :=
      shiftFrame_spec hM hexact hT h hhead (by simp [hL]) hmask' hpos (order n) hown
    obtain ⟨hLc, -⟩ := hshift.own hmask' hown
    have hnext : st₁.box.nextFrame frame = none := h₁.linked.next c l frame [] (hLc.trans hL)
    refine ⟨st₁, L₁, ?_, h₁, hshift.cons (ShiftedAll.nil c st₁ L₁) (by simp [hL]) (by simp) (by simp) hLc,
      hhead₁⟩
    rw [shiftFrames, hstep]
    simp [hnext]
  | cons next rest ih =>
    obtain ⟨n, rfl⟩ : ∃ m, n = m + 1 := ⟨n - 1, by omega⟩
    have hmask' := hmask frame (List.mem_cons_self ..)
    obtain ⟨st₁, L₁, hstep, h₁, hshift, hhead₁⟩ :=
      shiftFrame_spec hM hexact hT h hhead (by simp [hL]) hmask' hpos (order n) hown
    obtain ⟨hLc, hown₁⟩ := hshift.own hmask' hown
    have hnext : st₁.box.nextFrame frame = some next :=
      h₁.linked.next c l frame (next :: rest) (hLc.trans hL)
    have hnd := h.linked.nodup c
    rw [hL] at hnd
    have hnot : frame ∉ next :: rest := (List.nodup_cons.mp (List.nodup_append.mp hnd).2.1).1
    have hmem : ∀ q ∈ next :: rest, q ∈ L c := fun q hq => by
      rw [hL]
      exact List.mem_append_right _ (List.mem_cons_of_mem _ hq)
    have hmask₁ : ∀ q ∈ next :: rest, ∀ t, st₁.box.multiMask q t ≤ numberOfExchanges D := by
      intro q hq
      rw [(hshift.untouched c (fun j hj => (relative_ne_own c hj).symm) q (hmem q hq)).1
        fun he => hnot (he ▸ hq)]
      exact hmask q (List.mem_cons_of_mem _ hq)
    obtain ⟨st₂, L₂, hrun, h₂, hshift₂, hhead₂⟩ := ih (l := l ++ [frame]) (n := n)
      (show L₁ c = (l ++ [frame]) ++ next :: rest by simp [hLc, hL]) (by simp at hn; omega) h₁ hhead₁ hmask₁ hown₁
    refine ⟨st₂, L₂, ?_, h₂, hshift.cons hshift₂ (by simp [hL]) hmem hnot hLc, hhead₂⟩
    rw [shiftFrames, hstep]
    simp [hnext, hrun]

/-- One thread after the loop, with its frame no longer in work. -/
def finishAndClear (c : DataSpace D) (st : ShiftBlock D T α) (j : ℕ) : Option (ShiftBlock D T α) :=
  (finish c st st.box j).map fun box => {
    box := box
    destFrames := Function.update st.destFrames j none
    destFramesCounter := st.destFramesCounter
    isNeighborFrame := Function.update st.isNeighborFrame j false }

/-- The view of a direction after its thread has finished. -/
structure Finished (v v' : View α) : Prop where
  destFrame : v'.destFrame = none
  frames : v'.frames = v.frames ++ if v.isNeighborFrame then [] else v.destFrame.toList
  size : v'.size = if 0 < v.counter then v.counter % 65536 else v.size
  holds : ∀ k N, v.holds k N → v'.holds k N

theorem Destinations.clear (h : Destinations exact r c st L) {j : ℕ} (hj : j < numberOfExchanges D)
    (hor : st.isNeighborFrame j = true ∨ st.destFrames j = none) (size : DataSpace D → ℕ)
    (hst : st₁ = {
      box := { st.box with sizeLastFrame := size }
      destFrames := Function.update st.destFrames j none
      destFramesCounter := st.destFramesCounter
      isNeighborFrame := Function.update st.isNeighborFrame j false })
    (hsize : ∀ s, s ≠ relative c j → size s = st.box.sizeLastFrame s) :
    Destinations exact r c st₁ L ∧ Touches c j st L st₁ L ∧ chain c L st₁ j = chain c L st j := by
  subst hst
  have hchain : chain c L st j = L (relative c j) := by
    rcases hor with hn | hd
    · simp [chain, hn]
    · simp [chain, hd]
  refine ⟨⟨h.linked.congr rfl rfl (fun _ _ _ => rfl) (fun _ _ _ => rfl) h.linked.allocated, h.attempts,
    fun i hi hn => ?_, fun i hi hn p hp => ?_, fun i₁ hi₁ i₂ hi₂ hn₁ hn₂ p hp₁ hp₂ => ?_,
    fun hM p hp => ?_⟩, ?_, ?_⟩
  · have hij : i ≠ j := by
      rintro rfl
      simp at hn
    simp only [Function.update_of_ne hij] at hn ⊢
    exact h.neighbor i hi hn
  · have hij : i ≠ j := by
      rintro rfl
      simp at hp
    simp only [Function.update_of_ne hij] at hn hp
    exact h.fresh i hi hn p hp
  · have h₁ : i₁ ≠ j := by
      rintro rfl
      simp at hp₁
    have h₂ : i₂ ≠ j := by
      rintro rfl
      simp at hp₂
    simp only [Function.update_of_ne h₁] at hp₁
    simp only [Function.update_of_ne h₂] at hp₂
    exact h.dest_inj hi₁ hi₂ hp₁ hp₂
  · rcases h.accounted hM p hp with hs | ⟨i, hi, hn, hpi⟩
    · exact .inl hs
    · have hij : i ≠ j := by
        rintro rfl
        rcases hor with hn' | hd
        · simp [hn] at hn'
        · simp [hd] at hpi
      exact .inr ⟨i, hi, by simpa [Function.update_of_ne hij] using hn,
        by simpa [Function.update_of_ne hij] using hpi⟩
  · exact ⟨fun i hi => Function.update_of_ne hi _ _, fun _ _ => rfl,
      fun i hi => Function.update_of_ne hi _ _, fun _ _ => rfl, hsize, ⟨rfl, fun _ _ => rfl, rfl, subset_rfl⟩⟩
  · rw [hchain, chain_of_none (by simp)]

theorem Destinations.appendFrame (h : Destinations exact r c st L) {j : ℕ} (hj : j < numberOfExchanges D)
    (hn : st.isNeighborFrame j = false) {p : Ptr} (hp : st.destFrames j = some p) (k : ℕ)
    (hst : st₁ = {
      box := (st.box.setAsLastFrame p (relative c j)).setSizeLastFrame (relative c j) k
      destFrames := Function.update st.destFrames j none
      destFramesCounter := st.destFramesCounter
      isNeighborFrame := Function.update st.isNeighborFrame j false }) :
    ∃ L₁, Destinations exact r c st₁ L₁ ∧ Touches c j st L st₁ L₁ ∧ chain c L₁ st₁ j = chain c L st j ∧
      L₁ (relative c j) = chain c L st j := by
  subst hst
  obtain ⟨hpa, hpL⟩ := h.fresh j hj hn p hp
  have hchain : chain c L st j = L (relative c j) ++ [p] := by simp [chain, hn, hp]
  have hsub : ∀ {s q}, q ∈ L s → q ∈ Function.update L (relative c j) (L (relative c j) ++ [p]) s := by
    intro s q hq
    by_cases hs : s = relative c j
    · subst hs
      simp [hq]
    · rwa [Function.update_of_ne hs]
  have hsup : ∀ {s q}, q ∈ Function.update L (relative c j) (L (relative c j) ++ [p]) s → q = p ∨ q ∈ L s := by
    intro s q hq
    by_cases hs : s = relative c j
    · subst hs
      rw [Function.update_self, List.mem_append, List.mem_singleton] at hq
      exact hq.symm
    · rw [Function.update_of_ne hs] at hq
      exact .inr hq
  have hlinked : Linked ((st.box.setAsLastFrame p (relative c j)).setSizeLastFrame (relative c j) k)
      (Function.update L (relative c j) (L (relative c j) ++ [p])) :=
    (h.linked.setAsLastFrame hpL hpa _).congr rfl rfl (fun _ _ _ => rfl) (fun _ _ _ => rfl)
      (h.linked.setAsLastFrame hpL hpa _).allocated
  refine ⟨Function.update L (relative c j) (L (relative c j) ++ [p]), ⟨hlinked, ?_, fun i hi hni => ?_,
    fun i hi hni q hq => ?_, fun i₁ hi₁ i₂ hi₂ _ _ q hq₁ hq₂ => ?_, fun hM q hq => ?_⟩, ?_, ?_, ?_⟩
  · simpa [setSizeLastFrame] using h.attempts
  · have hij : i ≠ j := by
      rintro rfl
      simp at hni
    have hrel : relative c i ≠ relative c j := fun he => hij (relative_inj hi hj he)
    simp only [Function.update_of_ne hij] at hni ⊢
    rw [Function.update_of_ne hrel]
    exact h.neighbor i hi hni
  · have hij : i ≠ j := by
      rintro rfl
      simp at hq
    simp only [Function.update_of_ne hij] at hni hq
    obtain ⟨hqa, hqL⟩ := h.fresh i hi hni q hq
    refine ⟨by simpa [setSizeLastFrame] using hqa, fun s hs => ?_⟩
    rcases hsup hs with rfl | hs
    · exact hij (h.dest_inj hi hj hq hp)
    · exact hqL s hs
  · have h₁ : i₁ ≠ j := by
      rintro rfl
      simp at hq₁
    have h₂ : i₂ ≠ j := by
      rintro rfl
      simp at hq₂
    simp only [Function.update_of_ne h₁] at hq₁
    simp only [Function.update_of_ne h₂] at hq₂
    exact h.dest_inj hi₁ hi₂ hq₁ hq₂
  · rcases h.accounted hM q (by simpa [setSizeLastFrame] using hq) with ⟨s, hs⟩ | ⟨i, hi, hni, hqi⟩
    · exact .inl ⟨s, hsub hs⟩
    · by_cases hij : i = j
      · subst hij
        obtain rfl : p = q := by simpa [hp] using hqi
        exact .inl ⟨relative c i, by simp⟩
      · exact .inr ⟨i, hi, by simpa [Function.update_of_ne hij] using hni,
          by simpa [Function.update_of_ne hij] using hqi⟩
  · refine ⟨fun i hi => Function.update_of_ne hi _ _, fun _ _ => rfl,
      fun i hi => Function.update_of_ne hi _ _, fun s hs => Function.update_of_ne hs _ _, fun s hs => ?_,
      ⟨by simp [setSizeLastFrame], fun _ _ => by simp [setSizeLastFrame], by simp [setSizeLastFrame],
        by simp [setSizeLastFrame]⟩⟩
    simp [setSizeLastFrame, Function.update_of_ne hs]
  · rw [chain_of_none (by simp), hchain, Function.update_self]
  · rw [hchain, Function.update_self]

theorem finishAndClear_spec (h : Destinations exact r c st L) {j : ℕ} (hj : j < numberOfExchanges D)
    (hpos : 0 < st.destFramesCounter j → st.destFrames j ≠ none)
    (hzero : st.destFramesCounter j = 0 → st.isNeighborFrame j = false → st.destFrames j = none) :
    ∃ st₁ L₁, finishAndClear c st j = some st₁ ∧ Destinations exact r c st₁ L₁ ∧
      Finished (view c L st j) (view c L₁ st₁ j) ∧ Touches c j st L st₁ L₁ := by
  have hholds : ∀ {st₁ : ShiftBlock D T α} {L₁}, Touches c j st L st₁ L₁ → chain c L₁ st₁ j = chain c L st j →
      ∀ k N, (view c L st j).holds k N → (view c L₁ st₁ j).holds k N := by
    intro st₁ L₁ ht hchain k N hN
    change Holds st₁.box (chain c L₁ st₁ j) k N
    rw [hchain]
    exact Holds.congr hN (fun q hq => ht.keeps.multiMask q (h.allocated_of_mem_chain hj hq))
      fun q _ => by rw [ht.keeps.attributes]
  by_cases hc : 0 < st.destFramesCounter j
  · cases hn : st.isNeighborFrame j with
    | true =>
      obtain ⟨hdest, ht, hchain⟩ := h.clear hj (.inl hn)
        (Function.update st.box.sizeLastFrame (relative c j) (st.destFramesCounter j % 65536)) rfl
        fun s hs => Function.update_of_ne hs _ _
      refine ⟨_, L, ?_, hdest, ⟨?_, ?_, ?_, hholds ht hchain⟩, ht⟩
      · simp [finishAndClear, finish, hc, hn, setSizeLastFrame]
      · simp [view]
      · simp [view, hn]
      · simp [view, hc]
    | false =>
      obtain ⟨p, hp⟩ := Option.ne_none_iff_exists'.mp (hpos hc)
      obtain ⟨L₁, hdest, ht, hchain, hL₁⟩ := h.appendFrame hj hn hp (st.destFramesCounter j) rfl
      refine ⟨_, L₁, ?_, hdest, ⟨?_, ?_, ?_, hholds ht hchain⟩, ht⟩
      · simp [finishAndClear, finish, hc, hn, hp]
      · simp [view]
      · exact hL₁
      · simp [view, hc, setSizeLastFrame]
  · have hor : st.isNeighborFrame j = true ∨ st.destFrames j = none := by
      cases hn : st.isNeighborFrame j with
      | true => exact .inl rfl
      | false => exact .inr (hzero (by omega) hn)
    obtain ⟨hdest, ht, hchain⟩ := h.clear hj hor st.box.sizeLastFrame rfl fun _ _ => rfl
    refine ⟨_, L, ?_, hdest, ⟨?_, ?_, ?_, hholds ht hchain⟩, ht⟩
    · rw [finishAndClear, finish, if_neg hc]
      rcases hor with hn | hd
      · cases hd : st.destFrames j <;> simp [hn]
      · simp [hd]
    · simp [view]
    · rcases hor with hn | hd
      · simp [view, hn]
      · simp [view, hd]
    · simp [view, hc]

/-- Clearing the entries of finished threads does not change what the other threads do. -/
theorem foldlM_finish_of_clear {n : ℕ} (h : (List.range n).foldlM (finishAndClear c) st = some st₁) :
    (List.range n).foldlM (finish c st) st.box = some st₁.box ∧
      st₁.destFramesCounter = st.destFramesCounter ∧
      ∀ j, n ≤ j → st₁.destFrames j = st.destFrames j ∧ st₁.isNeighborFrame j = st.isNeighborFrame j := by
  induction n generalizing st₁ with
  | zero =>
    obtain rfl : st = st₁ := by simpa using h
    exact ⟨rfl, rfl, fun _ _ => ⟨rfl, rfl⟩⟩
  | succ n ih =>
    rw [List.range_succ, List.foldlM_append] at h
    obtain ⟨st', hst', hlast⟩ := Option.bind_eq_some_iff.mp h
    obtain ⟨hfold, hcounter, hkept⟩ := ih hst'
    obtain ⟨hd, hn⟩ := hkept n le_rfl
    have hlast' : finishAndClear c st' n = some st₁ := by simpa using hlast
    obtain ⟨box, hbox, rfl⟩ := Option.map_eq_some_iff.mp hlast'
    refine ⟨?_, hcounter, fun j hj => ?_⟩
    · have hfinish : finish c st st'.box n = some box := by
        rw [← hbox]
        simp only [finish, hcounter, hd, hn]
      rw [List.range_succ, List.foldlM_append, hfold]
      simp [hfinish]
    · have hjn : j ≠ n := by omega
      simpa [Function.update_of_ne hjn] using hkept j (by omega)

theorem finish_loop {v₀ : ℕ → View α} (h : Destinations exact r c st L)
    (hhead : ∀ j < numberOfExchanges D, Head T (v₀ j) (view c L st j)) :
    ∃ st₁ L₁, (List.range (numberOfExchanges D)).foldlM (finish c st) st.box = some st₁.box ∧
      Destinations exact r c st₁ L₁ ∧
      (∀ j < numberOfExchanges D, Finished (view c L st j) (view c L₁ st₁ j)) ∧ Outside c st L st₁ L₁ := by
  obtain ⟨st₁, L₁, hfold, hdest, hQ, hout⟩ := pass (f := finishAndClear c)
    (P := fun j v => v = view c L st j) (Q := fun j v => Finished (view c L st j) v)
    (fun st₁ L₁ h₁ j hj hv => by
      have hh := hhead j hj
      rw [← hv] at hh
      obtain ⟨st₂, L₂, hstep, h₂, hfin, ht⟩ := finishAndClear_spec h₁ hj
        (fun hc hd => by
          have := hh.counter_of_none hd
          simp only [view] at this
          omega)
        fun hc hn => by
          by_contra hd
          have := hh.counter_pos hd hn
          simp only [view] at this
          omega
      exact ⟨st₂, L₂, hstep, h₂, hv ▸ hfin, ht⟩) h fun _ _ => rfl
  exact ⟨st₁, L₁, (foldlM_finish_of_clear hfold).1, hdest, hQ, hout⟩

section Init

variable {box : ParticlesBox D T α} (hL : Linked box L)
include hL

theorem init_destinations (hatt : (box.attempts + 12) % maxTries = r)
    (hacc : exact → ∀ p ∈ box.allocated, ∃ s, p ∈ L s) (c : DataSpace D) :
    Destinations exact r c (init box c) L := by
  have hnot : ∀ j p, (init box c).isNeighborFrame j = false → (init box c).destFrames j ≠ some p := by
    intro j p hn
    simp only [init] at hn ⊢
    simp [hn]
  refine ⟨hL, hatt, fun j _ hn => ?_, fun j _ hn p hp => absurd hp (hnot j p hn),
    fun i _ j _ hn _ p hp => absurd hp (hnot i p hn), fun hM p hp => .inl (hacc hM p hp)⟩
  simp only [init] at hn ⊢
  have hsome := (Bool.and_eq_true_iff.mp hn).1
  obtain ⟨p, hp⟩ := Option.isSome_iff_exists.mp hsome
  have hlast := hL.last (relative c j)
  rw [hp] at hlast
  obtain ⟨l, hl⟩ := List.getLast?_eq_some_iff.mp hlast.symm
  exact ⟨l, p, hl, by simp [hn, hp]⟩

theorem init_head (hsize : ∀ s, box.sizeLastFrame s ≤ T) (c : DataSpace D) (j : ℕ) :
    Head T (view c L (init box c) j) (view c L (init box c) j) := by
  cases hn : usesLastFrame box c j with
  | true =>
    have hsome := (Bool.and_eq_true_iff.mp hn).1
    refine ⟨fun hd => ?_, fun _ hf => ?_, ?_, hsize _, fun _ => ?_, fun hf => ?_, fun h => h,
      fun hnil => ?_⟩
    · simp [view, init, hn] at hd
      simp [hd] at hsome
    · simp [view, init, hn] at hf
    · simpa [view, init, hn] using hsize _
    · simp [view, init, hn]
    · simp [view, init, hn] at hf
    · have hlast := hL.last (relative c j)
      rw [show L (relative c j) = [] from hnil] at hlast
      simp [hlast] at hsome
  | false =>
    refine ⟨fun _ => ?_, fun hd => ?_, ?_, hsize _, fun hf => ?_, fun _ hne => ?_, fun h => h,
      fun _ => ⟨hn, rfl⟩⟩
    · simp [view, init, hn]
    · simp [view, init, hn] at hd
    · simp [view, init, hn]
    · simp [view, init, hn] at hf
    · have hlast := hL.last (relative c j)
      have hne' : L (relative c j) ≠ [] := hne
      obtain ⟨p, hp⟩ := Option.ne_none_iff_exists'.mp (mt List.getLast?_eq_none_iff.mp hne')
      rw [hp] at hlast
      simpa [view, init, usesLastFrame, hlast] using hn

theorem init_holds {j : ℕ} (hc : Compact box (L (relative c j)) (box.sizeLastFrame (relative c j))) :
    (view c L (init box c) j).holds
      (level T ((init box c).destFrames j) ((init box c).destFramesCounter j))
      (box.contents (L (relative c j))) := by
  have hlast := hL.last (relative c j)
  change Holds box (chain c L (init box c) j) _ _
  cases hn : usesLastFrame box c j with
  | true =>
    have hsome := (Bool.and_eq_true_iff.mp hn).1
    obtain ⟨p, hp⟩ := Option.isSome_iff_exists.mp hsome
    have hchain : chain c L (init box c) j = L (relative c j) := by simp [chain, init, hn]
    rw [hchain]
    simp only [init, hn, if_true, hp, level, reduceCtorEq, if_false]
    exact ⟨hc.filled, fun _ _ => rfl⟩
  | false =>
    have hchain : chain c L (init box c) j = L (relative c j) := by simp [chain, init, hn]
    rw [hchain]
    simp only [init, hn, Bool.false_eq_true, if_false, level, if_true]
    refine ⟨?_, fun _ _ => rfl⟩
    by_cases hne : L (relative c j) = []
    · rw [hne]
      intro l p he
      simp at he
    · obtain ⟨p, hp⟩ := Option.ne_none_iff_exists'.mp (mt List.getLast?_eq_none_iff.mp hne)
      rw [hp] at hlast
      have hsize : box.sizeLastFrame (relative c j) = T := by simpa [usesLastFrame, hlast] using hn
      have hf := hc.filled
      rwa [hsize] at hf

omit hL in
theorem init_own (hpos : 0 < T) (hsize : ∀ s, box.sizeLastFrame s ≤ T) (c : DataSpace D) (j : ℕ) :
    (init box c).destFramesCounter j < T := by
  have hs := hsize (relative c j)
  cases hn : usesLastFrame box c j with
  | true =>
    have hne : box.sizeLastFrame (relative c j) ≠ T := by
      simpa using (Bool.and_eq_true_iff.mp hn).2
    simp only [init, hn, if_true]
    omega
  | false => simpa [init, hn] using hpos

end Init

/-- The particles that the block holds back for direction `j` after its last source frame are not
all handed over: if the destination had no frame, a frame is left that goes to its end. -/
def LeavesFrame (box : ParticlesBox D T α) (L : DataSpace D → List Ptr) (c : DataSpace D) (j : ℕ) : Prop :=
  L (relative c j) = [] → (∃ p ∈ L c, marked (box.multiMask p) j ≠ 0) →
    fillCounters D T (init box c).destFramesCounter ((L c).map fun p => marked (box.multiMask p)) j ≠ 0

/-- The effect of the kernel on one supercell. -/
structure BlockShifted (c : DataSpace D) (box : ParticlesBox D T α) (L : DataSpace D → List Ptr)
    (box' : ParticlesBox D T α) (L' : DataSpace D → List Ptr) : Prop where
  mustShift : box'.mustShift = Function.update box.mustShift c false
  own_list : L' c = L c
  own_size : box'.sizeLastFrame c = box.sizeLastFrame c
  own_frames : ∀ q ∈ L c, box'.attributes q = box.attributes q ∧
    box'.multiMask q = fun t => if 2 ≤ box.multiMask q t then 0 else box.multiMask q t
  outside : ∀ s, s ≠ c → (∀ j, j + 1 < numberOfExchanges D → s ≠ relative c j) → L' s = L s ∧
    box'.sizeLastFrame s = box.sizeLastFrame s ∧
    ∀ q ∈ L s, box'.multiMask q = box.multiMask q ∧ box'.attributes q = box.attributes q
  neighbor : ∀ j, j + 1 < numberOfExchanges D →
    Compact box (L (relative c j)) (box.sizeLastFrame (relative c j)) →
    (∀ m, 1 ≤ m → box'.contents (L' (relative c j)) m =
      deliver (box.contents (L (relative c j))) (box.contents (L c) (j + 2)) m) ∧
    (LeavesFrame box L c j → Compact box' (L' (relative c j)) (box'.sizeLastFrame (relative c j))) ∧
    (¬LeavesFrame box L c j →
      Filled box' (L' (relative c j)) T ∧ box'.sizeLastFrame (relative c j) = 0)
  stays : ∀ j, j + 1 < numberOfExchanges D → usesLastFrame box c j = true →
    box.sizeLastFrame (relative c j) + ((L c).map fun p => marked (box.multiMask p) j).sum < T →
    L' (relative c j) = L (relative c j) ∧ box'.sizeLastFrame (relative c j) =
      box.sizeLastFrame (relative c j) + ((L c).map fun p => marked (box.multiMask p) j).sum

theorem contents_eq_zero {box : ParticlesBox D T α} {frames : List Ptr} {m : ℕ}
    (h : ∀ q ∈ frames, ∀ t, box.multiMask q t ≠ m) : box.contents frames m = 0 := by
  induction frames with
  | nil => rfl
  | cons p frames ih =>
    rw [contents_cons, particles_eq_zero _ (h p (List.mem_cons_self ..)),
      ih fun q hq => h q (List.mem_cons_of_mem _ hq), add_zero]

theorem deliver_zero (N : ℕ → Multiset α) : deliver N 0 = N := by
  funext m
  by_cases hm : m = 1 <;> simp [deliver, hm]

theorem blockShifted_of_unmarked {box box' : ParticlesBox D T α} (hmask : ∀ q ∈ L c, ∀ t, box.multiMask q t ≤ 1)
    (hbox : box' = { box with mustShift := Function.update box.mustShift c false }) :
    BlockShifted c box L box' L := by
  subst hbox
  have hmarked : ∀ j, ∀ q ∈ L c, marked (box.multiMask q) j = 0 := fun j q hq =>
    Finset.card_eq_zero.mpr (Finset.filter_eq_empty_iff.mpr fun t _ he => by
      have := hmask q hq t
      omega)
  refine ⟨rfl, rfl, rfl, fun q hq => ⟨rfl, ?_⟩, fun _ _ _ => ⟨rfl, rfl, fun _ _ => ⟨rfl, rfl⟩⟩,
    fun j _ hc => ⟨fun m _ => ?_, fun _ => hc.congr fun _ _ => rfl, fun hnot => ?_⟩, fun j _ _ _ => ⟨rfl, ?_⟩⟩
  · funext t
    have := hmask q hq t
    rw [if_neg (by omega)]
  · have h0 : box.contents (L c) (j + 2) = 0 := contents_eq_zero fun q hq t => by
      have := hmask q hq t
      omega
    rw [h0, deliver_zero]
    exact contents_congr (fun _ _ => rfl) fun _ _ => rfl
  · exact absurd (fun _ ⟨q, hq, hne⟩ => absurd (hmarked j q hq) hne) hnot
  · have hsum : ((L c).map fun p => marked (box.multiMask p) j).sum = 0 := by
      refine List.sum_eq_zero fun n hn => ?_
      obtain ⟨q, hq, rfl⟩ := List.mem_map.mp hn
      exact hmarked j q hq
    rw [hsum]
    rfl

section Destination

variable {box : ParticlesBox D T α} (hT : T < 65536) (hpos : 0 < T) (hL : Linked box L)
  (h₁ : Destinations exact r c st₁ L₁) {j : ℕ} (hj : j + 1 < numberOfExchanges D)
  (hshift : ShiftedAll c (L c) (init box c) L st₁ L₁)
  (hhead : Head T (view c L (init box c) j) (view c L₁ st₁ j))
  (hfin : Finished (view c L₁ st₁ j) (view c L₂ st₂ j))

include hL hj hshift hfin in
theorem Finished.holds_list (hc : Compact box (L (relative c j)) (box.sizeLastFrame (relative c j))) :
    Holds st₂.box (L₂ (relative c j)) (level T (st₁.destFrames j) (st₁.destFramesCounter j))
      (deliver (box.contents (L (relative c j))) (box.contents (L c) (j + 2))) := by
  have hholds := hfin.holds _ _ (hshift.holds j hj _ (init_holds hL hc))
  change Holds st₂.box (chain c L₂ st₂ j) _ _ at hholds
  rwa [chain_of_none hfin.destFrame] at hholds

include hT hhead hfin in
theorem Finished.size_eq : st₂.box.sizeLastFrame (relative c j) =
    if 0 < st₁.destFramesCounter j then st₁.destFramesCounter j
    else st₁.box.sizeLastFrame (relative c j) := by
  have hle : st₁.destFramesCounter j ≤ T := hhead.counter_le
  have hs := hfin.size
  simp only [view] at hs
  rwa [Nat.mod_eq_of_lt (by omega)] at hs

include hj hshift hhead in
/-- All particles of a destination that had no frame are handed over. -/
theorem not_leavesFrame (hnot : ¬LeavesFrame box L c j) :
    L (relative c j) = [] ∧ st₁.destFramesCounter j = 0 ∧ st₁.destFrames j = none ∧
      st₁.box.sizeLastFrame (relative c j) = box.sizeLastFrame (relative c j) := by
  unfold LeavesFrame at hnot
  push Not at hnot
  obtain ⟨hnil, -, h0⟩ := hnot
  have hcounter : st₁.destFramesCounter j = 0 := by
    rw [hshift.counter j (by omega)]
    exact h0
  obtain ⟨hn, hs⟩ := hhead.unchanged_of_nil hnil
  refine ⟨hnil, hcounter, ?_, hs⟩
  by_contra hd
  have := hhead.counter_pos hd hn
  simp only [view] at this
  omega

include hT hpos hL h₁ hj hshift hhead hfin in
theorem Finished.compact (hown : (init box c).destFramesCounter j < T)
    (hc : Compact box (L (relative c j)) (box.sizeLastFrame (relative c j))) (hleaves : LeavesFrame box L c j) :
    Compact st₂.box (L₂ (relative c j)) (st₂.box.sizeLastFrame (relative c j)) := by
  have hj' : j < numberOfExchanges D := by omega
  have hfilled := (Finished.holds_list hL hj hshift hfin hc).filled
  have hframes : L₂ (relative c j) = chain c L₁ st₁ j := hfin.frames
  have hsize := Finished.size_eq hT hhead hfin
  have hcle : st₁.destFramesCounter j ≤ T := hhead.counter_le
  rcases Nat.eq_zero_or_pos (st₁.destFramesCounter j) with h0 | hcpos
  · rw [if_neg (by omega)] at hsize
    cases hd : st₁.destFrames j with
    | some p =>
      have hn : st₁.isNeighborFrame j = true := by
        by_contra hn
        have := hhead.counter_pos (by simp [view, hd]) (Bool.eq_false_iff.mpr hn)
        simp only [view] at this
        omega
      have hle : st₁.box.sizeLastFrame (relative c j) ≤ st₁.destFramesCounter j := hhead.size_le_counter hn
      rw [hd, level, if_neg (by simp), h0] at hfilled
      have hs0 : st₂.box.sizeLastFrame (relative c j) = 0 := by omega
      rw [hs0]
      exact ⟨hfilled, fun _ => rfl, by omega⟩
    | none =>
      have hn := h₁.not_isNeighborFrame hj' hd
      have hL₂ : L₂ (relative c j) = L₁ (relative c j) := hframes.trans (chain_of_none hd)
      rw [hd, level, if_pos rfl] at hfilled
      by_cases hstarted : L (relative c j) = []
      · have hquiet : ∀ p ∈ L c, marked (box.multiMask p) j = 0 := by
          by_contra hne
          push Not at hne
          refine hleaves hstarted hne ?_
          rw [← h0, hshift.counter j hj']
          rfl
        have hsum : ((L c).map fun p => marked ((init box c).box.multiMask p) j).sum = 0 := by
          refine List.sum_eq_zero fun n hn => ?_
          obtain ⟨q, hq, rfl⟩ := List.mem_map.mp hn
          exact hquiet q hq
        obtain ⟨-, -, -, hl, hs⟩ := hshift.kept j hj' (by rwa [hsum])
        have hs0 : st₂.box.sizeLastFrame (relative c j) = 0 :=
          hsize.trans (hs.trans (hc.size_of_nil hstarted))
        rw [hs0, hL₂, hl, hstarted]
        exact ⟨fun l p he => by simp at he, fun _ => rfl, by omega⟩
      · have hs : st₁.box.sizeLastFrame (relative c j) = T := hhead.size_eq hn hstarted
        rw [hsize, hs]
        refine ⟨hfilled, fun he => ?_, le_rfl⟩
        exact absurd (hL₂.symm.trans he) (hhead.frames_ne_nil hstarted)
  · have hd : st₁.destFrames j ≠ none := fun hd => by
      have := hhead.counter_of_none hd
      simp only [view] at this
      omega
    rw [if_pos hcpos] at hsize
    rw [hsize]
    rw [level, if_neg hd] at hfilled
    refine ⟨hfilled, fun he => ?_, hcle⟩
    obtain ⟨p, hp⟩ := Option.ne_none_iff_exists'.mp hd
    obtain ⟨l, hl, -⟩ := h₁.chain_eq hj' hp
    rw [hframes, hl] at he
    simp at he

include hT hj hshift hhead hfin in
/-- Few particles for a last frame with free slots. -/
theorem Finished.stays (huse : usesLastFrame box c j = true)
    (hlt : box.sizeLastFrame (relative c j) + ((L c).map fun p => marked (box.multiMask p) j).sum < T) :
    L₂ (relative c j) = L (relative c j) ∧ st₂.box.sizeLastFrame (relative c j) =
      box.sizeLastFrame (relative c j) + ((L c).map fun p => marked (box.multiMask p) j).sum := by
  have hc : (init box c).destFramesCounter j = box.sizeLastFrame (relative c j) := by simp [init, huse]
  obtain ⟨-, hc₁, hn₁, hl₁, hs₁⟩ := hshift.kept j (by omega) (by rw [hc]; exact hlt)
  rw [hc] at hc₁
  have hf := hfin.frames
  have hn : st₁.isNeighborFrame j = true := hn₁.trans huse
  simp only [view, hn, if_true, List.append_nil, hl₁] at hf
  refine ⟨hf, ?_⟩
  have hc₂ : st₁.destFramesCounter j =
      box.sizeLastFrame (relative c j) + ((L c).map fun p => marked (box.multiMask p) j).sum := hc₁
  have hs₂ : st₁.box.sizeLastFrame (relative c j) = box.sizeLastFrame (relative c j) := hs₁
  rw [Finished.size_eq hT hhead hfin]
  split <;> omega

end Destination

section Run

variable {box : ParticlesBox D T α} (hT : 2 * T ≤ 65536) (hpos : 0 < T) (hL : Linked box L)
  (hsize : ∀ s, box.sizeLastFrame s ≤ T)
  (hmask : ∀ q ∈ L c, ∀ t, box.multiMask q t ≤ numberOfExchanges D)
  (h₁ : Destinations exact r c st₁ L₁) (hshift : ShiftedAll c (L c) (init box c) L st₁ L₁)
  (hhead : ∀ j < numberOfExchanges D, Head T (view c L (init box c) j) (view c L₁ st₁ j))
  (hfin : ∀ j < numberOfExchanges D, Finished (view c L₁ st₁ j) (view c L₂ st₂ j))
  (hout : Outside c st₁ L₁ st₂ L₂)
include hT hpos hhead hfin

include hsize hshift hout in
theorem finished_size_le (s : DataSpace D) : st₂.box.sizeLastFrame s ≤ T := by
  by_cases hs : ∃ j < numberOfExchanges D, s = relative c j
  · obtain ⟨j, hj, rfl⟩ := hs
    rw [Finished.size_eq (by omega) (hhead j hj) (hfin j hj)]
    split
    · exact (hhead j hj).counter_le
    · exact (hhead j hj).size_le
  · have hs' : ∀ j < numberOfExchanges D, s ≠ relative c j := fun j hj he => hs ⟨j, hj, he⟩
    rw [hout.size s hs', (hshift.outside s hs').2]
    exact hsize s

include hsize hmask hshift in
/-- The own supercell is the destination of the last direction, which no particle takes. -/
theorem finished_own : L₂ c = L c ∧ st₂.box.sizeLastFrame c = box.sizeLastFrame c ∧ L₁ c = L c := by
  have hE := numberOfExchanges_pos D
  have hE' : numberOfExchanges D - 1 < numberOfExchanges D := by omega
  have hsum : ((L c).map fun p => marked ((init box c).box.multiMask p) (numberOfExchanges D - 1)).sum = 0 := by
    refine List.sum_eq_zero fun n hn => ?_
    obtain ⟨q, hq, rfl⟩ := List.mem_map.mp hn
    exact marked_own (hmask q hq)
  obtain ⟨hd, hc, hn, hl, hs⟩ := hshift.kept _ hE' (by rw [hsum]; exact init_own hpos hsize c _)
  rw [hsum, Nat.add_zero] at hc
  have hd := hd (.inr fun q hq => marked_own (hmask q hq))
  have hf := (hfin _ hE').frames
  have hs₂ := Finished.size_eq (by omega) (hhead _ hE') (hfin _ hE')
  rw [relative_own] at hl hs hs₂
  simp only [view, relative_own, hl, hn, hd] at hf
  rw [hc, hs] at hs₂
  cases hu : usesLastFrame box c (numberOfExchanges D - 1) with
  | true =>
    simp only [init, hu, if_true, relative_own, List.append_nil] at hf hs₂
    refine ⟨hf, ?_, hl⟩
    rw [hs₂]
    split <;> rfl
  | false =>
    simp only [init, hu, Bool.false_eq_true, if_false, Option.toList_none, List.append_nil,
      lt_irrefl] at hf hs₂
    exact ⟨hf, hs₂, hl⟩

include hL hsize hmask h₁ hshift hout in
theorem blockShifted_of_run (hms : box.mustShift c = false) : BlockShifted c box L st₂.box L₂ := by
  obtain ⟨hL₂, hs₂, hL₁⟩ := finished_own hT hpos hsize hmask hshift hhead hfin
  have hownc : ∀ j, j + 1 < numberOfExchanges D → c ≠ relative c j := fun j hj => (relative_ne_own c hj).symm
  have hkeep : ∀ s, L₁ s = L s → ∀ q ∈ L s, st₂.box.multiMask q = st₁.box.multiMask q := fun s hs q hq =>
    hout.keeps.multiMask q (h₁.linked.allocated s q (by rwa [hs]))
  refine ⟨?_, hL₂, hs₂, fun q hq => ⟨?_, ?_⟩, fun s hsc hs => ?_, fun j hj hc => ?_,
    fun j hj huse hlt => Finished.stays (by omega) hj hshift (hhead j (by omega)) (hfin j (by omega)) huse hlt⟩
  · rw [hout.keeps.mustShift, hshift.mustShift, ← hms, Function.update_eq_self]
    rfl
  · rw [hout.keeps.attributes, (hshift.untouched c hownc q hq).2]
    rfl
  · rw [hkeep c hL₁ q hq, hshift.deleted q hq]
    rfl
  · have hs' : ∀ j < numberOfExchanges D, s ≠ relative c j := by
      intro j hj he
      rcases Nat.lt_or_ge (j + 1) (numberOfExchanges D) with hlt | hge
      · exact hs j hlt he
      · obtain rfl : j = numberOfExchanges D - 1 := by omega
        exact hsc (he.trans (relative_own c))
    obtain ⟨hl, hsz⟩ := hshift.outside s hs'
    refine ⟨(hout.lists s hs').trans hl, (hout.size s hs').trans hsz, fun q hq => ?_⟩
    obtain ⟨hm, ha⟩ := hshift.untouched s hs q hq
    refine ⟨?_, ?_⟩
    · rw [hkeep s hl q hq, hm fun hqc => hsc (hL.disjoint s c q hq hqc)]
      rfl
    · rw [hout.keeps.attributes, ha]
      rfl
  · have hj' : j < numberOfExchanges D := by omega
    have hholds := Finished.holds_list hL hj hshift (hfin j hj') hc
    refine ⟨hholds.contents_eq, Finished.compact (by omega) hpos hL h₁ hj hshift (hhead j hj') (hfin j hj')
      (init_own hpos hsize c j) hc, fun hnot => ?_⟩
    obtain ⟨hnil, h0, hd, hs⟩ := not_leavesFrame hj hshift (hhead j hj') hnot
    have hfilled := hholds.filled
    rw [hd, level, if_pos rfl] at hfilled
    refine ⟨hfilled, ?_⟩
    rw [Finished.size_eq (by omega) (hhead j hj') (hfin j hj'), if_neg (by omega), hs, hc.size_of_nil hnil]

end Run

/-- Every frame on the heap is in the list of a supercell. -/
def Accounted (box : ParticlesBox D T α) (L : DataSpace D → List Ptr) : Prop :=
  ∀ p ∈ box.allocated, ∃ s, p ∈ L s

theorem block_spec (hM : MallocMC.Serves M r) (hexact : exact → MallocMC.ServesOnly M r)
    (hT : 2 * T ≤ 65536) (hpos : 0 < T)
    (order : ℕ → Equiv.Perm (Fin T)) {box : ParticlesBox D T α} (hL : Linked box L)
    (hatt : (box.attempts + 12) % maxTries = r) (hacc : exact → Accounted box L)
    (hsize : ∀ s, box.sizeLastFrame s ≤ T)
    (hmask : ∀ q ∈ L c, ∀ t, box.multiMask q t ≤ numberOfExchanges D) :
    ∃ box' L', block M order box c = some box' ∧ Linked box' L' ∧
      (box'.attempts + 12) % maxTries = r ∧ (exact → Accounted box' L') ∧
      (∀ s, box'.sizeLastFrame s ≤ T) ∧
      (box.mustShift c = true ∨ (∀ q ∈ L c, ∀ t, box.multiMask q t ≤ 1) → BlockShifted c box L box' L') := by
  by_cases hms : box.mustShift c = true
  · have hL' : Linked (box.setMustShift c false) L :=
      hL.congr rfl rfl (fun _ _ _ => rfl) (fun _ _ _ => rfl) hL.allocated
    cases hLc : L c with
    | nil =>
      have hfirst : (box.setMustShift c false).firstFramePtr c = none := by simp [hL'.first, hLc]
      refine ⟨box.setMustShift c false, L, ?_, hL', hatt, hacc, hsize, fun _ => ?_⟩
      · rw [block, if_pos hms]
        dsimp only
        rw [hfirst]
      · exact blockShifted_of_unmarked (by simp [hLc]) rfl
    | cons frame rest =>
      have hfirst : (box.setMustShift c false).firstFramePtr c = some frame := by simp [hL'.first, hLc]
      have hlen := hL'.length_le c
      rw [hLc, List.length_cons] at hlen
      have hdest : Destinations exact r c (init (box.setMustShift c false) c) L :=
        init_destinations hL' hatt hacc c
      obtain ⟨st₁, L₁, hrun, h₁, hshift, hhead⟩ := shiftFrames_spec hM hexact hT hpos order (l := [])
        (by simpa using hLc) (Nat.lt_of_succ_le hlen) hdest
        (fun j _ => init_head hL' hsize c j) (by rwa [← hLc]) (init_own hpos hsize c _)
      rw [← hLc] at hshift
      obtain ⟨st₂, L₂, hfinish, h₂, hfin, hout⟩ := finish_loop h₁ hhead
      have hsize' : ∀ s, (box.setMustShift c false).sizeLastFrame s ≤ T := hsize
      refine ⟨st₂.box, L₂, ?_, h₂.linked, h₂.attempts, fun honly p hp => ?_,
        finished_size_le hT hpos hsize' hshift hhead hfin hout, fun _ => ?_⟩
      · rw [block, if_pos hms]
        dsimp only
        rw [hfirst]
        dsimp only
        rw [hrun]
        exact hfinish
      · rcases h₂.accounted honly p hp with hs | ⟨j, hj, -, hpj⟩
        · exact hs
        · have hnone : st₂.destFrames j = none := (hfin j hj).destFrame
          rw [hnone] at hpj
          simp at hpj
      · have hb := blockShifted_of_run hT hpos hL' hsize hmask h₁ hshift hhead hfin hout
          (by simp [setMustShift])
        refine ⟨?_, hb.own_list, hb.own_size, hb.own_frames, hb.outside, fun j hj hc =>
          hb.neighbor j hj (hc.congr fun _ _ => rfl), hb.stays⟩
        rw [hb.mustShift]
        simp [setMustShift]
  · refine ⟨box, L, by rw [block, if_neg hms], hL, hatt, hacc, hsize, fun hor => ?_⟩
    refine blockShifted_of_unmarked (hor.resolve_left hms) ?_
    have hupdate : Function.update box.mustShift c false = box.mustShift := by
      rw [← Bool.eq_false_iff.mpr hms, Function.update_eq_self]
    rw [hupdate]

end PIConGPU.KernelShiftParticles
