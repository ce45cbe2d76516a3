import PIConGPU.CurrentExchange
import PIConGPU.GuardExchanges

/-!
# The exchanges of the current density

The exchanges of the current have memory of their own. Their extents are such that the cells of a rank that
are sent are the part of its guard within the margins, and the cells that receive lie in the interior.
-/
namespace PIConGPU

open GridBuffer

def MappingDescription.getGridLayout {D : ℕ} (m : MappingDescription D) (superCellSize : DataSpace D) : GridLayout D where
  dataSpace := fun d => superCellSize d * (m.gridSuperCells d - 2 * m.guardingSuperCells)
  guard := fun d => superCellSize d * m.guardingSuperCells

namespace FieldJ

section Registration

variable {D : ℕ} {communicationTag : ℕ} {tags tags' : UniquTag} {buffer buffer' : GridBuffer D}
  {size : ℕ → DataSpace D} {done : Set ℕ}

/-- The loop over all directions in the constructor. -/
def addExchangeBuffers (size : ℕ → DataSpace D) (communicationTag : ℕ) (st : UniquTag × GridBuffer D) :
    Except String (UniquTag × GridBuffer D) :=
  (List.range' 1 (numberOfExchanges D - 1)).foldlM (fun st i =>
    st.2.addExchangeBuffer st.1 (Mask.ofExchange i) (size i) communicationTag) st

/-- The buffer has exchanges of the given sizes in the given directions, and no others. -/
structure RegisteredBuffers (size : ℕ → DataSpace D) (done : Set ℕ) (buffer : GridBuffer D) : Prop where
  receive : ∀ i ∈ done, ∃ re, buffer.receiveExchanges i = some re ∧ re.size = size i
  send : ∀ i ∈ done, ∃ se, buffer.sendExchanges (Mask.mirrored i) = some se ∧ se.size = size i
  receiveMask : ∀ ex, buffer.receiveMask.isSet ex = true ↔ ex ∈ done
  sendMask : ∀ ex, buffer.sendMask.isSet ex = true ↔ (1 ≤ ex ∧ ex < 27) ∧ Mask.mirrored ex ∈ done

theorem RegisteredBuffers.init (layout : GridLayout D) : RegisteredBuffers size ∅ (.init layout) where
  receive _ h := h.elim
  send _ h := h.elim
  receiveMask ex := by simp [GridBuffer.init]
  sendMask ex := by simp [GridBuffer.init]

theorem RegisteredBuffers.add (hr : RegisteredBuffers size done buffer) (hdone : ∀ j ∈ done, j < 27) {i : ℕ} (hi : 1 ≤ i)
    (hi' : i < 27) (hnew : i ∉ done) (hsize : ∏ d, size i d ≠ 0)
    (h : buffer.addExchangeBuffer tags (Mask.ofExchange i) (size i) communicationTag = .ok (tags', buffer')) :
    RegisteredBuffers size (insert i done) buffer' := by
  obtain ⟨tag, hmask, hbuffer⟩ := addExchangeBuffer_single hi hi' hsize h
  have hother : ∀ j ∈ done, j ≠ i ∧ Mask.mirrored j ≠ Mask.mirrored i := fun j hj => by
    have hji : j ≠ i := fun hji => hnew (hji ▸ hj)
    refine ⟨hji, fun hm => hji ?_⟩
    rw [← Mask.mirrored_mirrored (hdone j hj), hm, Mask.mirrored_mirrored hi']
  have hrecv : ∀ ex, buffer'.receiveMask.isSet ex = true ↔ ex ∈ insert i done := fun ex => by
    rw [hbuffer]
    simp only [setExchanges, Mask.isSet_add, Mask.isSet_ofExchange, Bool.or_eq_true, hr.receiveMask,
      decide_eq_true_iff, Set.mem_insert_iff]
    tauto
  refine ⟨fun j hj => ?_, fun j hj => ?_, hrecv, fun ex => ?_⟩
  · rw [hbuffer]
    rcases hj with rfl | hj
    · exact ⟨.ofDataSpace (size j) j tag, setExchanges_receiveExchanges_self .., rfl⟩
    · obtain ⟨re, h1, h2⟩ := hr.receive j hj
      exact ⟨re, (setExchanges_receiveExchanges_ne _ _ (hother j hj).1).trans h1, h2⟩
  · rw [hbuffer]
    rcases hj with rfl | hj
    · exact ⟨.ofDataSpace (size j) (Mask.mirrored j) tag, setExchanges_sendExchanges_self .., rfl⟩
    · obtain ⟨se, h1, h2⟩ := hr.send j hj
      exact ⟨se, (setExchanges_sendExchanges_ne _ _ (hother j hj).2).trans h1, h2⟩
  · obtain ⟨n, hn, hiff⟩ := Mask.getMirroredMask_spec (buffer.receiveMask.add (Mask.ofExchange i))
    obtain rfl := Except.ok.inj (hn.symm.trans hmask)
    rw [hiff, ← hrecv]
    rw [hbuffer]
    rfl

theorem RegisteredBuffers.skip (hr : RegisteredBuffers size done buffer) {i : ℕ} (hsize : ∏ d, size i d = 0)
    (h : buffer.addExchangeBuffer tags (Mask.ofExchange i) (size i) communicationTag = .ok (tags', buffer')) :
    RegisteredBuffers size done buffer' := by
  rw [addExchangeBuffer] at h
  split at h
  · cases h
  · simp only [hsize, ne_eq, not_true_eq_false, if_false, Except.ok.injEq, Prod.mk.injEq] at h
    obtain ⟨-, rfl⟩ := h
    exact ⟨hr.receive, hr.send, hr.receiveMask, hr.sendMask⟩

theorem RegisteredBuffers.run {l : List ℕ} (hnd : l.Nodup) (hl : ∀ i ∈ l, 1 ≤ i ∧ i < 27) (hdone : ∀ j ∈ done, j < 27)
    (hnew : ∀ i ∈ l, i ∉ done) (hr : RegisteredBuffers size done buffer)
    (h : l.foldlM (fun st i => st.2.addExchangeBuffer st.1 (Mask.ofExchange i) (size i) communicationTag)
      (tags, buffer) = .ok (tags', buffer')) :
    RegisteredBuffers size (done ∪ {i | i ∈ l ∧ ∏ d, size i d ≠ 0}) buffer' := by
  induction l generalizing tags buffer done with
  | nil =>
    obtain ⟨-, rfl⟩ : tags = tags' ∧ buffer = buffer' := by simpa using Except.ok.inj h
    simpa using hr
  | cons i l ih =>
    obtain ⟨hil, hnd⟩ := List.nodup_cons.mp hnd
    obtain ⟨hi, hi'⟩ := hl i (List.mem_cons_self ..)
    have hl' : ∀ j ∈ l, 1 ≤ j ∧ j < 27 := fun j hj => hl j (List.mem_cons_of_mem _ hj)
    rw [List.foldlM_cons] at h
    cases hadd : buffer.addExchangeBuffer tags (Mask.ofExchange i) (size i) communicationTag with
    | error e =>
      simp only [hadd] at h
      cases h
    | ok st =>
      simp only [hadd] at h
      by_cases hsize : ∏ d, size i d = 0
      · have hrest := ih hnd hl' hdone (fun j hj => hnew j (List.mem_cons_of_mem _ hj)) (hr.skip hsize hadd) h
        convert hrest using 1
        ext j
        grind
      · have hstep := hr.add hdone hi hi' (hnew i (List.mem_cons_self ..)) hsize hadd
        have hrest := ih hnd hl'
          (by
            rintro j (rfl | hj)
            · exact hi'
            · exact hdone j hj)
          (by
            rintro j hj (rfl | hj')
            · exact hil hj
            · exact hnew j (List.mem_cons_of_mem _ hj) hj')
          hstep h
        convert hrest using 1
        ext j
        grind

theorem registered_addExchangeBuffers (hD : D ≤ 3) {layout : GridLayout D}
    (h : addExchangeBuffers size communicationTag (tags, .init layout) = .ok (tags', buffer')) :
    RegisteredBuffers size {i | (1 ≤ i ∧ i < numberOfExchanges D) ∧ ∏ d, size i d ≠ 0} buffer' := by
  have h27 : numberOfExchanges D ≤ 27 := by
    simp only [numberOfExchanges]
    interval_cases D <;> norm_num
  have hrun := RegisteredBuffers.run List.nodup_range' (fun i hi => by rw [List.mem_range'_1] at hi; omega)
    (by simp) (by simp) (RegisteredBuffers.init layout) h
  convert hrun using 1
  ext i
  have : 0 < numberOfExchanges D := by simp [numberOfExchanges]
  simp only [Set.mem_ofPred_eq, Set.empty_union, List.mem_range'_1]
  omega

end Registration

section Geometry

variable {D : ℕ} (m : MappingDescription D) (superCellSize originGuard endGuard : DataSpace D)

def exchangeSize (i : ℕ) : DataSpace D :=
  guardingCells originGuard endGuard (m.getGridLayout superCellSize).dataSpace i

theorem exchangeSize_eq (i : ℕ) (d : Fin D) :
    exchangeSize m superCellSize originGuard endGuard i d =
      if getRelativeDirections D i d = -1 then endGuard d
      else if getRelativeDirections D i d = 1 then originGuard d else (m.getGridLayout superCellSize).dataSpace d := by
  rw [exchangeSize, guardingCells]
  rcases getRelativeDirections_cases D i d with hd | hd | hd <;> simp [hd]

/-- One guarding supercell, which holds the margins. -/
structure Accepted : Prop where
  guard : m.guardingSuperCells = 1
  size_pos : ∀ d, 0 < superCellSize d
  grid : ∀ d, 3 ≤ m.gridSuperCells d
  margins : ∀ d, (0 ≤ originGuard d ∧ originGuard d ≤ superCellSize d) ∧ 0 ≤ endGuard d ∧ endGuard d ≤ superCellSize d

variable {m superCellSize originGuard endGuard} (h : Accepted m superCellSize originGuard endGuard)

include h

theorem Accepted.layout (d : Fin D) : (m.getGridLayout superCellSize).guard d = superCellSize d ∧
    superCellSize d ≤ (m.getGridLayout superCellSize).dataSpace d ∧
    (m.getGridLayout superCellSize).dataSpace d + superCellSize d = (m.gridSuperCells d - 1) * superCellSize d ∧
    m.gridSuperCells d * superCellSize d = (m.getGridLayout superCellSize).dataSpace d + 2 * superCellSize d := by
  have hs := h.size_pos d
  have hg := h.grid d
  simp only [MappingDescription.getGridLayout, h.guard]
  refine ⟨by ring, ?_, by ring, by ring⟩
  have hle : superCellSize d * 1 ≤ superCellSize d * (m.gridSuperCells d - 2 * 1) :=
    mul_le_mul_of_nonneg_left (by omega) hs.le
  omega

theorem Accepted.fits {i ex : ℕ}
    (hex : ∀ d, getRelativeDirections D ex d = 0 ↔ getRelativeDirections D i d = 0) :
    Fits (kernelArguments m superCellSize (exchangeSize m superCellSize originGuard endGuard i) ex) where
  size_pos := h.size_pos
  direction d := getRelativeDirections_cases D ex d
  across d hd := by
    have hi : getRelativeDirections D i d ≠ 0 := fun hi => hd ((hex d).mpr hi)
    have hm := h.margins d
    have hr := getRelativeDirections_cases D i d
    simp only [kernelArguments] at hd
    simp only [kernelArguments, ExchangeMappingMethods.guard, if_pos hd, h.guard, exchangeSize_eq]
    refine ⟨trivial, ?_⟩
    split_ifs <;> omega
  along d hd := by
    have hi := (hex d).mp hd
    simp only [kernelArguments] at hd
    simp only [kernelArguments, ExchangeMappingMethods.guard, exchangeSize_eq, hi, hd, h.guard,
      MappingDescription.getGridLayout]
    norm_num
    ring

/-- The cells that are sent in the mirrored direction are the guard cells in this direction. -/
theorem Accepted.mem_launchBox_iff (hD : D ≤ 3) (i : ℕ) (p : DataSpace D) :
    p ∈ launchBox (exchangeSize m superCellSize originGuard endGuard i) ↔
      InHalo (m.getGridLayout superCellSize) originGuard endGuard (Mask.mirrored i)
        (p + bashOrigin m superCellSize (exchangeSize m superCellSize originGuard endGuard i) (Mask.mirrored i)) := by
  refine forall_congr' fun d => ?_
  obtain ⟨h1, h2, h3, -⟩ := h.layout d
  have hm := congrFun (Mask.getRelativeDirections_mirrored hD i) d
  rw [Pi.neg_apply] at hm
  rw [Pi.add_apply, bashOrigin, hm, exchangeSize_eq, h1, ← h3]
  rcases getRelativeDirections_cases D i d with hd | hd | hd <;> rw [hd] <;> norm_num <;> omega

/-- Received cells are added to the interior. -/
theorem Accepted.interior_insert {i : ℕ} {p : DataSpace D}
    (hp : p ∈ launchBox (exchangeSize m superCellSize originGuard endGuard i)) :
    Interior (m.getGridLayout superCellSize)
      (p + insertOrigin m superCellSize (exchangeSize m superCellSize originGuard endGuard i) i) := by
  intro d
  obtain ⟨h1, h2, h3, -⟩ := h.layout d
  have hm := h.margins d
  have hpd := hp d
  rw [exchangeSize_eq] at hpd
  rw [Pi.add_apply, insertOrigin, exchangeSize_eq, h1, ← h3]
  rcases getRelativeDirections_cases D i d with hd | hd | hd <;> rw [hd] at hpd ⊢ <;> norm_num at hpd ⊢ <;> omega

theorem Accepted.mem_field_of_interior {x : DataSpace D} (hx : Interior (m.getGridLayout superCellSize) x) :
    x ∈ launchBox fun d => m.gridSuperCells d * superCellSize d := by
  intro d
  obtain ⟨h1, h2, h3, h4⟩ := h.layout d
  have hs := h.size_pos d
  have hxd := hx d
  dsimp only
  omega

theorem Accepted.mem_field_of_inHalo {i : ℕ} {x : DataSpace D}
    (hx : InHalo (m.getGridLayout superCellSize) originGuard endGuard i x) :
    x ∈ launchBox fun d => m.gridSuperCells d * superCellSize d := by
  have hbuffer := hx.inBuffer (fun d => by have := h.layout d; have := h.size_pos d; omega) fun d => by
    have h1 := h.layout d
    have h2 := h.margins d
    have h3 := h.size_pos d
    omega
  intro d
  obtain ⟨h1, h2, h3, h4⟩ := h.layout d
  have hxd := hbuffer d
  simp only [GridLayout.getDataSpace, Pi.add_apply] at hxd
  dsimp only
  omega

end Geometry

section Cells

variable {D : ℕ} (layout : GridLayout D) (originGuard endGuard : DataSpace D)

def boxAt (offset size : DataSpace D) : Finset (DataSpace D) := ((boxCells size).map (offset + ·)).toFinset

def interiorCells : Finset (DataSpace D) := boxAt layout.guard layout.dataSpace

/-- The cells of the guard within the margins, edges and corners included. -/
def marginCells : Finset (DataSpace D) :=
  boxAt (layout.guard - originGuard) (originGuard + layout.dataSpace + endGuard) \ interiorCells layout

variable {layout originGuard endGuard} {x : DataSpace D}

@[simp] theorem mem_boxAt {offset size : DataSpace D} :
    x ∈ boxAt offset size ↔ ∀ d, offset d ≤ x d ∧ x d < offset d + size d := by
  rw [boxAt, List.mem_toFinset]
  exact ExchangeIntern.mem_cells (e := ⟨0, 0, size, some offset⟩)

@[simp] theorem mem_interiorCells : x ∈ interiorCells layout ↔ Interior layout x := by
  simp [interiorCells, Interior]

/-- Every guard cell within the margins belongs to one direction. -/
theorem mem_marginCells (hmargin : ∀ d, 0 ≤ originGuard d ∧ 0 ≤ endGuard d) (hsize : ∀ d, 0 ≤ layout.dataSpace d) :
    x ∈ marginCells layout originGuard endGuard ↔
      ∃ i, (1 ≤ i ∧ i < numberOfExchanges D) ∧ InHalo layout originGuard endGuard i x := by
  simp only [marginCells, Finset.mem_sdiff, mem_boxAt, mem_interiorCells, Pi.add_apply, Pi.sub_apply]
  constructor
  · rintro ⟨hx, hinterior⟩
    obtain ⟨i, hi, hdir⟩ := exists_getRelativeDirections (r := fun d : Fin D =>
        if x d < layout.guard d then -1 else if layout.guard d + layout.dataSpace d ≤ x d then 1 else 0)
      fun d => by split_ifs <;> simp
    have hhalo : InHalo layout originGuard endGuard i x := by
      intro d
      have h1 := hx d
      have hdird := congrFun hdir d
      by_cases hlow : x d < layout.guard d
      · rw [if_pos hlow] at hdird
        rw [hdird]
        norm_num
        omega
      · by_cases hup : layout.guard d + layout.dataSpace d ≤ x d
        · rw [if_neg hlow, if_pos hup] at hdird
          rw [hdird]
          norm_num
          omega
        · rw [if_neg hlow, if_neg hup] at hdird
          rw [hdird]
          norm_num
          omega
    refine ⟨i, ⟨Nat.one_le_iff_ne_zero.mpr fun h0 => hinterior fun d => ?_, hi⟩, hhalo⟩
    have hd := hhalo d
    rw [h0, getRelativeDirections_zero] at hd
    simpa using hd
  · rintro ⟨i, hi, hhalo⟩
    refine ⟨fun d => ?_, fun hinterior => not_inHalo_of_interior hi.1 hi.2 hinterior hhalo⟩
    have h1 := hhalo d
    have h2 := hmargin d
    have h3 := hsize d
    split_ifs at h1 <;> omega

end Cells

end FieldJ

end PIConGPU
