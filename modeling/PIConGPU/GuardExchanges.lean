import PIConGPU.ExchangeRegions

/-!
# The exchanges of a field

A field registers one exchange for each direction in which it reads beyond its local cells. The cells
that are received in a direction form a part of the guard.
-/
namespace PIConGPU

variable {D : ℕ}

namespace GridBuffer

variable {make : Maker D} {communicationTag : ℕ} {send : Mask} {tags tags' : UniquTag} {buffer buffer' : GridBuffer D}

theorem foldlM_addDirection_unset {l : List ℕ} (hl : ∀ ex ∈ l, send.isSet ex = false)
    (st : UniquTag × GridBuffer D) : l.foldlM (addDirection make communicationTag send) st = .ok st := by
  induction l with
  | nil => rfl
  | cons ex l ih =>
    have hex := hl ex (List.mem_cons_self ..)
    rw [List.foldlM_cons, addDirection, if_neg (by simp [hex])]
    exact ih fun e he => hl e (List.mem_cons_of_mem _ he)

theorem foldlM_addDirection_single {l : List ℕ} (hnd : l.Nodup) {e : ℕ} (he : e ∈ l)
    (hsend : ∀ ex ∈ l, send.isSet ex = true ↔ ex = e) (st : UniquTag × GridBuffer D) :
    l.foldlM (addDirection make communicationTag send) st = addDirection make communicationTag send st e := by
  obtain ⟨l₁, l₂, rfl⟩ := List.append_of_mem he
  obtain ⟨-, hnd₂, hdisj⟩ := List.nodup_append.mp hnd
  have h₁ : ∀ ex ∈ l₁, send.isSet ex = false := fun ex hex => by
    have hne : ex ≠ e := hdisj ex hex e (List.mem_cons_self ..)
    simpa [hne] using hsend ex (List.mem_append_left _ hex)
  have h₂ : ∀ ex ∈ l₂, send.isSet ex = false := fun ex hex => by
    have hne : ex ≠ e := fun h => (List.nodup_cons.mp hnd₂).1 (h ▸ hex)
    simpa [hne] using hsend ex (List.mem_append_right _ (List.mem_cons_of_mem _ hex))
  rw [List.foldlM_append, foldlM_addDirection_unset h₁]
  change List.foldlM (addDirection make communicationTag send) st (e :: l₂) = _
  rw [List.foldlM_cons]
  cases addDirection make communicationTag send st e with
  | error err => rfl
  | ok st' => exact foldlM_addDirection_unset h₂ st'

theorem makeInBuffer_guard {layout : GridLayout D} {guardingCells : DataSpace D} {ex recvex tag : ℕ}
    {new : ExchangeIntern D × ExchangeIntern D}
    (h : makeInBuffer layout .GUARD guardingCells ex recvex tag = .ok new) :
    ExchangeIntern.ofBuffer layout guardingCells ex tag .BORDER = .ok new.1 ∧
      ExchangeIntern.ofBuffer layout guardingCells recvex tag .GUARD = .ok new.2 := by
  simp only [makeInBuffer, if_true] at h
  cases hs : ExchangeIntern.ofBuffer layout guardingCells ex tag .BORDER with
  | error e => simp [hs, bind, Except.bind] at h
  | ok a =>
    cases hr : ExchangeIntern.ofBuffer layout guardingCells recvex tag .GUARD with
    | error e => simp [hs, hr, bind, Except.bind] at h
    | ok b =>
      obtain rfl : (a, b) = new := by simpa [hs, hr, bind, Except.bind] using h
      exact ⟨rfl, rfl⟩

theorem addDirections_single {last i : ℕ} (hi : 1 ≤ i) (hi' : i < 27) (hlast : Mask.mirrored i < last) (hle : last ≤ 27)
    (h : addDirections make last tags buffer (Mask.ofExchange i) communicationTag = .ok (tags', buffer')) :
    ∃ new : ExchangeIntern D × ExchangeIntern D,
      make (Mask.mirrored i) i (uniqCommunicationTag communicationTag (Mask.mirrored i)) = .ok new ∧
      (buffer.receiveMask.add (Mask.ofExchange i)).getMirroredMask = .ok buffer'.sendMask ∧
      buffer' = ({ buffer with
        receiveMask := buffer.receiveMask.add (Mask.ofExchange i)
        sendMask := buffer'.sendMask } : GridBuffer D).setExchanges (Mask.mirrored i) i new := by
  have hm := Mask.mirrored_pos hi hi'
  obtain ⟨sendMask, hsendMask, -⟩ := Mask.getMirroredMask_spec (buffer.receiveMask.add (Mask.ofExchange i))
  obtain ⟨send, hsend, hset⟩ := Mask.getMirroredMask_spec (Mask.ofExchange i)
  have hsingle : ∀ ex ∈ List.range' 1 (last - 1), send.isSet ex = true ↔ ex = Mask.mirrored i := by
    intro ex hex
    rw [List.mem_range'_1] at hex
    rw [hset, Mask.isSet_ofExchange, decide_eq_true_iff]
    constructor
    · rintro ⟨-, rfl⟩
      exact (Mask.mirrored_mirrored (by omega)).symm
    · rintro rfl
      exact ⟨⟨hm, by omega⟩, (Mask.mirrored_mirrored (by omega)).symm⟩
  have hmem : Mask.mirrored i ∈ List.range' 1 (last - 1) := by
    rw [List.mem_range'_1]
    omega
  simp only [addDirections, hsendMask, hsend] at h
  change List.foldlM _ _ _ = _ at h
  rw [foldlM_addDirection_single List.nodup_range' hmem hsingle,
    addDirection_eq_ok ((hsingle _ hmem).mpr rfl)] at h
  obtain ⟨-, -, recvex, new, hrecv, hnew, hbuffer⟩ := h
  rw [Mask.getMirroredExchangeType_eq hm (by omega), Mask.mirrored_mirrored (by omega)] at hrecv
  obtain rfl := Except.ok.inj hrecv
  have hmask : buffer'.sendMask = sendMask := by rw [hbuffer, setExchanges]
  exact ⟨new, hnew, by rw [hmask, hsendMask], by rw [hmask]; exact hbuffer⟩

theorem addExchange_single (hD : D = 2 ∨ D = 3) {guardingCells : DataSpace D} {i : ℕ} (hi : 1 ≤ i)
    (hi' : i < numberOfExchanges D)
    (h : buffer.addExchange tags .GUARD (Mask.ofExchange i) guardingCells communicationTag = .ok (tags', buffer')) :
    ∃ new : ExchangeIntern D × ExchangeIntern D,
      ExchangeIntern.ofBuffer buffer.gridLayout guardingCells (Mask.mirrored i)
        (uniqCommunicationTag communicationTag (Mask.mirrored i)) .BORDER = .ok new.1 ∧
      ExchangeIntern.ofBuffer buffer.gridLayout guardingCells i
        (uniqCommunicationTag communicationTag (Mask.mirrored i)) .GUARD = .ok new.2 ∧
      (buffer.receiveMask.add (Mask.ofExchange i)).getMirroredMask = .ok buffer'.sendMask ∧
      buffer' = ({ buffer with
        lastUsedCommunicationTag := communicationTag
        receiveMask := buffer.receiveMask.add (Mask.ofExchange i)
        sendMask := buffer'.sendMask } : GridBuffer D).setExchanges (Mask.mirrored i) i new := by
  have h27 : numberOfExchanges D ≤ 27 := by
    rcases hD with rfl | rfl <;> simp [numberOfExchanges]
  have hend : Communicator.exchangeEnd D = numberOfExchanges D := by
    rcases hD with rfl | rfl <;> rfl
  rw [addExchange] at h
  split at h
  · cases h
  · obtain ⟨new, hnew, hmask, hbuffer⟩ :=
      addDirections_single hi (by omega) (hend ▸ Mask.mirrored_lt hD hi') (by omega) h
    obtain ⟨h1, h2⟩ := makeInBuffer_guard hnew
    exact ⟨new, h1, h2, hmask, hbuffer⟩

theorem addExchangeBuffer_single {dataSpace : DataSpace D} {i : ℕ} (hi : 1 ≤ i) (hi' : i < 27)
    (hsize : ∏ d, dataSpace d ≠ 0)
    (h : buffer.addExchangeBuffer tags (Mask.ofExchange i) dataSpace communicationTag = .ok (tags', buffer')) :
    ∃ tag, (buffer.receiveMask.add (Mask.ofExchange i)).getMirroredMask = .ok buffer'.sendMask ∧
      buffer' = ({ buffer with
        lastUsedCommunicationTag := communicationTag
        receiveMask := buffer.receiveMask.add (Mask.ofExchange i)
        sendMask := buffer'.sendMask } : GridBuffer D).setExchanges (Mask.mirrored i) i
          (.ofDataSpace dataSpace (Mask.mirrored i) tag, .ofDataSpace dataSpace i tag) := by
  have hm : Mask.mirrored i < 27 := Mask.mirrored_lt (Or.inr rfl) hi'
  rw [addExchangeBuffer] at h
  split at h
  · cases h
  · simp only at h
    obtain ⟨new, hnew, hmask, hbuffer⟩ := addDirections_single hi hi' hm le_rfl h
    obtain rfl := Except.ok.inj hnew
    exact ⟨_, hmask, hbuffer⟩

section Registration

variable (originGuard endGuard : DataSpace D)

/-- Guard cells that are read in a direction. -/
def guardingCells (i : ℕ) : DataSpace D := fun d =>
  if getRelativeDirections D i d = -1 then originGuard d else endGuard d

def addGuardExchanges (communicationTag : ℕ) (st : UniquTag × GridBuffer D) :
    Except String (UniquTag × GridBuffer D) :=
  (List.range' 1 (numberOfExchanges D - 1)).foldlM (fun st i =>
    st.2.addExchange st.1 .GUARD (Mask.ofExchange i) (guardingCells originGuard endGuard i) communicationTag) st

/-- The buffer has the exchanges of the given directions. -/
structure Registered (layout : GridLayout D) (communicationTag : ℕ) (done : Set ℕ) (buffer : GridBuffer D) :
    Prop where
  gridLayout : buffer.gridLayout = layout
  receive : ∀ i ∈ done, ∃ re, buffer.receiveExchanges i = some re ∧
    ExchangeIntern.ofBuffer layout (guardingCells originGuard endGuard i) i
      (uniqCommunicationTag communicationTag (Mask.mirrored i)) .GUARD = .ok re
  send : ∀ i ∈ done, ∃ se, buffer.sendExchanges (Mask.mirrored i) = some se ∧
    ExchangeIntern.ofBuffer layout (guardingCells originGuard endGuard i) (Mask.mirrored i)
      (uniqCommunicationTag communicationTag (Mask.mirrored i)) .BORDER = .ok se
  receiveMask : ∀ ex, buffer.receiveMask.isSet ex = true ↔ ex ∈ done
  sendMask : ∀ ex, buffer.sendMask.isSet ex = true ↔ (1 ≤ ex ∧ ex < 27) ∧ Mask.mirrored ex ∈ done
  bound : ∀ i ∈ done, i < buffer.maxExchange ∧ Mask.mirrored i < buffer.maxExchange

variable {originGuard endGuard} {layout : GridLayout D} {done : Set ℕ}

theorem Registered.init : Registered originGuard endGuard layout communicationTag ∅ (.init layout) where
  gridLayout := rfl
  receive _ h := h.elim
  send _ h := h.elim
  receiveMask ex := by simp [GridBuffer.init]
  sendMask ex := by simp [GridBuffer.init]
  bound _ h := h.elim

theorem Registered.add (hD : D = 2 ∨ D = 3) (hr : Registered originGuard endGuard layout communicationTag done buffer)
    (hdone : ∀ j ∈ done, j < numberOfExchanges D) {i : ℕ} (hi : 1 ≤ i) (hi' : i < numberOfExchanges D)
    (hnew : i ∉ done)
    (h : buffer.addExchange tags .GUARD (Mask.ofExchange i) (guardingCells originGuard endGuard i) communicationTag =
      .ok (tags', buffer')) :
    Registered originGuard endGuard layout communicationTag (insert i done) buffer' := by
  have h27 : numberOfExchanges D ≤ 27 := by
    rcases hD with rfl | rfl <;> simp [numberOfExchanges]
  obtain ⟨new, hse, hre, hmask, hbuffer⟩ := addExchange_single hD hi hi' h
  rw [hr.gridLayout] at hse hre
  have hother : ∀ j ∈ done, j ≠ i ∧ Mask.mirrored j ≠ Mask.mirrored i := fun j hj => by
    have hji : j ≠ i := fun hji => hnew (hji ▸ hj)
    refine ⟨hji, fun hm => hji ?_⟩
    have := hdone j hj
    rw [← Mask.mirrored_mirrored (show j < 27 by omega), hm, Mask.mirrored_mirrored (by omega)]
  have hrecv : ∀ ex, buffer'.receiveMask.isSet ex = true ↔ ex ∈ insert i done := fun ex => by
    rw [hbuffer]
    simp only [setExchanges, Mask.isSet_add, Mask.isSet_ofExchange, Bool.or_eq_true, hr.receiveMask,
      decide_eq_true_iff, Set.mem_insert_iff]
    tauto
  refine ⟨?_, fun j hj => ?_, fun j hj => ?_, hrecv, fun ex => ?_, fun j hj => ?_⟩
  · rw [hbuffer]
    exact hr.gridLayout
  · rw [hbuffer]
    rcases hj with rfl | hj
    · exact ⟨new.2, setExchanges_receiveExchanges_self .., hre⟩
    · obtain ⟨re, h1, h2⟩ := hr.receive j hj
      exact ⟨re, (setExchanges_receiveExchanges_ne _ _ (hother j hj).1).trans h1, h2⟩
  · rw [hbuffer]
    rcases hj with rfl | hj
    · exact ⟨new.1, setExchanges_sendExchanges_self .., hse⟩
    · obtain ⟨se, h1, h2⟩ := hr.send j hj
      exact ⟨se, (setExchanges_sendExchanges_ne _ _ (hother j hj).2).trans h1, h2⟩
  · obtain ⟨n, hn, hiff⟩ := Mask.getMirroredMask_spec (buffer.receiveMask.add (Mask.ofExchange i))
    obtain rfl := Except.ok.inj (hn.symm.trans hmask)
    rw [hiff, ← hrecv]
    rw [hbuffer]
    rfl
  · rw [hbuffer]
    simp only [setExchanges]
    rcases hj with rfl | hj
    · omega
    · have := hr.bound j hj
      omega

theorem Registered.run (hD : D = 2 ∨ D = 3) {l : List ℕ} (hnd : l.Nodup)
    (hl : ∀ i ∈ l, 1 ≤ i ∧ i < numberOfExchanges D)
    (hdone : ∀ j ∈ done, j < numberOfExchanges D) (hnew : ∀ i ∈ l, i ∉ done)
    (hr : Registered originGuard endGuard layout communicationTag done buffer)
    (h : l.foldlM (fun st i => st.2.addExchange st.1 .GUARD (Mask.ofExchange i)
      (guardingCells originGuard endGuard i) communicationTag) (tags, buffer) = .ok (tags', buffer')) :
    Registered originGuard endGuard layout communicationTag (done ∪ {i | i ∈ l}) buffer' := by
  induction l generalizing tags buffer done with
  | nil =>
    obtain ⟨-, rfl⟩ : tags = tags' ∧ buffer = buffer' := by simpa using Except.ok.inj h
    simpa using hr
  | cons i l ih =>
    obtain ⟨hil, hnd⟩ := List.nodup_cons.mp hnd
    obtain ⟨hi, hi'⟩ := hl i (List.mem_cons_self ..)
    rw [List.foldlM_cons] at h
    cases hadd : buffer.addExchange tags .GUARD (Mask.ofExchange i) (guardingCells originGuard endGuard i)
        communicationTag with
    | error e =>
      simp only [hadd] at h
      cases h
    | ok st =>
      simp only [hadd] at h
      have hstep := hr.add hD hdone hi hi' (hnew i (List.mem_cons_self ..)) hadd
      have hrest := ih hnd (fun j hj => hl j (List.mem_cons_of_mem _ hj))
        (by
          rintro j (rfl | hj)
          · exact hi'
          · exact hdone j hj)
        (by
          rintro j hj (rfl | hj')
          · exact hil hj
          · exact hnew j (List.mem_cons_of_mem _ hj) hj')
        hstep h
      convert hrest using 1
      ext j
      simp only [Set.mem_union, Set.mem_insert_iff, Set.mem_ofPred_eq, List.mem_cons]
      tauto

theorem registered_addGuardExchanges (hD : D = 2 ∨ D = 3)
    (h : addGuardExchanges originGuard endGuard communicationTag (tags, .init layout) = .ok (tags', buffer')) :
    Registered originGuard endGuard layout communicationTag {i | 1 ≤ i ∧ i < numberOfExchanges D} buffer' := by
  have hrun := Registered.run hD List.nodup_range' (fun i hi => by rw [List.mem_range'_1] at hi; omega)
    (by simp) (by simp) Registered.init h
  convert hrun using 1
  ext i
  have : 0 < numberOfExchanges D := by simp [numberOfExchanges]
  simp only [Set.mem_ofPred_eq, Set.empty_union, List.mem_range'_1]
  omega

end Registration

end GridBuffer

namespace ExchangeIntern

variable {layout : GridLayout D} {guardingCells : DataSpace D} {ex tag : ℕ} {area : AreaType} {e : ExchangeIntern D}

theorem ofBuffer_eq_ok (h : ofBuffer layout guardingCells ex tag area = .ok e) :
    e = ⟨ex, tag, fun d => if exchangeTypeToDim D ex d = 1 then guardingCells d else layout.dataSpace d,
      some (exchangeTypeToOffset ex layout guardingCells area)⟩ := by
  unfold ofBuffer at h
  split at h
  · cases h
  · exact (Except.ok.inj h).symm

end ExchangeIntern

namespace GridBuffer

/-- The guard cells that are received in direction `i`. -/
def InHalo (layout : GridLayout D) (originGuard endGuard : DataSpace D) (i : ℕ) (x : DataSpace D) : Prop := ∀ d,
  if getRelativeDirections D i d = 1 then
    layout.guard d + layout.dataSpace d ≤ x d ∧ x d < layout.guard d + layout.dataSpace d + endGuard d
  else if getRelativeDirections D i d = -1 then layout.guard d - originGuard d ≤ x d ∧ x d < layout.guard d
  else layout.guard d ≤ x d ∧ x d < layout.guard d + layout.dataSpace d

def Interior (layout : GridLayout D) (x : DataSpace D) : Prop :=
  ∀ d, layout.guard d ≤ x d ∧ x d < layout.guard d + layout.dataSpace d

def InBuffer (layout : GridLayout D) (x : DataSpace D) : Prop := ∀ d, 0 ≤ x d ∧ x d < layout.getDataSpace d

section Regions

variable {layout layout' : GridLayout D} {originGuard endGuard : DataSpace D} {i tag tag' : ℕ} {re se : ExchangeIntern D}

theorem not_inHalo_of_interior (hi : 1 ≤ i) (hi' : i < numberOfExchanges D) {x : DataSpace D}
    (h : Interior layout x) : ¬InHalo layout originGuard endGuard i x := by
  intro hx
  have h0 : getRelativeDirections D i = getRelativeDirections D 0 := by
    rw [getRelativeDirections_zero]
    funext d
    have h1 := h d
    have h2 := hx d
    rcases getRelativeDirections_cases D i d with hd | hd | hd
    · rw [hd] at h2
      norm_num at h2
      omega
    · exact hd
    · rw [hd] at h2
      norm_num at h2
      omega
  have := getRelativeDirections_injOn hi' (Nat.pow_pos (by norm_num)) h0
  omega

theorem InHalo.direction_unique (hsize : ∀ d, 0 ≤ layout.dataSpace d) {j : ℕ} (hi : i < numberOfExchanges D)
    (hj : j < numberOfExchanges D) {x : DataSpace D} (h : InHalo layout originGuard endGuard i x)
    (h' : InHalo layout originGuard endGuard j x) : i = j := by
  refine getRelativeDirections_injOn hi hj (funext fun d => ?_)
  have h1 := h d
  have h2 := h' d
  have h3 := hsize d
  rcases getRelativeDirections_cases D i d with hd | hd | hd <;>
    rcases getRelativeDirections_cases D j d with hd' | hd' | hd' <;> rw [hd, hd'] <;> rw [hd] at h1 <;>
    rw [hd'] at h2 <;> norm_num at h1 h2 <;> omega

theorem InHalo.inBuffer (hsize : ∀ d, 0 ≤ layout.dataSpace d)
    (hmargin : ∀ d, 0 ≤ layout.guard d ∧ originGuard d ≤ layout.guard d ∧ endGuard d ≤ layout.guard d)
    {x : DataSpace D} (h : InHalo layout originGuard endGuard i x) : InBuffer layout x := by
  intro d
  have h1 := h d
  have h2 := hsize d
  have h3 := hmargin d
  simp only [GridLayout.getDataSpace, Pi.add_apply]
  split_ifs at h1 <;> omega

variable (hD : D ≤ 3) (hi : 1 ≤ i) (hi' : i < 27)
  (hre : ExchangeIntern.ofBuffer layout (guardingCells originGuard endGuard i) i tag .GUARD = .ok re)
  (hse : ExchangeIntern.ofBuffer layout' (guardingCells originGuard endGuard i) (Mask.mirrored i) tag' .BORDER = .ok se)

include hD hi hi' hre

theorem mem_receive_cells {x : DataSpace D} : x ∈ re.cells ↔ InHalo layout originGuard endGuard i x := by
  rw [ExchangeIntern.ofBuffer_eq_ok hre, ExchangeIntern.mem_cells]
  refine forall_congr' fun d => ?_
  simp only [Option.getD_some, ExchangeIntern.exchangeTypeToOffset_eq hi hi' hD,
    ExchangeIntern.exchangeTypeToDim_eq_one hi hi' hD, guardingCells]
  rcases getRelativeDirections_cases D i d with hd | hd | hd <;> simp [hd]

omit hre

include hse

/-- The cells that are sent for direction `i` lie at the opposite side. -/
theorem mem_send_cells {x : DataSpace D} : x ∈ se.cells ↔ ∀ d,
    if getRelativeDirections D i d = 1 then layout'.guard d ≤ x d ∧ x d < layout'.guard d + endGuard d
    else if getRelativeDirections D i d = -1 then
      layout'.guard d + layout'.dataSpace d - originGuard d ≤ x d ∧ x d < layout'.guard d + layout'.dataSpace d
    else layout'.guard d ≤ x d ∧ x d < layout'.guard d + layout'.dataSpace d := by
  have hm := Mask.mirrored_pos hi hi'
  have hm' : Mask.mirrored i < 27 := Mask.mirrored_lt (Or.inr rfl) hi'
  rw [ExchangeIntern.ofBuffer_eq_ok hse, ExchangeIntern.mem_cells]
  refine forall_congr' fun d => ?_
  have hmirror := congrFun (Mask.getRelativeDirections_mirrored hD i) d
  simp only [Option.getD_some, ExchangeIntern.exchangeTypeToOffset_eq hm hm' hD,
    ExchangeIntern.exchangeTypeToDim_eq_one hm hm' hD, guardingCells, hmirror, Pi.neg_apply]
  rcases getRelativeDirections_cases D i d with hd | hd | hd <;> simp [hd]

theorem send_cells_inBuffer (hsize : ∀ d, 0 ≤ layout'.dataSpace d)
    (hmargin : ∀ d, 0 ≤ layout'.guard d ∧ originGuard d ≤ layout'.guard d ∧ endGuard d ≤ layout'.guard d)
    {x : DataSpace D} (h : x ∈ se.cells) : InBuffer layout' x := by
  intro d
  have h1 := (mem_send_cells hD hi hi' hse).mp h d
  have h2 := hsize d
  have h3 := hmargin d
  simp only [GridLayout.getDataSpace, Pi.add_apply]
  split_ifs at h1 <;> omega

include hre

/-- Both sides of an exchange have the same extents if the ranks agree in the other dimensions. -/
theorem exchange_size_eq (hsame : ∀ d, getRelativeDirections D i d = 0 → layout'.dataSpace d = layout.dataSpace d) :
    se.size = re.size := by
  have hm := Mask.mirrored_pos hi hi'
  have hm' : Mask.mirrored i < 27 := Mask.mirrored_lt (Or.inr rfl) hi'
  rw [ExchangeIntern.ofBuffer_eq_ok hre, ExchangeIntern.ofBuffer_eq_ok hse]
  funext d
  have hmirror := congrFun (Mask.getRelativeDirections_mirrored hD i) d
  simp only [ExchangeIntern.exchangeTypeToDim_eq_one hi hi' hD, ExchangeIntern.exchangeTypeToDim_eq_one hm hm' hD, hmirror,
    Pi.neg_apply, neg_ne_zero]
  split_ifs with h
  · rfl
  · exact hsame d (not_not.mp h)

/-- A received cell lies behind the sent one, by the extent of the rank it comes from or goes to. -/
theorem exchange_cells (hguard : layout'.guard = layout.guard)
    (hsame : ∀ d, getRelativeDirections D i d = 0 → layout'.dataSpace d = layout.dataSpace d) {k : ℕ}
    {x x' : DataSpace D} (hx : re.cells[k]? = some x) (hx' : se.cells[k]? = some x') (d : Fin D) :
    x' d = x d + (if getRelativeDirections D i d = 1 then -layout.dataSpace d
      else if getRelativeDirections D i d = -1 then layout'.dataSpace d else 0) := by
  have hm := Mask.mirrored_pos hi hi'
  have hm' : Mask.mirrored i < 27 := Mask.mirrored_lt (Or.inr rfl) hi'
  have hsize := exchange_size_eq hD hi hi' hre hse hsame
  have hcell := congrFun (ExchangeIntern.cells_getElem hsize.symm hx hx') d
  have hmirror := congrFun (Mask.getRelativeDirections_mirrored hD i) d
  rw [ExchangeIntern.ofBuffer_eq_ok hre, ExchangeIntern.ofBuffer_eq_ok hse] at hcell
  simp only [Option.getD_some, Pi.add_apply, Pi.sub_apply, ExchangeIntern.exchangeTypeToOffset_eq hi hi' hD,
    ExchangeIntern.exchangeTypeToOffset_eq hm hm' hD, hmirror, hguard, guardingCells, Pi.neg_apply] at hcell
  rcases getRelativeDirections_cases D i d with hd | hd | hd <;> simp [hd] at hcell ⊢ <;> omega

end Regions

end GridBuffer

end PIConGPU
