import PIConGPU.GridBuffer

/-!
# Registered communication tags

What a call that adds exchanges does to its grid buffer and to the registered tags, and when it throws.
-/
namespace PIConGPU

namespace Mask

theorem foldlM_mirror (m : Mask) (l : List ℕ) (hl : ∀ i ∈ l, 1 ≤ i ∧ i < 27) (tmp : Mask) :
    ∃ n, l.foldlM (fun tmp i => if m.isSet i then (getMirroredExchangeType i).map fun ex =>
        tmp.add (ofExchange ex) else (.ok tmp : Except String Mask)) tmp = .ok n ∧
      ∀ ex, n.isSet ex = true ↔ tmp.isSet ex = true ∨ ∃ i ∈ l, m.isSet i = true ∧ mirrored i = ex := by
  induction l generalizing tmp with
  | nil => exact ⟨tmp, rfl, by simp⟩
  | cons i l ih =>
    obtain ⟨h1, h2⟩ := hl i (List.mem_cons_self ..)
    have hl' : ∀ j ∈ l, 1 ≤ j ∧ j < 27 := fun j hj => hl j (List.mem_cons_of_mem _ hj)
    by_cases hi : m.isSet i = true
    · obtain ⟨n, hn, hiff⟩ := ih hl' (tmp.add (ofExchange (mirrored i)))
      refine ⟨n, ?_, fun ex => ?_⟩
      · rw [List.foldlM_cons, if_pos hi, getMirroredExchangeType_eq h1 h2]
        exact hn
      · simp [hiff, hi, or_assoc]
    · obtain ⟨n, hn, hiff⟩ := ih hl' tmp
      refine ⟨n, ?_, fun ex => ?_⟩
      · rw [List.foldlM_cons, if_neg hi]
        exact hn
      · simp [hiff, hi]

/-- The mirrored mask has the mirrored directions. -/
theorem getMirroredMask_spec (m : Mask) : ∃ n, m.getMirroredMask = .ok n ∧
    ∀ ex, n.isSet ex = true ↔ (1 ≤ ex ∧ ex < 27) ∧ m.isSet (mirrored ex) = true := by
  have hl : ∀ i ∈ List.range' 1 26, 1 ≤ i ∧ i < 27 := fun i hi => by
    have := List.mem_range'_1.mp hi
    omega
  obtain ⟨n, hn, hiff⟩ := foldlM_mirror m (List.range' 1 26) hl empty
  refine ⟨n, hn, fun ex => ?_⟩
  rw [hiff]
  constructor
  · rintro (h | ⟨i, hi, hset, rfl⟩)
    · simp at h
    · obtain ⟨h1, h2⟩ := hl i hi
      exact ⟨⟨mirrored_pos h1 h2, mirrored_lt (D := 3) (.inr rfl) h2⟩, by rwa [mirrored_mirrored h2]⟩
  · rintro ⟨⟨h1, h2⟩, hset⟩
    refine .inr ⟨mirrored ex, ?_, hset, mirrored_mirrored h2⟩
    have h1' := mirrored_pos h1 h2
    have h2' := mirrored_lt (D := 3) (.inr rfl) h2
    have h3 : numberOfExchanges 3 = 27 := rfl
    exact List.mem_range'_1.mpr ⟨h1', by omega⟩

end Mask

namespace GridBuffer

variable {D : ℕ} {make : Maker D} {communicationTag : ℕ} {send : Mask} {tags tags' : UniquTag}
  {buffer buffer' : GridBuffer D}

def Uses (buffer : GridBuffer D) (tag : ℕ) : Prop :=
  ∃ ex e, (buffer.sendExchanges ex = some e ∨ buffer.receiveExchanges ex = some e) ∧ e.communicationTag = tag

def Maker.Tagged (make : Maker D) : Prop :=
  ∀ ex recvex tag new, make ex recvex tag = .ok new →
    new.1.communicationTag = tag ∧ new.2.communicationTag = tag

/-- What a successful round of the loop does. -/
theorem addDirection_eq_ok {ex : ℕ} (hset : send.isSet ex = true) :
    addDirection make communicationTag send (tags, buffer) ex = .ok (tags', buffer') ↔
      ((buffer.hasOneExchange = true ∧ tags' = tags) ∨ (buffer.hasOneExchange = false ∧
        uniqCommunicationTag communicationTag ex ∉ tags ∧
        tags' = insert (uniqCommunicationTag communicationTag ex) tags)) ∧
      buffer.sendExchanges ex = none ∧
      ∃ recvex new, Mask.getMirroredExchangeType ex = .ok recvex ∧
        make ex recvex (uniqCommunicationTag communicationTag ex) = .ok new ∧
        buffer' = buffer.setExchanges ex recvex new := by
  simp only [addDirection, if_pos hset, UniquTag.isTagUniqu]
  cases hr : Mask.getMirroredExchangeType ex with
  | error e => split_ifs <;> simp [Except.bind, bind]
  | ok recvex =>
    cases hm : make ex recvex (uniqCommunicationTag communicationTag ex) with
    | error e => split_ifs <;> simp [Except.bind, bind, hm]
    | ok new =>
      cases hs : buffer.sendExchanges ex <;> split_ifs <;> simp_all [Except.bind, bind] <;> grind

theorem uniqCommunicationTag_eq_iff {tag tag' ex ex' : ℕ} (h : ex < 32) (h' : ex' < 32) :
    uniqCommunicationTag tag ex = uniqCommunicationTag tag' ex' ↔ tag % 2^27 = tag' % 2^27 ∧ ex = ex' := by
  rw [uniqCommunicationTag, uniqCommunicationTag, ← Nat.shiftLeft_add_eq_or_of_lt (i := 5) h,
    ← Nat.shiftLeft_add_eq_or_of_lt (i := 5) h', Nat.shiftLeft_eq, Nat.shiftLeft_eq]
  omega

/-- The exchanges for sending that were added to a buffer, with their communication tags and directions. -/
structure Holds (exchanges : List (ℕ × ℕ)) (buffer : GridBuffer D) : Prop where
  hasOneExchange : buffer.hasOneExchange = true ↔ exchanges ≠ []
  direction_lt : ∀ x ∈ exchanges, x.2 < 32
  send : ∀ ex e, buffer.sendExchanges ex = some e →
    ∃ x ∈ exchanges, x.2 = ex ∧ e.communicationTag = uniqCommunicationTag x.1 x.2
  sent : ∀ x ∈ exchanges, ∃ e, buffer.sendExchanges x.2 = some e ∧
    e.communicationTag = uniqCommunicationTag x.1 x.2
  receive : ∀ ex e, buffer.receiveExchanges ex = some e →
    ∃ x ∈ exchanges, e.communicationTag = uniqCommunicationTag x.1 x.2

theorem Holds.init (layout : GridLayout D) : Holds [] (.init layout) where
  hasOneExchange := by simp [GridBuffer.init]
  direction_lt := by simp
  send ex e h := by simp [GridBuffer.init] at h
  sent := by simp
  receive ex e h := by simp [GridBuffer.init] at h

section Holding

variable {exchanges : List (ℕ × ℕ)} (h : Holds exchanges buffer)
include h

theorem Holds.congr {buffer' : GridBuffer D} (hone : buffer'.hasOneExchange = buffer.hasOneExchange)
    (hsend : buffer'.sendExchanges = buffer.sendExchanges)
    (hreceive : buffer'.receiveExchanges = buffer.receiveExchanges) : Holds exchanges buffer' where
  hasOneExchange := by rw [hone, h.hasOneExchange]
  direction_lt := h.direction_lt
  send := by rw [hsend]; exact h.send
  sent := by rw [hsend]; exact h.sent
  receive := by rw [hreceive]; exact h.receive

theorem Holds.uses_iff (t : ℕ) : Uses buffer t ↔ ∃ x ∈ exchanges, t = uniqCommunicationTag x.1 x.2 := by
  constructor
  · rintro ⟨ex, e, he | he, rfl⟩
    · obtain ⟨x, hx, -, htag⟩ := h.send ex e he
      exact ⟨x, hx, htag⟩
    · exact h.receive ex e he
  · rintro ⟨x, hx, rfl⟩
    obtain ⟨e, he, htag⟩ := h.sent x hx
    exact ⟨x.2, e, .inl he, htag⟩

theorem Holds.sendExchanges_ne_none (ex : ℕ) : buffer.sendExchanges ex ≠ none ↔ ∃ x ∈ exchanges, x.2 = ex := by
  rw [Option.ne_none_iff_exists']
  constructor
  · rintro ⟨e, he⟩
    obtain ⟨x, hx, hex, -⟩ := h.send ex e he
    exact ⟨x, hx, hex⟩
  · rintro ⟨x, hx, rfl⟩
    obtain ⟨e, he, -⟩ := h.sent x hx
    exact ⟨e, he⟩

theorem Holds.setExchanges (hmake : make.Tagged) {ex recvex : ℕ} {new : ExchangeIntern D × ExchangeIntern D}
    (hex : ex < 32) (hnone : buffer.sendExchanges ex = none)
    (hnew : make ex recvex (uniqCommunicationTag communicationTag ex) = .ok new) :
    Holds (exchanges ++ [(communicationTag, ex)]) (buffer.setExchanges ex recvex new) := by
  obtain ⟨h1, h2⟩ := hmake _ _ _ _ hnew
  have hself : (communicationTag, ex) ∈ exchanges ++ [(communicationTag, ex)] := by simp
  refine ⟨by simp, fun x hx => ?_, fun i e he => ?_, fun x hx => ?_, fun i e he => ?_⟩
  · rcases List.mem_append.mp hx with hx | hx
    · exact h.direction_lt x hx
    · obtain rfl := List.mem_singleton.mp hx
      exact hex
  · by_cases hi : i = ex
    · subst hi
      obtain rfl := Option.some.inj ((setExchanges_sendExchanges_self ..).symm.trans he)
      exact ⟨_, hself, rfl, h1⟩
    · rw [setExchanges_sendExchanges_ne _ _ hi] at he
      obtain ⟨x, hx, hxi, htag⟩ := h.send i e he
      exact ⟨x, List.mem_append_left _ hx, hxi, htag⟩
  · rcases List.mem_append.mp hx with hx | hx
    · obtain ⟨e, he, htag⟩ := h.sent x hx
      have hne : x.2 ≠ ex := fun heq => by
        rw [heq, hnone] at he
        cases he
      exact ⟨e, (setExchanges_sendExchanges_ne _ _ hne).trans he, htag⟩
    · obtain rfl := List.mem_singleton.mp hx
      exact ⟨new.1, setExchanges_sendExchanges_self .., h1⟩
  · by_cases hi : i = recvex
    · subst hi
      obtain rfl := Option.some.inj ((setExchanges_receiveExchanges_self ..).symm.trans he)
      exact ⟨_, hself, h2⟩
    · rw [setExchanges_receiveExchanges_ne _ _ hi] at he
      obtain ⟨x, hx, htag⟩ := h.receive i e he
      exact ⟨x, List.mem_append_left _ hx, htag⟩

end Holding

/-- The registered tags after a call that adds exchanges in the given directions. -/
def registered (tags : UniquTag) (hasOneExchange : Bool) (communicationTag : ℕ) (dirs : List ℕ) : UniquTag :=
  if hasOneExchange then tags
  else dirs.head?.elim tags fun ex => insert (uniqCommunicationTag communicationTag ex) tags

/-- A call that returns found all its directions unused, and its lowest tag unregistered if it had to look. -/
theorem foldlM_addDirection_ok (hmake : make.Tagged) {exchanges : List (ℕ × ℕ)} {l : List ℕ}
    (hl : ∀ ex ∈ l, send.isSet ex = true → ex < 32)
    (h : l.foldlM (addDirection make communicationTag send) (tags, buffer) = .ok (tags', buffer'))
    (hholds : Holds exchanges buffer) :
    (∀ ex ∈ l, send.isSet ex = true → buffer.sendExchanges ex = none) ∧
      (buffer.hasOneExchange = false → ∀ d ds, l.filter send.isSet = d :: ds →
        uniqCommunicationTag communicationTag d ∉ tags) ∧
      Holds (exchanges ++ (l.filter send.isSet).map (Prod.mk communicationTag)) buffer' ∧
      tags' = registered tags buffer.hasOneExchange communicationTag (l.filter send.isSet) ∧
      buffer'.lastUsedCommunicationTag = buffer.lastUsedCommunicationTag := by
  induction l generalizing tags buffer exchanges with
  | nil =>
    obtain ⟨rfl, rfl⟩ : tags = tags' ∧ buffer = buffer' := by simpa using Except.ok.inj h
    exact ⟨by simp, by simp, by simpa using hholds, by simp [registered], rfl⟩
  | cons ex l ih =>
    have hl' : ∀ i ∈ l, send.isSet i = true → i < 32 := fun i hi => hl i (List.mem_cons_of_mem _ hi)
    rw [List.foldlM_cons] at h
    by_cases hset : send.isSet ex = true
    · cases hstep : addDirection make communicationTag send (tags, buffer) ex with
      | error e =>
        rw [hstep] at h
        cases h
      | ok st =>
        rw [hstep] at h
        obtain ⟨tags₁, buffer₁⟩ := st
        obtain ⟨htags, hnone, recvex, new, -, hnew, rfl⟩ := (addDirection_eq_ok hset).mp hstep
        obtain ⟨h1, -, h3, rfl, hlast⟩ := ih hl' h
          (hholds.setExchanges hmake (hl ex List.mem_cons_self hset) hnone hnew)
        rw [List.filter_cons_of_pos hset]
        refine ⟨fun i hi hi' => ?_, fun hone d ds hd => ?_, ?_, ?_, hlast⟩
        · rcases List.mem_cons.mp hi with rfl | hi
          · exact hnone
          · have hi := h1 i hi hi'
            by_cases he : i = ex
            · rwa [he]
            · rwa [setExchanges_sendExchanges_ne _ _ he] at hi
        · obtain ⟨rfl, -⟩ := List.cons.inj hd
          rcases htags with ⟨h', -⟩ | ⟨-, hnot, -⟩
          · rw [hone] at h'
            cases h'
          · exact hnot
        · rwa [List.map_cons, ← List.singleton_append, ← List.append_assoc]
        · rcases htags with ⟨hone, rfl⟩ | ⟨hone, -, rfl⟩
          · simp [registered, hone]
          · simp [registered, hone]
    · have hstep : addDirection make communicationTag send (tags, buffer) ex = .ok (tags, buffer) := by
        rw [addDirection, if_neg hset]
      rw [hstep] at h
      obtain ⟨h1, h2, h3⟩ := ih hl' h hholds
      rw [List.filter_cons_of_neg hset]
      refine ⟨fun i hi hi' => ?_, h2, h3⟩
      rcases List.mem_cons.mp hi with rfl | hi
      · exact absurd hi' hset
      · exact h1 i hi hi'

/-- Nothing else makes a call fail. -/
theorem exists_foldlM_addDirection (hmake : ∀ ex recvex tag, ∃ new, make ex recvex tag = .ok new) {l : List ℕ}
    (hl : ∀ ex ∈ l, send.isSet ex = true → 1 ≤ ex ∧ ex < 27) (hnd : l.Nodup)
    (hnone : ∀ ex ∈ l, send.isSet ex = true → buffer.sendExchanges ex = none)
    (hfirst : buffer.hasOneExchange = false → ∀ d ds, l.filter send.isSet = d :: ds →
      uniqCommunicationTag communicationTag d ∉ tags) :
    ∃ st, l.foldlM (addDirection make communicationTag send) (tags, buffer) = .ok st := by
  induction l generalizing tags buffer with
  | nil => exact ⟨_, rfl⟩
  | cons ex l ih =>
    obtain ⟨hex, hnd⟩ := List.nodup_cons.mp hnd
    have hl' : ∀ i ∈ l, send.isSet i = true → 1 ≤ i ∧ i < 27 := fun i hi => hl i (List.mem_cons_of_mem _ hi)
    by_cases hset : send.isSet ex = true
    · obtain ⟨h1, h2⟩ := hl ex (List.mem_cons_self ..) hset
      obtain ⟨new, hnew⟩ := hmake ex (Mask.mirrored ex) (uniqCommunicationTag communicationTag ex)
      obtain ⟨tags₁, htags₁⟩ : ∃ tags₁, (buffer.hasOneExchange = true ∧ tags₁ = tags) ∨
          (buffer.hasOneExchange = false ∧ uniqCommunicationTag communicationTag ex ∉ tags ∧
            tags₁ = insert (uniqCommunicationTag communicationTag ex) tags) := by
        cases hone : buffer.hasOneExchange with
        | true => exact ⟨tags, .inl ⟨rfl, rfl⟩⟩
        | false => exact ⟨_, .inr ⟨rfl, hfirst hone ex _ (List.filter_cons_of_pos hset), rfl⟩⟩
      have hstep := (addDirection_eq_ok hset).mpr ⟨htags₁, hnone ex (List.mem_cons_self ..) hset, _, new,
        Mask.getMirroredExchangeType_eq h1 h2, hnew, rfl⟩
      rw [List.foldlM_cons, hstep]
      refine ih hl' hnd (fun i hi hi' => ?_) (fun hone => by simp at hone)
      have hne : i ≠ ex := fun he => hex (he ▸ hi)
      rw [setExchanges_sendExchanges_ne _ _ hne]
      exact hnone i (List.mem_cons_of_mem _ hi) hi'
    · have hstep : addDirection make communicationTag send (tags, buffer) ex = .ok (tags, buffer) := by
        rw [addDirection, if_neg hset]
      rw [List.foldlM_cons, hstep]
      refine ih hl' hnd (fun i hi => hnone i (List.mem_cons_of_mem _ hi)) fun hone d ds hd => hfirst hone d ds ?_
      rwa [List.filter_cons_of_neg hset]

/-- The memory of new exchanges: a part of the buffer, or memory of their own. -/
inductive Placement
  | inBuffer (dataPlace : AreaType) (guardingCells : ℕ → ℤ)
  | ownMemory (dataSpace : ℕ → ℤ)

def add (tags : UniquTag) (buffer : GridBuffer D) (receive : Mask) (communicationTag : ℕ) :
    Placement → Except String (UniquTag × GridBuffer D)
  | .inBuffer dataPlace guardingCells =>
    buffer.addExchange tags dataPlace receive (fun d => guardingCells d) communicationTag
  | .ownMemory dataSpace => buffer.addExchangeBuffer tags receive (fun d => dataSpace d) communicationTag

/-- The directions in which a call adds an exchange for sending, in ascending order. -/
def directions (D : ℕ) (receive : Mask) : Placement → List ℕ
  | .inBuffer .. => (List.range' 1 (Communicator.exchangeEnd D - 1)).filter fun ex =>
    receive.getMirroredMask.toOption.any fun send => send.isSet ex
  | .ownMemory dataSpace => if ∏ d : Fin D, dataSpace d ≠ 0 then (List.range' 1 26).filter fun ex =>
      receive.getMirroredMask.toOption.any fun send => send.isSet ex
    else []

theorem directions_lt {D ex : ℕ} {receive : Mask} {place : Placement} (h : ex ∈ directions D receive place) :
    ex < 32 := by
  obtain ⟨send, hsend, hiff⟩ := Mask.getMirroredMask_spec receive
  have hset : send.isSet ex = true := by
    cases place with
    | inBuffer => simpa [directions, hsend, Except.toOption] using (List.mem_filter.mp h).2
    | ownMemory =>
      rw [directions] at h
      split at h
      · simpa [hsend, Except.toOption] using (List.mem_filter.mp h).2
      · cases h
  exact ((hiff ex).mp hset).1.2.trans (by norm_num)

/-- The check that both methods make before they look at the directions. -/
def OtherTag (buffer : GridBuffer D) (communicationTag : ℕ) : Prop :=
  buffer.hasOneExchange = true ∧ communicationTag ≠ buffer.lastUsedCommunicationTag

/-- The reasons for which a call throws before anything is added. -/
def Rejects (tags : UniquTag) (buffer : GridBuffer D) (communicationTag : ℕ) (dirs : List ℕ) : Prop :=
  OtherTag buffer communicationTag ∨
  (buffer.hasOneExchange = false ∧ ∃ d ds, dirs = d :: ds ∧ uniqCommunicationTag communicationTag d ∈ tags) ∨
  ∃ ex ∈ dirs, buffer.sendExchanges ex ≠ none

theorem addDirections_ok (hmake : make.Tagged) {last : ℕ} {receive : Mask} {exchanges : List (ℕ × ℕ)} {dirs : List ℕ}
    (h : addDirections make last tags buffer receive communicationTag = .ok (tags', buffer'))
    (hholds : Holds exchanges buffer)
    (hdirs : dirs = (List.range' 1 (last - 1)).filter fun ex =>
      receive.getMirroredMask.toOption.any fun send => send.isSet ex) :
    (∀ ex ∈ dirs, buffer.sendExchanges ex = none) ∧
      (buffer.hasOneExchange = false → ∀ d ds, dirs = d :: ds → uniqCommunicationTag communicationTag d ∉ tags) ∧
      Holds (exchanges ++ dirs.map (Prod.mk communicationTag)) buffer' ∧
      tags' = registered tags buffer.hasOneExchange communicationTag dirs ∧
      buffer'.lastUsedCommunicationTag = buffer.lastUsedCommunicationTag := by
  obtain ⟨sendMask, hsendMask, -⟩ := Mask.getMirroredMask_spec (buffer.receiveMask.add receive)
  obtain ⟨send, hsend, hiff⟩ := Mask.getMirroredMask_spec receive
  simp only [addDirections, hsendMask, hsend] at h
  simp only [hsend, Except.toOption, Option.any_some] at hdirs
  have hl : ∀ ex ∈ List.range' 1 (last - 1), send.isSet ex = true → ex < 32 := fun ex _ hset =>
    ((hiff ex).mp hset).1.2.trans (by norm_num)
  obtain ⟨h1, h2, h3, h4, h5⟩ := foldlM_addDirection_ok hmake hl h (hholds.congr rfl rfl rfl)
  subst hdirs
  refine ⟨fun ex hex => ?_, h2, h3, h4, h5⟩
  obtain ⟨hmem, hset⟩ := List.mem_filter.mp hex
  exact h1 ex hmem hset

theorem exists_addDirections (hmake : ∀ ex recvex tag, ∃ new, make ex recvex tag = .ok new) {last : ℕ}
    {receive : Mask} {dirs : List ℕ}
    (hdirs : dirs = (List.range' 1 (last - 1)).filter fun ex =>
      receive.getMirroredMask.toOption.any fun send => send.isSet ex)
    (hnone : ∀ ex ∈ dirs, buffer.sendExchanges ex = none)
    (hfirst : buffer.hasOneExchange = false → ∀ d ds, dirs = d :: ds →
      uniqCommunicationTag communicationTag d ∉ tags) :
    ∃ st, addDirections make last tags buffer receive communicationTag = .ok st := by
  obtain ⟨sendMask, hsendMask, -⟩ := Mask.getMirroredMask_spec (buffer.receiveMask.add receive)
  obtain ⟨send, hsend, hiff⟩ := Mask.getMirroredMask_spec receive
  simp only [hsend, Except.toOption, Option.any_some] at hdirs
  subst hdirs
  simp only [addDirections, hsendMask, hsend]
  exact exists_foldlM_addDirection hmake (fun ex _ hset => ((hiff ex).mp hset).1) List.nodup_range'
    (fun ex hmem hset => hnone ex (List.mem_filter.mpr ⟨hmem, hset⟩)) hfirst

theorem not_rejects {dirs : List ℕ} (htag : ¬ OtherTag buffer communicationTag)
    (hnone : ∀ ex ∈ dirs, buffer.sendExchanges ex = none)
    (hfirst : buffer.hasOneExchange = false → ∀ d ds, dirs = d :: ds →
      uniqCommunicationTag communicationTag d ∉ tags) : ¬ Rejects tags buffer communicationTag dirs := by
  rintro (h | ⟨hone, d, ds, hd, hmem⟩ | ⟨ex, hex, hne⟩)
  · exact htag h
  · exact hfirst hone d ds hd hmem
  · exact hne (hnone ex hex)

theorem ofBuffer_tag {layout : GridLayout D} {guardingCells : DataSpace D} {ex tag : ℕ} {area : AreaType}
    {e : ExchangeIntern D} (h : ExchangeIntern.ofBuffer layout guardingCells ex tag area = .ok e) :
    e.communicationTag = tag := by
  unfold ExchangeIntern.ofBuffer at h
  split at h
  · cases h
  · obtain rfl := Except.ok.inj h
    rfl

theorem makeInBuffer_tagged (layout : GridLayout D) (dataPlace : AreaType) (guardingCells : DataSpace D) :
    (makeInBuffer layout dataPlace guardingCells).Tagged := by
  intro ex recvex tag new hnew
  unfold makeInBuffer at hnew
  cases hs : ExchangeIntern.ofBuffer layout guardingCells ex tag
    (if dataPlace = .GUARD then .BORDER else .GUARD) with
  | error e => simp [hs, bind, Except.bind] at hnew
  | ok a =>
    cases hr : ExchangeIntern.ofBuffer layout guardingCells recvex tag
      (if dataPlace = .GUARD then .GUARD else .BORDER) with
    | error e => simp [hs, hr, bind, Except.bind] at hnew
    | ok b =>
      obtain rfl : (a, b) = new := by simpa [hs, hr, bind, Except.bind] using hnew
      exact ⟨ofBuffer_tag hs, ofBuffer_tag hr⟩

theorem makeOwnMemory_tagged (dataSpace : DataSpace D) : (makeOwnMemory dataSpace).Tagged := by
  intro ex recvex tag new hnew
  obtain rfl := Except.ok.inj hnew
  exact ⟨rfl, rfl⟩

/-- A call that returns had no reason to throw, and adds exchanges in its directions. -/
theorem add_ok {place : Placement} {receive : Mask} {exchanges : List (ℕ × ℕ)} (hholds : Holds exchanges buffer)
    (h : buffer.add tags receive communicationTag place = .ok (tags', buffer')) :
    ¬ Rejects tags buffer communicationTag (directions D receive place) ∧
      Holds (exchanges ++ (directions D receive place).map (Prod.mk communicationTag)) buffer' ∧
      tags' = registered tags buffer.hasOneExchange communicationTag (directions D receive place) ∧
      buffer'.lastUsedCommunicationTag = communicationTag := by
  cases place with
  | inBuffer dataPlace guardingCells =>
    simp only [add, addExchange] at h
    split at h
    · cases h
    case isFalse htag =>
      obtain ⟨h1, h2, h3⟩ := addDirections_ok (makeInBuffer_tagged _ _ _) h (hholds.congr rfl rfl rfl) rfl
      exact ⟨not_rejects htag h1 h2, h3⟩
  | ownMemory dataSpace =>
    simp only [add, addExchangeBuffer] at h
    split at h
    · cases h
    case isFalse htag =>
      split at h
      case isTrue hne =>
        have hdirs : directions D receive (.ownMemory dataSpace) = (List.range' 1 (27 - 1)).filter fun ex =>
            receive.getMirroredMask.toOption.any fun send => send.isSet ex := by
          simp only [directions, if_pos hne]
        obtain ⟨h1, h2, h3⟩ := addDirections_ok (makeOwnMemory_tagged _) h (hholds.congr rfl rfl rfl) hdirs
        exact ⟨not_rejects htag h1 h2, h3⟩
      case isFalse hne =>
        obtain ⟨rfl, rfl⟩ := Prod.mk.inj (Except.ok.inj h)
        have hnil : directions D receive (.ownMemory dataSpace) = [] := by simp only [directions, if_neg hne]
        rw [hnil]
        refine ⟨not_rejects htag (by simp) (by simp), ?_, by simp [registered], rfl⟩
        rw [List.map_nil, List.append_nil]
        exact hholds.congr rfl rfl rfl

/-- The margins of the exchanges fit into the guard, as the constructor asserts. -/
def Placement.Fits (layout : GridLayout D) : Placement → Prop
  | .inBuffer _ guardingCells => ∀ d : Fin D, guardingCells d ≤ layout.guard d
  | .ownMemory _ => True

/-- A call without a reason to throw returns. -/
theorem exists_add {place : Placement} {receive : Mask} (hfits : place.Fits buffer.gridLayout)
    (h : ¬ Rejects tags buffer communicationTag (directions D receive place)) :
    ∃ st, buffer.add tags receive communicationTag place = .ok st := by
  have htag : ¬ OtherTag buffer communicationTag := fun hne => h (.inl hne)
  have hfirst : buffer.hasOneExchange = false → ∀ d ds, directions D receive place = d :: ds →
      uniqCommunicationTag communicationTag d ∉ tags := fun hone d ds hd hmem =>
    h (.inr (.inl ⟨hone, d, ds, hd, hmem⟩))
  have hnone : ∀ ex ∈ directions D receive place, buffer.sendExchanges ex = none := fun ex hex => by
    by_contra hne
    exact h (.inr (.inr ⟨ex, hex, hne⟩))
  cases place with
  | inBuffer dataPlace guardingCells =>
    have hfits' : ¬ ∃ d : Fin D, buffer.gridLayout.guard d < guardingCells d := fun ⟨d, hd⟩ =>
      absurd (hfits d) (not_le.mpr hd)
    unfold OtherTag at htag
    rw [add, addExchange, if_neg htag]
    refine exists_addDirections (fun ex recvex tag => ?_) rfl hnone hfirst
    simp [makeInBuffer, ExchangeIntern.ofBuffer, hfits', bind, Except.bind]
  | ownMemory dataSpace =>
    unfold OtherTag at htag
    rw [add, addExchangeBuffer, if_neg htag]
    dsimp only
    split
    case isTrue hne =>
      exact exists_addDirections (fun _ _ _ => ⟨_, rfl⟩) (by simp [directions, hne]) hnone hfirst
    case isFalse => exact ⟨_, rfl⟩

end GridBuffer

end PIConGPU
