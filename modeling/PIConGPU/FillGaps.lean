import PIConGPU.KernelFillGaps

/-!
# Frames without gaps

`KernelFillGaps` keeps the particles of a supercell and leaves gaps in its last frame only;
`KernelFillGapsLastFrame` then restores the representation invariant.
-/
namespace PIConGPU

open BlockThreads FrameContents ParticlesBox

variable {D T : ℕ} {α : Type*}

theorem numberThreads_le (p : Fin T → Bool) (σ : Equiv.Perm (Fin T)) : (numberThreads p σ).1 ≤ T := by
  rw [numberThreads_count]
  simpa using Finset.card_filter_le (Finset.univ : Finset (Fin T)) fun t => p t = true

theorem deleteParticles_multiMask_of_ne (box : ParticlesBox D T α) {frame q : Ptr} (h : q ≠ frame)
    (p : Fin T → Prop) [DecidablePred p] : (box.deleteParticles frame p).multiMask q = box.multiMask q :=
  Function.update_of_ne h _ _

theorem deleteParticles_multiMask (box : ParticlesBox D T α) (frame : Ptr) (p : Fin T → Prop) [DecidablePred p]
    (t : Fin T) :
    (box.deleteParticles frame p).multiMask frame t = if p t then 0 else box.multiMask frame t := by
  simp [deleteParticles]

namespace ParticlesBox

section RemoveLastFrame

variable {box : ParticlesBox D T α} {L : DataSpace D → List Ptr} {c : DataSpace D} {p : Ptr} {l : List Ptr}

theorem Linked.getPreviousFrame (h : Linked box L) (hL : L c = l ++ [p]) :
    (box.getPreviousFrameAndRemoveLastFrame p c).1 = l.getLast? := by
  obtain ⟨hflag, -⟩ := h.removeLastFrame hL
  have hprev : box.previousFrame p = l.getLast? := h.previous c l p [] hL
  rw [getPreviousFrameAndRemoveLastFrame]
  cases hl : l with
  | nil => exact if_neg fun hmore => hflag.mp hmore hl
  | cons q l' => rw [if_pos (hflag.mpr (by simp [hl])), hprev, hl]

/-- If all allocated frames are in lists, they are so after the removal. -/
theorem Linked.accounted_removeLastFrame (h : Linked box L) (hL : L c = l ++ [p])
    (haccounted : ∀ q ∈ box.allocated, ∃ s, q ∈ L s) :
    ∀ q ∈ (box.removeLastFrame c).2.allocated, ∃ s, q ∈ Function.update L c l s := by
  intro q hq
  rw [h.removeLastFrame_allocated hL] at hq
  obtain ⟨hne, hq⟩ := Finset.mem_erase.mp hq
  obtain ⟨s, hs⟩ := haccounted q hq
  refine ⟨s, ?_⟩
  by_cases hsc : s = c
  · subst hsc
    rw [Function.update_self]
    rw [hL, List.mem_append, List.mem_singleton] at hs
    exact hs.resolve_right hne
  · rwa [Function.update_of_ne hsc]

end RemoveLastFrame

end ParticlesBox

namespace KernelFillGaps

section Move

variable {box : ParticlesBox D T α} {firstFrame lastFrame : Ptr} {σ : Equiv.Perm (Fin T) × Equiv.Perm (Fin T)}

theorem parIdx_eq_some (hT : T ≤ 65535) {t i : Fin T} : parIdx box firstFrame lastFrame σ t = some i ↔
    isGap box firstFrame t = true ∧ isParticle box lastFrame i = true ∧
      (numberThreads (isGap box firstFrame) σ.1).2 t = (numberThreads (isParticle box lastFrame) σ.2).2 i := by
  have hle := numberThreads_le (isParticle box lastFrame) σ.2
  unfold parIdx localGapIdx
  constructor
  · intro h
    cases hg : isGap box firstFrame t with
    | false => simp [hg, show ¬65535 < (numberThreads (isParticle box lastFrame) σ.2).1 by omega] at h
    | true =>
      simp only [hg, if_true] at h
      split at h
      case isTrue hlt =>
        obtain ⟨i', hi', hn⟩ := exists_numberThreads hlt
        rw [← hn, threadIndices_eq hi'] at h
        obtain rfl : i' = i := by simpa using h
        exact ⟨rfl, hi', hn.symm⟩
      case isFalse => simp at h
  · rintro ⟨hg, hi, hn⟩
    rw [if_pos hg, hn, if_pos (numberThreads_lt hi), threadIndices_eq hi]

/-- The effect of one round on the two frames. -/
structure Moved (firstFrame lastFrame : Ptr) (gaps found : ℕ) (box box' : ParticlesBox D T α) : Prop where
  links : box' = { box with multiMask := box'.multiMask, attributes := box'.attributes }
  untouched : ∀ q, q ≠ firstFrame → q ≠ lastFrame →
    box'.multiMask q = box.multiMask q ∧ box'.attributes q = box.attributes q
  full : gaps ≤ found → ∀ t, box'.multiMask firstFrame t ≠ 0
  emptied : found ≤ gaps → ∀ t, box'.multiMask lastFrame t ≠ 1
  multiMask_le : ∀ q t, box'.multiMask q t ≤ max 1 (box.multiMask q t)
  particles_eq : particles (box'.multiMask firstFrame) (box'.attributes firstFrame) 1 +
      particles (box'.multiMask lastFrame) (box'.attributes lastFrame) 1 =
    particles (box.multiMask firstFrame) (box.attributes firstFrame) 1 +
      particles (box.multiMask lastFrame) (box.attributes lastFrame) 1

theorem moveParticles_spec (hT : T ≤ 65535) (hne : firstFrame ≠ lastFrame) :
    ∃ box', moveParticles box firstFrame lastFrame σ = some box' ∧
      Moved firstFrame lastFrame (numberThreads (isGap box firstFrame) σ.1).1
        (numberThreads (isParticle box lastFrame) σ.2).1 box box' := by
  set idx := parIdx box firstFrame lastFrame σ with hidx
  set dest : Fin T → Option (Ptr × Fin T) := fun t => (idx t).map fun _ => (firstFrame, t) with hdest
  set value : Fin T → α := fun t => ((idx t).map (box.attributes lastFrame)).getD (box.attributes firstFrame t)
    with hvalue
  set stored := box.store (threadOrder σ.1) dest value with hstored
  have hiff : ∀ {t i}, idx t = some i ↔ isGap box firstFrame t = true ∧ isParticle box lastFrame i = true ∧
      (numberThreads (isGap box firstFrame) σ.1).2 t = (numberThreads (isParticle box lastFrame) σ.2).2 i :=
    parIdx_eq_some hT
  have hgap : ∀ {t i}, idx t = some i → box.multiMask firstFrame t = 0 := fun h => by
    simpa [isGap] using (hiff.mp h).1
  have hpar : ∀ {t i}, idx t = some i → box.multiMask lastFrame i = 1 := fun h => by
    simpa [isParticle] using (hiff.mp h).2.1
  have hidx_inj : ∀ {t t' i}, idx t = some i → idx t' = some i → t = t' := by
    intro t t' i h h'
    obtain ⟨hg, -, hn⟩ := hiff.mp h
    obtain ⟨hg', -, hn'⟩ := hiff.mp h'
    exact numberThreads_inj hg hg' (hn.trans hn'.symm)
  have hd_iff : ∀ t q j, dest t = some (q, j) ↔ q = firstFrame ∧ j = t ∧ ∃ i, idx t = some i := by
    intro t q j
    simp only [hdest, Option.map_eq_some_iff, Prod.mk.injEq]
    constructor
    · rintro ⟨i, hi, rfl, rfl⟩
      exact ⟨rfl, rfl, i, hi⟩
    · rintro ⟨rfl, rfl, i, hi⟩
      exact ⟨i, hi, rfl, rfl⟩
  have hd_inj : ∀ t t' a, dest t = some a → dest t' = some a → t = t' := by
    rintro t t' ⟨q, j⟩ h h'
    exact ((hd_iff t q j).mp h).2.1.symm.trans ((hd_iff t' q j).mp h').2.1
  have hother : ∀ q, q ≠ firstFrame → stored.multiMask q = box.multiMask q ∧
      stored.attributes q = box.attributes q := by
    intro q hq
    have hnot : ∀ t i, dest t ≠ some (q, i) := fun t i h => hq ((hd_iff t q i).mp h).1
    exact ⟨store_multiMask_frame _ _ hnot, store_attributes_frame _ _ hnot⟩
  have hsome : ∀ {t i}, idx t = some i → stored.multiMask firstFrame t = 1 := fun h =>
    store_multiMask_of_eq value box (mem_threadOrder σ.1) hd_inj ((hd_iff _ _ _).mpr ⟨rfl, rfl, _, h⟩)
  have hnone : ∀ {t}, idx t = none → stored.multiMask firstFrame t = box.multiMask firstFrame t := by
    intro t h
    refine store_multiMask_of_ne value box fun t' h' => ?_
    obtain ⟨-, rfl, i, hi⟩ := (hd_iff _ _ _).mp h'
    simp [h] at hi
  have hfirst : (stored.deleteParticles lastFrame fun i => ∃ t, idx t = some i).multiMask firstFrame =
      stored.multiMask firstFrame := deleteParticles_multiMask_of_ne stored hne _
  have hlast : ∀ i, (stored.deleteParticles lastFrame fun i => ∃ t, idx t = some i).multiMask lastFrame i =
      if ∃ t, idx t = some i then 0 else box.multiMask lastFrame i := by
    intro i
    rw [deleteParticles_multiMask, (hother lastFrame hne.symm).1]
  refine ⟨stored.deleteParticles lastFrame fun i => ∃ t, idx t = some i, ?_, rfl, fun q hq hq' => ?_,
    fun hle t => ?_, fun hle i => ?_, fun q t => ?_, ?_⟩
  · rw [moveParticles, if_pos]
    intro t ht
    obtain ⟨i, hi, hn⟩ := exists_numberThreads ht
    have hg : isGap box firstFrame t = true := by
      by_contra hg
      have := numberThreads_le (isParticle box lastFrame) σ.2
      simp only [localGapIdx, hg, if_false] at ht
      omega
    have hlocal : localGapIdx box firstFrame σ.1 t = (numberThreads (isGap box firstFrame) σ.1).2 t := by
      rw [localGapIdx, if_pos hg]
    exact Option.isSome_iff_exists.mpr ⟨i, hiff.mpr ⟨hg, hi, hlocal.symm.trans hn.symm⟩⟩
  · rw [deleteParticles_multiMask_of_ne stored hq', (hother q hq).1]
    exact ⟨rfl, (hother q hq).2⟩
  · rw [hfirst]
    cases hi : idx t with
    | some i => simp [hsome hi]
    | none =>
      rw [hnone hi]
      intro h0
      have hg : isGap box firstFrame t = true := by simp [isGap, h0]
      obtain ⟨i, hi', hn⟩ := exists_numberThreads ((numberThreads_lt (σ := σ.1) hg).trans_le hle)
      have := hiff.mpr ⟨hg, hi', hn.symm⟩
      simp [hi] at this
  · rw [hlast]
    split
    · simp
    case isFalse hnot =>
      intro h1
      have hi : isParticle box lastFrame i = true := by simp [isParticle, h1]
      obtain ⟨t, ht, hn⟩ := exists_numberThreads ((numberThreads_lt (σ := σ.2) hi).trans_le hle)
      exact hnot ⟨t, hiff.mpr ⟨ht, hi, hn⟩⟩
  · by_cases hq : q = lastFrame
    · subst hq
      rw [hlast]
      split <;> omega
    · rw [deleteParticles_multiMask_of_ne stored hq]
      by_cases hq' : q = firstFrame
      · subst hq'
        cases hi : idx t with
        | some i => rw [hsome hi]; omega
        | none => rw [hnone hi]; omega
      · rw [(hother q hq').1]
        omega
  · have hempty : ∀ t j, dest t = some (firstFrame, j) → box.multiMask firstFrame j = 0 := fun t j h => by
      obtain ⟨-, rfl, i, hi⟩ := (hd_iff _ _ _).mp h
      exact hgap hi
    have hstore := particles_store_frame value (mem_threadOrder σ.1) hd_inj hempty
    have hone : ∀ i ∈ Finset.univ.filter fun i => ∃ t, idx t = some i, box.multiMask lastFrame i = 1 :=
      fun i hi => by
        obtain ⟨t, ht⟩ := (Finset.mem_filter.mp hi).2
        exact hpar ht
    have hclear := particles_clear (box.attributes lastFrame)
      ((stored.deleteParticles lastFrame fun i => ∃ t, idx t = some i).multiMask lastFrame) hone
      (fun i hi => by rw [hlast, if_pos (Finset.mem_filter.mp hi).2])
      fun i hi => by rw [hlast, if_neg fun he => hi (by simpa using he)]
    have hmatch : (Finset.univ.filter fun t => ∃ i, dest t = some (firstFrame, i)).val.map value =
        (Finset.univ.filter fun i => ∃ t, idx t = some i).val.map (box.attributes lastFrame) := by
      have hfilter : (Finset.univ.filter fun t => ∃ i, dest t = some (firstFrame, i)) =
          Finset.univ.filter fun t => ∃ i, idx t = some i :=
        Finset.filter_congr fun t _ => by simp [hd_iff]
      rw [hfilter]
      exact map_eq_map_of_matching (R := fun t i => idx t = some i)
        (fun t i i' h h' => Option.some.inj (h.symm.trans h')) (fun t t' i h h' => hidx_inj h h')
        fun t i h => by simp [hvalue, h]
    have hattr : stored.attributes lastFrame = box.attributes lastFrame := (hother lastFrame hne.symm).2
    rw [hfirst, hclear, ← hmatch]
    change particles (stored.multiMask firstFrame) (stored.attributes firstFrame) 1 +
      particles _ (stored.attributes lastFrame) 1 = _
    rw [hstored, hstore, ← hstored, hattr, add_assoc, add_comm (Multiset.map _ _)]

end Move

/-- A change of one supercell that keeps its unmarked particles. -/
structure Tidied (c : DataSpace D) (box : ParticlesBox D T α) (L : DataSpace D → List Ptr)
    (box' : ParticlesBox D T α) (L' : DataSpace D → List Ptr) : Prop where
  linked : Linked box' L'
  lists : ∀ s, s ≠ c → L' s = L s
  frames : ∀ s, s ≠ c → ∀ q ∈ L s, box'.multiMask q = box.multiMask q ∧ box'.attributes q = box.attributes q
  size : box'.sizeLastFrame = box.sizeLastFrame
  mustShift : box'.mustShift = box.mustShift
  attempts : box'.attempts = box.attempts
  own : L' c ⊆ L c
  accounted : (∀ p ∈ box.allocated, ∃ s, p ∈ L s) → ∀ p ∈ box'.allocated, ∃ s, p ∈ L' s
  multiMask_le : ∀ q ∈ L' c, ∀ t, box'.multiMask q t ≤ max 1 (box.multiMask q t)
  contents_eq : box'.contents (L' c) 1 = box.contents (L c) 1

theorem Tidied.refl {c : DataSpace D} {box : ParticlesBox D T α} {L : DataSpace D → List Ptr}
    (h : Linked box L) : Tidied c box L box L :=
  ⟨h, fun _ _ => rfl, fun _ _ _ _ => ⟨rfl, rfl⟩, rfl, rfl, rfl, List.Subset.refl _, fun h => h,
    fun _ _ _ => le_max_right _ _, rfl⟩

theorem Tidied.trans {c : DataSpace D} {box₁ box₂ box₃ : ParticlesBox D T α} {L₁ L₂ L₃ : DataSpace D → List Ptr}
    (h : Tidied c box₁ L₁ box₂ L₂) (h' : Tidied c box₂ L₂ box₃ L₃) : Tidied c box₁ L₁ box₃ L₃ where
  linked := h'.linked
  lists s hs := (h'.lists s hs).trans (h.lists s hs)
  frames s hs q hq := by
    obtain ⟨hm, ha⟩ := h.frames s hs q hq
    obtain ⟨hm', ha'⟩ := h'.frames s hs q (by rwa [h.lists s hs])
    exact ⟨hm'.trans hm, ha'.trans ha⟩
  size := h'.size.trans h.size
  mustShift := h'.mustShift.trans h.mustShift
  attempts := h'.attempts.trans h.attempts
  own := List.Subset.trans h'.own h.own
  accounted ha := h'.accounted (h.accounted ha)
  multiMask_le q hq t := by
    have h1 := h.multiMask_le q (h'.own hq) t
    have h2 := h'.multiMask_le q hq t
    omega
  contents_eq := h'.contents_eq.trans h.contents_eq

section Round

variable {c : DataSpace D} {box box' : ParticlesBox D T α} {L : DataSpace D → List Ptr}
  {firstFrame lastFrame : Ptr} {l r : List Ptr} {gaps found : ℕ}

theorem Moved.tidied (h : Moved firstFrame lastFrame gaps found box box') (hL : Linked box L)
    (hLc : L c = l ++ firstFrame :: (r ++ [lastFrame])) : Tidied c box L box' L ∧
      ∀ q ∈ l, box'.multiMask q = box.multiMask q := by
  have hnd := hL.nodup c
  rw [hLc] at hnd
  obtain ⟨-, hnd', hdisj⟩ := List.nodup_append.mp hnd
  obtain ⟨hfirst, hnd''⟩ := List.nodup_cons.mp hnd'
  obtain ⟨-, -, hdisj'⟩ := List.nodup_append.mp hnd''
  have hl : ∀ q ∈ l, q ≠ firstFrame ∧ q ≠ lastFrame := fun q hq =>
    ⟨hdisj q hq firstFrame (by simp), hdisj q hq lastFrame (by simp)⟩
  have hr : ∀ q ∈ r, q ≠ firstFrame ∧ q ≠ lastFrame := fun q hq =>
    ⟨fun he => hfirst (by simp [← he, hq]), hdisj' q hq lastFrame (by simp)⟩
  have hlinks := h.links
  have hother : ∀ s, s ≠ c → ∀ q ∈ L s, q ≠ firstFrame ∧ q ≠ lastFrame := fun s hs q hq =>
    ⟨fun he => hs (hL.disjoint s c q hq (by simp [hLc, he])),
      fun he => hs (hL.disjoint s c q hq (by simp [hLc, he]))⟩
  refine ⟨⟨?_, fun _ _ => rfl, fun s hs q hq => h.untouched q (hother s hs q hq).1 (hother s hs q hq).2,
    by rw [hlinks], by rw [hlinks], by rw [hlinks], List.Subset.refl _, ?_, fun q _ t => h.multiMask_le q t, ?_⟩,
    fun q hq => (h.untouched q (hl q hq).1 (hl q hq).2).1⟩
  · rw [hlinks]
    exact hL.congr rfl rfl (fun _ _ _ => rfl) (fun _ _ _ => rfl) hL.allocated
  · rw [hlinks]
    exact fun ha => ha
  · have hcl : ∀ frames : List Ptr, (∀ q ∈ frames, q ≠ firstFrame ∧ q ≠ lastFrame) →
        box'.contents frames 1 = box.contents frames 1 := fun frames hf =>
      contents_congr (fun q hq => (h.untouched q (hf q hq).1 (hf q hq).2).1)
        fun q hq => (h.untouched q (hf q hq).1 (hf q hq).2).2
    have hsum := h.particles_eq
    rw [hLc]
    simp only [contents_append, contents_cons, contents_nil, hcl l hl, hcl r hr, add_zero]
    rw [add_left_comm _ (box.contents r 1), hsum, ← add_left_comm _ (box.contents r 1)]

theorem tidied_removeLastFrame (hL : Linked box L) (hLc : L c = l ++ [lastFrame])
    (hempty : ∀ t, box.multiMask lastFrame t ≠ 1) :
    ∃ box', box.getPreviousFrameAndRemoveLastFrame lastFrame c = (l.getLast?, box') ∧
      box'.multiMask = box.multiMask ∧ Tidied c box L box' (Function.update L c l) := by
  refine ⟨(box.removeLastFrame c).2, ?_, by simp, ⟨(hL.removeLastFrame hLc).2, fun s hs => Function.update_of_ne hs _ _,
    fun s _ q _ => by simp, by simp, by simp, by simp, ?_, hL.accounted_removeLastFrame hLc, fun q _ t => by simp, ?_⟩⟩
  · rw [← hL.getPreviousFrame hLc]
    rfl
  · intro q hq
    rw [Function.update_self] at hq
    simp [hLc, hq]
  · rw [Function.update_self, hLc, contents_append, contents_cons, contents_nil, add_zero,
      particles_eq_zero _ hempty, add_zero]
    exact contents_congr (fun _ _ => by simp) fun _ _ => by simp

end Round

/-- Only the last frame of the supercell has gaps. -/
def FullButLast (box : ParticlesBox D T α) (frames : List Ptr) : Prop :=
  ∀ l p, frames = l ++ [p] → ∀ q ∈ l, ∀ t, box.multiMask q t ≠ 0

def round (superCellIdx : DataSpace D) (σ : Equiv.Perm (Fin T) × Equiv.Perm (Fin T)) (firstFrame lastFrame : Ptr)
    (box : ParticlesBox D T α) : Option (Option (Ptr × Ptr) × ParticlesBox D T α) :=
  if firstFrame = lastFrame then some (none, box)
  else
    let counterGaps := (numberThreads (isGap box firstFrame) σ.1).1
    let counterParticles := (numberThreads (isParticle box lastFrame) σ.2).1
    if counterGaps = 0 then some ((box.nextFrame firstFrame).map fun next => (next, lastFrame), box)
    else (moveParticles box firstFrame lastFrame σ).map fun box =>
      if counterGaps < counterParticles then ((box.nextFrame firstFrame).map fun next => (next, lastFrame), box)
      else
        let removed := box.getPreviousFrameAndRemoveLastFrame lastFrame superCellIdx
        (removed.1.bind fun previous =>
          if counterGaps = counterParticles ∧ previous ≠ firstFrame then
            (removed.2.nextFrame firstFrame).map fun next => (next, previous)
          else some (firstFrame, previous), removed.2)

theorem fillGaps_succ (c : DataSpace D) (order : ℕ → Equiv.Perm (Fin T) × Equiv.Perm (Fin T)) (n : ℕ)
    (firstFrame lastFrame : Ptr) (box : ParticlesBox D T α) :
    fillGaps c order (n + 1) firstFrame lastFrame box =
      (round c (order n) firstFrame lastFrame box).bind fun st =>
        match st.1 with
        | none => some st.2
        | some (first, last) => fillGaps c order n first last st.2 := by
  rw [fillGaps, round]
  by_cases heq : firstFrame = lastFrame
  · rw [if_pos heq, if_pos heq]
    rfl
  · rw [if_neg heq, if_neg heq]
    dsimp only
    by_cases hgaps : (numberThreads (isGap box firstFrame) (order n).1).1 = 0
    · rw [if_pos hgaps, if_pos hgaps]
      cases box.nextFrame firstFrame <;> rfl
    · rw [if_neg hgaps, if_neg hgaps]
      cases moveParticles box firstFrame lastFrame (order n) with
      | none => rfl
      | some box₁ =>
        simp only [Option.bind_eq_bind, Option.bind_some, Option.map_some]
        split_ifs
        · cases box₁.nextFrame firstFrame <;> rfl
        · rcases box₁.getPreviousFrameAndRemoveLastFrame lastFrame c with ⟨_ | previous, box₂⟩
          · rfl
          · simp only [Option.bind_some]
            split_ifs
            · cases box₂.nextFrame firstFrame <;> rfl
            · rfl

/-- The frames in front of `firstFrame` are full, those behind it are `r`, and `lastFrame` ends the list. -/
def Pointers (box : ParticlesBox D T α) (frames r : List Ptr) (firstFrame lastFrame : Ptr) : Prop :=
  ∃ l, frames = l ++ firstFrame :: r ∧ (firstFrame :: r).getLast? = some lastFrame ∧
    ∀ q ∈ l, ∀ t, box.multiMask q t ≠ 0

section Round

variable {c : DataSpace D} {box box' : ParticlesBox D T α} {L : DataSpace D → List Ptr}
  {firstFrame lastFrame : Ptr} {l r frames : List Ptr}

theorem Pointers.next (hL : Linked box L) (h : Pointers box (L c) r firstFrame lastFrame) (hr : r ≠ [])
    (hfirst : ∀ t, box.multiMask firstFrame t ≠ 0) :
    ∃ next r', box.nextFrame firstFrame = some next ∧ r = next :: r' ∧
      Pointers box (L c) r' next lastFrame := by
  obtain ⟨l, hLc, hlast, hfull⟩ := h
  obtain ⟨next, r', rfl⟩ := List.exists_cons_of_ne_nil hr
  refine ⟨next, r', hL.next c l firstFrame (next :: r') hLc, rfl, l ++ [firstFrame], by simp [hLc],
    by simpa using hlast, fun q hq => ?_⟩
  rcases List.mem_append.mp hq with hq | hq
  · exact hfull q hq
  · obtain rfl : q = firstFrame := by simpa using hq
    exact hfirst

/-- What one round does. It goes on with a shorter rest of the list, and a frame that it frees is empty. -/
structure Rounded (c : DataSpace D) (r : List Ptr) (box : ParticlesBox D T α) (L : DataSpace D → List Ptr)
    (next : Option (Ptr × Ptr)) (box' : ParticlesBox D T α) (L' : DataSpace D → List Ptr) : Prop where
  tidied : Tidied c box L box' L'
  freed : (∀ q ∈ L c, ∀ t, box.multiMask q t ≤ 1) → ∀ q ∈ box.allocated, q ∉ box'.allocated →
    ∀ t, box'.multiMask q t = 0
  finished : next = none → FullButLast box' (L' c)
  continued : ∀ first last, next = some (first, last) →
    ∃ r', r'.length < r.length ∧ Pointers box' (L' c) r' first last

theorem round_spec (hT : T ≤ 65535) (σ : Equiv.Perm (Fin T) × Equiv.Perm (Fin T)) (hL : Linked box L)
    (h : Pointers box (L c) r firstFrame lastFrame) :
    ∃ next box' L', round c σ firstFrame lastFrame box = some (next, box') ∧
      Rounded c r box L next box' L' := by
  obtain ⟨l, hLc, hlast, hfull⟩ := h
  have hnd := hL.nodup c
  rw [hLc] at hnd
  have hfirst : firstFrame ∉ r := (List.nodup_cons.mp (List.nodup_append.mp hnd).2.1).1
  by_cases heq : firstFrame = lastFrame
  · refine ⟨none, box, L, by rw [round, if_pos heq], Tidied.refl hL, fun _ q hq hq' => absurd hq hq', fun _ => ?_,
      fun first last he => by simp at he⟩
    obtain rfl : r = [] := by
      rcases List.eq_nil_or_concat r with hr | ⟨r', x, hr⟩
      · exact hr
      · rw [List.concat_eq_append] at hr
        rw [hr, ← List.cons_append, List.getLast?_append] at hlast
        obtain rfl : x = lastFrame := by simpa using hlast
        exact absurd (by simp [hr, heq]) hfirst
    intro l' p he q hq
    rw [hLc] at he
    obtain ⟨rfl, -⟩ := List.append_inj' he rfl
    exact hfull q hq
  · obtain ⟨r', rfl⟩ : ∃ r', r = r' ++ [lastFrame] := by
      rcases List.eq_nil_or_concat r with hr | ⟨r', x, hr⟩
      · rw [hr] at hlast
        exact absurd (by simpa using hlast) heq
      · rw [List.concat_eq_append] at hr
        rw [hr, ← List.cons_append, List.getLast?_append] at hlast
        obtain rfl : x = lastFrame := by simpa using hlast
        exact ⟨r', hr⟩
    have hne : r' ++ [lastFrame] ≠ [] := by simp
    by_cases hgaps : (numberThreads (isGap box firstFrame) σ.1).1 = 0
    · have hfirst₁ : ∀ t, box.multiMask firstFrame t ≠ 0 := by
        intro t ht
        have hg : isGap box firstFrame t = true := by simp [isGap, ht]
        have := numberThreads_lt (σ := σ.1) hg
        omega
      obtain ⟨next, r₂, hnext, hr₂, hptr⟩ := Pointers.next hL ⟨l, hLc, hlast, hfull⟩ hne hfirst₁
      refine ⟨some (next, lastFrame), box, L, ?_, Tidied.refl hL, fun _ q hq hq' => absurd hq hq',
        fun hn => by simp at hn, fun first last he => ?_⟩
      · rw [round, if_neg heq]
        simp only [hgaps, if_true, hnext, Option.map_some]
      · obtain ⟨rfl, rfl⟩ : next = first ∧ lastFrame = last := by simpa using he
        exact ⟨r₂, by rw [hr₂, List.length_cons]; omega, hptr⟩
    · obtain ⟨box₁, hmove, hmoved⟩ := moveParticles_spec (σ := σ) hT heq
      obtain ⟨htidy₁, hl₁⟩ := hmoved.tidied hL hLc
      have hfull₁ : ∀ q ∈ l, ∀ t, box₁.multiMask q t ≠ 0 := fun q hq => by
        rw [hl₁ q hq]
        exact hfull q hq
      have halloc₁ : box₁.allocated = box.allocated := by rw [hmoved.links]
      by_cases hlt : (numberThreads (isGap box firstFrame) σ.1).1 <
          (numberThreads (isParticle box lastFrame) σ.2).1
      · obtain ⟨next, r₂, hnext, hr₂, hptr⟩ := Pointers.next htidy₁.linked ⟨l, hLc, hlast, hfull₁⟩ hne
          (hmoved.full hlt.le)
        refine ⟨some (next, lastFrame), box₁, L, ?_, htidy₁,
          fun _ q hq hq' => absurd (by rwa [halloc₁]) hq', fun hn => by simp at hn, fun first last he => ?_⟩
        · rw [round, if_neg heq]
          simp only [hgaps, if_false, hmove, Option.map_some, hlt, if_true, hnext]
        · obtain ⟨rfl, rfl⟩ : next = first ∧ lastFrame = last := by simpa using he
          exact ⟨r₂, by rw [hr₂, List.length_cons]; omega, hptr⟩
      · have hLc' : L c = (l ++ firstFrame :: r') ++ [lastFrame] := by simp [hLc]
        obtain ⟨box₂, hremove, hmask₂, htidy₂⟩ := tidied_removeLastFrame htidy₁.linked hLc'
          (hmoved.emptied (not_lt.mp hlt))
        obtain ⟨previous, hprev⟩ : ∃ previous, (firstFrame :: r').getLast? = some previous := by
          simp [List.getLast?_cons]
        have hget : (l ++ firstFrame :: r').getLast? = some previous := by
          rw [List.getLast?_append, hprev]
          rfl
        rw [hget] at hremove
        have hL₂ : Function.update L c (l ++ firstFrame :: r') c = l ++ firstFrame :: r' :=
          Function.update_self _ _ _
        have hfull₂ : ∀ q ∈ l, ∀ t, box₂.multiMask q t ≠ 0 := by rwa [hmask₂]
        have hptr₂ : Pointers box₂ (Function.update L c (l ++ firstFrame :: r') c) r' firstFrame previous :=
          ⟨l, hL₂, hprev, hfull₂⟩
        have hfreed : (∀ q ∈ L c, ∀ t, box.multiMask q t ≤ 1) → ∀ q ∈ box.allocated, q ∉ box₂.allocated →
            ∀ t, box₂.multiMask q t = 0 := by
          intro hone q hq hq' t
          have halloc₂ : box₂.allocated = box₁.allocated.erase lastFrame := by
            have hbox₂ : (box₁.removeLastFrame c).2 = box₂ := congrArg Prod.snd hremove
            rw [← hbox₂]
            exact htidy₁.linked.removeLastFrame_allocated hLc'
          obtain rfl : q = lastFrame := by
            by_contra hne'
            exact hq' (by rw [halloc₂, halloc₁]; exact Finset.mem_erase.mpr ⟨hne', hq⟩)
          have h1 := hmoved.emptied (not_lt.mp hlt) t
          have h2 := hmoved.multiMask_le q t
          have h3 := hone q (by simp [hLc]) t
          rw [hmask₂]
          omega
        have hround : round c σ firstFrame lastFrame box =
            some (if (numberThreads (isGap box firstFrame) σ.1).1 =
                (numberThreads (isParticle box lastFrame) σ.2).1 ∧ previous ≠ firstFrame then
              (box₂.nextFrame firstFrame).map fun next => (next, previous)
            else some (firstFrame, previous), box₂) := by
          rw [round, if_neg heq]
          simp only [hgaps, if_false, hmove, Option.map_some, hlt, hremove, Option.bind_some]
        have hlen : r'.length < (r' ++ [lastFrame]).length := by simp
        by_cases hboth : (numberThreads (isGap box firstFrame) σ.1).1 =
            (numberThreads (isParticle box lastFrame) σ.2).1 ∧ previous ≠ firstFrame
        · have hr' : r' ≠ [] := by
            rintro rfl
            exact hboth.2 (by simpa using hprev.symm)
          obtain ⟨next, r₂, hnext, hr₂, hptr⟩ := Pointers.next htidy₂.linked hptr₂ hr' (by
            rw [hmask₂]
            exact hmoved.full hboth.1.le)
          refine ⟨some (next, previous), box₂, _, ?_, htidy₁.trans htidy₂, hfreed, fun hn => by simp at hn,
            fun first last he => ?_⟩
          · rw [hround, if_pos hboth, hnext, Option.map_some]
          · obtain ⟨rfl, rfl⟩ : next = first ∧ previous = last := by simpa using he
            exact ⟨r₂, by rw [List.length_append, hr₂, List.length_cons]; omega, hptr⟩
        · refine ⟨some (firstFrame, previous), box₂, _, ?_, htidy₁.trans htidy₂, hfreed, fun hn => by simp at hn,
            fun first last he => ?_⟩
          · rw [hround, if_neg hboth]
          · obtain ⟨rfl, rfl⟩ : firstFrame = first ∧ previous = last := by simpa using he
            exact ⟨r', hlen, hptr₂⟩

end Round

def rounds (superCellIdx : DataSpace D) (order : ℕ → Equiv.Perm (Fin T) × Equiv.Perm (Fin T)) :
    ℕ → Ptr → Ptr → ParticlesBox D T α → List (ParticlesBox D T α × ParticlesBox D T α)
  | 0, _, _, _ => []
  | n + 1, firstFrame, lastFrame, box =>
    match round superCellIdx (order n) firstFrame lastFrame box with
    | none => []
    | some (none, box') => [(box, box')]
    | some (some (first, last), box') => (box, box') :: rounds superCellIdx order n first last box'

def Path (box : ParticlesBox D T α) : List (ParticlesBox D T α × ParticlesBox D T α) → ParticlesBox D T α → Prop
  | [], box' => box = box'
  | m :: path, box' => m.1 = box ∧ Path m.2 path box'

theorem rounds_path {c : DataSpace D} {order : ℕ → Equiv.Perm (Fin T) × Equiv.Perm (Fin T)} {n : ℕ}
    {firstFrame lastFrame : Ptr} {box box' : ParticlesBox D T α}
    (h : fillGaps c order n firstFrame lastFrame box = some box') :
    Path box (rounds c order n firstFrame lastFrame box) box' := by
  induction n generalizing firstFrame lastFrame box with
  | zero => simp [fillGaps] at h
  | succ n ih =>
    rw [fillGaps_succ] at h
    rw [rounds]
    cases hround : round c (order n) firstFrame lastFrame box with
    | none => simp [hround] at h
    | some st =>
      obtain ⟨next, box₁⟩ := st
      rw [hround, Option.bind_some] at h
      cases next with
      | none => exact ⟨rfl, Option.some.inj h⟩
      | some next => exact ⟨rfl, ih h⟩

/-- The frames in front of `firstFrame` are full; every round drops a frame at one of the ends. -/
theorem fillGaps_spec (hT : T ≤ 65535) {c : DataSpace D} (order : ℕ → Equiv.Perm (Fin T) × Equiv.Perm (Fin T))
    {n : ℕ} {box : ParticlesBox D T α} {L : DataSpace D → List Ptr} {r : List Ptr} {firstFrame lastFrame : Ptr}
    (hL : Linked box L) (hptr : Pointers box (L c) r firstFrame lastFrame) (hn : r.length < n) :
    ∃ box' L', fillGaps c order n firstFrame lastFrame box = some box' ∧ Tidied c box L box' L' ∧
      FullButLast box' (L' c) ∧
      ((∀ q ∈ L c, ∀ t, box.multiMask q t ≤ 1) → ∀ m ∈ rounds c order n firstFrame lastFrame box,
        ∀ q ∈ m.1.allocated, q ∉ m.2.allocated → ∀ t, m.2.multiMask q t = 0) := by
  induction n generalizing box L r firstFrame lastFrame with
  | zero => omega
  | succ n ih =>
    obtain ⟨next, box₁, L₁, hround, h₁⟩ := round_spec hT (order n) hL hptr
    rw [fillGaps_succ, rounds, hround, Option.bind_some]
    cases next with
    | none =>
      refine ⟨box₁, L₁, rfl, h₁.tidied, h₁.finished rfl, fun hone m hm => ?_⟩
      obtain rfl : m = (box, box₁) := by simpa using hm
      exact h₁.freed hone
    | some next =>
      obtain ⟨r', hlen, hptr'⟩ := h₁.continued next.1 next.2 rfl
      obtain ⟨box', L', hrun, htidy, hfb, hfreed⟩ := ih h₁.tidied.linked hptr' (by omega)
      refine ⟨box', L', hrun, h₁.tidied.trans htidy, hfb, fun hone m hm => ?_⟩
      rcases List.mem_cons.mp hm with rfl | hm
      · exact h₁.freed hone
      · refine hfreed (fun q hq t => ?_) m hm
        have hle := h₁.tidied.multiMask_le q hq t
        have hq1 := hone q (h₁.tidied.own hq) t
        omega

def blockRounds (order : ℕ → Equiv.Perm (Fin T) × Equiv.Perm (Fin T)) (box : ParticlesBox D T α)
    (superCellIdx : DataSpace D) : List (ParticlesBox D T α × ParticlesBox D T α) :=
  match box.firstFramePtr superCellIdx, box.lastFramePtr superCellIdx with
  | some firstFrame, some lastFrame => rounds superCellIdx order box.allocated.card firstFrame lastFrame box
  | _, _ => []

theorem block_spec (hT : T ≤ 65535) (order : ℕ → Equiv.Perm (Fin T) × Equiv.Perm (Fin T))
    {box : ParticlesBox D T α} {L : DataSpace D → List Ptr} (hL : Linked box L) (c : DataSpace D) :
    ∃ box' L', block order box c = some box' ∧ Tidied c box L box' L' ∧ FullButLast box' (L' c) ∧
      Path box (blockRounds order box c) box' ∧
      ((∀ q ∈ L c, ∀ t, box.multiMask q t ≤ 1) → ∀ m ∈ blockRounds order box c,
        ∀ q ∈ m.1.allocated, q ∉ m.2.allocated → ∀ t, m.2.multiMask q t = 0) := by
  cases hLc : L c with
  | nil =>
    have hrounds : blockRounds order box c = [] := by simp [blockRounds, hL.first, hLc]
    refine ⟨box, L, ?_, Tidied.refl hL, ?_, ?_, ?_⟩
    · simp [block, hL.first, hLc]
    · intro l p he
      simp [hLc] at he
    · rw [hrounds]
      exact rfl
    · simp [hrounds]
  | cons firstFrame r =>
    obtain ⟨lastFrame, hlast⟩ : ∃ p, (firstFrame :: r).getLast? = some p := by simp [List.getLast?_cons]
    have hlen := hL.length_le c
    rw [hLc, List.length_cons] at hlen
    obtain ⟨box', L', hrun, htidy, hfb, hfreed⟩ := fillGaps_spec hT order hL ⟨[], hLc, hlast, by simp⟩
      (Nat.lt_of_succ_le hlen)
    have hrounds : blockRounds order box c = rounds c order box.allocated.card firstFrame lastFrame box := by
      rw [blockRounds, hL.first, hL.last, hLc, hlast]
      rfl
    refine ⟨box', L', ?_, htidy, hfb, ?_, ?_⟩
    · rw [block, hL.first, hL.last, hLc, hlast]
      exact hrun
    · rw [hrounds]
      exact rounds_path hrun
    · rw [hrounds, ← hLc]
      exact hfreed

end KernelFillGaps

namespace KernelFillGapsLastFrame

section Move

variable {box : ParticlesBox D T α} {lastFrame : Ptr} {σ : Equiv.Perm (Fin T) × Equiv.Perm (Fin T)} {n : ℕ}

theorem gapIdx_eq_some {t i : Fin T}
    (hcount : (numberThreads (isBehind box lastFrame n) σ.2).1 = (numberThreads (isGap box lastFrame n) σ.1).1) :
    gapIdx box lastFrame n σ t = some i ↔ isBehind box lastFrame n t = true ∧ isGap box lastFrame n i = true ∧
      (numberThreads (isBehind box lastFrame n) σ.2).2 t = (numberThreads (isGap box lastFrame n) σ.1).2 i := by
  unfold gapIdx
  constructor
  · intro h
    split at h
    case isTrue hb =>
      have hlt := numberThreads_lt (σ := σ.2) hb
      rw [hcount] at hlt
      obtain ⟨i', hi', hn⟩ := exists_numberThreads hlt
      rw [← hn, threadIndices_eq hi'] at h
      obtain rfl : i' = i := by simpa using h
      exact ⟨hb, hi', hn.symm⟩
    case isFalse => simp at h
  · rintro ⟨hb, hg, hn⟩
    rw [if_pos hb, hn, threadIndices_eq hg]

/-- In front of slot `n` there are as many gaps as particles behind it. -/
theorem count_eq (hn : n = (Finset.univ.filter fun t => isParticle box lastFrame t = true).card) :
    (numberThreads (isBehind box lastFrame n) σ.2).1 = (numberThreads (isGap box lastFrame n) σ.1).1 := by
  have hnT : n ≤ T := by
    rw [hn]
    simpa using Finset.card_filter_le (Finset.univ : Finset (Fin T)) fun t => isParticle box lastFrame t = true
  have hfront : (Finset.univ.filter fun t : Fin T => t.val < n).card = n := card_filter_lt hnT
  have h1 := Finset.card_filter_add_card_filter_not (s := Finset.univ.filter fun t : Fin T => t.val < n)
    fun t => isParticle box lastFrame t = true
  have h2 := Finset.card_filter_add_card_filter_not
    (s := Finset.univ.filter fun t => isParticle box lastFrame t = true) fun t => t.val < n
  rw [Finset.filter_filter, Finset.filter_filter] at h1 h2
  rw [numberThreads_count, numberThreads_count]
  have hb : (Finset.univ.filter fun t => isBehind box lastFrame n t = true) =
      Finset.univ.filter fun t => isParticle box lastFrame t = true ∧ ¬t.val < n :=
    Finset.filter_congr fun t _ => by simp [isBehind, and_comm]
  have hg : (Finset.univ.filter fun t => isGap box lastFrame n t = true) =
      Finset.univ.filter fun t => t.val < n ∧ ¬isParticle box lastFrame t = true :=
    Finset.filter_congr fun t _ => by simp [isGap]
  have hcomm : (Finset.univ.filter fun t => isParticle box lastFrame t = true ∧ t.val < n) =
      Finset.univ.filter fun t => t.val < n ∧ isParticle box lastFrame t = true :=
    Finset.filter_congr fun t _ => and_comm
  rw [hcomm] at h2
  rw [hb, hg]
  omega

theorem moveParticles_spec (hn : n = (Finset.univ.filter fun t => isParticle box lastFrame t = true).card) :
    ∃ box', moveParticles box lastFrame n σ = some box' ∧
      box' = { box with multiMask := box'.multiMask, attributes := box'.attributes } ∧
      (∀ q, q ≠ lastFrame → box'.multiMask q = box.multiMask q ∧ box'.attributes q = box.attributes q) ∧
      (∀ t, box'.multiMask lastFrame t ≤ max 1 (box.multiMask lastFrame t)) ∧
      (∀ t, box'.multiMask lastFrame t ≠ 0 ↔ t.val < n) ∧
      ((∀ t, box.multiMask lastFrame t ≤ 1) →
        particles (box'.multiMask lastFrame) (box'.attributes lastFrame) 1 =
          particles (box.multiMask lastFrame) (box.attributes lastFrame) 1) := by
  have hcount := count_eq (σ := σ) hn
  set idx := gapIdx box lastFrame n σ with hidx
  set dest : Fin T → Option (Ptr × Fin T) := fun t => (idx t).map fun i => (lastFrame, i) with hdest
  set stored := box.store (threadOrder σ.2) dest (box.attributes lastFrame) with hstored
  have hiff : ∀ {t i}, idx t = some i ↔ isBehind box lastFrame n t = true ∧ isGap box lastFrame n i = true ∧
      (numberThreads (isBehind box lastFrame n) σ.2).2 t = (numberThreads (isGap box lastFrame n) σ.1).2 i :=
    gapIdx_eq_some hcount
  have hd_iff : ∀ t q i, dest t = some (q, i) ↔ q = lastFrame ∧ idx t = some i := by
    intro t q i
    simp only [hdest, Option.map_eq_some_iff, Prod.mk.injEq]
    constructor
    · rintro ⟨i', hi, rfl, rfl⟩
      exact ⟨rfl, hi⟩
    · rintro ⟨rfl, hi⟩
      exact ⟨i, hi, rfl, rfl⟩
  have hd_inj : ∀ t t' a, dest t = some a → dest t' = some a → t = t' := by
    rintro t t' ⟨q, i⟩ h h'
    obtain ⟨hb, -, hnum⟩ := hiff.mp ((hd_iff t q i).mp h).2
    obtain ⟨hb', -, hnum'⟩ := hiff.mp ((hd_iff t' q i).mp h').2
    exact numberThreads_inj hb hb' (hnum.trans hnum'.symm)
  have hgap : ∀ {i}, isGap box lastFrame n i = true → i.val < n ∧ box.multiMask lastFrame i = 0 := fun h => by
    simpa [isGap, isParticle] using h
  have hbehind : ∀ {t}, isBehind box lastFrame n t = true ↔ n ≤ t.val ∧ box.multiMask lastFrame t ≠ 0 := by
    simp [isBehind, isParticle]
  have hfilled : ∀ {i}, isGap box lastFrame n i = true → stored.multiMask lastFrame i = 1 := by
    intro i hi
    have hlt := numberThreads_lt (σ := σ.1) hi
    rw [← hcount] at hlt
    obtain ⟨t, ht, hnum⟩ := exists_numberThreads hlt
    exact store_multiMask_of_eq _ box (mem_threadOrder σ.2) hd_inj
      ((hd_iff t lastFrame i).mpr ⟨rfl, hiff.mpr ⟨ht, hi, hnum⟩⟩)
  have hkept : ∀ {i}, isGap box lastFrame n i = false →
      stored.multiMask lastFrame i = box.multiMask lastFrame i ∧
        stored.attributes lastFrame i = box.attributes lastFrame i := by
    intro i hi
    have hnot : ∀ t, dest t ≠ some (lastFrame, i) := fun t ht => by
      have := (hiff.mp ((hd_iff t _ i).mp ht).2).2.1
      simp [hi] at this
    exact ⟨store_multiMask_of_ne _ box hnot, store_attributes_of_ne _ box hnot⟩
  have hbehind_gap : ∀ {t}, isBehind box lastFrame n t = true → isGap box lastFrame n t = false := by
    intro t ht
    by_contra hg
    have := (hgap (by simpa using hg)).1
    have := (hbehind.mp ht).1
    omega
  have hmask : ∀ t, (stored.deleteParticles lastFrame fun t => isBehind box lastFrame n t = true).multiMask
      lastFrame t = if isBehind box lastFrame n t = true then 0 else stored.multiMask lastFrame t :=
    fun t => deleteParticles_multiMask stored lastFrame _ t
  refine ⟨stored.deleteParticles lastFrame fun t => isBehind box lastFrame n t = true, ?_, rfl, fun q hq => ?_,
    fun t => ?_, fun t => ?_, fun hone => ?_⟩
  · rw [moveParticles, if_pos]
    intro t ht
    have hlt := numberThreads_lt (σ := σ.2) ht
    rw [hcount] at hlt
    obtain ⟨i, hi, hnum⟩ := exists_numberThreads hlt
    exact Option.isSome_iff_exists.mpr ⟨i, hiff.mpr ⟨ht, hi, hnum.symm⟩⟩
  · have hnot : ∀ t i, dest t ≠ some (q, i) := fun t i h => hq ((hd_iff t q i).mp h).1
    rw [deleteParticles_multiMask_of_ne stored hq]
    exact ⟨store_multiMask_frame _ _ hnot, store_attributes_frame _ _ hnot⟩
  · rw [hmask]
    split
    · omega
    · cases hg : isGap box lastFrame n t with
      | true => rw [hfilled hg]; omega
      | false => rw [(hkept hg).1]; omega
  · rw [hmask]
    cases hb : isBehind box lastFrame n t with
    | true =>
      have := (hbehind.mp hb).1
      simp only [if_true, ne_eq, not_true_eq_false, false_iff]
      omega
    | false =>
      simp only [Bool.false_eq_true, if_false]
      cases hg : isGap box lastFrame n t with
      | true => simp [hfilled hg, (hgap hg).1]
      | false =>
        rw [(hkept hg).1]
        have h1 : ¬(n ≤ t.val ∧ box.multiMask lastFrame t ≠ 0) := fun h => by simp [hbehind.mpr h] at hb
        have h2 : ¬(t.val < n ∧ box.multiMask lastFrame t = 0) := fun h => by
          simp [isGap, isParticle, h.1, h.2] at hg
        omega
  · have hbset : (Finset.univ.filter fun t => ∃ i, dest t = some (lastFrame, i)) =
        Finset.univ.filter fun t => isBehind box lastFrame n t = true := by
      refine Finset.filter_congr fun t _ => ⟨fun ⟨i, hi⟩ => (hiff.mp ((hd_iff t _ i).mp hi).2).1, fun ht => ?_⟩
      have hlt := numberThreads_lt (σ := σ.2) ht
      rw [hcount] at hlt
      obtain ⟨i, hi, hnum⟩ := exists_numberThreads hlt
      exact ⟨i, (hd_iff t _ i).mpr ⟨rfl, hiff.mpr ⟨ht, hi, hnum.symm⟩⟩⟩
    have hempty : ∀ t i, dest t = some (lastFrame, i) → box.multiMask lastFrame i = 0 := fun t i h =>
      (hgap (hiff.mp ((hd_iff t _ i).mp h).2).2.1).2
    have hstore := particles_store_frame (box.attributes lastFrame) (mem_threadOrder σ.2) hd_inj hempty
    have hbehind_one : ∀ t ∈ Finset.univ.filter fun t => isBehind box lastFrame n t = true,
        stored.multiMask lastFrame t = 1 := fun t ht => by
      have hb := (Finset.mem_filter.mp ht).2
      rw [(hkept (hbehind_gap hb)).1]
      have h1 := hone t
      have h0 := (hbehind.mp hb).2
      omega
    have hclear := particles_clear (stored.attributes lastFrame)
      ((stored.deleteParticles lastFrame fun t => isBehind box lastFrame n t = true).multiMask lastFrame)
      hbehind_one
      (fun t ht => by rw [hmask, if_pos (Finset.mem_filter.mp ht).2])
      fun t ht => by rw [hmask, if_neg fun hb => ht (by simpa using hb)]
    have hattr : (Finset.univ.filter fun t => isBehind box lastFrame n t = true).val.map
        (stored.attributes lastFrame) =
        (Finset.univ.filter fun t => isBehind box lastFrame n t = true).val.map (box.attributes lastFrame) :=
      Multiset.map_congr rfl fun t ht => (hkept (hbehind_gap (by simpa using ht))).2
    rw [hattr] at hclear
    rw [hbset] at hstore
    exact add_right_cancel (hclear.symm.trans hstore)

end Move

theorem block_spec (hT : T ≤ 65535) (σ : Equiv.Perm (Fin T) × Equiv.Perm (Fin T) × Equiv.Perm (Fin T))
    {box : ParticlesBox D T α} {L : DataSpace D → List Ptr} (hL : Linked box L) (c : DataSpace D) :
    ∃ box' k, block σ box c = some box' ∧ k ≤ T ∧
      box' = { box with
        multiMask := box'.multiMask
        attributes := box'.attributes
        sizeLastFrame := Function.update box.sizeLastFrame c k } ∧
      (∀ q, q ∉ L c → box'.multiMask q = box.multiMask q ∧ box'.attributes q = box.attributes q) ∧
      (∀ q t, box'.multiMask q t ≤ max 1 (box.multiMask q t)) ∧
      (KernelFillGaps.FullButLast box (L c) → Compact box' (L c) k) ∧
      ((∀ q ∈ L c, ∀ t, box.multiMask q t ≤ 1) → box'.contents (L c) 1 = box.contents (L c) 1) := by
  rcases List.eq_nil_or_concat (L c) with hLc | ⟨l, lastFrame, hLc⟩
  · have hlast : box.lastFramePtr c = none := by simp [hL.last, hLc]
    refine ⟨box.setSizeLastFrame c 0, 0, by simp [block, hlast], by omega, rfl, fun _ _ => ⟨rfl, rfl⟩,
      fun _ _ => le_max_right _ _, fun _ => ?_, fun _ => ?_⟩
    · rw [hLc]
      exact ⟨fun l p he => by simp at he, fun _ => rfl, by omega⟩
    · rw [hLc]
      rfl
  · rw [List.concat_eq_append] at hLc
    have hlast : box.lastFramePtr c = some lastFrame := by simp [hL.last, hLc]
    have hnd := hL.nodup c
    rw [hLc] at hnd
    have hl : ∀ q ∈ l, q ≠ lastFrame := fun q hq => (List.nodup_append.mp hnd).2.2 q hq lastFrame (by simp)
    have hn : counterParticles box lastFrame σ.1 =
        (Finset.univ.filter fun t => isParticle box lastFrame t = true).card :=
      numberThreads_count _ _
    have hnT : counterParticles box lastFrame σ.1 ≤ T := numberThreads_le _ _
    obtain ⟨box₁, hmove, hlinks, hother, hle, hfilled, hpart⟩ := moveParticles_spec (σ := σ.2) hn
    refine ⟨box₁.setSizeLastFrame c (counterParticles box lastFrame σ.1), counterParticles box lastFrame σ.1,
      ?_, hnT, ?_, fun q hq => hother q fun he => hq (by simp [hLc, he]), fun q t => ?_, fun hfb => ?_,
      fun hone => ?_⟩
    · simp [block, hlast, hmove]
    · rw [hlinks]
      simp [setSizeLastFrame, Nat.mod_eq_of_lt (show counterParticles box lastFrame σ.1 < 65536 by omega)]
    · by_cases hq : q = lastFrame
      · subst hq
        exact hle t
      · change box₁.multiMask q t ≤ _
        rw [(hother q hq).1]
        exact le_max_right _ _
    · refine ⟨?_, fun he => by simp [hLc] at he, hnT⟩
      rw [hLc]
      intro l' p he
      obtain ⟨rfl, hp⟩ := List.append_inj' he rfl
      obtain rfl : lastFrame = p := by simpa using hp
      refine ⟨fun q hq t => ?_, hfilled⟩
      change box₁.multiMask q t ≠ 0
      rw [(hother q (hl q hq)).1]
      exact hfb l lastFrame hLc q hq t
    · rw [hLc]
      have hcl : box₁.contents l 1 = box.contents l 1 :=
        contents_congr (fun q hq => (hother q (hl q hq)).1) fun q hq => (hother q (hl q hq)).2
      change box₁.contents (l ++ [lastFrame]) 1 = _
      simp only [contents_append, contents_cons, contents_nil, add_zero, hcl,
        hpart (hone lastFrame (by simp [hLc]))]

end KernelFillGapsLastFrame

/-- The two kernels close all gaps of a supercell. A frame that the first one frees has no particle at that
moment, and the second one frees none. -/
theorem gaps_filled (hT : T ≤ 65535) (order : ℕ → Equiv.Perm (Fin T) × Equiv.Perm (Fin T))
    (σ : Equiv.Perm (Fin T) × Equiv.Perm (Fin T) × Equiv.Perm (Fin T)) {box : ParticlesBox D T α}
    {L : DataSpace D → List Ptr} (hL : Linked box L) (c : DataSpace D)
    (hone : ∀ q ∈ L c, ∀ t, box.multiMask q t ≤ 1) :
    ∃ box₁ box₂ L', KernelFillGaps.block order box c = some box₁ ∧
      KernelFillGapsLastFrame.block σ box₁ c = some box₂ ∧
      Linked box₂ L' ∧ L' c ⊆ L c ∧ Compact box₂ (L' c) (box₂.sizeLastFrame c) ∧
      (∀ q ∈ L' c, ∀ t, box₂.multiMask q t ≤ 1) ∧ box₂.contents (L' c) 1 = box.contents (L c) 1 ∧
      (∀ s, s ≠ c → L' s = L s ∧
        ∀ q ∈ L s, box₂.multiMask q = box.multiMask q ∧ box₂.attributes q = box.attributes q) ∧
      KernelFillGaps.Path box (KernelFillGaps.blockRounds order box c) box₁ ∧
      (∀ m ∈ KernelFillGaps.blockRounds order box c, ∀ q ∈ m.1.allocated, q ∉ m.2.allocated →
        ∀ t, m.2.multiMask q t = 0) ∧
      box₂.allocated = box₁.allocated := by
  obtain ⟨box₁, L', hrun₁, htidy, hfb, hpath, hfreed⟩ := KernelFillGaps.block_spec hT order hL c
  obtain ⟨box₂, k, hrun₂, -, hbox, hother, hle, hcompact, hcontents⟩ :=
    KernelFillGapsLastFrame.block_spec hT σ htidy.linked c
  have hone₁ : ∀ q ∈ L' c, ∀ t, box₁.multiMask q t ≤ 1 := fun q hq t => by
    have h1 := htidy.multiMask_le q hq t
    have h2 := hone q (htidy.own hq) t
    omega
  have hsize : box₂.sizeLastFrame c = k := by
    rw [hbox]
    exact Function.update_self _ _ _
  refine ⟨box₁, box₂, L', hrun₁, hrun₂, ?_, htidy.own, ?_, fun q hq t => ?_, ?_, fun s hs =>
    ⟨htidy.lists s hs, fun q hq => ?_⟩, hpath, hfreed hone, by rw [hbox]⟩
  · rw [hbox]
    exact htidy.linked.congr rfl rfl (fun _ _ _ => rfl) (fun _ _ _ => rfl) htidy.linked.allocated
  · rw [hsize]
    exact hcompact hfb
  · have h1 := hle q t
    have h2 := hone₁ q hq t
    omega
  · rw [hcontents hone₁, htidy.contents_eq]
  · have hq' : q ∈ L' s := htidy.lists s hs ▸ hq
    obtain ⟨hm, ha⟩ := hother q fun hqc => hs (htidy.linked.disjoint s c q hq' hqc)
    obtain ⟨hm', ha'⟩ := htidy.frames s hs q hq
    exact ⟨hm.trans hm', ha.trans ha'⟩

def twoGaps : ParticlesBox 2 2 ℕ where
  multiMask _ t := t
  attributes p _ := p
  previousFrame p := if p = 2 then some 1 else none
  nextFrame p := if p = 1 then some 2 else none
  firstFramePtr c := if c = 0 then some 1 else none
  lastFramePtr c := if c = 0 then some 2 else none
  mustShift _ := false
  sizeLastFrame _ := 0
  allocated := {1, 2}
  attempts := 0

def twoGapsLists (c : DataSpace 2) : List Ptr := if c = 0 then [1, 2] else []

theorem twoGaps_linked : Linked twoGaps twoGapsLists := by
  have hcases : ∀ c l p r, twoGapsLists c = l ++ p :: r → (l = [] ∧ p = 1 ∧ r = [2]) ∨ (l = [1] ∧ p = 2 ∧ r = []) := by
    intro c l p r he
    unfold twoGapsLists at he
    split at he
    · rcases l with _ | ⟨a, _ | ⟨b, l⟩⟩ <;> simp at he
      · exact .inl ⟨rfl, he.1.symm, he.2.symm⟩
      · exact .inr ⟨by rw [he.1], he.2.1.symm, he.2.2⟩
    · simp at he
  refine ⟨fun c => ?_, fun c => ?_, fun c l p r he => ?_, fun c l p r he => ?_, fun c => ?_, fun c c' p hp hp' => ?_,
    fun c p hp => ?_⟩
  · simp only [twoGaps, twoGapsLists]
    split <;> rfl
  · simp only [twoGaps, twoGapsLists]
    split <;> rfl
  · rcases hcases c l p r he with ⟨-, rfl, rfl⟩ | ⟨-, rfl, rfl⟩ <;> rfl
  · rcases hcases c l p r he with ⟨rfl, rfl, -⟩ | ⟨rfl, rfl, -⟩ <;> rfl
  · unfold twoGapsLists
    split <;> simp
  · unfold twoGapsLists at hp hp'
    split at hp
    · split at hp'
      · simp_all
      · simp at hp'
    · simp at hp
  · unfold twoGapsLists at hp
    split at hp
    · simpa [twoGaps] using hp
    · simp at hp

theorem gaps_filled_twoGaps : (∀ q ∈ twoGapsLists 0, ∀ t, twoGaps.multiMask q t ≤ 1) ∧
    ∃ box₁ box₂, KernelFillGaps.block (fun _ => (1, 1)) twoGaps 0 = some box₁ ∧
      KernelFillGapsLastFrame.block (1, 1, 1) box₁ 0 = some box₂ ∧ box₂.allocated = box₁.allocated := by
  have hone : ∀ q ∈ twoGapsLists 0, ∀ t, twoGaps.multiMask q t ≤ 1 := fun q _ t => by
    have := t.isLt
    simp only [twoGaps]
    omega
  obtain ⟨box₁, box₂, L', h₁, h₂, -, -, -, -, -, -, -, -, h₃⟩ :=
    gaps_filled (by norm_num) (fun _ => (1, 1)) (1, 1, 1) twoGaps_linked 0 hone
  exact ⟨hone, box₁, box₂, h₁, h₂, h₃⟩

end PIConGPU
